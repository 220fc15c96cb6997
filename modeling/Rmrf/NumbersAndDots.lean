-- The laws of the numbers-and-dots notation: one to four components, in decimal, octal
-- or hexadecimal. The parser reads a component that begins with two zeros as a decimal
-- one, and an `int` on its way loses the upper half of the single components.
import Rmrf.Ip4Canonical

open fields machine numerals

namespace rmrf.net.details

/-! ## The parser -/

/-- The components `c1` to `c4`, or nothing where there are more than three separators. -/
def inet_components (str : List Char) : Option (Option (Int × Int × Int × Int)) := do
  let sep3 ← rfind_chr str (str.length - 1) '.'
  if sep3 > 0 then
    let c1 ← parse_inet_component 255 str 0
    let c4 ← parse_inet_component 255 str (sep3 + 1).toNat
    let sep2 ← rfind_chr str (sep3 - 1) '.'
    if sep2 > 0 then
      let sep1 ← rfind_chr str (sep2 - 1) '.'
      if sep1 > 0 then
        if (← rfind_chr str (sep1 - 1) '.') ≠ -1 then return none
        let c2 ← parse_inet_component 255 str (sep1 + 1).toNat
        let c3 ← parse_inet_component 255 str (sep2 + 1).toNat
        return some (c1, c2, c3, c4)
      else
        let c2 ← parse_inet_component 255 str (sep2 + 1).toNat
        return some (c1, c2, 0, c4)
    else
      return some (c1, 0, 0, c4)
  else
    let c4 ← parse_inet_component 0xFFFFFFFF str 0
    return some (0, 0, 0, c4)

/-- The value that is returned, and `s_addr` after the call. -/
def inet_addr_impl (order : ByteOrder) (str : List Char) (s_addr : Nat) : Option (Int × Nat) := do
  if str.length = 0 then return (-1, s_addr)
  if (← str[0]?) = '.' then return (-1, s_addr)
  if (← str[str.length - 1]?) = '.' then return (-1, s_addr)
  match ← inet_components str with
  | none => return (-1, s_addr)
  | some (c1, c2, c3, c4) =>
    if c1 < 0 ∨ c2 < 0 ∨ c3 < 0 ∨ c4 < 0 then return (-1, s_addr)
    return (0, host_to_net order (orOfShifts c1 c2 c3 c4))

/-! ## The notation -/

/-- A component in one of the three bases, and the number it stands for. -/
inductive Spelling : List Char → Nat → Prop
  | dec {t} : Numeral 10 t → (t.head? = some '0' → t = ['0']) → Spelling t (value 10 t)
  | oct {t} : Numeral 8 t → Spelling ('0' :: t) (value 8 t)
  | hex {x t} : x = 'x' ∨ x = 'X' → Numeral 16 t → Spelling ('0' :: x :: t) (value 16 t)

/-- A component that begins with two zeros. -/
def DoubleZero (t : List Char) : Prop := ['0', '0'] <+: t

instance (t : List Char) : Decidable (DoubleZero t) :=
  inferInstanceAs (Decidable (['0', '0'] <+: t))

/-- The number that the parser reads in a component that stands for `v`. -/
def readAs (t : List Char) (v : Nat) : Nat := if DoubleZero t then value 10 t else v

theorem isDigit_mono {base base' : Nat} (h : base ≤ base') {c : Char} (hc : isDigit base c) :
    isDigit base' c := by
  obtain ⟨d, hd, hlt⟩ := isDigit_iff.mp hc
  exact isDigit_iff.mpr ⟨d, hd, Nat.lt_of_lt_of_le hlt h⟩

theorem not_isDigit_dot (base : Base) : ¬ isDigit base.toNat '.' = true := by
  cases base <;> decide

theorem no_dot_of_numeral {b : Base} {t : List Char} (h : Numeral b.toNat t) : '.' ∉ t :=
  fun hmem => not_isDigit_dot b (h.2 '.' hmem)

theorem Spelling.ne_nil {t : List Char} {v : Nat} (h : Spelling t v) : t ≠ [] := by
  cases h with
  | dec hnum => exact hnum.1
  | oct => exact List.cons_ne_nil _ _
  | hex => exact List.cons_ne_nil _ _

theorem Spelling.no_dot {t : List Char} {v : Nat} (h : Spelling t v) : '.' ∉ t := by
  cases h with
  | dec hnum => exact no_dot_of_numeral (b := .dec) hnum
  | oct hnum =>
    have hdot := no_dot_of_numeral (b := .oct) hnum
    simp [hdot]
  | hex hx hnum =>
    have hdot := no_dot_of_numeral (b := .hex) hnum
    rcases hx with rfl | rfl <;> simp [hdot]

/-! ## One component -/

theorem toupper_eq_X_iff (c : Char) : toupper c = 'X' ↔ c = 'x' ∨ c = 'X' := by
  unfold toupper
  by_cases hlow : islower c = true
  · have hrange : 'a' ≤ c ∧ c ≤ 'z' := by simpa [islower] using hlow
    have hlo : 97 ≤ c.toNat := hrange.1
    have hhi : c.toNat ≤ 122 := hrange.2
    obtain ⟨n, hn⟩ := Nat.exists_eq_add_of_le hlo
    have hc : c = Char.ofNat (97 + n) := by rw [← hn, Char.ofNat_toNat]
    have htable : ∀ n < 26, Char.ofNat ((97 + n) ^^^ 0x20) = 'X' ↔
        Char.ofNat (97 + n) = 'x' ∨ Char.ofNat (97 + n) = 'X' := by decide
    rw [hlow, if_neg (by decide), hn, hc]
    exact htable n (by omega)
  · have hx : c ≠ 'x' := by
      rintro rfl
      exact hlow (by decide)
    rw [Bool.not_eq_true] at hlow
    rw [hlow, if_pos (by decide)]
    simp [hx]

/-- The text of a component goes to the end of the string or to a dot. -/
def Ends (rest : List Char) : Prop := rest = [] ∨ ∃ more, rest = '.' :: more

theorem field_ends {t rest : List Char} (ht : '.' ∉ t) (h : Ends rest) :
    field '.' (t ++ rest) = t := by
  rcases h with rfl | ⟨more, rfl⟩
  · rw [List.append_nil, field_of_not_mem ht]
  · exact field_append_cons ht more

/-- The number of a component in a base, or -1. -/
def numeralIn (base : Base) (max_value : Nat) (t : List Char) : Int :=
  toInt (if Component base max_value 0 t then (value base.toNat t : Int) else -1)

/-- What the parser makes of the text of a component. -/
def componentOf (max_value : Nat) (t : List Char) : Int :=
  if afterZero (fun c => toupper c = 'X') t then numeralIn .hex max_value (t.drop 2)
  else if afterZero (fun c => isdigit c && c ≠ '0') t then numeralIn .oct max_value (t.drop 1)
  else numeralIn .dec max_value t

theorem parse_inet_component_base_at {s u t rest : List Char} (hs : s = u ++ (t ++ rest))
    (ht : '.' ∉ t) (hrest : Ends rest) (base : Base) (max_value : Nat) :
    parse_inet_component_base base max_value (cstr s) u.length =
      some (numeralIn base max_value t) := by
  subst hs
  unfold parse_inet_component_base numeralIn
  rw [parse_address_component.spec _ (by simp), List.drop_left, field_ends ht hrest]
  rfl

theorem afterZero_eq_true {next : Char → Bool} {t : List Char} (h : afterZero next t = true) :
    ∃ c more, t = '0' :: c :: more ∧ next c = true := by
  unfold afterZero at h
  split at h
  · exact ⟨_, _, rfl, h⟩
  · cases h

/-- The two characters at the head of a component decide, whatever is behind it. -/
theorem afterZero_append {next : Char → Bool} (hdot : next '.' = false) (t : List Char)
    {rest : List Char} (h : Ends rest) : afterZero next (t ++ rest) = afterZero next t := by
  match t with
  | [] =>
    rcases h with rfl | ⟨more, rfl⟩
    · rfl
    · exact afterZero_of_ne (by decide) next more
  | [z] =>
    by_cases hz : z = '0'
    · subst hz
      rcases h with rfl | ⟨more, rfl⟩
      · rfl
      · rw [List.singleton_append, afterZero_zero, hdot]
        rfl
    · rw [List.singleton_append, afterZero_of_ne hz, afterZero_of_ne hz]
  | z :: c :: t =>
    by_cases hz : z = '0'
    · subst hz
      rfl
    · rw [List.cons_append, afterZero_of_ne hz, afterZero_of_ne hz]

theorem parse_inet_component.spec {s u t rest : List Char} (hs : s = u ++ (t ++ rest))
    (ht : '.' ∉ t) (hrest : Ends rest) (max_value : Nat) :
    parse_inet_component max_value (cstr s) u.length = some (componentOf max_value t) := by
  have hlen : u.length ≤ s.length := by simp [hs]
  have hdrop : s.drop u.length = t ++ rest := by rw [hs, List.drop_left]
  unfold parse_inet_component componentOf
  rw [zero_before.spec s hlen, zero_before.spec s hlen, hdrop, afterZero_append (by decide) t hrest,
    afterZero_append (by decide) t hrest]
  simp only [Option.bind_eq_bind, Option.bind_some]
  by_cases hhex : afterZero (fun c => toupper c = 'X') t = true
  · obtain ⟨x, t', rfl, _⟩ := afterZero_eq_true hhex
    have hat := parse_inet_component_base_at (s := s) (u := u ++ ['0', x]) (t := t') (by simp [hs])
      (by simp_all) hrest .hex max_value
    rw [List.length_append] at hat
    rw [if_pos hhex, if_pos hhex]
    exact hat
  · rw [if_neg hhex, if_neg hhex]
    by_cases hoct : afterZero (fun c => isdigit c && c ≠ '0') t = true
    · obtain ⟨c, t', rfl, _⟩ := afterZero_eq_true hoct
      have hat := parse_inet_component_base_at (s := s) (u := u ++ ['0']) (t := c :: t')
        (by simp [hs]) (by simp_all) hrest .oct max_value
      rw [List.length_append] at hat
      rw [if_pos hoct, if_pos hoct]
      exact hat
    · rw [if_neg hoct, if_neg hoct]
      exact parse_inet_component_base_at hs ht hrest .dec max_value

/-- What is left of a number above the bound of its component. -/
def cut (max_value v : Nat) : Int := toInt (if v ≤ max_value then (v : Int) else -1)

theorem numeralIn_of_numeral (base : Base) {t : List Char} (h : Numeral base.toNat t)
    (max_value : Nat) : numeralIn base max_value t = cut max_value (value base.toNat t) := by
  have hiff : Component base max_value 0 t ↔ value base.toNat t ≤ max_value :=
    ⟨fun hc => hc.2.value, fun hle => ⟨h.1, h.2, fun h0 => absurd h0 (by decide), hle⟩⟩
  unfold numeralIn cut
  simp only [hiff]

theorem readAs_of_ne {c : Char} (h : c ≠ '0') (z : Char) (t : List Char) (v : Nat) :
    readAs (z :: c :: t) v = v := by
  rw [readAs, if_neg]
  rintro ⟨u, hu⟩
  exact h (List.cons.inj (List.cons.inj hu).2).1.symm

theorem readAs_zero (t : List Char) (v : Nat) :
    readAs ('0' :: '0' :: t) v = value 10 ('0' :: '0' :: t) :=
  if_pos ⟨t, rfl⟩

/-- A component of the notation gives the number that the parser reads in it, if that is
within the bound. -/
theorem componentOf_spelling {t : List Char} {v : Nat} (ht : Spelling t v) (max_value : Nat) :
    componentOf max_value t = cut max_value (readAs t v) := by
  unfold componentOf
  cases ht with
  | @dec t hnum hplain =>
    have hplainly : ∀ next, afterZero next t = false := by
      intro next
      by_contra htrue
      obtain ⟨c, more, rfl, _⟩ := afterZero_eq_true (Bool.not_eq_false _ ▸ htrue)
      exact absurd (hplain rfl) (by simp)
    rw [hplainly, hplainly, if_neg (by decide), if_neg (by decide), readAs, ite_self]
    exact numeralIn_of_numeral .dec hnum max_value
  | @oct t hnum =>
    obtain ⟨c, t, rfl⟩ := List.exists_cons_of_ne_nil hnum.1
    have hdigit : isDigit 8 c = true := hnum.2 c List.mem_cons_self
    have hdec : isdigit c = true :=
      (is_valid_digit_eq .dec c).trans (isDigit_mono (by decide) hdigit)
    have hnotX : ¬ toupper c = 'X' := by
      rw [toupper_eq_X_iff]
      rintro (rfl | rfl) <;> exact absurd hdigit (by decide)
    rw [afterZero_zero, afterZero_zero, hdec, if_neg (by simpa using hnotX)]
    by_cases hc : c = '0'
    · -- two zeros: the decimal parser takes the whole component
      subst hc
      have hall : Numeral 10 ('0' :: '0' :: t) :=
        ⟨List.cons_ne_nil _ _, List.forall_mem_cons.mpr
          ⟨by decide, fun x hx => isDigit_mono (by decide) (hnum.2 x hx)⟩⟩
      rw [if_neg (by decide), readAs_zero]
      exact numeralIn_of_numeral .dec hall max_value
    · rw [if_pos (by simpa using hc), readAs_of_ne hc]
      exact numeralIn_of_numeral .oct hnum max_value
  | @hex x t hx hnum =>
    have hX : toupper x = 'X' := (toupper_eq_X_iff x).mpr hx
    have hx0 : x ≠ '0' := by rcases hx with rfl | rfl <;> decide
    rw [afterZero_zero, if_pos (by simpa using hX), readAs_of_ne hx0]
    exact numeralIn_of_numeral .hex hnum max_value

theorem cut_lt_zero_iff {max_value : Nat} (hmax : max_value < 2 ^ 32) (v : Nat) :
    cut max_value v < 0 ↔ ¬ (v ≤ max_value ∧ v ≤ 0x7FFFFFFF) := by
  unfold cut
  by_cases hle : v ≤ max_value
  · rw [if_pos hle]
    by_cases hint : v ≤ 0x7FFFFFFF
    · rw [toInt_natCast (by omega)]
      constructor
      · intro hneg
        omega
      · intro hnot
        exact absurd ⟨hle, hint⟩ hnot
    · apply iff_of_true
      · exact toInt_of_le (by omega) (by omega)
      · intro h
        exact hint h.2
  · rw [if_neg hle, toInt_neg_one]
    apply iff_of_true
    · decide
    · intro h
      exact hle h.1

/-! ## The dots of a text -/

section Dots

variable {s u v w : List Char} {start : Int}

theorem rfind_chr_dot (hs : cstr s = u ++ '.' :: v ++ w) (hv : '.' ∉ v)
    (hstart : start = u.length + v.length) :
    rfind_chr (cstr s) start '.' = some (u.length : Int) := by
  have hn : (start + 1).toNat = u.length + 1 + v.length := by omega
  unfold rfind_chr
  rw [hs, hn, rfind_chr_loop_last hv]

theorem rfind_chr_none (hs : cstr s = v ++ w) (hv : '.' ∉ v) (hstart : start = v.length - 1) :
    rfind_chr (cstr s) start '.' = some (-1) := by
  have hn : (start + 1).toNat = ([] : List Char).length + v.length := by simp [hstart]
  have hskip := rfind_chr_loop_skip hv [] w
  unfold rfind_chr
  rw [hs, hn]
  exact hskip

end Dots

/-- The component that follows `u`. -/
theorem component_at {s u t rest : List Char} {i : Int} (hs : s = u ++ (t ++ rest))
    (ht : '.' ∉ t) (hrest : Ends rest) (hi : i = u.length) (max_value : Nat) :
    parse_inet_component max_value (cstr s) i.toNat = some (componentOf max_value t) := by
  subst hi
  rw [Int.toNat_natCast]
  exact parse_inet_component.spec hs ht hrest max_value

theorem ends_nil : Ends [] := Or.inl rfl

theorem ends_dot (more : List Char) : Ends ('.' :: more) := Or.inr ⟨more, rfl⟩

/-- What the parser makes of the parts between the dots. -/
def partsRead : List (List Char) → Option (Int × Int × Int × Int)
  | [a] => some (0, 0, 0, componentOf 0xFFFFFFFF a)
  | [a, b] => some (componentOf 255 a, 0, 0, componentOf 255 b)
  | [a, b, c] => some (componentOf 255 a, componentOf 255 b, 0, componentOf 255 c)
  | [a, b, c, d] =>
    some (componentOf 255 a, componentOf 255 b, componentOf 255 c, componentOf 255 d)
  | _ => none

theorem partsRead_of_long {ps : List (List Char)} (h : 4 < ps.length) : partsRead ps = none := by
  match ps with
  | [] | [_] | [_, _] | [_, _, _] | [_, _, _, _] => simp at h
  | _ :: _ :: _ :: _ :: _ :: _ => rfl

section Parts

variable {s u a b c d : List Char}

theorem inet_components_one (ha : '.' ∉ a) :
    inet_components (cstr a) = some (partsRead [a]) := by
  have h3 := rfind_chr_none (v := a) (w := [NUL]) rfl ha rfl
  have h4 := component_at (u := []) (i := 0) (s := a) (by simp) ha ends_nil rfl 0xFFFFFFFF
  rw [Int.toNat_zero] at h4
  unfold inet_components
  rw [rfind_chr_cstr]
  simp only [h3, Option.bind_eq_bind, Option.bind_some]
  rw [if_neg (by decide), h4]
  rfl

theorem inet_components_two (hs : s = a ++ '.' :: b) (hpos : 0 < a.length) (ha : '.' ∉ a)
    (hb : '.' ∉ b) : inet_components (cstr s) = some (partsRead [a, b]) := by
  have h3 : rfind_chr (cstr s) (s.length - 1) '.' = some (a.length : Int) :=
    rfind_chr_dot (v := b) (w := [NUL]) (by simp [hs, cstr]) hb (by simp [hs]; omega)
  have h2 : rfind_chr (cstr s) (a.length - 1) '.' = some (-1) :=
    rfind_chr_none (w := '.' :: b ++ [NUL]) (by simp [hs, cstr]) ha rfl
  have h1 := component_at (u := []) (i := 0) hs ha (ends_dot b) rfl 255
  have h4 := component_at (u := a ++ ['.']) (i := a.length + 1) (s := s) (by simp [hs]) hb
    ends_nil (by simp) 255
  rw [Int.toNat_zero] at h1
  unfold inet_components
  rw [rfind_chr_cstr]
  simp only [h3, h2, h1, h4, Option.bind_eq_bind, Option.bind_some]
  rw [if_pos (by omega), if_neg (by decide)]
  rfl

theorem inet_components_three (hs : s = a ++ '.' :: (b ++ '.' :: c)) (hpos : 0 < a.length)
    (ha : '.' ∉ a) (hb : '.' ∉ b) (hc : '.' ∉ c) :
    inet_components (cstr s) = some (partsRead [a, b, c]) := by
  have h3 : rfind_chr (cstr s) (s.length - 1) '.' = some ((a ++ '.' :: b).length : Int) :=
    rfind_chr_dot (v := c) (w := [NUL]) (by simp [hs, cstr]) hc (by simp [hs]; omega)
  have h2 : rfind_chr (cstr s) ((a ++ '.' :: b).length - 1) '.' = some (a.length : Int) :=
    rfind_chr_dot (v := b) (w := '.' :: c ++ [NUL]) (by simp [hs, cstr]) hb (by simp; omega)
  have h1 : rfind_chr (cstr s) (a.length - 1) '.' = some (-1) :=
    rfind_chr_none (w := '.' :: (b ++ '.' :: c) ++ [NUL]) (by simp [hs, cstr]) ha rfl
  have hc1 := component_at (u := []) (i := 0) hs ha (ends_dot _) rfl 255
  have hc2 := component_at (u := a ++ ['.']) (i := a.length + 1) (s := s) (by simp [hs]) hb
    (ends_dot c) (by simp) 255
  have hc4 := component_at (u := a ++ '.' :: b ++ ['.']) (i := (a ++ '.' :: b).length + 1)
    (s := s) (by simp [hs]) hc ends_nil (by simp; omega) 255
  rw [Int.toNat_zero] at hc1
  unfold inet_components
  rw [rfind_chr_cstr]
  simp only [h3, h2, h1, hc1, hc2, hc4, Option.bind_eq_bind, Option.bind_some]
  rw [if_pos (by simp; omega), if_pos (by omega), if_neg (by decide)]
  rfl

/-- With three dots or more, the parser stops when there is one before the last three. -/
theorem inet_components_last (hs : s = u ++ '.' :: (b ++ '.' :: (c ++ '.' :: d)))
    (hpos : 0 < u.length) (hb : '.' ∉ b) (hc : '.' ∉ c) (hd : '.' ∉ d) {sep0 c1 : Int}
    (h0 : rfind_chr (cstr s) (u.length - 1) '.' = some sep0)
    (hc1 : parse_inet_component 255 (cstr s) 0 = some c1) :
    inet_components (cstr s) =
      some (if sep0 ≠ -1 then none
        else some (c1, componentOf 255 b, componentOf 255 c, componentOf 255 d)) := by
  have h3 : rfind_chr (cstr s) (s.length - 1) '.' =
      some ((u ++ '.' :: (b ++ '.' :: c)).length : Int) :=
    rfind_chr_dot (v := d) (w := [NUL]) (by simp [hs, cstr]) hd (by simp [hs]; omega)
  have h2 : rfind_chr (cstr s) ((u ++ '.' :: (b ++ '.' :: c)).length - 1) '.' =
      some ((u ++ '.' :: b).length : Int) :=
    rfind_chr_dot (v := c) (w := '.' :: d ++ [NUL]) (by simp [hs, cstr]) hc (by simp; omega)
  have h1 : rfind_chr (cstr s) ((u ++ '.' :: b).length - 1) '.' = some (u.length : Int) :=
    rfind_chr_dot (v := b) (w := '.' :: (c ++ '.' :: d) ++ [NUL]) (by simp [hs, cstr]) hb
      (by simp; omega)
  have hc2 := component_at (u := u ++ ['.']) (i := u.length + 1) (s := s) (by simp [hs]) hb
    (ends_dot (c ++ '.' :: d)) (by simp) 255
  have hc3 := component_at (u := u ++ '.' :: b ++ ['.']) (i := (u ++ '.' :: b).length + 1)
    (s := s) (by simp [hs]) hc (ends_dot d) (by simp; omega) 255
  have hc4 := component_at (u := u ++ '.' :: (b ++ '.' :: c) ++ ['.'])
    (i := (u ++ '.' :: (b ++ '.' :: c)).length + 1) (s := s) (by simp [hs]) hd ends_nil
    (by simp; omega) 255
  unfold inet_components
  rw [rfind_chr_cstr]
  simp only [h3, h2, h1, h0, hc1, hc2, hc3, hc4, Option.bind_eq_bind, Option.bind_some]
  rw [if_pos (by simp; omega), if_pos (by simp; omega), if_pos (by omega)]
  split_ifs <;> rfl

end Parts

/-- A text that does not begin with a dot is read part by part. -/
theorem inet_components.spec {s : List Char} (hs : s.head? ≠ some '.') :
    inet_components (cstr s) = some (partsRead (s.splitOn '.')) := by
  have hpos : ∀ {a : List Char} {v : List Char}, s = a ++ '.' :: v → 0 < a.length := by
    rintro a v rfl
    cases a with
    | nil => exact absurd rfl hs
    | cons x a => exact Nat.succ_pos _
  by_cases h3 : '.' ∈ s
  · obtain ⟨u3, d, hd3, hd⟩ := exists_last_sep h3
    have hsplit3 : s.splitOn '.' = u3.splitOn '.' ++ [d] := by rw [hd3, splitOn_append_last hd]
    by_cases h2 : '.' ∈ u3
    · obtain ⟨u2, c, rfl, hc⟩ := exists_last_sep h2
      rw [splitOn_append_last hc] at hsplit3
      by_cases h1 : '.' ∈ u2
      · obtain ⟨u, b, rfl, hb⟩ := exists_last_sep h1
        rw [splitOn_append_last hb] at hsplit3
        have hcut : s = u ++ '.' :: (b ++ '.' :: (c ++ '.' :: d)) := by rw [hd3]; simp
        by_cases h0 : '.' ∈ u
        · -- a fourth dot
          obtain ⟨u0, a, rfl, ha⟩ := exists_last_sep h0
          obtain ⟨t, more, ht, hdot⟩ := List.eq_append_cons_of_mem h3
          have hc1 := component_at (u := []) (i := 0) ht hdot (ends_dot more) rfl 255
          have hsep0 : rfind_chr (cstr s) ((u0 ++ '.' :: a).length - 1) '.' =
              some (u0.length : Int) :=
            rfind_chr_dot (w := '.' :: (b ++ '.' :: (c ++ '.' :: d)) ++ [NUL])
              (by rw [hcut]; simp [cstr]) ha (by simp; omega)
          have hlong : 4 < (s.splitOn '.').length := by
            have hne := List.length_pos_iff.mpr (List.splitOn_ne_nil '.' u0)
            rw [hsplit3, splitOn_append_last ha]
            simp only [List.length_append, List.length_singleton]
            omega
          rw [inet_components_last hcut (hpos hcut) hb hc hd hsep0 hc1, if_pos (by omega),
            partsRead_of_long hlong]
        · have hc1 := component_at (u := []) (i := 0) hcut h0 (ends_dot _) rfl 255
          have hsep0 : rfind_chr (cstr s) (u.length - 1) '.' = some (-1) :=
            rfind_chr_none (by rw [hcut]; simp [cstr]; rfl) h0 rfl
          rw [inet_components_last hcut (hpos hcut) hb hc hd hsep0 hc1, hsplit3,
            List.splitOn_eq_singleton h0]
          rfl
      · rw [hsplit3, List.splitOn_eq_singleton h1]
        exact inet_components_three (by rw [hd3]; simp) (hpos (by rw [hd3]; simp; rfl)) h1 hc hd
    · rw [hsplit3, List.splitOn_eq_singleton h2]
      exact inet_components_two hd3 (hpos hd3) h2 hd
  · rw [List.splitOn_eq_singleton h3]
    exact inet_components_one h3

/-- An empty part is no component. -/
theorem componentOf_nil (max_value : Nat) : componentOf max_value [] = -1 := by
  have hnot : ¬ Component .dec max_value 0 [] := fun h => h.1 rfl
  unfold componentOf numeralIn
  rw [if_neg (by decide), if_neg (by decide), if_neg hnot, toInt_neg_one]

theorem partsRead_nil_cons {ps : List (List Char)} {c1 c2 c3 c4 : Int} (hne : ps ≠ [])
    (h : partsRead ([] :: ps) = some (c1, c2, c3, c4)) : c1 < 0 := by
  match ps with
  | [] => exact absurd rfl hne
  | [_] | [_, _] | [_, _, _] =>
    cases h
    rw [componentOf_nil]
    decide
  | _ :: _ :: _ :: _ :: _ => cases h

/-- The parser takes a text when it has a number for each of its parts. -/
theorem inet_addr_impl.spec (order : ByteOrder) (s : List Char) (s_addr : Nat) :
    inet_addr_impl order (cstr s) s_addr = some (match partsRead (s.splitOn '.') with
      | none => (-1, s_addr)
      | some (c1, c2, c3, c4) =>
        if c1 < 0 ∨ c2 < 0 ∨ c3 < 0 ∨ c4 < 0 then (-1, s_addr)
        else (0, host_to_net order (orOfShifts c1 c2 c3 c4))) := by
  have hlast : (cstr s)[(cstr s).length - 1]? = some NUL := by simp [cstr]
  have hNUL : NUL ≠ '.' := by decide
  unfold inet_addr_impl
  rw [if_neg (by simp), hlast]
  by_cases hhead : s.head? = some '.'
  · obtain ⟨t, rfl⟩ : ∃ t, s = '.' :: t := ⟨s.tail, List.eq_cons_of_mem_head? hhead⟩
    have hsplit : ('.' :: t).splitOn '.' = [] :: t.splitOn '.' := by
      rw [← List.nil_append ('.' :: t), List.splitOn_append_cons_self_of_not_mem List.not_mem_nil]
    have hne := List.splitOn_ne_nil '.' t
    rw [hsplit]
    cases hread : partsRead ([] :: t.splitOn '.') with
    | none => rfl
    | some c =>
      obtain ⟨c1, c2, c3, c4⟩ := c
      simp only []
      rw [if_pos (Or.inl (partsRead_nil_cons hne hread))]
      rfl
  · obtain ⟨c, hc, hdot⟩ : ∃ c, (cstr s)[0]? = some c ∧ c ≠ '.' := by
      cases s with
      | nil => exact ⟨NUL, rfl, hNUL⟩
      | cons c t => exact ⟨c, rfl, fun heq => hhead (by rw [heq]; rfl)⟩
    rw [hc]
    simp only [Option.bind_eq_bind, Option.bind_some, if_neg hdot, if_neg hNUL,
      inet_components.spec hhead]
    cases partsRead (s.splitOn '.') with
    | none => rfl
    | some c =>
      obtain ⟨c1, c2, c3, c4⟩ := c
      simp only []
      split_ifs <;> rfl

theorem taken_iff {s : List Char} {c1 c2 c3 c4 : Int}
    (h : partsRead (s.splitOn '.') = some (c1, c2, c3, c4)) (order : ByteOrder) (s_addr : Nat) :
    (∃ r, inet_addr_impl order (cstr s) s_addr = some (0, r)) ↔
      ¬ (c1 < 0 ∨ c2 < 0 ∨ c3 < 0 ∨ c4 < 0) := by
  rw [inet_addr_impl.spec, h]
  by_cases hneg : c1 < 0 ∨ c2 < 0 ∨ c3 < 0 ∨ c4 < 0
  · simp [hneg]
  · simp [hneg]

/-! ## The law -/

/-- The components of a text, with the numbers that they stand for. -/
def text (cs : List (List Char × Nat)) : List Char := ['.'].intercalate (cs.map Prod.fst)

/-- The largest number that the parser takes for a component. -/
def bound (cs : List (List Char × Nat)) : Nat := if cs.length = 1 then 0x7FFFFFFF else 255

/-- What the parser reads in a component. -/
def got (p : List Char × Nat) : Nat := readAs p.1 p.2

theorem splitOn_text {cs : List (List Char × Nat)} (hne : cs ≠ [])
    (h : ∀ p ∈ cs, Spelling p.1 p.2) : (text cs).splitOn '.' = cs.map Prod.fst := by
  apply List.splitOn_intercalate
  · intro t ht
    obtain ⟨p, hp, rfl⟩ := List.mem_map.mp ht
    exact (h p hp).no_dot
  · simpa using hne

theorem cut_octet (v : Nat) : cut 255 v < 0 ↔ 255 < v := by
  rw [cut_lt_zero_iff (by decide)]
  omega

theorem cut_single (v : Nat) : cut 0xFFFFFFFF v < 0 ↔ 0x7FFFFFFF < v := by
  rw [cut_lt_zero_iff (by decide)]
  omega

/-- A text of one to four components is taken exactly when the parser reads no number
above its bound. -/
theorem taken_iff_got_le {cs : List (List Char × Nat)} (hne : cs ≠ []) (hlen : cs.length ≤ 4)
    (h : ∀ p ∈ cs, Spelling p.1 p.2) (order : ByteOrder) (s_addr : Nat) :
    (∃ r, inet_addr_impl order (cstr (text cs)) s_addr = some (0, r)) ↔
      ∀ p ∈ cs, got p ≤ bound cs := by
  have hcomp : ∀ p ∈ cs, ∀ max_value, componentOf max_value p.1 = cut max_value (got p) :=
    fun p hp => componentOf_spelling (h p hp)
  have hsplit := splitOn_text hne h
  match cs, hne, hlen with
  | [p], _, _ =>
    rw [taken_iff (by rw [hsplit]; rfl)]
    simp [bound, cut_single, hcomp]
  | [p, q], _, _ =>
    rw [taken_iff (by rw [hsplit]; rfl)]
    simp [bound, cut_octet, hcomp]
  | [p, q, r], _, _ =>
    rw [taken_iff (by rw [hsplit]; rfl)]
    simp [bound, cut_octet, hcomp]
  | [p, q, r, t], _, _ =>
    rw [taken_iff (by rw [hsplit]; rfl)]
    simp [bound, cut_octet, hcomp]

/-- The largest number that the notation has for a component. -/
def documentedBound (cs : List (List Char × Nat)) : Nat :=
  if cs.length = 1 then 0xFFFFFFFF else 255

/-- Which numbers of the notation the parser reads within its bounds. -/
theorem got_le_iff {cs : List (List Char × Nat)}
    (hbound : ∀ p ∈ cs, p.2 ≤ documentedBound cs) :
    (∀ p ∈ cs, got p ≤ bound cs) ↔
      (cs.length = 1 → ∀ p ∈ cs, ¬ DoubleZero p.1 → p.2 ≤ 0x7FFFFFFF) ∧
        ∀ p ∈ cs, DoubleZero p.1 → value 10 p.1 ≤ bound cs := by
  constructor
  · intro hgot
    constructor
    · intro hone p hp hz
      have hle := hgot p hp
      rwa [got, readAs, if_neg hz, bound, if_pos hone] at hle
    · intro p hp hz
      have hle := hgot p hp
      rwa [got, readAs, if_pos hz] at hle
  · rintro ⟨hint, hzero⟩ p hp
    by_cases hz : DoubleZero p.1
    · unfold got readAs
      rw [if_pos hz]
      exact hzero p hp hz
    · unfold got readAs
      rw [if_neg hz]
      have hle := hbound p hp
      unfold documentedBound at hle
      unfold bound
      split_ifs at hle ⊢ with hone
      · exact hint hone p hp hz
      · exact hle

/-- A text of the notation is taken exactly when a single component fits an `int`, and
each component that begins with two zeros is within the bound as a decimal number. -/
theorem a_text_is_taken_as_far_as_the_parser_reads_it {cs : List (List Char × Nat)}
    (hne : cs ≠ []) (hlen : cs.length ≤ 4) (h : ∀ p ∈ cs, Spelling p.1 p.2)
    (hbound : ∀ p ∈ cs, p.2 ≤ documentedBound cs) (order : ByteOrder) (s_addr : Nat) :
    (∃ r, inet_addr_impl order (cstr (text cs)) s_addr = some (0, r)) ↔
      (cs.length = 1 → ∀ p ∈ cs, ¬ DoubleZero p.1 → p.2 ≤ 0x7FFFFFFF) ∧
        ∀ p ∈ cs, DoubleZero p.1 → value 10 p.1 ≤ bound cs := by
  rw [taken_iff_got_le hne hlen h, got_le_iff hbound]

/-- A component in each base. -/
theorem a_text_in_three_bases_is_taken :
    let cs := [("10".toList, 10), ("0x7f".toList, 127), ("017".toList, 15)]
    text cs = "10.0x7f.017".toList ∧
      ∃ r, inet_addr_impl .little (cstr (text cs)) 0 = some (0, r) := by
  intro cs
  have hspelled : ∀ p ∈ cs, Spelling p.1 p.2 := by
    simp only [cs, List.forall_mem_cons, List.not_mem_nil, false_implies, implies_true, and_true]
    refine ⟨Spelling.dec (t := ['1', '0']) (by decide) (by decide),
      Spelling.hex (t := ['7', 'f']) (Or.inl rfl) (by decide),
      Spelling.oct (t := ['1', '7']) (by decide)⟩
  refine ⟨by decide, (a_text_is_taken_as_far_as_the_parser_reads_it (List.cons_ne_nil _ _)
    (by decide) hspelled (by decide) .little 0).mpr ⟨fun hone => absurd hone (by decide), ?_⟩⟩
  decide

/-- The largest address is refused, and so is 255 with two zeros before it. -/
theorem the_largest_address_is_refused :
    Spelling "4294967295".toList 0xFFFFFFFF ∧
      inet_addr_impl .little (cstr "4294967295".toList) 0 = some (-1, 0) ∧
    Spelling "00377".toList 255 ∧
      inet_addr_impl .little (cstr "1.00377".toList) 0 = some (-1, 0) := by
  refine ⟨Spelling.dec (t := "4294967295".toList) (by decide) (by decide), by decide +kernel,
    Spelling.oct (t := "0377".toList) (by decide), by decide +kernel⟩

end rmrf.net.details
