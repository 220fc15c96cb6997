-- The laws of the canonical IPv4 notation: four decimal components between dots. The
-- parser looks for the dots from the end, and it takes any last component, for it
-- tests the first component twice and the last one never.
import Rmrf.AddressComponents

open fields machine numerals

namespace rmrf.net.details

/-! ## The parser -/

def host_to_net (order : ByteOrder) (hostval : Nat) : Nat :=
  match order with
  | .big => hostval
  | .little => bswap32 hostval

/-- The value that is returned, and `s_addr` after the call. -/
def inet_addr_canonical_at (order : ByteOrder) (str : List Char) (idx : Nat) (s_addr : Nat) :
    Option (Int × Nat) := do
  let sep3 ← rfind_chr str (str.length - 1) '.'
  let sep2 ← rfind_chr str (sep3 - 1) '.'
  let sep1 ← rfind_chr str (sep2 - 1) '.'
  if sep3 < idx + 1 ∨ sep2 < idx + 1 ∨ sep1 < idx + 1 then return (-1, s_addr)
  if (← rfind_chr str (sep1 - 1) '.') ≥ idx then return (-1, s_addr)
  let c1 ← parse_inet_component_canonical str idx
  let c2 ← parse_inet_component_canonical str (sep1 + 1).toNat
  let c3 ← parse_inet_component_canonical str (sep2 + 1).toNat
  let c4 ← parse_inet_component_canonical str (sep3 + 1).toNat
  if c1 < 0 ∨ c1 < 0 ∨ c2 < 0 ∨ c3 < 0 then return (-1, s_addr)
  return (0, host_to_net order (orOfShifts c1 c2 c3 c4))

def inet_addr_canonical (order : ByteOrder) (str : List Char) (s_addr : Nat) :
    Option (Int × Nat) :=
  inet_addr_canonical_at order str 0 s_addr

/-! ## The search for the dots -/

theorem rfind_chr_of_lt {str : List Char} {start : Int} (h : start < str.length) (c : Char) :
    ∃ r : Int, rfind_chr str start c = some r ∧ -1 ≤ r ∧ (r ≤ start ∨ r = -1) := by
  have hle : (start + 1).toNat ≤ str.length := by omega
  obtain ⟨r, hr, hlo, hhi⟩ := rfind_chr_loop_lt hle c
  exact ⟨r, hr, hlo, by omega⟩

/-- The search from the end of a part that begins behind `pre`. -/
theorem rfind_chr_part (pre t w : List Char) {start : Int}
    (h : start = pre.length + t.length - 1) :
    ∃ r : Int, rfind_chr (pre ++ t ++ w) start '.' = some r ∧ -1 ≤ r ∧
      ((r < pre.length ∧ '.' ∉ t) ∨
        ∃ u v, t = u ++ '.' :: v ∧ '.' ∉ v ∧ r = pre.length + u.length) := by
  have hstart : (start + 1).toNat = pre.length + t.length := by omega
  by_cases hdot : '.' ∈ t
  · obtain ⟨u, v, rfl, hv⟩ := exists_last_sep hdot
    refine ⟨(pre ++ u).length, ?_, by omega, Or.inr ⟨u, v, rfl, hv, by simp⟩⟩
    have hlast := rfind_chr_loop_last hv (pre ++ u) w
    unfold rfind_chr
    rw [hstart, ← hlast]
    simp only [List.append_assoc, List.length_append, List.length_cons, List.cons_append]
    congr 1
    omega
  · have hle : pre.length ≤ (pre ++ t ++ w).length := by simp
    obtain ⟨r, hr, hlo, hhi⟩ := rfind_chr_loop_lt hle '.'
    refine ⟨r, ?_, hlo, Or.inl ⟨hhi, hdot⟩⟩
    unfold rfind_chr
    rw [hstart, rfind_chr_loop_skip hdot, hr]

/-- Four parts between dots. -/
def dotted (a b c d : List Char) : List Char := a ++ '.' :: (b ++ '.' :: (c ++ '.' :: d))

/-- The address that the parser finds in a part of its string. It does not look whether
the last component is one. -/
def quadWord (t : List Char) : Option Nat :=
  match t.splitOn '.' with
  | [a, b, c, d] =>
    if Octet a ∧ Octet b ∧ Octet c then
      some (orOfShifts (value 10 a) (value 10 b) (value 10 c)
        (if Octet d then (value 10 d : Int) else -1))
    else none
  | _ => none

/-- What the parser makes of the part of its string behind `idx`. -/
def readQuad (order : ByteOrder) (s_addr : Nat) (t : List Char) : Int × Nat :=
  match quadWord t with
  | some word => (0, host_to_net order word)
  | none => (-1, s_addr)

/-- The places of the dots, as far as the parser goes for them. -/
inductive Dots (pre t : List Char) (sep3 sep2 sep1 sep0 : Int) : Prop
  | quad {a b c d} : t = dotted a b c d → '.' ∉ a → '.' ∉ b → '.' ∉ c → '.' ∉ d →
      sep1 = pre.length + a.length → sep2 = sep1 + 1 + b.length → sep3 = sep2 + 1 + c.length →
      sep0 < pre.length → Dots pre t sep3 sep2 sep1 sep0
  | other : (t.splitOn '.').length ≠ 4 →
      (sep3 < pre.length ∨ sep2 < pre.length ∨ sep1 < pre.length ∨ sep0 ≥ pre.length) →
      Dots pre t sep3 sep2 sep1 sep0

/-- Where there are too few dots, the search ends before the part. -/
theorem rfind_chr_before {pre str : List Char} {sep : Int} (hstr : pre.length ≤ str.length)
    (hsep : sep < pre.length) :
    ∃ r : Int, rfind_chr str (sep - 1) '.' = some r ∧ r < pre.length := by
  have hlt : sep - 1 < str.length := by omega
  obtain ⟨r, hr, _, hle⟩ := rfind_chr_of_lt hlt '.'
  exact ⟨r, hr, by omega⟩

theorem dots_spec (pre t w : List Char) :
    ∃ sep3 sep2 sep1 sep0 : Int,
      rfind_chr (pre ++ t ++ w) (pre.length + t.length - 1) '.' = some sep3 ∧
      rfind_chr (pre ++ t ++ w) (sep3 - 1) '.' = some sep2 ∧
      rfind_chr (pre ++ t ++ w) (sep2 - 1) '.' = some sep1 ∧
      rfind_chr (pre ++ t ++ w) (sep1 - 1) '.' = some sep0 ∧
      Dots pre t sep3 sep2 sep1 sep0 := by
  have hstr : pre.length ≤ (pre ++ t ++ w).length := by simp
  -- the dots are found from the last to the first, and each step has one part more
  obtain ⟨sep3, h3, _, ⟨hlt3, ht⟩ | ⟨u3, d, rfl, hd, rfl⟩⟩ := rfind_chr_part pre t w rfl
  · obtain ⟨sep2, h2, hlt2⟩ := rfind_chr_before hstr hlt3
    obtain ⟨sep1, h1, hlt1⟩ := rfind_chr_before hstr hlt2
    obtain ⟨sep0, h0, _⟩ := rfind_chr_before hstr hlt1
    exact ⟨sep3, sep2, sep1, sep0, h3, h2, h1, h0,
      .other (by rw [List.splitOn_eq_singleton ht]; simp) (Or.inl hlt3)⟩
  have hcut3 : pre ++ (u3 ++ '.' :: d) ++ w = pre ++ u3 ++ ('.' :: d ++ w) := by simp
  obtain ⟨sep2, h2, _, ⟨hlt2, ht⟩ | ⟨u2, c, rfl, hc, rfl⟩⟩ :=
    rfind_chr_part pre u3 ('.' :: d ++ w) rfl
  · rw [← hcut3] at h2
    obtain ⟨sep1, h1, hlt1⟩ := rfind_chr_before hstr hlt2
    obtain ⟨sep0, h0, _⟩ := rfind_chr_before hstr hlt1
    exact ⟨_, sep2, sep1, sep0, h3, h2, h1, h0,
      .other (by rw [splitOn_append_last hd, List.splitOn_eq_singleton ht]; simp)
        (Or.inr (Or.inl hlt2))⟩
  rw [← hcut3] at h2
  have hcut2 : pre ++ (u2 ++ '.' :: c ++ '.' :: d) ++ w =
      pre ++ u2 ++ ('.' :: c ++ '.' :: d ++ w) := by simp
  obtain ⟨sep1, h1, _, ⟨hlt1, ht⟩ | ⟨u1, b, rfl, hb, rfl⟩⟩ :=
    rfind_chr_part pre u2 ('.' :: c ++ '.' :: d ++ w) rfl
  · rw [← hcut2] at h1
    obtain ⟨sep0, h0, _⟩ := rfind_chr_before hstr hlt1
    exact ⟨_, _, sep1, sep0, h3, h2, h1, h0,
      .other (by
          rw [splitOn_append_last hd, splitOn_append_last hc, List.splitOn_eq_singleton ht]
          simp)
        (Or.inr (Or.inr (Or.inl hlt1)))⟩
  rw [← hcut2] at h1
  have hcut1 : pre ++ (u1 ++ '.' :: b ++ '.' :: c ++ '.' :: d) ++ w =
      pre ++ u1 ++ ('.' :: b ++ '.' :: c ++ '.' :: d ++ w) := by simp
  obtain ⟨sep0, h0, _, ⟨hlt0, ht⟩ | ⟨u0, a, rfl, ha, rfl⟩⟩ :=
    rfind_chr_part pre u1 ('.' :: b ++ '.' :: c ++ '.' :: d ++ w) rfl
  · rw [← hcut1] at h0
    refine ⟨_, _, _, sep0, h3, h2, h1, h0, .quad (by simp [dotted]) ht hb hc hd rfl ?_ ?_ hlt0⟩
    · simp only [List.length_append, List.length_cons]
      push_cast
      omega
    · simp only [List.length_append, List.length_cons]
      push_cast
      omega
  · rw [← hcut1] at h0
    have hne := List.length_pos_iff.mpr (List.splitOn_ne_nil '.' u0)
    refine ⟨_, _, _, _, h3, h2, h1, h0, .other ?_ (Or.inr (Or.inr (Or.inr (by omega))))⟩
    rw [splitOn_append_last hd, splitOn_append_last hc, splitOn_append_last hb,
      splitOn_append_last ha]
    simp only [List.length_append, List.length_singleton]
    omega

/-! ## The spec of the parser -/

theorem splitOn_dotted {a b c d : List Char} (ha : '.' ∉ a) (hb : '.' ∉ b) (hc : '.' ∉ c)
    (hd : '.' ∉ d) : (dotted a b c d).splitOn '.' = [a, b, c, d] := by
  unfold dotted
  rw [List.splitOn_append_cons_self_of_not_mem ha, List.splitOn_append_cons_self_of_not_mem hb,
    List.splitOn_append_cons_self_of_not_mem hc, List.splitOn_eq_singleton hd]

theorem quadWord_dotted {a b c d : List Char} (ha : '.' ∉ a) (hb : '.' ∉ b) (hc : '.' ∉ c)
    (hd : '.' ∉ d) :
    quadWord (dotted a b c d) =
      if Octet a ∧ Octet b ∧ Octet c then
        some (orOfShifts (value 10 a) (value 10 b) (value 10 c)
          (if Octet d then (value 10 d : Int) else -1))
      else none := by
  unfold quadWord
  rw [splitOn_dotted ha hb hc hd]

theorem quadWord_other {t : List Char} (h : (t.splitOn '.').length ≠ 4) : quadWord t = none := by
  unfold quadWord
  split
  · rename_i heq
    exact absurd (by rw [heq]; rfl) h
  · rfl

theorem readQuad_none {t : List Char} (h : quadWord t = none) (order : ByteOrder) (s_addr : Nat) :
    readQuad order s_addr t = (-1, s_addr) := by
  unfold readQuad
  rw [h]

theorem readQuad_some {t : List Char} {word : Nat} (h : quadWord t = some word)
    (order : ByteOrder) (s_addr : Nat) :
    readQuad order s_addr t = (0, host_to_net order word) := by
  unfold readQuad
  rw [h]

/-- The number of a component, or -1. -/
theorem lt_zero_iff_not_octet (t : List Char) :
    (if Octet t then (value 10 t : Int) else -1) < 0 ↔ ¬ Octet t := by
  split_ifs with h
  · constructor
    · intro hlt
      omega
    · intro hn
      exact absurd h hn
  · exact iff_of_true (by decide) h

/-- The final NUL is no dot. -/
theorem rfind_chr_cstr (s : List Char) :
    rfind_chr (cstr s) ((cstr s).length - 1) '.' = rfind_chr (cstr s) (s.length - 1) '.' := by
  have hskip := rfind_chr_loop_skip (c := '.') (v := [NUL]) (by decide) s []
  rw [List.append_nil] at hskip
  have h1 : (((cstr s).length : Int) - 1 + 1).toNat = s.length + [NUL].length := by simp
  have h2 : ((s.length : Int) - 1 + 1).toNat = s.length := by simp
  unfold rfind_chr
  rw [h1, h2]
  exact hskip

/-- The component that follows `u`. -/
theorem canonical_behind {s u t : List Char} {i : Int} (hs : s = u ++ t) (hi : i = u.length) :
    parse_inet_component_canonical (cstr s) i.toNat =
      some (if Octet (field '.' t) then (value 10 (field '.' t) : Int) else -1) := by
  subst hs hi
  rw [Int.toNat_natCast, parse_inet_component_canonical.spec _ (by simp), List.drop_left]

/-- The four components of a quad behind `pre`, each at its place. -/
theorem canonical_of_dotted (pre : List Char) {a b c d : List Char} (ha : '.' ∉ a) (hb : '.' ∉ b)
    (hc : '.' ∉ c) (hd : '.' ∉ d) {sep3 sep2 sep1 : Int} (hs1 : sep1 = pre.length + a.length)
    (hs2 : sep2 = sep1 + 1 + b.length) (hs3 : sep3 = sep2 + 1 + c.length) :
    let str := cstr (pre ++ dotted a b c d)
    parse_inet_component_canonical str pre.length =
        some (if Octet a then (value 10 a : Int) else -1) ∧
      parse_inet_component_canonical str (sep1 + 1).toNat =
        some (if Octet b then (value 10 b : Int) else -1) ∧
      parse_inet_component_canonical str (sep2 + 1).toNat =
        some (if Octet c then (value 10 c : Int) else -1) ∧
      parse_inet_component_canonical str (sep3 + 1).toNat =
        some (if Octet d then (value 10 d : Int) else -1) := by
  intro str
  have hc1 := canonical_behind (s := pre ++ dotted a b c d) (i := pre.length) rfl rfl
  have hc2 := canonical_behind (s := pre ++ dotted a b c d) (u := pre ++ (a ++ ['.']))
    (t := b ++ '.' :: (c ++ '.' :: d)) (i := sep1 + 1) (by simp [dotted]) (by simp; omega)
  have hc3 := canonical_behind (s := pre ++ dotted a b c d)
    (u := pre ++ (a ++ '.' :: (b ++ ['.'])))
    (t := c ++ '.' :: d) (i := sep2 + 1) (by simp [dotted]) (by simp; omega)
  have hc4 := canonical_behind (s := pre ++ dotted a b c d)
    (u := pre ++ (a ++ '.' :: (b ++ '.' :: (c ++ ['.']))))
    (t := d) (i := sep3 + 1) (by simp [dotted]) (by simp; omega)
  have hfield : field '.' (dotted a b c d) = a := field_append_cons ha _
  rw [hfield, Int.toNat_natCast] at hc1
  rw [field_append_cons hb] at hc2
  rw [field_append_cons hc] at hc3
  rw [field_of_not_mem hd] at hc4
  exact ⟨hc1, hc2, hc3, hc4⟩

/-- The parser reads the part behind `idx` as a quad, but for its last component. -/
theorem inet_addr_canonical_at.spec (order : ByteOrder) (pre t : List Char) (s_addr : Nat) :
    inet_addr_canonical_at order (cstr (pre ++ t)) pre.length s_addr =
      some (readQuad order s_addr t) := by
  obtain ⟨sep3, sep2, sep1, sep0, h3, h2, h1, h0, hdots⟩ := dots_spec pre t [NUL]
  have hcstr : pre ++ t ++ [NUL] = cstr (pre ++ t) := rfl
  have h3' := rfind_chr_cstr (pre ++ t)
  rw [List.length_append, Nat.cast_add] at h3'
  rw [hcstr] at h3 h2 h1 h0
  unfold inet_addr_canonical_at
  simp only [h3', h3, h2, h1, h0, Option.bind_eq_bind, Option.bind_some]
  cases hdots with
  | @quad a b c d ht ha hb hc hd hs1 hs2 hs3 hs0 =>
    subst ht
    have hword := quadWord_dotted ha hb hc hd
    by_cases hempty : a = []
    · have hnot : ¬ Octet a := fun h => h.numeral.1 hempty
      rw [if_neg (fun h => hnot h.1)] at hword
      rw [if_pos (by subst hempty; simp at hs1; omega), readQuad_none hword]
      rfl
    · have hlen : 0 < a.length := List.length_pos_iff.mpr hempty
      rw [if_neg (by omega), if_neg (by omega)]
      obtain ⟨hc1, hc2, hc3, hc4⟩ := canonical_of_dotted pre ha hb hc hd hs1 hs2 hs3
      simp only [hc1, hc2, hc3, hc4, Option.bind_some, lt_zero_iff_not_octet]
      by_cases hquad : Octet a ∧ Octet b ∧ Octet c
      · rw [if_pos hquad] at hword
        rw [if_neg (by tauto), if_pos hquad.1, if_pos hquad.2.1, if_pos hquad.2.2]
        exact congrArg some (readQuad_some hword order s_addr).symm
      · rw [if_neg hquad] at hword
        rw [if_pos (by tauto)]
        exact congrArg some (readQuad_none hword order s_addr).symm
  | other hne hmiss =>
    rw [readQuad_none (quadWord_other hne)]
    by_cases hfew : sep3 < pre.length + 1 ∨ sep2 < pre.length + 1 ∨ sep1 < pre.length + 1
    · rw [if_pos hfew]
      rfl
    · rw [if_neg hfew, if_pos (by omega)]
      rfl

/-! ## The laws -/

/-- The parser does with a text what the notation says: a canonical quad gives its four
bytes in network order, and anything else gives -1 and leaves `s_addr` as it was. -/
structure ReadsAsNotation (s : List Char) : Prop where
  accepts : ∀ order s_addr a b c d, Octet a → Octet b → Octet c → Octet d → s = dotted a b c d →
    ∃ r, inet_addr_canonical order (cstr s) s_addr = some (0, r) ∧
      inMemory order r = [value 10 a, value 10 b, value 10 c, value 10 d]
  rejects : ∀ order s_addr,
    (∀ a b c d, Octet a → Octet b → Octet c → Octet d → s ≠ dotted a b c d) →
    inet_addr_canonical order (cstr s) s_addr = some (-1, s_addr)

/-- Three canonical components, and one that is not. -/
def EndsAmiss (s : List Char) : Prop :=
  ∃ a b c d, s = dotted a b c d ∧ Octet a ∧ Octet b ∧ Octet c ∧ '.' ∉ d ∧ ¬ Octet d

theorem Octet.value_lt {t : List Char} (h : Octet t) : numerals.value 10 t < 256 :=
  Nat.lt_succ_of_le h.value

theorem Octet.no_dot {t : List Char} (h : Octet t) : '.' ∉ t := by
  intro hmem
  exact absurd (h.numeral.2 '.' hmem) (by decide)

/-- Network order puts the highest byte at the first address. -/
theorem inMemory_host_to_net (order : ByteOrder) (x : Nat) :
    inMemory order (host_to_net order x) = octets x := by
  cases order with
  | big => rfl
  | little => rw [inMemory, host_to_net, octets_bswap32, List.reverse_reverse]

theorem inet_addr_canonical.spec (order : ByteOrder) (s : List Char) (s_addr : Nat) :
    inet_addr_canonical order (cstr s) s_addr = some (readQuad order s_addr s) :=
  inet_addr_canonical_at.spec order [] s s_addr

/-- A text with four parts between its dots, or with more or fewer. -/
theorem dotted_or_other (s : List Char) :
    (∃ a b c d, s = dotted a b c d ∧ '.' ∉ a ∧ '.' ∉ b ∧ '.' ∉ c ∧ '.' ∉ d) ∨
      (s.splitOn '.').length ≠ 4 := by
  obtain ⟨_, _, _, _, _, _, _, _, hdots⟩ := dots_spec [] s []
  cases hdots with
  | quad ht ha hb hc hd => exact Or.inl ⟨_, _, _, _, ht, ha, hb, hc, hd⟩
  | other hne => exact Or.inr hne

theorem dotted_inj {a b c d a' b' c' d' : List Char} (h : dotted a b c d = dotted a' b' c' d')
    (ha : '.' ∉ a) (hb : '.' ∉ b) (hc : '.' ∉ c) (hd : '.' ∉ d) (ha' : '.' ∉ a') (hb' : '.' ∉ b')
    (hc' : '.' ∉ c') (hd' : '.' ∉ d') : a = a' ∧ b = b' ∧ c = c' ∧ d = d' := by
  have hsplit := congrArg (List.splitOn '.') h
  rw [splitOn_dotted ha hb hc hd, splitOn_dotted ha' hb' hc' hd'] at hsplit
  simpa using hsplit

/-- The parser takes three canonical components with anything but a dot behind them. -/
theorem not_reads_of_endsAmiss {s : List Char} (h : EndsAmiss s) : ¬ ReadsAsNotation s := by
  obtain ⟨a, b, c, d, rfl, ha, hb, hc, hd, hbad⟩ := h
  intro hreads
  have hnot := hreads.rejects .big 0 (fun a' b' c' d' ha' hb' hc' hd' heq => by
    obtain ⟨rfl, rfl, rfl, rfl⟩ := dotted_inj heq ha.no_dot hb.no_dot hc.no_dot hd ha'.no_dot
      hb'.no_dot hc'.no_dot hd'.no_dot
    exact hbad hd')
  have hword := quadWord_dotted ha.no_dot hb.no_dot hc.no_dot hd
  rw [if_pos ⟨ha, hb, hc⟩] at hword
  rw [inet_addr_canonical.spec, readQuad_some hword] at hnot
  cases hnot

/-- The canonical parser reads a text as the notation says exactly when the text does
not put something else behind three canonical components. -/
theorem a_quad_is_read_unless_it_ends_amiss (s : List Char) :
    ReadsAsNotation s ↔ ¬ EndsAmiss s := by
  constructor
  · intro hreads hamiss
    exact not_reads_of_endsAmiss hamiss hreads
  · intro hamiss
    constructor
    · rintro order s_addr a b c d ha hb hc hd rfl
      refine ⟨host_to_net order (orOfShifts (value 10 a) (value 10 b) (value 10 c) (value 10 d)),
        ?_, ?_⟩
      · have hword := quadWord_dotted ha.no_dot hb.no_dot hc.no_dot hd.no_dot
        rw [if_pos ⟨ha, hb, hc⟩, if_pos hd] at hword
        rw [inet_addr_canonical.spec, readQuad_some hword]
      · rw [inMemory_host_to_net, orOfShifts_of_lt ha.value_lt hb.value_lt hc.value_lt hd.value_lt,
          octets_of_lt ha.value_lt hb.value_lt hc.value_lt hd.value_lt]
    · intro order s_addr hno
      rw [inet_addr_canonical.spec]
      rcases dotted_or_other s with ⟨a, b, c, d, rfl, ha, hb, hc, hd⟩ | hne
      · have hword := quadWord_dotted ha hb hc hd
        rw [if_neg] at hword
        · rw [readQuad_none hword]
        · rintro ⟨hoa, hob, hoc⟩
          by_cases hod : Octet d
          · exact hno a b c d hoa hob hoc hod rfl
          · exact hamiss ⟨a, b, c, d, rfl, hoa, hob, hoc, hd, hod⟩
      · rw [readQuad_none (quadWord_other hne)]

/-- A last component that is too large makes the address 255.255.255.255. -/
theorem a_last_component_of_999_is_taken :
    inet_addr_canonical .little (cstr "1.2.3.999".toList) 0 = some (0, 0xFFFFFFFF) ∧
      ¬ ReadsAsNotation "1.2.3.999".toList := by
  have htext : "1.2.3.999".toList = dotted ['1'] ['2'] ['3'] ['9', '9', '9'] := by decide
  refine ⟨?_, not_reads_of_endsAmiss ⟨['1'], ['2'], ['3'], ['9', '9', '9'], by decide +kernel⟩⟩
  have hword := quadWord_dotted (a := ['1']) (b := ['2']) (c := ['3']) (d := ['9', '9', '9'])
    (by decide) (by decide) (by decide) (by decide)
  rw [if_pos (by decide +kernel), if_neg (by decide +kernel), orOfShifts_neg_one] at hword
  rw [htext, inet_addr_canonical.spec, readQuad_some hword]
  decide

end rmrf.net.details
