-- The components of an address: the searches for a separator, and the parsers of one
-- component. A parser gives the number that its component writes, or -1, and its spec
-- says which component it is and when it is one.
import Rmrf.Fields
import Rmrf.Machine
import Rmrf.Numerals

open fields machine numerals

namespace rmrf.net.details

/-! ## Characters

A C string is the list of its characters and the final NUL. A read outside of the
array gives `none`. -/

def NUL : Char := Char.ofNat 0

/-- The array of a string. -/
def cstr (s : List Char) : List Char := s ++ [NUL]

@[simp] theorem length_cstr (s : List Char) : (cstr s).length = s.length + 1 := by simp [cstr]

theorem getElem?_cstr {s : List Char} {i : Nat} (h : i < s.length) : (cstr s)[i]? = s[i]? :=
  List.getElem?_append_left h

def isdigit (c : Char) : Bool := '0' ≤ c && c ≤ '9'

def isxdigit (c : Char) : Bool :=
  isdigit c || ('a' ≤ c && c ≤ 'f') || ('A' ≤ c && c ≤ 'F')

def islower (c : Char) : Bool := 'a' ≤ c && c ≤ 'z'

def toupper (c : Char) : Char := if !islower c then c else Char.ofNat (c.toNat ^^^ 0x20)

/-! ## Digits -/

/-- The bases that the parsers are made for. -/
inductive Base
  | oct
  | dec
  | hex
deriving DecidableEq, Repr

def Base.toNat : Base → Nat
  | .oct => 8
  | .dec => 10
  | .hex => 16

theorem Base.two_le (base : Base) : 2 ≤ base.toNat := by cases base <;> decide

def is_valid_digit (base : Base) (c : Char) : Bool :=
  match base with
  | .oct => '0' ≤ c && c ≤ '7'
  | .dec => isdigit c
  | .hex => isxdigit c

/-- `convert_digit` for the bases 8 and 10. -/
def convert_low_digit (base : Base) (c : Char) : Int :=
  if !is_valid_digit base c then -1 else c.toNat - '0'.toNat

def convert_digit (base : Base) (c : Char) : Int :=
  match base with
  | .oct => convert_low_digit .oct c
  | .dec => convert_low_digit .dec c
  | .hex =>
    if !is_valid_digit .hex c then -1
    else if isdigit c then convert_low_digit .dec c
    else if 'A' ≤ c ∧ c ≤ 'F' then c.toNat - 'A'.toNat + 10
    else c.toNat - 'a'.toNat + 10

theorem le_iff (a c : Char) : a ≤ c ↔ a.toNat ≤ c.toNat := Iff.rfl

theorem is_valid_digit_eq (base : Base) (c : Char) :
    is_valid_digit base c = isDigit base.toNat c := by
  rw [Bool.eq_iff_iff, isDigit_iff]
  unfold digit
  cases base <;> simp only [is_valid_digit, isdigit, isxdigit, Base.toNat, le_iff,
    Bool.and_eq_true, Bool.or_eq_true, decide_eq_true_eq, Char.reduceToNat]
  · split_ifs <;> grind
  · split_ifs <;> grind
  · split_ifs <;> grind

theorem convert_digit_eq {base : Base} {c : Char} {d : Nat} (h : digit c = some d)
    (hd : d < base.toNat) : convert_digit base c = d := by
  have hvalid : is_valid_digit base c = true := by
    rw [is_valid_digit_eq, isDigit_iff]
    exact ⟨d, h, hd⟩
  unfold digit at h
  simp only [le_iff, Char.reduceToNat] at h
  cases base with
  | oct =>
    simp only [convert_digit, convert_low_digit, hvalid, Base.toNat, Char.reduceToNat] at hd ⊢
    grind
  | dec =>
    simp only [convert_digit, convert_low_digit, hvalid, Base.toNat, Char.reduceToNat] at hd ⊢
    grind
  | hex =>
    simp only [convert_digit, hvalid, Base.toNat] at hd ⊢
    simp only [convert_low_digit, is_valid_digit, isdigit, le_iff, Char.reduceToNat]
    grind

/-! ## The searches -/

/-- The loop of `rfind_chr` below `n`. -/
def rfind_chr_loop (str : List Char) (c : Char) : Nat → Option Int
  | 0 => some (-1)
  | n + 1 => do
    if (← str[n]?) = c then return n
    rfind_chr_loop str c n

/-- The last place of `c` at `start` or before it. A `start` below zero, which the
callers pass as a `size_t`, comes back negative in the loop variable. -/
def rfind_chr (str : List Char) (start : Int) (c : Char) : Option Int :=
  rfind_chr_loop str c (start + 1).toNat

/-- The loop of `find_chr` at `i`, with `n` characters to go. -/
def find_chr_loop (str : List Char) (c : Char) : Nat → Nat → Option Int
  | 0, _ => some (-1)
  | n + 1, i => do
    if (← str[i]?) = c then return i
    find_chr_loop str c n (i + 1)

def find_chr (str : List Char) (start : Nat) (c : Char) : Option Int :=
  find_chr_loop str c (str.length - start) start

/-- The search goes back over a part without the character. -/
theorem rfind_chr_loop_skip {c : Char} {v : List Char} (h : c ∉ v) (u w : List Char) :
    rfind_chr_loop (u ++ v ++ w) c (u.length + v.length) =
      rfind_chr_loop (u ++ v ++ w) c u.length := by
  induction v using List.reverseRecOn generalizing w with
  | nil => rfl
  | append_singleton v x ih =>
    have hx : x ≠ c := fun heq => h (by simp [heq])
    have hread : (u ++ (v ++ [x]) ++ w)[u.length + v.length]? = some x := by
      simp
    rw [List.length_append, List.length_singleton, ← Nat.add_assoc, rfind_chr_loop, hread]
    simp only [Option.bind_eq_bind, Option.bind_some, if_neg hx]
    have hskip := ih (fun hv => h (by simp [hv])) ([x] ++ w)
    simpa using hskip

theorem rfind_chr_loop_last {c : Char} {v : List Char} (h : c ∉ v) (u w : List Char) :
    rfind_chr_loop (u ++ c :: v ++ w) c (u.length + 1 + v.length) = some (u.length : Int) := by
  have hskip := rfind_chr_loop_skip h (u ++ [c]) w
  simp only [List.append_assoc, List.singleton_append, List.length_append,
    List.length_singleton] at hskip
  rw [List.append_assoc, hskip, rfind_chr_loop]
  simp

theorem rfind_chr_loop_lt {str : List Char} {n : Nat} (h : n ≤ str.length) (c : Char) :
    ∃ r : Int, rfind_chr_loop str c n = some r ∧ -1 ≤ r ∧ r < n := by
  induction n with
  | zero => exact ⟨-1, rfl, by decide, by decide⟩
  | succ n ih =>
    obtain ⟨r, hr, hlo, hhi⟩ := ih (by omega)
    rw [rfind_chr_loop, List.getElem?_eq_getElem (by omega)]
    by_cases hc : str[n] = c
    · exact ⟨n, by simp [hc], by omega, by omega⟩
    · exact ⟨r, by simpa [hc] using hr, hlo, by omega⟩

theorem find_chr_loop.spec {c : Char} (hc : c ≠ NUL) (s : List Char) (n i : Nat)
    (hn : n = s.length + 1 - i) (hi : i ≤ s.length + 1) :
    find_chr_loop (cstr s) c n i =
      some (if c ∈ s.drop i then (i + (field c (s.drop i)).length : Int) else -1) := by
  induction n generalizing i with
  | zero =>
    rw [List.drop_of_length_le (by omega), if_neg List.not_mem_nil]
    rfl
  | succ n ih =>
    rcases Nat.lt_or_ge i s.length with hlt | hge
    · have hrest := ih (i + 1) (by omega) (by omega)
      rw [find_chr_loop, getElem?_cstr hlt, List.getElem?_eq_getElem hlt,
        List.drop_eq_getElem_cons hlt]
      by_cases heq : s[i] = c
      · simp [heq, field_cons_self]
      · simp only [Option.bind_eq_bind, Option.bind_some, if_neg heq, hrest, field_cons_of_ne heq,
          List.mem_cons, Ne.symm heq, false_or, List.length_cons]
        push_cast
        split_ifs
        · rw [Int.add_assoc, Int.add_comm 1]
        · rfl
    · obtain rfl : i = s.length := by omega
      have hlast := ih (s.length + 1) (by omega) (by omega)
      rw [List.drop_of_length_le (by omega)] at hlast
      rw [find_chr_loop, List.drop_of_length_le (by omega)]
      simpa [cstr, hc.symm] using hlast

/-- The next place of `c`, or -1. -/
theorem find_chr.spec {c : Char} (hc : c ≠ NUL) (s : List Char) {i : Nat} (hi : i ≤ s.length) :
    find_chr (cstr s) i c =
      some (if c ∈ s.drop i then (i + (field c (s.drop i)).length : Int) else -1) := by
  unfold find_chr
  rw [length_cstr]
  exact find_chr_loop.spec hc s _ i rfl (by omega)

/-! ## One component -/

/-- The loop of `parse_address_component` at `i`, with `n` characters to go. -/
def parse_address_component_loop (base : Base) (sep : Char) (max_value max_length : Nat)
    (str : List Char) (idx : Nat) : Nat → Nat → Int → Option Int
  | 0, _, res => some res
  | n + 1, i, res => do
    let c ← str[i]?
    if c = sep then return res
    if max_length > 0 ∧ i - idx + 1 > max_length then return -1
    if !is_valid_digit base c then return -1
    let res := res * base.toNat + convert_digit base c
    if res > max_value then return -1
    parse_address_component_loop base sep max_value max_length str idx n (i + 1) res

/-- The number of the component at `idx`, or -1. A `max_length` of zero is no bound. -/
def parse_address_component (base : Base) (sep : Char) (max_value max_length : Nat)
    (str : List Char) (idx : Nat) : Option Int := do
  if sizeSub (str.length - 1) idx = 0 then return -1
  if (← str[idx]?) = sep then return -1
  parse_address_component_loop base sep max_value max_length str idx (str.length - 1 - idx) idx 0

/-- Digits of the base within the two bounds. -/
structure Within (base : Base) (max_value max_length : Nat) (t : List Char) : Prop where
  digits : ∀ c ∈ t, isDigit base.toNat c
  length : max_length > 0 → t.length ≤ max_length
  value : value base.toNat t ≤ max_value

/-- A numeral within the two bounds. -/
def Component (base : Base) (max_value max_length : Nat) (t : List Char) : Prop :=
  t ≠ [] ∧ Within base max_value max_length t

instance (base : Base) (max_value max_length : Nat) (t : List Char) :
    Decidable (Within base max_value max_length t) :=
  decidable_of_iff (t.all (isDigit base.toNat) = true ∧
      (max_length > 0 → t.length ≤ max_length) ∧ numerals.value base.toNat t ≤ max_value)
    ⟨fun h => ⟨List.all_eq_true.mp h.1, h.2.1, h.2.2⟩,
      fun h => ⟨List.all_eq_true.mpr h.digits, h.length, h.value⟩⟩

instance (base : Base) (max_value max_length : Nat) (t : List Char) :
    Decidable (Component base max_value max_length t) :=
  inferInstanceAs (Decidable (_ ∧ _))

section Components

variable {base : Base} {max_value max_length : Nat}

theorem Within.of_append {t u : List Char} (h : Within base max_value max_length (t ++ u)) :
    Within base max_value max_length t := by
  have hbase := base.two_le
  refine ⟨?_, ?_, ?_⟩
  · intro c hc
    exact h.digits c (List.mem_append_left u hc)
  · intro hpos
    have hlen := h.length hpos
    rw [List.length_append] at hlen
    omega
  · exact Nat.le_trans (value_le_append (by omega) t u) h.value

/-- What the loop checks at a character is that it may be the next one. -/
theorem within_snoc_iff {t : List Char} {c : Char} (h : Within base max_value max_length t) :
    Within base max_value max_length (t ++ [c]) ↔
      ¬ (max_length > 0 ∧ t.length + 1 > max_length) ∧ is_valid_digit base c = true ∧
        (value base.toNat t : Int) * base.toNat + convert_digit base c ≤ max_value := by
  constructor
  · intro hw
    obtain ⟨d, hd, hlt⟩ := isDigit_iff.mp (hw.digits c (by simp))
    have hval := hw.value
    rw [value_snoc t hd] at hval
    refine ⟨?_, ?_, ?_⟩
    · rintro ⟨hpos, hlong⟩
      have hlen := hw.length hpos
      rw [List.length_append, List.length_singleton] at hlen
      omega
    · rw [is_valid_digit_eq, isDigit_iff]
      exact ⟨d, hd, hlt⟩
    · rw [convert_digit_eq hd hlt]
      exact_mod_cast hval
  · rintro ⟨hlen, hdigit, hval⟩
    rw [is_valid_digit_eq] at hdigit
    obtain ⟨d, hd, hlt⟩ := isDigit_iff.mp hdigit
    rw [convert_digit_eq hd hlt] at hval
    refine ⟨?_, ?_, ?_⟩
    · intro x hx
      rcases List.mem_append.mp hx with hx | hx
      · exact h.digits x hx
      · rw [List.mem_singleton.mp hx]
        exact hdigit
    · intro hpos
      rw [List.length_append, List.length_singleton]
      omega
    · rw [value_snoc t hd]
      exact_mod_cast hval

theorem parse_address_component_loop.spec (sep : Char) (s : List Char) (idx n i : Nat)
    (p : List Char) (hn : n = s.length - i) (hi : i ≤ s.length) (hp : idx + p.length = i)
    (hw : Within base max_value max_length p) :
    parse_address_component_loop base sep max_value max_length (cstr s) idx n i
        (value base.toNat p) =
      some (if Within base max_value max_length (p ++ field sep (s.drop i)) then
        (value base.toNat (p ++ field sep (s.drop i)) : Int) else -1) := by
  induction n generalizing i p with
  | zero =>
    rw [List.drop_of_length_le (by omega), field_nil, List.append_nil, if_pos hw]
    rfl
  | succ n ih =>
    have hlt : i < s.length := by omega
    rw [parse_address_component_loop, getElem?_cstr hlt, List.getElem?_eq_getElem hlt,
      List.drop_eq_getElem_cons hlt]
    simp only [Option.bind_eq_bind, Option.bind_some]
    by_cases hsep : s[i] = sep
    · rw [if_pos hsep, hsep, field_cons_self, List.append_nil, if_pos hw]
      rfl
    · have hnext : p ++ field sep (s[i] :: s.drop (i + 1)) =
          (p ++ [s[i]]) ++ field sep (s.drop (i + 1)) := by
        rw [field_cons_of_ne hsep, List.append_assoc, List.singleton_append]
      rw [if_neg hsep, hnext, show i - idx + 1 = p.length + 1 by omega]
      by_cases hgo : Within base max_value max_length (p ++ [s[i]])
      · obtain ⟨hlen, hdigit, hval⟩ := (within_snoc_iff hw).mp hgo
        obtain ⟨d, hd, hdlt⟩ := isDigit_iff.mp (hgo.digits s[i] (by simp))
        rw [if_neg hlen, hdigit, if_neg (by decide), if_neg (by omega)]
        have hrest := ih (i + 1) (p ++ [s[i]]) (by omega) (by omega) (by simp; omega) hgo
        rw [value_snoc p hd] at hrest
        rw [convert_digit_eq hd hdlt]
        exact_mod_cast hrest
      · have hnot : ¬ Within base max_value max_length
            (p ++ [s[i]] ++ field sep (s.drop (i + 1))) := fun h => hgo h.of_append
        rw [if_neg hnot]
        rw [within_snoc_iff hw] at hgo
        by_cases hlen : max_length > 0 ∧ p.length + 1 > max_length
        · rw [if_pos hlen]
          rfl
        · rw [if_neg hlen]
          by_cases hdigit : is_valid_digit base s[i] = true
          · rw [hdigit, if_neg (by decide), if_pos]
            · rfl
            · by_contra hval
              exact hgo ⟨hlen, hdigit, by omega⟩
          · rw [if_pos (by simpa using hdigit)]
            rfl

/-- A component parser gives the number of a component, and -1 for anything else. -/
theorem parse_address_component.spec {sep : Char} (s : List Char) {idx : Nat}
    (hidx : idx ≤ s.length) :
    parse_address_component base sep max_value max_length (cstr s) idx =
      some (if Component base max_value max_length (field sep (s.drop idx)) then
        (value base.toNat (field sep (s.drop idx)) : Int) else -1) := by
  have hend : (cstr s).length - 1 = s.length := by simp
  unfold parse_address_component
  rw [hend, sizeSub_of_le hidx]
  rcases Nat.eq_or_lt_of_le hidx with rfl | hlt
  · rw [if_pos (by omega), List.drop_length, field_nil, if_neg (fun h => h.1 rfl)]
    rfl
  · rw [if_neg (by omega), getElem?_cstr hlt, List.getElem?_eq_getElem hlt]
    simp only [Option.bind_eq_bind, Option.bind_some]
    by_cases hsep : s[idx] = sep
    · rw [if_pos hsep, List.drop_eq_getElem_cons hlt, hsep, field_cons_self,
        if_neg (fun h => h.1 rfl)]
      rfl
    · have hne : field sep (s.drop idx) ≠ [] := by
        rw [List.drop_eq_getElem_cons hlt, field_cons_of_ne hsep]
        exact List.cons_ne_nil _ _
      have hnil : Within base max_value max_length [] :=
        ⟨by simp, fun _ => Nat.zero_le _, Nat.zero_le _⟩
      have hloop := parse_address_component_loop.spec sep s idx _ idx [] rfl hidx rfl hnil
      rw [if_neg hsep]
      simpa [Component, hne] using hloop

/-- A bound below 2^31 keeps the number as it is in an `int`. -/
theorem toInt_component (h : max_value < 2 ^ 31) (t : List Char) :
    toInt (if Component base max_value max_length t then (value base.toNat t : Int) else -1) =
      if Component base max_value max_length t then (value base.toNat t : Int) else -1 := by
  split_ifs with hcomp
  · exact toInt_natCast (Nat.lt_of_le_of_lt hcomp.2.value h)
  · exact toInt_neg_one

end Components

/-! ## The components of IPv4 and IPv6 addresses -/

def parse_inet_component_base (base : Base) (max_value : Nat) (str : List Char) (idx : Nat) :
    Option Int := do
  return toInt (← parse_address_component base '.' max_value 0 str idx)

def parse_inet_component_oct (max_value : Nat) (str : List Char) (idx : Nat) : Option Int :=
  parse_inet_component_base .oct max_value str idx

def parse_inet_component_dec (max_value : Nat) (str : List Char) (idx : Nat) : Option Int :=
  parse_inet_component_base .dec max_value str idx

def parse_inet_component_hex (max_value : Nat) (str : List Char) (idx : Nat) : Option Int :=
  parse_inet_component_base .hex max_value str idx

/-- The test `(N - idx) > 2 && str[idx] == '0' && next(str[idx + 1])`. -/
def zero_before (str : List Char) (idx : Nat) (next : Char → Bool) : Option Bool := do
  if sizeSub str.length idx > 2 then
    if (← str[idx]?) = '0' then return next (← str[idx + 1]?)
    else return false
  else return false

def parse_inet_component (max_value : Nat) (str : List Char) (idx : Nat) : Option Int := do
  if ← zero_before str idx (fun c => toupper c = 'X') then
    parse_inet_component_hex max_value str (idx + 2)
  else if ← zero_before str idx (fun c => isdigit c && c ≠ '0') then
    parse_inet_component_oct max_value str (idx + 1)
  else
    parse_inet_component_dec max_value str idx

def parse_inet_component_canonical (str : List Char) (idx : Nat) : Option Int := do
  if ← zero_before str idx isdigit then return -1
  return toInt (← parse_address_component .dec '.' 255 3 str idx)

def parse_inet6_hexlet (str : List Char) (idx : Nat) : Option Int := do
  return toInt (← parse_address_component .hex ':' 0xFFFF 4 str idx)

/-- A decimal number from 0 to 255 without leading zeros. -/
structure Octet (t : List Char) : Prop where
  numeral : Numeral 10 t
  short : t.length ≤ 3
  value : value 10 t ≤ 255
  plain : t.head? = some '0' → t = ['0']

/-- One to four hexadecimal digits. -/
structure Group (t : List Char) : Prop where
  numeral : Numeral 16 t
  short : t.length ≤ 4

instance (t : List Char) : Decidable (Octet t) :=
  decidable_of_iff (Numeral 10 t ∧ t.length ≤ 3 ∧ numerals.value 10 t ≤ 255 ∧
      (t.head? = some '0' → t = ['0']))
    ⟨fun h => ⟨h.1, h.2.1, h.2.2.1, h.2.2.2⟩, fun h => ⟨h.numeral, h.short, h.value, h.plain⟩⟩

instance (t : List Char) : Decidable (Group t) :=
  decidable_of_iff (Numeral 16 t ∧ t.length ≤ 4)
    ⟨fun h => ⟨h.1, h.2⟩, fun h => ⟨h.numeral, h.short⟩⟩

/-- The character behind a zero at the head of a text passes the test. -/
def afterZero (next : Char → Bool) : List Char → Bool
  | '0' :: c :: _ => next c
  | _ => false

@[simp] theorem afterZero_zero (next : Char → Bool) (c : Char) (u : List Char) :
    afterZero next ('0' :: c :: u) = next c := rfl

theorem afterZero_of_ne {z : Char} (h : z ≠ '0') (next : Char → Bool) (u : List Char) :
    afterZero next (z :: u) = false := by
  unfold afterZero
  split
  · rename_i heq
    exact absurd (List.cons.inj heq).1 h
  · rfl

theorem afterZero_short {u : List Char} (h : u.length ≤ 1) (next : Char → Bool) :
    afterZero next u = false := by
  unfold afterZero
  split
  · simp at h
  · rfl

theorem zero_before.spec (s : List Char) {idx : Nat} (hidx : idx ≤ s.length)
    (next : Char → Bool) :
    zero_before (cstr s) idx next = some (afterZero next (s.drop idx)) := by
  unfold zero_before
  rw [length_cstr, sizeSub_of_le (by omega)]
  by_cases hlen : s.length + 1 - idx > 2
  · have h0 : idx < s.length := by omega
    have h1 : idx + 1 < s.length := by omega
    rw [if_pos hlen, getElem?_cstr h0, getElem?_cstr h1, List.getElem?_eq_getElem h0,
      List.getElem?_eq_getElem h1, List.drop_eq_getElem_cons h0, List.drop_eq_getElem_cons h1]
    simp only [Option.bind_eq_bind, Option.bind_some]
    by_cases hz : s[idx] = '0'
    · rw [if_pos hz, hz, afterZero_zero]
      rfl
    · rw [if_neg hz, afterZero_of_ne hz]
      rfl
  · rw [if_neg hlen, afterZero_short (by rw [List.length_drop]; omega)]
    rfl

theorem component_dec_iff (t : List Char) :
    Component .dec 255 3 t ↔ Numeral 10 t ∧ t.length ≤ 3 ∧ value 10 t ≤ 255 := by
  constructor
  · rintro ⟨hne, hdigits, hlen, hval⟩
    exact ⟨⟨hne, hdigits⟩, hlen (by decide), hval⟩
  · rintro ⟨⟨hne, hdigits⟩, hlen, hval⟩
    exact ⟨hne, hdigits, fun _ => hlen, hval⟩

/-- Four hexadecimal digits stay below 2^16. -/
theorem component_hex_iff (t : List Char) : Component .hex 0xFFFF 4 t ↔ Group t := by
  constructor
  · rintro ⟨hne, hdigits, hlen, _⟩
    exact ⟨⟨hne, hdigits⟩, hlen (by decide)⟩
  · rintro ⟨⟨hne, hdigits⟩, hlen⟩
    refine ⟨hne, hdigits, fun _ => hlen, ?_⟩
    have hlt : value 16 t < 16 ^ t.length := value_lt (by decide) hdigits
    have hpow : 16 ^ t.length ≤ 16 ^ 4 := Nat.pow_le_pow_right (by decide) hlen
    exact Nat.le_of_lt_succ (Nat.lt_of_lt_of_le hlt hpow)

theorem Group.value_lt {t : List Char} (h : Group t) : value 16 t < 65536 := by
  have hw := ((component_hex_iff t).mpr h).2.value
  exact Nat.lt_succ_of_le hw

theorem parse_inet6_hexlet.spec (s : List Char) {idx : Nat} (hidx : idx ≤ s.length) :
    parse_inet6_hexlet (cstr s) idx =
      some (if Group (field ':' (s.drop idx)) then
        (value 16 (field ':' (s.drop idx)) : Int) else -1) := by
  unfold parse_inet6_hexlet
  rw [parse_address_component.spec s hidx]
  simp only [Option.bind_eq_bind, Option.bind_some]
  rw [toInt_component (by decide)]
  simp only [component_hex_iff]
  rfl

/-- The digit after a zero is all that sets a decimal component apart from an octet. -/
theorem octet_field_iff (u : List Char) :
    Octet (field '.' u) ↔
      afterZero isdigit u = false ∧ Component .dec 255 3 (field '.' u) := by
  rw [component_dec_iff]
  constructor
  · intro h
    refine ⟨?_, h.numeral, h.short, h.value⟩
    by_contra hdigit
    rw [Bool.not_eq_false] at hdigit
    unfold afterZero at hdigit
    split at hdigit
    · rename_i c rest
      have hc : c ≠ '.' := by
        rintro rfl
        exact absurd hdigit (by decide)
      have hplain := h.plain
      rw [field_cons_of_ne (by decide), field_cons_of_ne hc] at hplain
      exact absurd (hplain rfl) (by simp)
    · cases hdigit
  · rintro ⟨hzero, hnum, hshort, hval⟩
    refine ⟨hnum, hshort, hval, ?_⟩
    intro hhead
    cases u with
    | nil => cases hhead
    | cons z rest =>
      by_cases hz : z = '.'
      · rw [hz, field_cons_self] at hhead
        cases hhead
      · rw [field_cons_of_ne hz] at hhead hnum ⊢
        obtain rfl : z = '0' := Option.some.inj hhead
        cases rest with
        | nil => rfl
        | cons c more =>
          by_cases hc : c = '.'
          · rw [hc, field_cons_self]
          · have hdigit := hnum.2 c (by simp [field_cons_of_ne hc])
            have hvalid : isdigit c = true := (is_valid_digit_eq .dec c).trans hdigit
            rw [afterZero_zero, hvalid] at hzero
            cases hzero

theorem parse_inet_component_canonical.spec (s : List Char) {idx : Nat} (hidx : idx ≤ s.length) :
    parse_inet_component_canonical (cstr s) idx =
      some (if Octet (field '.' (s.drop idx)) then
        (value 10 (field '.' (s.drop idx)) : Int) else -1) := by
  unfold parse_inet_component_canonical
  rw [zero_before.spec s hidx, parse_address_component.spec s hidx]
  simp only [octet_field_iff, Option.bind_eq_bind, Option.bind_some]
  rw [toInt_component (by decide)]
  by_cases hzero : afterZero isdigit (s.drop idx) = true
  · rw [if_pos hzero, if_neg (fun h => by rw [h.1] at hzero; cases hzero)]
    rfl
  · rw [if_neg hzero]
    simp only [Bool.not_eq_true] at hzero
    simp only [hzero, true_and]
    rfl

end rmrf.net.details
