-- Output streams with the formatting state that strings and unsigned numbers need. The
-- width is for the next output alone, and all else stays until it is set again.
import Mathlib
import Rmrf.Numerals

open numerals

namespace ostream

/-! ## Numerals -/

/-- The character of a digit below 16. -/
def digitChar (uppercase : Bool) (d : Nat) : Char :=
  if d < 10 then Char.ofNat ('0'.toNat + d)
  else if uppercase then Char.ofNat ('A'.toNat + (d - 10))
  else Char.ofNat ('a'.toNat + (d - 10))

/-- The digits of a number, the highest first, and at least one. -/
def digits (base n : Nat) : List Nat := if n = 0 then [0] else (Nat.digits base n).reverse

def numeral (base : Nat) (uppercase : Bool) (n : Nat) : List Char :=
  (digits base n).map (digitChar uppercase)

theorem digits_lt {base n d : Nat} (hbase : 1 < base) (h : d ∈ digits base n) : d < base := by
  unfold digits at h
  split_ifs at h with hn
  · rw [List.mem_singleton.mp h]
    omega
  · exact Nat.digits_lt_base hbase (List.mem_reverse.mp h)

/-- A digit is read back from its character in either case. -/
theorem digit_digitChar (uppercase : Bool) {d : Nat} (h : d < 16) :
    digit (digitChar uppercase d) = some d := by
  have htable : ∀ uppercase, ∀ d < 16, digit (digitChar uppercase d) = some d := by decide
  exact htable uppercase d h

/-- The case of a digit shows on the letters. -/
theorem digitChar_eq_iff {d : Nat} (h : d < 16) :
    digitChar true d = digitChar false d ↔ d < 10 := by
  have htable : ∀ d < 16, digitChar true d = digitChar false d ↔ d < 10 := by decide
  exact htable d h

@[simp] theorem length_numeral (base : Nat) (uppercase : Bool) (n : Nat) :
    (numeral base uppercase n).length = (digits base n).length := List.length_map _

theorem numeral_eq_iff (n : Nat) :
    numeral 16 true n = numeral 16 false n ↔ ∀ d ∈ digits 16 n, d < 10 := by
  unfold numeral
  rw [List.map_inj_left]
  constructor
  · intro h d hd
    exact (digitChar_eq_iff (digits_lt (by decide) hd)).mp (h d hd)
  · intro h d hd
    exact (digitChar_eq_iff (digits_lt (by decide) hd)).mpr (h d hd)

theorem isDigit_numeral {base : Nat} (hbase : 1 < base) (hle : base ≤ 16) {uppercase : Bool}
    {n : Nat} {c : Char} (h : c ∈ numeral base uppercase n) : isDigit base c = true := by
  obtain ⟨d, hd, rfl⟩ := List.mem_map.mp h
  have hlt := digits_lt hbase hd
  exact isDigit_iff.mpr ⟨d, digit_digitChar uppercase (Nat.lt_of_lt_of_le hlt hle), hlt⟩

/-- A number is read back from its numeral. -/
theorem value_numeral {base : Nat} (hbase : 1 < base) (hle : base ≤ 16) (uppercase : Bool)
    (n : Nat) : value base (numeral base uppercase n) = n := by
  have hread : ∀ d ∈ (digits base n).reverse,
      ((digit ∘ digitChar uppercase) d).getD 0 = d := by
    intro d hd
    have hlt := digits_lt hbase (List.mem_reverse.mp hd)
    rw [Function.comp_apply, digit_digitChar uppercase (Nat.lt_of_lt_of_le hlt hle),
      Option.getD_some]
  have hvalue : Nat.ofDigits base (digits base n).reverse = n := by
    unfold digits
    split_ifs with hn
    · simp [hn]
    · rw [List.reverse_reverse, Nat.ofDigits_digits]
  unfold value numeral
  rw [← List.map_reverse, List.map_map]
  calc Nat.ofDigits base ((digits base n).reverse.map _)
      = Nat.ofDigits base ((digits base n).reverse.map id) :=
        congrArg _ (List.map_congr_left hread)
    _ = n := by rw [List.map_id, hvalue]

/-- The character of a decimal digit is the one that it was read from. -/
theorem digitChar_digit {c : Char} {d : Nat} (h : digit c = some d) (hd : d < 10) :
    digitChar false d = c := by
  unfold digit at h
  split_ifs at h with hdec hlow hupp
  · have hlo : 48 ≤ c.toNat := hdec.1
    have hval : c.toNat - 48 = d := Option.some.inj h
    have hsum : 48 + d = c.toNat := by omega
    rw [digitChar, if_pos hd]
    show Char.ofNat (48 + d) = c
    rw [hsum, Char.ofNat_toNat]
  · have hten : c.toNat - 'a'.toNat + 10 = d := Option.some.inj h
    omega
  · have hten : c.toNat - 'A'.toNat + 10 = d := Option.some.inj h
    omega

/-- A decimal numeral without a zero in front is the one that its number has. -/
theorem numeral_value {t : List Char} (h : Numeral 10 t)
    (hplain : t.head? = some '0' → t = ['0']) : numeral 10 false (value 10 t) = t := by
  by_cases hzero : value 10 t = 0
  · have hall := zero_of_value_eq_zero (by decide) h.2 hzero
    obtain ⟨c, u, rfl⟩ := List.exists_cons_of_ne_nil h.1
    have hhead := congrArg List.head? hall
    rw [hzero, hplain hhead]
    rfl
  · have hdigits : Nat.digits 10 (value 10 t) = t.reverse.map fun c => (digit c).getD 0 := by
      apply Nat.digits_ofDigits 10 (by decide)
      · intro d hd
        obtain ⟨c, hc, rfl⟩ := List.mem_map.mp hd
        obtain ⟨d, hd, hlt⟩ := isDigit_iff.mp (h.2 c (List.mem_reverse.mp hc))
        rw [hd]
        exact hlt
      · intro hne
        obtain ⟨c, u, rfl⟩ := List.exists_cons_of_ne_nil h.1
        obtain ⟨d, hd, _⟩ := isDigit_iff.mp (h.2 c List.mem_cons_self)
        simp only [List.reverse_cons, List.map_append, List.map_singleton,
          List.getLast_append_singleton, hd, Option.getD_some]
        rintro rfl
        rw [digit_eq_zero hd] at hplain hzero
        rw [hplain rfl] at hzero
        exact hzero (by decide)
    rw [numeral, digits, if_neg hzero, hdigits, ← List.map_reverse, List.reverse_reverse,
      List.map_map]
    conv => rhs; rw [← List.map_id t]
    apply List.map_congr_left
    intro c hc
    obtain ⟨d, hd, hlt⟩ := isDigit_iff.mp (h.2 c hc)
    rw [Function.comp_apply, hd]
    exact digitChar_digit hd hlt

/-! ## Streams -/

structure Ostream where
  text : List Char
  base : Nat
  uppercase : Bool
  fill : Char
  width : Nat
deriving DecidableEq, Repr

/-- The text, with the fill character before it up to the width. -/
def pad (width : Nat) (fill : Char) (t : List Char) : List Char :=
  List.replicate (width - t.length) fill ++ t

@[simp] theorem pad_zero (fill : Char) (t : List Char) : pad 0 fill t = t := by simp [pad]

theorem length_pad (width : Nat) (fill : Char) (t : List Char) :
    (pad width fill t).length = max width t.length := by
  simp only [pad, List.length_append, List.length_replicate]
  omega

/-- Zeros before a numeral do not change its value. -/
theorem value_pad (base width : Nat) (t : List Char) :
    value base (pad width '0' t) = value base t := by
  unfold pad
  induction width - t.length with
  | zero => rfl
  | succ k ih => rw [List.replicate_succ, List.cons_append, value_zero_cons, ih]

theorem isDigit_pad {base width : Nat} (hbase : 0 < base) {t : List Char}
    (h : ∀ c ∈ t, isDigit base c) {c : Char} (hc : c ∈ pad width '0' t) :
    isDigit base c = true := by
  rcases List.mem_append.mp hc with hfill | hmem
  · rw [List.eq_of_mem_replicate hfill]
    exact isDigit_iff.mpr ⟨0, by decide, hbase⟩
  · exact h c hmem

namespace Ostream

/-- A stream with the default formatting. -/
def init : Ostream := ⟨[], 10, false, ' ', 0⟩

def setw (s : Ostream) (n : Nat) : Ostream := { s with width := n }

def setfill (s : Ostream) (c : Char) : Ostream := { s with fill := c }

def hex (s : Ostream) : Ostream := { s with base := 16 }

def set_uppercase (s : Ostream) : Ostream := { s with uppercase := true }

/-- The output of a string. -/
def put (s : Ostream) (t : List Char) : Ostream :=
  { s with text := s.text ++ pad s.width s.fill t, width := 0 }

/-- The output of an unsigned number. -/
def put_number (s : Ostream) (n : Nat) : Ostream := s.put (numeral s.base s.uppercase n)

/-- Without a width the string comes out as it is. -/
theorem put_of_width {s : Ostream} (h : s.width = 0) (t : List Char) :
    s.put t = { s with text := s.text ++ t } := by
  unfold put
  rw [h, pad_zero]

/-- Two strings come out as one. -/
theorem put_put {s : Ostream} (h : s.width = 0) (t u : List Char) :
    (s.put t).put u = s.put (t ++ u) := by
  rw [put_of_width (s := s.put t) rfl, put_of_width h, put_of_width h, List.append_assoc]

end Ostream

end ostream
