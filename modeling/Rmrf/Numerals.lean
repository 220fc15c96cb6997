-- Numerals: the number that a string of digits writes in a base, and the numerals that
-- have a bounded length or a bounded value.
import Mathlib

namespace numerals

/-! ## Digits -/

/-- What a character stands for as a digit. -/
def digit (c : Char) : Option Nat :=
  if '0' ≤ c ∧ c ≤ '9' then some (c.toNat - '0'.toNat)
  else if 'a' ≤ c ∧ c ≤ 'f' then some (c.toNat - 'a'.toNat + 10)
  else if 'A' ≤ c ∧ c ≤ 'F' then some (c.toNat - 'A'.toNat + 10)
  else none

/-- A digit of the base. -/
def isDigit (base : Nat) (c : Char) : Bool := (digit c).any (· < base)

theorem isDigit_iff {base : Nat} {c : Char} :
    isDigit base c = true ↔ ∃ d, digit c = some d ∧ d < base := by
  cases h : digit c <;> simp [isDigit, h]

/-! ## The value of a numeral -/

/-- The number that the digits write, the highest first. -/
def value (base : Nat) (t : List Char) : Nat :=
  Nat.ofDigits base (t.reverse.map fun c => (digit c).getD 0)

/-- Digits of the base, and at least one. -/
def Numeral (base : Nat) (t : List Char) : Prop := t ≠ [] ∧ ∀ c ∈ t, isDigit base c

instance (base : Nat) (t : List Char) : Decidable (Numeral base t) :=
  decidable_of_iff (t ≠ [] ∧ t.all (isDigit base) = true)
    (and_congr_right fun _ => List.all_eq_true)

@[simp] theorem value_nil (base : Nat) : value base [] = 0 := rfl

/-- The next digit moves those before it up by one place. -/
theorem value_snoc {base d : Nat} {c : Char} (t : List Char) (h : digit c = some d) :
    value base (t ++ [c]) = value base t * base + d := by
  simp only [value, List.reverse_append, List.reverse_singleton, List.singleton_append,
    List.map_cons, h, Option.getD_some, Nat.ofDigits_cons]
  rw [Nat.add_comm, Nat.mul_comm]

/-- More digits do not make the number smaller. -/
theorem value_le_append {base : Nat} (hbase : 0 < base) (t u : List Char) :
    value base t ≤ value base (t ++ u) := by
  simp only [value, List.reverse_append, List.map_append, Nat.ofDigits_append]
  calc Nat.ofDigits base (t.reverse.map fun c => (digit c).getD 0)
      ≤ base ^ (u.reverse.map fun c => (digit c).getD 0).length *
          Nat.ofDigits base (t.reverse.map fun c => (digit c).getD 0) :=
        Nat.le_mul_of_pos_left _ (Nat.pow_pos hbase)
    _ ≤ _ := Nat.le_add_left _ _

/-- A numeral of `k` digits is below the `k`-th power of the base. -/
theorem value_lt {base : Nat} (hbase : 1 < base) {t : List Char}
    (h : ∀ c ∈ t, isDigit base c) : value base t < base ^ t.length := by
  have hlt := Nat.ofDigits_lt_base_pow_length (b := base)
    (l := t.reverse.map fun c => (digit c).getD 0) hbase ?_
  · simpa [value] using hlt
  · intro x hx
    obtain ⟨c, hc, rfl⟩ := List.mem_map.mp hx
    obtain ⟨d, hd, hlt⟩ := isDigit_iff.mp (h c (List.mem_reverse.mp hc))
    rw [hd]
    exact hlt

/-! ## One numeral in two bases -/

theorem digit_eq_zero {c : Char} (h : digit c = some 0) : c = '0' := by
  unfold digit at h
  split_ifs at h with hdec hlow hupp
  · have hlo : 48 ≤ c.toNat := hdec.1
    have hc : c.toNat - 48 = 0 := Option.some.inj h
    have heq : c.toNat = 48 := by omega
    rw [← Char.ofNat_toNat c, heq]
  · cases Option.some.inj h
  · cases Option.some.inj h

/-- Only zeros, if anything, before the last digit. -/
def OneDigit (base : Nat) (t : List Char) : Prop :=
  ∃ k d, t = List.replicate k '0' ++ [d] ∧ isDigit base d

theorem zero_of_value_eq_zero {base : Nat} (hbase : 0 < base) {t : List Char}
    (h : ∀ c ∈ t, isDigit base c) (hzero : value base t = 0) :
    t = List.replicate t.length '0' := by
  induction t using List.reverseRecOn with
  | nil => rfl
  | append_singleton t c ih =>
    obtain ⟨d, hd, _⟩ := isDigit_iff.mp (h c (by simp))
    rw [value_snoc t hd] at hzero
    have hprefix : value base t = 0 := by
      have hmul : value base t * base = 0 := by omega
      rcases Nat.mul_eq_zero.mp hmul with h0 | h0
      · exact h0
      · omega
    have hlast : c = '0' := by
      apply digit_eq_zero
      rw [hd]
      congr 1
      omega
    have hall := ih (fun x hx => h x (List.mem_append_left _ hx)) hprefix
    rw [List.length_append, List.length_singleton, List.replicate_succ', ← hall, hlast]

theorem value_replicate_zero (base k : Nat) : value base (List.replicate k '0') = 0 := by
  induction k with
  | zero => rfl
  | succ k ih =>
    rw [List.replicate_succ', value_snoc _ (by decide : digit '0' = some 0), ih]
    omega

theorem value_zero_cons (base : Nat) (t : List Char) : value base ('0' :: t) = value base t := by
  simp only [value, List.reverse_cons, List.map_append, Nat.ofDigits_append, List.map_singleton,
    Nat.ofDigits_singleton]
  rw [show (digit '0').getD 0 = 0 by decide, Nat.mul_zero, Nat.add_zero]

/-- A larger base makes a numeral no smaller. -/
theorem value_le_value {base base' : Nat} (hle : base ≤ base') {t : List Char}
    (h : ∀ c ∈ t, isDigit base c) : value base t ≤ value base' t := by
  induction t using List.reverseRecOn with
  | nil => exact Nat.le_refl 0
  | append_singleton t c ih =>
    obtain ⟨d, hd, _⟩ := isDigit_iff.mp (h c (by simp))
    rw [value_snoc t hd, value_snoc t hd]
    have hprefix := ih (fun x hx => h x (List.mem_append_left _ hx))
    exact Nat.add_le_add_right (Nat.mul_le_mul hprefix hle) d

/-- A numeral writes one number in two bases exactly when it has one digit. -/
theorem value_eq_value_iff {base base' : Nat} (hbase : 0 < base) (hlt : base < base')
    {t : List Char} (h : Numeral base t) :
    value base t = value base' t ↔ OneDigit base t := by
  constructor
  · intro heq
    obtain ⟨u, c, rfl⟩ : ∃ u c, t = u ++ [c] :=
      ⟨t.dropLast, t.getLast h.1, (List.dropLast_append_getLast h.1).symm⟩
    have hu : ∀ x ∈ u, isDigit base x := fun x hx => h.2 x (List.mem_append_left _ hx)
    have hc : isDigit base c = true := h.2 c (by simp)
    obtain ⟨d, hd, _⟩ := isDigit_iff.mp hc
    rw [value_snoc u hd, value_snoc u hd] at heq
    have hle := value_le_value (Nat.le_of_lt hlt) hu
    have hzero : value base u = 0 := by
      by_contra hpos
      have hmul : value base u * base < value base' u * base' :=
        Nat.mul_lt_mul_of_le_of_lt hle hlt (by omega)
      omega
    exact ⟨u.length, c, by rw [← zero_of_value_eq_zero hbase hu hzero], hc⟩
  · rintro ⟨k, c, rfl, hc⟩
    obtain ⟨d, hd, _⟩ := isDigit_iff.mp hc
    rw [value_snoc _ hd, value_snoc _ hd, value_replicate_zero, value_replicate_zero]
    omega

end numerals
