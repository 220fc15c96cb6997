-- The machine's integers where they differ from the natural numbers: a `size_t`
-- difference below zero, a `long long` cut to an `int`, bytes that are put together
-- with shifts, and the two byte orders. And arrays, whose writes stay inside them.
import Mathlib

namespace machine

/-! ## Sizes and signed integers -/

/-- The difference of two `size_t` values wraps below zero. A size itself is a
`Nat`: no array or container reaches 2^64 elements. -/
def sizeSub (a b : Nat) : Nat := if b ≤ a then a - b else a + 2 ^ 64 - b

theorem sizeSub_of_le {a b : Nat} (h : b ≤ a) : sizeSub a b = a - b := if_pos h

/-- The sum of two `size_t` values, for an array of this length. Inside the array it does not
wrap. -/
def sizeAdd (length a b : Nat) : Nat := if a + b ≤ length then a + b else (a + b) % 2 ^ 64

theorem sizeAdd_of_le {length a b : Nat} (h : a + b ≤ length) : sizeAdd length a b = a + b :=
  if_pos h

/-- Of an array that there can be, the sum is that of the machine. -/
theorem sizeAdd_of_lt {length : Nat} (h : length < 2 ^ 64) (a b : Nat) :
    sizeAdd length a b = (a + b) % 2 ^ 64 := by
  unfold sizeAdd
  split_ifs with hle
  · exact (Nat.mod_eq_of_lt (by omega)).symm
  · rfl

/-- A number as a `size_t`. -/
def toSize (x : Int) : Nat := (x % 2 ^ 64).toNat

/-- A number as an `off_t`. -/
def toOff (x : Int) : Int := x.bmod (2 ^ 64)

theorem toSize_natCast (n : Nat) : toSize n = n % 2 ^ 64 := by
  unfold toSize
  omega

theorem toOff_of_range {x : Int} (hlo : -2 ^ 63 ≤ x) (hhi : x < 2 ^ 63) : toOff x = x := by
  unfold toOff
  rw [Int.bmod_def]
  omega

theorem toSize_toOff (x : Int) : toSize (toOff x) = toSize x := by
  unfold toSize toOff
  rw [Int.bmod_def]
  omega

/-- A sum may be brought into range once, or each of its parts before. -/
theorem toOff_add_toOff (x y : Int) : toOff (x + toOff y) = toOff (x + y) := by
  unfold toOff
  rw [Int.bmod_def, Int.bmod_def, Int.bmod_def]
  omega

/-- A signed result that has to fit in a `long long`. -/
def fitLong (x : Int) : Option Int := if -2 ^ 63 ≤ x ∧ x < 2 ^ 63 then some x else none

theorem fitLong_of_range {x : Int} (hlo : -2 ^ 63 ≤ x) (hhi : x < 2 ^ 63) : fitLong x = some x :=
  if_pos ⟨hlo, hhi⟩

/-- A `long long` cut to an `int`. -/
def toInt (x : Int) : Int := x.bmod (2 ^ 32)

theorem toInt_natCast {n : Nat} (h : n < 2 ^ 31) : toInt n = n := by
  unfold toInt
  rw [Int.bmod_def]
  omega

@[simp] theorem toInt_neg_one : toInt (-1) = -1 := by decide

/-- A value of 32 bits with its highest bit set is a negative `int`. -/
theorem toInt_of_le {n : Nat} (h0 : 2 ^ 31 ≤ n) (h : n < 2 ^ 32) : toInt n < 0 := by
  unfold toInt
  rw [Int.bmod_def]
  omega

/-! ## Four bytes in a word -/

/-- `static_cast<uint32_t>((c1 << 24) | (c2 << 16) | (c3 << 8) | c4)`, with operands of
type `long long`. -/
def orOfShifts (c1 c2 c3 c4 : Int) : Nat :=
  ((BitVec.ofInt 64 c1 <<< 24 ||| BitVec.ofInt 64 c2 <<< 16 ||| BitVec.ofInt 64 c3 <<< 8 |||
    BitVec.ofInt 64 c4).setWidth 32).toNat

/-- A byte goes into the free place behind the bytes before it. -/
theorem shiftLeft_or_byte {b : Nat} (hb : b < 256) (x k : Nat) :
    x <<< (k + 8) ||| b <<< k = (x * 256 + b) <<< k := by
  have hlt : b <<< k < 2 ^ (k + 8) := by
    rw [Nat.shiftLeft_eq, Nat.pow_add, Nat.mul_comm]
    exact Nat.mul_lt_mul_of_pos_left hb (Nat.two_pow_pos k)
  rw [← Nat.shiftLeft_add_eq_or_of_lt hlt, Nat.shiftLeft_eq, Nat.shiftLeft_eq, Nat.shiftLeft_eq,
    Nat.pow_add]
  ring

theorem toNat_ofInt_shiftLeft {n k : Nat} (hn : n < 256) (hk : k ≤ 24) :
    (BitVec.ofInt 64 (n : Int) <<< k).toNat = n <<< k := by
  have hpow : 2 ^ k ≤ 2 ^ 24 := Nat.pow_le_pow_right (by decide) hk
  have hlt : n * 2 ^ k < 2 ^ 64 :=
    calc n * 2 ^ k ≤ 256 * 2 ^ 24 := Nat.mul_le_mul (Nat.le_of_lt hn) hpow
      _ < 2 ^ 64 := by decide
  have hofInt : (BitVec.ofInt 64 (n : Int)).toNat = n := by
    rw [BitVec.ofInt_natCast, BitVec.toNat_ofNat]
    omega
  rw [BitVec.toNat_shiftLeft, hofInt, Nat.shiftLeft_eq, Nat.mod_eq_of_lt hlt]

theorem orOfShifts_of_lt {a b c d : Nat} (ha : a < 256) (hb : b < 256) (hc : c < 256)
    (hd : d < 256) : orOfShifts a b c d = a * 2 ^ 24 + b * 2 ^ 16 + c * 2 ^ 8 + d := by
  have hlow : BitVec.ofInt 64 (d : Int) = BitVec.ofInt 64 (d : Int) <<< 0 := by simp
  unfold orOfShifts
  rw [hlow, BitVec.toNat_setWidth, BitVec.toNat_or, BitVec.toNat_or, BitVec.toNat_or,
    toNat_ofInt_shiftLeft ha (by decide), toNat_ofInt_shiftLeft hb (by decide),
    toNat_ofInt_shiftLeft hc (by decide), toNat_ofInt_shiftLeft hd (by decide),
    shiftLeft_or_byte hb a 16, shiftLeft_or_byte hc _ 8, shiftLeft_or_byte hd _ 0,
    Nat.shiftLeft_zero]
  omega

/-- The last place alone is the whole word. -/
theorem orOfShifts_last {n : Nat} (h : n < 2 ^ 32) : orOfShifts 0 0 0 n = n := by
  have hzero : BitVec.ofInt 64 0 = 0#64 := by decide
  unfold orOfShifts
  rw [hzero, BitVec.zero_shiftLeft, BitVec.zero_shiftLeft, BitVec.zero_shiftLeft, BitVec.or_zero,
    BitVec.or_zero, BitVec.zero_or, BitVec.ofInt_natCast, BitVec.toNat_setWidth,
    BitVec.toNat_ofNat]
  omega

/-- With -1 in the last place all bits are set. -/
theorem orOfShifts_neg_one (a b c : Int) : orOfShifts a b c (-1) = 0xFFFFFFFF := by
  have hones : BitVec.ofInt 64 (-1) = BitVec.allOnes 64 := by decide
  unfold orOfShifts
  rw [hones, BitVec.or_allOnes]
  rfl

/-! ## Byte orders -/

inductive ByteOrder
  | big
  | little
deriving DecidableEq, Repr

/-- The bytes of a 32-bit word, from the highest to the lowest. -/
def octets (x : Nat) : List Nat := [x / 2 ^ 24 % 256, x / 2 ^ 16 % 256, x / 2 ^ 8 % 256, x % 256]

/-- The bytes of a 32-bit word in memory. -/
def inMemory : ByteOrder → Nat → List Nat
  | .big, x => octets x
  | .little, x => (octets x).reverse

/-- `__builtin_bswap32` -/
def bswap32 (x : Nat) : Nat :=
  x % 256 * 2 ^ 24 + x / 2 ^ 8 % 256 * 2 ^ 16 + x / 2 ^ 16 % 256 * 2 ^ 8 + x / 2 ^ 24 % 256

theorem octets_of_lt {a b c d : Nat} (ha : a < 256) (hb : b < 256) (hc : c < 256) (hd : d < 256) :
    octets (a * 2 ^ 24 + b * 2 ^ 16 + c * 2 ^ 8 + d) = [a, b, c, d] := by
  simp only [octets, List.cons.injEq, and_true]
  omega

theorem octets_inj {x y : Nat} (hx : x < 2 ^ 32) (hy : y < 2 ^ 32) (h : octets x = octets y) :
    x = y := by
  simp only [octets, List.cons.injEq, and_true] at h
  omega

theorem octets_bswap32 (x : Nat) : octets (bswap32 x) = (octets x).reverse :=
  octets_of_lt (Nat.mod_lt _ (by decide)) (Nat.mod_lt _ (by decide)) (Nat.mod_lt _ (by decide))
    (Nat.mod_lt _ (by decide))

theorem bswap32_bswap32 {x : Nat} (h : x < 2 ^ 32) : bswap32 (bswap32 x) = x := by
  have hoctets := octets_bswap32 x
  simp only [octets, List.reverse_cons, List.reverse_nil, List.nil_append, List.cons_append,
    List.cons.injEq, and_true] at hoctets
  obtain ⟨h1, h2, h3, h4⟩ := hoctets
  have hword : bswap32 (bswap32 x) = x / 2 ^ 24 % 256 * 2 ^ 24 + x / 2 ^ 16 % 256 * 2 ^ 16 +
      x / 2 ^ 8 % 256 * 2 ^ 8 + x % 256 := by
    rw [← h1, ← h2, ← h3, ← h4]
    rfl
  clear h1 h2 h3 h4
  omega

/-! ## Arrays -/

section Arrays

variable {α : Type*}

/-- A write to an array; outside of it there is nothing to write to. -/
def store (a : List α) (i : Nat) (x : α) : Option (List α) :=
  if i < a.length then some (a.set i x) else none

theorem length_of_store {a b : List α} {i : Nat} {x : α} (h : store a i x = some b) :
    b.length = a.length := by
  unfold store at h
  split_ifs at h
  cases h
  exact List.length_set

theorem store_append_cons (u v : List α) (x y : α) :
    store (u ++ x :: v) u.length y = some (u ++ y :: v) := by
  unfold store
  rw [if_pos (by simp), List.set_append_right _ _ (Nat.le_refl _), Nat.sub_self, List.set_cons_zero]

end Arrays

end machine
