-- The address that a text of the numbers-and-dots notation stands for, and the one that
-- the parser gives: they part where a component begins with two zeros.
import Rmrf.NumbersAndDots

open machine numerals

namespace rmrf.net.details

/-! ## The address of a text -/

/-- One to four numbers, each within its place. -/
def address : List Nat → Option Nat
  | [a] => if a < 2 ^ 32 then some a else none
  | [a, b] => if a < 256 ∧ b < 2 ^ 24 then some (a * 2 ^ 24 + b) else none
  | [a, b, c] =>
    if a < 256 ∧ b < 256 ∧ c < 2 ^ 16 then some (a * 2 ^ 24 + b * 2 ^ 16 + c) else none
  | [a, b, c, d] =>
    if a < 256 ∧ b < 256 ∧ c < 256 ∧ d < 256 then
      some (a * 2 ^ 24 + b * 2 ^ 16 + c * 2 ^ 8 + d)
    else none
  | _ => none

/-- The text of one to four components stands for the address of their numbers. -/
def StandsFor (s : List Char) (v : Nat) : Prop :=
  ∃ cs, s = text cs ∧ (∀ p ∈ cs, Spelling p.1 p.2) ∧ address (cs.map Prod.snd) = some v

theorem standsFor_iff (s : List Char) (v : Nat) :
    StandsFor s v ↔ ∃ ns, List.Forall₂ Spelling (s.splitOn '.') ns ∧ address ns = some v := by
  constructor
  · rintro ⟨cs, rfl, hcs, haddr⟩
    have hne : cs ≠ [] := by
      rintro rfl
      cases haddr
    refine ⟨cs.map Prod.snd, ?_, haddr⟩
    rw [splitOn_text hne hcs, List.forall₂_map_left_iff, List.forall₂_map_right_iff,
      List.forall₂_same]
    exact hcs
  · rintro ⟨ns, hns, haddr⟩
    obtain ⟨hlen, hzip⟩ := List.forall₂_iff_zip.mp hns
    refine ⟨(s.splitOn '.').zip ns, ?_, fun p hp => hzip hp, ?_⟩
    · rw [text, List.map_fst_zip (Nat.le_of_eq hlen)]
      exact (List.intercalate_splitOn '.').symm
    · rw [List.map_snd_zip (Nat.le_of_eq hlen.symm)]
      exact haddr

theorem Spelling.unique {t : List Char} {m n : Nat} (hm : Spelling t m) (hn : Spelling t n) :
    m = n := by
  have hnotX : ∀ {x u}, x = 'x' ∨ x = 'X' → ¬ Numeral 8 (x :: u) := by
    rintro x u hx hnum
    have hdigit := hnum.2 x List.mem_cons_self
    rcases hx with rfl | rfl <;> exact absurd hdigit (by decide)
  cases hm with
  | dec hnum hplain =>
    cases hn with
    | dec => rfl
    | oct hoct => exact absurd (List.cons.inj (hplain rfl)).2 hoct.1
    | hex => exact absurd (hplain rfl) (by simp)
  | oct hoct =>
    cases hn with
    | dec _ hplain => exact absurd (List.cons.inj (hplain rfl)).2 hoct.1
    | oct => rfl
    | hex hx => exact absurd hoct (hnotX hx)
  | hex hx hnum =>
    cases hn with
    | dec _ hplain => exact absurd (hplain rfl) (by simp)
    | oct hoct => exact absurd hoct (hnotX hx)
    | hex => rfl

/-- A text stands for one address at most. -/
theorem StandsFor.unique {s : List Char} {v v' : Nat} (h : StandsFor s v) (h' : StandsFor s v') :
    v = v' := by
  obtain ⟨ns, hns, haddr⟩ := (standsFor_iff s v).mp h
  obtain ⟨ns', hns', haddr'⟩ := (standsFor_iff s v').mp h'
  have hunique : Relator.RightUnique Spelling := fun _ _ _ => Spelling.unique
  have hsame : ns = ns' := hunique.forall₂ hns hns'
  rw [hsame, haddr'] at haddr
  exact (Option.some.inj haddr).symm

theorem address_lt {ns : List Nat} {v : Nat} (h : address ns = some v) : v < 2 ^ 32 := by
  unfold address at h
  split at h
  · split_ifs at h
    cases h
    omega
  · split_ifs at h
    cases h
    omega
  · split_ifs at h
    cases h
    omega
  · split_ifs at h
    cases h
    omega
  · cases h

/-- An address has one number in each place. -/
theorem address_inj {ns ns' : List Nat} {v : Nat} (hlen : ns.length = ns'.length)
    (h : address ns = some v) (h' : address ns' = some v) : ns = ns' := by
  match ns, ns', hlen with
  | [], _, _ => cases h
  | [a], [a'], _ =>
    simp only [address, Option.ite_none_right_eq_some, Option.some.injEq] at h h'
    grind
  | [a, b], [a', b'], _ =>
    simp only [address, Option.ite_none_right_eq_some, Option.some.injEq] at h h'
    grind
  | [a, b, c], [a', b', c'], _ =>
    simp only [address, Option.ite_none_right_eq_some, Option.some.injEq] at h h'
    grind
  | [a, b, c, d], [a', b', c', d'], _ =>
    simp only [address, Option.ite_none_right_eq_some, Option.some.injEq] at h h'
    grind
  | _ :: _ :: _ :: _ :: _ :: _, _, _ => cases h

/-! ## The address that is read -/

/-- The number that the parser finds in a component. -/
inductive Reads : List Char → Nat → Prop
  | plain {t n} : ¬ DoubleZero t → Spelling t n → Reads t n
  | zeros {t} : DoubleZero t → Numeral 10 t → Reads t (value 10 t)

section Components

variable {max_value : Nat} {t : List Char}

theorem numeral_of_numeralIn {base : Base} (hmax : max_value < 2 ^ 32)
    (h : 0 ≤ numeralIn base max_value t) :
    Numeral base.toNat t ∧ value base.toNat t ≤ max_value ∧
      numeralIn base max_value t = value base.toNat t := by
  by_cases hc : Component base max_value 0 t
  · have hle := hc.2.value
    unfold numeralIn at h ⊢
    rw [if_pos hc] at h ⊢
    refine ⟨⟨hc.1, hc.2.digits⟩, hle, ?_⟩
    by_contra hne
    have hbig : ¬ value base.toNat t < 2 ^ 31 := fun hlt => hne (toInt_natCast hlt)
    have hneg := toInt_of_le (Nat.not_lt.mp hbig) (by omega)
    omega
  · unfold numeralIn at h
    rw [if_neg hc, toInt_neg_one] at h
    exact absurd h (by decide)

theorem componentOf_reads (hmax : max_value < 2 ^ 32) (h : 0 ≤ componentOf max_value t) :
    ∃ n : Nat, componentOf max_value t = n ∧ n ≤ max_value ∧ Reads t n := by
  unfold componentOf at h ⊢
  by_cases hhex : afterZero (fun c => toupper c = 'X') t = true
  · obtain ⟨x, t', rfl, hX⟩ := afterZero_eq_true hhex
    rw [if_pos hhex] at h ⊢
    obtain ⟨hnum, hle, heq⟩ := numeral_of_numeralIn hmax h
    have hx := (toupper_eq_X_iff x).mp (by simpa using hX)
    refine ⟨_, heq, hle, Reads.plain ?_ (Spelling.hex hx hnum)⟩
    rcases hx with rfl | rfl <;> simp [DoubleZero]
  · rw [if_neg hhex] at h ⊢
    by_cases hoct : afterZero (fun c => isdigit c && c ≠ '0') t = true
    · obtain ⟨c, t', rfl, hc⟩ := afterZero_eq_true hoct
      rw [if_pos hoct] at h ⊢
      obtain ⟨hnum, hle, heq⟩ := numeral_of_numeralIn hmax h
      have hc0 : '0' ≠ c := by
        rintro rfl
        cases hc
      exact ⟨_, heq, hle, Reads.plain (by simp [DoubleZero, hc0]) (Spelling.oct hnum)⟩
    · rw [if_neg hoct] at h ⊢
      obtain ⟨hnum, hle, heq⟩ := numeral_of_numeralIn hmax h
      refine ⟨_, heq, hle, ?_⟩
      by_cases hzz : DoubleZero t
      · exact Reads.zeros hzz hnum
      · refine Reads.plain hzz (Spelling.dec hnum ?_)
        intro hhead
        obtain ⟨u, rfl⟩ : ∃ u, t = '0' :: u := ⟨t.tail, List.eq_cons_of_mem_head? hhead⟩
        cases u with
        | nil => rfl
        | cons c u =>
          -- the digit behind the zero is neither another zero nor an octal one
          have hdigit : isdigit c = true :=
            (is_valid_digit_eq .dec c).trans (hnum.2 c (by simp))
          have hc0 : c ≠ '0' := by
            rintro rfl
            exact hzz ⟨u, rfl⟩
          exact absurd (by simp [hdigit, hc0]) hoct

end Components

/-- The numbers of the parts make an address. -/
theorem partsRead_reads {ps : List (List Char)} {c1 c2 c3 c4 : Int}
    (h : partsRead ps = some (c1, c2, c3, c4)) (hpos : ¬ (c1 < 0 ∨ c2 < 0 ∨ c3 < 0 ∨ c4 < 0)) :
    ∃ ns, List.Forall₂ Reads ps ns ∧ address ns = some (orOfShifts c1 c2 c3 c4) := by
  simp only [not_or, Int.not_lt] at hpos
  obtain ⟨h1, h2, h3, h4⟩ := hpos
  unfold partsRead at h
  split at h
  · rename_i a
    cases h
    obtain ⟨n, heq, hle, hn⟩ := componentOf_reads (by decide) h4
    have hlt : n < 2 ^ 32 := Nat.lt_succ_of_le hle
    refine ⟨[n], List.Forall₂.cons hn List.Forall₂.nil, ?_⟩
    rw [heq, orOfShifts_last hlt, address, if_pos hlt]
  · rename_i a b
    cases h
    obtain ⟨n, heq, hle, hn⟩ := componentOf_reads (by decide) h1
    obtain ⟨m, heqm, hlem, hm⟩ := componentOf_reads (by decide) h4
    refine ⟨[n, m], List.Forall₂.cons hn (List.Forall₂.cons hm List.Forall₂.nil), ?_⟩
    have hor := orOfShifts_of_lt (a := n) (b := 0) (c := 0) (d := m) (by omega) (by decide)
      (by decide) (by omega)
    rw [Nat.cast_zero] at hor
    rw [heq, heqm, hor, address, if_pos (by omega), Nat.zero_mul, Nat.zero_mul, Nat.add_zero]
  · rename_i a b c
    cases h
    obtain ⟨n, heq, hle, hn⟩ := componentOf_reads (by decide) h1
    obtain ⟨m, heqm, hlem, hm⟩ := componentOf_reads (by decide) h2
    obtain ⟨k, heqk, hlek, hk⟩ := componentOf_reads (by decide) h4
    refine ⟨[n, m, k],
      List.Forall₂.cons hn (List.Forall₂.cons hm (List.Forall₂.cons hk List.Forall₂.nil)), ?_⟩
    have hor := orOfShifts_of_lt (a := n) (b := m) (c := 0) (d := k) (by omega) (by omega)
      (by decide) (by omega)
    rw [Nat.cast_zero] at hor
    rw [heq, heqm, heqk, hor, address, if_pos (by omega), Nat.zero_mul, Nat.add_zero]
  · rename_i a b c d
    cases h
    obtain ⟨n, heq, hle, hn⟩ := componentOf_reads (by decide) h1
    obtain ⟨m, heqm, hlem, hm⟩ := componentOf_reads (by decide) h2
    obtain ⟨k, heqk, hlek, hk⟩ := componentOf_reads (by decide) h3
    obtain ⟨j, heqj, hlej, hj⟩ := componentOf_reads (by decide) h4
    refine ⟨[n, m, k, j], List.Forall₂.cons hn (List.Forall₂.cons hm
      (List.Forall₂.cons hk (List.Forall₂.cons hj List.Forall₂.nil))), ?_⟩
    rw [heq, heqm, heqk, heqj,
      orOfShifts_of_lt (by omega) (by omega) (by omega) (by omega), address, if_pos (by omega)]
  · cases h

/-- A text that is taken gives the address of the numbers that are read in it. -/
theorem taken_reads {order : ByteOrder} {s : List Char} {s_addr r : Nat}
    (h : inet_addr_impl order (cstr s) s_addr = some (0, r)) :
    ∃ ns v, List.Forall₂ Reads (s.splitOn '.') ns ∧ address ns = some v ∧
      inMemory order r = octets v := by
  rw [inet_addr_impl.spec, Option.some.injEq] at h
  cases hparts : partsRead (s.splitOn '.') with
  | none =>
    rw [hparts] at h
    cases h
  | some c =>
    obtain ⟨c1, c2, c3, c4⟩ := c
    rw [hparts] at h
    simp only [] at h
    by_cases hneg : c1 < 0 ∨ c2 < 0 ∨ c3 < 0 ∨ c4 < 0
    · rw [if_pos hneg] at h
      cases h
    · rw [if_neg hneg] at h
      obtain ⟨ns, hns, haddr⟩ := partsRead_reads hparts hneg
      cases h
      exact ⟨ns, _, hns, haddr, inMemory_host_to_net order _⟩

/-! ## The law -/

/-- Two zeros do no harm exactly when the component has one octal digit. -/
theorem spelling_iff {t : List Char} {n : Nat} (h : Reads t n) :
    Spelling t n ↔ (DoubleZero t → OneDigit 8 t) := by
  cases h with
  | plain hzz hn => exact iff_of_true hn (fun h => absurd h hzz)
  | zeros hzz hnum =>
    obtain ⟨u, hu⟩ := hzz
    obtain rfl : t = '0' :: '0' :: u := hu.symm
    have hiff : ∀ {w}, Numeral 8 w → (value 8 w = value 10 w ↔ OneDigit 8 w) :=
      fun hw => value_eq_value_iff (by decide) (by decide) hw
    constructor
    · intro hn _
      generalize hv : value 10 ('0' :: '0' :: u) = v at hn
      cases hn with
      | dec _ hplain => exact absurd (hplain rfl) (by simp)
      | oct hoct =>
        rw [value_zero_cons] at hv
        obtain ⟨k, d, hw, hd⟩ := (hiff hoct).mp hv.symm
        exact ⟨k + 1, d, by rw [hw]; rfl, hd⟩
      | hex hx => rcases hx with hx | hx <;> cases hx
    · intro hone
      obtain ⟨k, d, hw, hd⟩ := hone ⟨u, rfl⟩
      have hoct : OneDigit 8 ('0' :: u) := by
        cases k with
        | zero => cases hw
        | succ k => exact ⟨k, d, (List.cons.inj hw).2, hd⟩
      have hnum8 : Numeral 8 ('0' :: u) := by
        obtain ⟨k, d, hw, hd⟩ := hoct
        refine ⟨List.cons_ne_nil _ _, ?_⟩
        rw [hw]
        intro c hc
        rcases List.mem_append.mp hc with hc | hc
        · rw [List.eq_of_mem_replicate hc]
          decide
        · rw [List.mem_singleton.mp hc]
          exact hd
      rw [value_zero_cons, ← (hiff hnum8).mpr hoct]
      exact Spelling.oct hnum8

/-- A text that is taken gives the address that it stands for exactly when no component
with two zeros at its head has more than one octal digit behind its zeros. -/
theorem a_text_is_read_right_unless_two_zeros_lead {order : ByteOrder} {s : List Char}
    {s_addr r : Nat} (h : inet_addr_impl order (cstr s) s_addr = some (0, r)) :
    (∃ v, StandsFor s v ∧ inMemory order r = octets v) ↔
      ∀ t ∈ s.splitOn '.', DoubleZero t → OneDigit 8 t := by
  obtain ⟨ns, v, hns, haddr, hr⟩ := taken_reads h
  obtain ⟨hlen, hzip⟩ := List.forall₂_iff_zip.mp hns
  constructor
  · rintro ⟨v', hstands, hr'⟩
    obtain ⟨ns', hns', haddr'⟩ := (standsFor_iff s v').mp hstands
    obtain rfl : v = v' := octets_inj (address_lt haddr) (address_lt haddr') (hr.symm.trans hr')
    obtain rfl : ns = ns' := address_inj (hlen.symm.trans hns'.length_eq) haddr haddr'
    intro t ht
    obtain ⟨n, hn⟩ : ∃ n, (t, n) ∈ (s.splitOn '.').zip ns := by
      obtain ⟨i, hi, rfl⟩ := List.mem_iff_getElem.mp ht
      exact ⟨ns[i], List.mem_iff_getElem.mpr ⟨i, by simp; omega, by simp⟩⟩
    exact (spelling_iff (hzip hn)).mp ((List.forall₂_iff_zip.mp hns').2 hn)
  · intro hone
    refine ⟨v, (standsFor_iff s v).mpr ⟨ns, List.forall₂_iff_zip.mpr ⟨hlen, ?_⟩, haddr⟩, hr⟩
    intro t n hn
    exact (spelling_iff (hzip hn)).mpr (hone t (List.of_mem_zip hn).1)

/-- Two zeros before a single octal digit. -/
theorem a_digit_behind_two_zeros_is_read_right :
    inet_addr_impl .little (cstr "1.007".toList) 0 = some (0, 0x07000001) ∧
      ∃ v, StandsFor "1.007".toList v ∧ inMemory .little 0x07000001 = octets v := by
  have htaken : inet_addr_impl .little (cstr "1.007".toList) 0 = some (0, 0x07000001) := by
    decide +kernel
  refine ⟨htaken, (a_text_is_read_right_unless_two_zeros_lead htaken).mpr ?_⟩
  rw [show "1.007".toList.splitOn '.' = [['1'], ['0', '0', '7']] by decide]
  simp only [List.forall_mem_cons, List.not_mem_nil, false_implies, implies_true, and_true]
  exact ⟨fun hzz => absurd hzz (by decide), fun _ => ⟨2, '7', rfl, by decide⟩⟩

/-- 0010 is eight in the notation, and ten for the parser. -/
theorem eight_with_two_zeros_is_read_as_ten :
    inet_addr_impl .little (cstr "1.0010".toList) 0 = some (0, 0x0A000001) ∧
      StandsFor "1.0010".toList 0x01000008 ∧
      ¬ ∃ v, StandsFor "1.0010".toList v ∧ inMemory .little 0x0A000001 = octets v := by
  have hsplit : "1.0010".toList.splitOn '.' = [['1'], ['0', '0', '1', '0']] := by decide
  have hone : Spelling ['1'] 1 := Spelling.dec (by decide) (by decide)
  have height : Spelling ['0', '0', '1', '0'] 8 := Spelling.oct (t := ['0', '1', '0']) (by decide)
  have hstands : StandsFor "1.0010".toList 0x01000008 := by
    rw [standsFor_iff, hsplit]
    exact ⟨[1, 8], by simp [hone, height], by decide⟩
  refine ⟨by decide +kernel, hstands, ?_⟩
  rintro ⟨v, hv, hr⟩
  rw [hv.unique hstands] at hr
  exact absurd hr (by decide)

end rmrf.net.details
