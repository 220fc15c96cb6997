-- The address literals: a text is tried as an IPv4 address first, which hides no IPv6
-- reading of it, as the two notations have no text in common.
import Rmrf.StandardAddress
import Rmrf.Inet6Laws

open fields machine numerals

namespace rmrf.net

open details

/-! ## The literal -/

/-- The value that is returned, and `in.s_addr` after the call. -/
def details.inet_aton_impl (order : ByteOrder) (str : List Char) (s_addr : Nat) :
    Option (Int × Nat) :=
  inet_addr_impl order str s_addr

/-- `inet_aton`: the address, or `INADDR_NONE` for a text that is none. -/
def inet_aton (order : ByteOrder) (str : List Char) : Option Nat := do
  let (_, s_addr) ← inet_aton_impl order str 0xFFFFFFFF
  return s_addr

/-- `struct in6_addr in6 = {}` -/
def in6_zero : List Nat := List.replicate 16 0

/-- `inet_pton<AF_INET6>` -/
def inet_pton_inet6 (order : ByteOrder) (str : List Char) : Option (List Nat) := do
  let (_, s6_addr) ← inet6_aton order str in6_zero
  return s6_addr

def is_valid_ip4addr (order : ByteOrder) (str : List Char) : Option Bool := do
  let (status, _) ← inet_aton_impl order str 0
  return status ≠ -1

def is_valid_ip6addr (order : ByteOrder) (str : List Char) : Option Bool := do
  let (status, _) ← inet6_aton order str in6_zero
  return status ≠ -1

/-- The types that the literal may have. -/
inductive IpAddr
  | in_addr (s_addr : Nat)
  | in6_addr (s6_addr : List Nat)
deriving DecidableEq, Repr

/-- `operator"" _ipaddr`, or nothing where the static assertion fails. -/
def ipaddr (order : ByteOrder) (str : List Char) : Option (Option IpAddr) := do
  let ip4 ← is_valid_ip4addr order str
  let ip6 ← is_valid_ip6addr order str
  if ¬ (ip4 || ip6) then return none
  else if ip4 then return some (.in_addr (← inet_aton order str))
  else return some (.in6_addr (← inet_pton_inet6 order str))

/-! ## The characters of the two notations -/

theorem details.Numeral.no_colon (base : Base) {t : List Char} (h : Numeral base.toNat t) :
    ':' ∉ t := by
  intro hmem
  have hdigit := h.2 ':' hmem
  cases base <;> exact absurd hdigit (by decide)

theorem details.Spelling.no_colon {t : List Char} {n : Nat} (h : Spelling t n) : ':' ∉ t := by
  cases h with
  | dec hnum => exact Numeral.no_colon .dec hnum
  | oct hnum =>
    have hno := Numeral.no_colon .oct hnum
    simp [hno]
  | hex hx hnum =>
    have hno := Numeral.no_colon .hex hnum
    rcases hx with rfl | rfl <;> simp [hno]

theorem details.Reads.no_colon {t : List Char} {n : Nat} (h : Reads t n) : ':' ∉ t := by
  cases h with
  | zeros _ hnum => exact Numeral.no_colon .dec hnum
  | plain _ hspell => exact hspell.no_colon

/-- The IPv4 parser leaves no character unread: all of them are of a component, or dots. -/
theorem details.no_colon_of_taken {order : ByteOrder} {s : List Char} {s_addr r : Nat}
    (h : inet_addr_impl order (cstr s) s_addr = some (0, r)) : ':' ∉ s := by
  obtain ⟨ns, v, hns, _, _⟩ := taken_reads h
  intro hmem
  obtain ⟨t, ht, hcolon⟩ : ∃ t ∈ s.splitOn '.', ':' ∈ t := exists_field_of_mem hmem (by decide)
  obtain ⟨i, hi, rfl⟩ := List.mem_iff_getElem.mp ht
  obtain ⟨hlen, hget⟩ := List.forall₂_iff_get.mp hns
  exact (hget i hi (by omega)).no_colon hcolon

theorem details.colon_mem_of_accepted {order : ByteOrder} {s : List Char} {in6 r6 : List Nat}
    (h : inet6_aton order (cstr s) in6 = some (0, r6)) : ':' ∈ s := by
  rcases (accepted_iff order in6 s).mp ⟨r6, h⟩ with (⟨t, rfl⟩ | ⟨q, t, rfl⟩) | hcolon | ⟨q, t, rfl⟩
  · exact t.colon_mem (Nat.zero_le 2)
  · exact t.colon_mem (Nat.le_refl q.words.length)
  · obtain ⟨t, _, rfl⟩ := (trailingColon_iff s).mp hcolon
    exact t.colon_mem (Nat.zero_le 2)
  · exact t.colon_mem (Nat.le_refl [0xFFFF, 0xFFFF].length)

/-! ## The law -/

/-- No text is taken by both parsers, and the literal has the IPv6 reading of a text
that has one. -/
structure Unambiguous (order : ByteOrder) (s : List Char) : Prop where
  not_both : ∀ s_addr in6 r r6, ¬ (inet_addr_impl order (cstr s) s_addr = some (0, r) ∧
    inet6_aton order (cstr s) in6 = some (0, r6))
  not_both_valid : ¬ (is_valid_ip4addr order (cstr s) = some true ∧
    is_valid_ip6addr order (cstr s) = some true)
  reading : ∀ r6, inet6_aton order (cstr s) in6_zero = some (0, r6) →
    ipaddr order (cstr s) = some (some (.in6_addr r6))

theorem details.inet_addr_impl_cases (order : ByteOrder) (s : List Char) (s_addr : Nat) :
    (∃ r, inet_addr_impl order (cstr s) s_addr = some (0, r)) ∨
      inet_addr_impl order (cstr s) s_addr = some (-1, s_addr) := by
  rw [inet_addr_impl.spec]
  cases partsRead (s.splitOn '.') with
  | none => exact Or.inr rfl
  | some c =>
    obtain ⟨c1, c2, c3, c4⟩ := c
    by_cases hneg : c1 < 0 ∨ c2 < 0 ∨ c3 < 0 ∨ c4 < 0
    · exact Or.inr (by simp [hneg])
    · simp only [if_neg hneg]
      exact Or.inl ⟨_, rfl⟩

theorem details.inet6_aton_cases (order : ByteOrder) (s : List Char) (in6 : List Nat) :
    (∃ r6, inet6_aton order (cstr s) in6 = some (0, r6)) ∨
      inet6_aton order (cstr s) in6 = some (-1, in6) := by
  rw [inet6_aton.spec]
  cases scan none [] 8 s with
  | none => exact Or.inr rfl
  | some comps => exact Or.inl ⟨_, rfl⟩

theorem a_literal_has_one_reading (order : ByteOrder) (s : List Char) : Unambiguous order s := by
  have hboth : ∀ s_addr in6 r r6, ¬ (inet_addr_impl order (cstr s) s_addr = some (0, r) ∧
      inet6_aton order (cstr s) in6 = some (0, r6)) := by
    rintro s_addr in6 r r6 ⟨h4, h6⟩
    exact no_colon_of_taken h4 (colon_mem_of_accepted h6)
  have hip4 : ∀ in6 r6, inet6_aton order (cstr s) in6 = some (0, r6) →
      is_valid_ip4addr order (cstr s) = some false := by
    intro in6 r6 h6
    rcases inet_addr_impl_cases order s 0 with ⟨r, h4⟩ | h4
    · exact absurd ⟨h4, h6⟩ (hboth 0 in6 r r6)
    · simp [is_valid_ip4addr, inet_aton_impl, h4]
  refine ⟨hboth, ?_, ?_⟩
  · rintro ⟨hvalid4, hvalid6⟩
    rcases inet6_aton_cases order s in6_zero with ⟨r6, h6⟩ | h6
    · rw [hip4 _ r6 h6] at hvalid4
      cases hvalid4
    · simp [is_valid_ip6addr, h6] at hvalid6
  · intro r6 h6
    have h4 := hip4 _ r6 h6
    have hvalid6 : is_valid_ip6addr order (cstr s) = some true := by
      simp [is_valid_ip6addr, h6]
    simp [ipaddr, h4, hvalid6, inet_pton_inet6, h6]

end rmrf.net
