-- The readings of an IPv4 text. Two parsers take such texts: they agree on every canonical
-- quad, and elsewhere only by chance. The functions over them give an address without a
-- status, so one address of each stands for a refusal as well.
import Rmrf.Literals

open fields machine numerals

namespace rmrf.net

open details

/-! ## The functions -/

/-- The value that is returned, and `in.s_addr` after the call. -/
def details.inet_aton_canonical (order : ByteOrder) (str : List Char) (s_addr : Nat) :
    Option (Int × Nat) :=
  inet_addr_canonical order str s_addr

/-- `inet_addr`, which begins with `in_addr_t addr = -1`. -/
def inet_addr (order : ByteOrder) (str : List Char) : Option Nat := do
  let (_, addr) ← inet_addr_impl order str 0xFFFFFFFF
  return addr

/-- `inet_pton<AF_INET>` -/
def inet_pton_inet (order : ByteOrder) (str : List Char) : Option Nat := do
  let (_, s_addr) ← inet_aton_canonical order str 0
  return s_addr

/-- `operator"" _ip4`, or nothing where the static assertion fails. -/
def ip4 (order : ByteOrder) (str : List Char) : Option (Option Nat) := do
  if ¬ (← is_valid_ip4addr order str) then return none
  else return some (← inet_aton order str)

/-! ## What is read in a quad -/

namespace details

/-- The address of a canonical quad. -/
def Quad.word (q : Quad) : Nat :=
  value 10 q.a * 2 ^ 24 + value 10 q.b * 2 ^ 16 + value 10 q.c * 2 ^ 8 + value 10 q.d

/-- The bytes of the address, in their order in the text. -/
def Quad.bytes (q : Quad) : List Nat :=
  [value 10 q.a, value 10 q.b, value 10 q.c, value 10 q.d]

theorem Quad.octets_word (q : Quad) : machine.octets q.word = q.bytes := by
  obtain ⟨ha, hb, hc, hd⟩ := q.octets
  exact octets_of_lt ha.value_lt hb.value_lt hc.value_lt hd.value_lt

theorem Quad.word_lt (q : Quad) : q.word < 2 ^ 32 := by
  obtain ⟨ha, hb, hc, hd⟩ := q.octets
  have ha := ha.value_lt
  have hb := hb.value_lt
  have hc := hc.value_lt
  have hd := hd.value_lt
  unfold Quad.word
  omega

theorem Quad.splitOn_text (q : Quad) : q.text.splitOn '.' = [q.a, q.b, q.c, q.d] := by
  obtain ⟨ha, hb, hc, hd⟩ := q.octets
  exact splitOn_dotted ha.no_dot hb.no_dot hc.no_dot hd.no_dot

theorem Octet.spelling {t : List Char} (h : Octet t) : Spelling t (numerals.value 10 t) :=
  Spelling.dec h.numeral h.plain

theorem Octet.not_doubleZero {t : List Char} (h : Octet t) : ¬ DoubleZero t := by
  rintro ⟨u, rfl⟩
  cases h.plain rfl

/-- What is read in a component is what the parser gives, when it is within the bound. -/
theorem Reads.componentOf {t : List Char} {n : Nat} (h : Reads t n) (hn : n ≤ 255) :
    componentOf 255 t = (n : Int) := by
  have hcut : cut 255 n = (n : Int) := by
    rw [cut, if_pos hn, toInt_natCast (by omega)]
  cases h with
  | plain hzz hspell => rw [componentOf_spelling hspell, readAs, if_neg hzz, hcut]
  | zeros hzz hnum =>
    obtain ⟨u, rfl⟩ := hzz
    rw [← hcut]
    exact numeralIn_of_numeral .dec hnum 255

theorem quad_canonical (order : ByteOrder) (q : Quad) (s_addr : Nat) :
    inet_addr_canonical order (cstr q.text) s_addr = some (0, host_to_net order q.word) := by
  obtain ⟨ha, hb, hc, hd⟩ := q.octets
  have hword := quadWord_dotted ha.no_dot hb.no_dot hc.no_dot hd.no_dot
  rw [if_pos ⟨ha, hb, hc⟩, if_pos hd,
    orOfShifts_of_lt ha.value_lt hb.value_lt hc.value_lt hd.value_lt] at hword
  rw [inet_addr_canonical.spec, Quad.text, readQuad_some hword]
  rfl

/-- A text of four parts is taken with the numbers that are read in them. -/
theorem quad_taken_of_reads (order : ByteOrder) {s a b c d : List Char} {n1 n2 n3 n4 : Nat}
    (hs : s.splitOn '.' = [a, b, c, d]) (ha : Reads a n1) (hb : Reads b n2) (hc : Reads c n3)
    (hd : Reads d n4) (h1 : n1 < 256) (h2 : n2 < 256) (h3 : n3 < 256) (h4 : n4 < 256)
    (s_addr : Nat) :
    inet_addr_impl order (cstr s) s_addr =
      some (0, host_to_net order (n1 * 2 ^ 24 + n2 * 2 ^ 16 + n3 * 2 ^ 8 + n4)) := by
  rw [inet_addr_impl.spec, hs, partsRead, ha.componentOf (by omega), hb.componentOf (by omega),
    hc.componentOf (by omega), hd.componentOf (by omega)]
  simp only []
  rw [if_neg (by omega), orOfShifts_of_lt h1 h2 h3 h4]

theorem Octet.self {t : List Char} (h : Octet t) : Reads t (numerals.value 10 t) :=
  .plain h.not_doubleZero h.spelling

theorem quad_taken (order : ByteOrder) (q : Quad) (s_addr : Nat) :
    inet_addr_impl order (cstr q.text) s_addr = some (0, host_to_net order q.word) := by
  obtain ⟨ha, hb, hc, hd⟩ := q.octets
  exact quad_taken_of_reads order q.splitOn_text ha.self hb.self hc.self hd.self ha.value_lt
    hb.value_lt hc.value_lt hd.value_lt s_addr

/-! ## Two parsers -/

/-- A text that is taken has parts that are read, and their word is its address. -/
theorem taken_parts {order : ByteOrder} {s : List Char} {s_addr r : Nat}
    (h : inet_addr_impl order (cstr s) s_addr = some (0, r)) :
    ∃ c1 c2 c3 c4, partsRead (s.splitOn '.') = some (c1, c2, c3, c4) ∧ 0 ≤ c1 ∧ 0 ≤ c2 ∧
      0 ≤ c3 ∧ 0 ≤ c4 ∧ r = host_to_net order (orOfShifts c1 c2 c3 c4) := by
  rw [inet_addr_impl.spec, Option.some.injEq] at h
  cases hparts : partsRead (s.splitOn '.') with
  | none =>
    rw [hparts] at h
    cases h
  | some p =>
    obtain ⟨c1, c2, c3, c4⟩ := p
    rw [hparts] at h
    simp only [] at h
    split_ifs at h with hneg
    · cases h
    · cases h
      exact ⟨c1, c2, c3, c4, rfl, by omega, by omega, by omega, by omega, rfl⟩

/-- What `s_addr` was before does not matter for a text that is taken. -/
theorem taken_any {order : ByteOrder} {s : List Char} {s_addr r : Nat}
    (h : inet_addr_impl order (cstr s) s_addr = some (0, r)) (s_addr' : Nat) :
    inet_addr_impl order (cstr s) s_addr' = some (0, r) := by
  obtain ⟨c1, c2, c3, c4, hparts, h1, h2, h3, h4, rfl⟩ := taken_parts h
  rw [inet_addr_impl.spec, hparts]
  simp only []
  rw [if_neg (by omega)]

theorem host_to_net_inj (order : ByteOrder) {x y : Nat} (hx : x < 2 ^ 32) (hy : y < 2 ^ 32)
    (h : host_to_net order x = host_to_net order y) : x = y := by
  have hback := congrArg (net_to_host order) h
  rwa [net_to_host_host_to_net order hx, net_to_host_host_to_net order hy] at hback

theorem host_to_net_ones (order : ByteOrder) : host_to_net order 0xFFFFFFFF = 0xFFFFFFFF := by
  cases order <;> rfl

theorem host_to_net_zero (order : ByteOrder) : host_to_net order 0 = 0 := by
  cases order <;> rfl

/-- What the canonical parser takes are four parts, of which it has read three. -/
theorem canonical_word {order : ByteOrder} {s : List Char} {s_addr r : Nat}
    (h : inet_addr_canonical order (cstr s) s_addr = some (0, r)) :
    ∃ a b c d, s = dotted a b c d ∧ Octet a ∧ Octet b ∧ Octet c ∧ '.' ∉ d ∧
      r = host_to_net order (orOfShifts (value 10 a) (value 10 b) (value 10 c)
        (if Octet d then (value 10 d : Int) else -1)) := by
  rw [inet_addr_canonical.spec, Option.some.injEq] at h
  rcases dotted_or_other s with ⟨a, b, c, d, rfl, ha, hb, hc, hd⟩ | hne
  · have hword := quadWord_dotted ha hb hc hd
    by_cases hquad : Octet a ∧ Octet b ∧ Octet c
    · rw [if_pos hquad] at hword
      rw [readQuad_some hword] at h
      cases h
      exact ⟨a, b, c, d, rfl, hquad.1, hquad.2.1, hquad.2.2, hd, rfl⟩
    · rw [if_neg hquad] at hword
      rw [readQuad_none hword] at h
      cases h
  · rw [readQuad_none (quadWord_other hne)] at h
    cases h

theorem endsAmiss_iff {a b c d : List Char} (ha : Octet a) (hb : Octet b) (hc : Octet c)
    (hd : '.' ∉ d) : EndsAmiss (dotted a b c d) ↔ ¬ Octet d := by
  constructor
  · rintro ⟨a', b', c', d', heq, ha', hb', hc', hd', hbad⟩
    obtain ⟨_, _, _, rfl⟩ := dotted_inj heq ha.no_dot hb.no_dot hc.no_dot hd ha'.no_dot
      hb'.no_dot hc'.no_dot hd'
    exact hbad
  · intro hbad
    exact ⟨a, b, c, d, rfl, ha, hb, hc, hd, hbad⟩

/-- Four components, in any base, that are all 255. -/
def AllOnes (s : List Char) : Prop :=
  ∃ a b c d, s.splitOn '.' = [a, b, c, d] ∧ Reads a 255 ∧ Reads b 255 ∧ Reads c 255 ∧ Reads d 255

theorem toInt_lt (x : Int) : toInt x < 2 ^ 31 := by
  unfold toInt
  rw [Int.bmod_def]
  omega

/-- A component goes through an `int`. -/
theorem componentOf_lt (max_value : Nat) (t : List Char) : componentOf max_value t < 2 ^ 31 := by
  unfold componentOf numeralIn
  split_ifs <;> exact toInt_lt _

/-- With all bits of the word set, each byte is 255. -/
theorem bytes_of_ones {order : ByteOrder} {a b c d : Nat} (ha : a ≤ 255) (hb : b ≤ 255)
    (hc : c ≤ 255) (hd : d ≤ 255) (h : host_to_net order (orOfShifts a b c d) = 0xFFFFFFFF) :
    a = 255 ∧ b = 255 ∧ c = 255 ∧ d = 255 := by
  rw [orOfShifts_of_lt (by omega) (by omega) (by omega) (by omega), ← host_to_net_ones order] at h
  have hword := host_to_net_inj order (by omega) (by decide) h
  omega

/-- No part alone is large enough for an address with all bits set, so it has four parts. -/
theorem allOnes_iff (order : ByteOrder) (s : List Char) (s_addr : Nat) :
    inet_addr_impl order (cstr s) s_addr = some (0, 0xFFFFFFFF) ↔ AllOnes s := by
  constructor
  · intro h
    obtain ⟨c1, c2, c3, c4, hparts, h1, h2, h3, h4, hword⟩ := taken_parts h
    have hword := hword.symm
    unfold partsRead at hparts
    split at hparts
    · rename_i a _
      cases hparts
      obtain ⟨n, heq, hle, _⟩ := componentOf_reads (by decide) h4
      have hlt := componentOf_lt 0xFFFFFFFF a
      rw [heq, orOfShifts_last (by omega), ← host_to_net_ones order] at hword
      have hones := host_to_net_inj order (by omega) (by decide) hword
      omega
    · cases hparts
      obtain ⟨n, heq, hle, _⟩ := componentOf_reads (by decide) h1
      obtain ⟨m, heqm, hlem, _⟩ := componentOf_reads (by decide) h4
      rw [heq, heqm] at hword
      have hbytes := bytes_of_ones hle (Nat.zero_le 255) (Nat.zero_le 255) hlem hword
      omega
    · cases hparts
      obtain ⟨n, heq, hle, _⟩ := componentOf_reads (by decide) h1
      obtain ⟨m, heqm, hlem, _⟩ := componentOf_reads (by decide) h2
      obtain ⟨k, heqk, hlek, _⟩ := componentOf_reads (by decide) h4
      rw [heq, heqm, heqk] at hword
      have hbytes := bytes_of_ones hle hlem (Nat.zero_le 255) hlek hword
      omega
    · rename_i a b c d hs
      cases hparts
      obtain ⟨n, heq, hle, hn⟩ := componentOf_reads (by decide) h1
      obtain ⟨m, heqm, hlem, hm⟩ := componentOf_reads (by decide) h2
      obtain ⟨k, heqk, hlek, hk⟩ := componentOf_reads (by decide) h3
      obtain ⟨j, heqj, hlej, hj⟩ := componentOf_reads (by decide) h4
      rw [heq, heqm, heqk, heqj] at hword
      obtain ⟨rfl, rfl, rfl, rfl⟩ := bytes_of_ones hle hlem hlek hlej hword
      exact ⟨a, b, c, d, hs, hn, hm, hk, hj⟩
    · cases hparts
  · rintro ⟨a, b, c, d, hs, ha, hb, hc, hd⟩
    rw [quad_taken_of_reads order hs ha hb hc hd (by decide) (by decide) (by decide) (by decide)]
    exact congrArg (fun r => some (0, r)) (host_to_net_ones order)

/-- What the canonical parser takes, the other one takes for the same address exactly when
the text is a canonical quad, or when it is 255 four times. -/
theorem a_canonical_text_is_read_alike_unless_it_ends_amiss {order : ByteOrder} {s : List Char}
    {s_addr r : Nat} (h : inet_addr_canonical order (cstr s) s_addr = some (0, r)) :
    inet_addr_impl order (cstr s) s_addr = some (0, r) ↔ ¬ EndsAmiss s ∨ AllOnes s := by
  obtain ⟨a, b, c, d, rfl, ha, hb, hc, hd, rfl⟩ := canonical_word h
  rw [endsAmiss_iff ha hb hc hd, not_not]
  by_cases hod : Octet d
  · refine iff_of_true ?_ (Or.inl hod)
    have htaken := quad_taken order ⟨a, b, c, d, ha, hb, hc, hod⟩ s_addr
    rw [if_pos hod, orOfShifts_of_lt ha.value_lt hb.value_lt hc.value_lt hod.value_lt]
    exact htaken
  · rw [if_neg hod, orOfShifts_neg_one, host_to_net_ones, allOnes_iff]
    exact (or_iff_right hod).symm

/-- A quad of one digit each. -/
theorem a_quad_of_digits_is_read_alike :
    inet_addr_impl .little (cstr (dotted ['1'] ['2'] ['3'] ['4'])) 0 = some (0, 0x04030201) := by
  have hocts : Octet ['1'] ∧ Octet ['2'] ∧ Octet ['3'] ∧ Octet ['4'] := by decide +kernel
  obtain ⟨h1, h2, h3, h4⟩ := hocts
  have hword : host_to_net .little (Quad.word ⟨_, _, _, _, h1, h2, h3, h4⟩) = 0x04030201 := by
    show host_to_net .little (value 10 ['1'] * 2 ^ 24 + value 10 ['2'] * 2 ^ 16 +
      value 10 ['3'] * 2 ^ 8 + value 10 ['4']) = _
    decide
  have htaken := quad_canonical .little ⟨_, _, _, _, h1, h2, h3, h4⟩ 0
  rw [hword] at htaken
  refine (a_canonical_text_is_read_alike_unless_it_ends_amiss htaken).mpr (Or.inl ?_)
  exact fun hamiss => (endsAmiss_iff h1 h2 h3 h4.no_dot).mp hamiss h4

end details

/-! ## The texts that compile -/

/-- A text compiles as an IPv4 literal when the parser takes it. -/
theorem valid_iff (order : ByteOrder) (s : List Char) :
    (is_valid_ip4addr order (cstr s) = some true ↔
      ∃ r, inet_addr_impl order (cstr s) 0 = some (0, r)) ∧
    ((∃ addr, ip4 order (cstr s) = some (some addr)) ↔
      ∃ r, inet_addr_impl order (cstr s) 0 = some (0, r)) := by
  rcases inet_addr_impl_cases order s 0 with ⟨r, htaken⟩ | hrefused
  · have haton := taken_any htaken 0xFFFFFFFF
    simp [ip4, is_valid_ip4addr, inet_aton, inet_aton_impl, htaken, haton]
  · simp [ip4, is_valid_ip4addr, inet_aton_impl, hrefused]

/-- A text without a colon compiles as an address when it does as an IPv4 address. -/
theorem ipaddr_iff_of_no_colon (order : ByteOrder) {s : List Char} (h : ':' ∉ s) :
    (∃ addr, ipaddr order (cstr s) = some (some addr)) ↔
      ∃ r, inet_addr_impl order (cstr s) 0 = some (0, r) := by
  have hinvalid : is_valid_ip6addr order (cstr s) = some false := by
    rcases inet6_aton_cases order s in6_zero with ⟨r6, h6⟩ | h6
    · exact absurd (colon_mem_of_accepted h6) h
    · simp [is_valid_ip6addr, h6]
  rcases inet_addr_impl_cases order s 0 with ⟨r, htaken⟩ | hrefused
  · have haton := taken_any htaken 0xFFFFFFFF
    simp [ipaddr, is_valid_ip4addr, inet_aton, inet_aton_impl, htaken, haton, hinvalid]
  · simp [ipaddr, is_valid_ip4addr, inet_aton_impl, hrefused, hinvalid]

theorem details.no_colon_text {cs : List (List Char × Nat)} (hne : cs ≠ [])
    (h : ∀ p ∈ cs, Spelling p.1 p.2) : ':' ∉ text cs := by
  intro hmem
  obtain ⟨t, ht, hcolon⟩ := exists_field_of_mem hmem (by decide : ':' ≠ '.')
  rw [splitOn_text hne h] at ht
  obtain ⟨p, hp, rfl⟩ := List.mem_map.mp ht
  exact (h p hp).no_colon hcolon

/-- A text of the notation is valid, and compiles as either literal, exactly when the parser
reads each of its numbers within the bounds. -/
theorem a_text_compiles_as_far_as_the_parser_reads_it {cs : List (List Char × Nat)}
    (hne : cs ≠ []) (hlen : cs.length ≤ 4) (h : ∀ p ∈ cs, Spelling p.1 p.2)
    (hbound : ∀ p ∈ cs, p.2 ≤ documentedBound cs) (order : ByteOrder) :
    let Read := (cs.length = 1 → ∀ p ∈ cs, ¬ DoubleZero p.1 → p.2 ≤ 0x7FFFFFFF) ∧
      ∀ p ∈ cs, DoubleZero p.1 → value 10 p.1 ≤ bound cs
    (is_valid_ip4addr order (cstr (text cs)) = some true ↔ Read) ∧
      ((∃ addr, ip4 order (cstr (text cs)) = some (some addr)) ↔ Read) ∧
      ((∃ addr, ipaddr order (cstr (text cs)) = some (some addr)) ↔ Read) := by
  obtain ⟨hvalid, hip4⟩ := valid_iff order (text cs)
  have hipaddr := ipaddr_iff_of_no_colon order (no_colon_text hne h)
  rw [taken_iff_got_le hne hlen h, got_le_iff hbound] at hvalid hip4 hipaddr
  exact ⟨hvalid, hip4, hipaddr⟩

/-! ## Addresses without a status -/

/-- The only canonical quad with the address 0. -/
theorem details.word_eq_zero_iff (order : ByteOrder) {s : List Char} (s_addr : Nat) :
    inet_addr_canonical order (cstr s) s_addr = some (0, 0) ↔ s = "0.0.0.0".toList := by
  have hzero : ∀ {t}, Octet t → value 10 t = 0 → t = ['0'] := by
    intro t ht hv
    have hall := zero_of_value_eq_zero (by decide) ht.numeral.2 hv
    apply ht.plain
    obtain ⟨c, u, rfl⟩ := List.exists_cons_of_ne_nil ht.numeral.1
    exact congrArg List.head? hall
  constructor
  · intro h
    obtain ⟨a, b, c, d, rfl, ha, hb, hc, hd, hword⟩ := canonical_word h
    by_cases hod : Octet d
    · rw [if_pos hod, ← host_to_net_zero order,
        orOfShifts_of_lt ha.value_lt hb.value_lt hc.value_lt hod.value_lt] at hword
      have hsum := host_to_net_inj order (by decide)
        (Quad.word_lt ⟨a, b, c, d, ha, hb, hc, hod⟩) hword
      simp only [Quad.word] at hsum
      rw [hzero ha (by omega), hzero hb (by omega), hzero hc (by omega), hzero hod (by omega)]
      decide
    · rw [if_neg hod, orOfShifts_neg_one, host_to_net_ones] at hword
      cases hword
  · rintro rfl
    have hoctet : Octet ['0'] := by decide +kernel
    have htaken := quad_canonical order ⟨_, _, _, _, hoctet, hoctet, hoctet, hoctet⟩ s_addr
    have hword : Quad.word ⟨_, _, _, _, hoctet, hoctet, hoctet, hoctet⟩ = 0 := by
      show value 10 ['0'] * 2 ^ 24 + value 10 ['0'] * 2 ^ 16 + value 10 ['0'] * 2 ^ 8 +
        value 10 ['0'] = 0
      decide
    rw [hword, host_to_net_zero] at htaken
    exact htaken

/-- `inet_addr` and `inet_aton` have one result for a text that is refused and for 255 four
times, and for no other text. `inet_pton` has one for a text that the canonical parser
refuses and for 0.0.0.0, and for no other text. -/
theorem one_address_of_each_function_stands_for_a_refusal (order : ByteOrder) (s : List Char) :
    (inet_addr order (cstr s) = some 0xFFFFFFFF ↔
      is_valid_ip4addr order (cstr s) = some false ∨ AllOnes s) ∧
    (inet_aton order (cstr s) = some 0xFFFFFFFF ↔
      is_valid_ip4addr order (cstr s) = some false ∨ AllOnes s) ∧
    (inet_pton_inet order (cstr s) = some 0 ↔
      inet_aton_canonical order (cstr s) 0 = some (-1, 0) ∨ s = "0.0.0.0".toList) := by
  have hones : inet_addr order (cstr s) = some 0xFFFFFFFF ↔
      is_valid_ip4addr order (cstr s) = some false ∨ AllOnes s := by
    rw [← allOnes_iff order s 0xFFFFFFFF]
    rcases inet_addr_impl_cases order s 0xFFFFFFFF with ⟨r, htaken⟩ | hrefused
    · have hvalid := taken_any htaken 0
      simp [inet_addr, is_valid_ip4addr, inet_aton_impl, htaken, hvalid]
    · rcases inet_addr_impl_cases order s 0 with ⟨r, htaken⟩ | hinvalid
      · rw [taken_any htaken 0xFFFFFFFF] at hrefused
        cases hrefused
      · simp [inet_addr, is_valid_ip4addr, inet_aton_impl, hrefused, hinvalid]
  refine ⟨hones, hones, ?_⟩
  rw [← word_eq_zero_iff order 0]
  unfold inet_pton_inet inet_aton_canonical
  rw [inet_addr_canonical.spec]
  cases hword : quadWord s with
  | none => simp [readQuad_none hword]
  | some word => simp [readQuad_some hword]

end rmrf.net
