-- The laws of the IPv6 parser: a hexadecimal text is decoded, an embedded IPv4 address is
-- decoded when the gap has room, and which texts outside the notation are accepted.
import Rmrf.Inet6Scan

open machine numerals

namespace rmrf.net.details

/-! ## The decoded bytes -/

theorem inet6_array_to_saddr_eq (comps : List Nat) :
    inet6_array_to_saddr comps = comps.flatMap groupBytes := by
  have hand : ∀ x : Nat, x &&& 0xff = x % 256 := fun x => Nat.and_two_pow_sub_one_eq_mod x 8
  simp only [inet6_array_to_saddr, hand, Nat.shiftRight_eq_div_pow, Nat.reducePow]
  rfl

/-- The bytes tell the groups. -/
theorem flatMap_groupBytes_inj {a b : List Nat} (h : a.flatMap groupBytes = b.flatMap groupBytes) :
    a = b := by
  induction a generalizing b with
  | nil =>
    cases b with
    | nil => rfl
    | cons y b => simp [groupBytes] at h
  | cons x a ih =>
    cases b with
    | nil => simp [groupBytes] at h
    | cons y b =>
      simp only [List.flatMap_cons, groupBytes, List.cons_append, List.nil_append,
        List.cons.injEq] at h
      obtain ⟨hhigh, hlow, hrest⟩ := h
      have hxy : x = y := by omega
      rw [hxy, ih hrest]

section Decoded

variable {tail : Tail} (order : ByteOrder) (in6 : List Nat)

theorem inet6_aton_text (ht : tail.Seen) (t : Ip6Text tail) :
    inet6_aton order (cstr t.text) in6 = some (0, t.parsed.flatMap groupBytes) := by
  rw [inet6_aton.spec, scan_text ht t, ← inet6_array_to_saddr_eq]

/-- The parser makes the address of a text exactly when its array has the groups. -/
theorem inet6_aton_text_iff (ht : tail.Seen) (t : Ip6Text tail) :
    inet6_aton order (cstr t.text) in6 = some (0, t.bytes) ↔ t.parsed = t.words := by
  rw [inet6_aton_text order in6 ht t]
  constructor
  · intro h
    exact flatMap_groupBytes_inj (Prod.mk.inj (Option.some.inj h)).2
  · intro h
    rw [h]
    rfl

end Decoded

/-- Every hexadecimal text is decoded. -/
theorem a_hexadecimal_text_is_decoded (order : ByteOrder) (in6 : List Nat) (t : Ip6Text .none) :
    inet6_aton order (cstr t.text) in6 = some (0, t.bytes) := by
  rw [inet6_aton_text_iff order in6 seen_none]
  cases t with
  | full gs fits => rfl
  | short ls rs fits => exact parsed_short fits (Or.inr rfl)

/-! ## Embedded addresses -/

/-- A gap of two groups or more, or nothing but zeros behind it. -/
def Ip6Text.Roomy {q : Quad} : Ip6Text (.quad q) → Prop
  | full _ _ => True
  | short ls rs _ => ls.length + rs.length ≤ 4 ∨ ∀ x ∈ values rs ++ q.words, x = 0

theorem parsed_eq_words_iff {q : Quad} (t : Ip6Text (.quad q)) : t.parsed = t.words ↔ t.Roomy := by
  cases t with
  | full gs fits => exact iff_of_true rfl trivial
  | short ls rs fits =>
    have htwo : (Tail.quad q).words.length = 2 := rfl
    by_cases hroom : ls.length + rs.length ≤ 4
    · exact iff_of_true (parsed_short fits (Or.inl (by omega))) (Or.inl hroom)
    · have hrest : 8 - ls.length = 1 + (values rs ++ q.words).length := by
        simp [values, Quad.words]
        omega
      have hone : 8 - (ls.length + rs.length + (Tail.quad q).words.length) = 1 := by omega
      rw [parsed_tight fits (by omega) (List.cons_ne_nil _ _), Ip6Text.words, Ip6Text.Roomy, hone,
        or_iff_right hroom, hrest, List.replicate_add, List.append_assoc,
        List.append_cancel_left_eq, List.append_cancel_left_eq, eq_comm]
      constructor
      · intro h x hx
        have hzeros : x ∈ List.replicate (values rs ++ q.words).length 0 := by
          rw [← h]
          exact hx
        exact List.eq_of_mem_replicate hzeros
      · intro h
        exact List.eq_replicate_of_mem h

/-- A text with an embedded address is accepted, and it is decoded exactly when there is
room in the gap or nothing to lose behind it. -/
theorem an_embedded_quad_is_decoded_when_there_is_room (order : ByteOrder) (in6 : List Nat)
    {q : Quad} (t : Ip6Text (.quad q)) :
    (∃ r, inet6_aton order (cstr t.text) in6 = some (0, r)) ∧
      (inet6_aton order (cstr t.text) in6 = some (0, t.bytes) ↔ t.Roomy) :=
  ⟨⟨_, inet6_aton_text order in6 (seen_quad q) t⟩,
    (inet6_aton_text_iff order in6 (seen_quad q) t).trans (parsed_eq_words_iff t)⟩

/-- The gap of one group in `1:2::3:4:5:1.2.3.4` takes everything behind it. -/
theorem a_gap_of_one_group_loses_the_quad :
    ∃ q, ∃ t : Ip6Text (.quad q), t.text = "1:2::3:4:5:1.2.3.4".toList ∧
      t.bytes = [0, 1, 0, 2, 0, 0, 0, 3, 0, 4, 0, 5, 1, 2, 3, 4] ∧
      inet6_aton .little (cstr t.text) (List.replicate 16 0) =
        some (0, [0, 1, 0, 2, 0, 0, 0, 0, 0, 0, 0, 0, 0, 0, 0, 0]) := by
  refine ⟨⟨['1'], ['2'], ['3'], ['4'], by decide +kernel⟩,
    .short [⟨['1'], by decide⟩, ⟨['2'], by decide⟩]
      [⟨['3'], by decide⟩, ⟨['4'], by decide⟩, ⟨['5'], by decide⟩] (by decide), ?_⟩
  decide +kernel

/-! ## Accepted texts -/

/-- The texts of the notation: hexadecimal, or with an embedded IPv4 address. -/
def Documented (s : List Char) : Prop :=
  (∃ t : Ip6Text .none, s = t.text) ∨ ∃ q, ∃ t : Ip6Text (.quad q), s = t.text

/-- A hexadecimal text with a separator behind its last group. -/
def TrailingColon (s : List Char) : Prop :=
  ∃ t : Ip6Text .none, t.EndsInGroup ∧ s = t.text ++ [':']

/-- A text with three canonical components and something else for the fourth. -/
def LooselyEnded (s : List Char) : Prop := ∃ q, ∃ t : Ip6Text (.loose q), s = t.text

theorem trailingColon_iff (s : List Char) :
    TrailingColon s ↔ ∃ t : Ip6Text .colon, t.EndsInGroup ∧ s = t.text := by
  constructor
  · rintro ⟨t, hend, rfl⟩
    cases t with
    | full gs fits => exact ⟨.full gs fits, hend, (spell_colon hend).symm⟩
    | short ls rs fits =>
      refine ⟨.short ls rs fits, hend, ?_⟩
      simp [Ip6Text.text, spell_colon hend]
  · rintro ⟨t, hend, rfl⟩
    cases t with
    | full gs fits => exact ⟨.full gs fits, hend, spell_colon hend⟩
    | short ls rs fits =>
      refine ⟨.short ls rs fits, hend, ?_⟩
      simp [Ip6Text.text, spell_colon hend]

/-- A text is a part before its first dot, and its tail. -/
theorem Ip6Text.exists_text {tail : Tail} (t : Ip6Text tail) :
    ∃ pre, t.text = pre ++ tail.text ∧ '.' ∉ pre := by
  cases t with
  | full gs fits => exact exists_spell gs tail
  | short ls rs fits =>
    obtain ⟨pre, hpre, hdot⟩ := exists_spell rs tail
    obtain ⟨pre', hpre', hdot'⟩ := exists_spell ls .none
    refine ⟨spell ls .none ++ ':' :: ':' :: pre, by simp [Ip6Text.text, hpre], ?_⟩
    rw [hpre']
    simp [hdot, hdot', Tail.text, Tail.none]

theorem append_dotted (pre a b c d : List Char) :
    pre ++ dotted a b c d = dotted (pre ++ a) b c d := by simp [dotted]

/-- The last part of a quad does not stand in a loose one. -/
theorem not_documented_of_looselyEnded {s : List Char} (h : LooselyEnded s) : ¬ Documented s := by
  obtain ⟨q, t, rfl⟩ := h
  obtain ⟨pre, htext, hpre⟩ := t.exists_text
  obtain ⟨ha, hb, hc⟩ := q.octets
  obtain ⟨hd, hbad⟩ := q.amiss
  rw [htext]
  rintro (⟨t', heq⟩ | ⟨q', t', heq⟩)
  · obtain ⟨pre', htext', hpre'⟩ := t'.exists_text
    have hdot : '.' ∈ pre ++ (Tail.loose q).text := by
      simp [Tail.text, Tail.loose, LooseQuad.text, dotted]
    rw [heq, htext'] at hdot
    exact hpre' (by simpa [Tail.text, Tail.none] using hdot)
  · obtain ⟨pre', htext', hpre'⟩ := t'.exists_text
    obtain ⟨ha', hb', hc', hd'⟩ := q'.octets
    have hdotted : dotted (pre ++ q.a) q.b q.c q.d = dotted (pre' ++ q'.a) q'.b q'.c q'.d := by
      rw [← append_dotted, ← append_dotted]
      exact heq.trans htext'
    have hlast := (dotted_inj hdotted (by simp [hpre, ha.no_dot]) hb.no_dot hc.no_dot hd
      (by simp [hpre', ha'.no_dot]) hb'.no_dot hc'.no_dot hd'.no_dot).2.2.2
    rw [hlast] at hbad
    exact hbad hd'

/-- A separator is not the last character of a text that ends in a group. -/
theorem getLast?_text {t : Ip6Text .none} (h : t.EndsInGroup) : t.text.getLast? ≠ some ':' := by
  cases t with
  | full gs fits => exact getLast?_spell h
  | short ls rs fits =>
    have hne : spell rs .none ≠ [] := fun hnil => h (spell_eq_nil .none hnil).1
    have htext : (Ip6Text.short ls rs fits).text =
        (spell ls .none ++ [':', ':']) ++ spell rs .none := by simp [Ip6Text.text]
    rw [htext, List.getLast?_append_of_ne_nil _ hne]
    exact getLast?_spell h

/-- Nor of a text that ends in a quad. -/
theorem getLast?_text_quad {q : Quad} (t : Ip6Text (.quad q)) : t.text.getLast? ≠ some ':' := by
  obtain ⟨pre, htext, _⟩ := t.exists_text
  have hd := q.octets.2.2.2
  have hlast : t.text = (pre ++ q.a ++ '.' :: q.b ++ '.' :: q.c ++ ['.']) ++ q.d := by
    rw [htext]
    simp [Tail.text, Tail.quad, Quad.text, dotted]
  rw [hlast, List.getLast?_append_of_ne_nil _ hd.numeral.1]
  exact getLast?_ne_of_not_mem hd.no_colon

/-- A text of the notation with a separator at its end has two of them. -/
theorem not_documented_of_trailingColon {s : List Char} (h : TrailingColon s) :
    ¬ Documented s := by
  obtain ⟨t, hend, rfl⟩ := h
  have hlast : (t.text ++ [':']).getLast? = some ':' := List.getLast?_concat
  rintro (⟨t', heq⟩ | ⟨q, t', heq⟩)
  · have hopen : ¬ t'.EndsInGroup := by
      intro hend'
      rw [heq] at hlast
      exact getLast?_text hend' hlast
    cases t' with
    | full gs fits =>
      obtain rfl : gs = [] := not_not.mp hopen
      cases fits
    | short ls rs fits =>
      obtain rfl : rs = [] := not_not.mp hopen
      have htext : t.text = spell ls .none ++ [':'] := by
        refine List.append_cancel_right (heq.trans ?_)
        simp [Ip6Text.text, spell_nil, Tail.text, Tail.none]
      apply getLast?_text hend
      rw [htext, List.getLast?_concat]
  · rw [heq] at hlast
    exact getLast?_text_quad t' hlast

theorem accepted_iff (order : ByteOrder) (in6 : List Nat) (s : List Char) :
    (∃ r, inet6_aton order (cstr s) in6 = some (0, r)) ↔
      Documented s ∨ TrailingColon s ∨ LooselyEnded s := by
  have hscan : (∃ r, inet6_aton order (cstr s) in6 = some (0, r)) ↔
      ∃ comps, scan none [] 8 s = some comps := by
    rw [inet6_aton.spec]
    cases scan none [] 8 s with
    | none => simp
    | some comps => simp
  rw [hscan, scan_isSome_iff, trailingColon_iff, Documented, or_assoc]
  rfl

/-- What is accepted is documented, but for the texts that end in a separator behind a
group or in a loose quad: these are accepted, and they are not documented. -/
theorem only_a_documented_text_is_accepted_unless_it_ends_amiss (order : ByteOrder)
    (in6 : List Nat) (s : List Char) :
    ((∃ r, inet6_aton order (cstr s) in6 = some (0, r)) → Documented s) ↔
      ¬ (TrailingColon s ∨ LooselyEnded s) := by
  rw [accepted_iff order in6]
  constructor
  · rintro hdoc (hcolon | hloose)
    · exact not_documented_of_trailingColon hcolon (hdoc (Or.inr (Or.inl hcolon)))
    · exact not_documented_of_looselyEnded hloose (hdoc (Or.inr (Or.inr hloose)))
  · intro hno haccepted
    exact haccepted.resolve_right hno

/-- A separator behind the last of eight groups is taken. -/
theorem a_trailing_separator_is_accepted :
    inet6_aton .little (cstr "1:2:3:4:5:6:7:8:".toList) (List.replicate 16 0) =
        some (0, [0, 1, 0, 2, 0, 3, 0, 4, 0, 5, 0, 6, 0, 7, 0, 8]) ∧
      ¬ Documented "1:2:3:4:5:6:7:8:".toList := by
  refine ⟨by decide +kernel, not_documented_of_trailingColon
    ⟨.full [⟨['1'], by decide⟩, ⟨['2'], by decide⟩, ⟨['3'], by decide⟩, ⟨['4'], by decide⟩,
      ⟨['5'], by decide⟩, ⟨['6'], by decide⟩, ⟨['7'], by decide⟩, ⟨['8'], by decide⟩] (by decide),
      List.cons_ne_nil _ _, by decide +kernel⟩⟩

end rmrf.net.details
