-- The scan of the IPv6 parser and the texts of the notation: a text is scanned from its
-- first group to its tail, and whatever the scan accepts is such a text, with one of the
-- four tails.
import Rmrf.Inet6
import Rmrf.Ip6Text

open fields machine numerals

namespace rmrf.net.details

/-! ## A tail as the parser sees it -/

/-- The parser finds nothing in a tail, or an IPv4 address. -/
inductive Tail.Seen (tail : Tail) : Prop
  | empty : tail.text = [] → tail.words = [] → Seen tail
  | word {word} : tail.text ≠ [] → tail.text.head? ≠ some ':' → quadWord tail.text = some word →
      tail.words = halves word → Seen tail

/-- A separator before the first dot: the first component of a quad would have it. -/
theorem quadWord_of_colon {f : List Char} (hf : '.' ∉ f) (w : List Char) :
    quadWord (f ++ ':' :: w) = none := by
  rcases dotted_or_other (f ++ ':' :: w) with ⟨a, b, c, d, heq, ha, hb, hc, hd⟩ | hne
  · have hfield : field '.' (f ++ ':' :: w) = a := by
      rw [heq, dotted, field_append_cons ha]
    rw [field_append hf, field_cons_of_ne (by decide)] at hfield
    have hno : ¬ Octet a := by
      intro h
      exact h.no_colon (by rw [← hfield]; simp)
    rw [heq, quadWord_dotted ha hb hc hd, if_neg (fun h => hno h.1)]
  · exact quadWord_other hne

theorem quadWord_of_no_dot {f : List Char} (hf : '.' ∉ f) : quadWord f = none := by
  apply quadWord_other
  rw [List.splitOn_eq_singleton hf]
  simp

theorem seen_none : Tail.none.Seen := .empty rfl rfl

theorem seen_colon : Tail.colon.Seen := .empty rfl rfl

theorem head?_dotted {a : List Char} (ha : Octet a) (b c d : List Char) :
    dotted a b c d ≠ [] ∧ (dotted a b c d).head? ≠ some ':' := by
  unfold dotted
  refine ⟨by simp, ?_⟩
  rw [List.head?_append_of_ne_nil _ ha.numeral.1]
  exact head?_ne_of_not_mem ha.no_colon

theorem halves_of_lt {a b c d : Nat} (ha : a < 256) (hb : b < 256) (hc : c < 256) (hd : d < 256) :
    halves (a * 2 ^ 24 + b * 2 ^ 16 + c * 2 ^ 8 + d) = [256 * a + b, 256 * c + d] := by
  have hand : ∀ x : Nat, x &&& 0xffff = x % 65536 := fun x => Nat.and_two_pow_sub_one_eq_mod x 16
  simp only [halves, hand, Nat.shiftRight_eq_div_pow, List.cons.injEq, and_true]
  omega

theorem seen_quad (q : Quad) : (Tail.quad q).Seen := by
  obtain ⟨ha, hb, hc, hd⟩ := q.octets
  have hword := quadWord_dotted ha.no_dot hb.no_dot hc.no_dot hd.no_dot
  rw [if_pos ⟨ha, hb, hc⟩, if_pos hd,
    orOfShifts_of_lt ha.value_lt hb.value_lt hc.value_lt hd.value_lt] at hword
  exact .word (head?_dotted ha _ _ _).1 (head?_dotted ha _ _ _).2 hword
    (halves_of_lt ha.value_lt hb.value_lt hc.value_lt hd.value_lt).symm

theorem seen_loose (q : LooseQuad) : (Tail.loose q).Seen := by
  obtain ⟨ha, hb, hc⟩ := q.octets
  obtain ⟨hd, hbad⟩ := q.amiss
  have hword := quadWord_dotted ha.no_dot hb.no_dot hc.no_dot hd
  rw [if_pos ⟨ha, hb, hc⟩, if_neg hbad, orOfShifts_neg_one] at hword
  exact .word (head?_dotted ha _ _ _).1 (head?_dotted ha _ _ _).2 hword rfl

/-! ## The scan of a text -/

theorem embeddedWord_of_none {u : List Char} (h : quadWord u = none) (short : Option Nat)
    (n : Nat) : embeddedWord short n u = none := by
  unfold embeddedWord
  rw [h, ite_self]

section Scan

variable {short : Option Nat} {done : List Nat} {n p : Nat} {tail : Tail}

/-- A group, and behind it the end of the text or a separator. -/
theorem scan_hexlet (g : Hexlet) {u : List Char} (hu : u = [] ∨ ∃ v, u = ':' :: v) :
    scan short done (n + 1) (g.digits ++ u) = scan short (done ++ [g.value]) n (after u) := by
  have hne : g.digits ++ u ≠ [] := by simp [g.ne_nil]
  have hword : quadWord (g.digits ++ u) = none := by
    rcases hu with rfl | ⟨v, rfl⟩
    · rw [List.append_nil]
      exact quadWord_of_no_dot g.no_dot
    · exact quadWord_of_colon g.no_dot v
  have hcolons : behindShortener (g.digits ++ u) = none := by
    apply behindShortener_eq_none
    rintro ⟨h0, _⟩
    rw [← List.head?_eq_getElem?, List.head?_append_of_ne_nil _ g.ne_nil] at h0
    exact head?_ne_of_not_mem g.no_colon h0
  have hfield : field ':' (g.digits ++ u) = g.digits := by
    rcases hu with rfl | ⟨v, rfl⟩
    · rw [List.append_nil, field_of_not_mem g.no_colon]
    · exact field_append_cons g.no_colon v
  rw [scan_group hne (embeddedWord_of_none hword short n) hcolons, hfield, if_pos g.group,
    List.drop_left]
  rfl

theorem after_of_head {v : List Char} (h : v.head? ≠ some ':') : after (':' :: v) = v := if_neg h

theorem head?_spell (ht : tail.Seen) (gs : List Hexlet) : (spell gs tail).head? ≠ some ':' := by
  cases gs with
  | nil =>
    rw [spell_nil]
    cases ht with
    | empty htext => simp [htext]
    | word _ hhead => exact hhead
  | cons g gs =>
    have hhead := head?_spell_cons g gs tail []
    rwa [List.append_nil] at hhead

/-- The next group of a text. -/
theorem scan_spell_cons (ht : tail.Seen) (g : Hexlet) (gs : List Hexlet) :
    scan short done (n + 1) (spell (g :: gs) tail) =
      scan short (done ++ [g.value]) n (spell gs tail) := by
  rw [spell_cons]
  split_ifs with h
  · have hnil : spell gs tail = [] := by rw [h.1, spell_nil, Tail.text, h.2, Option.getD_none]
    rw [scan_hexlet g (Or.inl rfl), hnil]
    rfl
  · rw [scan_hexlet g (Or.inr ⟨_, rfl⟩), after_of_head (head?_spell ht gs)]

/-- A text without gap. -/
theorem scan_full (ht : tail.Seen) (gs : List Hexlet) (hn : gs.length + tail.words.length = n) :
    scan none done n (spell gs tail) = some (done ++ (values gs ++ tail.words)) := by
  induction gs generalizing done n with
  | nil =>
    rw [spell_nil]
    cases ht with
    | empty htext hwords =>
      rw [hwords] at hn ⊢
      obtain rfl : n = 0 := by simpa using hn.symm
      simp [scan, htext, values]
    | @word word hne _ hword hwords =>
      rw [hwords] at hn ⊢
      obtain rfl : n = 2 := by simpa [halves] using hn.symm
      have hat : embeddedWord none 1 tail.text = some word := by
        unfold embeddedWord
        rw [if_pos (Or.inl rfl), hword]
      rw [scan_word hne hat]
      simp [closed, values]
  | cons g gs ih =>
    obtain ⟨k, rfl⟩ : ∃ k, n = k + 1 := ⟨n - 1, by rw [List.length_cons] at hn; omega⟩
    rw [scan_spell_cons ht, ih (by rw [List.length_cons] at hn; omega)]
    simp [values]

/-- The groups before a `::`. -/
theorem scan_left (ls : List Hexlet) {v : List Char} (hv : v.head? ≠ some ':')
    (hn : ls.length + 1 ≤ n) :
    scan none done n (spell ls .none ++ ':' :: ':' :: v) =
      scan (some (done.length + ls.length)) (done ++ values ls ++ [0]) (n - ls.length - 1) v := by
  induction ls generalizing done n with
  | nil =>
    obtain ⟨k, rfl⟩ : ∃ k, n = k + 1 := ⟨n - 1, by rw [List.length_nil] at hn; omega⟩
    have hword : embeddedWord none k (':' :: ':' :: v) = none :=
      embeddedWord_of_none (quadWord_of_colon List.not_mem_nil _) none k
    have hnil : spell [] .none = [] := rfl
    rw [hnil, List.nil_append, scan_shortener hword, if_neg (by simp [hv])]
    simp [values]
  | cons g ls ih =>
    obtain ⟨k, rfl⟩ : ∃ k, n = k + 1 := ⟨n - 1, by rw [List.length_cons] at hn; omega⟩
    have hstep : scan none done (k + 1) (spell (g :: ls) .none ++ ':' :: ':' :: v) =
        scan none (done ++ [g.value]) k (spell ls .none ++ ':' :: ':' :: v) := by
      rw [spell_cons, List.append_assoc]
      cases ls with
      | nil =>
        rw [if_pos ⟨rfl, rfl⟩, List.nil_append, scan_hexlet g (Or.inr ⟨_, rfl⟩)]
        rfl
      | cons g' ls =>
        rw [if_neg (by simp), List.cons_append, scan_hexlet g (Or.inr ⟨_, rfl⟩),
          after_of_head (head?_spell_cons g' ls .none _)]
    rw [hstep, ih (by rw [List.length_cons] at hn; omega)]
    have hplace : (done ++ [g.value]).length + ls.length = done.length + (g :: ls).length := by
      simp; omega
    have hleft : k - ls.length - 1 = k + 1 - (g :: ls).length - 1 := by simp
    rw [hplace, hleft]
    simp [values]

/-- The array behind a `::`: the gap is opened when places are left. -/
def widened (p : Nat) (a : List Nat) (k : Nat) (tail : Tail) : List Nat :=
  if k = 0 ∧ tail.words = [] then a else opened p a k

/-- The groups behind a `::`. -/
theorem scan_right (ht : tail.Seen) (rs : List Hexlet)
    (hn : rs.length + tail.words.length ≤ n) :
    scan (some p) done n (spell rs tail) =
      some (widened p (done ++ (values rs ++ tail.words)) (n - rs.length - tail.words.length)
        tail) := by
  induction rs generalizing done n with
  | nil =>
    rw [spell_nil]
    cases ht with
    | empty htext hwords =>
      rw [htext]
      cases n with
      | zero => simp [scan, widened, hwords, values]
      | succ n => simp [scan_end, widened, hwords, values]
    | @word word hne _ hword hwords =>
      have hlen : tail.words.length = 2 := by rw [hwords]; rfl
      obtain ⟨k, rfl⟩ : ∃ k, n = k + 2 := ⟨n - 2, by rw [List.length_nil] at hn; omega⟩
      have hat : embeddedWord (some p) (k + 1) tail.text = some word := by
        unfold embeddedWord
        rw [if_pos, hword]
        rcases Nat.eq_zero_or_pos k with rfl | hk
        · exact Or.inl rfl
        · exact Or.inr ⟨by omega, by simp⟩
      have hnonempty : tail.words ≠ [] := by rw [hwords]; exact List.cons_ne_nil _ _
      rw [scan_word hne hat, widened, if_neg (fun h => hnonempty h.2), hlen, ← hwords]
      simp [closed, values]
  | cons g rs ih =>
    obtain ⟨k, rfl⟩ : ∃ k, n = k + 1 := ⟨n - 1, by rw [List.length_cons] at hn; omega⟩
    have hleft : k - rs.length = k + 1 - (g :: rs).length := by simp
    rw [scan_spell_cons ht, ih (by rw [List.length_cons] at hn; omega), hleft]
    simp [values]

end Scan

/-! ## The array of a text -/

/-- The array that the parser makes of a text. -/
def Ip6Text.parsed {tail : Tail} : Ip6Text tail → List Nat
  | full gs _ => values gs ++ tail.words
  | short ls rs _ =>
    widened ls.length (values ls ++ [0] ++ (values rs ++ tail.words))
      (8 - ls.length - 1 - rs.length - tail.words.length) tail

theorem scan_text {tail : Tail} (ht : tail.Seen) (t : Ip6Text tail) :
    scan none [] 8 t.text = some t.parsed := by
  cases t with
  | full gs fits =>
    rw [Ip6Text.text, scan_full ht gs fits, List.nil_append]
    rfl
  | short ls rs fits =>
    rw [Ip6Text.text, scan_left ls (head?_spell ht rs) (by omega), scan_right ht rs (by omega),
      List.nil_append, List.length_nil, Nat.zero_add]
    rfl

/-- The values of the groups up to the gap, and what is behind the gap. -/
theorem opened_append (ls : List Hexlet) (b : List Nat) {k : Nat} (hk : k ≠ 0) :
    opened ls.length (values ls ++ [0] ++ b) k =
      values ls ++ List.replicate (k + 1) 0 ++ b := by
  have hlen : (values ls).length = ls.length := by simp [values]
  unfold opened
  rw [if_neg hk, List.append_assoc (values ls), ← hlen, List.take_left, List.drop_left,
    List.replicate_succ']
  simp

/-- A text with room behind its gap is read as it is written. -/
theorem parsed_short {tail : Tail} {ls rs : List Hexlet}
    (fits : ls.length + rs.length + tail.words.length ≤ 7)
    (hroom : ls.length + rs.length + tail.words.length ≤ 6 ∨ tail.words = []) :
    (Ip6Text.short ls rs fits).parsed = (Ip6Text.short ls rs fits).words := by
  simp only [Ip6Text.parsed, Ip6Text.words, widened]
  by_cases hk : 8 - ls.length - 1 - rs.length - tail.words.length = 0
  · have hnil : tail.words = [] := hroom.resolve_left (by omega)
    have hone : 8 - (ls.length + rs.length + tail.words.length) = 1 := by omega
    rw [if_pos ⟨hk, hnil⟩, hone]
    rfl
  · have hgap : 8 - ls.length - 1 - rs.length - tail.words.length + 1 =
        8 - (ls.length + rs.length + tail.words.length) := by omega
    rw [if_neg (fun h => hk h.1), opened_append _ _ hk, hgap]

/-- Without room, what is behind the gap is cleared. -/
theorem parsed_tight {tail : Tail} {ls rs : List Hexlet}
    (fits : ls.length + rs.length + tail.words.length ≤ 7)
    (htight : ls.length + rs.length + tail.words.length = 7) (hwords : tail.words ≠ []) :
    (Ip6Text.short ls rs fits).parsed = values ls ++ List.replicate (8 - ls.length) 0 := by
  have hk : 8 - ls.length - 1 - rs.length - tail.words.length = 0 := by omega
  have hlen : (values ls).length = ls.length := by simp [values]
  have hrest : (values ls ++ [0] ++ (values rs ++ tail.words)).length - ls.length =
      8 - ls.length := by
    simp [values]
    omega
  rw [Ip6Text.parsed, widened, if_neg (fun h => hwords h.2), hk, opened, if_pos rfl, hrest,
    List.append_assoc (values ls), ← hlen, List.take_left]

/-! ## What the scan accepts -/

/-- The tails that the parser takes behind the groups of a text. -/
inductive Ending : Tail → List Hexlet → Prop
  | none {gs} : Ending .none gs
  | quad {q gs} : Ending (.quad q) gs
  | colon {gs} : gs ≠ [] → Ending .colon gs
  | loose {q gs} : Ending (.loose q) gs

theorem Ending.cons {tail : Tail} {gs : List Hexlet} (h : Ending tail gs) (g : Hexlet) :
    Ending tail (g :: gs) := by
  cases h with
  | none => exact .none
  | quad => exact .quad
  | colon => exact .colon (List.cons_ne_nil _ _)
  | loose => exact .loose

theorem Ending.seen {tail : Tail} {gs : List Hexlet} (h : Ending tail gs) : tail.Seen := by
  cases h with
  | none => exact seen_none
  | quad => exact seen_quad _
  | colon => exact seen_colon
  | loose => exact seen_loose _

/-- An embedded address is a quad, or a loose one. -/
theorem exists_tail_of_quadWord {u : List Char} {word : Nat} (h : quadWord u = some word) :
    ∃ tail, (∀ gs, Ending tail gs) ∧ u = tail.text ∧ tail.words.length = 2 := by
  rcases dotted_or_other u with ⟨a, b, c, d, rfl, ha, hb, hc, hd⟩ | hne
  · rw [quadWord_dotted ha hb hc hd] at h
    by_cases hquad : Octet a ∧ Octet b ∧ Octet c
    · by_cases hoct : Octet d
      · exact ⟨.quad ⟨a, b, c, d, hquad.1, hquad.2.1, hquad.2.2, hoct⟩, fun _ => .quad, rfl, rfl⟩
      · exact ⟨.loose ⟨a, b, c, d, hquad, hd, hoct⟩, fun _ => .loose, rfl, rfl⟩
    · rw [if_neg hquad] at h
      cases h
  · rw [quadWord_other hne] at h
    cases h

/-- A text that begins with a group: its digits, and the text behind them. -/
theorem exists_hexlet {u : List Char} (h : Group (field ':' u)) :
    ∃ g : Hexlet, g.digits = field ':' u ∧ (u = g.digits ∨ ∃ v, u = g.digits ++ ':' :: v) := by
  refine ⟨⟨field ':' u, h⟩, rfl, ?_⟩
  by_cases hmem : ':' ∈ u
  · obtain ⟨f, v, hu, hf⟩ := List.eq_append_cons_of_mem hmem
    have hfield : field ':' u = f := by rw [hu, field_append_cons hf]
    refine Or.inr ⟨v, ?_⟩
    show u = field ':' u ++ ':' :: v
    rw [hfield]
    exact hu
  · exact Or.inl (field_of_not_mem hmem).symm

section Sound

variable {short : Option Nat} {done : List Nat} {n p : Nat}

/-- What one pass of the scan accepts. -/
inductive Accepts (short : Option Nat) (n : Nat) (u : List Char) : Prop
  | ends : u = [] → short ≠ none → Accepts short n u
  | word {tail} : (∀ gs, Ending tail gs) → u = tail.text → tail.words.length = 2 →
      (n = 1 ∨ n > 1 ∧ short ≠ none) → Accepts short n u
  | gap {v done' p r} : short = none → u = ':' :: ':' :: v → v.head? ≠ some ':' →
      scan (some p) done' n v = some r → Accepts short n u
  | last {g : Hexlet} {done' r} : u = g.digits → scan short done' n [] = some r → Accepts short n u
  | group {g : Hexlet} {v done' r} : u = g.digits ++ ':' :: v →
      scan short done' n (after (':' :: v)) = some r → Accepts short n u

theorem accepts_of_scan {u : List Char} {r : List Nat} (h : scan short done (n + 1) u = some r) :
    Accepts short n u := by
  by_cases hu : u = []
  · subst hu
    rw [scan_end] at h
    refine .ends rfl ?_
    intro hnone
    rw [hnone] at h
    cases h
  · cases hword : embeddedWord short n u with
    | some word =>
      obtain ⟨hplace, hquad⟩ := embeddedWord_eq_some hword
      obtain ⟨tail, hend, htext, hlen⟩ := exists_tail_of_quadWord hquad
      exact .word hend htext hlen hplace
    | none =>
      cases hcolons : behindShortener u with
      | some v =>
        obtain rfl := behindShortener_eq_some_iff.mp hcolons
        rw [scan_shortener hword] at h
        split_ifs at h with hno
        rw [not_or, not_not] at hno
        exact .gap hno.1 rfl hno.2 h
      | none =>
        rw [scan_group hu hword hcolons] at h
        split_ifs at h with hgroup
        obtain ⟨g, hg, htext⟩ := exists_hexlet hgroup
        rw [← hg] at h
        rcases htext with rfl | ⟨v, rfl⟩
        · rw [List.drop_length] at h
          exact .last rfl h
        · rw [List.drop_left] at h
          exact .group rfl h

/-- What goes on without a separator is behind a single one. -/
theorem after_of_ne {v : List Char} (h : (after (':' :: v)).head? ≠ some ':') :
    after (':' :: v) = v := by
  by_cases hv : v.head? = some ':'
  · rw [after, if_pos hv] at h
    exact absurd rfl h
  · exact after_of_head hv

/-- Nothing is spelled by nothing only. -/
theorem spell_eq_nil {tail : Tail} {gs : List Hexlet} (hend : Ending tail gs)
    (h : spell gs tail = []) : gs = [] ∧ tail = .none := by
  cases gs with
  | nil =>
    rw [spell_nil] at h
    cases hend with
    | none => exact ⟨rfl, rfl⟩
    | @quad q => exact absurd h (head?_dotted q.octets.1 _ _ _).1
    | colon hne => exact absurd rfl hne
    | @loose q => exact absurd h (head?_dotted q.octets.1 _ _ _).1
  | cons g gs =>
    rw [spell_cons] at h
    exact absurd (List.append_eq_nil_iff.mp h).1 g.ne_nil

/-- A group and a separator before a text make a text with the same last words. -/
theorem Ending.behind {tail : Tail} {gs : List Hexlet} (hend : Ending tail gs) (g : Hexlet) :
    ∃ tail', Ending tail' (g :: gs) ∧ tail'.words = tail.words ∧
      g.digits ++ ':' :: spell gs tail = spell (g :: gs) tail' := by
  by_cases hnil : spell gs tail = []
  · obtain ⟨rfl, rfl⟩ := spell_eq_nil hend hnil
    exact ⟨.colon, .colon (List.cons_ne_nil _ _), rfl, rfl⟩
  · refine ⟨tail, hend.cons g, rfl, ?_⟩
    rw [spell_cons, if_neg]
    rintro ⟨rfl, hfield⟩
    rw [spell_nil, Tail.text, hfield] at hnil
    exact hnil rfl

theorem spell_singleton (g : Hexlet) : g.digits = spell [g] .none := by
  rw [spell_cons, if_pos ⟨rfl, rfl⟩, List.append_nil]

/-- Behind a `::` stands a text that leaves the rest of the places to the gap. -/
theorem scan_right_sound {u : List Char} {r : List Nat} (h : scan (some p) done n u = some r) :
    ∃ tail rs, Ending tail rs ∧ u = spell rs tail ∧ rs.length + tail.words.length ≤ n := by
  induction n generalizing done u r with
  | zero =>
    rw [scan] at h
    split_ifs at h with hu
    exact ⟨.none, [], .none, hu, Nat.le_refl _⟩
  | succ n ih =>
    cases accepts_of_scan h with
    | ends hu => exact ⟨.none, [], .none, hu, Nat.zero_le _⟩
    | @word tail hend hu hlen hplace =>
      refine ⟨tail, [], hend [], by rw [hu, spell_nil], ?_⟩
      rw [hlen, List.length_nil]
      omega
    | gap hnone => cases hnone
    | @last g _ _ hu => exact ⟨.none, [g], .none, by rw [hu, spell_singleton], by simp [Tail.none]⟩
    | @group g v _ _ hu hrest =>
      obtain ⟨tail, rs, hend, htext, hlen⟩ := ih hrest
      obtain ⟨tail', hend', hwords, hspell⟩ := hend.behind g
      rw [after_of_ne (by rw [htext]; exact head?_spell hend.seen rs)] at htext
      refine ⟨tail', g :: rs, hend', by rw [hu, htext, hspell], ?_⟩
      rw [hwords, List.length_cons]
      omega

/-- The texts that fill `n` places, with a gap or without. -/
inductive Spelled (n : Nat) (u : List Char) : Prop
  | full {tail} (gs : List Hexlet) : Ending tail gs → u = spell gs tail →
      gs.length + tail.words.length = n → Spelled n u
  | short {tail rs} (ls : List Hexlet) : Ending tail rs →
      u = spell ls .none ++ ':' :: ':' :: spell rs tail →
      ls.length + rs.length + tail.words.length + 1 ≤ n → Spelled n u

/-- A group before the texts of `n` places. -/
theorem Spelled.cons {v : List Char} (h : Spelled n (after (':' :: v))) (g : Hexlet) :
    Spelled (n + 1) (g.digits ++ ':' :: v) := by
  cases h with
  | @full tail gs hend htext hlen =>
    obtain ⟨tail', hend', hwords, hspell⟩ := hend.behind g
    rw [after_of_ne (by rw [htext]; exact head?_spell hend.seen gs)] at htext
    refine .full (g :: gs) hend' (by rw [htext, hspell]) ?_
    rw [hwords, List.length_cons]
    omega
  | @short tail rs ls hend htext hlen =>
    refine .short (g :: ls) hend ?_ (by rw [List.length_cons]; omega)
    cases ls with
    | nil =>
      -- The `::` stands right behind the group.
      have hcolon : v.head? = some ':' := by
        by_contra hne
        rw [after_of_head hne] at htext
        exact hne (by rw [htext]; rfl)
      rw [after, if_pos hcolon] at htext
      rw [htext, ← spell_singleton]
      rfl
    | cons g' ls =>
      have hhead : (after (':' :: v)).head? ≠ some ':' := by
        rw [htext]
        exact head?_spell_cons g' ls .none _
      rw [spell_cons, if_neg (by simp), List.append_assoc, List.cons_append, ← htext,
        after_of_ne hhead]

theorem scan_sound {u : List Char} {r : List Nat} (h : scan none done n u = some r) :
    Spelled n u := by
  induction n generalizing done u r with
  | zero =>
    rw [scan] at h
    split_ifs at h with hu
    exact .full [] .none hu rfl
  | succ n ih =>
    cases accepts_of_scan h with
    | ends _ hnone => exact absurd rfl hnone
    | @word tail hend hu hlen hplace =>
      refine .full [] (hend []) (by rw [hu, spell_nil]) ?_
      have hone : n = 1 := hplace.resolve_right (fun hgap => hgap.2 rfl)
      rw [hlen, hone, List.length_nil]
    | gap _ hu hhead hrest =>
      obtain ⟨tail, rs, hend, htext, hlen⟩ := scan_right_sound hrest
      exact .short [] hend (by rw [hu, htext]; rfl) (by rw [List.length_nil]; omega)
    | @last g done' _ hu hrest =>
      cases n with
      | zero => exact .full [g] .none (by rw [hu, spell_singleton]) rfl
      | succ n =>
        rw [scan_end] at hrest
        cases hrest
    | @group g v _ _ hu hrest =>
      rw [hu]
      exact (ih hrest).cons g

end Sound

/-- A text is accepted when it is an address, or when its last part is one of the two
that the parser takes for the end of an address. -/
theorem scan_isSome_iff (s : List Char) :
    (∃ comps, scan none [] 8 s = some comps) ↔
      (∃ t : Ip6Text .none, s = t.text) ∨ (∃ q, ∃ t : Ip6Text (.quad q), s = t.text) ∨
        (∃ t : Ip6Text .colon, t.EndsInGroup ∧ s = t.text) ∨
          ∃ q, ∃ t : Ip6Text (.loose q), s = t.text := by
  constructor
  · rintro ⟨comps, h⟩
    cases scan_sound h with
    | @full tail gs hend htext hlen =>
      cases hend with
      | none => exact Or.inl ⟨.full gs hlen, htext⟩
      | @quad q => exact Or.inr (Or.inl ⟨q, .full gs hlen, htext⟩)
      | colon hne => exact Or.inr (Or.inr (Or.inl ⟨.full gs hlen, hne, htext⟩))
      | @loose q => exact Or.inr (Or.inr (Or.inr ⟨q, .full gs hlen, htext⟩))
    | @short tail rs ls hend htext hlen =>
      have fits : ls.length + rs.length + tail.words.length ≤ 7 := by omega
      cases hend with
      | none => exact Or.inl ⟨.short ls rs fits, htext⟩
      | @quad q => exact Or.inr (Or.inl ⟨q, .short ls rs fits, htext⟩)
      | colon hne => exact Or.inr (Or.inr (Or.inl ⟨.short ls rs fits, hne, htext⟩))
      | @loose q => exact Or.inr (Or.inr (Or.inr ⟨q, .short ls rs fits, htext⟩))
  · rintro (⟨t, rfl⟩ | ⟨q, t, rfl⟩ | ⟨t, _, rfl⟩ | ⟨q, t, rfl⟩)
    · exact ⟨_, scan_text seen_none t⟩
    · exact ⟨_, scan_text (seen_quad q) t⟩
    · exact ⟨_, scan_text seen_colon t⟩
    · exact ⟨_, scan_text (seen_loose q) t⟩

end rmrf.net.details
