-- The texts of IPv6 addresses: groups, a gap, and what may stand behind them. A text
-- carries the proof that it fits the eight groups of an address, and it has its words.
import Rmrf.Ip4Canonical

open fields numerals

namespace rmrf.net.details

/-! ## The parts of a text -/

/-- A group of one to four hexadecimal digits. -/
structure Hexlet where
  digits : List Char
  group : Group digits

def Hexlet.value (g : Hexlet) : Nat := numerals.value 16 g.digits

/-- A canonical IPv4 address. -/
structure Quad where
  a : List Char
  b : List Char
  c : List Char
  d : List Char
  octets : Octet a ∧ Octet b ∧ Octet c ∧ Octet d

def Quad.text (q : Quad) : List Char := dotted q.a q.b q.c q.d

/-- The two groups that a quad stands for. -/
def Quad.words (q : Quad) : List Nat :=
  [256 * value 10 q.a + value 10 q.b, 256 * value 10 q.c + value 10 q.d]

/-- Three canonical components, and something else for the fourth. -/
structure LooseQuad where
  a : List Char
  b : List Char
  c : List Char
  d : List Char
  octets : Octet a ∧ Octet b ∧ Octet c
  amiss : '.' ∉ d ∧ ¬ Octet d

def LooseQuad.text (q : LooseQuad) : List Char := dotted q.a q.b q.c q.d

/-- What stands behind the groups of a text: one field at most, and its words. -/
structure Tail where
  field : Option (List Char)
  words : List Nat

namespace Tail

def none : Tail := ⟨.none, []⟩

def quad (q : Quad) : Tail := ⟨some q.text, q.words⟩

/-- A separator behind the last group. -/
def colon : Tail := ⟨some [], []⟩

def loose (q : LooseQuad) : Tail := ⟨some q.text, [0xFFFF, 0xFFFF]⟩

def text (t : Tail) : List Char := t.field.getD []

end Tail

/-- The groups and the tail between separators. -/
def spell (gs : List Hexlet) (tail : Tail) : List Char :=
  join ':' (gs.map Hexlet.digits ++ tail.field.toList)

def values (gs : List Hexlet) : List Nat := gs.map Hexlet.value

/-- The two bytes of a group in network order. -/
def groupBytes (x : Nat) : List Nat := [x / 256, x % 256]

/-! ## The texts -/

/-- A text with all its groups, or with a `::` for one or more groups of zeros. -/
inductive Ip6Text (tail : Tail)
  | full (gs : List Hexlet) (fits : gs.length + tail.words.length = 8)
  | short (ls rs : List Hexlet) (fits : ls.length + rs.length + tail.words.length ≤ 7)

namespace Ip6Text

variable {tail : Tail}

def text : Ip6Text tail → List Char
  | full gs _ => spell gs tail
  | short ls rs _ => spell ls .none ++ ':' :: ':' :: spell rs tail

/-- The eight groups of the address. -/
def words : Ip6Text tail → List Nat
  | full gs _ => values gs ++ tail.words
  | short ls rs _ =>
    values ls ++ List.replicate (8 - (ls.length + rs.length + tail.words.length)) 0 ++
      (values rs ++ tail.words)

/-- The sixteen bytes of the address in network order. -/
def bytes (t : Ip6Text tail) : List Nat := t.words.flatMap groupBytes

theorem length_words (t : Ip6Text tail) : t.words.length = 8 := by
  cases t with
  | full gs fits => simpa [words, values] using fits
  | short ls rs fits =>
    simp only [words, values, List.length_append, List.length_map, List.length_replicate]
    omega

/-- The text has a group at its end. -/
def EndsInGroup : Ip6Text tail → Prop
  | full gs _ => gs ≠ []
  | short _ rs _ => rs ≠ []

end Ip6Text

/-! ## The characters of the parts -/

theorem Hexlet.ne_nil (g : Hexlet) : g.digits ≠ [] := g.group.numeral.1

theorem Hexlet.not_mem (g : Hexlet) {c : Char} (hc : isDigit 16 c = false) : c ∉ g.digits := by
  intro hmem
  rw [g.group.numeral.2 c hmem] at hc
  cases hc

theorem Hexlet.no_colon (g : Hexlet) : ':' ∉ g.digits := g.not_mem (by decide)

theorem Hexlet.no_dot (g : Hexlet) : '.' ∉ g.digits := g.not_mem (by decide)

theorem Hexlet.value_lt (g : Hexlet) : g.value < 65536 := g.group.value_lt

theorem Octet.no_colon {t : List Char} (h : Octet t) : ':' ∉ t := by
  intro hmem
  exact absurd (h.numeral.2 ':' hmem) (by decide)

theorem head?_ne_of_not_mem {c : Char} {t : List Char} (h : c ∉ t) : t.head? ≠ some c := by
  intro hhead
  exact h (List.mem_of_mem_head? hhead)

theorem getLast?_ne_of_not_mem {c : Char} {t : List Char} (h : c ∉ t) : t.getLast? ≠ some c := by
  intro hlast
  exact h (List.mem_of_getLast? hlast)

/-! ## The spelling of groups -/

section Spell

variable {tail : Tail}

theorem spell_nil (tail : Tail) : spell [] tail = tail.text := by
  unfold spell Tail.text
  cases tail.field with
  | none => rfl
  | some f => exact join_singleton ':' f

/-- What follows the first group: nothing, or a separator and the rest. -/
theorem spell_cons (g : Hexlet) (gs : List Hexlet) (tail : Tail) :
    spell (g :: gs) tail =
      g.digits ++ if gs = [] ∧ tail.field = .none then [] else ':' :: spell gs tail := by
  unfold spell
  split_ifs with h
  · simp [h.1, h.2]
  · rw [List.map_cons, List.cons_append, join_cons]
    intro hnil
    simp only [List.append_eq_nil_iff, List.map_eq_nil_iff, Option.toList_eq_nil_iff] at hnil
    exact h hnil

/-- A text that begins with a group begins with its first digit. -/
theorem head?_spell_cons (g : Hexlet) (gs : List Hexlet) (tail : Tail) (w : List Char) :
    (spell (g :: gs) tail ++ w).head? ≠ some ':' := by
  rw [spell_cons, List.append_assoc, List.head?_append_of_ne_nil _ g.ne_nil]
  exact head?_ne_of_not_mem g.no_colon

/-- A text is a part without dot, and its tail. -/
theorem exists_spell (gs : List Hexlet) (tail : Tail) :
    ∃ pre, spell gs tail = pre ++ tail.text ∧ '.' ∉ pre := by
  induction gs with
  | nil => exact ⟨[], spell_nil tail, List.not_mem_nil⟩
  | cons g gs ih =>
    obtain ⟨pre, hpre, hdot⟩ := ih
    rw [spell_cons]
    split_ifs with h
    · exact ⟨g.digits, by simp [Tail.text, h.2], g.no_dot⟩
    · refine ⟨g.digits ++ ':' :: pre, by simp [hpre], ?_⟩
      simp [g.no_dot, hdot]

/-- The last character of a text that ends in a group is a digit of that group. -/
theorem getLast?_spell {gs : List Hexlet} (h : gs ≠ []) :
    (spell gs .none).getLast? ≠ some ':' := by
  obtain ⟨init, g, rfl⟩ := (List.eq_nil_or_concat' gs).resolve_left h
  have hspell : spell (init ++ [g]) .none = join ':' (init.map Hexlet.digits ++ [g.digits]) := by
    simp [spell, Tail.none]
  rw [hspell, getLast?_join_snoc ':' _ g.ne_nil]
  exact getLast?_ne_of_not_mem g.no_colon

/-- The separator behind the last group. -/
theorem spell_colon {gs : List Hexlet} (h : gs ≠ []) :
    spell gs .colon = spell gs .none ++ [':'] := by
  induction gs with
  | nil => exact absurd rfl h
  | cons g gs ih =>
    rw [spell_cons, spell_cons]
    cases gs with
    | nil => simp [Tail.colon, Tail.none, spell_nil, Tail.text]
    | cons g' gs => simp [ih]

theorem colon_mem_spell {gs : List Hexlet} (h : 2 ≤ gs.length) (tail : Tail) :
    ':' ∈ spell gs tail := by
  rcases gs with _ | ⟨g, _ | ⟨g', more⟩⟩
  · simp at h
  · simp at h
  · rw [spell_cons, if_neg (fun hnil => List.cons_ne_nil _ _ hnil.1)]
    simp

/-- Six groups at least, or a shortener. -/
theorem Ip6Text.colon_mem (t : Ip6Text tail) (htwo : tail.words.length ≤ 2) : ':' ∈ t.text := by
  cases t with
  | full gs fits => exact colon_mem_spell (by omega) tail
  | short ls rs fits => simp [Ip6Text.text]

end Spell

end rmrf.net.details
