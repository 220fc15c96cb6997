-- Texts that are cut. Separators cut a text into fields: there is the field at the head of
-- a text and the one behind its last separator, and fields are joined again. Ends cut a text
-- into pieces, each with its end, and into what follows the last of them.
import Mathlib

/-! ## Fields -/

namespace fields

variable {α : Type*} [DecidableEq α] {sep : α}

/-- The field at the head of a text: what comes before the first separator. -/
def field (sep : α) (u : List α) : List α := u.takeWhile (· ≠ sep)

@[simp] theorem field_nil (sep : α) : field sep [] = [] := rfl

@[simp] theorem field_cons_self (sep : α) (u : List α) : field sep (sep :: u) = [] := by
  simp [field]

theorem field_cons_of_ne {c : α} (h : c ≠ sep) (u : List α) :
    field sep (c :: u) = c :: field sep u := by
  simp [field, h]

theorem field_append {t : List α} (h : sep ∉ t) (u : List α) :
    field sep (t ++ u) = t ++ field sep u := by
  unfold field
  rw [List.takeWhile_append_of_pos]
  intro c hc
  exact decide_eq_true (fun heq => h (heq ▸ hc))

theorem field_of_not_mem {t : List α} (h : sep ∉ t) : field sep t = t := by
  have happ := field_append h []
  rwa [field_nil, List.append_nil] at happ

theorem field_append_cons {t : List α} (h : sep ∉ t) (u : List α) :
    field sep (t ++ sep :: u) = t := by
  rw [field_append h, field_cons_self, List.append_nil]

/-- Texts agree when their first fields and what follows these do. -/
theorem append_cons_inj {t t' u u' : List α} (ht : sep ∉ t) (ht' : sep ∉ t')
    (h : t ++ sep :: u = t' ++ sep :: u') : t = t' ∧ u = u' := by
  have hfield := congrArg (field sep) h
  rw [field_append_cons ht, field_append_cons ht'] at hfield
  subst hfield
  exact ⟨rfl, (List.cons.inj (List.append_cancel_left h)).2⟩

omit [DecidableEq α] in
/-- A text with a separator ends in the separator and its last field. -/
theorem exists_last_sep {t : List α} (h : sep ∈ t) :
    ∃ u v, t = u ++ sep :: v ∧ sep ∉ v := by
  obtain ⟨u, v, ht, hu⟩ := List.eq_append_cons_of_mem (List.mem_reverse.mpr h)
  refine ⟨v.reverse, u.reverse, ?_, fun hv => hu (List.mem_reverse.mp hv)⟩
  have hrev := congrArg List.reverse ht
  simpa using hrev

theorem splitOn_append_last {v : List α} (h : sep ∉ v) (u : List α) :
    (u ++ sep :: v).splitOn sep = u.splitOn sep ++ [v] := by
  rw [List.splitOn_append_cons_self, List.splitOn_eq_singleton h]

/-! ## Joined fields -/

/-- The fields with a separator between each two of them. -/
def join (sep : α) (fs : List (List α)) : List α := [sep].intercalate fs

section Join

variable (sep)

omit [DecidableEq α]

@[simp] theorem join_nil : join sep [] = [] := rfl

@[simp] theorem join_singleton (f : List α) : join sep [f] = f := List.intercalate_singleton

theorem join_cons (f : List α) {fs : List (List α)} (h : fs ≠ []) :
    join sep (f :: fs) = f ++ sep :: join sep fs := by
  simp [join, List.intercalate_cons_of_ne_nil h]

/-- The fields before the last one, each with its separator. -/
theorem join_snoc (fs : List (List α)) (f : List α) :
    join sep (fs ++ [f]) = fs.flatMap (· ++ [sep]) ++ f := by
  induction fs with
  | nil => simp
  | cons g gs ih => rw [List.cons_append, join_cons sep g (by simp), ih]; simp

/-- A character at the end of a text comes from its last field. -/
theorem getLast?_join_snoc (fs : List (List α)) {f : List α} (h : f ≠ []) :
    (join sep (fs ++ [f])).getLast? = f.getLast? := by
  rw [join_snoc, List.getLast?_append_of_ne_nil _ h]

theorem mem_join {c : α} {fs : List (List α)} (h : c ∈ join sep fs) :
    c = sep ∨ ∃ f ∈ fs, c ∈ f := by
  induction fs with
  | nil => cases h
  | cons f fs ih =>
    by_cases hfs : fs = []
    · subst hfs
      rw [join_singleton] at h
      exact Or.inr ⟨f, List.mem_singleton_self f, h⟩
    · rw [join_cons sep f hfs, List.mem_append, List.mem_cons] at h
      rcases h with h | h | h
      · exact Or.inr ⟨f, List.mem_cons_self, h⟩
      · exact Or.inl h
      · rcases ih h with heq | ⟨g, hg, hc⟩
        · exact Or.inl heq
        · exact Or.inr ⟨g, List.mem_cons_of_mem f hg, hc⟩

end Join

/-- A character that is no separator is in a field. -/
theorem exists_field_of_mem {c : α} {t : List α} (h : c ∈ t) (hc : c ≠ sep) :
    ∃ f ∈ t.splitOn sep, c ∈ f := by
  have hjoin : join sep (t.splitOn sep) = t := List.intercalate_splitOn sep
  rw [← hjoin] at h
  exact (mem_join sep h).resolve_left hc

end fields

/-! ## Pieces -/

namespace pieces

variable {α : Type*} (isEnd : α → Bool)

/-- No item ends a piece. -/
def Open (s : List α) : Prop := ∀ x ∈ s, isEnd x = false

/-- A piece: an item at its end ends it, and no other does. -/
def Piece (s : List α) : Prop := ∃ body e, s = body ++ [e] ∧ Open isEnd body ∧ isEnd e = true

def cut : List α → List (List α) × List α
  | [] => ([], [])
  | x :: rest =>
    if isEnd x then ([x] :: (cut rest).1, (cut rest).2)
    else
      match cut rest with
      | ([], tail) => ([], x :: tail)
      | (piece :: more, tail) => ((x :: piece) :: more, tail)

theorem cut_of_open {s : List α} (h : Open isEnd s) : cut isEnd s = ([], s) := by
  induction s with
  | nil => rfl
  | cons x rest ih =>
    have hx := h x List.mem_cons_self
    simp [cut, hx, ih (fun y hy => h y (List.mem_cons_of_mem x hy))]

/-- The first piece comes off a list. -/
theorem cut_append {piece : List α} (h : Piece isEnd piece) (rest : List α) :
    cut isEnd (piece ++ rest) = (piece :: (cut isEnd rest).1, (cut isEnd rest).2) := by
  obtain ⟨body, e, rfl, hbody, he⟩ := h
  induction body with
  | nil => simp [cut, he]
  | cons x body ih =>
    have hx := hbody x List.mem_cons_self
    have hrest := ih (fun y hy => hbody y (List.mem_cons_of_mem x hy))
    rw [List.cons_append, List.cons_append, cut, if_neg (by simp [hx]), hrest]

/-- Pieces and a tail without an end are what their list is cut into. -/
theorem cut_flatten {ps : List (List α)} {tail : List α} (hps : ∀ p ∈ ps, Piece isEnd p)
    (htail : Open isEnd tail) : cut isEnd (ps.flatten ++ tail) = (ps, tail) := by
  induction ps with
  | nil => exact cut_of_open isEnd htail
  | cons p ps ih =>
    have hrest := ih (fun q hq => hps q (List.mem_cons_of_mem p hq))
    rw [List.flatten_cons, List.append_assoc, cut_append isEnd (hps p List.mem_cons_self), hrest]

/-- An open start becomes a part of the first piece. -/
theorem Piece.append {s piece : List α} (hs : Open isEnd s) (h : Piece isEnd piece) :
    Piece isEnd (s ++ piece) := by
  obtain ⟨body, e, rfl, hbody, he⟩ := h
  refine ⟨s ++ body, e, by rw [List.append_assoc], ?_, he⟩
  intro x hx
  exact (List.mem_append.mp hx).elim (hs x) (hbody x)

theorem Open.append {s t : List α} (hs : Open isEnd s) (ht : Open isEnd t) :
    Open isEnd (s ++ t) := by
  intro x hx
  exact (List.mem_append.mp hx).elim (hs x) (ht x)

/-- The first end of a list ends a piece. -/
theorem piece_of_findIdx? {s : List α} {i : Nat} (h : s.findIdx? isEnd = some i) :
    i < s.length ∧ Piece isEnd (s.take (i + 1)) := by
  obtain ⟨hlt, he, hbefore⟩ := List.findIdx?_eq_some_iff_getElem.mp h
  refine ⟨hlt, s.take i, s[i], ?_, ?_, he⟩
  · rw [List.take_succ_eq_append_getElem hlt]
  · intro x hx
    obtain ⟨j, hj, rfl⟩ := List.mem_take_iff_getElem.mp hx
    simpa using hbefore j (by omega)

theorem open_of_findIdx? {s : List α} (h : s.findIdx? isEnd = none) : Open isEnd s :=
  List.findIdx?_eq_none_iff.mp h

end pieces
