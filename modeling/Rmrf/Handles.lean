-- What a program has by a number. Objects stand in numbered slots: in a list of optional
-- values, `l[i]?.join` is the object at `i`, a new object gets the next slot, and one that is
-- gone leaves its own empty. Handles stand in a table: a program opens, uses and closes them,
-- and only what is open can be used or closed. What it does to a table it does to each larger
-- one, and it leaves the rest of that one as it was.
import Rmrf.Runs

/-! ## Objects in slots -/

namespace slots

variable {α : Type*} {l : List (Option α)} {i : Nat}

theorem lt_of_object {a : α} (h : l[i]?.join = some a) : i < l.length := by
  by_contra hge
  rw [List.getElem?_eq_none (Nat.not_lt.mp hge)] at h
  cases h

theorem object_length (l : List (Option α)) : l[l.length]?.join = none := by
  rw [List.getElem?_eq_none (Nat.le_refl _)]
  rfl

theorem object_set_self (h : i < l.length) (o : Option α) : (l.set i o)[i]?.join = o := by
  rw [List.getElem?_set_self h]
  rfl

theorem object_set_of_ne {j : Nat} (l : List (Option α)) (h : j ≠ i) (o : Option α) :
    (l.set i o)[j]?.join = l[j]?.join := by
  rw [List.getElem?_set_ne h.symm]

/-- To put an object where it is makes no difference. -/
theorem set_object (l : List (Option α)) (i : Nat) : l.set i l[i]?.join = l := by
  apply List.ext_getElem?
  intro j
  rcases eq_or_ne j i with rfl | hne
  · rw [List.getElem?_set_self']
    rcases l[j]? with _ | o
    · rfl
    · rfl
  · rw [List.getElem?_set_ne hne.symm]

/-- The next slot. -/
theorem object_append (l : List (Option α)) (o : Option α) (j : Nat) :
    (l ++ [o])[j]?.join = if j = l.length then o else l[j]?.join := by
  rcases Nat.lt_trichotomy j l.length with hlt | rfl | hgt
  · rw [if_neg (Nat.ne_of_lt hlt), List.getElem?_append_left hlt]
  · rw [if_pos rfl, List.getElem?_concat_length]
    rfl
  · have hnew : (l ++ [o])[j]? = none := List.getElem?_eq_none (by simpa using hgt)
    rw [if_neg (Nat.ne_of_gt hgt), hnew, List.getElem?_eq_none (Nat.le_of_lt hgt)]

end slots

/-! ## Handles in a table -/

open runs

namespace handles

variable {κ : Type*}

/-- What a program does with a handle. -/
inductive Act (κ : Type*)
  | opens (k : κ)
  | uses (k : κ)
  | closes (k : κ)
deriving DecidableEq, Repr

/-- The table of many owners: one of them may be exchanged, and the others keep theirs. -/
theorem exists_others {α : Type*} (f : α → Multiset κ) {l : List α} {i : Nat} {a : α}
    (h : l[i]? = some a) : ∃ others, (l.map f).sum = f a + others ∧
      ∀ b, ((l.set i b).map f).sum = f b + others := by
  obtain ⟨hi, rfl⟩ := List.getElem?_eq_some_iff.mp h
  refine ⟨((l.take i).map f).sum + ((l.drop (i + 1)).map f).sum, ?_, ?_⟩
  · have hsplit := congrArg (List.map f) (List.take_append_drop i l)
    rw [← hsplit, List.drop_eq_getElem_cons hi, List.map_append, List.map_cons, List.sum_append,
      List.sum_cons, add_left_comm]
  · intro b
    rw [List.set_eq_take_append_cons_drop, if_pos hi, List.map_append, List.map_cons,
      List.sum_append, List.sum_cons, add_left_comm]

variable [DecidableEq κ]

/-- The table after an act, when the act is on an open handle. The same handle may be given
out again while it is open, and then it stands in the table twice. -/
def next (table : Multiset κ) : Act κ → Option (Multiset κ)
  | .opens k => some (k ::ₘ table)
  | .uses k => if k ∈ table then some table else none
  | .closes k => if k ∈ table then some (table.erase k) else none

/-- The acts turn one table into another, and each is on an open handle. -/
def Turns (acts : List (Act κ)) (before after : Multiset κ) : Prop :=
  run next before acts = some after

theorem turns_nil (table : Multiset κ) : Turns [] table table := rfl

theorem turns_opens (k : κ) (table : Multiset κ) : Turns [.opens k] table (k ::ₘ table) := rfl

theorem turns_uses {k : κ} {table : Multiset κ} (h : k ∈ table) : Turns [.uses k] table table := by
  simp [Turns, run, next, h]

theorem turns_closes (k : κ) (table : Multiset κ) : Turns [.closes k] (k ::ₘ table) table := by
  simp [Turns, run, next]

theorem Turns.append {acts more : List (Act κ)} {s t u : Multiset κ} (h : Turns acts s t)
    (h' : Turns more t u) : Turns (acts ++ more) s u := by
  unfold Turns at *
  rw [run_append, h]
  exact h'

theorem next_frame {table after : Multiset κ} {a : Act κ} (h : next table a = some after)
    (others : Multiset κ) : next (table + others) a = some (after + others) := by
  cases a with
  | opens k =>
    cases h
    rw [next, Multiset.cons_add]
  | uses k =>
    simp only [next] at h
    split_ifs at h with hk
    cases h
    rw [next, if_pos (Multiset.mem_add.mpr (Or.inl hk))]
  | closes k =>
    simp only [next] at h
    split_ifs at h with hk
    cases h
    rw [next, if_pos (Multiset.mem_add.mpr (Or.inl hk)), Multiset.erase_add_left_pos _ hk]

/-- Beside handles of others a program does what it does alone. -/
theorem Turns.frame {acts : List (Act κ)} {before after : Multiset κ}
    (h : Turns acts before after) (others : Multiset κ) :
    Turns acts (before + others) (after + others) := by
  unfold Turns at *
  induction acts generalizing before with
  | nil =>
    cases h
    rfl
  | cons a rest ih =>
    simp only [run, Option.bind_eq_some_iff] at h ⊢
    obtain ⟨t, ht, hrest⟩ := h
    exact ⟨t + others, next_frame ht others, ih hrest⟩

end handles
