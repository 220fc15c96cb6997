-- Runs of a machine whose actions can be disabled: the rule of induction over a
-- run, and the rule of invariants. A run may have a side condition, which each
-- action meets in the state in which it is taken. Actions may be put into a run, and a
-- part of the machine may run by itself.
import Mathlib

namespace runs

variable {σ α : Type*} (step : σ → α → Option σ)

/-- The state after the actions, or `none` when one of them is not enabled. -/
def run (s : σ) : List α → Option σ
  | [] => some s
  | a :: rest => (step s a).bind (fun t => run t rest)

/-- Each action meets `ok` in the state in which the run takes it. -/
def Meets (ok : σ → α → Prop) (s : σ) : List α → Prop
  | [] => True
  | a :: rest => ok s a ∧ ∀ t, step s a = some t → Meets ok t rest

@[simp] theorem run_nil (s : σ) : run step s [] = some s := rfl

theorem run_append (s : σ) (as bs : List α) :
    run step s (as ++ bs) = (run step s as).bind (fun t => run step t bs) := by
  induction as generalizing s with
  | nil => rfl
  | cons a rest ih =>
    simp only [List.cons_append, run]
    rcases step s a with _ | t
    · rfl
    · exact ih t

/-- The last action of a run, and the state before it. -/
theorem run_snoc {s u : σ} {as : List α} {a : α} (h : run step s (as ++ [a]) = some u) :
    ∃ t, run step s as = some t ∧ step t a = some u := by
  rw [run_append] at h
  obtain ⟨t, ht, hu⟩ := Option.bind_eq_some_iff.mp h
  refine ⟨t, ht, ?_⟩
  simp only [run, Option.bind_eq_some_iff, Option.some.injEq, exists_eq_right] at hu
  exact hu

theorem meets_snoc {ok : σ → α → Prop} {s t : σ} {as : List α} {a : α}
    (h : Meets step ok s (as ++ [a])) (ht : run step s as = some t) :
    Meets step ok s as ∧ ok t a := by
  induction as generalizing s with
  | nil =>
    cases ht
    exact ⟨trivial, h.1⟩
  | cons b rest ih =>
    obtain ⟨hb, hrest⟩ := h
    simp only [run, Option.bind_eq_some_iff] at ht
    obtain ⟨u, hu, hut⟩ := ht
    obtain ⟨h1, h2⟩ := ih (hrest u hu) hut
    refine ⟨⟨hb, ?_⟩, h2⟩
    intro v hv
    rw [hu] at hv
    cases hv
    exact h1

/-- A condition on the actions alone. -/
theorem meets_of_forall {ok : α → Prop} (s : σ) (as : List α) (h : ∀ a ∈ as, ok a) :
    Meets step (fun _ => ok) s as := by
  induction as generalizing s with
  | nil => trivial
  | cons a rest ih =>
    exact ⟨h a (by simp), fun t _ => ih t (fun b hb => h b (by simp [hb]))⟩

theorem Meets.and {ok ok' : σ → α → Prop} {s : σ} {as : List α} (h : Meets step ok s as)
    (h' : Meets step ok' s as) : Meets step (fun t a => ok t a ∧ ok' t a) s as := by
  induction as generalizing s with
  | nil => trivial
  | cons a rest ih => exact ⟨⟨h.1, h'.1⟩, fun t ht => ih (h.2 t ht) (h'.2 t ht)⟩

theorem meets_cons {ok : σ → α → Prop} {s t : σ} {a : α} (h : step s a = some t) (as : List α) :
    Meets step ok s (a :: as) ↔ ok s a ∧ Meets step ok t as := by
  refine and_congr_right fun _ => ⟨fun hall => hall t h, fun ht u hu => ?_⟩
  cases h.symm.trans hu
  exact ht

theorem meets_and {ok ok' : σ → α → Prop} {s : σ} {as : List α} :
    Meets step (fun t a => ok t a ∧ ok' t a) s as ↔ Meets step ok s as ∧ Meets step ok' s as := by
  constructor
  · intro h
    induction as generalizing s with
    | nil => exact ⟨trivial, trivial⟩
    | cons a rest ih =>
      exact ⟨⟨h.1.1, fun t ht => (ih (h.2 t ht)).1⟩, ⟨h.1.2, fun t ht => (ih (h.2 t ht)).2⟩⟩
  · exact fun h => Meets.and step h.1 h.2

/-- A side condition may be exchanged for one that it implies in every state of a run. -/
theorem Meets.imp {I : σ → Prop} {ok ok' : σ → α → Prop} {s : σ} {as : List α} (h0 : I s)
    (hI : ∀ t a u, I t → step t a = some u → I u)
    (himp : ∀ t, ∀ a ∈ as, I t → ok t a → ok' t a) (h : Meets step ok s as) :
    Meets step ok' s as := by
  induction as generalizing s with
  | nil => trivial
  | cons a rest ih =>
    obtain ⟨ha, hrest⟩ := h
    refine ⟨himp s a List.mem_cons_self h0 ha, ?_⟩
    intro t ht
    exact ih (hI s a t h0 ht) (fun x b hb => himp x b (List.mem_cons_of_mem a hb)) (hrest t ht)

theorem Meets.of_append {ok : σ → α → Prop} {s : σ} {as bs : List α}
    (h : Meets step ok s (as ++ bs)) : Meets step ok s as := by
  induction as generalizing s with
  | nil => trivial
  | cons a rest ih => exact ⟨h.1, fun t ht => ih (h.2 t ht)⟩

/-- A fact about the actions so far and the state holds after every run, when it
holds at the start and each step of a run carries it on. -/
theorem run_induction {ok : σ → α → Prop} {P : List α → σ → Prop} {s : σ} (h0 : P [] s)
    (hstep : ∀ as t a u, P as t → ok t a → step t a = some u → P (as ++ [a]) u)
    {as : List α} {u : σ} (hok : Meets step ok s as) (h : run step s as = some u) : P as u := by
  induction as using List.reverseRecOn generalizing u with
  | nil =>
    cases h
    exact h0
  | append_singleton as a ih =>
    obtain ⟨t, ht, hu⟩ := run_snoc step h
    obtain ⟨h1, h2⟩ := meets_snoc step hok ht
    exact hstep as t a u (ih h1 ht) h2 hu

/-- What each step keeps, every run keeps. -/
theorem run_invariant {P : σ → Prop} {s : σ} (h0 : P s)
    (hstep : ∀ t a u, P t → step t a = some u → P u) {as : List α} {u : σ}
    (h : run step s as = some u) : P u := by
  have hok : Meets step (fun _ _ => True) s as := meets_of_forall step s as (fun _ _ => trivial)
  exact run_induction step (P := fun _ => P) h0 (fun _ t a u hP _ => hstep t a u hP) hok h

/-- What the side condition says of each action that a run takes. -/
theorem forall_of_run {ok : σ → α → Prop} {I : σ → Prop} {Q : α → Prop} {s u : σ} {as : List α}
    (h0 : I s) (hI : ∀ t a u, I t → step t a = some u → I u)
    (hQ : ∀ t a u, I t → ok t a → step t a = some u → Q a) (hok : Meets step ok s as)
    (h : run step s as = some u) : ∀ a ∈ as, Q a := by
  refine (run_induction step (P := fun as t => I t ∧ ∀ a ∈ as, Q a) ⟨h0, ?_⟩ ?_ hok h).2
  · intro a ha
    cases ha
  · rintro as t a u ⟨ht, has⟩ ha hu
    refine ⟨hI t a u ht hu, ?_⟩
    intro b hb
    rcases List.mem_append.mp hb with hb | hb
    · exact has b hb
    · rw [List.mem_singleton.mp hb]
      exact hQ t a u ht ha hu

/-- A run that breaks its side condition does so at a first step, after a part of
the run that meets it. -/
theorem exists_first_of_not_meets {ok : σ → α → Prop} {s u : σ} {as : List α}
    (h : run step s as = some u) (hnot : ¬ Meets step ok s as) :
    ∃ pre a post t v, as = pre ++ a :: post ∧ Meets step ok s pre ∧
      run step s pre = some t ∧ ¬ ok t a ∧ step t a = some v ∧ run step v post = some u := by
  induction as generalizing s with
  | nil => exact absurd trivial hnot
  | cons a rest ih =>
    simp only [run, Option.bind_eq_some_iff] at h
    obtain ⟨t, ht, hrun⟩ := h
    by_cases ha : ok s a
    · have hrest : ¬ Meets step ok t rest := by
        intro hm
        apply hnot
        refine ⟨ha, ?_⟩
        intro v hv
        rw [ht] at hv
        cases hv
        exact hm
      obtain ⟨pre, b, post, x, v, rfl, hpre, hx, hb, hv, hpost⟩ := ih hrun hrest
      refine ⟨a :: pre, b, post, x, v, rfl, ⟨ha, ?_⟩, ?_, hb, hv, hpost⟩
      · intro w hw
        rw [ht] at hw
        cases hw
        exact hpre
      · simp [run, ht, hx]
    · exact ⟨[], a, rest, s, t, rfl, trivial, rfl, ha, ht, hrun⟩

/-- A property that a step keeps when it meets the side condition, and breaks when it does
not, holds all along a run exactly when the run meets the condition. `J` holds anyway. -/
theorem forall_iff_meets {ok : σ → α → Prop} {J I : σ → Prop} {s : σ} (hJ0 : J s) (h0 : I s)
    (hJ : ∀ t a u, J t → step t a = some u → J u)
    (hkeep : ∀ t a u, J t → I t → ok t a → step t a = some u → I u)
    (hbreak : ∀ t a u, J t → I t → ¬ ok t a → step t a = some u → ¬ I u)
    {as : List α} {u : σ} (h : run step s as = some u) :
    (∀ before behind t, as = before ++ behind → run step s before = some t → I t) ↔
      Meets step ok s as := by
  constructor
  · intro hall
    by_contra hnot
    obtain ⟨pre, a, post, t, v, rfl, hpre, ht, ha, hv, _⟩ := exists_first_of_not_meets step h hnot
    have hrun : run step s (pre ++ [a]) = some v := by simp [run_append, ht, run, hv]
    apply hbreak t a v (run_invariant step hJ0 hJ ht) (hall pre (a :: post) t rfl ht) ha hv
    exact hall (pre ++ [a]) post v (by simp) hrun
  · rintro hok before behind t rfl ht
    refine (run_induction step (P := fun _ t => J t ∧ I t) ⟨hJ0, h0⟩ ?_ hok.of_append ht).2
    rintro _ t a v ⟨hJt, hIt⟩ ha hv
    exact ⟨hJ t a v hJt hv, hkeep t a v hJt hIt ha hv⟩

/-! ## Actions that are put in between

The actions of a list with `true` are put into the run of the others. -/

/-- The run without the actions that are put in. -/
def kept (marked : List (α × Bool)) : List α := (marked.filter (fun p => !p.2)).map Prod.fst

/-- The step of a marked action. -/
def marking (s : σ) (p : α × Bool) : Option σ := step s p.1

theorem run_marking (s : σ) (marked : List (α × Bool)) :
    run (marking step) s marked = run step s (marked.map Prod.fst) := by
  induction marked generalizing s with
  | nil => rfl
  | cons p marked ih => simp only [List.map_cons, run, marking, ih]

/-- Actions that a relation does not see can be put into a run: the run that has them
keeps to the one that has not. -/
theorem run_kept {R : σ → σ → Prop} {ok : σ → α → Prop}
    (hstep : ∀ s t a s', R s t → step s a = some s' → ∃ t', step t a = some t' ∧ R s' t')
    (hput : ∀ s t a, R s t → ok t a → ∃ t', step t a = some t' ∧ R s t')
    {marked : List (α × Bool)} {s t u : σ} (h : R s t)
    (hok : Meets (marking step) (fun x p => p.2 = true → ok x p.1) t marked)
    (hrun : run step s (kept marked) = some u) :
    ∃ v, run step t (marked.map Prod.fst) = some v ∧ R u v := by
  induction marked generalizing s t with
  | nil =>
    cases hrun
    exact ⟨t, rfl, h⟩
  | cons p marked ih =>
    obtain ⟨a, put⟩ := p
    obtain ⟨ha, hrest⟩ := hok
    cases put with
    | false =>
      have hcons : kept ((a, false) :: marked) = a :: kept marked := rfl
      rw [hcons] at hrun
      simp only [run, Option.bind_eq_some_iff] at hrun
      obtain ⟨s', hs', hrun⟩ := hrun
      obtain ⟨t', ht', hR⟩ := hstep s t a s' h hs'
      obtain ⟨v, hv, huv⟩ := ih hR (hrest t' ht') hrun
      exact ⟨v, by simp [run, ht', hv], huv⟩
    | true =>
      have hcons : kept ((a, true) :: marked) = kept marked := rfl
      rw [hcons] at hrun
      obtain ⟨t', ht', hR⟩ := hput s t a h (ha rfl)
      obtain ⟨v, hv, huv⟩ := ih hR (hrest t' ht') hrun
      exact ⟨v, by simp [run, ht', hv], huv⟩

/-! ## Parts of a machine

When a part takes actions of its own in each step, what a run puts out for it is a run of
that part by itself. The part may come into being during the run. -/

variable {τ β : Type*}

/-- What each step of a run puts out, one after the other. -/
def outputs (out : σ → α → σ → List β) (s : σ) : List α → List β
  | [] => []
  | a :: rest =>
    match step s a with
    | none => []
    | some t => out s a t ++ outputs out t rest

theorem outputs_cons (out : σ → α → σ → List β) {s t : σ} {a : α} (h : step s a = some t)
    (rest : List α) : outputs step out s (a :: rest) = out s a t ++ outputs step out t rest := by
  rw [outputs, h]

variable (alone : τ → β → Option τ) (own : σ → α → σ → List β) (part : σ → Option τ)
  {I : σ → Prop} {ok : σ → α → Prop}

/-- What the part does in a run of the machine, it can do by itself. -/
theorem run_part (hI : ∀ s a t, I s → step s a = some t → I t)
    (hstep : ∀ s a t x, I s → ok s a → step s a = some t → part s = some x →
      ∃ y, part t = some y ∧ run alone x (own s a t) = some y)
    {as : List α} {s u : σ} {x : τ} (hs : I s) (hok : Meets step ok s as)
    (hrun : run step s as = some u) (hx : part s = some x) :
    ∃ y, part u = some y ∧ run alone x (outputs step own s as) = some y := by
  induction as generalizing s x with
  | nil =>
    cases hrun
    exact ⟨x, hx, rfl⟩
  | cons a rest ih =>
    simp only [run, Option.bind_eq_some_iff] at hrun
    obtain ⟨t, ht, hrun⟩ := hrun
    obtain ⟨y, hy, hfirst⟩ := hstep s a t x hs hok.1 ht hx
    obtain ⟨z, hz, hrest⟩ := ih (hI s a t hs ht) (hok.2 t ht) hrun hy
    refine ⟨z, hz, ?_⟩
    rw [outputs_cons step own ht, run_append, hfirst]
    exact hrest

/-- A part that was not there at first runs by itself from where it came into being. -/
theorem run_part_of_born {Born : τ → Prop} (hI : ∀ s a t, I s → step s a = some t → I t)
    (hstep : ∀ s a t x, I s → ok s a → step s a = some t → part s = some x →
      ∃ y, part t = some y ∧ run alone x (own s a t) = some y)
    (hborn : ∀ s a t, step s a = some t → part s = none →
      own s a t = [] ∧ ∀ y, part t = some y → Born y)
    {as : List α} {s u : σ} {y : τ} (hs : I s) (hok : Meets step ok s as)
    (hrun : run step s as = some u) (hnone : part s = none) (hy : part u = some y) :
    ∃ x, Born x ∧ run alone x (outputs step own s as) = some y := by
  induction as generalizing s with
  | nil =>
    cases hrun
    rw [hnone] at hy
    cases hy
  | cons a rest ih =>
    simp only [run, Option.bind_eq_some_iff] at hrun
    obtain ⟨t, ht, hrun⟩ := hrun
    obtain ⟨hempty, hnew⟩ := hborn s a t ht hnone
    rw [outputs_cons step own ht, hempty, List.nil_append]
    cases ht' : part t with
    | none => exact ih (hI s a t hs ht) (hok.2 t ht) hrun ht'
    | some x =>
      obtain ⟨z, hz, hrest⟩ :=
        run_part step alone own part hI hstep (hI s a t hs ht) (hok.2 t ht) hrun ht'
      rw [hz] at hy
      cases hy
      exact ⟨x, hnew x ht', hrest⟩

end runs
