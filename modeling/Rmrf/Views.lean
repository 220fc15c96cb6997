-- The tree of views. A view asks for the pointer to itself in its constructor, before any
-- `shared_ptr` owns it, and in its destructor, after the last one has gone.
import Rmrf.Runs
import Rmrf.Handles
import Rmrf.Stateful

open runs stateful

namespace rmrf.ui

/-! ## The objects -/

/-- A view, and how many `shared_ptr`s own it. -/
structure View where
  parent_view : Option Nat
  child_views : List Nat
  use_count : Nat
deriving DecidableEq, Repr

/-- The views in the order of their construction, and `none` for those that are gone;
the `shared_ptr`s that the program has; and how many constructions have thrown. -/
structure Views where
  objects : List (Option View)
  handles : List Nat
  threw : Nat
deriving DecidableEq, Repr

/-- How a member function ends other than by a return. -/
inductive Ending
  | bad_weak_ptr
  | terminate
deriving DecidableEq, Repr

abbrev Method := EStateM Ending Views

namespace Views

def start : Views := ⟨[], [], 0⟩

def object (s : Views) (v : Nat) : Option View := s.objects[v]?.join

def put (s : Views) (v : Nat) (o : Option View) : Views :=
  { s with objects := s.objects.set v o }

def set_object (v : Nat) (o : Option View) : Method Unit := modify fun s => s.put v o

/-! ## The class -/

/-- `shared_from_this()` -/
def shared_from_this (v : Nat) : Method Nat := do
  match (← get).object v with
  | some o => if o.use_count = 0 then throw .bad_weak_ptr else return v
  | none => throw .bad_weak_ptr

/-- A copy of a `shared_ptr`. -/
def copy_ptr (v : Nat) : Method Unit := do
  match (← get).object v with
  | some o => set_object v (some { o with use_count := o.use_count + 1 })
  | none => pure ()

def add_child (p child : Nat) : Method Unit := do
  match (← get).object p with
  | some o =>
    set_object p (some { o with child_views := o.child_views ++ [child] })
    copy_ptr child
  | none => pure ()

/-- The end of a `shared_ptr`. The last one destroys the view: `~view`, whose exceptions
end the program, and then its members. Each call takes a `shared_ptr` away, so their number
is enough for `fuel`. -/
def drop_ptr : Nat → Nat → Method Unit
  | 0, _ => pure ()
  | fuel + 1, v => do
    match (← get).object v with
    | none => pure ()
    | some o =>
      if o.use_count = 1 then
        set_object v (some { o with child_views := [], use_count := 0 })
        o.child_views.forM (drop_ptr fuel)
        match o.parent_view with
        | some p =>
          let self ← tryCatch (shared_from_this v) fun _ => throw .terminate
          -- `remove_child`
          match (← get).object p with
          | some parent =>
            set_object p (some { parent with child_views := parent.child_views.filter (· ≠ self) })
            (parent.child_views.filter (· = self)).forM (drop_ptr fuel)
          | none => pure ()
          drop_ptr fuel p
        | none => pure ()
        set_object v none
      else
        set_object v (some { o with use_count := o.use_count - 1 })

/-- All `shared_ptr`s. -/
def pointers (s : Views) : Nat := (s.objects.map fun o => (o.map View.use_count).getD 0).sum

/-- `view(parent)` for a new object `v`, up to its end. The caller's `shared_ptr` owns it
after that. -/
def construct (v : Nat) : Option Nat → Method Unit
  | none => set_object v (some ⟨none, [], 0⟩)
  | some p => do
    copy_ptr p
    set_object v (some ⟨some p, [], 0⟩)
    add_child p (← shared_from_this v)

/-- A constructor that throws destroys the members. -/
def unwind (v : Nat) : Option Nat → Method Unit
  | none => set_object v none
  | some p => do
    drop_ptr ((← get).pointers + 1) p
    set_object v none

/-- A new place in memory. -/
def grow (s : Views) : Views := { s with objects := s.objects ++ [none] }

/-- What the program does: it makes a view for a `shared_ptr`, with or without a parent, it
copies a `shared_ptr` or gives one up. -/
inductive Step
  | construct (parent : Option Nat)
  | copy (v : Nat)
  | release (v : Nat)
deriving DecidableEq, Repr

/-- The views after a step, when it can be taken. A program that is terminated has none. -/
def next (s : Views) : Step → Option Views
  | .construct parent =>
    if parent.all fun p => (s.object p).isSome then
      let v := s.objects.length
      match construct v parent s.grow with
      | .ok _ s =>
        match copy_ptr v s with
        | .ok _ s => some { s with handles := v :: s.handles }
        | .error _ _ => none
      | .error _ s =>
        match unwind v parent s with
        | .ok _ s => some { s with threw := s.threw + 1 }
        | .error _ _ => none
    else none
  | .copy v =>
    if v ∈ s.handles then
      match copy_ptr v s with
      | .ok _ s => some { s with handles := v :: s.handles }
      | .error _ _ => none
    else none
  | .release v =>
    if v ∈ s.handles then
      match drop_ptr (s.pointers + 1) v { s with handles := s.handles.erase v } with
      | .ok _ s => some s
      | .error _ _ => none
    else none

/-- A view is in the list of its parent once, and in no other. -/
def LinksAgree (s : Views) : Prop :=
  ∀ p o, s.object p = some o → ∀ v,
    o.child_views.count v = if (s.object v).bind View.parent_view = some p then 1 else 0

/-! ## Views without links -/

/-- No view has a parent or children. -/
def Loose (o : View) : Prop := o.parent_view = none ∧ o.child_views = [] ∧ 0 < o.use_count

def Unlinked (s : Views) : Prop := ∀ v o, s.object v = some o → Loose o

theorem put_put (s : Views) (v : Nat) (o o' : Option View) : (s.put v o).put v o' = s.put v o' := by
  simp [put, List.set_set]

theorem put_comm (s : Views) {v w : Nat} (h : v ≠ w) (o o' : Option View) :
    (s.put v o).put w o' = (s.put w o').put v o := by
  simp [put, List.set_comm _ _ h]

/-- What is there already. -/
theorem put_object (s : Views) (v : Nat) : s.put v (s.object v) = s := by
  rw [put, object, slots.set_object]

theorem object_put_of_ne (s : Views) {v w : Nat} (h : w ≠ v) (o : Option View) :
    (s.put v o).object w = s.object w := slots.object_set_of_ne s.objects h o

theorem object_put_self {s : Views} {v : Nat} (h : v < s.objects.length) (o : Option View) :
    (s.put v o).object v = o := slots.object_set_self h o

theorem lt_of_object {s : Views} {v : Nat} {o : View} (h : s.object v = some o) :
    v < s.objects.length := slots.lt_of_object h

theorem Unlinked.put {s : Views} (h : s.Unlinked) (v : Nat) {o : Option View}
    (ho : ∀ o', o = some o' → Loose o') : (s.put v o).Unlinked := by
  intro w o' hw
  by_cases hwv : w = v
  · subst hwv
    have hlt : w < s.objects.length := by
      have hlt := lt_of_object hw
      simpa [Views.put] using hlt
    exact ho o' ((object_put_self hlt o).symm.trans hw)
  · exact h w o' ((object_put_of_ne s hwv o).symm.trans hw)

theorem linksAgree_of_unlinked {s : Views} (h : s.Unlinked) : s.LinksAgree := by
  intro p o hp v
  have hparent : (s.object v).bind View.parent_view ≠ some p := by
    intro hv
    obtain ⟨o', ho', hview⟩ := Option.bind_eq_some_iff.mp hv
    rw [(h v o' ho').1] at hview
    cases hview
  rw [(h p o hp).2.1, if_neg hparent]
  rfl

/-! ## The functions on views without links -/

theorem set_object_eq (v : Nat) (o : Option View) (s : Views) :
    set_object v o s = .ok () (s.put v o) := modify_eq _ s

theorem copy_ptr_eq {s : Views} {v : Nat} {o : View} (h : s.object v = some o) :
    copy_ptr v s = .ok () (s.put v (some { o with use_count := o.use_count + 1 })) := by
  rw [copy_ptr, get_bind, h]
  exact set_object_eq v _ s

theorem copy_ptr_of_none {s : Views} {v : Nat} (h : s.object v = none) :
    copy_ptr v s = .ok () s := by
  rw [copy_ptr, get_bind, h]
  rfl

theorem drop_ptr_eq {s : Views} {v : Nat} {o : View} (h : s.object v = some o) (ho : Loose o)
    (fuel : Nat) :
    drop_ptr (fuel + 1) v s = .ok () (s.put v
      (if o.use_count = 1 then none else some { o with use_count := o.use_count - 1 })) := by
  rw [drop_ptr, get_bind, h]
  by_cases hone : o.use_count = 1
  · simp only [if_pos hone, ho.1, ho.2.1]
    rw [bind_ok (set_object_eq v _ s)]
    show set_object v none (s.put v _) = _
    rw [set_object_eq, put_put]
  · simp only [if_neg hone]
    exact set_object_eq v _ s

theorem drop_ptr_of_none {s : Views} {v : Nat} (h : s.object v = none) (fuel : Nat) :
    drop_ptr (fuel + 1) v s = .ok () s := by
  rw [drop_ptr, get_bind, h]
  rfl

theorem shared_from_this_of_unowned {s : Views} {v : Nat} {o : View} (h : s.object v = some o)
    (hzero : o.use_count = 0) : shared_from_this v s = .error .bad_weak_ptr s := by
  rw [shared_from_this, get_bind, h]
  simp only [if_pos hzero]
  exact throw_eq _ s

/-- A construction with a parent asks for the pointer to the new view too early. -/
theorem construct_some {s : Views} {v p : Nat} {o : View} (hp : s.object p = some o)
    (hv : v < s.objects.length) :
    construct v (some p) s = .error .bad_weak_ptr
      ((s.put p (some { o with use_count := o.use_count + 1 })).put v (some ⟨some p, [], 0⟩)) := by
  have hnew : ((s.put p (some { o with use_count := o.use_count + 1 })).put v
      (some ⟨some p, [], 0⟩)).object v = some ⟨some p, [], 0⟩ :=
    object_put_self (by simpa [put] using hv) _
  have hcopy : copy_ptr p s = .ok () (s.put p (some { o with use_count := o.use_count + 1 })) :=
    copy_ptr_eq hp
  rw [construct, bind_ok hcopy, bind_ok (set_object_eq v _ _)]
  exact bind_error (shared_from_this_of_unowned hnew rfl) _

/-- The new view is gone again, and its copy of the parent's pointer. -/
theorem unwind_some {s : Views} {v p : Nat} {o : View} (hp : s.object p = some o) (ho : Loose o) :
    unwind v (some p) s = .ok () ((s.put p
      (if o.use_count = 1 then none else some { o with use_count := o.use_count - 1 })).put v
        none) := by
  rw [unwind, get_bind, bind_ok (drop_ptr_eq hp ho s.pointers)]
  exact set_object_eq v none _

/-! ## The steps -/

theorem object_length (s : Views) : s.object s.objects.length = none :=
  slots.object_length s.objects

theorem object_grow (s : Views) (v : Nat) : s.grow.object v = s.object v := by
  rw [object, grow, slots.object_append]
  split_ifs with hv
  · rw [hv, object_length]
  · rfl

theorem Unlinked.grow {s : Views} (h : s.Unlinked) : s.grow.Unlinked :=
  fun v o hv => h v o ((object_grow s v).symm.trans hv)

/-- A copy of the pointer to a loose view. -/
theorem Loose.copy {o : View} (h : Loose o) : Loose { o with use_count := o.use_count + 1 } :=
  ⟨h.1, h.2.1, Nat.succ_pos _⟩

/-- What the end of a pointer leaves of a loose view. -/
theorem Loose.drop {o o' : View} (h : Loose o)
    (hdrop : (if o.use_count = 1 then none else some { o with use_count := o.use_count - 1 }) =
      some o') : Loose o' := by
  split_ifs at hdrop with hone
  cases hdrop
  refine ⟨h.1, h.2.1, ?_⟩
  have hpos := h.2.2
  show 0 < o.use_count - 1
  omega

/-- A view without a parent has the pointer that the program gets. -/
theorem next_construct_none (s : Views) :
    s.next (.construct none) = some { s.grow.put s.objects.length (some ⟨none, [], 1⟩) with
      handles := s.objects.length :: s.handles } := by
  have hlt : s.objects.length < s.grow.objects.length := by simp [grow]
  have hcopy := copy_ptr_eq (object_put_self hlt (some ⟨none, [], 0⟩))
  rw [put_put] at hcopy
  simp only [next, Option.all_none, if_true]
  have hnew : construct s.objects.length none s.grow =
      .ok () (s.grow.put s.objects.length (some ⟨none, [], 0⟩)) := rfl
  rw [hnew]
  simp only [hcopy]
  rfl

/-- A view with a parent is not made, and all others are as before. -/
theorem next_construct_some {s : Views} (h : s.Unlinked) {p : Nat} {o : View}
    (hp : s.object p = some o) :
    s.next (.construct (some p)) = some { s.grow with threw := s.threw + 1 } := by
  have hlt : s.objects.length < s.grow.objects.length := by simp [grow]
  have hne : s.objects.length ≠ p := Nat.ne_of_gt (lt_of_object hp)
  have hgrow : s.grow.object p = some o := (object_grow s p).trans hp
  have hthrow := construct_some hgrow hlt
  have hparent : ((s.grow.put p (some { o with use_count := o.use_count + 1 })).put
      s.objects.length (some ⟨some p, [], 0⟩)).object p =
        some { o with use_count := o.use_count + 1 } := by
    rw [object_put_of_ne _ hne.symm]
    exact object_put_self (lt_of_object hgrow) _
  have hunwind := unwind_some hparent (h p o hp).copy (v := s.objects.length)
  have hpos : o.use_count + 1 ≠ 1 := Nat.ne_of_gt (Nat.succ_lt_succ (h p o hp).2.2)
  have hempty : s.grow.object s.objects.length = none :=
    (object_grow s _).trans (object_length s)
  rw [if_neg hpos, put_comm _ hne, put_put, put_put, Nat.add_sub_cancel, ← hgrow, put_object,
    ← hempty, put_object] at hunwind
  simp only [next, Option.all_some, hp, Option.isSome_some, if_true, hthrow, hunwind]
  rfl

theorem next_copy {s t : Views} (h : s.Unlinked) {v : Nat} (ht : s.next (.copy v) = some t) :
    t.Unlinked ∧ t.threw = s.threw := by
  simp only [next] at ht
  split_ifs at ht
  rcases hv : s.object v with _ | o
  · rw [copy_ptr_of_none hv] at ht
    cases ht
    exact ⟨h, rfl⟩
  · rw [copy_ptr_eq hv] at ht
    cases ht
    refine ⟨?_, rfl⟩
    apply h.put v
    intro o' ho'
    cases ho'
    exact (h v o hv).copy

theorem next_release {s t : Views} (h : s.Unlinked) {v : Nat}
    (ht : s.next (.release v) = some t) : t.Unlinked ∧ t.threw = s.threw := by
  simp only [next] at ht
  split_ifs at ht
  rcases hv : s.object v with _ | o
  · have hdrop := drop_ptr_of_none (s := { s with handles := s.handles.erase v }) hv s.pointers
    rw [hdrop] at ht
    cases ht
    exact ⟨h, rfl⟩
  · have hdrop := drop_ptr_eq (s := { s with handles := s.handles.erase v }) hv (h v o hv)
      s.pointers
    rw [hdrop] at ht
    cases ht
    exact ⟨h.put v (fun _ => (h v o hv).drop), rfl⟩

/-- The step constructs a view with a parent. -/
def GivesParent : Step → Prop
  | .construct (some _) => True
  | _ => False

/-- Views stay without links, and a construction with a parent throws. -/
theorem unlinked_next {s t : Views} {a : Step} (h : s.Unlinked) (ht : s.next a = some t) :
    t.Unlinked ∧ (GivesParent a → t.threw = s.threw + 1) ∧
      (¬ GivesParent a → t.threw = s.threw) := by
  cases a with
  | construct parent =>
    cases parent with
    | none =>
      rw [next_construct_none] at ht
      cases ht
      refine ⟨?_, fun hp => hp.elim, fun _ => rfl⟩
      apply h.grow.put
      intro o' ho'
      cases ho'
      exact ⟨rfl, rfl, Nat.one_pos⟩
    | some p =>
      rcases hp : s.object p with _ | o
      · simp [next, hp] at ht
      · rw [next_construct_some h hp] at ht
        cases ht
        exact ⟨h.grow, fun _ => rfl, fun hnot => absurd trivial hnot⟩
  | copy v =>
    obtain ⟨hloose, hthrew⟩ := next_copy h ht
    exact ⟨hloose, fun hp => hp.elim, fun _ => hthrew⟩
  | release v =>
    obtain ⟨hloose, hthrew⟩ := next_release h ht
    exact ⟨hloose, fun hp => hp.elim, fun _ => hthrew⟩

/-! ## The law -/

theorem unlinked_start : start.Unlinked := by
  intro v o hv
  cases hv

/-- Every construction succeeds, and the links agree, all along a run exactly when the run
gives no view a parent. -/
theorem views_are_made_and_agree_only_without_parents {s : Views} {steps : List Step}
    (h : run next start steps = some s) :
    (∀ before behind t, steps = before ++ behind → run next start before = some t →
      t.threw = 0 ∧ t.LinksAgree) ↔ ∀ a ∈ steps, ¬ GivesParent a := by
  have hJ : ∀ t a u, Unlinked t → next t a = some u → Unlinked u :=
    fun _ _ _ hloose hu => (unlinked_next hloose hu).1
  trans Meets next (fun _ a => ¬ GivesParent a) start steps
  · apply forall_iff_meets next (J := Unlinked) unlinked_start
      ⟨rfl, linksAgree_of_unlinked unlinked_start⟩ hJ _ _ h
    · rintro t a u hloose ⟨hthrew, _⟩ ha hu
      obtain ⟨hkept, _, hsame⟩ := unlinked_next hloose hu
      exact ⟨(hsame ha).trans hthrew, linksAgree_of_unlinked hkept⟩
    · rintro t a u hloose _ ha hu ⟨hthrew, _⟩
      obtain ⟨_, hmore, _⟩ := unlinked_next hloose hu
      rw [hmore (not_not.mp ha)] at hthrew
      cases hthrew
  · constructor
    · intro hok
      exact forall_of_run next unlinked_start hJ (fun _ _ _ _ ha _ => ha) hok h
    · exact meets_of_forall next start steps

/-- The first view with a parent is not made. -/
theorem a_child_is_not_made :
    ∃ s, run next start [.construct none, .construct (some 0)] = some s ∧ s.threw = 1 ∧
      s.objects = [some ⟨none, [], 1⟩, none] :=
  ⟨_, rfl, rfl, rfl⟩

/-- Views of their own come and go. -/
theorem single_views_are_made :
    let steps : List Step := [.construct none, .copy 0, .construct none, .release 0, .release 0]
    ∀ before behind t, steps = before ++ behind → run next start before = some t →
      t.threw = 0 ∧ t.LinksAgree := by
  intro steps
  obtain ⟨s, hs⟩ : ∃ s, run next start steps = some s := ⟨_, rfl⟩
  apply (views_are_made_and_agree_only_without_parents hs).mpr
  simp [steps, GivesParent]

end Views

end rmrf.ui
