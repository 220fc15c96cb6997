-- The owners of file descriptors: the class `auto_fd`, and runs of a program with any
-- number of its objects. What the objects do to descriptors is what owners do to their
-- resources.
import Rmrf.Ownership
import Rmrf.Handles
import Rmrf.Runs

open ownership runs

namespace rmrf.net

/-! ## The class -/

/-- `fd` is the member `_fd`. -/
structure AutoFd where
  fd : Int
deriving DecidableEq, Repr

namespace AutoFd

/-- `auto_fd(nullfd)` -/
def null : AutoFd := ⟨-1⟩

/-- The descriptor that is given out, and what is left. -/
def release (a : AutoFd) : Int × AutoFd := (a.fd, ⟨-1⟩)

/-- The descriptors that `::close` is called for, and the object afterwards. -/
def close (a : AutoFd) : List Int × AutoFd := if a.fd ≥ 0 then ([a.fd], ⟨-1⟩) else ([], a)

/-- `reset(fd)`. Without an argument `fd` is -1. -/
def reset (a : AutoFd) (fd : Int) : List Int × AutoFd :=
  let (closed, _) := if a.fd ≥ 0 then a.close else ([], a)
  (closed, ⟨fd⟩)

/-- What an object has to close. -/
def held (a : AutoFd) : Option Int := if a.fd ≥ 0 then some a.fd else none

theorem close_fst (a : AutoFd) : a.close.1 = a.held.toList := by
  unfold close held
  split <;> rfl

theorem close_held (a : AutoFd) : a.close.2.held = none := by
  unfold close
  split_ifs with h
  · rfl
  · exact if_neg h

theorem reset_eq (a : AutoFd) (fd : Int) : a.reset fd = (a.held.toList, ⟨fd⟩) := by
  by_cases h : a.fd ≥ 0
  · simp [reset, close, held, h]
  · simp [reset, held, h]

end AutoFd

/-! ## The objects of a program -/

/-- The objects in the order of their construction, and `none` for those that are
destroyed. The trace has the descriptors that are handed in, the calls of `::close` and the
descriptors that `release` gives back. -/
structure Descriptors where
  objects : List (Option AutoFd)
  trace : List (Event Nat Int)
deriving DecidableEq, Repr

namespace Descriptors

def start : Descriptors := ⟨[], []⟩

def object (s : Descriptors) (x : Nat) : Option AutoFd := s.objects[x]?.join

/-- An object that comes into being. -/
def add (s : Descriptors) (a : AutoFd) (events : List (Event Nat Int)) : Descriptors :=
  ⟨s.objects ++ [some a], s.trace ++ events⟩

/-- An object that changes, or is destroyed. -/
def put (s : Descriptors) (x : Nat) (a : Option AutoFd) (events : List (Event Nat Int)) :
    Descriptors :=
  ⟨s.objects.set x a, s.trace ++ events⟩

/-- The calls `::close(fd)` that an object makes. -/
def closings (x : Nat) (closed : List Int) : List (Event Nat Int) := closed.map (.closed x)

inductive Step
  | construct
  | construct_fd (fd : Int)
  | construct_move (other : Nat)
  | assign_move (x other : Nat)
  | release (x : Nat)
  | close (x : Nat)
  | reset (x : Nat)
  | reset_fd (x : Nat) (fd : Int)
  | destroy (x : Nat)
deriving DecidableEq, Repr

/-- A descriptor that may be handed in: no object holds it. -/
def Unheld (s : Descriptors) (fd : Int) : Prop :=
  fd ≥ 0 ∧ ∀ a ∈ s.objects, a.map AutoFd.fd ≠ some fd

instance (s : Descriptors) (fd : Int) : Decidable (s.Unheld fd) :=
  inferInstanceAs (Decidable (_ ∧ _))

/-- The program after a step, when it can be taken. -/
def next (s : Descriptors) : Step → Option Descriptors
  | .construct => some (s.add AutoFd.null [])
  | .construct_fd fd => if s.Unheld fd then some (s.add ⟨fd⟩ [.taken fd]) else none
  | .construct_move other => do
    let (fd, left) := (← s.object other).release
    some ((s.put other left []).add ⟨fd⟩ [])
  | .assign_move x other => do
    -- the argument `fd.release()` is evaluated before `reset` runs
    let (fd, left) := (← s.object other).release
    let s := s.put other left []
    let (closed, a) := (← s.object x).reset fd
    some (s.put x a (closings x closed))
  | .release x => do
    let (fd, a) := (← s.object x).release
    some (s.put x a (if fd ≥ 0 then [.returned fd] else []))
  | .close x => do
    let (closed, a) := (← s.object x).close
    some (s.put x a (closings x closed))
  | .reset x => do
    let (closed, a) := (← s.object x).reset (-1)
    some (s.put x a (closings x closed))
  | .reset_fd x fd => do
    let (closed, a) := (← s.object x).reset fd
    if s.Unheld fd then some (s.put x a (closings x closed ++ [.taken fd])) else none
  | .destroy x => do
    let (closed, _) := (← s.object x).reset (-1)
    some (s.put x none (closings x closed))

/-! ## The objects as owners -/

def holds (s : Descriptors) (x : Nat) : Option Int := (s.object x).bind AutoFd.held

def ledger (s : Descriptors) : Ledger Nat Int := ⟨s.holds, s.trace⟩

theorem holds_of_object {s : Descriptors} {x : Nat} {a : AutoFd} (h : s.object x = some a) :
    s.holds x = a.held := by
  rw [holds, h, Option.bind_some]

theorem object_put_self {s : Descriptors} {x : Nat} {b : AutoFd} (h : s.object x = some b)
    (a : Option AutoFd) (events : List (Event Nat Int)) : (s.put x a events).object x = a :=
  slots.object_set_self (slots.lt_of_object h) a

theorem object_put_of_ne (s : Descriptors) {x y : Nat} (h : y ≠ x) (a : Option AutoFd)
    (events : List (Event Nat Int)) : (s.put x a events).object y = s.object y :=
  slots.object_set_of_ne s.objects h a

theorem holds_put {s : Descriptors} {x : Nat} {b : AutoFd} (h : s.object x = some b)
    (a : Option AutoFd) (events : List (Event Nat Int)) :
    (s.put x a events).holds = Function.update s.holds x (a.bind AutoFd.held) := by
  funext y
  by_cases hyx : y = x
  · subst hyx
    rw [holds, object_put_self h, Function.update_self]
  · rw [holds, object_put_of_ne s hyx, Function.update_of_ne hyx, holds]

theorem holds_length (s : Descriptors) : s.holds s.objects.length = none := by
  rw [holds, object, slots.object_length]
  rfl

theorem holds_add (s : Descriptors) (a : AutoFd) (events : List (Event Nat Int)) :
    (s.add a events).holds = Function.update s.holds s.objects.length a.held := by
  funext y
  rw [holds, object, add, slots.object_append]
  by_cases hy : y = s.objects.length
  · rw [if_pos hy, hy, Function.update_self]
    rfl
  · rw [if_neg hy, Function.update_of_ne hy]
    rfl

/-- What an object has goes with an event. -/
theorem ledger_put_drop {s : Descriptors} {x : Nat} {a : AutoFd} (h : s.object x = some a)
    {a' : Option AutoFd} (ha' : a'.bind AutoFd.held = none) (e : Int → Event Nat Int) :
    (s.put x a' (a.held.toList.map e)).ledger = s.ledger.drop x e := by
  have hholds : s.ledger.holds x = a.held := holds_of_object h
  have hput : (s.put x a' (a.held.toList.map e)).ledger =
      ⟨Function.update s.holds x none, s.trace ++ a.held.toList.map e⟩ := by
    rw [ledger, holds_put h, ha']
    rfl
  cases hheld : a.held with
  | none =>
    rw [hheld] at hput hholds
    rw [Ledger.drop_of_none hholds, hput]
    have hsame : Function.update s.holds x none = s.holds :=
      Function.update_eq_self_iff.mpr hholds.symm
    rw [hsame]
    simp [ledger]
  | some fd =>
    rw [hheld] at hput hholds
    rw [Ledger.drop_of_some hholds, hput]
    rfl

theorem returned_eq (a : AutoFd) :
    (if a.fd ≥ 0 then [.returned a.fd] else []) =
      a.held.toList.map (.returned : Int → Event Nat Int) := by
  unfold AutoFd.held
  split <;> rfl

theorem free_of_unheld {s : Descriptors} {fd : Int} (h : s.Unheld fd) : s.ledger.Free fd := by
  intro x hx
  obtain ⟨a, ha, hheld⟩ := Option.bind_eq_some_iff.mp hx
  have hmem : some a ∈ s.objects := by
    obtain ⟨o, ho, rfl⟩ : ∃ o, s.objects[x]? = some o ∧ o = some a := by
      simpa [object, Option.join_eq_some_iff] using ha
    exact List.mem_of_getElem? ho
  apply h.2 (some a) hmem
  unfold AutoFd.held at hheld
  split_ifs at hheld
  rw [Option.map_some, Option.some.inj hheld]

theorem length_put (s : Descriptors) (x : Nat) (a : Option AutoFd)
    (events : List (Event Nat Int)) : (s.put x a events).objects.length = s.objects.length :=
  List.length_set

theorem held_of_nonneg {fd : Int} (h : fd ≥ 0) : (AutoFd.mk fd).held = some fd := if_pos h

/-- An object that is moved out of, and a new one that has what it had. -/
theorem ledger_move {s : Descriptors} {other : Nat} {b : AutoFd} (hb : s.object other = some b) :
    ((s.put other (some ⟨-1⟩) []).add b []).ledger = s.ledger.pass other s.objects.length := by
  have hholds : s.ledger.holds other = b.held := holds_of_object hb
  rw [ledger, holds_add, holds_put hb, length_put, Ledger.pass, hholds]
  simp [add, put, ledger]
  rfl

/-- An object that is moved into another one, which holds nothing. -/
theorem ledger_move_into {s : Descriptors} {x other : Nat} {a b : AutoFd}
    (hb : s.object other = some b) (ha : (s.put other (some ⟨-1⟩) []).object x = some a) :
    ((s.put other (some ⟨-1⟩) []).put x (some b) []).ledger = s.ledger.pass other x := by
  have hholds : s.ledger.holds other = b.held := holds_of_object hb
  rw [ledger, holds_put ha, holds_put hb, Ledger.pass, hholds]
  simp [put, ledger]
  rfl

theorem ledger_put_take {s : Descriptors} {x : Nat} {a : AutoFd} (ha : s.object x = some a)
    {fd : Int} (hfd : fd ≥ 0) : (s.put x (some ⟨fd⟩) [.taken fd]).ledger = s.ledger.take x fd := by
  rw [ledger, holds_put ha, Option.bind_some, held_of_nonneg hfd]
  rfl

/-- An object that changes twice. -/
theorem put_put (s : Descriptors) (x : Nat) (a b : Option AutoFd) (es fs : List (Event Nat Int)) :
    (s.put x a es).put x b fs = s.put x b (es ++ fs) := by
  simp [put, List.set_set]

/-- Another object that is moved out of in between makes no difference. -/
theorem put_put_put (s : Descriptors) {x other : Nat} (h : x ≠ other) (a b c : Option AutoFd)
    (es : List (Event Nat Int)) :
    ((s.put x a es).put other b []).put x c [] = (s.put other b []).put x c es := by
  simp [put, List.set_comm _ _ h, List.set_set]

/-! ## The steps -/

theorem sound_assign_move {s t : Descriptors} {x other : Nat} (h : s.ledger.Sound)
    (ht : s.next (.assign_move x other) = some t) : t.ledger.Sound := by
  obtain ⟨b, hb, ht⟩ := Option.bind_eq_some_iff.mp ht
  obtain ⟨a, ha, ht⟩ := Option.bind_eq_some_iff.mp ht
  simp only [AutoFd.reset_eq] at ht
  have ht : (s.put other (some ⟨-1⟩) []).put x (some b) (closings x a.held.toList) = t :=
    Option.some.inj ht
  have ha : (s.put other (some ⟨-1⟩) []).object x = some a := ha
  by_cases hx : x = other
  · -- the object has given its descriptor out, and has nothing to close
    subst hx
    have hnull : some ⟨-1⟩ = some a := (object_put_self hb _ _).symm.trans ha
    obtain rfl := Option.some.inj hnull
    obtain rfl : (s.put x (some ⟨-1⟩) []).put x (some b) [] = t := ht
    rw [ledger_move_into hb ha, Ledger.pass_self]
    exact h
  · have hold : s.object x = some a := (object_put_of_ne s hx _ _).symm.trans ha
    rw [← put_put_put s hx (some ⟨-1⟩)] at ht
    subst ht
    have hb' : (s.put x (some ⟨-1⟩) (closings x a.held.toList)).object other = some b :=
      (object_put_of_ne s (Ne.symm hx) _ _).trans hb
    have ha' : ((s.put x (some ⟨-1⟩) (closings x a.held.toList)).put other (some ⟨-1⟩) []).object x
        = some ⟨-1⟩ := (object_put_of_ne _ hx _ _).trans (object_put_self hold _ _)
    rw [ledger_move_into hb' ha', closings, ledger_put_drop hold rfl]
    exact (h.close x).pass (Ledger.drop_holds_self _ _ _)

theorem sound_next {s t : Descriptors} {a : Step} (h : s.ledger.Sound) (ht : s.next a = some t) :
    t.ledger.Sound := by
  cases a with
  | construct =>
    obtain rfl := Option.some.inj ht
    have hsame : Function.update s.holds s.objects.length none = s.holds :=
      Function.update_eq_self_iff.mpr (holds_length s).symm
    have hledger : (s.add AutoFd.null []).ledger = s.ledger := by
      rw [ledger, holds_add, AutoFd.null, show (AutoFd.mk (-1)).held = none from rfl, hsame]
      simp [add, ledger]
    rw [hledger]
    exact h
  | construct_fd fd =>
    simp only [next] at ht
    split_ifs at ht with hunheld
    obtain rfl := Option.some.inj ht
    have hledger : (s.add ⟨fd⟩ [.taken fd]).ledger = s.ledger.take s.objects.length fd := by
      rw [ledger, holds_add, held_of_nonneg hunheld.1]
      rfl
    rw [hledger]
    exact h.take (holds_length s) (free_of_unheld hunheld)
  | construct_move other =>
    obtain ⟨b, hb, ht⟩ := Option.bind_eq_some_iff.mp ht
    have ht : some ((s.put other (some ⟨-1⟩) []).add b []) = some t := ht
    obtain rfl := Option.some.inj ht
    rw [ledger_move hb]
    exact h.pass (holds_length s)
  | assign_move x other => exact sound_assign_move h ht
  | release x =>
    obtain ⟨a, ha, ht⟩ := Option.bind_eq_some_iff.mp ht
    have ht : some (s.put x (some ⟨-1⟩) (if a.fd ≥ 0 then [.returned a.fd] else [])) = some t := ht
    obtain rfl := Option.some.inj ht
    rw [returned_eq, ledger_put_drop ha rfl]
    exact h.giveBack x
  | close x =>
    obtain ⟨a, ha, ht⟩ := Option.bind_eq_some_iff.mp ht
    have ht : some (s.put x (some a.close.2) (closings x a.close.1)) = some t := ht
    obtain rfl := Option.some.inj ht
    have hnone : (some a.close.2).bind AutoFd.held = none := a.close_held
    rw [AutoFd.close_fst, closings, ledger_put_drop ha hnone]
    exact h.close x
  | reset x =>
    obtain ⟨a, ha, ht⟩ := Option.bind_eq_some_iff.mp ht
    simp only [AutoFd.reset_eq] at ht
    obtain rfl := Option.some.inj ht
    rw [closings, ledger_put_drop ha rfl]
    exact h.close x
  | reset_fd x fd =>
    obtain ⟨a, ha, ht⟩ := Option.bind_eq_some_iff.mp ht
    simp only [AutoFd.reset_eq] at ht
    split_ifs at ht with hunheld
    obtain rfl := Option.some.inj ht
    have hnull : (s.put x (some ⟨-1⟩) (closings x a.held.toList)).object x = some ⟨-1⟩ :=
      object_put_self ha _ _
    rw [← put_put s x (some ⟨-1⟩), ledger_put_take hnull hunheld.1, closings,
      ledger_put_drop ha rfl]
    exact (h.close x).take (Ledger.drop_holds_self _ _ _) ((free_of_unheld hunheld).drop _ _)
  | destroy x =>
    obtain ⟨a, ha, ht⟩ := Option.bind_eq_some_iff.mp ht
    simp only [AutoFd.reset_eq] at ht
    obtain rfl := Option.some.inj ht
    rw [closings, ledger_put_drop ha rfl]
    exact h.close x

/-! ## The calls of `::close` -/

/-- The object whose member function runs. -/
def Step.acts : Step → Option Nat
  | .construct | .construct_fd _ | .construct_move _ => none
  | .assign_move x _ | .release x | .close x | .reset x | .reset_fd x _ | .destroy x => some x

theorem mem_closings {s : Descriptors} {x y : Nat} {fd : Int} {a : AutoFd}
    (ha : s.object x = some a) (h : .closed y fd ∈ closings x a.held.toList) :
    y = x ∧ s.holds x = some fd := by
  rw [holds_of_object ha]
  obtain ⟨k, hk, heq⟩ := List.mem_map.mp h
  cases heq
  exact ⟨rfl, Option.mem_toList.mp hk⟩

/-- The only descriptor that a step closes is the one that the acting object holds. -/
theorem closed_next {s t : Descriptors} {a : Step} (ht : s.next a = some t) :
    ∃ events, t.trace = s.trace ++ events ∧
      ∀ x fd, .closed x fd ∈ events → a.acts = some x ∧ s.holds x = some fd := by
  cases a with
  | construct =>
    obtain rfl := Option.some.inj ht
    exact ⟨[], rfl, by simp⟩
  | construct_fd fd =>
    simp only [next] at ht
    split_ifs at ht
    obtain rfl := Option.some.inj ht
    exact ⟨[.taken fd], rfl, by simp⟩
  | construct_move other =>
    obtain ⟨b, hb, ht⟩ := Option.bind_eq_some_iff.mp ht
    obtain rfl := Option.some.inj ht
    exact ⟨[], by simp [add, put], by simp⟩
  | assign_move x other =>
    obtain ⟨b, hb, ht⟩ := Option.bind_eq_some_iff.mp ht
    obtain ⟨a, ha, ht⟩ := Option.bind_eq_some_iff.mp ht
    simp only [AutoFd.reset_eq] at ht
    obtain rfl := Option.some.inj ht
    refine ⟨closings x a.held.toList, by simp [put], ?_⟩
    intro y fd hclosed
    obtain ⟨rfl, hheld⟩ := mem_closings ha hclosed
    refine ⟨rfl, ?_⟩
    by_cases hy : y = other
    · -- an object that has released its descriptor closes none
      subst hy
      rw [holds_of_object (object_put_self hb _ _)] at hheld
      cases hheld
    · rw [← hheld, holds, holds]
      exact congrArg (·.bind AutoFd.held) (object_put_of_ne s hy _ _).symm
  | release x =>
    obtain ⟨a, ha, ht⟩ := Option.bind_eq_some_iff.mp ht
    obtain rfl := Option.some.inj ht
    refine ⟨_, rfl, ?_⟩
    intro y fd hclosed
    split_ifs at hclosed <;> simp at hclosed
  | close x =>
    obtain ⟨a, ha, ht⟩ := Option.bind_eq_some_iff.mp ht
    have ht : some (s.put x (some a.close.2) (closings x a.close.1)) = some t := ht
    obtain rfl := Option.some.inj ht
    refine ⟨_, rfl, ?_⟩
    intro y fd hclosed
    rw [AutoFd.close_fst] at hclosed
    obtain ⟨rfl, hheld⟩ := mem_closings ha hclosed
    exact ⟨rfl, hheld⟩
  | reset x =>
    obtain ⟨a, ha, ht⟩ := Option.bind_eq_some_iff.mp ht
    simp only [AutoFd.reset_eq] at ht
    obtain rfl := Option.some.inj ht
    refine ⟨_, rfl, ?_⟩
    intro y fd hclosed
    obtain ⟨rfl, hheld⟩ := mem_closings ha hclosed
    exact ⟨rfl, hheld⟩
  | reset_fd x fd =>
    obtain ⟨a, ha, ht⟩ := Option.bind_eq_some_iff.mp ht
    simp only [AutoFd.reset_eq] at ht
    split_ifs at ht
    obtain rfl := Option.some.inj ht
    refine ⟨_, rfl, ?_⟩
    intro y k hclosed
    rcases List.mem_append.mp hclosed with hclosed | hclosed
    · obtain ⟨rfl, hheld⟩ := mem_closings ha hclosed
      exact ⟨rfl, hheld⟩
    · simp at hclosed
  | destroy x =>
    obtain ⟨a, ha, ht⟩ := Option.bind_eq_some_iff.mp ht
    simp only [AutoFd.reset_eq] at ht
    obtain rfl := Option.some.inj ht
    refine ⟨_, rfl, ?_⟩
    intro y fd hclosed
    obtain ⟨rfl, hheld⟩ := mem_closings ha hclosed
    exact ⟨rfl, hheld⟩

/-! ## The law -/

theorem sound_run {s : Descriptors} {steps : List Step} (h : run next start steps = some s) :
    s.ledger.Sound := by
  refine run_invariant next (P := fun s => s.ledger.Sound) ?_ (fun _ _ _ => sound_next) h
  have hstart : start.ledger = ⟨fun _ => none, []⟩ := by
    simp [ledger, start, holds, object, funext_iff]
  rw [hstart]
  exact Ledger.sound_nil

/-- In every run each descriptor has one object that holds it at most. A `::close` is for
the descriptor that the acting object holds. Each time that a descriptor is handed in is
answered by one `::close` or by a `release` before the next, but for the last time when it
is still held; so all are answered when no object is left. -/
theorem each_descriptor_is_closed_once_unless_released {s : Descriptors} {steps : List Step}
    (h : run next start steps = some s) :
    (∀ x y fd, s.holds x = some fd → s.holds y = some fd → x = y) ∧
    (∀ before a behind t u, steps = before ++ a :: behind → run next start before = some t →
      t.next a = some u → ∃ events, u.trace = t.trace ++ events ∧
        ∀ x fd, .closed x fd ∈ events → a.acts = some x ∧ t.holds x = some fd) ∧
    (∀ fd, (∀ x, s.holds x ≠ some fd) → Answered fd (about fd s.trace)) ∧
    (∀ x fd, s.holds x = some fd →
      ∃ history, Answered fd history ∧ about fd s.trace = history ++ [.taken fd]) ∧
    ((∀ x, s.object x = none) → ∀ fd, Answered fd (about fd s.trace)) := by
  have hsound := sound_run h
  refine ⟨hsound.sole, ?_, hsound.free, hsound.held, ?_⟩
  · intro before a behind t u _ _ hu
    exact closed_next hu
  · intro hgone fd
    apply hsound.free
    intro x hx
    have hnone : s.ledger.holds x = none := by
      show (s.object x).bind AutoFd.held = none
      rw [hgone x, Option.bind_none]
    rw [hnone] at hx
    cases hx

/-- Descriptor 5 passes through three objects and is given back, comes again under its old
number, and is closed over the self-assignment of its object. -/
theorem a_descriptor_comes_twice :
    ∃ s, run next start [.construct_fd 5, .construct_move 0, .construct_fd 7, .assign_move 2 1,
        .release 2, .reset_fd 0 5, .assign_move 0 0, .destroy 0, .destroy 1, .destroy 2] = some s ∧
      about 5 s.trace = [.taken 5, .returned 5, .taken 5, .closed 0 5] ∧
      about 7 s.trace = [.taken 7, .closed 2 7] ∧ Answered 7 (about 7 s.trace) := by
  obtain ⟨s, hs, h5, h7, hgone⟩ : ∃ s, run next start [.construct_fd 5, .construct_move 0,
        .construct_fd 7, .assign_move 2 1, .release 2, .reset_fd 0 5, .assign_move 0 0, .destroy 0,
        .destroy 1, .destroy 2] = some s ∧
      about 5 s.trace = [.taken 5, .returned 5, .taken 5, .closed 0 5] ∧
      about 7 s.trace = [.taken 7, .closed 2 7] ∧ s.objects = [none, none, none] :=
    ⟨_, rfl, by decide, by decide, rfl⟩
  refine ⟨s, hs, h5, h7, (each_descriptor_is_closed_once_unless_released hs).2.2.2.2 ?_ 7⟩
  intro x
  rw [object, hgone]
  rcases x with _ | _ | _ | x <;> rfl

end Descriptors

end rmrf.net
