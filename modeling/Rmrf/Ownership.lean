-- Resources that have one owner at a time. They are taken, pass from owner to owner, and
-- are closed or given back by the owner that has them. In the history of a resource each
-- taking is answered once.
import Mathlib

namespace ownership

/-- What happens to a resource. It is closed by its owner. -/
inductive Event (ι κ : Type*)
  | taken (k : κ)
  | closed (i : ι) (k : κ)
  | returned (k : κ)
deriving DecidableEq, Repr

variable {ι κ : Type*}

def Event.resource : Event ι κ → κ
  | .taken k => k
  | .closed _ k => k
  | .returned k => k

/-! ## The history of a resource -/

section History

variable [DecidableEq κ]

/-- The part of a history that is about one resource. -/
def about (k : κ) (history : List (Event ι κ)) : List (Event ι κ) :=
  history.filter (fun e => e.resource = k)

theorem about_snoc_self (e : Event ι κ) (history : List (Event ι κ)) :
    about e.resource (history ++ [e]) = about e.resource history ++ [e] := by
  simp [about]

theorem about_snoc_of_ne {k : κ} {e : Event ι κ} (h : e.resource ≠ k)
    (history : List (Event ι κ)) : about k (history ++ [e]) = about k history := by
  simp [about, h]

end History

/-- Each taking is answered before the next: the resource is closed once, or given back. -/
inductive Answered (k : κ) : List (Event ι κ) → Prop
  | nil : Answered k []
  | closed {h : List (Event ι κ)} (i : ι) : Answered k h → Answered k (h ++ [.taken k, .closed i k])
  | returned {h : List (Event ι κ)} : Answered k h → Answered k (h ++ [.taken k, .returned k])

/-! ## What owners do -/

/-- What the owners hold, and what has happened. -/
structure Ledger (ι κ : Type*) where
  holds : ι → Option κ
  history : List (Event ι κ)

namespace Ledger

section Acts

variable [DecidableEq ι]

def take (l : Ledger ι κ) (i : ι) (k : κ) : Ledger ι κ :=
  ⟨Function.update l.holds i (some k), l.history ++ [.taken k]⟩

/-- The owner's resource, if it holds one, goes with an event. -/
def drop (l : Ledger ι κ) (i : ι) (e : κ → Event ι κ) : Ledger ι κ :=
  match l.holds i with
  | none => l
  | some k => ⟨Function.update l.holds i none, l.history ++ [e k]⟩

/-- What `i` holds passes to `j`. -/
def pass (l : Ledger ι κ) (i j : ι) : Ledger ι κ :=
  ⟨Function.update (Function.update l.holds i none) j (l.holds i), l.history⟩

theorem drop_of_none {l : Ledger ι κ} {i : ι} (h : l.holds i = none) (e : κ → Event ι κ) :
    l.drop i e = l := by
  rw [drop, h]

theorem drop_of_some {l : Ledger ι κ} {i : ι} {k : κ} (h : l.holds i = some k)
    (e : κ → Event ι κ) :
    l.drop i e = ⟨Function.update l.holds i none, l.history ++ [e k]⟩ := by
  rw [drop, h]

theorem drop_holds_self (l : Ledger ι κ) (i : ι) (e : κ → Event ι κ) :
    (l.drop i e).holds i = none := by
  cases h : l.holds i with
  | none => rw [drop_of_none h, h]
  | some k => simp [drop_of_some h]

theorem pass_self (l : Ledger ι κ) (i : ι) : l.pass i i = l := by
  simp [pass]

theorem pass_holds (l : Ledger ι κ) (i j : ι) : (l.pass i j).holds j = l.holds i :=
  Function.update_self j _ _

theorem pass_holds_of_ne (l : Ledger ι κ) {i j m : ι} (hi : m ≠ i) (hj : m ≠ j) :
    (l.pass i j).holds m = l.holds m :=
  (Function.update_of_ne hj _ _).trans (Function.update_of_ne hi _ _)

theorem pass_holds_source (l : Ledger ι κ) {i j : ι} (h : i ≠ j) :
    (l.pass i j).holds i = none :=
  (Function.update_of_ne h _ _).trans (Function.update_self i _ _)

end Acts

def Free (l : Ledger ι κ) (k : κ) : Prop := ∀ i, l.holds i ≠ some k

/-- A resource has one owner at most, and its history is answered, up to the taking of a
resource that is held. -/
structure Sound [DecidableEq κ] (l : Ledger ι κ) : Prop where
  sole : ∀ i j k, l.holds i = some k → l.holds j = some k → i = j
  free : ∀ k, l.Free k → Answered k (about k l.history)
  held : ∀ i k, l.holds i = some k → ∃ h, Answered k h ∧ about k l.history = h ++ [.taken k]

theorem Free.drop [DecidableEq ι] {l : Ledger ι κ} {k : κ} (h : l.Free k) (i : ι)
    (e : κ → Event ι κ) : (l.drop i e).Free k := by
  intro j hj
  by_cases hji : j = i
  · subst hji
    rw [l.drop_holds_self] at hj
    cases hj
  · cases hi : l.holds i with
    | none =>
      rw [drop_of_none hi] at hj
      exact h j hj
    | some m =>
      rw [drop_of_some hi] at hj
      exact h j ((Function.update_of_ne hji _ _).symm.trans hj)

/-! ## The owners stay apart -/

variable [DecidableEq κ]

theorem sound_nil : (⟨fun _ => none, []⟩ : Ledger ι κ).Sound :=
  ⟨by simp, fun _ _ => .nil, by simp⟩

variable [DecidableEq ι]

theorem Sound.take {l : Ledger ι κ} (h : l.Sound) {i : ι} {k : κ} (hi : l.holds i = none)
    (hk : l.Free k) : (l.take i k).Sound := by
  have hself : (l.take i k).holds i = some k := Function.update_self i _ _
  have hother : ∀ {j}, j ≠ i → (l.take i k).holds j = l.holds j :=
    fun hj => Function.update_of_ne hj _ _
  refine ⟨?_, ?_, ?_⟩
  · intro j j' m hj hj'
    by_cases hji : j = i
    · subst hji
      rw [hself] at hj
      cases hj
      by_contra hne
      rw [hother (Ne.symm hne)] at hj'
      exact hk j' hj'
    · rw [hother hji] at hj
      by_cases hji' : j' = i
      · subst hji'
        rw [hself] at hj'
        cases hj'
        exact absurd hj (hk j)
      · rw [hother hji'] at hj'
        exact h.sole j j' m hj hj'
  · intro m hm
    have hne : (Event.taken k : Event ι κ).resource ≠ m := by
      rintro rfl
      exact hm i hself
    rw [Ledger.take, about_snoc_of_ne hne]
    apply h.free
    intro j hj
    have hji : j ≠ i := by
      rintro rfl
      rw [hi] at hj
      cases hj
    exact hm j ((hother hji).trans hj)
  · intro j m hj
    by_cases hji : j = i
    · subst hji
      rw [hself] at hj
      cases hj
      exact ⟨about k l.history, h.free k hk, about_snoc_self (.taken k) _⟩
    · rw [hother hji] at hj
      have hne : (Event.taken k : Event ι κ).resource ≠ m := by
        rintro rfl
        exact hk j hj
      rw [Ledger.take, about_snoc_of_ne hne]
      exact h.held j m hj

/-- The event with which a resource goes is an answer to its taking. -/
theorem Sound.drop {l : Ledger ι κ} (h : l.Sound) (i : ι) {e : κ → Event ι κ}
    (hresource : ∀ k, (e k).resource = k)
    (hanswer : ∀ k history, Answered k history → Answered k (history ++ [.taken k, e k])) :
    (l.drop i e).Sound := by
  cases hi : l.holds i with
  | none => rwa [drop_of_none hi]
  | some k =>
    rw [drop_of_some hi]
    have hother : ∀ {j}, j ≠ i → Function.update l.holds i none j = l.holds j :=
      fun hj => Function.update_of_ne hj _ _
    have hne : ∀ {j m}, Function.update l.holds i none j = some m → j ≠ i ∧ l.holds j = some m := by
      intro j m hj
      have hji : j ≠ i := by
        rintro rfl
        rw [Function.update_self] at hj
        cases hj
      exact ⟨hji, (hother hji).symm.trans hj⟩
    refine ⟨?_, ?_, ?_⟩
    · intro j j' m hj hj'
      exact h.sole j j' m (hne hj).2 (hne hj').2
    · intro m hm
      by_cases hmk : m = k
      · subst hmk
        obtain ⟨history, hans, habout⟩ := h.held i m hi
        have hsnoc := about_snoc_self (e m) l.history
        rw [hresource m, habout] at hsnoc
        rw [hsnoc, List.append_assoc]
        exact hanswer m history hans
      · have hkm : (e k).resource ≠ m := by
          rw [hresource k]
          exact Ne.symm hmk
        rw [about_snoc_of_ne hkm]
        apply h.free
        intro j hj
        have hji : j ≠ i := by
          rintro rfl
          rw [hi] at hj
          exact hmk (Option.some.inj hj).symm
        exact hm j ((hother hji).trans hj)
    · intro j m hj
      obtain ⟨hji, hheld⟩ := hne hj
      have hkm : (e k).resource ≠ m := by
        rw [hresource k]
        rintro rfl
        exact hji (h.sole j i k hheld hi)
      rw [about_snoc_of_ne hkm]
      exact h.held j m hheld

theorem Sound.close {l : Ledger ι κ} (h : l.Sound) (i : ι) : (l.drop i (.closed i)).Sound :=
  h.drop i (fun _ => rfl) fun _ _ hans => .closed i hans

theorem Sound.giveBack {l : Ledger ι κ} (h : l.Sound) (i : ι) : (l.drop i .returned).Sound :=
  h.drop i (fun _ => rfl) fun _ _ hans => .returned hans

/-- An owner that holds nothing gets what another holds. -/
theorem Sound.pass {l : Ledger ι κ} (h : l.Sound) {i j : ι} (hj : l.holds j = none) :
    (l.pass i j).Sound := by
  -- who holds something after it has it from `i`, or had it before
  have hcases : ∀ {m k}, (l.pass i j).holds m = some k →
      m = j ∧ l.holds i = some k ∨ m ≠ i ∧ m ≠ j ∧ l.holds m = some k := by
    intro m k hm
    by_cases hmj : m = j
    · subst hmj
      exact Or.inl ⟨rfl, (l.pass_holds i m).symm.trans hm⟩
    · have hmi : m ≠ i := by
        rintro rfl
        rw [l.pass_holds_source hmj] at hm
        cases hm
      exact Or.inr ⟨hmi, hmj, (l.pass_holds_of_ne hmi hmj).symm.trans hm⟩
  refine ⟨?_, ?_, ?_⟩
  · intro m m' k hm hm'
    rcases hcases hm with ⟨rfl, hik⟩ | ⟨hmi, _, hold⟩
    · rcases hcases hm' with ⟨rfl, _⟩ | ⟨hmi', _, hold'⟩
      · rfl
      · exact absurd (h.sole m' i k hold' hik) hmi'
    · rcases hcases hm' with ⟨rfl, hik⟩ | ⟨_, _, hold'⟩
      · exact absurd (h.sole m i k hold hik) hmi
      · exact h.sole m m' k hold hold'
  · intro k hk
    apply h.free
    intro m hm
    by_cases hmi : m = i
    · subst hmi
      exact hk j ((l.pass_holds m j).trans hm)
    · have hmj : m ≠ j := by
        rintro rfl
        rw [hj] at hm
        cases hm
      exact hk m ((l.pass_holds_of_ne hmi hmj).trans hm)
  · intro m k hm
    rcases hcases hm with ⟨_, hik⟩ | ⟨_, _, hold⟩
    · exact h.held i k hik
    · exact h.held m k hold

end Ledger

end ownership
