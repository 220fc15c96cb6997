-- Programs with a state that return or throw. Where a sequence ends follows from where
-- its first statement ends, and each of the basic statements ends in one way. From a state
-- that it may be called in, a program returns in one of the states that are wanted, or it
-- throws in one of those that are allowed for that: there is one rule for each way to put
-- statements together.
import Mathlib

namespace stateful

/-! ## Where a program ends -/

section Statements

variable {ε σ α β : Type} {h : EStateM ε σ α} {s t : σ}

theorem bind_ok {a : α} (hok : h s = .ok a t) (k : α → EStateM ε σ β) :
    (h >>= k) s = k a t := by
  show EStateM.bind h k s = _
  simp only [EStateM.bind, hok]

theorem bind_error {e : ε} (herror : h s = .error e t) (k : α → EStateM ε σ β) :
    (h >>= k) s = .error e t := by
  show EStateM.bind h k s = _
  simp only [EStateM.bind, herror]

theorem tryCatch_ok {a : α} (hok : h s = .ok a t) (handle : ε → EStateM ε σ α) :
    tryCatch h handle s = .ok a t := by
  show EStateM.tryCatch h handle s = _
  simp only [EStateM.tryCatch, hok]

/-- The state of a statement that throws is not put back. -/
theorem tryCatch_error {e : ε} (herror : h s = .error e t) (handle : ε → EStateM ε σ α) :
    tryCatch h handle s = handle e t := by
  show EStateM.tryCatch h handle s = _
  simp only [EStateM.tryCatch, herror]
  rfl

theorem get_eq (s : σ) : (get : EStateM ε σ σ) s = .ok s s := rfl

theorem modify_eq (f : σ → σ) (s : σ) : (modify f : EStateM ε σ Unit) s = .ok () (f s) := rfl

theorem throw_eq (e : ε) (s : σ) : (throw e : EStateM ε σ α) s = .error e s := rfl

theorem ofExcept_ok (a : α) (s : σ) :
    (MonadExcept.ofExcept (.ok a : Except ε α) : EStateM ε σ α) s = .ok a s := rfl

theorem ofExcept_error (e : ε) (s : σ) :
    (MonadExcept.ofExcept (.error e : Except ε α) : EStateM ε σ α) s = .error e s := rfl

theorem get_bind (k : σ → EStateM ε σ β) (s : σ) : (get >>= k) s = k s s := bind_ok (get_eq s) k

end Statements

/-! ## What a program ensures -/

variable {ε σ α β : Type} {P : σ → Prop} {E : ε → σ → Prop}

/-- From each state with `P` the program returns with `Q`, or throws with `E`. -/
def Ensures (P : σ → Prop) (h : EStateM ε σ α) (Q : α → σ → Prop) (E : ε → σ → Prop) : Prop :=
  ∀ s, P s → match h s with
    | .ok a t => Q a t
    | .error e t => E e t

theorem Ensures.of_ok {h : EStateM ε σ α} {Q : α → σ → Prop} (H : Ensures P h Q E) {s t : σ}
    {a : α} (hs : P s) (hok : h s = .ok a t) : Q a t := by
  have hend := H s hs
  rwa [hok] at hend

theorem Ensures.of_error {h : EStateM ε σ α} {Q : α → σ → Prop} (H : Ensures P h Q E) {s t : σ}
    {e : ε} (hs : P s) (herror : h s = .error e t) : E e t := by
  have hend := H s hs
  rwa [herror] at hend

theorem Ensures.imp {h : EStateM ε σ α} {P' : σ → Prop} {Q Q' : α → σ → Prop}
    {E' : ε → σ → Prop} (H : Ensures P h Q E) (hP : ∀ s, P' s → P s)
    (hQ : ∀ a s, Q a s → Q' a s) (hE : ∀ e s, E e s → E' e s) : Ensures P' h Q' E' := by
  intro s hs
  cases hh : h s with
  | ok a t => exact hQ a t (H.of_ok (hP s hs) hh)
  | error e t => exact hE e t (H.of_error (hP s hs) hh)

/-- It is enough to ask for more of the state. -/
theorem Ensures.pre {h : EStateM ε σ α} {P' : σ → Prop} {Q : α → σ → Prop}
    (hP : ∀ s, P' s → P s) (H : Ensures P h Q E) : Ensures P' h Q E :=
  fun s hs => H s (hP s hs)

theorem Ensures.bind {h : EStateM ε σ α} {k : α → EStateM ε σ β} {Q : α → σ → Prop}
    {R : β → σ → Prop} (hh : Ensures P h Q E) (hk : ∀ a, Ensures (Q a) (k a) R E) :
    Ensures P (h >>= k) R E := by
  intro s hs
  cases hw : h s with
  | error e t =>
    rw [bind_error hw]
    exact hh.of_error hs hw
  | ok a t =>
    rw [bind_ok hw]
    exact hk a t (hh.of_ok hs hw)

/-- What the condition says, but not about the state, is known from there on. -/
theorem Ensures.knowing {h : EStateM ε σ α} {Q : α → σ → Prop} {p : Prop} (hp : ∀ s, P s → p)
    (H : p → Ensures P h Q E) : Ensures P h Q E :=
  fun s hs => H (hp s hs) s hs

/-- A condition may leave open for which value it holds. -/
theorem Ensures.of_exists {ι : Sort*} {P : ι → σ → Prop} {h : EStateM ε σ α}
    {Q : α → σ → Prop} (H : ∀ i, Ensures (P i) h Q E) : Ensures (fun s => ∃ i, P i s) h Q E :=
  fun s ⟨i, hs⟩ => H i s hs

theorem ensures_pure {Q : α → σ → Prop} (a : α) : Ensures (Q a) (pure a : EStateM ε σ α) Q E :=
  fun _ hs => hs

theorem ensures_throw {Q : α → σ → Prop} {e : ε} (h : ∀ s, P s → E e s) :
    Ensures P (throw e : EStateM ε σ α) Q E := h

theorem ensures_modify {Q : Unit → σ → Prop} (f : σ → σ) :
    Ensures (fun s => Q () (f s)) (modify f : EStateM ε σ Unit) Q E :=
  fun _ hs => hs

/-- What is read from the state may be taken as a value that the state agrees with. -/
theorem Ensures.get_bind {k : σ → EStateM ε σ β} {R : β → σ → Prop}
    (hk : ∀ s, Ensures (fun t => P t ∧ t = s) (k s) R E) : Ensures P (get >>= k) R E := by
  intro s hs
  rw [stateful.get_bind]
  exact hk s s ⟨hs, rfl⟩

theorem ensures_ofExcept {Q : α → σ → Prop} {x : Except ε α}
    (hok : ∀ a, x = .ok a → ∀ s, P s → Q a s) (herror : ∀ e, x = .error e → ∀ s, P s → E e s) :
    Ensures P (MonadExcept.ofExcept x : EStateM ε σ α) Q E := by
  intro s hs
  cases x with
  | ok a => exact hok a rfl s hs
  | error e => exact herror e rfl s hs

theorem Ensures.ite {c : Prop} [Decidable c] {h h' : EStateM ε σ α} {Q : α → σ → Prop}
    (ht : c → Ensures P h Q E) (hf : ¬c → Ensures P h' Q E) :
    Ensures P (if c then h else h') Q E := by
  split_ifs with hc
  · exact ht hc
  · exact hf hc

theorem Ensures.tryCatch {h : EStateM ε σ α} {handle : ε → EStateM ε σ α} {Q : α → σ → Prop}
    {F : ε → σ → Prop} (hh : Ensures P h Q E) (hhandle : ∀ e, Ensures (E e) (handle e) Q F) :
    Ensures P (tryCatch h handle) Q F := by
  intro s hs
  cases hw : h s with
  | ok a t =>
    rw [tryCatch_ok hw]
    exact hh.of_ok hs hw
  | error e t =>
    rw [tryCatch_error hw]
    exact hhandle e t (hh.of_error hs hw)

/-! ## What holds all along -/

/-- The program keeps `P`, whether it returns or throws. -/
def Maintains (P : σ → Prop) (h : EStateM ε σ α) : Prop := Ensures P h (fun _ => P) (fun _ => P)

/-- What is kept may be carried along. -/
theorem Ensures.carry {R : σ → Prop} {h : EStateM ε σ α} {Q : α → σ → Prop} (H : Ensures P h Q E)
    (hR : Maintains R h) : Ensures (fun s => P s ∧ R s) h (fun a s => Q a s ∧ R s) E := by
  rintro s ⟨hs, hr⟩
  cases hh : h s with
  | ok a t => exact ⟨H.of_ok hs hh, Ensures.of_ok hR hr hh⟩
  | error e t => exact H.of_error hs hh

theorem Maintains.bind {h : EStateM ε σ α} {k : α → EStateM ε σ β} (hh : Maintains P h)
    (hk : ∀ a, Maintains P (k a)) : Maintains P (h >>= k) :=
  Ensures.bind hh hk

theorem maintains_pure (a : α) : Maintains P (pure a : EStateM ε σ α) :=
  ensures_pure (Q := fun _ => P) a

theorem maintains_throw (e : ε) : Maintains P (throw e : EStateM ε σ α) :=
  ensures_throw fun _ hs => hs

theorem maintains_modify {f : σ → σ} (hf : ∀ s, P s → P (f s)) :
    Maintains P (modify f : EStateM ε σ Unit) :=
  (ensures_modify (Q := fun _ => P) f).imp hf (fun _ _ hs => hs) (fun _ _ hs => hs)

theorem Maintains.get_bind {k : σ → EStateM ε σ β} (hk : ∀ s, Maintains P (k s)) :
    Maintains P (get >>= k) :=
  Ensures.get_bind fun s => (hk s).imp (fun _ ht => ht.1) (fun _ _ ht => ht) (fun _ _ ht => ht)

theorem Maintains.ite {c : Prop} [Decidable c] {h h' : EStateM ε σ α} (ht : c → Maintains P h)
    (hf : ¬c → Maintains P h') : Maintains P (if c then h else h') :=
  Ensures.ite ht hf

end stateful
