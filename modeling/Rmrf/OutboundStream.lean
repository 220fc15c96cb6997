-- The laws of the outbound stream: what the kernel took and what still waits is what
-- `write_data` was given, and a `write` that fails loses bytes unless it fails with
-- EAGAIN. A run of the client is a run of a pipe.
import Rmrf.ClientSteps

/-! ## Pipes -/

/-- What was pushed so far, what has left, and what still waits. -/
structure Pipe (α : Type*) where
  pushed : List α
  sent : List α
  pending : List α
  conserved : sent ++ pending = pushed

namespace Pipe

variable {α : Type*}

def empty : Pipe α := ⟨[], [], [], rfl⟩

/-- New items go to the end of what waits. -/
def push (p : Pipe α) (xs : List α) : Pipe α where
  pushed := p.pushed ++ xs
  sent := p.sent
  pending := p.pending ++ xs
  conserved := by rw [← List.append_assoc, p.conserved]

/-- The first `n` of the waiting items leave. -/
def flush (p : Pipe α) (n : Nat) : Pipe α where
  pushed := p.pushed
  sent := p.sent ++ p.pending.take n
  pending := p.pending.drop n
  conserved := by rw [List.append_assoc, List.take_append_drop, p.conserved]

variable (p : Pipe α) (xs : List α) (n : Nat)

@[simp] theorem push_pushed : (p.push xs).pushed = p.pushed ++ xs := rfl
@[simp] theorem push_sent : (p.push xs).sent = p.sent := rfl
@[simp] theorem push_pending : (p.push xs).pending = p.pending ++ xs := rfl
@[simp] theorem flush_pushed : (p.flush n).pushed = p.pushed := rfl
@[simp] theorem flush_sent : (p.flush n).sent = p.sent ++ p.pending.take n := rfl
@[simp] theorem flush_pending : (p.flush n).pending = p.pending.drop n := rfl

end Pipe

/-! ## What a step writes -/

open Std.Do
open runs

namespace rmrf.net

namespace TcpClient

/-- The bytes that a step gives to `write_data`. -/
def given : Step → List UInt8
  | .write_data data => data
  | _ => []

/-- The bytes that all steps give to `write_data`, in call order. -/
def givenBy (steps : List Step) : List UInt8 := steps.flatMap given

/-- A `write` of the step takes bytes or fails with EAGAIN. -/
def Lossless : Step → Prop
  | .cb_ev _ _ result => result.Passes
  | .in_data_cb_returns result => result.Passes
  | _ => True

/-- The step comes to its `write`: behind the read it still has a `WRITE` event, and bytes
wait. -/
def Writing (w : World) : Step → Prop
  | .cb_ev events received _ =>
    ¬ has events ev.ERROR ∧ (has events ev.READ → (recv 1024 received).1 = 0) ∧
      has events ev.WRITE ∧ w.client.write_queue.queue ≠ []
  | .in_data_cb_returns _ =>
    ∃ events frames, w.frames = events :: frames ∧ has events ev.WRITE ∧
      w.client.write_queue.queue ≠ []
  | _ => False

/-! ## A sound queue in every run -/

theorem Rest.sound {w w₁ : World} {s : Step} {events : Events} {result : WriteResult}
    (h : Rest w s w₁ events result) (hs : w.Sound) : w₁.Sound := by
  cases h <;> exact hs

theorem Rest.unsent {w w₁ : World} {s : Step} {events : Events} {result : WriteResult}
    (h : Rest w s w₁ events result) : w₁.unsent = w.unsent := by
  cases h <;> rfl

/-- A step that drops a record has come to its `write`. -/
theorem Rest.writing {w w₁ w' : World} {s : Step} {events : Events} {result : WriteResult}
    {new : List Effect} (h : Rest w s w₁ events result) (hwrite : has events ev.WRITE)
    (hdrop : Drops w₁ w' result new) : Writing w s := by
  have hqueue : w₁.client.write_queue = w.client.write_queue := by cases h <;> rfl
  have hne : w.client.write_queue.queue ≠ [] := by
    obtain ⟨r, hr⟩ := hdrop.head
    rw [← hqueue, hr]
    exact List.cons_ne_nil _ _
  cases h with
  | no_read _ herror hread => exact ⟨herror, fun h => absurd h hread, hwrite, hne⟩
  | end_of_stream _ herror _ hzero => exact ⟨herror, fun _ => hzero, hwrite, hne⟩
  | callback hf => exact ⟨_, _, hf, hwrite, hne⟩

theorem Took.sound {w w' : World} {s : Step} {o : Outcome} (h : Took w s o w') (hs : w.Sound) :
    w'.Sound := by
  cases h with
  | write_data _ hst => exact hst.sound
  | error => exact hs
  | recv_fails => exact hs
  | waits => exact hs
  | finishes _ hfin => exact hfin.sound
  | drops hrest _ hdrop =>
    have h₁ := hrest.sound hs
    obtain ⟨r, hr⟩ := hdrop.head
    intro x hx
    exact h₁ x (by rw [hr]; exact List.mem_cons_of_mem _ hx)
  | callback_throws => exact hs
  | destroy => exact hs

theorem exists_took {w w' : World} {s : Step} (hs : w.Sound) (h : next w s = some w') :
    ∃ o, Took w s o w' := by
  simp only [next, Option.map_eq_some_iff, Prod.exists, exists_eq_right] at h
  obtain ⟨o, ho⟩ := h
  exact ⟨o, step_cases hs ho⟩

theorem sound_next {w w' : World} {s : Step} (hs : w.Sound) (h : next w s = some w') :
    w'.Sound := by
  obtain ⟨o, ho⟩ := exists_took hs h
  exact ho.sound hs

section Runs

variable {destructor_cb : Bool} {socket_fd : Int} {peer_address : String} {port : Nat}
  {steps : List Step} {w : World}

theorem sound_run (h : run next (of_socket destructor_cb socket_fd peer_address port) steps =
    some w) : w.Sound :=
  run_invariant next (P := World.Sound) (by exact IoQueue.sound_nil)
    (fun _ _ _ hs => sound_next hs) h

end Runs

/-! ## The client is a pipe -/

@[simp] theorem sent_farewell (c : TcpClient) : sent (farewell c) = [] := by
  unfold farewell
  split_ifs <;> simp [taken]

theorem Rest.sent {w w₁ : World} {s : Step} {events : Events} {result : WriteResult}
    (h : Rest w s w₁ events result) : sent w₁.trace = sent w.trace := by
  cases h <;> simp [destructed, taken]

theorem Rest.given {w w₁ : World} {s : Step} {events : Events} {result : WriteResult}
    (h : Rest w s w₁ events result) : given s = [] := by
  cases h <;> rfl

theorem Rest.passes {w w₁ : World} {s : Step} {events : Events} {result : WriteResult}
    (h : Rest w s w₁ events result) (hok : Lossless s) : result.Passes := by
  cases h <;> exact hok

/-- The pipe has taken in, let out and kept the same bytes as the client. -/
structure Carries (steps : List Step) (w : World) (p : Pipe UInt8) : Prop where
  pushed : p.pushed = givenBy steps
  sent : p.sent = sent w.trace
  pending : p.pending = w.unsent

/-- What the pipe conserves, the client does. -/
theorem Carries.conserved {steps : List Step} {w : World} {p : Pipe UInt8}
    (h : Carries steps w p) : TcpClient.sent w.trace ++ w.unsent = givenBy steps := by
  rw [← h.sent, ← h.pending, p.conserved, h.pushed]

theorem givenBy_snoc (steps : List Step) (s : Step) :
    givenBy (steps ++ [s]) = givenBy steps ++ given s := by simp [givenBy]

/-- A step that neither stores nor sends a byte leaves the pipe as it is. -/
theorem carries_quiet {steps : List Step} {w w' : World} {p : Pipe UInt8} {s : Step}
    (h : Carries steps w p) (hg : given s = []) (hs : sent w'.trace = sent w.trace)
    (hu : w'.unsent = w.unsent) : Carries (steps ++ [s]) w' p :=
  ⟨by rw [givenBy_snoc, hg, List.append_nil, h.pushed], by rw [h.sent, hs], by rw [h.pending, hu]⟩

/-- One step of the client is one step of the pipe, or none. -/
theorem carries_step {steps : List Step} {w w' : World} {p : Pipe UInt8} {s : Step}
    (h : Carries steps w p) (hw : w.Sound) (hok : Lossless s) (hnext : next w s = some w') :
    ∃ p', Carries (steps ++ [s]) w' p' := by
  obtain ⟨o, ho⟩ := exists_took hw hnext
  cases ho with
  | @write_data data _ _ hst =>
    refine ⟨p.push data, ?_, ?_, ?_⟩
    · rw [givenBy_snoc, Pipe.push_pushed, h.pushed, given]
    · simp [h.sent, hst.trace, taken]
    · rw [Pipe.push_pending, h.pending, hst.unsent]
  | error => exact ⟨p, carries_quiet h rfl rfl rfl⟩
  | recv_fails => exact ⟨p, carries_quiet h rfl (by simp [taken]) rfl⟩
  | waits => exact ⟨p, carries_quiet h rfl (by simp [taken]) rfl⟩
  | finishes hrest hfin =>
    obtain ⟨n, hsent, hun⟩ := hfin.stream
    have hpend : p.pending = World.unsent _ := h.pending.trans hrest.unsent.symm
    refine ⟨p.flush n, ?_, ?_, ?_⟩
    · rw [givenBy_snoc, hrest.given, List.append_nil, Pipe.flush_pushed, h.pushed]
    · rw [Pipe.flush_sent, h.sent, hpend, ← hsent, hfin.trace, sent_append, hrest.sent]
    · rw [Pipe.flush_pending, hpend, hun]
  | drops hrest _ hdrop =>
    obtain ⟨e, he, hne⟩ := hdrop.errno
    exact absurd (hrest.passes hok e he) hne
  | callback_throws => exact ⟨p, carries_quiet h rfl rfl rfl⟩
  | destroy => exact ⟨p, carries_quiet h rfl (by simp [destructed]) rfl⟩

section Runs

variable {destructor_cb : Bool} {socket_fd : Int} {peer_address : String} {port : Nat}
  {steps : List Step} {w : World}

/-- Every run in which no `write` loses bytes is a run of a pipe. -/
theorem exists_pipe (hok : ∀ s ∈ steps, Lossless s)
    (h : run next (of_socket destructor_cb socket_fd peer_address port) steps = some w) :
    ∃ p, Carries steps w p := by
  refine (run_induction next (P := fun steps w => w.Sound ∧ ∃ p, Carries steps w p)
    ⟨?_, Pipe.empty, rfl, rfl, rfl⟩ ?_ (meets_of_forall next _ steps hok) h).2
  · exact IoQueue.sound_nil
  · rintro as t a u ⟨hs, p, hp⟩ ha hu
    exact ⟨sound_next hs hu, carries_step hp hs ha hu⟩

/-! ## The laws -/

/-- At every point of a run, the bytes that the kernel took and then the bytes that
wait in the queue are the bytes that `write_data` was given, in call order. -/
theorem the_stream_goes_out_as_it_was_written (hok : ∀ s ∈ steps, Lossless s)
    (h : run next (of_socket destructor_cb socket_fd peer_address port) steps = some w) :
    sent w.trace ++ w.unsent = givenBy steps := by
  obtain ⟨p, hp⟩ := exists_pipe hok h
  exact hp.conserved

end Runs

/-- A write that is cut after two bytes, and one from inside `in_data_cb`. -/
theorem the_stream_goes_out_across_a_callback :
    let steps := [.write_data [1, 2, 3], .cb_ev ev.WRITE (.data []) (.accepts 2),
      .cb_ev (ev.READ ||| ev.WRITE) (.data [9]) (.accepts 0), .write_data [4],
      .in_data_cb_returns (.fails EAGAIN)]
    ∃ w, run next (of_socket true 5 "::1" 25) steps = some w ∧ sent w.trace = [1, 2] ∧
      sent w.trace ++ w.unsent = [1, 2, 3, 4] := by
  intro steps
  have hok : ∀ s ∈ steps, Lossless s := by simp [steps, Lossless, WriteResult.Passes]
  exact ⟨_, rfl, rfl, the_stream_goes_out_as_it_was_written hok rfl⟩

/-- A `write` that fails with another error than EAGAIN makes `push_write_queue` throw,
and the front record is lost. -/
theorem push_write_queue_loses {w : World} {e : Errno} (hs : w.Sound)
    (hne : w.client.write_queue.empty = false) (he : e ≠ EAGAIN) :
    ∃ x w', push_write_queue (.fails e) w = .error x w' ∧ w'.unsent ≠ w.unsent := by
  have hends := ends_of_spec (push_write_queue.spec (.fails e) w hs)
  cases hw : push_write_queue (.fails e) w with
  | ok a w' =>
    rw [hw] at hends
    obtain ⟨new, _, hnil | hpass, _⟩ := hends
    · have hempty := (IoQueue.empty_iff hs).mpr hnil
      rw [hne] at hempty
      cases hempty
    · exact absurd (hpass e rfl) he
  | error x w' =>
    rw [hw] at hends
    obtain ⟨new, hdrop⟩ := hends
    obtain ⟨r, hr⟩ := hdrop.head
    refine ⟨x, w', rfl, ?_⟩
    intro heq
    have hread := (hs r (by rw [hr]; exact List.mem_cons_self)).2
    have hun : w.unsent = r.unread ++ w'.unsent := by simp [World.unsent, IoQueue.unsent, hr]
    rw [heq] at hun
    exact hread (by simpa using hun)

/-- With EAGAIN it returns, and the bytes that wait are the same. -/
theorem push_write_queue_keeps {w : World} (hs : w.Sound) :
    ∃ w', push_write_queue (.fails EAGAIN) w = .ok () w' ∧ w'.unsent = w.unsent := by
  have hends := ends_of_spec (push_write_queue.spec (.fails EAGAIN) w hs)
  cases hw : push_write_queue (.fails EAGAIN) w with
  | ok a w' =>
    rw [hw] at hends
    obtain ⟨new, hflush, _, hnew⟩ := hends
    exact ⟨w', rfl, hflush.quiet (hnew EAGAIN rfl)⟩
  | error x w' =>
    rw [hw] at hends
    obtain ⟨new, hdrop⟩ := hends
    obtain ⟨e, he, hne⟩ := hdrop.errno
    cases he
    exact absurd rfl hne

section Runs

variable {destructor_cb : Bool} {socket_fd : Int} {peer_address : String} {port : Nat}
  {steps : List Step} {w : World}

/-- A failed `write` leaves the queue of a reachable client as it was exactly when it
fails with EAGAIN, and then nothing is thrown. So a run whose writes fail with EAGAIN
only has no gap in its stream. -/
theorem a_failed_write_keeps_the_queue_only_with_eagain
    (h : run next (of_socket destructor_cb socket_fd peer_address port) steps = some w) :
    (w.client.write_queue.empty = false → ∀ e : Errno,
      ((∀ x w', push_write_queue (.fails e) w = .error x w' → w'.unsent = w.unsent) ↔
        e = EAGAIN) ∧
      (e = EAGAIN → ∃ w', push_write_queue (.fails e) w = .ok () w' ∧ w'.unsent = w.unsent)) ∧
    ((∀ s ∈ steps, Lossless s) → sent w.trace ++ w.unsent = givenBy steps) := by
  have hs := sound_run h
  constructor
  · intro hne e
    refine ⟨⟨?_, ?_⟩, ?_⟩
    · intro hkeeps
      by_contra he
      obtain ⟨x, w', hthrow, hun⟩ := push_write_queue_loses hs hne he
      exact hun (hkeeps x w' hthrow)
    · rintro rfl x w' hthrow
      obtain ⟨w₁, hreturns, _⟩ := push_write_queue_keeps hs
      rw [hthrow] at hreturns
      cases hreturns
    · rintro rfl
      exact push_write_queue_keeps hs
  · intro hok
    obtain ⟨p, hp⟩ := exists_pipe hok h
    exact hp.conserved

end Runs

theorem a_failed_write_keeps_the_queue_of_a_client_with_three_bytes :
    ∃ w, run next (of_socket true 5 "::1" 25) [.write_data [1, 2, 3]] = some w ∧
      ∀ e : Errno,
        ((∀ x w', push_write_queue (.fails e) w = .error x w' → w'.unsent = w.unsent) ↔
          e = EAGAIN) ∧
        (e = EAGAIN → ∃ w', push_write_queue (.fails e) w = .ok () w' ∧ w'.unsent = w.unsent) := by
  obtain ⟨w, hw, hne⟩ : ∃ w, run next (of_socket true 5 "::1" 25) [.write_data [1, 2, 3]] =
    some w ∧ w.client.write_queue.empty = false := ⟨_, rfl, rfl⟩
  exact ⟨w, hw, (a_failed_write_keeps_the_queue_only_with_eagain hw).1 hne⟩

/-- A signal during the `write` loses the three bytes that wait. -/
theorem an_interrupted_write_loses_the_queue :
    ∃ w x w', run next (of_socket true 5 "::1" 25) [.write_data [1, 2, 3]] = some w ∧
      push_write_queue (.fails EINTR) w = .error x w' ∧
      w.unsent = [1, 2, 3] ∧ w'.unsent = [] :=
  ⟨_, _, _, rfl, rfl, rfl, rfl⟩

end TcpClient

end rmrf.net
