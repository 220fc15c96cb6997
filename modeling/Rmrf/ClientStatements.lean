-- Properties of the client's member functions that follow from their statements: what
-- sequences and branches keep, and each statement has, a whole function has.
import Rmrf.TcpClient

namespace rmrf.net

namespace TcpClient

/-- An effect that is not the client's destruction, nor its sight of the end of the
stream. -/
def Plain (e : Effect) : Prop := e ≠ .destructor_cb .NO_ERROR ∧ e ≠ .recv 0

/-- A property of functions that sequences keep, and that the statements have which
leave the client's life and its socket alone. -/
structure Statements (P : (α : Type) → Handler α → Prop) : Prop where
  pure : ∀ {α : Type} (a : α), P α (Pure.pure a)
  throw : ∀ {α : Type} (e : Exn), P α (MonadExcept.throw e)
  bind : ∀ {α β : Type} {h : Handler α} {k : α → Handler β}, P α h → (∀ a, P β (k a)) →
    P β (h >>= k)
  look : ∀ {γ β : Type} (f : TcpClient → γ) {k : γ → Handler β}, (∀ x, P β (k x)) →
    P β (do k (f (← get).client))
  note : ∀ {e : Effect}, Plain e → P Unit (note e)
  set_events : ∀ events : Events, P Unit (modify fun w => { w with client.io.events := events })
  set_queue : ∀ f : IoQueue → IoQueue,
    P Unit (modify fun w => { w with client.write_queue := f w.client.write_queue })
  push_frame : ∀ events : Events, P Unit (modify fun w => { w with frames := events :: w.frames })

namespace Statements

variable {P : (α : Type) → Handler α → Prop}

theorem branch {α : Type} {c : Prop} [Decidable c] {h k : Handler α} (hh : c → P α h)
    (hk : ¬ c → P α k) : P α (if c then h else k) := by
  split_ifs with hc
  · exact hh hc
  · exact hk hc

variable (hP : Statements P)

include hP

theorem io_set (events : Events) : P Unit (io_set events) :=
  hP.bind (hP.set_events events) fun _ => hP.note (by simp [Plain])

theorem queue_empty : P Bool queue_empty :=
  hP.bind (hP.note (by simp [Plain])) fun _ => hP.look (fun c => c.write_queue.empty) hP.pure

theorem queue_push_back (data : IoRecord) : P Unit (queue_push_back data) :=
  hP.bind (hP.note (by simp [Plain])) fun _ => hP.set_queue fun q => (q.push_back data).1

theorem queue_push_front (data : IoRecord) : P Unit (queue_push_front data) :=
  hP.bind (hP.note (by simp [Plain])) fun _ => hP.set_queue fun q => q.push_front data

theorem queue_pop_front : P IoRecord queue_pop_front := by
  apply hP.bind (hP.note (by simp [Plain]))
  intro _
  apply hP.look (fun c => c.write_queue.pop_front)
    (k := fun p => do modify (fun w => { w with client.write_queue := p.2 }); return p.1)
  intro p
  exact hP.bind (hP.set_queue fun _ => p.2) fun _ => hP.pure p.1

theorem write_data (data : List UInt8) : P Unit (write_data data) :=
  hP.bind (hP.queue_push_back _) fun _ => hP.io_set _

theorem push_write_queue (result : WriteResult) : P Unit (push_write_queue result) := by
  apply hP.bind hP.queue_empty
  intro b
  apply branch
  · exact fun _ => hP.io_set _
  · intro _
    apply hP.bind hP.queue_pop_front
    intro buffer
    apply hP.bind (hP.note (by simp [Plain]))
    intro _
    apply branch
    · exact fun _ => hP.queue_push_front _
    · intro _
      exact branch (fun _ => hP.throw _) (fun _ => hP.queue_push_front _)

theorem cb_ev_rest (events : Events) (result : WriteResult) :
    P Unit (cb_ev_rest events result) := by
  have hrest : P Unit (do
      if ← TcpClient.queue_empty then
        TcpClient.io_set ev.READ
      else
        TcpClient.io_set (ev.READ ||| ev.WRITE)) :=
    hP.bind hP.queue_empty fun _ => branch (fun _ => hP.io_set _) (fun _ => hP.io_set _)
  exact branch (fun _ => hP.bind (hP.push_write_queue result) fun _ => hrest) (fun _ => hrest)

theorem enter_callback (events : Events) (data : List UInt8) :
    P Unit (enter_callback events data) :=
  hP.bind (hP.note (by simp [Plain])) fun _ => hP.push_frame events

theorem returned {h : Handler Unit} (hh : P Unit h) :
    P Outcome (do h; return Outcome.returned) :=
  hP.bind hh fun _ => hP.pure _

/-- `cb_ev`, when what it does at the end of the stream has the property too. -/
theorem cb_ev (events : Events) (received : RecvResult) (result : WriteResult)
    (hend : ¬ has events ev.ERROR → has events ev.READ → (recv 1024 received).1 = 0 →
      P Outcome (do rmrf.net.note (.recv 0); destruct; TcpClient.cb_ev_rest events result
                    return .returned)) :
    P Outcome (cb_ev events received result) := by
  have hrest := hP.returned (hP.cb_ev_rest events result)
  apply branch (fun _ => hP.pure _)
  intro herror
  apply branch
  · intro hread
    by_cases hzero : (recv 1024 received).1 = 0
    · have hstop := hend herror hread hzero
      simp only [hzero]
      exact hstop
    · apply hP.bind (hP.note ⟨by simp, fun h => hzero (Effect.recv.inj h)⟩)
      intro _
      apply branch (fun _ => hP.throw _)
      intro _
      apply branch (fun h => absurd h hzero)
      intro _
      exact hP.bind (hP.enter_callback _ _) fun _ => hP.pure _
  · exact fun _ => hrest

end Statements

end TcpClient

end rmrf.net
