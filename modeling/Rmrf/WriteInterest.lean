-- The law of the write watch: a client with bytes to send always asks the event loop
-- for `WRITE`, and one without stops asking when its handler ends.
import Rmrf.OutboundStream

open runs

namespace rmrf.net

namespace TcpClient

/-- Records that wait have the watcher ask for `WRITE`. -/
def Watched (w : World) : Prop :=
  w.client.write_queue.queue ≠ [] → has w.client.io.events ev.WRITE

/-- The step ends a `cb_ev` call that has no `ERROR` bit, and the call returns. -/
def ReturnsFromCbEv (s : Step) (o : Outcome) : Prop :=
  o = .returned ∧
    match s with
    | .cb_ev events _ _ => ¬ has events ev.ERROR
    | .in_data_cb_returns _ => True
    | _ => False

/-- The event set that fits the queue. -/
def wanted (w : World) : Events := if w.unsent = [] then ev.READ else ev.READ ||| ev.WRITE

theorem unsent_ne_nil {w : World} (hs : w.Sound) (h : w.client.write_queue.queue ≠ []) :
    w.unsent ≠ [] := by
  intro hnil
  exact h (List.isEmpty_iff.mp ((IoQueue.empty_iff hs).mpr hnil))

theorem watched_of_wanted {w : World} (hs : w.Sound) (h : w.client.io.events = wanted w) :
    Watched w := by
  intro hq
  rw [h, wanted, if_neg (unsent_ne_nil hs hq)]
  decide

theorem Rest.queue {w w₁ : World} {s : Step} {events : Events} {result : WriteResult}
    (h : Rest w s w₁ events result) : w₁.client.write_queue = w.client.write_queue := by
  cases h <;> rfl

theorem Rest.events {w w₁ : World} {s : Step} {events : Events} {result : WriteResult}
    (h : Rest w s w₁ events result) : w₁.client.io.events = w.client.io.events := by
  cases h <;> rfl

theorem Took.watched {w w' : World} {s : Step} {o : Outcome} (h : Took w s o w')
    (hw : Watched w) : Watched w' := by
  cases h with
  | write_data _ hst =>
    intro _
    rw [hst.events]
    decide
  | error => exact hw
  | recv_fails => exact hw
  | waits => exact hw
  | finishes _ hfin => exact watched_of_wanted hfin.sound hfin.events
  | drops hrest _ hdrop =>
    -- the queue was not empty before the throw, and the event set is the old one
    obtain ⟨r, hr⟩ := hdrop.head
    intro _
    rw [hdrop.events, hrest.events]
    apply hw
    rw [← hrest.queue, hr]
    exact List.cons_ne_nil _ _
  | callback_throws => exact hw
  | destroy => exact hw

theorem Took.wanted {w w' : World} {s : Step} {o : Outcome} (h : Took w s o w')
    (hr : ReturnsFromCbEv s o) : w'.client.io.events = wanted w' := by
  obtain ⟨ho, hs⟩ := hr
  cases h with
  | error _ herror => exact absurd herror hs
  | finishes _ hfin => exact hfin.events
  | write_data => exact hs.elim
  | destroy => exact hs.elim
  | recv_fails => cases ho
  | waits => cases ho
  | drops => cases ho
  | callback_throws => cases ho

section Runs

variable {destructor_cb : Bool} {socket_fd : Int} {peer_address : String} {port : Nat}
  {steps : List Step} {w : World}

theorem watched_run
    (h : run next (of_socket destructor_cb socket_fd peer_address port) steps = some w) :
    Watched w := by
  refine (run_invariant next (P := fun w => w.Sound ∧ Watched w) ⟨?_, ?_⟩ ?_ h).2
  · exact IoQueue.sound_nil
  · intro hne
    exact absurd rfl hne
  · rintro t s u ⟨hs, hwatched⟩ hu
    obtain ⟨o, ho⟩ := exists_took hs hu
    exact ⟨ho.sound hs, ho.watched hwatched⟩

/-- At every point of a run, records that wait have the watcher ask for `WRITE`. And
when a `cb_ev` call without `ERROR` returns, the watcher asks for `READ` and `WRITE` if
a byte is still to be sent, and for `READ` alone if none is. -/
theorem waiting_data_is_never_stranded
    (h : run next (of_socket destructor_cb socket_fd peer_address port) steps = some w) :
    (w.client.write_queue.queue ≠ [] → has w.client.io.events ev.WRITE) ∧
    ∀ s o w', step w s = some (o, w') → ReturnsFromCbEv s o →
      w'.client.io.events = if w'.unsent = [] then ev.READ else ev.READ ||| ev.WRITE :=
  ⟨watched_run h, fun _ _ _ hstep hr => (step_cases (sound_run h) hstep).wanted hr⟩

end Runs

/-- A record that is sent in two parts. -/
theorem waiting_data_is_never_stranded_after_a_part :
    ∃ w, run next (of_socket true 5 "::1" 25)
        [.write_data [1, 2, 3], .cb_ev ev.WRITE (.data []) (.accepts 2)] = some w ∧
      w.client.io.events = ev.READ ||| ev.WRITE ∧
      ((w.client.write_queue.queue ≠ [] → has w.client.io.events ev.WRITE) ∧
      ∀ s o w', step w s = some (o, w') → ReturnsFromCbEv s o →
        w'.client.io.events = if w'.unsent = [] then ev.READ else ev.READ ||| ev.WRITE) := by
  obtain ⟨w, hw, hev⟩ : ∃ w, run next (of_socket true 5 "::1" 25)
      [.write_data [1, 2, 3], .cb_ev ev.WRITE (.data []) (.accepts 2)] = some w ∧
    w.client.io.events = ev.READ ||| ev.WRITE := ⟨_, rfl, rfl⟩
  exact ⟨w, hw, hev, waiting_data_is_never_stranded hw⟩

end TcpClient

end rmrf.net
