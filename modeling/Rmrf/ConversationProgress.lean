-- The progress of two clients that talk to each other. A step of an event loop that moves
-- a byte or ends a callback brings the bytes nearer to their end, and while bytes are left
-- there is such a step.
import Rmrf.ConversationLaws

open Std.Do
open runs

set_option mvcgen.warning false

namespace rmrf.net

namespace TcpClient

/-! ## The steps that move bytes -/

/-- The step reads bytes, or sends some that wait, or goes on behind a callback. -/
def Productive (w : World) : Step → Prop
  | .cb_ev events received result =>
    ¬ has events ev.ERROR ∧
      if has events ev.READ then (recv 1024 received).2 ≠ []
      else has events ev.WRITE ∧ w.unsent ≠ [] ∧ ∃ n, result = .accepts (n + 1)
  | .in_data_cb_returns result => result.Passes
  | _ => False

/-- The trace has grown by a `write` that sent bytes. -/
def Sends (w w' : World) : Prop := ∃ new, w'.trace = w.trace ++ new ∧ sent new ≠ []

theorem taken_write (buf : List UInt8) (count : Nat) :
    taken (.write buf (write buf (.accepts count))) = buf.take count := by
  have hmin : write buf (.accepts count) = ((min count buf.length : Nat) : Int) := by
    simp only [write]
    omega
  rw [taken, hmin, Int.toNat_natCast]
  simp

theorem push_write_queue_sends (n : Nat) (w0 : World) (hs : w0.Sound) (hne : w0.unsent ≠ []) :
    ⦃fun w => ⌜w = w0⌝⦄ push_write_queue (.accepts (n + 1))
    ⦃post⟨fun _ w => ⌜Sends w0 w⌝, fun _ w => ⌜Sends w0 w⌝⟩⦄ := by
  have hempty : ¬ w0.client.write_queue.empty = true :=
    fun h => hne ((IoQueue.empty_iff hs).mp h)
  obtain ⟨r, rest, hq, hb⟩ := exists_front hs hempty
  have hpos : ∀ buf, write buf (.accepts (n + 1)) ≥ 0 := by
    intro buf
    simp only [write]
    omega
  mvcgen [push_write_queue, - push_write_queue.spec]
  all_goals subst_vars
  · exact absurd ‹_› hempty
  · -- the front record has a byte, and the kernel takes one
    have hunread : r.unread ≠ [] := (hs r (by rw [hq]; exact List.mem_cons_self)).2
    refine ⟨_, by simp only [List.append_assoc]; rfl, ?_⟩
    have hquiet : taken .write_queue = [] := rfl
    simp +zetaDelta only [sent_append, sent_cons, sent_nil, hquiet, taken_write, hq,
      IoQueue.pop_front, hb]
    simpa using hunread
  · rename_i hneg _
    exact absurd (hpos _) hneg
  · rename_i hneg _
    exact absurd (hpos _) hneg

theorem cb_ev_rest_sends {events : Events} (hwrite : has events ev.WRITE) (n : Nat) (w0 : World)
    (hs : w0.Sound) (hne : w0.unsent ≠ []) :
    ⦃fun w => ⌜w = w0⌝⦄ cb_ev_rest events (.accepts (n + 1))
    ⦃post⟨fun _ w => ⌜Sends w0 w⌝, fun _ w => ⌜Sends w0 w⌝⟩⦄ := by
  have hmore : ∀ {w w' : World} {new : List Effect}, Sends w0 w → w'.trace = w.trace ++ new →
      Sends w0 w' := by
    rintro w w' new ⟨old, hold, hsent⟩ htrace
    refine ⟨old ++ new, by rw [htrace, hold, List.append_assoc], ?_⟩
    rw [sent_append]
    exact fun h => hsent (List.append_eq_nil_iff.mp h).1
  mvcgen [cb_ev_rest, push_write_queue_sends, - cb_ev_rest.spec, - push_write_queue.spec]
  all_goals subst_vars
  · exact hs
  · exact hne
  · rename_i hsends _
    exact hmore hsends (by simp only [List.append_assoc]; rfl)
  · rename_i hsends _
    exact hmore hsends (by simp only [List.append_assoc]; rfl)
  · exact id

/-- An event that asks for `WRITE` alone sends, when bytes wait and the kernel takes some. -/
theorem sends_of_next {w w' : World} {events : Events} {received : RecvResult} {n : Nat}
    (hs : w.Sound) (hne : w.unsent ≠ []) (herror : ¬ has events ev.ERROR)
    (hread : ¬ has events ev.READ) (hwrite : has events ev.WRITE)
    (h : next w (.cb_ev events received (.accepts (n + 1))) = some w') : Sends w w' := by
  simp only [next, step, Option.map_eq_some_iff, Prod.exists, exists_eq_right] at h
  obtain ⟨o, h⟩ := h
  split at h
  · rw [cb_ev, if_neg herror, if_neg hread] at h
    exact Conversation.of_call_unit (cb_ev_rest_sends hwrite n w hs hne) h
  · cases h

theorem reading_eq {events : Events} {received : RecvResult} {result : WriteResult}
    (herror : ¬ has events ev.ERROR) (hread : has events ev.READ) :
    Conversation.reading (.cb_ev events received result) = (recv 1024 received).2 :=
  if_pos ⟨herror, hread⟩

theorem reading_of_no_read {events : Events} {received : RecvResult} {result : WriteResult}
    (hread : ¬ has events ev.READ) :
    Conversation.reading (.cb_ev events received result) = [] := if_neg fun h => hread h.2

/-- A `recv` that is worth its event has bytes. -/
theorem Productive.recv_pos {w : World} {events : Events} {received : RecvResult}
    {result : WriteResult} (hp : Productive w (.cb_ev events received result))
    (hread : has events ev.READ) : 0 < (recv 1024 received).1 := by
  obtain ⟨_, hp⟩ := hp
  rw [if_pos hread, ← List.length_pos_iff, ← Conversation.recv_toNat] at hp
  omega

/-- What a call sends, it does not keep. -/
theorem Flushes.length {w w' : World} {new : List Effect} (h : Flushes w w' new) :
    (sent new).length + w'.unsent.length = w.unsent.length := by
  obtain ⟨n, hsent, hun⟩ := h.stream
  rw [hsent, hun, ← List.length_append, List.take_append_drop]

theorem Flushes.conserved {w w' : World} {new : List Effect} (h : Flushes w w' new) :
    sent w'.trace ++ w'.unsent = sent w.trace ++ w.unsent := by
  obtain ⟨n, hsent, hun⟩ := h.stream
  rw [h.trace, sent_append, hsent, hun, List.append_assoc, List.take_append_drop]

/-- A productive step sends what waits, or takes in what it reads, or ends a callback: with
weights, less is left to do. -/
theorem productive_next {w w' : World} {s : Step} (hs : w.Sound) (hp : Productive w s)
    (h : next w s = some w') :
    ∃ new, w'.trace = w.trace ++ new ∧ w'.alive = w.alive ∧
      sent w'.trace ++ w'.unsent = sent w.trace ++ w.unsent ∧
      3 * w'.unsent.length + 2 * (sent new).length + w'.frames.length <
        3 * w.unsent.length + w.frames.length + 2 * (Conversation.reading s).length := by
  obtain ⟨o, ho⟩ := exists_took hs h
  cases ho with
  | @waits events received result _ herror hread hpos =>
    refine ⟨_, rfl, rfl, ?_, ?_⟩
    · rw [sent_append, sent_cons, sent_cons, sent_nil]
      simp only [taken, List.append_nil]
      rfl
    · have hlen := Conversation.recv_toNat 1024 received
      rw [reading_eq herror hread]
      simp only [World.unsent, sent_cons, sent_nil, taken, List.append_nil, List.length_nil,
        List.length_cons]
      omega
  | @finishes s w₁ events result w' new hrest hfin =>
    have hlen := hfin.length
    have hcons := hfin.conserved
    have hframes := hfin.frames
    cases hrest with
    | @no_read events received _ ha herror hread =>
      obtain ⟨_, hwork⟩ := hp
      rw [if_neg hread] at hwork
      obtain ⟨hwrite, hne, n, rfl⟩ := hwork
      obtain ⟨new', htrace, hsends⟩ := sends_of_next hs hne herror hread hwrite h
      rw [hfin.trace] at htrace
      rw [← List.append_cancel_left htrace] at hsends
      have hpos := List.length_pos_iff.mpr hsends
      refine ⟨new, hfin.trace, hfin.alive, hcons, ?_⟩
      rw [reading_of_no_read hread, hframes, List.length_nil]
      omega
    | @end_of_stream events received _ ha herror hread hzero =>
      have hpos := hp.recv_pos hread
      omega
    | @callback events frames _ hf =>
      refine ⟨new, hfin.trace, hfin.alive, hcons, ?_⟩
      have hlen' : (sent new).length + w'.unsent.length = w.unsent.length := hlen
      have hframes' : w'.frames = frames := hframes
      rw [hframes', hf, List.length_cons]
      omega
  | recv_fails _ herror hread hneg =>
    have hpos := hp.recv_pos hread
    omega
  | drops hrest _ hdrop =>
    obtain ⟨e, he, hne⟩ := hdrop.errno
    cases hrest with
    | no_read ha herror hread =>
      obtain ⟨_, hwork⟩ := hp
      rw [if_neg hread] at hwork
      obtain ⟨_, _, n, rfl⟩ := hwork
      cases he
    | end_of_stream ha herror hread hzero =>
      have hpos := hp.recv_pos hread
      omega
    | callback hf => exact absurd (hp e he) hne
  | error _ herror => exact absurd herror hp.1
  | write_data => exact hp.elim
  | callback_throws => exact hp.elim
  | destroy => exact hp.elim

end TcpClient

namespace Conversation

open TcpClient

/-! ## The conversation -/

def Productive (c : Conversation) (a : Action) : Prop :=
  TcpClient.Productive (c.party a.side) (c.step_of a)

/-- What is left to do on a side: a byte that waits counts more than one on the way, which
counts more than a callback that has it. -/
def load (c : Conversation) (side : Side) : Nat :=
  3 * (c.party side).unsent.length + 2 * (c.wire side).length + (c.party side).frames.length

def undelivered (c : Conversation) : Nat := c.load .left + c.load .right

theorem undelivered_eq (c : Conversation) (side : Side) :
    c.undelivered = c.load side + c.load side.other := by
  cases side
  · rfl
  · exact Nat.add_comm _ _

theorem Moves.productive {c c' : Conversation} {a : Action} (h : Moves c a c') (hs : c.Sound)
    (hp : Productive c a) :
    c'.undelivered < c.undelivered ∧ (∀ side, (c'.party side).alive = (c.party side).alive) ∧
      ∀ side, sent (c'.party side).trace ++ (c'.party side).unsent =
        sent (c.party side).trace ++ (c.party side).unsent := by
  obtain ⟨new, htrace, halive, hcons, hless⟩ := productive_next (hs.clients a.side) hp h.client
  obtain ⟨new', htrace', _, hwire⟩ := h.sends
  rw [htrace] at htrace'
  rw [← List.append_cancel_left htrace'] at hwire
  refine ⟨?_, ?_, ?_⟩
  · have hread := congrArg List.length h.received
    have hsent := congrArg List.length hwire
    rw [List.length_append] at hread hsent
    rw [undelivered_eq c a.side, undelivered_eq c' a.side]
    simp only [load, h.party]
    omega
  · intro side
    obtain rfl | rfl := eq_or_eq_other side a.side
    · exact halive
    · rw [h.party]
  · intro side
    obtain rfl | rfl := eq_or_eq_other side a.side
    · exact hcons
    · rw [h.party]

theorem next_ne_none {c : Conversation} {a : Action}
    (h : TcpClient.next (c.party a.side) (c.step_of a) ≠ none) : next c a ≠ none := by
  obtain ⟨w, hw⟩ := Option.ne_none_iff_exists'.mp h
  simp [next, hw]

/-- While something is left to do on a side that lives, there is a productive step. -/
theorem exists_productive {c : Conversation} {side : Side} (halive : (c.party side).alive = true)
    (hload : c.load side ≠ 0) : ∃ a, Productive c a ∧ next c a ≠ none := by
  rcases hframes : (c.party side).frames with _ | ⟨events, frames⟩
  · by_cases hun : (c.party side).unsent = []
    · -- only the wire has bytes
      have hwire : (c.wire side).take 1 ≠ [] := by
        intro hnil
        have hempty : c.wire side = [] := by simpa using hnil
        simp [load, hframes, hun, hempty] at hload
      refine ⟨⟨side, .cb_ev ev.READ (.come 1) (.fails EAGAIN)⟩, ⟨by decide, ?_⟩,
        next_ne_none ?_⟩
      · rw [if_pos (by decide)]
        simp only [Arrival.answer, if_pos hwire, recv, List.take_take]
        exact hwire
      · simp [step_of, TcpClient.next, step, halive]
    · refine ⟨⟨side, .cb_ev ev.WRITE (.come 0) (.accepts 1)⟩, ⟨by decide, ?_⟩, next_ne_none ?_⟩
      · rw [if_neg (by decide)]
        exact ⟨by decide, hun, 0, rfl⟩
      · simp [step_of, TcpClient.next, step, halive]
  · refine ⟨⟨side, .in_data_cb_returns (.fails EAGAIN)⟩, ?_, next_ne_none ?_⟩
    · intro e he
      rw [halive] at he
      cases he
      rfl
    · simp [step_of, TcpClient.next, step, hframes]

/-- With nothing left to do, no step is productive. -/
theorem stuck_of_delivered {c : Conversation} (hs : c.Sound) (hzero : c.undelivered = 0)
    (a : Action) (hp : Productive c a) : next c a = none := by
  cases hnext : next c a with
  | none => rfl
  | some c' =>
    have hless := ((moves_of_next hnext).productive hs hp).1
    omega

/-! ## The law -/

section Runs

variable {left right : Endpoint} {before as : List Action} {c c' : Conversation}

theorem productive_run (hs : c.Sound) (halive : ∀ side, (c.party side).alive = true)
    (hprod : Meets next Productive c as) (hrun : run next c as = some c') :
    as.length + c'.undelivered ≤ c.undelivered ∧ c'.Sound ∧
      (∀ side, (c'.party side).alive = true) ∧
      ∀ side, sent (c'.party side).trace ++ (c'.party side).unsent =
        sent (c.party side).trace ++ (c.party side).unsent := by
  refine run_induction next (P := fun as c' => as.length + c'.undelivered ≤ c.undelivered ∧
    c'.Sound ∧ (∀ side, (c'.party side).alive = true) ∧
      ∀ side, sent (c'.party side).trace ++ (c'.party side).unsent =
        sent (c.party side).trace ++ (c.party side).unsent) ?_ ?_ hprod hrun
  · exact ⟨by simp, hs, halive, fun _ => rfl⟩
  · rintro as t a u ⟨hle, ht, hlive, hcons⟩ ha hu
    have hmoves := moves_of_next hu
    obtain ⟨hless, hlive', hcons'⟩ := hmoves.productive ht ha
    refine ⟨?_, hmoves.sound ht, ?_, ?_⟩
    · rw [List.length_append, List.length_singleton]
      omega
    · exact fun side => (hlive' side).trans (hlive side)
    · exact fun side => (hcons' side).trans (hcons side)

end Runs

end Conversation

end rmrf.net
