-- Two clients that are connected to each other, with the kernel between them. What the
-- kernel takes from one side is on its way until a `recv` of the other side gets it. The
-- steps of both sides come in any order.
import Rmrf.Destruction

open Std.Do
open runs stateful

set_option mvcgen.warning false

namespace rmrf.net

/-! ## The kernel between the sides -/

inductive Side
  | left
  | right
deriving DecidableEq, Repr

def Side.other : Side → Side
  | .left => .right
  | .right => .left

def EBADF : Errno := 9

/-- What a `recv` meets: so many of the bytes on the way have come in, or it fails. -/
inductive Arrival
  | come (count : Nat)
  | fails (errno : Errno)
deriving DecidableEq, Repr

/-- The answer of the kernel to `recv`, with these bytes on the way. The stream ends
behind the last byte, when the other side has closed its socket. -/
def Arrival.answer (wire : List UInt8) (closed : Bool) : Arrival → RecvResult
  | .fails e => .fails e
  | .come count =>
    if wire.take count ≠ [] then .data (wire.take count)
    else if closed ∧ wire = [] then .data []
    else .fails EAGAIN

/-- The answer to `write`, which takes nothing on a socket that is closed. -/
def WriteResult.on_socket (is_open : Bool) (result : WriteResult) : WriteResult :=
  if is_open then result else .fails EBADF

/-- Both clients, and the bytes on the way to each of them. -/
structure Conversation where
  party : Side → World
  wire : Side → List UInt8

namespace Conversation

open TcpClient

/-- What can happen next to a side. -/
inductive Event
  | write_data (data : List UInt8)
  | cb_ev (events : Events) (arrival : Arrival) (result : WriteResult)
  | in_data_cb_returns (result : WriteResult)
  | in_data_cb_throws
  | destroy
deriving DecidableEq, Repr

structure Action where
  side : Side
  event : Event
deriving DecidableEq, Repr

/-- Whether the socket of the other side is closed. -/
def closed (c : Conversation) (side : Side) : Bool := !(c.party side.other).alive

/-- What the event is for the client of the side, which may lose its socket to the end of
the stream before it comes to its `write`. -/
def step_of (c : Conversation) : Action → Step
  | ⟨_, .write_data data⟩ => .write_data data
  | ⟨side, .cb_ev events arrival result⟩ =>
    let received := arrival.answer (c.wire side) (c.closed side)
    let is_open := !(has events ev.READ && received == .data [])
    .cb_ev events received (result.on_socket is_open)
  | ⟨side, .in_data_cb_returns result⟩ =>
    .in_data_cb_returns (result.on_socket (c.party side).alive)
  | ⟨_, .in_data_cb_throws⟩ => .in_data_cb_throws
  | ⟨_, .destroy⟩ => .destroy

/-- The number of bytes that a `recv` takes off the wire. -/
def came : Effect → Nat
  | .recv received => received.toNat
  | _ => 0

/-- The bytes that `in_data_cb` is called with. -/
def told : Effect → List UInt8
  | .in_data_cb data => data
  | _ => []

/-- What a client has heard so far. -/
def heard (trace : List Effect) : List UInt8 := trace.flatMap told

/-- The other party has done these things: the kernel moves the bytes. -/
def transfer (c : Conversation) (side : Side) (w : World) (new : List Effect) : Conversation where
  party := Function.update c.party side w
  wire := Function.update
    (Function.update c.wire side ((c.wire side).drop (new.map came).sum))
    side.other (c.wire side.other ++ sent new)

/-- The conversation after an action, when it can be taken. -/
def next (c : Conversation) (a : Action) : Option Conversation := do
  let w ← TcpClient.next (c.party a.side) (c.step_of a)
  some (c.transfer a.side w (w.trace.drop (c.party a.side).trace.length))

/-- What the constructor of a side is given. -/
structure Endpoint where
  destructor_cb : Bool
  socket_fd : Int
  peer_address : String
  port : Nat
deriving DecidableEq, Repr

def Endpoint.client (e : Endpoint) : World :=
  of_socket e.destructor_cb e.socket_fd e.peer_address e.port

/-- Two clients that have just been connected. -/
def start (left right : Endpoint) : Conversation where
  party
    | .left => left.client
    | .right => right.client
  wire _ := []

/-! ## What a step reads -/

/-- The bytes that a step gets from `recv`. -/
def reading : Step → List UInt8
  | .cb_ev events received _ =>
    if ¬ has events ev.ERROR ∧ has events ev.READ then (recv 1024 received).2 else []
  | _ => []

/-- The step finds the end of the stream. -/
def FindsEnd : Step → Prop
  | .cb_ev events received _ =>
    ¬ has events ev.ERROR ∧ has events ev.READ ∧ received = .data []
  | _ => False

/-- An effect that neither reads nor tells what was read. -/
def Deaf (e : Effect) : Prop := came e = 0 ∧ told e = [] ∧ e ≠ .recv 0

/-- The trace has grown by effects of a kind. -/
def Grows (P : Effect → Prop) (w w' : World) : Prop :=
  ∃ new, w'.trace = w.trace ++ new ∧ ∀ e ∈ new, P e

theorem Grows.trans {P : Effect → Prop} {w w' w'' : World} (h : Grows P w w')
    (h' : Grows P w' w'') : Grows P w w'' := by
  obtain ⟨new, htrace, hnew⟩ := h
  obtain ⟨new', htrace', hnew'⟩ := h'
  refine ⟨new ++ new', by rw [htrace', htrace, List.append_assoc], ?_⟩
  intro e he
  exact (List.mem_append.mp he).elim (hnew e) (hnew' e)

theorem Grows.imp {P Q : Effect → Prop} {w w' : World} (h : Grows P w w')
    (himp : ∀ e, P e → Q e) : Grows Q w w' := by
  obtain ⟨new, htrace, hnew⟩ := h
  exact ⟨new, htrace, fun e he => himp e (hnew e he)⟩

/-- What a step has added to the trace is what it has read. -/
structure Reads (s : Step) (new : List Effect) : Prop where
  heard : heard new = reading s
  came : (new.map came).sum = (reading s).length
  ended : .recv 0 ∈ new → FindsEnd s

theorem reads_of_deaf {s : Step} {new : List Effect} (hs : reading s = [])
    (h : ∀ e ∈ new, Deaf e) : Reads s new := by
  refine ⟨?_, ?_, fun hmem => absurd rfl (h _ hmem).2.2⟩
  · rw [hs]
    exact List.flatMap_eq_nil_iff.mpr fun e he => (h e he).2.1
  · rw [hs, List.length_nil]
    apply List.sum_eq_zero
    intro n hn
    obtain ⟨e, he, rfl⟩ := List.mem_map.mp hn
    exact (h e he).1

/-- The value of `recv` is the number of bytes that it has put into the buffer. -/
theorem recv_toNat (len : Nat) (received : RecvResult) :
    (recv len received).1.toNat = (recv len received).2.length := by
  cases received with
  | data bytes => exact Int.toNat_natCast _
  | fails e => rfl

theorem farewell_deaf (c : TcpClient) : ∀ e ∈ farewell c, Deaf e := by
  unfold farewell
  split_ifs <;> simp [Deaf, came, told]

/-! ### The functions that read nothing -/

/-- What the rest of `cb_ev` does: it reads nothing, and sends nothing by a `write` that
fails. -/
def Rests (result : WriteResult) (e : Effect) : Prop :=
  Deaf e ∧ ∀ errno, result = .fails errno → taken e = []

theorem push_write_queue_grows (result : WriteResult) (w0 : World) :
    ⦃fun w => ⌜w = w0⌝⦄ push_write_queue result
    ⦃post⟨fun _ w => ⌜Grows (Rests result) w0 w⌝, fun _ w => ⌜Grows (Rests result) w0 w⌝⟩⦄ := by
  mvcgen [push_write_queue, - push_write_queue.spec]
  all_goals subst_vars
  all_goals refine ⟨_, by simp only [List.append_assoc]; rfl, ?_⟩
  all_goals simp +contextual +zetaDelta [Rests, Deaf, came, told, taken, write]

theorem write_data_grows (data : List UInt8) (w0 : World) :
    ⦃fun w => ⌜w = w0⌝⦄ write_data data
    ⦃post⟨fun _ w => ⌜Grows Deaf w0 w⌝, fun _ w => ⌜Grows Deaf w0 w⌝⟩⦄ := by
  mvcgen [write_data, - write_data.spec]
  all_goals subst_vars
  all_goals exact ⟨_, by simp only [List.append_assoc]; rfl, by simp [Deaf, came, told]⟩

theorem cb_ev_rest_grows (events : Events) (result : WriteResult) (w0 : World) :
    ⦃fun w => ⌜w = w0⌝⦄ cb_ev_rest events result
    ⦃post⟨fun _ w => ⌜Grows (Rests result) w0 w⌝, fun _ w => ⌜Grows (Rests result) w0 w⌝⟩⦄ := by
  mvcgen [cb_ev_rest, push_write_queue_grows, - cb_ev_rest.spec, - push_write_queue.spec]
  all_goals subst_vars
  · rename_i hgrows _
    refine hgrows.trans ⟨_, by simp only [List.append_assoc]; rfl, ?_⟩
    simp [Rests, Deaf, came, told, taken]
  · rename_i hgrows _
    refine hgrows.trans ⟨_, by simp only [List.append_assoc]; rfl, ?_⟩
    simp [Rests, Deaf, came, told, taken]
  · exact id
  · refine ⟨_, by simp only [List.append_assoc]; rfl, ?_⟩
    simp [Rests, Deaf, came, told, taken]
  · refine ⟨_, by simp only [List.append_assoc]; rfl, ?_⟩
    simp [Rests, Deaf, came, told, taken]

/-! ### The steps -/

def Adds (s : Step) (w w' : World) : Prop := ∃ new, w'.trace = w.trace ++ new ∧ Reads s new

theorem adds_of_grows {s : Step} {w w' : World} (hs : reading s = [])
    (h : Grows Deaf w w') : Adds s w w' := by
  obtain ⟨new, htrace, hnew⟩ := h
  exact ⟨new, htrace, reads_of_deaf hs hnew⟩

/-- At the end of the stream, nothing is read, and what follows reads nothing. -/
theorem adds_of_end {events : Events} {received : RecvResult} {result : WriteResult}
    {w w' : World} (herror : ¬ has events ev.ERROR) (hread : has events ev.READ)
    (hzero : (recv 1024 received).1 = 0)
    (h : Grows Deaf (destructed { w with trace := w.trace ++ [.recv 0] }) w') :
    Adds (.cb_ev events received result) w w' := by
  obtain ⟨new, htrace, hnew⟩ := h
  have hdeaf : ∀ e ∈ farewell w.client ++ new, Deaf e := by
    intro e he
    exact (List.mem_append.mp he).elim (farewell_deaf w.client e) (hnew e)
  have hnil : (recv 1024 received).2 = [] := by
    rw [← List.length_eq_zero_iff, ← recv_toNat, hzero]
    rfl
  have hreading : reading (.cb_ev events received result) = [] := by
    rw [reading, if_pos ⟨herror, hread⟩, hnil]
  obtain ⟨hheard, hcame, _⟩ := reads_of_deaf hreading hdeaf
  refine ⟨.recv 0 :: (farewell w.client ++ new), ?_, hheard, ?_, ?_⟩
  · rw [htrace]
    simp [destructed]
  · rw [List.map_cons, List.sum_cons, hcame]
    exact Nat.zero_add _
  · intro _
    exact ⟨herror, hread, (recv_eq_zero_iff received).mp hzero⟩

theorem cb_ev_adds (events : Events) (received : RecvResult) (result : WriteResult) (w0 : World) :
    ⦃fun w => ⌜w = w0⌝⦄ cb_ev events received result
    ⦃post⟨fun _ w => ⌜Adds (.cb_ev events received result) w0 w⌝,
          fun _ w => ⌜Adds (.cb_ev events received result) w0 w⌝⟩⦄ := by
  mvcgen [cb_ev, cb_ev_rest_grows, - cb_ev_rest.spec]
  all_goals subst_vars
  · rename_i herror w
    exact adds_of_grows (by simp [reading, herror]) ⟨[], by simp, by simp⟩
  · rename_i herror hread w hneg
    have hnil : (recv 1024 received).2 = [] := by
      rw [← List.length_eq_zero_iff, ← recv_toNat]
      omega
    exact adds_of_grows (by simp [reading, hnil])
      ⟨_, rfl, by simp [Deaf, came, told]; omega⟩
  · rename_i hzero _ _ w hgrows
    rw [hzero] at hgrows
    exact adds_of_end ‹_› ‹_› hzero (hgrows.imp fun _ => And.left)
  · rename_i hzero _ _ w
    intro hgrows
    rw [hzero] at hgrows
    exact adds_of_end ‹_› ‹_› hzero (hgrows.imp fun _ => And.left)
  · rename_i herror hread w hneg hzero
    have hreading : reading (.cb_ev events received result) = (recv 1024 received).2 :=
      if_pos ⟨herror, hread⟩
    refine ⟨_, List.append_assoc _ _ _, ?_, ?_, ?_⟩
    · simp [heard, told, hreading]
    · simp [came, hreading, recv_toNat]
    · simp
      omega
  · rename_i hread w _ _ hgrows
    exact adds_of_grows (by simp [reading, hread]) (hgrows.imp fun _ => And.left)
  · rename_i hread w _ _
    intro hgrows
    exact adds_of_grows (by simp [reading, hread]) (hgrows.imp fun _ => And.left)

/-- What holds however a function ends holds after its call. -/
theorem of_call_unit {P : World → Prop} {h : Handler Unit} {w w' : World} {o : Outcome}
    (hspec : ⦃fun w' => ⌜w' = w⌝⦄ h ⦃post⟨fun _ w' => ⌜P w'⌝, fun _ w' => ⌜P w'⌝⟩⦄)
    (hcall : some (call (do h; return .returned) w) = some (o, w')) : P w' := by
  have hends := ends_of_spec hspec
  cases hw : h w with
  | ok a w₁ =>
    rw [hw] at hends
    rw [call_ok hw] at hcall
    cases hcall
    exact hends
  | error e w₁ =>
    rw [hw] at hends
    rw [call_error hw] at hcall
    cases hcall
    exact hends

/-- A callback that returns is followed by the rest of `cb_ev`. -/
theorem grows_of_returns {w w' : World} {result : WriteResult}
    (h : TcpClient.next w (.in_data_cb_returns result) = some w') :
    Grows (Rests result) w w' := by
  simp only [TcpClient.next, step, Option.map_eq_some_iff, Prod.exists, exists_eq_right] at h
  obtain ⟨o, h⟩ := h
  split at h
  · cases h
  · rename_i events frames hf
    have hgrows := of_call_unit (cb_ev_rest_grows events result _) h
    exact hgrows

theorem adds_of_next {w w' : World} {s : Step} (h : TcpClient.next w s = some w') :
    Adds s w w' := by
  cases s with
  | in_data_cb_returns result =>
    exact adds_of_grows rfl ((grows_of_returns h).imp fun _ => And.left)
  | write_data data =>
    simp only [TcpClient.next, step, Option.map_eq_some_iff, Prod.exists, exists_eq_right] at h
    obtain ⟨o, h⟩ := h
    split at h
    · exact adds_of_grows rfl (of_call_unit (write_data_grows data w) h)
    · cases h
  | cb_ev events received result =>
    simp only [TcpClient.next, step, Option.map_eq_some_iff, Prod.exists, exists_eq_right] at h
    obtain ⟨o, h⟩ := h
    split at h
    · exact of_call (P := fun _ w' => Adds (.cb_ev events received result) w w') h
        (cb_ev_adds events received result w)
    · cases h
  | in_data_cb_throws =>
    simp only [TcpClient.next, step, Option.map_eq_some_iff, Prod.exists, exists_eq_right] at h
    obtain ⟨o, h⟩ := h
    split at h
    · cases h
    · cases h
      exact adds_of_grows rfl ⟨[], by simp, by simp⟩
  | destroy =>
    simp only [TcpClient.next, step, Option.map_eq_some_iff, Prod.exists, exists_eq_right] at h
    obtain ⟨o, h⟩ := h
    split at h
    · rw [call_ok (destruct_eq w)] at h
      cases h
      exact adds_of_grows rfl ⟨farewell w.client, rfl, farewell_deaf w.client⟩
    · cases h

end Conversation

end rmrf.net
