-- What each member function of the client does, and from that what one step of a run
-- can do. Every law of the client goes by the cases of `Took`, and none of them opens
-- a member function again.
import Rmrf.Stateful
import Rmrf.TcpClient

open Std.Do stateful

set_option mvcgen.warning false

namespace rmrf.net

namespace TcpClient

/-! ## The specs of the single statements -/

abbrev Post (α : Type) := PostCond α (.except Exn (.arg World .pure))

@[spec] theorem note.spec (e : Effect) (Q : Post Unit) :
    ⦃fun w => Q.1 () { w with trace := w.trace ++ [e] }⦄ note e ⦃Q⦄ := by
  mvcgen [note]

@[spec] theorem io_set.spec (events : Events) (Q : Post Unit) :
    ⦃fun w => Q.1 () { w with
      client.io.events := events, trace := w.trace ++ [.io_set events] }⦄
    io_set events ⦃Q⦄ := by
  mvcgen [io_set]

@[spec] theorem io_stop.spec (Q : Post Unit) :
    ⦃fun w => Q.1 () { w with client.io.active := false, trace := w.trace ++ [.io_stop] }⦄
    io_stop ⦃Q⦄ := by
  mvcgen [io_stop]

@[spec] theorem queue_empty.spec (Q : Post Bool) :
    ⦃fun w => Q.1 w.client.write_queue.empty { w with trace := w.trace ++ [.write_queue] }⦄
    queue_empty ⦃Q⦄ := by
  mvcgen [queue_empty]

@[spec] theorem queue_push_back.spec (data : IoRecord) (Q : Post Unit) :
    ⦃fun w => Q.1 () { w with
      client.write_queue := (w.client.write_queue.push_back data).1
      trace := w.trace ++ [.write_queue] }⦄
    queue_push_back data ⦃Q⦄ := by
  mvcgen [queue_push_back]

@[spec] theorem queue_push_front.spec (data : IoRecord) (Q : Post Unit) :
    ⦃fun w => Q.1 () { w with
      client.write_queue := w.client.write_queue.push_front data
      trace := w.trace ++ [.write_queue] }⦄
    queue_push_front data ⦃Q⦄ := by
  mvcgen [queue_push_front]

@[spec] theorem queue_pop_front.spec (Q : Post IoRecord) :
    ⦃fun w => Q.1 w.client.write_queue.pop_front.1 { w with
      client.write_queue := w.client.write_queue.pop_front.2
      trace := w.trace ++ [.write_queue] }⦄
    queue_pop_front ⦃Q⦄ := by
  mvcgen [queue_pop_front]

@[spec] theorem close_socket.spec (Q : Post Unit) :
    ⦃fun w => Q.1 () { w with
      client.net_socket := -1
      trace := w.trace ++ if w.client.net_socket ≥ 0 then [.close w.client.net_socket] else [] }⦄
    close_socket ⦃Q⦄ := by
  mvcgen [close_socket]
  all_goals simp_all +zetaDelta

@[spec] theorem end_life.spec (Q : Post Unit) :
    ⦃fun w => Q.1 () { w with alive := false, trace := w.trace ++ [.destroyed] }⦄
    end_life ⦃Q⦄ := by
  mvcgen [end_life]

@[spec] theorem enter_callback.spec (events : Events) (data : List UInt8) (Q : Post Unit) :
    ⦃fun w => Q.1 () { w with
      frames := events :: w.frames, trace := w.trace ++ [.in_data_cb data] }⦄
    enter_callback events data ⦃Q⦄ := by
  mvcgen [enter_callback]

/-! ## The bytes on their way out -/

/-- The bytes that the kernel took in a `write`. -/
def taken : Effect → List UInt8
  | .write buffer written => buffer.take written.toNat
  | _ => []

/-- The bytes that the kernel took so far. -/
def sent (trace : List Effect) : List UInt8 := trace.flatMap taken

@[simp] theorem sent_append (a b : List Effect) : sent (a ++ b) = sent a ++ sent b := by
  simp [sent]

@[simp] theorem sent_cons (e : Effect) (t : List Effect) : sent (e :: t) = taken e ++ sent t := by
  simp [sent]

@[simp] theorem sent_nil : sent [] = [] := rfl

end TcpClient

/-- The bytes of the write queue that are still to be sent. -/
def World.unsent (w : World) : List UInt8 := w.client.write_queue.unsent

def World.Sound (w : World) : Prop := w.client.write_queue.Sound

namespace TcpClient

/-! ## The rest of `cb_ev` -/

/-- A call has sent some first bytes of the queue and kept the others. -/
structure Flushes (w w' : World) (new : List Effect) : Prop where
  sound : w'.Sound
  trace : w'.trace = w.trace ++ new
  stream : ∃ n, sent new = w.unsent.take n ∧ w'.unsent = w.unsent.drop n
  alive : w'.alive = w.alive
  frames : w'.frames = w.frames
  destroyed : .destroyed ∉ new

/-- A call has thrown after a failed `write`, and the record it had taken from the
front of the queue is gone. -/
structure Drops (w w' : World) (result : WriteResult) (new : List Effect) : Prop where
  errno : ∃ e, result = .fails e ∧ e ≠ EAGAIN
  uses : .write_queue ∈ new
  head : ∃ r, w.client.write_queue.queue = r :: w'.client.write_queue.queue
  trace : w'.trace = w.trace ++ new
  sent : sent new = []
  events : w'.client.io.events = w.client.io.events
  alive : w'.alive = w.alive
  frames : w'.frames = w.frames
  destroyed : .destroyed ∉ new

theorem Flushes.trans {w w' w'' : World} {new new' : List Effect} (h : Flushes w w' new)
    (h' : Flushes w' w'' new') : Flushes w w'' (new ++ new') := by
  obtain ⟨n, hs, hu⟩ := h.stream
  obtain ⟨m, hs', hu'⟩ := h'.stream
  refine ⟨h'.sound, by rw [h'.trace, h.trace, List.append_assoc], ⟨n + m, ?_, ?_⟩,
    h'.alive.trans h.alive, h'.frames.trans h.frames, by simp [h.destroyed, h'.destroyed]⟩
  · rw [sent_append, hs, hs', hu, List.take_add]
  · rw [hu', hu, List.drop_drop]

/-- A call that has sent nothing has kept everything. -/
theorem Flushes.quiet {w w' : World} {new : List Effect} (h : Flushes w w' new)
    (hnew : sent new = []) : w'.unsent = w.unsent := by
  obtain ⟨n, hs, hu⟩ := h.stream
  have hall := List.take_append_drop n w.unsent
  rwa [← hs, hnew, List.nil_append, ← hu] at hall

/-- A queue that is not empty has a front record, which is read from its offset. -/
theorem exists_front {w : World} (hs : w.Sound) (h : ¬ w.client.write_queue.empty = true) :
    ∃ r rest, w.client.write_queue = ⟨r :: rest⟩ ∧ r.bytes = r.unread := by
  unfold World.Sound at hs
  rcases hq : w.client.write_queue with ⟨_ | ⟨r, rest⟩⟩
  · rw [hq] at h
    exact absurd rfl h
  · rw [hq] at hs
    exact ⟨r, rest, rfl, IoRecord.bytes_of_fits hs.head.1⟩

/-- The front record goes back without its first `n` bytes. -/
theorem flushes_front {w w' : World} {r : IoRecord} {rest : List IoRecord} {n : Nat}
    {new : List Effect} (hs : w.Sound) (hq : w.client.write_queue = ⟨r :: rest⟩)
    (hq' : w'.client.write_queue = IoQueue.push_front ⟨rest⟩ (r.advance n))
    (hn : n ≤ r.unread.length) (hsent : sent new = r.unread.take n)
    (htrace : w'.trace = w.trace ++ new) (ha : w'.alive = w.alive) (hf : w'.frames = w.frames)
    (hd : .destroyed ∉ new) : Flushes w w' new := by
  unfold World.Sound at hs
  rw [hq] at hs
  have hr := hs.head
  obtain ⟨hsound, hun⟩ := IoQueue.push_front.spec hs.tail (IoRecord.fits_advance hr.1 n)
  refine ⟨?_, htrace, ⟨n, ?_, ?_⟩, ha, hf, hd⟩
  · unfold World.Sound
    rw [hq']
    exact hsound
  · unfold World.unsent
    rw [hq, IoQueue.unsent_cons, hsent, List.take_append_of_le_length hn]
  · unfold World.unsent
    rw [hq', hun, IoRecord.unread_advance hr.1, hq, IoQueue.unsent_cons,
      List.drop_append_of_le_length hn]

@[spec]
theorem push_write_queue.spec (result : WriteResult) (w0 : World) (hs : w0.Sound) :
    ⦃fun w => ⌜w = w0⌝⦄ push_write_queue result
    ⦃post⟨fun _ w => ⌜∃ new, Flushes w0 w new ∧ (w0.unsent = [] ∨ result.Passes) ∧
            ∀ e, result = .fails e → sent new = []⌝,
          fun _ w => ⌜∃ new, Drops w0 w result new⌝⟩⦄ := by
  mvcgen [push_write_queue]
  · -- no record: only the event set changes
    rename_i w hw hempty
    subst hw
    have hnil : w.unsent = [] := (IoQueue.empty_iff hs).mp hempty
    exact ⟨[.write_queue, .io_set ev.READ],
      ⟨hs, by simp, ⟨0, by simp [taken], rfl⟩, rfl, rfl, by simp⟩, Or.inl hnil,
      fun _ _ => by simp [taken]⟩
  · rename_i w hw hempty written hwritten
    subst hw
    obtain ⟨r, rest, hq, hb⟩ := exists_front hs hempty
    rcases result with k | e
    · obtain ⟨n, hle, hn⟩ : ∃ n ≤ r.unread.length, written = (n : Int) :=
        ⟨min k r.unread.length, Nat.min_le_right _ _, by
          simp [written, write, hq, IoQueue.pop_front, hb]⟩
      refine ⟨_, flushes_front hs hq (n := n) ?_ hle ?_
        (by simp only [List.append_assoc]; rfl) rfl rfl ?_, Or.inr (by simp [WriteResult.Passes]),
        fun e he => (by cases he)⟩
      · simp [hq, IoQueue.pop_front, hn]
      · simp [taken, hq, IoQueue.pop_front, hb, hn]
      · simp
    · exact absurd hwritten (by simp [written, write])
  · rename_i w hw hempty written hwritten herrno
    subst hw
    obtain ⟨r, rest, hq, _⟩ := exists_front hs hempty
    rcases result with k | e
    · exact absurd (by simp [written, write]) hwritten
    · refine ⟨[.write_queue, .write_queue, .write r.bytes (-1)], ⟨e, rfl, herrno⟩, by simp,
        ⟨r, by simp [hq, IoQueue.pop_front]⟩, ?_, by simp [taken], rfl, rfl, rfl, by simp⟩
      simp [written, write, hq, IoQueue.pop_front]
  · rename_i w hw hempty written hwritten herrno
    subst hw
    obtain ⟨r, rest, hq, _⟩ := exists_front hs hempty
    rcases result with k | e
    · exact absurd (by simp [written, write]) hwritten
    · have he : e = EAGAIN := not_not.mp herrno
      refine ⟨_, flushes_front hs hq (n := 0) ?_ (Nat.zero_le _) ?_
        (by simp only [List.append_assoc]; rfl) rfl rfl ?_,
        Or.inr (by simp [WriteResult.Passes, he]), fun _ _ => ?_⟩
      · have hfits : r.Fits := by
          rw [World.Sound, hq] at hs
          exact hs.head.1
        simp [hq, IoQueue.pop_front, IoRecord.advance_zero hfits]
      · simp [taken, written, write]
      · simp
      · simp [taken, written, write]

/-- A call of `cb_ev` has come to its end: it asks for `WRITE` when bytes wait. -/
structure Finishes (w w' : World) (new : List Effect) : Prop extends Flushes w w' new where
  uses : .write_queue ∈ new
  events : w'.client.io.events = if w'.unsent = [] then ev.READ else ev.READ ||| ev.WRITE

theorem finishes_of_flushes {w w' : World} {new : List Effect} (h : Flushes w w' new)
    (events : Events)
    (he : events = if w'.client.write_queue.empty then ev.READ else ev.READ ||| ev.WRITE) :
    Finishes w { w' with
        client.io.events := events
        trace := w'.trace ++ [.write_queue] ++ [.io_set events] }
      (new ++ [.write_queue, .io_set events]) := by
  have hflush : Flushes w' { w' with
      client.io.events := events
      trace := w'.trace ++ [.write_queue] ++ [.io_set events] } [.write_queue, .io_set events] :=
    ⟨h.sound, by simp, ⟨0, by simp [taken], rfl⟩, rfl, rfl, by simp⟩
  refine ⟨h.trans hflush, by simp, ?_⟩
  rw [he]
  by_cases hempty : w'.client.write_queue.empty = true
  · have hnil : w'.unsent = [] := (IoQueue.empty_iff h.sound).mp hempty
    rw [if_pos hempty]
    exact (if_pos hnil).symm
  · have hne : w'.unsent ≠ [] := fun hn => hempty ((IoQueue.empty_iff h.sound).mpr hn)
    rw [if_neg hempty]
    exact (if_neg hne).symm

theorem Flushes.refl {w : World} (hs : w.Sound) : Flushes w w [] :=
  ⟨hs, by simp, ⟨0, by simp, rfl⟩, rfl, rfl, by simp⟩

@[spec]
theorem cb_ev_rest.spec (events : Events) (result : WriteResult) (w0 : World) (hs : w0.Sound) :
    ⦃fun w => ⌜w = w0⌝⦄ cb_ev_rest events result
    ⦃post⟨fun _ w => ⌜∃ new, Finishes w0 w new⌝,
          fun _ w => ⌜has events ev.WRITE ∧ ∃ new, Drops w0 w result new⌝⟩⦄ := by
  mvcgen [cb_ev_rest]
  all_goals subst_vars
  · exact hs
  · rename_i hw hempty
    obtain ⟨new, hflush, _⟩ := hw
    exact ⟨_, finishes_of_flushes hflush _ (by simp [hempty])⟩
  · rename_i hw hempty
    obtain ⟨new, hflush, _⟩ := hw
    exact ⟨_, finishes_of_flushes hflush _ (by simp [hempty])⟩
  · intro hdrop
    exact ⟨‹_›, hdrop⟩
  · rename_i hempty
    exact ⟨_, finishes_of_flushes (Flushes.refl hs) _ (by simp [hempty])⟩
  · rename_i hempty
    exact ⟨_, finishes_of_flushes (Flushes.refl hs) _ (by simp [hempty])⟩

/-! ## The other member functions -/

/-- What `~tcp_client` does that others can see. -/
def farewell (c : TcpClient) : List Effect :=
  (if c.destructor_cb then [.destructor_cb .NO_ERROR] else []) ++ [.io_stop, .io_stop] ++
    (if c.net_socket ≥ 0 then [.close c.net_socket] else []) ++ [.destroyed]

/-- The world after `~tcp_client`. -/
def destructed (w : World) : World :=
  { w with
    client.io.active := false
    client.net_socket := -1
    alive := false
    trace := w.trace ++ farewell w.client }

@[spec]
theorem destruct.spec (w0 : World) :
    ⦃fun w => ⌜w = w0⌝⦄ destruct ⦃⇓ _ w => ⌜w = destructed w0⌝⦄ := by
  mvcgen [destruct]
  all_goals subst_vars
  all_goals simp_all [destructed, farewell]

/-- `write_data` has put the bytes behind those that wait. -/
structure Stores (w w' : World) (data : List UInt8) : Prop where
  sound : w'.Sound
  unsent : w'.unsent = w.unsent ++ data
  events : w'.client.io.events = ev.READ ||| ev.WRITE
  trace : w'.trace = w.trace ++ [.write_queue, .io_set (ev.READ ||| ev.WRITE)]
  alive : w'.alive = w.alive
  frames : w'.frames = w.frames

@[spec]
theorem write_data.spec (data : List UInt8) (w0 : World) (hs : w0.Sound) :
    ⦃fun w => ⌜w = w0⌝⦄ write_data data ⦃⇓ _ w => ⌜Stores w0 w data⌝⦄ := by
  mvcgen [write_data]
  subst_vars
  obtain ⟨hsound, hun⟩ := IoQueue.push_back.spec hs (IoRecord.fits_of_buffer data)
  exact ⟨hsound, hun, rfl, by simp, rfl, rfl⟩

/-! ## What a step can do -/

/-- Where the rest of a `cb_ev` call begins in a step: the world there, the events of
the call, and what the kernel will answer to `write`. -/
inductive Rest (w : World) : Step → World → Events → WriteResult → Prop
  | no_read {events received result} : w.alive = true → ¬ has events ev.ERROR →
      ¬ has events ev.READ → Rest w (.cb_ev events received result) w events result
  | end_of_stream {events received result} : w.alive = true → ¬ has events ev.ERROR →
      has events ev.READ → (recv 1024 received).1 = 0 →
      Rest w (.cb_ev events received result)
        (destructed { w with trace := w.trace ++ [.recv 0] }) events result
  | callback {events frames result} : w.frames = events :: frames →
      Rest w (.in_data_cb_returns result) { w with frames } events result

/-- What one step can do. -/
inductive Took (w : World) : Step → Outcome → World → Prop
  | write_data {data w'} : w.alive = true → Stores w w' data →
      Took w (.write_data data) .returned w'
  | error {events received result} : w.alive = true → has events ev.ERROR →
      Took w (.cb_ev events received result) .returned w
  | recv_fails {events received result} : w.alive = true → ¬ has events ev.ERROR →
      has events ev.READ → (recv 1024 received).1 < 0 →
      Took w (.cb_ev events received result) .threw
        { w with trace := w.trace ++ [.recv (recv 1024 received).1] }
  | waits {events received result} : w.alive = true → ¬ has events ev.ERROR →
      has events ev.READ → 0 < (recv 1024 received).1 →
      Took w (.cb_ev events received result) .in_data_cb
        { w with
          frames := events :: w.frames
          trace := w.trace ++
            [.recv (recv 1024 received).1, .in_data_cb (recv 1024 received).2] }
  | finishes {s w₁ events result w' new} : Rest w s w₁ events result → Finishes w₁ w' new →
      Took w s .returned w'
  | drops {s w₁ events result w' new} : Rest w s w₁ events result → has events ev.WRITE →
      Drops w₁ w' result new → Took w s .threw w'
  | callback_throws {events frames} : w.frames = events :: frames →
      Took w .in_data_cb_throws .threw { w with frames }
  | destroy : w.alive = true → Took w .destroy .returned (destructed w)

theorem cb_ev.spec (events : Events) (received : RecvResult) (result : WriteResult) (w0 : World)
    (hs : w0.Sound) (ha : w0.alive = true) :
    ⦃fun w => ⌜w = w0⌝⦄ cb_ev events received result
    ⦃post⟨fun o w => ⌜Took w0 (.cb_ev events received result) o w⌝,
          fun _ w => ⌜Took w0 (.cb_ev events received result) .threw w⌝⟩⦄ := by
  mvcgen [cb_ev]
  all_goals subst_vars
  · exact .error ha ‹_›
  · exact .recv_fails ha ‹_› ‹_› ‹_›
  · exact hs
  · rename_i hzero _ _ _ hfin
    obtain ⟨new, hfin⟩ := hfin
    rw [hzero] at hfin
    exact .finishes (.end_of_stream ha ‹_› ‹_› hzero) hfin
  · rename_i hzero _ _ _
    rintro hwrite ⟨new, hdrop⟩
    rw [hzero] at hdrop
    exact .drops (.end_of_stream ha ‹_› ‹_› hzero) hwrite hdrop
  · rw [List.append_assoc]
    exact .waits ha ‹_› ‹_› (by omega)
  · exact hs
  · rename_i hfin
    obtain ⟨new, hfin⟩ := hfin
    exact .finishes (.no_read ha ‹_› ‹_›) hfin
  · rintro hwrite ⟨new, hdrop⟩
    exact .drops (.no_read ha ‹_› ‹_›) hwrite hdrop

/-- What a spec says of a function holds where the function ends. -/
theorem ends_of_spec {α : Type} {h : Handler α} {w : World} {Q : α → World → Prop}
    {E : World → Prop}
    (ht : ⦃fun w' => ⌜w' = w⌝⦄ h ⦃post⟨fun a w' => ⌜Q a w'⌝, fun _ w' => ⌜E w'⌝⟩⦄) :
    match h w with
    | .ok a w' => Q a w'
    | .error _ w' => E w' := by
  have hends := ht w rfl
  simp only [wp, PredTrans.apply, EStateM.run] at hends
  cases hw : h w with
  | ok a w' =>
    rw [hw] at hends
    exact hends
  | error e w' =>
    rw [hw] at hends
    exact hends

theorem destruct_eq (w : World) : destruct w = .ok () (destructed w) := by
  have hends := ends_of_spec (E := fun _ => False) (destruct.spec w)
  cases hw : destruct w with
  | ok a w' =>
    rw [hw] at hends
    rw [hends]
  | error e w' =>
    rw [hw] at hends
    exact hends.elim

theorem call_bind {α : Type} {h : Handler α} {a : α} {w w' : World} (hh : h w = .ok a w')
    (k : α → Handler Outcome) : call (h >>= k) w = call (k a) w' := by
  unfold call
  rw [bind_ok hh]

theorem call_ok {h : Handler Unit} {w w' : World} (hh : h w = .ok () w') :
    call (do h; return .returned) w = (.returned, w') := by
  rw [call_bind hh]
  rfl

theorem call_error {h : Handler Unit} {w w' : World} {x : Exn} (hh : h w = .error x w') :
    call (do h; return .returned) w = (.threw, w') := by
  unfold call
  rw [bind_error hh]

theorem of_call {h : Handler Outcome} {w w' : World} {o : Outcome} {P : Outcome → World → Prop}
    (hcall : some (call h w) = some (o, w'))
    (ht : ⦃fun w' => ⌜w' = w⌝⦄ h ⦃post⟨fun o w' => ⌜P o w'⌝, fun _ w' => ⌜P .threw w'⌝⟩⦄) :
    P o w' := by
  have hends := ends_of_spec ht
  simp only [Option.some.injEq, call] at hcall
  cases hw : h w with
  | ok o w' =>
    rw [hw] at hcall hends
    cases hcall
    exact hends
  | error e w' =>
    rw [hw] at hcall hends
    cases hcall
    exact hends

/-- The cases of a step, from a sound queue. -/
theorem step_cases {w w' : World} {s : Step} {o : Outcome} (hs : w.Sound)
    (h : step w s = some (o, w')) : Took w s o w' := by
  cases s with
  | write_data data =>
    simp only [step] at h
    split at h
    · apply of_call h
      mvcgen
      all_goals subst_vars
      · exact hs
      · exact .write_data ‹_› ‹_›
    · cases h
  | cb_ev events received result =>
    simp only [step] at h
    split at h
    · exact of_call h (cb_ev.spec events received result w hs ‹_›)
    · cases h
  | in_data_cb_returns result =>
    simp only [step] at h
    split at h
    · cases h
    · rename_i events frames hf
      apply of_call h
      mvcgen
      all_goals subst_vars
      · exact hs
      · rename_i hfin
        obtain ⟨new, hfin⟩ := hfin
        exact .finishes (.callback hf) hfin
      · rintro hwrite ⟨new, hdrop⟩
        exact .drops (.callback hf) hwrite hdrop
  | in_data_cb_throws =>
    simp only [step] at h
    split at h
    · cases h
    · rename_i hf
      cases h
      exact .callback_throws hf
  | destroy =>
    simp only [step] at h
    split at h
    · apply of_call h
      mvcgen
      subst_vars
      exact .destroy ‹_›
    · cases h

end TcpClient

end rmrf.net
