-- The law of the results that ask to try again: an event that only meets such results is
-- unseen when it does not read and its write fails with EAGAIN. A read has no test for
-- them, and a write has none for a signal.
import Rmrf.ClientStatements
import Rmrf.WriteInterest

open runs stateful

namespace rmrf.net

/-- On Linux the same number as EAGAIN. -/
def EWOULDBLOCK : Errno := EAGAIN

/-- The error says to try again. -/
def Errno.Transient (e : Errno) : Prop := e = EAGAIN ∨ e = EWOULDBLOCK ∨ e = EINTR

namespace TcpClient

/-! ## What others see of a client -/

/-- The effects that are not the client's own bookkeeping. -/
def visible : Effect → Bool
  | .write_queue => false
  | .io_set _ => false
  | .recv received => 0 ≤ received
  | .write _ written => 0 ≤ written
  | _ => true

/-- What others saw so far. -/
def observed (trace : List Effect) : List Effect := trace.filter visible

/-- Two worlds whose clients are the same, and were seen to do the same. -/
structure Alike (u w : World) : Prop where
  client : w.client = u.client
  alive : w.alive = u.alive
  frames : w.frames = u.frames
  observed : observed w.trace = observed u.trace

/-- How the calls end that the steps make, as far as they can be taken. -/
def outcomes (w : World) : List Step → List Outcome
  | [] => []
  | s :: rest =>
    match step w s with
    | none => []
    | some (o, w') => o :: outcomes w' rest

/-- The events that are put into a run throw nothing, and leave a client that is like
the one without them, now and later. -/
structure Unseen (start u : World) (marked : List (Step × Bool)) : Prop where
  quiet : Meets (marking next)
    (fun t p => p.2 = true → ∀ o t', step t p.1 = some (o, t') → o ≠ .threw) start marked
  alike : ∃ w, run next start (marked.map Prod.fst) = some w ∧ Alike u w ∧
    ∀ later, outcomes w later = outcomes u later ∧
      Option.Rel Alike (run next u later) (run next w later)

/-- An event for `READ` or `WRITE` of which each call of `recv` or `write`, and there is
one at least, fails with an error that says to try again. -/
def Transient (w : World) : Step → Prop
  | .cb_ev events received result =>
    w.alive = true ∧ ¬ has events ev.ERROR ∧
      (has events ev.READ → ∃ e : Errno, e.Transient ∧ received = .fails e) ∧
      (has events ev.WRITE → w.client.write_queue.empty = false →
        ∃ e : Errno, e.Transient ∧ result = .fails e) ∧
      (has events ev.READ ∨ has events ev.WRITE ∧ w.client.write_queue.empty = false)
  | _ => False

/-- The event does not read, and its write fails with EAGAIN. -/
def Harmless : Step → Prop
  | .cb_ev events _ result => ¬ has events ev.READ ∧ result = .fails EAGAIN
  | _ => False

/-! ## The client does not look at its trace -/

/-- The world with something before its trace. -/
def after (t : List Effect) (w : World) : World := { w with trace := t ++ w.trace }

/-- The end of a call with something before the trace of its world. -/
def afterEnd {α : Type} (t : List Effect) : EStateM.Result Exn World α → EStateM.Result Exn World α
  | .ok a w => .ok a (after t w)
  | .error e w => .error e (after t w)

/-- A function does the same whatever was done before. -/
def Blind {α : Type} (h : Handler α) : Prop := ∀ t w, h (after t w) = afterEnd t (h w)

theorem Blind.bind {α β : Type} {h : Handler α} {k : α → Handler β} (hh : Blind h)
    (hk : ∀ a, Blind (k a)) : Blind (h >>= k) := by
  intro t w
  show EStateM.bind h k (after t w) = afterEnd t (EStateM.bind h k w)
  unfold EStateM.bind
  rw [hh t w]
  cases h w with
  | ok a w' => exact hk a t w'
  | error e w' => rfl

theorem Blind.modify {f : World → World} (hf : ∀ t w, f (after t w) = after t (f w)) :
    Blind (modify f : Handler Unit) := by
  intro t w
  show EStateM.Result.ok () (f (after t w)) = EStateM.Result.ok () (after t (f w))
  rw [hf]

theorem Blind.note (e : Effect) : Blind (note e) := by
  apply Blind.modify
  intro t w
  simp [after]

theorem blind_statements : Statements @Blind where
  pure _ _ _ := rfl
  throw _ _ _ := rfl
  bind := Blind.bind
  look f _ hk t w := hk (f w.client) t w
  note _ := Blind.note _
  set_events _ := Blind.modify fun _ _ => rfl
  set_queue _ := Blind.modify fun _ _ => rfl
  push_frame _ := Blind.modify fun _ _ => rfl

theorem destruct.blind : Blind destruct := by
  intro t w
  rw [destruct_eq, destruct_eq]
  simp [afterEnd, destructed, after]

theorem cb_ev.blind (events : Events) (received : RecvResult) (result : WriteResult) :
    Blind (cb_ev events received result) := by
  apply blind_statements.cb_ev
  intro _ _ _
  exact Blind.bind (Blind.note _) fun _ => Blind.bind destruct.blind fun _ =>
    blind_statements.returned (blind_statements.cb_ev_rest events result)

theorem call_after {h : Handler Outcome} (hh : Blind h) (t : List Effect) (w : World) :
    call h (after t w) = Prod.map id (after t) (call h w) := by
  unfold call
  rw [hh t w]
  cases h w <;> rfl

/-- A step does the same whatever was done before. -/
theorem step_after (t : List Effect) (w : World) (s : Step) :
    step (after t w) s = (step w s).map (Prod.map id (after t)) := by
  cases s with
  | write_data data =>
    have hcall := call_after (blind_statements.returned (blind_statements.write_data data)) t w
    by_cases ha : w.alive = true
    · simpa [step, after, ha] using hcall
    · simp [step, after, ha]
  | cb_ev events received result =>
    have hcall := call_after (cb_ev.blind events received result) t w
    by_cases ha : w.alive = true
    · simpa [step, after, ha] using hcall
    · simp [step, after, ha]
  | in_data_cb_returns result =>
    cases hf : w.frames with
    | nil => simp [step, after, hf]
    | cons events frames =>
      have hcall := call_after
        (blind_statements.returned (blind_statements.cb_ev_rest events result)) t { w with frames }
      simpa [step, after, hf] using hcall
  | in_data_cb_throws =>
    cases hf : w.frames <;> simp [step, after, hf]
  | destroy =>
    have hcall := call_after (blind_statements.returned destruct.blind) t w
    by_cases ha : w.alive = true
    · simpa [step, after, ha] using hcall
    · simp [step, after, ha]

/-- Worlds that are alike take the same steps, and are alike behind them. -/
theorem step_alike {u w : World} (h : Alike u w) (s : Step) :
    step u s = none ∧ step w s = none ∨
      ∃ o u' w', step u s = some (o, u') ∧ step w s = some (o, w') ∧ Alike u' w' := by
  have hu : u = after u.trace { u with trace := [] } := by simp [after]
  have hw : w = after w.trace { u with trace := [] } := by
    obtain ⟨hc, ha, hf, _⟩ := h
    cases w
    simp_all [after]
  have hstep := step_after u.trace { u with trace := [] } s
  have hstep' := step_after w.trace { u with trace := [] } s
  rw [← hu] at hstep
  rw [← hw] at hstep'
  cases hs : step { u with trace := [] } s with
  | none =>
    rw [hs] at hstep hstep'
    exact Or.inl ⟨hstep, hstep'⟩
  | some p =>
    rw [hs] at hstep hstep'
    refine Or.inr ⟨p.1, _, _, hstep, hstep', rfl, rfl, rfl, ?_⟩
    have hobs := h.observed
    unfold observed at hobs ⊢
    simp [after, hobs]

/-! ## The events that are put in -/

/-- Records that wait have the watcher ask for both events. -/
def Asking (w : World) : Prop :=
  w.client.write_queue.queue ≠ [] → w.client.io.events = ev.READ ||| ev.WRITE

theorem Took.asking {w w' : World} {s : Step} {o : Outcome} (h : Took w s o w')
    (hw : Asking w) : Asking w' := by
  cases h with
  | write_data _ hst =>
    intro _
    exact hst.events
  | error => exact hw
  | recv_fails => exact hw
  | waits => exact hw
  | finishes _ hfin =>
    intro hq
    rw [hfin.events, if_neg (unsent_ne_nil hfin.sound hq)]
  | drops hrest _ hdrop =>
    obtain ⟨r, hr⟩ := hdrop.head
    intro _
    rw [hdrop.events, hrest.events]
    apply hw
    rw [← hrest.queue, hr]
    exact List.cons_ne_nil _ _
  | callback_throws => exact hw
  | destroy => exact hw

/-- A reachable client has these two. -/
def Steady (w : World) : Prop := w.Sound ∧ Asking w

theorem steady_next {w w' : World} {s : Step} (hw : Steady w) (h : next w s = some w') :
    Steady w' := by
  obtain ⟨o, ho⟩ := exists_took hw.1 h
  exact ⟨ho.sound hw.1, ho.asking hw.2⟩

/-- With EAGAIN the front record goes back. -/
theorem push_write_queue_again {w : World} {r : IoRecord} {rest : List IoRecord}
    (hq : w.client.write_queue = ⟨r :: rest⟩) (hr : r.empty = false) :
    push_write_queue (.fails EAGAIN) w =
      .ok () { w with
        trace := w.trace ++ [.write_queue, .write_queue, .write r.bytes (-1), .write_queue] } := by
  obtain ⟨⟨dcb, peer, port, socket, io, queue⟩, alive, frames, trace⟩ := w
  obtain rfl : queue = ⟨r :: rest⟩ := hq
  have hback : IoQueue.push_front ⟨rest⟩ r = ⟨r :: rest⟩ := by simp [IoQueue.push_front, hr]
  show EStateM.Result.ok () (World.mk ⟨dcb, peer, port, socket, io, IoQueue.push_front ⟨rest⟩ r⟩
    alive frames (trace ++ [.write_queue] ++ [.write_queue] ++ [.write r.bytes (-1)] ++
      [.write_queue])) = _
  rw [hback]
  simp

theorem cb_ev_rest_again {w : World} {events : Events} (hw : Steady w)
    (hwrite : has events ev.WRITE = true) (hempty : w.client.write_queue.empty = false) :
    ∃ w', cb_ev_rest events (.fails EAGAIN) w = .ok () w' ∧ Alike w w' := by
  obtain ⟨hsound, hasking⟩ := hw
  obtain ⟨r, rest, hq, _⟩ := exists_front hsound (by simp [hempty])
  have hhead : r.Fits ∧ r.unread ≠ [] := hsound r (by simp [hq])
  have hr : r.empty = false := by
    rw [← Bool.not_eq_true, IoRecord.empty_iff hhead.1]
    exact hhead.2
  have hevents : w.client.io.events = ev.READ ||| ev.WRITE := hasking (by simp [hq])
  have hpush := push_write_queue_again hq hr
  obtain ⟨⟨dcb, peer, port, socket, ⟨fd, evs, active⟩, queue⟩, alive, frames, trace⟩ := w
  obtain rfl : queue = ⟨r :: rest⟩ := hq
  obtain rfl : evs = ev.READ ||| ev.WRITE := hevents
  refine ⟨⟨_, alive, frames, trace ++ [.write_queue, .write_queue, .write r.bytes (-1),
    .write_queue] ++ [.write_queue] ++ [.io_set (ev.READ ||| ev.WRITE)]⟩, ?_, rfl, rfl, rfl, ?_⟩
  · unfold cb_ev_rest
    rw [if_pos hwrite]
    rw [bind_ok hpush]
    rfl
  · simp [observed, visible]

theorem cb_ev_rest_threw {w : World} {events : Events} {e : Errno} (hs : w.Sound)
    (hwrite : has events ev.WRITE = true) (hempty : w.client.write_queue.empty = false)
    (he : e ≠ EAGAIN) : ∃ x w', cb_ev_rest events (.fails e) w = .error x w' := by
  obtain ⟨x, w', hthrow, _⟩ := push_write_queue_loses hs hempty he
  refine ⟨x, w', ?_⟩
  unfold cb_ev_rest
  rw [if_pos hwrite, bind_error hthrow]

/-- An event that does not read is the rest of `cb_ev`. -/
theorem step_no_read {w : World} {events : Events} (ha : w.alive = true)
    (herror : ¬ has events ev.ERROR) (hread : ¬ has events ev.READ) (received : RecvResult)
    (result : WriteResult) :
    step w (.cb_ev events received result) =
      some (call (do cb_ev_rest events result; return .returned) w) := by
  simp only [step, if_pos ha, call, cb_ev, if_neg herror, if_neg hread]

/-- A harmless event puts the front record back, and asks for what was asked for. -/
theorem step_harmless {w : World} {s : Step} (hw : Steady w) (ht : Transient w s)
    (hs : Harmless s) : ∃ w', step w s = some (.returned, w') ∧ Alike w w' := by
  cases s with
  | cb_ev events received result =>
    obtain ⟨ha, herror, _, _, hsome⟩ := ht
    obtain ⟨hread, rfl⟩ := hs
    obtain ⟨hwrite, hempty⟩ := hsome.resolve_left hread
    obtain ⟨w', hrest, halike⟩ := cb_ev_rest_again hw hwrite hempty
    exact ⟨w', by rw [step_no_read ha herror hread, call_ok hrest], halike⟩
  | write_data => exact hs.elim
  | in_data_cb_returns => exact hs.elim
  | in_data_cb_throws => exact hs.elim
  | destroy => exact hs.elim

/-- Any other event throws. -/
theorem step_not_harmless {w : World} {s : Step} (hw : w.Sound) (ht : Transient w s)
    (hs : ¬ Harmless s) : ∃ w', step w s = some (.threw, w') := by
  cases s with
  | cb_ev events received result =>
    obtain ⟨ha, herror, hrecv, hres, hsome⟩ := ht
    by_cases hread : has events ev.READ = true
    · obtain ⟨e, _, rfl⟩ := hrecv hread
      simp only [step, if_pos ha, call, cb_ev, if_neg herror, if_pos hread]
      exact ⟨_, rfl⟩
    · obtain ⟨hwrite, hempty⟩ := hsome.resolve_left hread
      obtain ⟨e, _, rfl⟩ := hres hwrite hempty
      have he : e ≠ EAGAIN := by
        rintro rfl
        exact hs ⟨hread, rfl⟩
      obtain ⟨x, w', hrest⟩ := cb_ev_rest_threw hw hwrite hempty he
      exact ⟨w', by rw [step_no_read ha herror hread, call_error hrest]⟩
  | write_data => exact ht.elim
  | in_data_cb_returns => exact ht.elim
  | in_data_cb_throws => exact ht.elim
  | destroy => exact ht.elim

/-! ## The law -/

theorem Alike.refl (w : World) : Alike w w := ⟨rfl, rfl, rfl, rfl⟩

theorem Alike.trans {u v w : World} (h : Alike u v) (h' : Alike v w) : Alike u w :=
  ⟨h'.client.trans h.client, h'.alive.trans h.alive, h'.frames.trans h.frames,
    h'.observed.trans h.observed⟩

theorem Alike.later {u w : World} (h : Alike u w) (later : List Step) :
    outcomes w later = outcomes u later ∧
      Option.Rel Alike (run next u later) (run next w later) := by
  induction later generalizing u w with
  | nil => exact ⟨rfl, Option.Rel.some h⟩
  | cons s later ih =>
    simp only [outcomes, run, next]
    rcases step_alike h s with ⟨hu, hw⟩ | ⟨o, u', w', hu, hw, halike⟩
    · rw [hu, hw]
      exact ⟨rfl, Option.Rel.none⟩
    · obtain ⟨hout, hrel⟩ := ih halike
      rw [hu, hw]
      exact ⟨congrArg (o :: ·) hout, hrel⟩

/-- A step keeps a reachable client like one without the events that were put in. -/
theorem keeps_step (u w : World) (s : Step) (u' : World) (h : Alike u w ∧ Steady w)
    (hu : next u s = some u') : ∃ w', next w s = some w' ∧ Alike u' w' ∧ Steady w' := by
  obtain ⟨halike, hw⟩ := h
  rcases step_alike halike s with ⟨hnone, _⟩ | ⟨o, x, w', hx, hw', halike'⟩
  · simp [next, hnone] at hu
  · have hnext : next w s = some w' := by simp [next, hw']
    obtain rfl : x = u' := by simpa [next, hx] using hu
    exact ⟨w', hnext, halike', steady_next hw hnext⟩

/-- And so does a harmless event that is put in. -/
theorem keeps_put (u w : World) (s : Step) (h : Alike u w ∧ Steady w)
    (hs : Transient w s ∧ Harmless s) : ∃ w', next w s = some w' ∧ Alike u w' ∧ Steady w' := by
  obtain ⟨halike, hw⟩ := h
  obtain ⟨w', hw', halike'⟩ := step_harmless hw hs.1 hs.2
  have hnext : next w s = some w' := by simp [next, hw']
  exact ⟨w', hnext, halike.trans halike', steady_next hw hnext⟩

theorem steady_of_socket (destructor_cb : Bool) (socket_fd : Int) (peer_address : String)
    (port : Nat) : Steady (of_socket destructor_cb socket_fd peer_address port) :=
  ⟨IoQueue.sound_nil, fun hne => absurd rfl hne⟩

section Runs

variable {destructor_cb : Bool} {socket_fd : Int} {peer_address : String} {port : Nat}
  {marked : List (Step × Bool)} {u : World}

/-- Events that meet only results that ask to try again are unseen exactly when none of
them reads, and each of their writes fails with EAGAIN. -/
theorem results_to_try_again_are_unseen_only_by_a_write_with_eagain
    (hkept : run next (of_socket destructor_cb socket_fd peer_address port) (kept marked) = some u)
    (hmarked : Meets (marking next) (fun t p => p.2 = true → Transient t p.1)
      (of_socket destructor_cb socket_fd peer_address port) marked) :
    Unseen (of_socket destructor_cb socket_fd peer_address port) u marked ↔
      ∀ p ∈ marked, p.2 = true → Harmless p.1 := by
  have h0 := steady_of_socket destructor_cb socket_fd peer_address port
  have hI : ∀ t (p : Step × Bool) x, Steady t → marking next t p = some x → Steady x :=
    fun _ _ _ => steady_next
  constructor
  · rintro ⟨hquiet, w, hw, _⟩
    rw [← run_marking] at hw
    refine forall_of_run (marking next) h0 hI ?_ (Meets.and _ hmarked hquiet) hw
    intro t p _ ht ⟨htransient, hquiet⟩ _ hput
    by_contra hnot
    obtain ⟨t', ht'⟩ := step_not_harmless ht.1 (htransient hput) hnot
    exact hquiet hput .threw t' ht' rfl
  · intro hharmless
    constructor
    · refine Meets.imp (marking next) h0 hI ?_ hmarked
      intro t p hp ht htransient hput o t' hstep hthrew
      obtain ⟨t'', ht'', _⟩ := step_harmless ht (htransient hput) (hharmless p hp hput)
      rw [hstep, hthrew] at ht''
      cases ht''
    · have hboth : Meets (marking next)
          (fun t p => p.2 = true → Transient t p.1 ∧ Harmless p.1) _ marked :=
        Meets.imp (marking next) h0 hI
          (fun t p hp _ htransient hput => ⟨htransient hput, hharmless p hp hput⟩) hmarked
      obtain ⟨w, hw, halike, _⟩ :=
        run_kept next keeps_step keeps_put ⟨Alike.refl _, h0⟩ hboth hkept
      exact ⟨w, hw, halike, halike.later⟩

end Runs

/-- A kernel that twice takes nothing. -/
theorem a_full_kernel_is_unseen :
    let marked : List (Step × Bool) := [(.write_data [1, 2, 3], false),
      (.cb_ev ev.WRITE (.data []) (.fails EAGAIN), true),
      (.cb_ev ev.WRITE (.data []) (.fails EAGAIN), true),
      (.cb_ev ev.WRITE (.data []) (.accepts 3), false)]
    ∃ u, run next (of_socket true 5 "::1" 25) (kept marked) = some u ∧
      Unseen (of_socket true 5 "::1" 25) u marked := by
  intro marked
  obtain ⟨u, hu⟩ : ∃ u, run next (of_socket true 5 "::1" 25) (kept marked) = some u := ⟨_, rfl⟩
  refine ⟨u, hu, (results_to_try_again_are_unseen_only_by_a_write_with_eagain hu ?_).mpr ?_⟩
  · refine ⟨fun h => absurd h (by decide), fun t ht => ?_⟩
    cases ht
    refine ⟨fun _ => ⟨rfl, by decide, fun h => absurd h (by decide),
      fun _ _ => ⟨EAGAIN, Or.inl rfl, rfl⟩, Or.inr (by decide)⟩, fun t ht => ?_⟩
    cases ht
    refine ⟨fun _ => ⟨rfl, by decide, fun h => absurd h (by decide),
      fun _ _ => ⟨EAGAIN, Or.inl rfl, rfl⟩, Or.inr (by decide)⟩, fun t ht => ?_⟩
    exact ⟨fun h => absurd h (by decide), fun _ _ => trivial⟩
  · simp [marked, Harmless, has, ev.READ, ev.WRITE]

/-- A `READ` event whose data has not come throws, and so does a signal in a `write`. -/
theorem a_read_that_comes_too_early_is_seen :
    let start := of_socket true 5 "::1" 25
    let early := Step.cb_ev ev.READ (.fails EAGAIN) (.accepts 0)
    let interrupted := Step.cb_ev ev.WRITE (.data []) (.fails EINTR)
    let marked := [(.write_data [1], false), (interrupted, true)]
    (Transient start early ∧ run next start (kept [(early, true)]) = some start ∧
        ¬ Unseen start start [(early, true)]) ∧
      ∃ u, Transient u interrupted ∧ run next start (kept marked) = some u ∧
        ¬ Unseen start u marked := by
  intro start early interrupted marked
  constructor
  · refine ⟨⟨rfl, by decide, fun _ => ⟨EAGAIN, Or.inl rfl, rfl⟩, fun h => absurd h (by decide),
      Or.inl (by decide)⟩, rfl, fun h => ?_⟩
    exact h.quiet.1 rfl .threw _ rfl rfl
  · refine ⟨_, ⟨rfl, by decide, fun h => absurd h (by decide),
      fun _ _ => ⟨EINTR, Or.inr (Or.inr rfl), rfl⟩, Or.inr (by decide)⟩, rfl, fun h => ?_⟩
    exact (h.quiet.2 _ rfl).1 rfl .threw _ rfl rfl

end TcpClient

end rmrf.net
