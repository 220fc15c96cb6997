-- The laws of two clients that talk to each other. What one side has heard, what is on
-- its way there and what waits on the other side is what the other side was given to
-- write, after every run of both.
import Rmrf.Conversation

open runs

namespace rmrf.net

namespace TcpClient

/-! ## The stream of one side -/

/-- A step sends and keeps what it was given, and may lose some of it when a `write`
fails. -/
theorem stream_next {w w' : World} {s : Step} (hs : w.Sound) (h : next w s = some w') :
    (sent w'.trace ++ w'.unsent).Sublist (sent w.trace ++ w.unsent ++ given s) ∧
      ((Writing w s → Lossless s) →
        sent w'.trace ++ w'.unsent = sent w.trace ++ w.unsent ++ given s) := by
  obtain ⟨o, ho⟩ := exists_took hs h
  -- a step that neither stores nor sends
  have hquiet : ∀ {t : World}, sent t.trace = sent w.trace → t.unsent = w.unsent →
      given s = [] →
      (sent t.trace ++ t.unsent).Sublist (sent w.trace ++ w.unsent ++ given s) ∧
        ((Writing w s → Lossless s) →
          sent t.trace ++ t.unsent = sent w.trace ++ w.unsent ++ given s) := by
    intro t ht hu hg
    rw [ht, hu, hg, List.append_nil]
    exact ⟨List.Sublist.refl _, fun _ => rfl⟩
  cases ho with
  | @write_data data _ _ hst =>
    have heq : sent w'.trace ++ w'.unsent =
        sent w.trace ++ w.unsent ++ given (.write_data data) := by
      rw [hst.trace, hst.unsent, sent_append]
      simp [taken, given]
    exact ⟨heq ▸ List.Sublist.refl _, fun _ => heq⟩
  | error => exact hquiet rfl rfl rfl
  | recv_fails => exact hquiet (by simp [taken]) rfl rfl
  | waits => exact hquiet (by simp [taken]) rfl rfl
  | finishes hrest hfin =>
    obtain ⟨n, hsent, hun⟩ := hfin.stream
    have heq : sent w'.trace ++ w'.unsent = sent w.trace ++ w.unsent ++ given s := by
      rw [hfin.trace, sent_append, hrest.sent, hsent, hun, List.append_assoc,
        List.take_append_drop, hrest.unsent, hrest.given, List.append_nil]
    exact ⟨heq ▸ List.Sublist.refl _, fun _ => heq⟩
  | drops hrest hwrite hdrop =>
    obtain ⟨r, hr⟩ := hdrop.head
    have hun : w.unsent = r.unread ++ w'.unsent := by
      rw [← hrest.unsent]
      simp [World.unsent, IoQueue.unsent, hr]
    constructor
    · rw [hdrop.trace, sent_append, hdrop.sent, hrest.sent, hrest.given, hun, List.append_nil,
        List.append_nil]
      exact (List.sublist_append_right _ _).append_left _
    · intro hok
      obtain ⟨e, he, hne⟩ := hdrop.errno
      have hpasses := hrest.passes (hok (hrest.writing hwrite hdrop))
      exact absurd (hpasses e he) hne
  | callback_throws => exact hquiet rfl rfl rfl
  | destroy => exact hquiet (by simp [destructed]) rfl rfl

theorem alive_of_next {w w' : World} {s : Step} (hs : w.Sound) (h : next w s = some w')
    (ha : w'.alive = true) : w.alive = true := by
  obtain ⟨o, ho⟩ := exists_took hs h
  cases ho with
  | write_data hw _ => exact hw
  | error hw _ => exact hw
  | recv_fails hw _ _ _ => exact hw
  | waits hw _ _ _ => exact hw
  | finishes hrest hfin =>
    rw [hfin.alive] at ha
    cases hrest with
    | no_read hw _ _ => exact hw
    | end_of_stream hw _ _ _ => exact hw
    | callback => exact ha
  | drops hrest _ hdrop =>
    rw [hdrop.alive] at ha
    cases hrest with
    | no_read hw _ _ => exact hw
    | end_of_stream hw _ _ _ => exact hw
    | callback => exact ha
  | callback_throws => exact ha
  | destroy hw => exact hw

end TcpClient

namespace Conversation

open TcpClient

/-! ## One action -/

@[simp] theorem other_other (side : Side) : side.other.other = side := by cases side <;> rfl

theorem other_ne (side : Side) : side.other ≠ side := by cases side <;> decide

/-- A side is the one that acts, or the other one. -/
theorem eq_or_eq_other (side acting : Side) : side = acting ∨ side = acting.other := by
  cases side <;> cases acting <;> decide

/-- The bytes that an action gives to `write_data` of a side. -/
def utters (side : Side) (a : Action) : List UInt8 :=
  match a.event with
  | .write_data data => if a.side = side then data else []
  | _ => []

/-- What a side was given to write. -/
def said (side : Side) (as : List Action) : List UInt8 := as.flatMap (utters side)

theorem said_snoc (side : Side) (as : List Action) (a : Action) :
    said side (as ++ [a]) = said side as ++ utters side a := by simp [said]

theorem given_step_of (c : Conversation) (a : Action) : given (c.step_of a) = utters a.side a := by
  obtain ⟨side, event⟩ := a
  cases event <;> simp [step_of, given, utters]

theorem utters_other (a : Action) : utters a.side.other a = [] := by
  obtain ⟨side, event⟩ := a
  cases event <;> simp [utters, (other_ne side).symm]

/-- What the kernel answers to `recv` comes off the wire. -/
theorem reading_prefix (c : Conversation) (a : Action) :
    reading (c.step_of a) <+: c.wire a.side := by
  obtain ⟨side, event⟩ := a
  cases event with
  | cb_ev events arrival result =>
    simp only [step_of, reading]
    split_ifs
    · cases arrival with
      | fails e => exact List.nil_prefix
      | come count =>
        simp only [Arrival.answer]
        split_ifs
        · exact (List.take_prefix 1024 _).trans (List.take_prefix count _)
        · exact List.nil_prefix
        · exact List.nil_prefix
    · exact List.nil_prefix
  | write_data data => exact List.nil_prefix
  | in_data_cb_returns result => exact List.nil_prefix
  | in_data_cb_throws => exact List.nil_prefix
  | destroy => exact List.nil_prefix

/-- What one action does: the client of its side takes a step, which reads from the one
wire and sends into the other. -/
structure Moves (c : Conversation) (a : Action) (c' : Conversation) : Prop where
  client : TcpClient.next (c.party a.side) (c.step_of a) = some (c'.party a.side)
  party : c'.party a.side.other = c.party a.side.other
  hears : heard (c'.party a.side).trace = heard (c.party a.side).trace ++ reading (c.step_of a)
  received : c.wire a.side = reading (c.step_of a) ++ c'.wire a.side
  sends : ∃ new, (c'.party a.side).trace = (c.party a.side).trace ++ new ∧
    Reads (c.step_of a) new ∧ c'.wire a.side.other = c.wire a.side.other ++ sent new

theorem moves_of_next {c c' : Conversation} {a : Action} (h : next c a = some c') :
    Moves c a c' := by
  obtain ⟨w, hw, hc⟩ := Option.bind_eq_some_iff.mp h
  cases hc
  obtain ⟨new, htrace, hreads⟩ := adds_of_next hw
  have hnew : w.trace.drop (c.party a.side).trace.length = new := by
    rw [htrace, List.drop_left]
  have hne := other_ne a.side
  obtain ⟨rest, hrest⟩ := reading_prefix c a
  rw [hnew]
  refine ⟨?_, ?_, ?_, ?_, new, ?_, hreads, ?_⟩
  · simpa [transfer] using hw
  · simp [transfer, hne]
  · simp only [transfer, Function.update_self, htrace, Conversation.heard, List.flatMap_append]
    rw [← hreads.heard]
    rfl
  · simp only [transfer, Function.update_of_ne hne.symm, Function.update_self, hreads.came]
    rw [← hrest, List.drop_left]
  · simpa [transfer] using htrace
  · simp [transfer]

/-! ## The bytes of both sides -/

/-- The queues are sound, and what a side has heard and what is on its way there is what
the other side has sent. -/
structure Sound (c : Conversation) : Prop where
  clients : ∀ side, (c.party side).Sound
  conserved : ∀ side,
    heard (c.party side).trace ++ c.wire side = sent (c.party side.other).trace

theorem sound_start (left right : Endpoint) : (start left right).Sound := by
  refine ⟨?_, ?_⟩
  · intro side
    cases side <;> exact IoQueue.sound_nil
  · intro side
    cases side <;> rfl

theorem Moves.sound {c c' : Conversation} {a : Action} (h : Moves c a c') (hs : c.Sound) :
    c'.Sound := by
  obtain ⟨new, htrace, _, hwire⟩ := h.sends
  refine ⟨?_, ?_⟩
  · intro side
    obtain rfl | rfl := eq_or_eq_other side a.side
    · exact sound_next (hs.clients _) h.client
    · rw [h.party]
      exact hs.clients _
  · intro side
    obtain rfl | rfl := eq_or_eq_other side a.side
    · rw [h.party, ← hs.conserved, h.hears, h.received, List.append_assoc]
    · have hother := hs.conserved a.side.other
      rw [other_other] at hother ⊢
      rw [h.party, hwire, htrace, sent_append, ← hother, List.append_assoc]

/-- A side of a conversation sends and keeps what it was given, and loses bytes only in
an own step that fails to write. -/
theorem Moves.stream {c c' : Conversation} {a : Action} (h : Moves c a c') (hs : c.Sound)
    (side : Side) :
    (sent (c'.party side).trace ++ (c'.party side).unsent).Sublist
        (sent (c.party side).trace ++ (c.party side).unsent ++ utters side a) ∧
      ((a.side = side → Writing (c.party a.side) (c.step_of a) → Lossless (c.step_of a)) →
        sent (c'.party side).trace ++ (c'.party side).unsent =
          sent (c.party side).trace ++ (c.party side).unsent ++ utters side a) := by
  obtain rfl | rfl := eq_or_eq_other side a.side
  · have hstream := stream_next (hs.clients _) h.client
    rw [given_step_of] at hstream
    exact ⟨hstream.1, fun hok => hstream.2 (hok rfl)⟩
  · rw [h.party, utters_other, List.append_nil]
    exact ⟨List.Sublist.refl _, fun _ => rfl⟩

section Runs

variable {left right : Endpoint} {as : List Action} {c : Conversation}

theorem sound_run (h : run next (start left right) as = some c) : c.Sound :=
  run_invariant next (sound_start left right) (fun _ _ _ hs hu => (moves_of_next hu).sound hs) h

theorem said_run (h : run next (start left right) as = some c) (side : Side) :
    (sent (c.party side).trace ++ (c.party side).unsent).Sublist (said side as) := by
  have hok := meets_of_forall next (start left right) as (fun _ _ => trivial)
  refine (run_induction next (P := fun as c => c.Sound ∧
    (sent (c.party side).trace ++ (c.party side).unsent).Sublist (said side as))
    ⟨sound_start left right, ?_⟩ ?_ hok h).2
  · cases side <;> exact List.nil_sublist _
  · rintro as t a u ⟨hs, hsub⟩ _ hu
    have hmoves := moves_of_next hu
    refine ⟨hmoves.sound hs, (hmoves.stream hs side).1.trans ?_⟩
    rw [said_snoc]
    exact hsub.append_right _

/-- A `write` that the side makes takes bytes or fails with EAGAIN. -/
def Writes (side : Side) (c : Conversation) (a : Action) : Prop :=
  a.side = side → Writing (c.party a.side) (c.step_of a) → Lossless (c.step_of a)

theorem all_said_run {side : Side} (hok : Meets next (Writes side) (start left right) as)
    (h : run next (start left right) as = some c) :
    sent (c.party side).trace ++ (c.party side).unsent = said side as := by
  refine (run_induction next (P := fun as c => c.Sound ∧
    sent (c.party side).trace ++ (c.party side).unsent = said side as)
    ⟨sound_start left right, ?_⟩ ?_ hok h).2
  · cases side <;> rfl
  · rintro as t a u ⟨hs, heq⟩ ha hu
    have hmoves := moves_of_next hu
    exact ⟨hmoves.sound hs, by rw [(hmoves.stream hs side).2 ha, heq, said_snoc]⟩

/-- After every run of both sides, what one has heard, what is on its way there and what
waits on the other side is what the other side was given to write, in this order. Where a
`write` fails with another error than EAGAIN, bytes are missing, and still none is doubled
or out of order. -/
theorem each_side_hears_what_the_other_was_given (h : run next (start left right) as = some c)
    (side : Side) :
    (heard (c.party side).trace ++ c.wire side ++ (c.party side.other).unsent).Sublist
        (said side.other as) ∧
      (Meets next (Writes side.other) (start left right) as →
        heard (c.party side).trace ++ c.wire side ++ (c.party side.other).unsent =
          said side.other as) := by
  rw [(sound_run h).conserved side]
  exact ⟨said_run h side.other, fun hok => all_said_run hok h⟩

end Runs

/-- Three bytes in two parts, an answer from inside `in_data_cb`, and a byte on its way. -/
theorem each_side_hears_what_it_was_told_in_parts :
    let acts : List Action := [⟨.left, .write_data [1, 2, 3]⟩,
      ⟨.left, .cb_ev ev.WRITE (.come 0) (.accepts 2)⟩,
      ⟨.right, .cb_ev ev.READ (.come 2) (.accepts 0)⟩, ⟨.right, .write_data [7]⟩,
      ⟨.left, .cb_ev ev.WRITE (.come 0) (.accepts 5)⟩,
      ⟨.right, .in_data_cb_returns (.accepts 0)⟩]
    ∃ c, run next (start ⟨true, 5, "::1", 25⟩ ⟨true, 6, "::1", 26⟩) acts = some c ∧
      heard (c.party .right).trace = [1, 2] ∧ c.wire .right = [3] ∧
      heard (c.party .right).trace ++ c.wire .right ++ (c.party .left).unsent =
        said .left acts := by
  intro acts
  have hpasses : ∀ count, (WriteResult.accepts count).Passes := by simp [WriteResult.Passes]
  have hok : Meets next (Writes .left) (start ⟨true, 5, "::1", 25⟩ ⟨true, 6, "::1", 26⟩) acts := by
    refine ⟨fun _ _ => trivial, fun t ht => ?_⟩
    cases ht
    refine ⟨fun _ _ => hpasses 2, fun t ht => ⟨fun h => (by cases h), fun t ht' => ?_⟩⟩
    cases ht
    cases ht'
    refine ⟨fun h => (by cases h), fun t ht => ?_⟩
    cases ht
    exact ⟨fun _ _ => hpasses 5, fun t _ => ⟨fun h => (by cases h), fun _ _ => trivial⟩⟩
  exact ⟨_, rfl, rfl, rfl, (each_side_hears_what_the_other_was_given rfl .right).2 hok⟩

/-! ## The end of the stream -/

/-- The stream ends for `recv` when the other side is gone and nothing is on the way. -/
theorem closed_of_findsEnd {c : Conversation} {a : Action} (h : FindsEnd (c.step_of a)) :
    (c.party a.side.other).alive = false ∧ c.wire a.side = [] := by
  obtain ⟨side, event⟩ := a
  cases event with
  | cb_ev events arrival result =>
    obtain ⟨_, _, hend⟩ := h
    cases arrival with
    | fails e => cases hend
    | come count =>
      simp only [Arrival.answer] at hend
      split_ifs at hend with hsome hclosed
      · exact absurd (RecvResult.data.inj hend) hsome
      · exact ⟨by simpa [closed] using hclosed.1, hclosed.2⟩
  | write_data data => exact h.elim
  | in_data_cb_returns result => exact h.elim
  | in_data_cb_throws => exact h.elim
  | destroy => exact h.elim

/-- A client that is gone sends nothing. -/
theorem sent_of_dead {w w' : World} {s : Step} {new : List Effect}
    (h : TcpClient.next w s = some w') (htrace : w'.trace = w.trace ++ new)
    (hdead : w.alive = false)
    (hs : ∀ result, s = .in_data_cb_returns result → result = .fails EBADF) : sent new = [] := by
  cases s with
  | in_data_cb_returns result =>
    obtain ⟨new', htrace', hrests⟩ := grows_of_returns h
    rw [htrace] at htrace'
    rw [List.append_cancel_left htrace']
    exact List.flatMap_eq_nil_iff.mpr fun e he => (hrests e he).2 EBADF (hs result rfl)
  | in_data_cb_throws =>
    simp only [TcpClient.next, step] at h
    split at h
    · cases h
    · cases h
      simp only [List.self_eq_append_right] at htrace
      rw [htrace]
      rfl
  | write_data data => simp [TcpClient.next, step, hdead] at h
  | cb_ev events received result => simp [TcpClient.next, step, hdead] at h
  | destroy => simp [TcpClient.next, step, hdead] at h

/-- A side that has seen the end of the stream has nothing more to hear. -/
def Ended (c : Conversation) : Prop :=
  ∀ side, .recv 0 ∈ (c.party side).trace →
    (c.party side.other).alive = false ∧ c.wire side = []

theorem Moves.ended {c c' : Conversation} {a : Action} (h : Moves c a c') (hs : c.Sound)
    (he : c.Ended) : c'.Ended := by
  obtain ⟨new, htrace, hreads, hwire⟩ := h.sends
  intro side hmem
  obtain rfl | rfl := eq_or_eq_other side a.side
  · have hend : (c.party a.side.other).alive = false ∧ c.wire a.side = [] := by
      rw [htrace] at hmem
      rcases List.mem_append.mp hmem with hold | hnew
      · exact he a.side hold
      · exact closed_of_findsEnd (hreads.ended hnew)
    rw [h.party]
    refine ⟨hend.1, ?_⟩
    have hnil := h.received
    rw [hend.2] at hnil
    exact (List.append_eq_nil_iff.mp hnil.symm).2
  · rw [h.party] at hmem
    obtain ⟨hdead, hnil⟩ := he a.side.other hmem
    rw [other_other] at hdead ⊢
    constructor
    · by_contra halive
      have hlive := alive_of_next (hs.clients _) h.client (by simpa using halive)
      rw [hdead] at hlive
      cases hlive
    · have hsent := sent_of_dead h.client htrace hdead ?_
      · rw [hwire, hnil, hsent]
        rfl
      · intro result hstep
        obtain ⟨side, event⟩ := a
        cases event <;> simp_all [step_of, WriteResult.on_socket]

end Conversation

end rmrf.net
