-- The laws of the client's end: what a run does to a client after `~tcp_client`. The
-- trace of a run says it, and a run is silent after the end unless a `cb_ev` call goes
-- on over the client that was destroyed under it.
import Rmrf.OutboundStream

open runs

namespace rmrf.net

namespace TcpClient

/-! ## The effects after the end -/

/-- What comes after the client's destruction. -/
def afterlife (trace : List Effect) : List Effect := (trace.dropWhile (· ≠ .destroyed)).tail

/-- The effects that need a live client. -/
def touches : Effect → Bool
  | .write_queue => true
  | .write _ _ => true
  | .io_set _ => true
  | .io_start _ _ => true
  | _ => false

/-- Nothing touches the client after its destruction. -/
def Silent (trace : List Effect) : Prop := ∀ e ∈ afterlife trace, touches e = false

/-- No call goes on over a destroyed client: `recv` does not find the end of the
stream, and a callback that returns finds its client alive. -/
def Survives (w : World) : Step → Prop
  | .cb_ev events received _ =>
    ¬ has events ev.ERROR → has events ev.READ → received ≠ .data []
  | .in_data_cb_returns _ => w.alive = true
  | _ => True

theorem recv_eq_zero_iff (received : RecvResult) :
    (recv 1024 received).1 = 0 ↔ received = .data [] := by
  cases received with
  | data bytes =>
    have hcut : bytes.take 1024 = [] ↔ bytes = [] := by simp
    simp only [recv, RecvResult.data.injEq, ← hcut]
    exact Int.natCast_eq_zero.trans List.length_eq_zero_iff
  | fails e => simp [recv]

theorem afterlife_of_not_mem {trace : List Effect} (h : .destroyed ∉ trace) :
    afterlife trace = [] := by
  have hnone : trace.dropWhile (· ≠ .destroyed) = [] := by
    rw [List.dropWhile_eq_nil_iff]
    intro e he
    exact decide_eq_true (fun heq => h (heq ▸ he))
  unfold afterlife
  rw [hnone]
  rfl

/-- Before the end, what comes next has its own end. -/
theorem afterlife_append_of_not_mem {trace : List Effect} (h : .destroyed ∉ trace)
    (new : List Effect) : afterlife (trace ++ new) = afterlife new := by
  unfold afterlife
  rw [List.dropWhile_append_of_pos]
  intro e he
  exact decide_eq_true (fun heq => h (heq ▸ he))

/-- After the end, what comes next comes after the end. -/
theorem afterlife_append_of_mem {trace : List Effect} (h : .destroyed ∈ trace)
    (new : List Effect) : afterlife (trace ++ new) = afterlife trace ++ new := by
  induction trace with
  | nil => cases h
  | cons e rest ih =>
    by_cases he : e = .destroyed
    · subst he
      simp [afterlife]
    · have hrest : .destroyed ∈ rest := (List.mem_cons.mp h).resolve_left (fun heq => he heq.symm)
      have hskip : ∀ t, afterlife (e :: t) = afterlife t := fun t => by simp [afterlife, he]
      rw [List.cons_append, hskip, hskip, ih hrest]

@[simp] theorem afterlife_farewell (c : TcpClient) : afterlife (farewell c) = [] := by
  unfold farewell afterlife
  split_ifs <;> simp

theorem Silent.of_append {trace new : List Effect} (h : Silent (trace ++ new)) :
    Silent trace := by
  by_cases hd : .destroyed ∈ trace
  · intro e he
    apply h e
    rw [afterlife_append_of_mem hd]
    exact List.mem_append_left _ he
  · intro e he
    rw [afterlife_of_not_mem hd] at he
    cases he

/-- A client that uses its queue after the end is not silent. -/
theorem not_silent_of_uses {trace new : List Effect} (h : .destroyed ∈ trace)
    (huses : .write_queue ∈ new) : ¬ Silent (trace ++ new) := by
  intro hs
  have htouch := hs .write_queue (by
    rw [afterlife_append_of_mem h]
    exact List.mem_append_right _ huses)
  cases htouch

/-! ## Life and trace -/

/-- The client lives as long as its trace has no destruction. -/
def Lived (w : World) : Prop := w.alive = true ↔ .destroyed ∉ w.trace

theorem lived_append {w w' : World} {new : List Effect} (h : Lived w)
    (htrace : w'.trace = w.trace ++ new) (hnew : .destroyed ∉ new) (ha : w'.alive = w.alive) :
    Lived w' := by
  unfold Lived at *
  simp [htrace, hnew, ha, h]

theorem lived_destructed (w : World) : Lived (destructed w) := by
  simp [Lived, destructed, farewell]

theorem Rest.lived {w w₁ : World} {s : Step} {events : Events} {result : WriteResult}
    (h : Rest w s w₁ events result) (hl : Lived w) : Lived w₁ := by
  cases h with
  | no_read => exact hl
  | end_of_stream => exact lived_destructed _
  | callback => exact hl

theorem Took.lived {w w' : World} {s : Step} {o : Outcome} (h : Took w s o w') (hl : Lived w) :
    Lived w' := by
  cases h with
  | write_data _ hst => exact lived_append hl hst.trace (by simp) hst.alive
  | error => exact hl
  | recv_fails => exact lived_append hl rfl (by simp) rfl
  | waits => exact lived_append hl rfl (by simp) rfl
  | finishes hrest hfin => exact lived_append (hrest.lived hl) hfin.trace hfin.destroyed hfin.alive
  | drops hrest _ hdrop =>
    exact lived_append (hrest.lived hl) hdrop.trace hdrop.destroyed hdrop.alive
  | callback_throws => exact hl
  | destroy => exact lived_destructed _

theorem Rest.grows {w w₁ : World} {s : Step} {events : Events} {result : WriteResult}
    (h : Rest w s w₁ events result) : ∃ new, w₁.trace = w.trace ++ new := by
  cases h with
  | no_read => exact ⟨[], by simp⟩
  | end_of_stream => exact ⟨_, by simp only [destructed, List.append_assoc]; rfl⟩
  | callback => exact ⟨[], by simp⟩

/-- A step adds to the trace, and changes nothing in it. -/
theorem Took.grows {w w' : World} {s : Step} {o : Outcome} (h : Took w s o w') :
    ∃ new, w'.trace = w.trace ++ new := by
  cases h with
  | write_data _ hst => exact ⟨_, hst.trace⟩
  | error => exact ⟨[], by simp⟩
  | recv_fails => exact ⟨_, rfl⟩
  | waits => exact ⟨_, rfl⟩
  | finishes hrest hfin =>
    obtain ⟨new, hnew⟩ := hrest.grows
    exact ⟨_, by rw [hfin.trace, hnew, List.append_assoc]⟩
  | drops hrest _ hdrop =>
    obtain ⟨new, hnew⟩ := hrest.grows
    exact ⟨_, by rw [hdrop.trace, hnew, List.append_assoc]⟩
  | callback_throws => exact ⟨[], by simp⟩
  | destroy => exact ⟨_, rfl⟩

/-! ## The steps that stay silent -/

/-- What a live client does is silent, up to its end. -/
theorem silent_of_alive {w w' : World} {new : List Effect} (hl : Lived w) (ha : w.alive = true)
    (htrace : w'.trace = w.trace ++ new) (hnew : afterlife new = []) : Silent w'.trace := by
  intro e he
  rw [htrace, afterlife_append_of_not_mem (hl.mp ha), hnew] at he
  cases he

theorem Rest.alive {w w₁ : World} {s : Step} {events : Events} {result : WriteResult}
    (h : Rest w s w₁ events result) (hok : Survives w s) : w₁.alive = true := by
  cases h with
  | no_read ha => exact ha
  | end_of_stream _ herror hread hzero =>
    exact absurd ((recv_eq_zero_iff _).mp hzero) (hok herror hread)
  | callback => exact hok

theorem Took.silent {w w' : World} {s : Step} {o : Outcome} (h : Took w s o w') (hl : Lived w)
    (hs : Silent w.trace) (hok : Survives w s) : Silent w'.trace := by
  cases h with
  | write_data ha hst => exact silent_of_alive hl ha hst.trace (afterlife_of_not_mem (by simp))
  | error => exact hs
  | recv_fails ha => exact silent_of_alive hl ha rfl (afterlife_of_not_mem (by simp))
  | waits ha => exact silent_of_alive hl ha rfl (afterlife_of_not_mem (by simp))
  | finishes hrest hfin =>
    exact silent_of_alive (hrest.lived hl) (hrest.alive hok) hfin.trace
      (afterlife_of_not_mem hfin.destroyed)
  | drops hrest _ hdrop =>
    exact silent_of_alive (hrest.lived hl) (hrest.alive hok) hdrop.trace
      (afterlife_of_not_mem hdrop.destroyed)
  | callback_throws => exact hs
  | destroy ha => exact silent_of_alive hl ha rfl (afterlife_farewell _)

/-- Where a call goes on over a destroyed client, it uses the write queue. -/
theorem Took.not_silent {w w' : World} {s : Step} {o : Outcome} (h : Took w s o w')
    (hl : Lived w) (hnot : ¬ Survives w s) : ¬ Silent w'.trace := by
  have hdead : ∀ {w₁ events result}, Rest w s w₁ events result → .destroyed ∈ w₁.trace := by
    intro w₁ events result hrest
    cases hrest with
    | no_read _ _ hread => exact absurd (fun _ h => absurd h hread) hnot
    | end_of_stream => simp [destructed, farewell]
    | callback => exact not_not.mp (fun hd => hnot (hl.mpr hd))
  cases h with
  | finishes hrest hfin =>
    rw [hfin.trace]
    exact not_silent_of_uses (hdead hrest) hfin.uses
  | drops hrest _ hdrop =>
    rw [hdrop.trace]
    exact not_silent_of_uses (hdead hrest) hdrop.uses
  | write_data => exact absurd trivial hnot
  | error _ herror => exact absurd (fun h _ => absurd herror h) hnot
  | recv_fails _ _ _ hneg =>
    refine absurd (fun _ _ heq => ?_) hnot
    rw [(recv_eq_zero_iff _).mpr heq] at hneg
    cases hneg
  | waits _ _ _ hpos =>
    refine absurd (fun _ _ heq => ?_) hnot
    rw [(recv_eq_zero_iff _).mpr heq] at hpos
    cases hpos
  | callback_throws => exact absurd trivial hnot
  | destroy => exact absurd trivial hnot

/-! ## The law -/

section Runs

variable {destructor_cb : Bool} {socket_fd : Int} {peer_address : String} {port : Nat}
  {steps : List Step} {w : World}

theorem lived_run
    (h : run next (of_socket destructor_cb socket_fd peer_address port) steps = some w) :
    Lived w := by
  refine (run_invariant next (P := fun w => w.Sound ∧ Lived w) ⟨?_, ?_⟩ ?_ h).2
  · exact IoQueue.sound_nil
  · simp [Lived, of_socket]
  · rintro t s u ⟨hs, hl⟩ hu
    obtain ⟨o, ho⟩ := exists_took hs hu
    exact ⟨ho.sound hs, ho.lived hl⟩

theorem Silent.of_run {t u : World} (hs : t.Sound) (hrun : run next t steps = some u)
    (h : Silent u.trace) : Silent t.trace := by
  have hgrows : u.Sound ∧ ∃ new, u.trace = t.trace ++ new := by
    refine run_invariant next (P := fun u => u.Sound ∧ ∃ new, u.trace = t.trace ++ new)
      ⟨hs, [], by simp⟩ ?_ hrun
    rintro v s x ⟨hv, new, hnew⟩ hx
    obtain ⟨o, ho⟩ := exists_took hv hx
    obtain ⟨more, hmore⟩ := ho.grows
    exact ⟨ho.sound hv, new ++ more, by rw [hmore, hnew, List.append_assoc]⟩
  obtain ⟨_, new, hnew⟩ := hgrows
  rw [hnew] at h
  exact h.of_append

/-- A run leaves the client alone after its end exactly when no `cb_ev` call goes on
after `delete this`, and none after its callback destroyed the client. -/
theorem the_dead_are_left_alone
    (h : run next (of_socket destructor_cb socket_fd peer_address port) steps = some w) :
    Silent w.trace ↔
      Meets next Survives (of_socket destructor_cb socket_fd peer_address port) steps := by
  constructor
  · intro hsilent
    by_contra hnot
    obtain ⟨pre, s, post, t, v, _, _, hpre, hs, hv, hpost⟩ := exists_first_of_not_meets next h hnot
    obtain ⟨o, ho⟩ := exists_took (sound_run hpre) hv
    exact ho.not_silent (lived_run hpre) hs (hsilent.of_run (ho.sound (sound_run hpre)) hpost)
  · intro hok
    have hinv := run_induction next
      (P := fun _ w => w.Sound ∧ Lived w ∧ Silent w.trace)
      ⟨?_, ?_, ?_⟩ ?_ hok h
    · exact hinv.2.2
    · exact IoQueue.sound_nil
    · simp [Lived, of_socket]
    · simp [Silent, afterlife, of_socket]
    · rintro _ t s u ⟨hs, hl, hsilent⟩ hsurvives hu
      obtain ⟨o, ho⟩ := exists_took hs hu
      exact ⟨ho.sound hs, ho.lived hl, ho.silent hl hsilent hsurvives⟩

end Runs

/-- A client that its owner destroys between two calls. -/
theorem the_dead_are_left_alone_between_calls :
    let steps := [.write_data [1, 2], .cb_ev (ev.READ ||| ev.WRITE) (.data [7]) (.accepts 0),
      .in_data_cb_returns (.accepts 2), .destroy]
    ∃ w, run next (of_socket true 5 "::1" 25) steps = some w ∧ .destroyed ∈ w.trace ∧
      Silent w.trace := by
  intro steps
  obtain ⟨w, hw, hd⟩ : ∃ w, run next (of_socket true 5 "::1" 25) steps = some w ∧
    .destroyed ∈ w.trace := ⟨_, rfl, by decide⟩
  refine ⟨w, hw, hd, (the_dead_are_left_alone hw).mpr ⟨trivial, fun t ht => ?_⟩⟩
  cases ht
  refine ⟨fun _ _ => by simp, fun t ht => ?_⟩
  cases ht
  refine ⟨rfl, fun t ht => ?_⟩
  cases ht
  exact ⟨trivial, fun _ _ => trivial⟩

/-- At the end of the stream `cb_ev` deletes the client, then looks at its queue and
sets its watcher. -/
theorem the_end_of_stream_is_not_silent :
    ∃ w, run next (of_socket true 5 "::1" 25) [.cb_ev ev.READ (.data []) (.accepts 0)] = some w ∧
      afterlife w.trace = [.write_queue, .io_set ev.READ] ∧ ¬ Silent w.trace :=
  ⟨_, rfl, by decide, fun hs => by cases hs .write_queue (by decide)⟩

end TcpClient

end rmrf.net
