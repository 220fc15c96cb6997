-- Runs of the calls on windows. Whatever the calls are, the singleton knows each window, and each
-- window has its own. What is lost along a run, and what is deleted twice, comes from a few kinds
-- of calls, and those are told by the state in which they are made.
import Rmrf.WindowModes
import Rmrf.WindowVectors

open runs stateful forest

namespace nccpp

namespace Window

variable {α κ : Type} {nc : α} {exact calm : Prop} {s : Screen α κ}

/-- Each curses window that one of these windows has. -/
def owned (F : Forest (Managed α κ)) : Multiset (WINDOW κ) := handles F

variable [DecidableEq α]

/-- The call drops no curses window, and what it deletes, no window outside the vectors has a
part of. -/
def Op.Keeps (s : Screen α κ) : Op α κ → Prop
  | .of_handle _ win memory => Taken win memory
  | .move _ b memory | .move_subwindow _ b memory => Moves b memory s.live
  | .delete a | .destroy a => Spares a (grips none s.live) s.live
  | .assign_move a b => a = b ∨ Spares a (grips none s.live) s.live
  | .assign_copy a b _ reserved win memory =>
    a = b ∨ (Made b reserved win memory s.live → Spares a (grips none s.live) s.live)
  | .assign a new_win => Spares a (⟨none, new_win, none⟩ ::ₘ grips none s.live) s.live
  | .delete_subwindow a index => SparesElement a index s.live
  | .exit_ncurses_mode => Alone s.live
  | .resume_ncurses_mode => Aside s.live
  | .of_size _ _ _ | .copy _ _ _ _ _ | .add_subwindow _ _ _ _ _ _ => True

/-- curses is not told to delete a window for the second time. -/
def Op.Calm : Op α κ → Prop
  | .add_subwindow _ _ moved new_subw _ memory => Quiet moved new_subw memory
  | _ => True

variable [DecidableEq κ]

/-! ## What a call keeps -/

omit [DecidableEq κ] in
theorem exit_ensures (h : Kept nc exact calm s) :
    Ensures (Eq s) (exit_ncurses_mode nc) (fun _ => Kept nc (exact ∧ Alone s.live) calm)
      (Ends nc (exact ∧ Alone s.live) calm) := by
  rintro _ rfl
  by_cases hmode : s.is_exit_ = false
  · rw [exit_eq h hmode]
    exact h.exit hmode
  · unfold exit_ncurses_mode
    rw [get_bind, bind_error (assert_error (by simp [hmode]) s)]
    trivial

omit [DecidableEq κ] in
theorem resume_ensures (h : Kept nc exact calm s) :
    Ensures (Eq s) (resume_ncurses_mode nc) (fun _ => Kept nc (exact ∧ Aside s.live) calm)
      (Ends nc (exact ∧ Aside s.live) calm) := by
  rintro _ rfl
  by_cases hmode : s.is_exit_ = true
  · rw [resume_eq h hmode]
    exact h.resume
  · unfold resume_ncurses_mode
    rw [get_bind, bind_error (assert_error hmode s)]
    trivial

/-- What a call keeps, whatever the call is. -/
theorem call_ensures (op : Op α κ) (h : Kept nc exact calm s) (hfresh : op.Fresh s) :
    Ensures (Eq s) (op.call nc) (fun _ => Kept nc (exact ∧ op.Keeps s) (calm ∧ op.Calm))
      (Ends nc (exact ∧ op.Keeps s) (calm ∧ op.Calm)) := by
  obtain ⟨hnodup, hplaces, hcreated, hgiven⟩ := hfresh
  have hplace : ∀ a ∈ op.places, a ∉ addresses s.live := by
    intro a ha
    rw [← any_lies, hplaces a ha]
    exact Bool.false_ne_true
  have hunused : Unused (op.created.map (WINDOW.mk · none)) s := by
    intro k hk
    obtain ⟨key, hkey, rfl⟩ := Option.map_eq_some_iff.mp hk
    exact ⟨(hcreated key hkey).1, by simp⟩
  rintro _ rfl
  cases op with
  | of_handle a win memory =>
    simp only [Op.Calm, and_true]
    refine of_handle_ensures h.2 (hplace a List.mem_cons_self) win memory s ⟨⟨h.1, ?_⟩, ?_⟩
    · exact fun k hk => ⟨(hcreated _ (Option.mem_map_of_mem WINDOW.key hk)).1, hgiven k hk⟩
    · exact fun k hk => (hcreated _ (Option.mem_map_of_mem WINDOW.key hk)).2
  | of_size a win memory =>
    simp only [Op.Keeps, Op.Calm, and_true]
    exact of_size_ensures h.2 (hplace a List.mem_cons_self) win memory s ⟨h.1, hunused⟩
  | copy a b reserved win memory =>
    simp only [Op.Keeps, Op.Calm, and_true]
    refine (copy_ensures h.2 (hplace a List.mem_cons_self) b reserved win memory
      (fun _ hs _ => ⟨hs, hs⟩) fun _ => ⟨trivial, trivial⟩).imp (fun _ hs => hs)
      (fun _ _ hs => hs.2.1) (fun _ _ h => h) s ⟨h.1, hunused⟩
  | move a b memory =>
    simp only [Op.Calm, and_true]
    exact move_ensures h.2 (hplace a List.mem_cons_self) b memory s h.1
  | move_subwindow a b memory =>
    simp only [Op.Calm, and_true]
    exact move_subwindow_ensures h.2 (hplace a List.mem_cons_self) b memory s h.1
  | delete a =>
    simp only [Op.Calm, and_true]
    exact delete_ensures h.2 a s h.1
  | assign_move a b =>
    simp only [Op.Calm, and_true]
    exact (assign_move_ensures h.2 a b).imp (fun _ hs => hs) (fun _ _ hs => hs.1) (fun _ _ h => h)
      s h.1
  | assign_copy a b tmp reserved win memory =>
    simp only [Op.Calm, and_true]
    exact assign_copy_ensures h.2 (hplace tmp List.mem_cons_self) a b reserved win memory s
      ⟨h.1, hunused⟩
  | assign a new_win =>
    simp only [Op.Calm, and_true]
    refine assign_ensures h.2 a new_win s ⟨h.1, ?_⟩
    exact fun k hk => ⟨(hcreated _ (Option.mem_map_of_mem WINDOW.key hk)).1, hgiven k hk⟩
  | destroy a =>
    simp only [Op.Calm, and_true]
    exact (destroy_window_ensures h.2 a).imp (fun _ hs => hs) (fun _ _ hs => hs.1) (fun _ _ h => h)
      s h.1
  | add_subwindow a fresh moved new_subw inside memory =>
    simp only [Op.Keeps, and_true]
    exact ((add_subwindow_ensures h.2 hnodup hplace a inside memory).bind fun _ _ hs => hs) s
      ⟨h.1, hunused⟩
  | delete_subwindow a index =>
    simp only [Op.Calm, and_true]
    exact delete_subwindow_ensures h.2 a index s h.1
  | exit_ncurses_mode =>
    simp only [Op.Calm, and_true]
    exact exit_ensures h s rfl
  | resume_ncurses_mode =>
    simp only [Op.Calm, and_true]
    exact resume_ensures h s rfl

theorem step_kept (h : Kept nc exact calm s) {op : Op α κ} {t : Screen α κ}
    (hstep : step nc s op = some t) : Kept nc (exact ∧ op.Keeps s) (calm ∧ op.Calm) t := by
  unfold step at hstep
  split_ifs at hstep with hfresh
  have hcall := call_ensures op h hfresh
  split at hstep
  · rename_i hok
    cases hstep
    exact hcall.of_ok rfl hok
  · rename_i herror
    cases hstep
    exact hcall.of_error rfl herror
  · rename_i herror
    cases hstep
    exact hcall.of_error rfl herror
  · exact absurd hstep (by simp)

/-! ## Runs -/

omit [DecidableEq α] [DecidableEq κ] in
theorem start_kept (nc : α) (stdscr : κ) : Kept nc True True (start nc stdscr) := by
  have hgrips : grips none (start nc stdscr).live = {⟨none, some ⟨stdscr, none⟩, none⟩} := rfl
  refine ⟨⟨rfl, rfl, ?_, by simp [start], ⟨0, ?_, by simp⟩, ?_, ?_, ?_⟩, ?_⟩
  · exact Multiset.nodup_singleton nc
  · rw [hgrips]
    rfl
  · exact Multiset.nodup_singleton stdscr
  · intro p hp k hk
    rw [Multiset.mem_singleton.mp hp] at hk
    exact absurd hk (by simp)
  · rw [hgrips]
    intro g hg
    rw [Multiset.mem_singleton.mp hg]
    exact ⟨Or.inr rfl, fun _ => rfl, fun w hw => absurd hw (by simp)⟩
  · exact ⟨(none, ⟨nc, false, some ⟨stdscr, none⟩, none⟩), Multiset.mem_cons_self _ _, rfl, rfl⟩

/-- What is lost or refused in a run is so because of one of its calls. -/
theorem Kept.run (h : Kept nc exact calm s) {ops : List (Op α κ)} {t : Screen α κ}
    (hrun : run (step nc) s ops = some t) :
    Kept nc (exact ∧ Meets (step nc) (fun u op => op.Keeps u) s ops)
      (calm ∧ Meets (step nc) (fun _ op => op.Calm) s ops) t := by
  induction ops generalizing s exact calm with
  | nil =>
    cases hrun
    exact (h.congr (by simp [Meets])).calm_congr (by simp [Meets])
  | cons op rest ih =>
    obtain ⟨u, hu, hrest⟩ := Option.bind_eq_some_iff.mp hrun
    refine ((ih (step_kept h hu) hrest).congr ?_).calm_congr ?_
    · rw [meets_cons (step nc) hu, and_assoc]
    · rw [meets_cons (step nc) hu, and_assoc]

/-- What holds in each state of each run. -/
theorem kept_of_run {stdscr : κ} {ops : List (Op α κ)}
    (h : run (step nc) (start nc stdscr) ops = some s) :
    Kept nc (Meets (step nc) (fun t op => op.Keeps t) (start nc stdscr) ops)
      (Meets (step nc) (fun _ op => op.Calm) (start nc stdscr) ops) s :=
  have hrun := (start_kept nc stdscr).run h
  (hrun.congr (iff_of_eq (true_and _))).calm_congr (iff_of_eq (true_and _))

omit [DecidableEq α] [DecidableEq κ] in
theorem Kept.exact_iff (h : Kept nc exact calm s) :
    s.open_ = owned s.live ∧ s.refused = [] ↔ exact ∧ calm := by
  obtain ⟨lost, hopen, hlost⟩ := h.1.opened
  rw [h.1.calm_iff, hopen, entries_grips, owned, add_eq_left]
  exact and_congr_left hlost

/-- Along every run the singleton has a pointer to each window that lives, once, and to nothing
else, itself apart. So no window is missing when it goes, and in a change of ncurses mode no
pointer leads to where no window lies. -/
theorem the_singleton_has_each_window_once {stdscr : κ} {ops : List (Op α κ)}
    (h : run (step nc) (start nc stdscr) ops = some s) :
    nc ::ₘ (s.windows_ : Multiset α) = addresses s.live ∧ (addresses s.live).Nodup ∧
      ∀ (op : Op α κ) (t : Screen α κ), op.Fresh s → op.call nc s ≠ .error .unregistered t ∧
        op.call nc s ≠ .error .dangling t := by
  have hkept := kept_of_run h
  refine ⟨hkept.1.registered, hkept.1.apart, ?_⟩
  intro op t hfresh
  have hcall := call_ensures op hkept hfresh
  exact ⟨fun herror => hcall.of_error rfl herror, fun herror => hcall.of_error rfl herror⟩

/-- The calls that lead to `grown`. -/
def growing : List (Op Nat Nat) :=
  [.of_size 1 (some 101) true, .add_subwindow 1 2 none (some 102) true true,
    .add_subwindow 1 3 (some [(4, true)]) (some 103) true true, .delete_subwindow 1 0,
    .move_subwindow 5 3 true]

/-- A window with two subwindows. What the first of them had, in another buffer by then, has been
deleted, and what the second had is that of a subwindow outside the vector. -/
def grown : Screen Nat Nat :=
  ⟨.node ⟨0, false, some ⟨100, none⟩, none⟩ .nil (.node ⟨1, false, some ⟨101, none⟩, none⟩
      (.node ⟨4, true, none, none⟩ .nil (.tree ⟨3, true, none, none⟩ .nil))
      (.tree ⟨5, true, some ⟨103, some 101⟩, none⟩ .nil)), [1, 3, 4, 5], false,
    {⟨103, some 101⟩, ⟨101, none⟩, ⟨100, none⟩}, 100, []⟩

theorem run_growing : run (step 0) (start 0 100) growing = some grown := rfl

theorem the_singleton_has_each_window_of_grown_once :
    0 ::ₘ (grown.windows_ : Multiset Nat) = addresses grown.live ∧ (addresses grown.live).Nodup ∧
      ∀ (op : Op Nat Nat) (t : Screen Nat Nat), op.Fresh grown →
        op.call 0 grown ≠ .error .unregistered t ∧ op.call 0 grown ≠ .error .dangling t :=
  the_singleton_has_each_window_once run_growing

/-- The first subwindow cannot be moved when a second one is made. It is lost, and the new one is
deleted twice. -/
example : (run (step 0) (start 0 100) [.of_size 1 (some 101) true,
    .add_subwindow 1 2 none (some 102) true true,
    .add_subwindow 1 3 (some [(4, false)]) (some 103) true true]).map
      (fun s => (s.open_, s.refused)) =
    some ({⟨102, some 101⟩, ⟨101, none⟩, ⟨100, none⟩}, [103]) := rfl

/-- Leaving ncurses mode and coming back right away leaves each window as it was, but what is in
a vector, however deep, has no curses window any more. -/
theorem a_subwindow_does_not_come_back {stdscr : κ} {ops : List (Op α κ)}
    (h : run (step nc) (start nc stdscr) ops = some s) (hmode : s.is_exit_ = false) :
    run (step nc) s [.exit_ncurses_mode, .resume_ncurses_mode] =
      some { s with live := s.live.layer id release } := by
  have hkept := kept_of_run h
  have hfresh : ∀ t : Screen α κ,
      Op.exit_ncurses_mode.Fresh t ∧ Op.resume_ncurses_mode.Fresh t := by
    intro t
    simp [Op.Fresh, Op.places, Op.created, Op.given]
  have hexit : step nc s .exit_ncurses_mode =
      some { s with live := s.live.layer invalidate release, is_exit_ := true } := by
    rw [step, if_pos (hfresh s).1, Op.call, exit_eq hkept hmode]
  have hresume := resume_eq (hkept.exit hmode) rfl
  have hsame : (s.live.layer invalidate release).layer validate release =
      s.live.layer id release := by
    rw [Forest.layer_layer]
    refine Forest.layer_congr fun w hw => ?_
    -- in ncurses mode nothing is put aside
    have hsave : w.1.win_save_ = none :=
      (hkept.sound (Forest.handed_of_mem_trees hw)).on hmode
    obtain ⟨⟨address, is_subwindow, win_, win_save_⟩, below⟩ := w
    cases hsave
    rfl
  rw [run, hexit, Option.bind_some, run, step, if_pos (hfresh _).2, Op.call, hresume]
  simp only [Option.bind_some, run, hsame, ← hmode]

theorem a_subwindow_of_grown_does_not_come_back :
    run (step 0) grown [.exit_ncurses_mode, .resume_ncurses_mode] =
      some { grown with live := grown.live.layer id release } :=
  a_subwindow_does_not_come_back run_growing rfl

end Window

end nccpp
