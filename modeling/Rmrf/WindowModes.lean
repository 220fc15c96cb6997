-- Ncurses mode is left and entered again through the registry, which has subwindows beside the
-- windows that have them. So a window gets its own back, and a subwindow in a vector loses what
-- it had.
import Rmrf.WindowCalls

open runs stateful forest

namespace nccpp

namespace Window

variable {α κ : Type} {nc : α} {exact calm : Prop} {F : Forest (Managed α κ)} {s : Screen α κ}
  {member : Managed α κ → Managed α κ}

/-! ## What a pass leaves -/

/-- A member that is called for each window of a pass, twice for a subwindow. -/
structure Pass (member : Managed α κ → Managed α κ) : Prop where
  address : ∀ w, (member w).address = w.address
  twice : ∀ w, member (member w) = release w
  released : ∀ w, member (release w) = release w

theorem invalidate_pass : Pass (invalidate : Managed α κ → Managed α κ) :=
  ⟨fun _ => rfl, fun _ => rfl, fun _ => rfl⟩

theorem validate_pass : Pass (validate : Managed α κ → Managed α κ) :=
  ⟨fun _ => rfl, fun _ => rfl, fun _ => rfl⟩

theorem vacant_map_release (G : Forest (Managed α κ)) : Vacant (G.map release) := by
  intro w hw
  rw [Forest.labels_map] at hw
  obtain ⟨v, _, rfl⟩ := Multiset.mem_map.mp hw
  exact ⟨rfl, rfl⟩

theorem grips_layer_node (w : Managed α κ) (below next : Forest (Managed α κ)) :
    grips none ((Forest.node w below next).layer member release) =
      grip (none, member w) ::ₘ (grips (parent (member w)) (below.map release) +
        grips none (next.layer member release)) := by
  rw [Forest.layer, grips_node, grip]

/-- A window that is met once, or one that holds nothing any more. -/
theorem mem_grips_layer {g : Grip κ} (hg : g ∈ grips none (F.layer member release)) :
    (∃ x ∈ F.handed parent none, x.1 = none ∧ g = grip (none, member x.2)) ∨
      (g.win_ = none ∧ g.win_save_ = none) := by
  induction F with
  | nil => exact absurd hg (Multiset.notMem_zero g)
  | node w below next _ ihn =>
    rw [grips_layer_node, Multiset.mem_cons, Multiset.mem_add] at hg
    rcases hg with rfl | hg | hg
    · exact Or.inl ⟨(none, w), by simp [Forest.handed], rfl, rfl⟩
    · exact Or.inr ((vacant_map_release below).grips _ g hg)
    · rcases ihn hg with ⟨x, hx, hnone, rfl⟩ | hg
      · exact Or.inl ⟨x, by simp [Forest.handed, hx], hnone, rfl⟩
      · exact Or.inr hg

theorem seated_layer (haddress : ∀ w, (member w).address = w.address) (h : Seated nc F) :
    Seated nc (F.layer member release) := by
  obtain ⟨x, hx, hnone, rfl⟩ := h
  induction F with
  | nil => exact absurd hx (Multiset.notMem_zero x)
  | node w below next _ ihn =>
    simp only [Forest.handed, Multiset.mem_cons, Multiset.mem_add] at hx
    rcases hx with rfl | hx | hx
    · exact ⟨(none, member w), by simp [Forest.layer, Forest.handed], rfl, haddress w⟩
    · exact absurd hnone (fst_ne_none (by simp [parent]) hx)
    · obtain ⟨y, hy, hnone', haddr⟩ := ihn hx
      exact ⟨y, by simp [Forest.layer, Forest.handed, hy], hnone', haddr⟩

/-- The window still owns what it did. -/
def Survives (member : Managed α κ → Managed α κ) (x : Option (Option κ) × Managed α κ) : Prop :=
  (if x.1 = none then member x.2 else release x.2).handle = x.2.handle

theorem handles_node (w : Managed α κ) (below next : Forest (Managed α κ)) :
    handles (.node w below next) = handles (.tree w .nil) + handles below + handles next := by
  cases hk : w.handle with
  | none =>
    rw [handles_node_none (i := none) hk, handles_node_none (i := none) hk, handles_nil]
    abel
  | some k =>
    rw [handles_node_some (i := none) hk, handles_node_some (i := none) hk, handles_nil]
    simp only [← Multiset.singleton_add]
    abel

theorem handles_eq_zero_iff : handles F = 0 ↔ ∀ w ∈ F.labels, w.handle = none := by
  rw [← entries_grips none, entries_eq_zero_iff, ← Forest.map_snd_handed parent none F, grips,
    Multiset.forall_mem_map_iff, Multiset.forall_mem_map_iff]
  rfl

/-- What a pass loses is nothing just when each window still owns what it did. -/
theorem handles_layer (h : ∀ x ∈ F.handed parent none, x.1 = none →
      (member x.2).handle = x.2.handle ∨ (member x.2).handle = none) :
    ∃ piece, handles F = handles (F.layer member release) + piece ∧
      (piece = 0 ↔ ∀ x ∈ F.handed parent none, Survives member x) := by
  induction F with
  | nil => exact ⟨0, rfl, by simp [Forest.handed]⟩
  | node w below next _ ihn =>
    obtain ⟨rest, hrest, hzero⟩ := ihn fun x hx => h x (by simp [Forest.handed, hx])
    have hnone : ∀ {v : Managed α κ}, handles (.tree v .nil) = 0 ↔ v.handle = none := by
      intro v
      simp [handles_eq_zero_iff, Forest.labels]
    -- the first window of the tree
    have hfirst : ∃ piece, handles (.tree w .nil) = handles (.tree (member w) .nil) + piece ∧
        (piece = 0 ↔ Survives member (none, w)) := by
      rcases h (none, w) (by simp [Forest.handed]) rfl with heq | hgone
      · refine ⟨0, ?_, by simp [Survives, heq]⟩
        rw [add_zero]
        cases hk : w.handle with
        | none =>
          rw [handles_node_none (i := none) hk, handles_node_none (i := none) (heq.trans hk)]
        | some k =>
          rw [handles_node_some (i := none) hk, handles_node_some (i := none) (heq.trans hk)]
      · refine ⟨handles (.tree w .nil), ?_, ?_⟩
        · rw [hnone.mpr hgone, zero_add]
        · rw [hnone, Survives, if_pos rfl, hgone]
          exact eq_comm
    obtain ⟨first, hfirst, hfirstzero⟩ := hfirst
    have hbelow : handles below = 0 ↔ ∀ x ∈ below.handed parent (parent w), Survives member x := by
      rw [handles_eq_zero_iff, ← Forest.map_snd_handed parent (parent w) below,
        Multiset.forall_mem_map_iff]
      refine forall₂_congr fun x hx => ?_
      rw [Survives, if_neg (fst_ne_none (by simp [parent]) hx)]
      exact eq_comm
    refine ⟨first + (handles below + rest), ?_, ?_⟩
    · rw [Forest.layer, handles_node, handles_node (member w), (vacant_map_release below).handles,
        hrest, hfirst]
      abel
    · simp only [add_eq_zero, hfirstzero, hbelow, hzero, Forest.handed, Multiset.mem_cons,
        Multiset.mem_add, or_imp, forall_and, forall_eq]

theorem Kept.sound (h : Kept nc exact calm s) {x : Option (Option κ) × Managed α κ}
    (hx : x ∈ s.live.handed parent none) : (grip x).Sound s.is_exit_ :=
  h.1.sound (grip x) (Multiset.mem_map_of_mem grip hx)

/-- The windows after a pass that turns ncurses mode on or off. -/
theorem Kept.pass {off : Bool} (hpass : Pass member) (h : Kept nc exact calm s)
    (hsound : ∀ x ∈ s.live.handed parent none, x.1 = none → (grip (none, member x.2)).Sound off)
    (hhandle : ∀ x ∈ s.live.handed parent none, x.1 = none →
      (member x.2).handle = x.2.handle ∨ (member x.2).handle = none) :
    Kept nc (exact ∧ ∀ x ∈ s.live.handed parent none, Survives member x) calm
      { s with live := s.live.layer member release, is_exit_ := off } := by
  obtain ⟨hs, hseat⟩ := h
  obtain ⟨lost, hopen, hlost⟩ := hs.opened
  obtain ⟨piece, hpiece, hzero⟩ := handles_layer hhandle
  have haddresses : addresses (s.live.layer member release) = addresses s.live :=
    Forest.layer_keys (z := release) hpass.address (fun _ => rfl) s.live
  refine ⟨⟨rfl, hs.registered.trans haddresses.symm, ?_, hs.calm_iff, ⟨piece + lost, ?_, ?_⟩,
    hs.once, hs.rooted, ?_⟩, seated_layer hpass.address hseat⟩
  · rw [haddresses]
    exact hs.apart
  · show s.open_ = _
    rw [entries_grips, hopen, entries_grips, hpiece, add_assoc]
  · intro hcalm
    rw [add_eq_zero, hzero, hlost hcalm, and_comm]
  · intro g hg
    rcases mem_grips_layer hg with ⟨x, hx, hnone, rfl⟩ | ⟨hwin, hsave⟩
    · exact hsound x hx hnone
    · exact ⟨Or.inl hwin, fun _ => hsave, fun _ _ => ⟨hsave, by simp [hwin]⟩⟩

variable [DecidableEq α]

theorem each_eq (hpass : Pass member) {as : List α} (h : ∀ a ∈ as, a ∈ addresses s.live) :
    each member as s =
      .ok () { s with live := as.foldl (Forest.touch Managed.address member) s.live } := by
  induction as generalizing s with
  | nil => rfl
  | cons a rest ih =>
    have ha : s.live.any (lies a) = true := (any_lies s.live).mpr (h a List.mem_cons_self)
    have hrest : ∀ b ∈ rest, b ∈ addresses (s.live.touch Managed.address member a) := by
      intro b hb
      rw [addresses, Forest.touch_keys hpass.address]
      exact h b (List.mem_cons_of_mem a hb)
    unfold each
    rw [get_bind, if_pos ha, bind_ok (modify_eq _ s)]
    exact ih hrest

/-- The registry and the singleton meet each window once, and each subwindow again with every
window that it is in. -/
theorem Kept.each_eq (h : Kept nc exact calm s) (hpass : Pass member) :
    each member (s.windows_ ++ [nc]) s =
      .ok () { s with live := s.live.layer member release } := by
  have hall : ((s.windows_ ++ [nc] : List α) : Multiset α) = addresses s.live := by
    rw [← h.1.registered, ← Multiset.coe_add, Multiset.coe_singleton, Multiset.add_comm,
      Multiset.singleton_add]
  have hmem : ∀ a ∈ s.windows_ ++ [nc], a ∈ addresses s.live := by
    intro a ha
    rwa [← hall]
  have honce : ∀ w ∈ s.live.labels, (s.windows_ ++ [nc]).count w.address = 1 := by
    intro w hw
    rw [← Multiset.coe_count, hall]
    exact Multiset.count_eq_one_of_mem h.1.apart (Multiset.mem_map_of_mem Managed.address hw)
  rw [Window.each_eq hpass hmem, Forest.foldl_touch hpass.address h.1.apart honce,
    Forest.nest_eq_layer hpass.twice hpass.released]

theorem exit_eq (h : Kept nc exact calm s) (hmode : s.is_exit_ = false) :
    exit_ncurses_mode nc s =
      .ok () { s with live := s.live.layer invalidate release, is_exit_ := true } := by
  unfold exit_ncurses_mode
  rw [get_bind, bind_ok (assert_ok (by simp [hmode]) s), get_bind,
    bind_ok (h.each_eq invalidate_pass), modify_eq]

theorem resume_eq (h : Kept nc exact calm s) (hmode : s.is_exit_ = true) :
    resume_ncurses_mode nc s =
      .ok () { s with live := s.live.layer validate release, is_exit_ := false } := by
  unfold resume_ncurses_mode
  rw [get_bind, bind_ok (assert_ok hmode s), get_bind, bind_ok (h.each_eq validate_pass),
    modify_eq]

/-- No subwindow has a curses window. -/
def Alone (F : Forest (Managed α κ)) : Prop :=
  ∀ x ∈ F.handed parent none, x.1 ≠ none → x.2.handle = none

/-- No window has one, but for what was put aside. -/
def Aside (F : Forest (Managed α κ)) : Prop := ∀ w ∈ F.labels, w.win_ = none

omit [DecidableEq α] in
theorem Kept.exit (h : Kept nc exact calm s) (hmode : s.is_exit_ = false) :
    Kept nc (exact ∧ Alone s.live) calm
      { s with live := s.live.layer invalidate release, is_exit_ := true } := by
  have hsame : ∀ x ∈ s.live.handed parent none, (invalidate x.2).handle = x.2.handle := by
    intro x hx
    have hsave : x.2.win_save_ = none := (h.sound hx).on hmode
    simp [Managed.handle, invalidate, hsave]
  have hsurvives : (∀ x ∈ s.live.handed parent none, Survives invalidate x) ↔ Alone s.live := by
    refine forall₂_congr fun x hx => ?_
    unfold Survives
    split_ifs with hnone
    · simp [hnone, hsame x hx]
    · simp [hnone, release, Managed.handle, eq_comm]
  rw [← hsurvives]
  refine h.pass invalidate_pass ?_ fun x hx _ => Or.inl (hsame x hx)
  intro x _ _
  exact ⟨Or.inl rfl, fun hoff => absurd hoff (by simp), fun w hw => absurd hw (by simp [grip])⟩

omit [DecidableEq α] in
theorem Kept.resume (h : Kept nc exact calm s) :
    Kept nc (exact ∧ Aside s.live) calm
      { s with live := s.live.layer validate release, is_exit_ := false } := by
  -- what is put aside comes back, and what a window has had meanwhile is lost
  have hhandle : ∀ x ∈ s.live.handed parent none, (validate x.2).handle = x.2.handle ↔
      x.2.win_ = none := by
    intro x hx
    rcases (h.sound hx).one with hwin | hsave
    · have hwin : x.2.win_ = none := hwin
      simp [Managed.handle, validate, hwin]
    · have hsave : x.2.win_save_ = none := hsave
      simp [Managed.handle, validate, hsave, eq_comm]
  have hsurvives : (∀ x ∈ s.live.handed parent none, Survives validate x) ↔ Aside s.live := by
    rw [Aside, ← Forest.map_snd_handed parent none s.live, Multiset.forall_mem_map_iff]
    refine forall₂_congr fun x hx => ?_
    unfold Survives
    split_ifs with hnone
    · exact hhandle x hx
    · obtain ⟨w, hw⟩ := Option.ne_none_iff_exists'.mp hnone
      have hsave : x.2.win_save_ = none := ((h.sound hx).part w hw).1
      simp [release, Managed.handle, hsave, eq_comm]
  rw [← hsurvives]
  refine h.pass validate_pass ?_ ?_
  · intro x _ _
    exact ⟨Or.inr rfl, fun _ => rfl, fun w hw => absurd hw (by simp [grip])⟩
  · intro x hx _
    rcases (h.sound hx).one with hwin | hsave
    · exact Or.inl ((hhandle x hx).mpr hwin)
    · have hsave : x.2.win_save_ = none := hsave
      exact Or.inr (by simp [Managed.handle, validate, hsave])

end Window

end nccpp
