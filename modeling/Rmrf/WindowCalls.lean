-- What each call on a window keeps. A call takes a window out of the forest, works on what it
-- holds, and puts it back, and all the others are the frame of that.
import Rmrf.WindowOwners

open runs stateful forest

namespace nccpp

namespace Window

variable {α κ : Type} {nc a : α} {exact calm : Prop} {F : Forest (Managed α κ)}
  {A : Multiset α} {C : Multiset (Grip κ)} {s : Screen α κ}

/-! ## Between two calls -/

/-- The singleton's own window is no subwindow. -/
def Seated (nc : α) (F : Forest (Managed α κ)) : Prop :=
  ∃ x ∈ F.handed parent none, x.1 = none ∧ x.2.address = nc

/-- What holds of the windows that live. -/
def Kept (nc : α) (exact calm : Prop) (s : Screen α κ) : Prop :=
  Holds nc exact calm s.live (addresses s.live) (grips none s.live) s ∧ Seated nc s.live

/-- A call may throw what can be caught, and then the same holds. It may also fail an assert or
be no call of a correct program, but neither the registry nor curses is ever at fault. -/
def Ends (nc : α) (exact calm : Prop) : Ending → Screen α κ → Prop
  | .WindowInit, s | .bad_alloc, s => Kept nc exact calm s
  | .assertion, _ | .undefined, _ => True
  | .unregistered, _ | .dangling, _ | .closed, _ => False

theorem Holds.kept (h : Holds nc exact calm F A C s) (hA : A = addresses F) (hC : C = grips none F)
    (hF : Seated nc F) : Kept nc exact calm s := by
  obtain rfl := h.still
  subst hA hC
  exact ⟨h, hF⟩

theorem Kept.congr {exact' : Prop} (h : Kept nc exact calm s) (hexact : exact ↔ exact') :
    Kept nc exact' calm s :=
  ⟨h.1.congr hexact, h.2⟩

theorem Kept.calm_congr {calm' : Prop} (h : Kept nc exact calm s) (hcalm : calm ↔ calm') :
    Kept nc exact calm' s :=
  propext hcalm ▸ h

theorem addresses_tree (w : Managed α κ) (G : Forest (Managed α κ)) :
    addresses (.tree w G) = w.address ::ₘ addresses G := by
  rw [addresses_node, addresses_nil, add_zero]

theorem grips_tree (i : Option (Option κ)) (w : Managed α κ) (G : Forest (Managed α κ)) :
    grips i (.tree w G) = ⟨i, w.win_, w.win_save_⟩ ::ₘ grips (parent w) G := by
  rw [grips_node, grips_nil, add_zero]

theorem closed_grips (F : Forest (Managed α κ)) : Closed (grips none F) := by
  have h := Closed.add_grips (C := 0) (fun g hg => absurd hg (Multiset.notMem_zero g))
    (Or.inl rfl) F
  rwa [zero_add] at h

theorem addresses_eq_map (F : Forest (Managed α κ)) :
    addresses F = (F.handed parent none).map (fun x => x.2.address) := by
  rw [addresses, ← Forest.map_snd_handed parent none F, Multiset.map_map]
  rfl

/-- Where windows lie apart, one address is that of one window. -/
theorem eq_of_address (hapart : (addresses F).Nodup) {x y : Option (Option κ) × Managed α κ}
    (hx : x ∈ F.handed parent none) (hy : y ∈ F.handed parent none)
    (h : x.2.address = y.2.address) : x = y := by
  rw [addresses_eq_map] at hapart
  exact Multiset.inj_on_of_nodup_map hapart x hx y hy h

theorem Seated.mem (h : Seated nc F) : nc ∈ addresses F := by
  obtain ⟨x, hx, _, rfl⟩ := h
  rw [addresses_eq_map]
  exact Multiset.mem_map_of_mem (fun x : Option (Option κ) × Managed α κ => x.2.address) hx

/-- No subwindow is the singleton's own window. -/
theorem Seated.ne {b : α} (h : Seated nc F) (hapart : (addresses F).Nodup)
    (hb : ∃ x ∈ F.handed parent none, x.1 ≠ none ∧ x.2.address = b) : b ≠ nc := by
  obtain ⟨x, hx, hnone, rfl⟩ := h
  obtain ⟨y, hy, hsome, rfl⟩ := hb
  intro heq
  exact hsome (by rw [eq_of_address hapart hy hx heq, hnone])

variable [DecidableEq α]

/-- One window with its subwindows, and what the others hold. -/
structure Frame (nc : α) (F : Forest (Managed α κ)) (a : α) (i : Option (Option κ))
    (w : Managed α κ) (G : Forest (Managed α κ)) (A : Multiset α) (C : Multiset (Grip κ)) :
    Prop where
  found : F.find parent (lies a) none = some (i, w, G)
  address : w.address = a
  addresses_eq : addresses F = a ::ₘ A + addresses G
  grips_eq : grips none F = ⟨i, w.win_, w.win_save_⟩ ::ₘ C + grips (parent w) G
  graft_addresses : ∀ t, addresses (F.graft (lies a) t) = A + addresses t
  graft_grips : ∀ t, grips none (F.graft (lies a) t) = C + grips i t
  held : Held C i
  closed : Closed C
  nc_mem : a ≠ nc → Seated nc F → nc ∈ A
  seated : a ≠ nc → Seated nc F → ∀ t, Seated nc (F.graft (lies a) t)
  seated_same : Seated nc F → ∀ H, Seated nc (F.graft (lies a) (.tree w H))

theorem lies_iff {w : Managed α κ} : lies a w = true ↔ w.address = a := by simp [lies]

theorem any_lies (F : Forest (Managed α κ)) : F.any (lies a) = true ↔ a ∈ addresses F := by
  simp only [Forest.any_iff, lies_iff, addresses, Multiset.mem_map]

variable (nc) in
theorem exists_frame {i : Option (Option κ)} {w : Managed α κ} {G : Forest (Managed α κ)}
    (h : F.find parent (lies a) none = some (i, w, G)) : ∃ A C, Frame nc F a i w G A C := by
  obtain ⟨hw, others, hF, hgraft, hi, hothers⟩ := Forest.exists_others h
  have hheld : ∀ {j : Option (Option κ)}, Forest.Under parent none others j →
      Held (others.map grip) j := by
    rintro j (hj | ⟨y, hy, hj⟩)
    · exact Or.inl hj
    · exact Or.inr ⟨grip y, Multiset.mem_map_of_mem grip hy, hj⟩
  have haddresses : ∀ {H t : Forest (Managed α κ)} {j : Option (Option κ)},
      H.handed parent none = others + t.handed parent j →
      addresses H = others.map (fun x => x.2.address) + addresses t := by
    intro H t j hH
    rw [addresses_eq_map, hH, Multiset.map_add, addresses, ← Forest.map_snd_handed parent j t,
      Multiset.map_map]
    rfl
  have hgrips : ∀ {H t : Forest (Managed α κ)},
      H.handed parent none = others + t.handed parent i →
      grips none H = others.map grip + grips i t := by
    intro H t hH
    rw [grips, hH, Multiset.map_add, grips]
  -- the singleton's window is not below another one
  have hseat : Seated nc F → (∃ x ∈ others, x.1 = none ∧ x.2.address = nc) ∨
      i = none ∧ w.address = nc := by
    rintro ⟨x, hx, hnone, hnc⟩
    rw [hF, Multiset.mem_add] at hx
    rcases hx with hx | hx
    · exact Or.inl ⟨x, hx, hnone, hnc⟩
    · simp only [Forest.handed, add_zero, Multiset.mem_cons] at hx
      rcases hx with rfl | hx
      · exact Or.inr ⟨hnone, hnc⟩
      · exact absurd hnone (fst_ne_none (by simp [parent]) hx)
  have hother : a ≠ nc → Seated nc F → ∃ x ∈ others, x.1 = none ∧ x.2.address = nc :=
    fun hne hs => (hseat hs).resolve_right fun hi => hne ((lies_iff.mp hw).symm.trans hi.2)
  refine ⟨others.map (fun x => x.2.address), others.map grip, h, lies_iff.mp hw, ?_, ?_,
    fun t => haddresses (hgraft t), fun t => hgrips (hgraft t), hheld hi, ?_, ?_, ?_, ?_⟩
  · rw [haddresses hF, addresses_tree, lies_iff.mp hw, Multiset.add_cons, Multiset.cons_add]
  · rw [hgrips hF, grips_tree, Multiset.add_cons, Multiset.cons_add]
  · intro g hg
    obtain ⟨x, hx, rfl⟩ := Multiset.mem_map.mp hg
    exact hheld (hothers x hx)
  · intro hne hs
    obtain ⟨x, hx, _, hnc⟩ := hother hne hs
    exact Multiset.mem_map.mpr ⟨x, hx, hnc⟩
  · intro hne hs t
    obtain ⟨x, hx, hnone, hnc⟩ := hother hne hs
    exact ⟨x, by simp [hgraft, hx], hnone, hnc⟩
  · intro hs H
    rcases hseat hs with ⟨x, hx, hnone, hnc⟩ | ⟨hnone, hnc⟩
    · exact ⟨x, by simp [hgraft, hx], hnone, hnc⟩
    · exact ⟨(i, w), by simp [hgraft, Forest.handed], hnone, hnc⟩

/-! ## The calls -/

section Rules

variable {β : Type} {P : Screen α κ → Prop} {R : β → Screen α κ → Prop}
  {E : Ending → Screen α κ → Prop}

variable (nc) in
theorem lookup_bind {k : Option (Option κ) × Managed α κ × Forest (Managed α κ) → Method α κ β}
    (hP : ∀ s, P s → s.live = F) (hE : ∀ s, P s → E .undefined s)
    (hk : ∀ i w G A C, Frame nc F a i w G A C → Ensures P (k (i, w, G)) R E) :
    Ensures P (lookup a >>= k) R E := by
  intro s hs
  unfold lookup
  rw [bind_assoc, get_bind, hP s hs]
  cases hfound : F.find parent (lies a) none with
  | none => exact hE s hs
  | some found =>
    obtain ⟨i, w, G⟩ := found
    obtain ⟨A, C, hframe⟩ := exists_frame nc hfound
    exact hk i w G A C hframe s hs

theorem object_bind {k : Managed α κ × Forest (Managed α κ) → Method α κ β}
    (hP : ∀ s, P s → s.live = F) (hE : ∀ s, P s → E .undefined s)
    (hk : a ≠ nc → ∀ w G A C, Frame nc F a none w G A C → Ensures P (k (w, G)) R E) :
    Ensures P (object nc a >>= k) R E := by
  unfold object
  rw [bind_assoc]
  refine lookup_bind nc hP hE ?_
  intro i w G A C hframe
  dsimp only
  split_ifs with h
  · obtain ⟨rfl, hne⟩ := h
    exact hk hne w G A C hframe
  · exact fun s hs => hE s hs

theorem window_bind {k : Managed α κ × Forest (Managed α κ) → Method α κ β}
    (hP : ∀ s, P s → s.live = F) (hE : ∀ s, P s → E .undefined s)
    (hk : a ≠ nc → ∀ w G A C, Frame nc F a none w G A C → Ensures P (k (w, G)) R E) :
    Ensures P (window nc a >>= k) R E := by
  unfold window
  rw [bind_assoc]
  refine object_bind hP hE ?_
  intro hne w G A C hframe
  split_ifs
  · exact fun s hs => hE s hs
  · exact hk hne w G A C hframe

theorem subwindow_bind {k : Managed α κ × Forest (Managed α κ) → Method α κ β}
    (hP : ∀ s, P s → s.live = F) (hE : ∀ s, P s → E .undefined s)
    (hk : a ≠ nc → ∀ i w G A C, Frame nc F a i w G A C → Ensures P (k (w, G)) R E) :
    Ensures P (subwindow nc a >>= k) R E := by
  unfold subwindow
  rw [bind_assoc]
  refine lookup_bind nc hP hE ?_
  intro i w G A C hframe
  dsimp only
  split_ifs with h
  · exact hk h.2 i w G A C hframe
  · exact fun s hs => hE s hs

theorem update_ensures (a : α) (t : Forest (Managed α κ)) :
    Ensures (Holds nc exact calm F A C) (update a t)
      (fun _ => Holds nc exact calm (F.graft (lies a) t) A C) E := by
  intro s hs
  have hstill : s.live.graft (lies a) t = F.graft (lies a) t := by rw [hs.still]
  exact ⟨hstill, hs.registered, hs.apart, hs.calm_iff, hs.opened, hs.once, hs.rooted, hs.sound⟩

omit [DecidableEq α] in
theorem place_ensures (w : Managed α κ) (G : Forest (Managed α κ)) :
    Ensures (Holds nc exact calm F A C) (place w G)
      (fun _ => Holds nc exact calm (F.append (.tree w G)) A C) E := by
  intro s hs
  have hstill : s.live.append (.tree w G) = F.append (.tree w G) := by rw [hs.still]
  exact ⟨hstill, hs.registered, hs.apart, hs.calm_iff, hs.opened, hs.once, hs.rooted, hs.sound⟩

/-- The window is put back, and the forest is what the windows that live hold. -/
theorem Frame.put_back {i : Option (Option κ)} {w : Managed α κ} {G : Forest (Managed α κ)}
    {A' : Multiset α} {C' : Multiset (Grip κ)} (hframe : Frame nc F a i w G A' C')
    {t : Forest (Managed α κ)} (hA : A = A' + addresses t) (hC : C = C' + grips i t)
    (hF : Seated nc (F.graft (lies a) t)) :
    Ensures (Holds nc exact calm F A C) (update a t) (fun _ => Kept nc exact calm) E := by
  refine (update_ensures a t).imp (fun _ hs => hs) ?_ (fun _ _ h => h)
  intro _ s hs
  exact hs.kept (hA.trans (hframe.graft_addresses t).symm) (hC.trans (hframe.graft_grips t).symm) hF

omit [DecidableEq α] in
/-- A new window is put beside those that live. -/
theorem place_kept {w : Managed α κ} {G : Forest (Managed α κ)}
    (hA : A = addresses F + addresses (.tree w G)) (hC : C = grips none F + grips none (.tree w G))
    (hF : Seated nc F) :
    Ensures (Holds nc exact calm F A C) (place w G) (fun _ => Kept nc exact calm) E := by
  refine (place_ensures w G).imp (fun _ hs => hs) ?_ (fun _ _ h => h)
  intro _ s hs
  refine hs.kept (hA.trans (addresses_append F _).symm) (hC.trans (grips_append none F _).symm) ?_
  obtain ⟨x, hx, hnone, hnc⟩ := hF
  exact ⟨x, by simp [Forest.handed_append, hx], hnone, hnc⟩

end Rules

/-! ## What is deleted -/

/-- No window outside the vectors has a part of what the window at `a` and those below it have. -/
def Spares (a : α) (C : Multiset (Grip κ)) (F : Forest (Managed α κ)) : Prop :=
  ∀ x ∈ F.find parent (lies a) none, Free C (handles (.tree x.2.1 x.2.2))

theorem Frame.spares {i : Option (Option κ)} {w : Managed α κ} {G : Forest (Managed α κ)}
    (hframe : Frame nc F a i w G A C) (C' : Multiset (Grip κ)) :
    Spares a C' F ↔ Free C' (handles (.tree w G)) := by
  simp [Spares, hframe.found]

theorem Frame.free {i : Option (Option κ)} {w : Managed α κ} {G : Forest (Managed α κ)}
    (hframe : Frame nc F a i w G A C) (D : Multiset (WINDOW κ)) :
    Free (⟨i, w.win_, w.win_save_⟩ ::ₘ C) D ↔ Free (grips none F) D := by
  rw [hframe.grips_eq, free_add_grips (by simp)]

variable [DecidableEq κ]

theorem destroy_window_ensures (hF : Seated nc F) (a : α) :
    Ensures (Holds nc exact calm F (addresses F) (grips none F)) (destroy_window nc a)
      (fun _ s => Kept nc (exact ∧ Spares a (grips none F) F) calm s ∧
        ∃ w G, s.live.find parent (lies a) none = some (none, release w, G))
      (Ends nc (exact ∧ Spares a (grips none F) F) calm) := by
  unfold destroy_window
  refine window_bind (fun s hs => hs.still) (fun _ _ => trivial) ?_
  intro hne w G A C hframe
  rw [hframe.spares, ← hframe.free, hframe.addresses_eq, hframe.grips_eq]
  refine (destroy_ensures w G (Multiset.mem_cons_of_mem (hframe.nc_mem hne hF)) hframe.closed
    hframe.held).bind ?_
  rintro ⟨w', G'⟩ s ⟨hw', hs⟩
  obtain rfl : w' = release w := hw'
  refine ⟨hframe.put_back (E := Ends nc exact calm) ?_ ?_ (hframe.seated hne hF _) s hs, w, G', ?_⟩
  · rw [addresses_tree, release, hframe.address, Multiset.add_cons, Multiset.cons_add]
  · rw [grips_tree, Multiset.add_cons, Multiset.cons_add]
    rfl
  · show (s.live.graft _ _).find _ _ _ = _
    rw [hs.still]
    exact Forest.find_graft_self hframe.found (lies_iff.mpr hframe.address)

theorem delete_ensures (hF : Seated nc F) (a : α) :
    Ensures (Holds nc exact calm F (addresses F) (grips none F)) (delete nc a)
      (fun _ => Kept nc (exact ∧ Spares a (grips none F) F) calm)
      (Ends nc (exact ∧ Spares a (grips none F) F) calm) := by
  unfold delete
  refine object_bind (fun s hs => hs.still) (fun _ _ => trivial) ?_
  intro hne w G A C hframe
  have hnc : nc ∈ A := hframe.nc_mem hne hF
  rw [hframe.spares, ← hframe.free, hframe.addresses_eq, hframe.grips_eq, Multiset.cons_add]
  refine (unregister_ensures (Multiset.mem_add.mpr (Or.inl hnc))).bind fun _ => ?_
  refine (destroy_ensures w G hnc hframe.closed hframe.held).bind ?_
  rintro ⟨w', G'⟩
  refine Ensures.pre (fun s hs => hs.2) ?_
  -- what the vector still has goes before the window itself
  refine (clear_vacant G' hnc (hframe.closed.cons hframe.held)
    (Or.inr ⟨_, Multiset.mem_cons_self _ C, rfl⟩)).bind fun _ => ?_
  refine Ensures.pre (fun s hs => hs.drop rfl) ?_
  refine hframe.put_back ?_ ?_ (hframe.seated hne hF .nil)
  · rw [addresses_nil, add_zero]
  · rw [grips_nil, add_zero]

/-- What the caller gives is the window's own as soon as the old one is gone. -/
theorem assign_ensures (hF : Seated nc F) (a : α) (new_win : Option (WINDOW κ)) :
    Ensures (fun s => Holds nc exact calm F (addresses F) (grips none F) s ∧ Unused new_win s)
      (assign nc a new_win)
      (fun _ => Kept nc (exact ∧ Spares a (⟨none, new_win, none⟩ ::ₘ grips none F) F) calm)
      (Ends nc (exact ∧ Spares a (⟨none, new_win, none⟩ ::ₘ grips none F) F) calm) := by
  unfold assign
  refine (create_ensures (i := none) (by simp)).bind fun _ => ?_
  refine window_bind (fun s hs => hs.still) (fun _ _ => trivial) ?_
  intro hne w G A C hframe
  let new : Grip κ := ⟨none, new_win, none⟩
  have hgrips : new ::ₘ grips none F =
      ⟨none, w.win_, w.win_save_⟩ ::ₘ (new ::ₘ C) + grips (parent w) G := by
    rw [hframe.grips_eq]
    simp only [← Multiset.singleton_add]
    abel
  have hclosed : Closed (new ::ₘ C) := hframe.closed.cons (Or.inl rfl)
  rw [hframe.spares, hgrips, free_add_grips (by simp)]
  have hput : ∀ (w' : Managed α κ) (G' : Forest (Managed α κ)), w'.address = a →
      w'.win_save_ = none → ∀ {exact : Prop}, Ensures
        (Holds nc exact calm F (a ::ₘ A + addresses G') (new ::ₘ C + grips (some none) G'))
        (update a (.tree { w' with win_ := new_win } G')) (fun _ => Kept nc exact calm)
        (Ends nc exact calm) := by
    intro w' G' haddress hsave exact
    refine Ensures.pre (fun s hs => hs.regrip (some (new_win.map WINDOW.key))) ?_
    refine hframe.put_back ?_ ?_ (hframe.seated hne hF _)
    · rw [addresses_tree, haddress, Multiset.add_cons, Multiset.cons_add]
    · rw [grips_tree, hsave, Multiset.add_cons, Multiset.cons_add]
  refine (assert_ensures (fun _ _ => trivial)).bind fun _ => ?_
  refine Ensures.knowing (fun s hs => hs.2) ?_
  intro hsave
  rw [Option.isNone_iff_eq_none] at hsave
  rw [hframe.addresses_eq]
  refine Ensures.pre (fun s hs => hs.1) ?_
  apply Ensures.ite
  · intro _
    refine (destroy_ensures w G (Multiset.mem_cons_of_mem (hframe.nc_mem hne hF)) hclosed
      (Or.inl rfl)).bind ?_
    rintro ⟨w', G'⟩
    refine Ensures.knowing (fun s hs => hs.1) ?_
    rintro rfl
    refine Ensures.pre (fun s hs => ?_) (hput (release w) G' hframe.address rfl)
    exact hs.2.drop_beside rfl
  · intro hwin
    simp only [Option.not_isSome_iff_eq_none] at hwin
    refine Ensures.pre (fun s hs => ?_) (hput w G hframe.address hsave)
    rw [parent, hwin, hsave] at hs
    have hG : Vacant G := hs.vacant
    have hw : (⟨none, w.win_, w.win_save_⟩ : Grip κ).handle = none := by
      rw [Grip.handle, hwin, show w.win_save_ = none from hsave]
      rfl
    refine (hs.drop_beside rfl).congr ?_
    rw [handles_node_none hw, hG.handles, handles_nil, add_zero]
    simp [free_zero]

/-! ### The constructors -/

omit [DecidableEq α] [DecidableEq κ] in
/-- A window that holds what is in hand is placed beside the others. -/
theorem place_new (hF : Seated nc F) (win : Option (WINDOW κ)) {E : Ending → Screen α κ → Prop} :
    Ensures (Holds nc exact calm F (a ::ₘ addresses F) (⟨none, win, none⟩ ::ₘ grips none F))
      (place ⟨a, false, win, none⟩ .nil)
      (fun _ s => Kept nc exact calm s ∧ s.live = F.append (.tree ⟨a, false, win, none⟩ .nil))
      E := by
  intro s hs
  refine ⟨place_kept ?_ ?_ hF (E := E) s hs, ?_⟩
  · rw [addresses_tree, addresses_nil, Multiset.add_cons, add_zero]
  · rw [grips_tree, grips_nil, Multiset.add_cons, add_zero]
  · show s.live.append _ = _
    rw [hs.still]

omit [DecidableEq α] [DecidableEq κ] in
theorem register_or_ensures {undo : Method α κ Unit} (ha : a ∉ A) {memory : Bool}
    {E : Ending → Screen α κ → Prop}
    (hundo : memory = false →
      Ensures (Holds nc exact calm F A C) undo (fun _ => E .bad_alloc) E) :
    Ensures (Holds nc exact calm F A C) (register_or a memory undo)
      (fun _ s => Holds nc exact calm F (a ::ₘ A) C s ∧ memory = true) E := by
  unfold register_or
  refine Ensures.tryCatch (E := fun e s => (e = .bad_alloc ∧ memory = false) ∧
    Holds nc exact calm F A C s) (register_ensures ha memory fun s hs hm => ⟨⟨rfl, hm⟩, hs⟩) ?_
  intro e
  refine Ensures.knowing (fun s hs => hs.1) ?_
  rintro ⟨rfl, hm⟩
  refine Ensures.pre (fun s hs => hs.2) ((hundo hm).bind fun _ => ?_)
  exact ensures_throw fun _ hs => hs

omit [DecidableEq α] in
/-- The curses window that has just been made is deleted again. -/
theorem delete_new {g : Grip κ} {win : Option (WINDOW κ)} (hg : g.handle = win) (hC : Closed C)
    (hup : Held C g.under) (hfree : ∀ k, win = some k → Free (g ::ₘ C) {k})
    {E : Ending → Screen α κ → Prop} (hE : ∀ s, Holds nc exact calm F A C s → E .bad_alloc s) :
    Ensures (Holds nc exact calm F A (g ::ₘ C)) (delwin win) (fun _ => E .bad_alloc) E := by
  cases win with
  | none => exact fun s hs => hE s (hs.drop hg)
  | some k =>
    refine (delwin_ensures hg hC hup).imp (fun _ hs => hs) ?_ (fun _ _ h => h)
    exact fun _ s hs => hE s (hs.congr (by simp [hfree k rfl]))

/-- A window that the caller gives is lost when the registration throws. -/
def Taken (win : Option (WINDOW κ)) (memory : Bool) : Prop := memory = true ∨ win = none

omit [DecidableEq α] in
theorem of_handle_ensures (hF : Seated nc F) (ha : a ∉ addresses F) (win : Option (WINDOW κ))
    (memory : Bool) :
    Ensures (fun s => (Holds nc exact calm F (addresses F) (grips none F) s ∧ Unused win s) ∧
        ∀ k ∈ win, k.key ≠ s.stdscr)
      (of_handle a win memory) (fun _ => Kept nc (exact ∧ Taken win memory) calm)
      (Ends nc (exact ∧ Taken win memory) calm) := by
  rintro s ⟨hs, hstdscr⟩
  obtain ⟨t, ht, hsame⟩ : ∃ t, create win s = .ok () t ∧ t.stdscr = s.stdscr := by
    cases win with
    | none => exact ⟨s, rfl, rfl⟩
    | some k => exact ⟨_, rfl, rfl⟩
  have hother : win.map WINDOW.key ≠ some t.stdscr := by
    rw [hsame]
    intro heq
    obtain ⟨k, hk, hkey⟩ := Option.map_eq_some_iff.mp heq
    exact hstdscr k hk hkey
  have hcreated := (create_ensures (E := Ends nc exact calm) (i := none) (by simp)).of_ok hs ht
  unfold of_handle
  rw [bind_ok ht, get_bind, if_pos hother]
  refine Ensures.bind (register_ensures ha memory ?_) (fun _ => ?_) t hcreated
  · intro s hs hmemory
    refine (hs.lose.congr ?_).kept rfl rfl hF
    simp [Taken, hmemory, Grip.handle]
  · refine Ensures.knowing (fun s hs => hs.2) ?_
    intro hmemory
    have hexact : exact ↔ exact ∧ Taken win memory := by simp [Taken, hmemory]
    exact (place_new hF win).imp (fun s hs => hs.1.congr hexact) (fun _ _ hs => hs.1)
      (fun _ _ h => h)

omit [DecidableEq α] in
theorem of_size_ensures (hF : Seated nc F) (ha : a ∉ addresses F) (win : Option κ)
    (memory : Bool) :
    Ensures (fun s => Holds nc exact calm F (addresses F) (grips none F) s ∧
        Unused (win.map (WINDOW.mk · none)) s)
      (of_size a win memory) (fun _ => Kept nc exact calm) (Ends nc exact calm) := by
  unfold of_size
  apply Ensures.get_bind
  intro s
  refine (assert_ensures (fun _ _ => trivial)).bind fun _ => ?_
  refine Ensures.pre (fun s hs => hs.1.1) ?_
  dsimp only
  generalize win.map (WINDOW.mk · none) = win
  refine Ensures.knowing (fun s hs => hs.1.free_new hs.2 none) ?_
  intro hfree
  refine (create_ensures (i := none) (by simp)).bind fun _ => ?_
  apply Ensures.ite
  · intro hwin
    rw [Option.isNone_iff_eq_none] at hwin
    exact ensures_throw fun s hs => (hs.drop (by simp [Grip.handle, hwin])).kept rfl rfl hF
  · intro _
    refine (register_or_ensures ha fun _ => ?_).bind fun _ => ?_
    · exact delete_new (by simp [Grip.handle]) (closed_grips F) (Or.inl rfl) hfree
        fun s hs => hs.kept rfl rfl hF
    · exact (place_new hF win).imp (fun s hs => hs.1) (fun _ _ hs => hs.1) (fun _ _ h => h)

/-- A copy is made of the window at `b`. -/
def Made (b : α) (reserved : Bool) (win : Option κ) (memory : Bool) (F : Forest (Managed α κ)) :
    Prop :=
  reserved = true ∧ (win = none → ∀ x ∈ F.find parent (lies b) none, x.2.1.win_ = none) ∧
    memory = true

omit [DecidableEq α] in
/-- The duplicate is in hand. It is a part of no window, and it holds nothing when there was
nothing to duplicate. -/
theorem dup_ensures {g : Grip κ} (hg : g ∈ C) (win : Option κ) {E : Ending → Screen α κ → Prop}
    (hE : ∀ s, Holds nc exact calm F A C s → g.win_ ≠ none → win = none → E .WindowInit s) :
    Ensures (fun s => Holds nc exact calm F A C s ∧ Unused (win.map (WINDOW.mk · none)) s)
      (dup g.win_ win)
      (fun r s => ((∀ k ∈ r, k.part_of = none ∧ Free (⟨none, r, none⟩ ::ₘ C) {k}) ∧
          (win = none → g.win_ = none)) ∧
        Holds nc exact calm F A (⟨none, r, none⟩ ::ₘ C) s) E := by
  unfold dup
  split
  · rename_i hnone
    exact fun s hs => ⟨⟨by simp, fun _ => hnone⟩, hs.1.put none⟩
  · rename_i k hk
    have hgk : g.handle = some k := by simp [Grip.handle, hk]
    refine (use_ensures fun s hs => hs.1.is_open hg hgk).bind fun _ => ?_
    refine Ensures.knowing (fun s hs => hs.1.free_new hs.2 none) ?_
    intro hfree
    refine (create_ensures (i := none) (by simp)).bind fun _ => ?_
    apply Ensures.ite
    · intro hwin
      rw [Option.isNone_iff_eq_none] at hwin
      refine ensures_throw fun s hs => ?_
      exact hE s (hs.drop (by simp [Grip.handle, hwin])) (by simp [hk]) (by simpa using hwin)
    · intro hwin s hs
      refine ⟨⟨fun k hk => ⟨?_, hfree k hk⟩, ?_⟩, hs⟩
      · obtain ⟨j, _, rfl⟩ := Option.map_eq_some_iff.mp hk
        rfl
      · rintro rfl
        exact absurd rfl hwin

/-- A copy that is not made leaves everything as it was. -/
theorem copy_ensures (hF : Seated nc F) (ha : a ∉ addresses F) (b : α) (reserved : Bool)
    (win : Option κ) (memory : Bool) {E : Ending → Screen α κ → Prop}
    (hE : ∀ s, Kept nc exact calm s → ¬Made b reserved win memory F →
      E .WindowInit s ∧ E .bad_alloc s)
    (hE' : ∀ s, E .undefined s ∧ E .assertion s) :
    Ensures (fun s => Holds nc exact calm F (addresses F) (grips none F) s ∧
        Unused (win.map (WINDOW.mk · none)) s)
      (copy nc a b reserved win memory)
      (fun _ s => Made b reserved win memory F ∧ Kept nc exact calm s ∧
        ∃ win_ : Option (WINDOW κ), (∀ k ∈ win_, k.part_of = none) ∧
          s.live = F.append (.tree ⟨a, false, win_, none⟩ .nil)) E := by
  unfold copy
  refine window_bind (fun s hs => hs.1.still) (fun s _ => (hE' s).1) ?_
  intro _ w G A C hframe
  have hmade : Made b reserved win memory F ↔
      reserved = true ∧ (win = none → w.win_ = none) ∧ memory = true := by
    simp [Made, hframe.found]
  refine (assert_ensures (fun s _ => (hE' s).2)).bind fun _ => ?_
  refine Ensures.pre (fun s hs => hs.1) ?_
  apply Ensures.ite
  · intro hreserved
    have hw : (⟨none, w.win_, w.win_save_⟩ : Grip κ) ∈ grips none F := by
      rw [hframe.grips_eq]
      simp
    refine (dup_ensures hw win fun s hs hsome hnone => ?_).bind fun win_ => ?_
    · refine (hE s (hs.kept rfl rfl hF) ?_).1
      rw [hmade]
      exact fun h => hsome (h.2.1 hnone)
    refine Ensures.knowing (fun s hs => hs.1) ?_
    rintro ⟨hwin_, hnone⟩
    refine Ensures.pre (fun s hs => hs.2) ?_
    refine (register_or_ensures ha fun hmemory => ?_).bind fun _ => ?_
    · refine delete_new (by simp [Grip.handle]) (closed_grips F) (Or.inl rfl)
        (fun k hk => (hwin_ k hk).2) fun s hs => (hE s (hs.kept rfl rfl hF) ?_).2
      rw [hmade]
      simp [hmemory]
    · refine Ensures.knowing (fun s hs => hs.2) ?_
      intro hmemory
      refine (place_new hF win_).imp (fun s hs => hs.1) ?_ (fun _ _ h => h)
      rintro _ s ⟨hs, hlive⟩
      exact ⟨hmade.mpr ⟨hreserved, hnone, hmemory⟩, hs, win_, fun k hk => (hwin_ k hk).1, hlive⟩
  · intro hreserved
    refine ensures_throw fun s hs => (hE s (hs.1.kept rfl rfl hF) ?_).2
    exact fun h => hreserved h.1

/-! ### The moves -/

/-- A window is not lost when the registration of the one that takes it goes well. -/
def Moves (b : α) (memory : Bool) (F : Forest (Managed α κ)) : Prop :=
  memory = true ∨ ∀ x ∈ F.find parent (lies b) none, x.2.1.handle = none

section Moving

variable {b : α} {i : Option (Option κ)} {w : Managed α κ} {G : Forest (Managed α κ)}

/-- The forest with a window at `b` that has been moved from. -/
def emptied (b : α) (w : Managed α κ) (F : Forest (Managed α κ)) : Forest (Managed α κ) :=
  F.graft (lies b) (.tree (release w) .nil)

omit [DecidableEq κ] in
theorem Frame.addresses_emptied (hframe : Frame nc F b i w G A C) :
    addresses F = addresses (emptied b w F) + addresses G := by
  rw [hframe.addresses_eq, emptied, hframe.graft_addresses, addresses_tree, addresses_nil,
    Multiset.add_cons, add_zero, release, hframe.address]

omit [DecidableEq κ] in
/-- What the window had is in hand. -/
theorem Frame.take (hframe : Frame nc F b i w G A C) {E : Ending → Screen α κ → Prop} :
    Ensures (Holds nc exact calm F (addresses F) (grips none F))
      (update b (.tree (release w) .nil))
      (fun _ => Holds nc exact calm (emptied b w F) (addresses (emptied b w F) + addresses G)
        (⟨none, w.win_, w.win_save_⟩ ::ₘ grips none (emptied b w F) + grips (parent w) G)) E := by
  refine (update_ensures b _).imp (fun _ hs => hs) ?_ (fun _ _ h => h)
  intro _ s hs
  have hC : grips none (emptied b w F) = ⟨i, none, none⟩ ::ₘ C := by
    rw [show grips none (emptied b w F) = _ from hframe.graft_grips _, grips_tree, grips_nil,
      Multiset.add_cons, add_zero]
    rfl
  rw [hframe.addresses_emptied, hframe.grips_eq, Multiset.cons_add] at hs
  rw [hC, Multiset.cons_swap, Multiset.cons_add, Multiset.cons_add]
  exact hs.uproot.put i

/-- The window that has been moved from is there without anything. -/
theorem take_ensures (hframe : Frame nc F b i w G A C) (hF : Seated nc (emptied b w F))
    (ha : a ∉ addresses F) (memory : Bool) :
    Ensures (Holds nc exact calm F (addresses F) (grips none F))
      (do update b (.tree (release w) .nil); take a w G memory)
      (fun _ => Kept nc (exact ∧ Moves b memory F) calm)
      (Ends nc (exact ∧ Moves b memory F) calm) := by
  refine hframe.take.bind fun _ => ?_
  let g : Grip κ := ⟨none, w.win_, w.win_save_⟩
  have hmoves : Moves b memory F ↔ memory = true ∨ g.handle = none := by
    simp only [Moves, hframe.found, Option.mem_some_iff, forall_eq']
    rfl
  have ha' : a ∉ addresses (emptied b w F) + addresses G := hframe.addresses_emptied ▸ ha
  unfold Window.take
  rw [hmoves]
  refine (register_or_ensures ha' fun hmemory => ?_).bind fun _ => ?_
  · apply Ensures.knowing (p := g.handle = none → Vacant G)
    · intro s hs hnone
      have hwin : w.win_ = none := (Option.or_eq_none_iff.mp hnone).1
      rw [parent, hwin] at hs
      exact hs.vacant
    intro hvacant
    refine (clear_ensures G hF.mem ((closed_grips _).cons (Or.inl rfl))
      (Or.inr ⟨g, Multiset.mem_cons_self g _, rfl⟩)).imp (fun _ hs => hs) ?_ (fun _ _ h => h)
    intro _ s hs
    refine (hs.lose.congr ?_).kept rfl rfl hF
    constructor
    · exact fun h => ⟨h.1.1, Or.inr h.2⟩
    · rintro ⟨hexact, hkeeps⟩
      have hnone := hkeeps.resolve_left (by simp [hmemory])
      refine ⟨⟨hexact, ?_⟩, hnone⟩
      rw [(hvacant hnone).handles]
      exact free_zero _
  · refine Ensures.knowing (fun s hs => hs.2) ?_
    intro hmemory
    have hexact : exact ↔ exact ∧ (memory = true ∨ g.handle = none) := by simp [hmemory]
    refine Ensures.pre (fun s hs => hs.1.congr hexact) (place_kept ?_ ?_ hF)
    · rw [addresses_tree, Multiset.add_cons]
    · rw [grips_tree, Multiset.add_cons, Multiset.cons_add]

theorem move_ensures (hF : Seated nc F) (ha : a ∉ addresses F) (b : α) (memory : Bool) :
    Ensures (Holds nc exact calm F (addresses F) (grips none F)) (move nc a b memory)
      (fun _ => Kept nc (exact ∧ Moves b memory F) calm)
      (Ends nc (exact ∧ Moves b memory F) calm) := by
  unfold move
  refine window_bind (fun s hs => hs.still) (fun _ _ => trivial) ?_
  intro hne w G A C hframe
  exact take_ensures hframe (hframe.seated hne hF _) ha memory

theorem move_subwindow_ensures (hF : Seated nc F) (ha : a ∉ addresses F) (b : α)
    (memory : Bool) :
    Ensures (Holds nc exact calm F (addresses F) (grips none F)) (move_subwindow nc a b memory)
      (fun _ => Kept nc (exact ∧ Moves b memory F) calm)
      (Ends nc (exact ∧ Moves b memory F) calm) := by
  unfold move_subwindow
  refine subwindow_bind (fun s hs => hs.still) (fun _ _ => trivial) ?_
  intro hne i w G A C hframe
  exact take_ensures hframe (hframe.seated hne hF _) ha memory

omit [DecidableEq κ] in
/-- A window is not among the subwindows of another one. -/
theorem any_eq_false_of_found {v : Managed α κ} {H : Forest (Managed α κ)}
    (hapart : (addresses F).Nodup) (hw : F.find parent (lies a) none = some (i, w, G))
    (hv : F.find parent (lies b) none = some (none, v, H)) : G.any (lies b) = false := by
  obtain ⟨_, others, hothers, _⟩ := Forest.exists_others hw
  obtain ⟨hb, others', hothers', _⟩ := Forest.exists_others hv
  have hmem : (none, v) ∈ F.handed parent none := by simp [hothers', Forest.handed]
  rw [Bool.eq_false_iff]
  intro hany
  obtain ⟨u, hu, hub⟩ := (Forest.any_iff G).mp hany
  rw [← Forest.map_snd_handed parent (parent w) G] at hu
  obtain ⟨y, hy, rfl⟩ := Multiset.mem_map.mp hu
  have hyF : y ∈ F.handed parent none := by simp [hothers, Forest.handed, hy]
  have heq := eq_of_address hapart hyF hmem ((lies_iff.mp hub).trans (lies_iff.mp hb).symm)
  exact fst_ne_none (by simp [parent]) hy (by rw [heq])

section Emptied

variable {v mv : Managed α κ} {M : Forest (Managed α κ)}

omit [DecidableEq κ] in
/-- The other windows are where they were when one has been moved from. -/
theorem Frame.find_emptied (hframe : Frame nc F b none mv M A C) (hapart : (addresses F).Nodup)
    (hab : a ≠ b) (ha : F.find parent (lies a) none = some (none, v, G)) :
    (emptied b mv F).find parent (lies a) none = some (none, v, G) := by
  have hmv : lies a mv = false := by simp [lies, hframe.address, hab.symm]
  refine Forest.find_graft_other hframe.found ha hmv
    (any_eq_false_of_found hapart hframe.found ha) ?_
    (any_eq_false_of_found hapart ha hframe.found)
  simp [Forest.any, lies, release, hframe.address, hab.symm]

omit [DecidableEq κ] in
/-- What has been moved from stays there when another window takes over what it had. -/
theorem Frame.find_taken_over (hframe : Frame nc F b none mv M A C)
    (hapart : (addresses F).Nodup) (hab : a ≠ b)
    (ha : F.find parent (lies a) none = some (none, v, G)) {taker : Managed α κ}
    (htaker : taker.address = a) :
    ((emptied b mv F).graft (lies a) (.tree taker M)).find parent (lies b) none =
      some (none, release mv, .nil) := by
  have ha' := hframe.find_emptied hapart hab ha
  have hb' : (emptied b mv F).find parent (lies b) none = some (none, release mv, .nil) :=
    Forest.find_graft_self hframe.found (lies_iff.mpr hframe.address)
  have hv : v.address = a := lies_iff.mp (Forest.exists_others ha).1
  have hapart' : (addresses (emptied b mv F)).Nodup := by
    rw [hframe.addresses_emptied] at hapart
    exact (Multiset.nodup_add.mp hapart).1
  refine Forest.find_graft_other ha' hb' ?_ (any_eq_false_of_found hapart' ha' hb') ?_ rfl
  · simp [lies, hv, hab]
  · have hM := any_eq_false_of_found hapart hframe.found hframe.found
    simp [Forest.any, lies, htaker, hM, hab]

end Emptied

/-- The rest of a move assignment, when the window at `a` has been destroyed. What has been moved
from has nothing that could be deleted. -/
theorem take_over_ensures (hF : Seated nc F) (hab : a ≠ b) {v : Managed α κ}
    (ha : F.find parent (lies a) none = some (none, release v, G)) :
    Ensures (Holds nc exact calm F (addresses F) (grips none F))
      (do
        let mv ← window nc b
        update b (.tree (release mv.1) .nil)
        let w ← window nc a
        clear w.2
        update a (.tree { w.1 with win_ := mv.1.win_, win_save_ := mv.1.win_save_ } mv.2))
      (fun _ s => Kept nc exact calm s ∧ ∀ C, Spares b C s.live) (Ends nc exact calm) := by
  refine window_bind (fun s hs => hs.still) (fun _ _ => trivial) ?_
  intro hb mv M A C hframe
  refine Ensures.knowing (fun s hs => hs.apart) ?_
  intro hapart
  have ha' := hframe.find_emptied hapart hab ha
  have hF' : Seated nc (emptied b mv F) := hframe.seated hb hF _
  refine hframe.take.bind fun _ => ?_
  refine window_bind (fun s hs => hs.still) (fun _ _ => trivial) ?_
  intro hne w G' A' C' hframe'
  have hfound := hframe'.found.symm.trans ha'
  simp only [Option.some.injEq, Prod.mk.injEq, true_and] at hfound
  obtain ⟨rfl, rfl⟩ := hfound
  let g : Grip κ := ⟨none, mv.win_, mv.win_save_⟩
  let old : Grip κ := ⟨none, none, none⟩
  have hA : addresses (emptied b mv F) + addresses M =
      a ::ₘ A' + addresses M + addresses G' := by
    rw [hframe'.addresses_eq, add_right_comm]
  have hC : g ::ₘ grips none (emptied b mv F) + grips (parent mv) M =
      (old ::ₘ (g ::ₘ C') + grips (parent mv) M) + grips (some none) G' := by
    rw [hframe'.grips_eq]
    simp only [← Multiset.singleton_add, old, release, parent, Option.map_none]
    abel
  have hclosed : Closed (old ::ₘ (g ::ₘ C') + grips (parent mv) M) := by
    refine Closed.add_grips ((hframe'.closed.cons (Or.inl rfl)).cons (Or.inl rfl)) ?_ M
    exact Or.inr ⟨g, by simp [g], rfl⟩
  rw [hA, hC]
  refine (clear_vacant G' ?_ hclosed (Or.inr ⟨old, by simp [old], rfl⟩)).bind fun _ => ?_
  · exact Multiset.mem_add.mpr (Or.inl (Multiset.mem_cons_of_mem (hframe'.nc_mem hne hF')))
  refine Ensures.pre (fun s hs => hs.drop_beside rfl) ?_
  intro s hs
  refine ⟨hframe'.put_back (E := Ends nc exact calm) ?_ ?_ (hframe'.seated hne hF' _) s hs, ?_⟩
  · rw [addresses_tree, Multiset.add_cons, Multiset.cons_add, ← hframe'.address]
  · rw [grips_tree, Multiset.add_cons, Multiset.cons_add]
  · intro D x hx
    have hx : (s.live.graft (lies a) (.tree { release v with
        win_ := mv.win_, win_save_ := mv.win_save_ } M)).find parent (lies b) none = some x := hx
    rw [hs.still, hframe.find_taken_over hapart hab ha (by exact hframe'.address)] at hx
    cases hx
    exact free_zero D

theorem assign_move_ensures (hF : Seated nc F) (a b : α) :
    Ensures (Holds nc exact calm F (addresses F) (grips none F)) (assign_move nc a b)
      (fun _ s => Kept nc (exact ∧ (a = b ∨ Spares a (grips none F) F)) calm s ∧
        (a ≠ b → ∀ C, Spares b C s.live))
      (Ends nc (exact ∧ (a = b ∨ Spares a (grips none F) F)) calm) := by
  unfold assign_move
  apply Ensures.ite
  · rintro rfl s hs
    exact ⟨(hs.congr (by simp)).kept rfl rfl hF, fun hne => absurd rfl hne⟩
  · intro hab
    simp only [hab, false_or]
    refine (destroy_window_ensures hF a).bind ?_
    rintro _ s ⟨⟨hs, hF'⟩, w, G, ha⟩
    exact (take_over_ensures hF' hab ha).imp (fun _ hs => hs) (fun _ _ hs => ⟨hs.1, fun _ => hs.2⟩)
      (fun _ _ h => h) s hs

theorem assign_copy_ensures {tmp : α} (hF : Seated nc F) (htmp : tmp ∉ addresses F) (a b : α)
    (reserved : Bool) (win : Option κ) (memory : Bool) :
    Ensures (fun s => Holds nc exact calm F (addresses F) (grips none F) s ∧
        Unused (win.map (WINDOW.mk · none)) s)
      (assign_copy nc a b tmp reserved win memory)
      (fun _ => Kept nc (exact ∧ (a = b ∨
        (Made b reserved win memory F → Spares a (grips none F) F))) calm)
      (Ends nc (exact ∧ (a = b ∨
        (Made b reserved win memory F → Spares a (grips none F) F))) calm) := by
  unfold assign_copy
  apply Ensures.ite
  · rintro rfl s hs
    exact (hs.1.congr (by simp)).kept rfl rfl hF
  intro hab
  simp only [hab, false_or]
  refine window_bind (fun s hs => hs.1.still) (fun _ _ => trivial) ?_
  intro _ w G A C hframe
  have hne : a ≠ tmp := by
    rintro rfl
    exact htmp ((any_lies F).mp (Forest.any_of_find hframe.found))
  refine (copy_ensures hF htmp b reserved win memory ?_ fun _ => ⟨trivial, trivial⟩).bind ?_
  · intro s hs hmade
    have hs : Kept nc (exact ∧ (Made b reserved win memory F → Spares a (grips none F) F)) calm s :=
      hs.congr (by simp [hmade])
    exact ⟨hs, hs⟩
  rintro _ s ⟨hmade, ⟨hs, hseat⟩, win_, hwhole, hlive⟩
  -- the copy is a part of no window
  have hspares : Spares a (grips none s.live) s.live ↔ Spares a (grips none F) F := by
    have hfind : s.live.find parent (lies a) none = F.find parent (lies a) none := by
      rw [hlive, Forest.find_append_of_any (Forest.any_of_find hframe.found)]
    have hgrips : grips none s.live = ⟨none, win_, none⟩ ::ₘ grips none F := by
      rw [hlive, grips_append, grips_tree, grips_nil, Multiset.cons_zero, Multiset.add_comm,
        Multiset.singleton_add]
    have hfree : ∀ D, Free (grips none s.live) D ↔ Free (grips none F) D := by
      intro D
      rw [hgrips, free_cons_whole]
      simpa [Grip.handle] using hwhole
    simp only [Spares, hfind, hfree]
  have hexact : (exact ∧ (a = tmp ∨ Spares a (grips none s.live) s.live)) =
      (exact ∧ (Made b reserved win memory F → Spares a (grips none F) F)) := by
    simp [hne, hspares, hmade]
  have hmove := @assign_move_ensures _ _ nc exact calm s.live _ _ hseat a tmp
  rw [hexact] at hmove
  refine (hmove.bind fun _ => ?_) s hs
  rintro t ⟨⟨ht, hseat'⟩, hleft⟩
  have hspared : Spares tmp (grips none t.live) t.live := hleft hne _
  have hdelete := delete_ensures hseat' tmp t ht
  simpa [hspared] using hdelete

end Moving

end Window

end nccpp
