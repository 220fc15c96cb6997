-- What the vectors of subwindows keep. A vector that is full moves its elements to a new buffer,
-- and each has to register there. When one of them cannot, the new window is deleted twice, and
-- curses refuses the second time.
import Rmrf.WindowCalls

open runs stateful forest

namespace nccpp

namespace Window

variable {α κ : Type} {nc a : α} {exact calm : Prop} {F : Forest (Managed α κ)}
  {A : Multiset α} {C : Multiset (Grip κ)} {s : Screen α κ}

/-! ## What stays closed -/

section Within

variable {M : Multiset (WINDOW κ)} [DecidableEq κ]

theorem delwin_within (win : Option (WINDOW κ)) :
    Maintains (fun s : Screen α κ => s.open_ ≤ M) (delwin win) := by
  cases win with
  | none => exact maintains_pure ()
  | some k =>
    refine Maintains.get_bind fun s => Maintains.ite (fun _ => ?_) fun _ => Maintains.ite
      (fun _ => ?_) fun _ => ?_
    · exact maintains_modify fun _ hs => hs
    · exact maintains_pure ()
    · exact maintains_modify fun _ hs => (Multiset.filter_le _ _).trans hs

variable [DecidableEq α]

omit [DecidableEq κ] in
theorem unregister_within (a : α) :
    Maintains (fun s : Screen α κ => s.open_ ≤ M) (unregister_window_ a) := by
  refine Maintains.get_bind fun s => Maintains.ite (fun _ => ?_) fun _ => ?_
  · exact maintains_modify fun _ hs => hs
  · exact maintains_throw _

omit [DecidableEq α] [DecidableEq κ] in
theorem register_within (a : α) (memory : Bool) :
    Maintains (fun s : Screen α κ => s.open_ ≤ M) (register_window_ a memory) := by
  refine Maintains.ite (fun _ => ?_) fun _ => ?_
  · exact maintains_modify fun _ hs => hs
  · exact maintains_throw _

/-- A destructor opens nothing. -/
theorem clear_within (G : Forest (Managed α κ)) :
    Maintains (fun s : Screen α κ => s.open_ ≤ M) (clear G) := by
  induction G with
  | nil => exact maintains_pure ()
  | node w below next ihb ihn =>
    unfold clear
    refine (unregister_within w.address).bind fun _ => ?_
    split
    · exact ihb.bind fun _ => (delwin_within _).bind fun _ => ihn
    · exact ihb.bind fun _ => (delwin_within _).bind fun _ => ihn
    · exact ihb.bind fun _ => ihn

theorem relocate_within (places : List (α × Bool)) (G : Forest (Managed α κ)) :
    Maintains (fun s : Screen α κ => s.open_ ≤ M) (relocate places G) := by
  induction G generalizing places with
  | nil =>
    cases places with
    | nil => exact maintains_pure _
    | cons p places => exact maintains_throw _
  | node w below next _ ihn =>
    cases places with
    | nil => exact maintains_throw _
    | cons p places =>
      unfold relocate
      refine Maintains.ite (fun _ => ?_) fun _ => ?_
      · exact (register_within p.1 true).bind fun _ => (ihn places).bind fun _ => maintains_pure _
      · exact (clear_within below).bind fun _ => maintains_pure _

end Within

/-! ## A vector grows -/

/-- The elements have been moved, and the old ones hold nothing, or one of them could not be
moved. -/
structure Relocated (nc : α) (exact calm : Prop) (F : Forest (Managed α κ)) (A : Multiset α)
    (C : Multiset (Grip κ)) (u : Option κ) (places : List (α × Bool))
    (buffers : Forest (Managed α κ) × Forest (Managed α κ) × Bool) (s : Screen α κ) : Prop where
  done : buffers.2.2 = true ↔ ∀ p ∈ places, p.2 = true
  vacated : buffers.2.2 = true → handles buffers.2.1 = 0
  holds : ∃ exact', (buffers.2.2 = true → (exact' ↔ exact)) ∧
    Holds nc exact' calm F (A + addresses buffers.1 + addresses buffers.2.1)
      (C + grips (some u) buffers.1 + grips (some u) buffers.2.1) s

section Elements

variable {u : Option κ} {w : Managed α κ} {below next new old : Forest (Managed α κ)}
  {p : α × Bool} {places : List (α × Bool)} {done : Bool}

/-- An element that could register is in the new buffer with its subwindows, and in the old one it
holds nothing. -/
theorem Relocated.cons (hmemory : p.2 = true)
    (h : Relocated nc exact calm F (p.1 ::ₘ w.address ::ₘ (A + addresses below))
      (⟨some u, w.win_, w.win_save_⟩ ::ₘ C + grips (parent w) below) u places (new, old, done) s) :
    Relocated nc exact calm F A C u (p :: places)
      (.node { w with address := p.1 } below new, .node (release w) .nil old, done) s := by
  obtain ⟨hdone, hvacated, exact', hexact, hs⟩ := h
  refine ⟨by simp [hdone, hmemory], fun h => ?_, exact', hexact, ?_⟩
  · rw [handles_node_none (w := release w) (i := none) rfl, handles_nil, zero_add, hvacated h]
  · have hs := hs.put (some u)
    rw [addresses_node, addresses_node, grips_node, grips_node, addresses_nil, grips_nil]
    convert hs using 1
    · simp only [← Multiset.singleton_add, release]
      abel
    · simp only [← Multiset.singleton_add, release]
      abel

/-- The element that could not register has lost its subwindows, and it holds nothing. Those behind
it are as they were. -/
theorem Relocated.stuck (hmemory : p.2 = false) {exact' : Prop}
    (hs : Holds nc exact' calm F (w.address ::ₘ (A + addresses next))
      (⟨some u, w.win_, w.win_save_⟩ ::ₘ (C + grips (some u) next)) s) :
    Relocated nc exact calm F A C u (p :: places) (.nil, .node (release w) .nil next, false) s := by
  obtain ⟨less, hs⟩ : ∃ less, Holds nc less calm F (w.address ::ₘ (A + addresses next))
      (⟨some u, none, none⟩ ::ₘ (C + grips (some u) next)) s :=
    ⟨_, hs.lose.put (some u)⟩
  refine ⟨by simp [hmemory], fun h => absurd h (by simp), less, fun h => absurd h (by simp), ?_⟩
  rw [addresses_node, grips_node]
  simp only [addresses_nil, grips_nil]
  convert hs using 1
  · simp only [← Multiset.singleton_add, release]
    abel
  · simp only [← Multiset.singleton_add, release]
    abel

end Elements

variable [DecidableEq α] [DecidableEq κ]

theorem relocate_ensures {u : Option κ} (places : List (α × Bool)) (G : Forest (Managed α κ))
    (hnc : nc ∈ A) (hC : Closed C) (hu : Held C (some u)) (hnodup : (places.map Prod.fst).Nodup)
    (hfresh : ∀ p ∈ places.map Prod.fst, p ∉ A + addresses G)
    {E : Ending → Screen α κ → Prop} (hE : ∀ s, E .undefined s) :
    Ensures (Holds nc exact calm F (A + addresses G) (C + grips (some u) G)) (relocate places G)
      (Relocated nc exact calm F A C u places) E := by
  induction G generalizing A C places with
  | nil =>
    cases places with
    | nil =>
      refine fun s hs => ⟨by simp, fun _ => rfl, exact, fun _ => Iff.rfl, ?_⟩
      simpa using hs
    | cons p places => exact fun s _ => hE s
  | node w below next _ ihn =>
    cases places with
    | nil => exact fun s _ => hE s
    | cons p places =>
      obtain ⟨hp, hplaces⟩ := List.nodup_cons.mp hnodup
      let g : Grip κ := ⟨some u, w.win_, w.win_save_⟩
      unfold relocate
      apply Ensures.ite
      · intro hmemory
        have hA : p.1 ::ₘ (A + addresses (.node w below next)) =
            p.1 ::ₘ w.address ::ₘ (A + addresses below) + addresses next := by
          rw [add_addresses_node, Multiset.cons_add, add_right_comm, Multiset.cons_add,
            Multiset.cons_add]
        have hG : C + grips (some u) (.node w below next) =
            g ::ₘ C + grips (parent w) below + grips (some u) next := by
          rw [add_grips_node, Multiset.cons_add, add_right_comm, Multiset.cons_add,
            Multiset.cons_add]
        refine (register_ensures (hfresh p.1 List.mem_cons_self) true (by simp)).bind fun _ => ?_
        rw [hA, hG]
        refine Ensures.pre (fun s hs => hs.1)
          ((ihn places (by simp [hnc]) ?_ ?_ hplaces ?_).bind ?_)
        · exact (hC.cons hu).add_grips (Or.inr ⟨g, Multiset.mem_cons_self g C, rfl⟩) below
        · exact hu.mono fun x hx => by simp [hx]
        · intro q hq
          rw [← hA, Multiset.mem_cons, not_or]
          exact ⟨fun h => hp (h ▸ hq), hfresh q (List.mem_cons_of_mem p.1 hq)⟩
        exact fun _ _ hs => hs.cons hmemory
      · -- the element goes that cannot register
        intro hmemory
        rw [add_addresses_node, add_grips_node]
        refine (clear_ensures below (by simp [hnc]) ((hC.add_grips hu next).cons ?_)
          (Or.inr ⟨g, Multiset.mem_cons_self g _, rfl⟩)).bind fun _ => ?_
        · exact hu.mono fun x hx => by simp [hx]
        exact fun _ hs => Relocated.stuck (by simpa using hmemory) hs

omit [DecidableEq α] in
/-- A window that nothing is a part of is closed afterwards. -/
theorem delwin_closes {g : Grip κ} {k : WINDOW κ} (hk : g.handle = some k) (hC : Closed C)
    (hg : Held C g.under) {M : Multiset (WINDOW κ)} (hM : ∀ p ∈ M, p.part_of ≠ some k.key)
    {E : Ending → Screen α κ → Prop} :
    Ensures (fun s => Holds nc exact calm F A (g ::ₘ C) s ∧ s.open_ ≤ M) (delwin (some k))
      (fun _ s => k.key ∉ s.keys ∧ ∃ exact', Holds nc exact' calm F A C s) E := by
  rintro s ⟨hs, hopen⟩
  have hpart : some k.key ∉ s.open_.map WINDOW.part_of := by
    intro h
    obtain ⟨p, hp, hpk⟩ := Multiset.mem_map.mp h
    exact hM p (Multiset.mem_of_le hopen hp) hpk
  have hend := delwin_ensures hk hC hg (E := fun _ _ => False) s hs
  unfold delwin at hend ⊢
  dsimp only at hend ⊢
  rw [get_bind, if_neg (not_not.mpr (hs.is_open (Multiset.mem_cons_self g C) hk)),
    if_neg hpart] at hend ⊢
  refine ⟨?_, _, hend⟩
  simp [Screen.keys]

/-- The new element is destroyed. -/
theorem clear_new {u : Option κ} {fresh : α} {k : WINDOW κ} (hnc : nc ∈ A) (hC : Closed C)
    (hu : Held C (some u)) {M : Multiset (WINDOW κ)} (hM : ∀ p ∈ M, p.part_of ≠ some k.key)
    {E : Ending → Screen α κ → Prop} :
    Ensures (fun s => Holds nc exact calm F (fresh ::ₘ A) (⟨some u, some k, none⟩ ::ₘ C) s ∧
        s.open_ ≤ M)
      (clear (.tree ⟨fresh, true, some k, none⟩ .nil))
      (fun _ s => k.key ∉ s.keys ∧ ∃ exact', Holds nc exact' calm F A C s) E := by
  unfold clear
  refine ((unregister_ensures hnc).carry (unregister_within fresh)).bind fun _ => ?_
  refine Ensures.bind (Q := fun _ s => Holds nc exact calm F A (⟨some u, some k, none⟩ ::ₘ C) s ∧
    s.open_ ≤ M) (fun _ hs => hs) fun _ => ?_
  exact (delwin_closes rfl hC hu hM).bind fun _ _ hs => hs

/-- Every element can be moved. -/
def Grows (moved : Option (List (α × Bool))) : Prop := ∀ p ∈ moved.getD [], p.2 = true

/-- There is no new element. It could not be made, or those that had to be moved could not be,
and then its window has been deleted already. -/
def Unmade (nc : α) (exact calm : Prop) (F : Forest (Managed α κ)) (g : Grip κ) (k : WINDOW κ)
    (moved : Option (List (α × Bool))) (memory : Bool) : Ending → Screen α κ → Prop
  | .bad_alloc, s =>
    (memory = false ∧ Holds nc exact calm F (addresses F) (g ::ₘ grips none F) s) ∨
      ((memory = true ∧ ¬Grows moved) ∧ k.key ∉ s.keys ∧ ∃ exact', Kept nc exact' calm s)
  | .undefined, _ => True
  | _, _ => False

section EmplaceBack

variable {i : Option (Option κ)} {w : Managed α κ} {G buffer old : Forest (Managed α κ)} {fresh : α}
  {k : WINDOW κ} {moved : Option (List (α × Bool))} {M : Multiset (WINDOW κ)}
  {E : Ending → Screen α κ → Prop}

omit [DecidableEq κ] in
theorem Frame.parent_held (hframe : Frame nc F a i w G A C) :
    Closed (⟨i, w.win_, w.win_save_⟩ ::ₘ C) ∧ Held (⟨i, w.win_, w.win_save_⟩ ::ₘ C) (parent w) :=
  ⟨hframe.closed.cons hframe.held, Or.inr ⟨_, Multiset.mem_cons_self _ C, rfl⟩⟩

omit [DecidableEq κ] in
theorem Frame.nc_mem_cons (hframe : Frame nc F a i w G A C) (hF : Seated nc F) : nc ∈ a ::ₘ A := by
  by_cases hne : a = nc
  · simp [hne]
  · simp [hframe.nc_mem hne hF]

omit [DecidableEq κ] in
/-- The vector gets the new element. -/
theorem put_new (hframe : Frame nc F a i w G A C) (hF : Seated nc F) :
    Ensures (Holds nc exact calm F (fresh ::ₘ a ::ₘ A + addresses buffer)
        (⟨parent w, some k, none⟩ ::ₘ ⟨i, w.win_, w.win_save_⟩ ::ₘ C + grips (parent w) buffer))
      (update w.address (.tree w (buffer.append (.tree ⟨fresh, true, some k, none⟩ .nil))))
      (fun _ => Kept nc exact calm) E := by
  rw [hframe.address]
  refine hframe.put_back ?_ ?_ (hframe.seated_same hF _)
  · rw [addresses_tree, addresses_append, addresses_tree, addresses_nil, hframe.address]
    simp only [← Multiset.singleton_add]
    abel
  · rw [grips_tree, grips_append, grips_tree, grips_nil]
    simp only [← Multiset.singleton_add]
    abel

/-- All elements have been moved, and the old ones hold nothing. -/
theorem grown_ensures (hframe : Frame nc F a i w G A C) (hF : Seated nc F)
    {places : List (α × Bool)} :
    Ensures (Relocated nc exact calm F (fresh ::ₘ a ::ₘ A)
        (⟨parent w, some k, none⟩ ::ₘ ⟨i, w.win_, w.win_save_⟩ ::ₘ C) (w.win_.map WINDOW.key)
        places (buffer, old, true))
      (do
        clear old
        update w.address (.tree w (buffer.append (.tree ⟨fresh, true, some k, none⟩ .nil))))
      (fun _ => Kept nc exact calm) E := by
  let C' : Multiset (Grip κ) := ⟨parent w, some k, none⟩ ::ₘ ⟨i, w.win_, w.win_save_⟩ ::ₘ C
  obtain ⟨hclosed, hparent⟩ := hframe.parent_held
  have hparent' : Held C' (parent w) := hparent.mono (Multiset.subset_cons _ _)
  have hclosed' : Closed C' := hclosed.cons hparent
  refine Ensures.knowing (fun s hs => hs.vacated rfl) ?_
  intro hold
  refine Ensures.pre (P := Holds nc exact calm F
    (fresh ::ₘ a ::ₘ A + addresses buffer + addresses old)
    (C' + grips (parent w) buffer + grips (parent w) old)) ?_ ?_
  · intro s hs
    obtain ⟨exact', hexact, hs⟩ := hs.holds
    exact hs.congr (hexact rfl)
  have hnc : nc ∈ fresh ::ₘ a ::ₘ A + addresses buffer :=
    Multiset.mem_add.mpr (Or.inl (Multiset.mem_cons_of_mem (hframe.nc_mem_cons hF)))
  refine (clear_ensures old hnc (hclosed'.add_grips hparent' buffer)
    (hparent'.mono (Multiset.subset_of_le (Multiset.le_add_right _ _)))).bind fun _ => ?_
  rw [hold]
  exact Ensures.pre (fun s hs => hs.congr (by simp [free_zero])) (put_new hframe hF)

/-- One element could not be moved. Those that have been moved are destroyed, and after them the
new one. -/
theorem not_grown_ensures (hframe : Frame nc F a i w G A C) (hF : Seated nc F)
    {places : List (α × Bool)} (hM : ∀ p ∈ M, p.part_of ≠ some k.key)
    (hE : ∀ s, k.key ∉ s.keys → (∃ exact', Kept nc exact' calm s) → E .bad_alloc s) :
    Ensures (fun s => Relocated nc exact calm F (fresh ::ₘ a ::ₘ A)
        (⟨parent w, some k, none⟩ ::ₘ ⟨i, w.win_, w.win_save_⟩ ::ₘ C) (w.win_.map WINDOW.key)
        places (buffer, old, false) s ∧ s.open_ ≤ M)
      (do
        clear buffer
        clear (.tree ⟨fresh, true, some k, none⟩ .nil)
        update w.address (.tree w old)
        throw .bad_alloc)
      (fun (_ : Unit) _ => False) E := by
  let g : Grip κ := ⟨i, w.win_, w.win_save_⟩
  let new : Grip κ := ⟨parent w, some k, none⟩
  obtain ⟨hclosed, hparent⟩ := hframe.parent_held
  have hrest : Closed (g ::ₘ C + grips (parent w) old) := hclosed.add_grips hparent old
  have hheld : Held (g ::ₘ C + grips (parent w) old) (parent w) :=
    hparent.mono (Multiset.subset_of_le (Multiset.le_add_right _ _))
  have hnc : nc ∈ a ::ₘ A + addresses old :=
    Multiset.mem_add.mpr (Or.inl (hframe.nc_mem_cons hF))
  have hA : fresh ::ₘ a ::ₘ A + addresses buffer + addresses old =
      fresh ::ₘ (a ::ₘ A + addresses old) + addresses buffer := by
    rw [add_right_comm, Multiset.cons_add]
  have hC : new ::ₘ g ::ₘ C + grips (parent w) buffer + grips (parent w) old =
      new ::ₘ (g ::ₘ C + grips (parent w) old) + grips (parent w) buffer := by
    rw [add_right_comm, Multiset.cons_add]
  refine Ensures.pre (P := fun s => ∃ exact', Holds nc exact' calm F
    (fresh ::ₘ (a ::ₘ A + addresses old) + addresses buffer)
    (new ::ₘ (g ::ₘ C + grips (parent w) old) + grips (parent w) buffer) s ∧ s.open_ ≤ M) ?_ ?_
  · rintro s ⟨hs, hopen⟩
    obtain ⟨exact', _, hs⟩ := hs.holds
    rw [hA, hC] at hs
    exact ⟨exact', hs, hopen⟩
  apply Ensures.of_exists
  intro exact'
  refine ((clear_ensures buffer (Multiset.mem_cons_of_mem hnc) (hrest.cons hheld)
    (hheld.mono (Multiset.subset_cons _ _))).carry (clear_within buffer)).bind fun _ => ?_
  refine (clear_new hnc hrest hheld hM).bind fun _ => ?_
  refine Ensures.bind (Q := fun _ s => k.key ∉ s.keys ∧ ∃ exact', Kept nc exact' calm s) ?_
    fun _ => ensures_throw fun s hs => hE s hs.1 hs.2
  rintro s ⟨hkey, exact', hs⟩
  rw [hframe.address]
  refine ⟨hkey, exact', hframe.put_back (E := E) ?_ ?_ (hframe.seated_same hF old) s hs⟩
  · rw [addresses_tree, hframe.address, Multiset.add_cons, Multiset.cons_add]
  · rw [grips_tree, Multiset.add_cons, Multiset.cons_add]

theorem emplace_back_ensures (hframe : Frame nc F a i w G A C) (hF : Seated nc F)
    (hnodup : (fresh :: (moved.getD []).map Prod.fst).Nodup)
    (hfresh : ∀ p ∈ fresh :: (moved.getD []).map Prod.fst, p ∉ addresses F)
    (hM : ∀ p ∈ M, p.part_of ≠ some k.key) (memory : Bool) :
    Ensures (fun s => Holds nc exact calm F (addresses F)
        (⟨parent w, some k, none⟩ ::ₘ grips none F) s ∧ s.open_ ≤ M)
      (emplace_back w G ⟨fresh, true, some k, none⟩ moved memory)
      (fun _ s => (memory = true ∧ Grows moved) ∧ Kept nc exact calm s)
      (Unmade nc exact calm F ⟨parent w, some k, none⟩ k moved memory) := by
  obtain ⟨hnew, hmoved⟩ := List.nodup_cons.mp hnodup
  let g : Grip κ := ⟨i, w.win_, w.win_save_⟩
  let new : Grip κ := ⟨parent w, some k, none⟩
  obtain ⟨hclosed, hparent⟩ := hframe.parent_held
  have hA : fresh ::ₘ addresses F = fresh ::ₘ a ::ₘ A + addresses G := by
    rw [hframe.addresses_eq, Multiset.cons_add, Multiset.cons_add, Multiset.cons_add]
  have hC : new ::ₘ grips none F = new ::ₘ g ::ₘ C + grips (parent w) G := by
    rw [hframe.grips_eq, Multiset.cons_add, Multiset.cons_add, Multiset.cons_add]
  unfold emplace_back
  refine ((register_ensures (hfresh fresh List.mem_cons_self) memory
    fun s hs hm => Or.inl ⟨hm, hs⟩).carry (register_within fresh memory)).bind fun _ => ?_
  refine Ensures.knowing (fun s hs => hs.1.2) ?_
  intro hmemory
  rw [hA, hC]
  cases moved with
  | none =>
    refine Ensures.pre (fun s hs => hs.1.1) ((put_new hframe hF).imp (fun _ hs => hs) ?_
      (fun _ _ h => h))
    exact fun _ s hs => ⟨⟨hmemory, by simp [Grows]⟩, hs⟩
  | some places =>
    have hplaces : ∀ p ∈ places.map Prod.fst, p ∉ fresh ::ₘ a ::ₘ A + addresses G := by
      intro p hp
      rw [← hA, Multiset.mem_cons, not_or]
      exact ⟨fun h => hnew (h ▸ hp), hfresh p (List.mem_cons_of_mem fresh hp)⟩
    refine Ensures.pre (fun s hs => ⟨hs.1.1, hs.2⟩) (((relocate_ensures places G
      (Multiset.mem_cons_of_mem (hframe.nc_mem_cons hF)) (hclosed.cons hparent)
      (hparent.mono (Multiset.subset_cons _ _)) hmoved hplaces fun _ => trivial).carry
        (relocate_within places G)).bind ?_)
    rintro ⟨buffer, old, done⟩
    cases done with
    | true =>
      refine Ensures.knowing (fun s hs => hs.1.done.mp rfl) ?_
      intro hgrows
      exact Ensures.pre (fun s hs => hs.1) ((grown_ensures hframe hF).imp (fun _ hs => hs)
        (fun _ s hs => ⟨⟨hmemory, hgrows⟩, hs⟩) (fun _ _ h => h))
    | false =>
      refine Ensures.knowing (fun s hs h => Bool.false_ne_true (hs.1.done.mpr h)) ?_
      intro hgrows
      exact (not_grown_ensures hframe hF hM fun s hkey hs =>
        Or.inr ⟨⟨hmemory, hgrows⟩, hkey, hs⟩).imp (fun _ hs => hs) (fun _ _ h => h.elim)
          (fun _ _ h => h)

end EmplaceBack

/-! ## The calls -/

omit [DecidableEq α] in
theorem delwin_ok (win : Option (WINDOW κ)) (s : Screen α κ) : ∃ t, delwin win s = .ok () t := by
  unfold delwin
  cases win with
  | none => exact ⟨s, rfl⟩
  | some k =>
    dsimp only
    rw [get_bind]
    split_ifs
    · exact ⟨_, rfl⟩
    · exact ⟨_, rfl⟩
    · exact ⟨_, rfl⟩

omit [DecidableEq α] in
/-- curses does not have the window any more. -/
theorem delwin_refused {exact' : Prop} {k : WINDOW κ} (h : Kept nc exact' calm s)
    (hkey : k.key ∉ s.keys) {E : Ending → Screen α κ → Prop} :
    Ensures (Eq s) (delwin (some k)) (fun _ => Kept nc exact False) E := by
  rintro _ rfl
  unfold delwin
  dsimp only
  rw [get_bind, if_pos hkey]
  obtain ⟨hs, hseat⟩ := h
  obtain ⟨lost, hopen, _⟩ := hs.opened
  exact ⟨⟨rfl, hs.registered, hs.apart, by simp, ⟨lost, hopen, False.elim⟩, hs.once, hs.rooted,
    hs.sound⟩, hseat⟩

omit [DecidableEq α] [DecidableEq κ] in
/-- Nothing is a part of a window that has just been made. -/
theorem create_childless {k : WINDOW κ} {i : Option (Option κ)}
    (hi : ∀ u, i = some u → u.isSome = true ∧ k.part_of = u) {E : Ending → Screen α κ → Prop} :
    Ensures (fun s => Holds nc exact calm F A C s ∧ Unused (some k) s) (create (some k))
      (fun _ s => Holds nc exact calm F A (⟨i, some k, none⟩ ::ₘ C) s ∧
        ∀ p ∈ s.open_, p.part_of ≠ some k.key) E := by
  rintro s ⟨hs, hwin⟩
  obtain ⟨hnew, hpart⟩ := hwin k rfl
  refine ⟨create_ensures (E := E) (by simpa using hi) s ⟨hs, hwin⟩, ?_⟩
  intro p hp heq
  rcases Multiset.mem_cons.mp hp with rfl | hp
  · exact hnew (hpart _ heq)
  · exact hnew (hs.rooted p hp _ heq)

/-- curses is told once only to delete the new window, when it is told that at all. -/
def Quiet (moved : Option (List (α × Bool))) (new_subw : Option κ) (memory : Bool) : Prop :=
  new_subw ≠ none → memory = true → Grows moved

omit [DecidableEq α] in
/-- When there is no new element, curses is told to delete its window. -/
theorem handle_ensures {moved : Option (List (α × Bool))} {g : Grip κ} {new : WINDOW κ} {key : κ}
    {memory : Bool} (hF : Seated nc F) (hup : Held (grips none F) g.under)
    (hg : g.handle = some new)
    (hfree : ∀ k, some new = some k → Free (g ::ₘ grips none F) {k}) (e : Ending) :
    Ensures (Unmade nc exact calm F g new moved memory e)
      (do delwin (some new); throw e) (fun (_ : Unit) => Kept nc exact
        (calm ∧ Quiet moved (some key) memory))
      (Ends nc exact (calm ∧ Quiet moved (some key) memory)) := by
  cases e with
  | bad_alloc =>
    refine Ensures.bind (Q := fun _ => Kept nc exact (calm ∧ Quiet moved (some key) memory)) ?_
      fun _ => ensures_throw fun _ hs => hs
    rintro s (⟨hmemory, hs⟩ | ⟨⟨hmemory, hgrows⟩, hkey, exact', hs⟩)
    · refine delete_new hg (closed_grips F) hup hfree (E := Ends nc exact
        (calm ∧ Quiet moved (some key) memory)) (fun s hs => ?_) s hs
      exact (hs.kept rfl rfl hF).calm_congr (by simp [Quiet, hmemory])
    · have hrefused : Ensures (Eq s) (delwin (some new)) (fun _ => Kept nc exact False)
        (Ends nc exact (calm ∧ Quiet moved (some key) memory)) := delwin_refused hs hkey
      refine hrefused.imp (fun _ h => h) (fun _ s hs => ?_) (fun _ _ h => h) s rfl
      exact hs.calm_congr (by simp [Quiet, hmemory, hgrows])
  | undefined =>
    intro s _
    obtain ⟨t, ht⟩ := delwin_ok (some new) s
    rw [bind_ok ht]
    trivial
  | _ => exact fun _ h => h.elim

theorem add_subwindow_ensures {fresh : α} {moved : Option (List (α × Bool))} {new_subw : Option κ}
    (hF : Seated nc F) (hnodup : (fresh :: (moved.getD []).map Prod.fst).Nodup)
    (hfresh : ∀ p ∈ fresh :: (moved.getD []).map Prod.fst, p ∉ addresses F) (a : α)
    (inside memory : Bool) :
    Ensures (fun s => Holds nc exact calm F (addresses F) (grips none F) s ∧
        Unused (new_subw.map (WINDOW.mk · none)) s)
      (add_subwindow a fresh moved new_subw inside memory)
      (fun _ => Kept nc exact (calm ∧ Quiet moved new_subw memory))
      (Ends nc exact (calm ∧ Quiet moved new_subw memory)) := by
  unfold add_subwindow
  refine lookup_bind nc (fun s hs => hs.1.still) (fun _ _ => trivial) ?_
  intro i w G A C hframe
  dsimp only
  split
  · exact fun _ _ => trivial
  rename_i k hk
  let g : Grip κ := ⟨i, w.win_, w.win_save_⟩
  have hg : g ∈ grips none F := by
    rw [hframe.grips_eq]
    simp [g]
  have hgk : g.handle = some k := by simp [g, Grip.handle, hk]
  have hparent : parent w = some (some k.key) := by rw [parent, hk, Option.map_some]
  refine (assert_ensures (fun _ _ => trivial)).bind fun _ => ?_
  refine Ensures.pre (fun s hs => hs.1) ?_
  refine (use_ensures fun s hs => hs.1.is_open hg hgk).bind fun _ => ?_
  cases new_subw with
  | none =>
    refine ensures_throw fun s hs => ?_
    exact (hs.1.kept rfl rfl hF).calm_congr (by simp [Quiet])
  | some key =>
    let new : WINDOW κ := ⟨key, some k.key⟩
    show Ensures _ (do
      create (some new)
      try emplace_back w G ⟨fresh, true, some new, none⟩ moved memory
      catch e => do
        delwin (some new)
        throw e
      return G.trees.length) _ _
    have hunused : ∀ s, Holds nc exact calm F (addresses F) (grips none F) s →
        Unused (some ⟨key, none⟩) s → Unused (some new) s := by
      rintro s hs hwin _ ⟨⟩
      refine ⟨(hwin ⟨key, none⟩ rfl).1, ?_⟩
      rintro _ ⟨⟩
      exact hs.is_open hg hgk
    refine Ensures.pre (P := fun s => Holds nc exact calm F (addresses F) (grips none F) s ∧
      Unused (some new) s) (fun s hs => ⟨hs.1, hunused s hs.1 hs.2⟩) ?_
    refine Ensures.knowing (fun s hs => hs.1.free_new hs.2 (parent w)) ?_
    intro hfree
    refine (create_childless (i := parent w) (by simp [hparent, new])).bind fun _ => ?_
    rintro s ⟨hs, hM⟩
    refine (((emplace_back_ensures hframe hF hnodup hfresh hM memory).imp (fun _ hs => hs) ?_
      (fun _ _ h => h)).tryCatch (handle_ensures hF (Or.inr ⟨g, hg, rfl⟩) rfl hfree)).bind
        (fun _ _ hs => hs) s ⟨hs, le_rfl⟩
    exact fun _ s hs => hs.2.calm_congr (by simp [Quiet, hs.1.2])

omit [DecidableEq κ] in
/-- What is returned is the place of a subwindow, the one that is meant. -/
theorem get_subwindow_ensures (a : α) (index : Nat) {E : Ending → Screen α κ → Prop}
    (hE : ∀ s, E .undefined s ∧ E .assertion s) :
    Ensures (Holds nc exact calm F A C) (get_subwindow a index)
      (fun b s => Holds nc exact calm F A C s ∧
        (∃ x ∈ F.handed parent none, x.1 ≠ none ∧ x.2.address = b) ∧
        ∃ x elem, F.find parent (lies a) none = some x ∧ x.2.2.trees[index]? = some elem ∧
          elem.1.address = b) E := by
  unfold get_subwindow
  refine lookup_bind nc (fun s hs => hs.still) (fun s _ => (hE s).1) ?_
  intro i w G A' C' hframe
  refine (assert_ensures (fun s _ => (hE s).2)).bind fun _ => ?_
  dsimp only
  split
  · exact fun s _ => (hE s).2
  rename_i elem helem
  refine (assert_ensures (fun s _ => (hE s).2)).bind ?_
  rintro _ s ⟨⟨hs, _⟩, _⟩
  obtain ⟨_, others, hothers, _⟩ := Forest.exists_others hframe.found
  refine ⟨hs, ⟨(parent w, elem.1), ?_, by simp [parent], rfl⟩, (i, w, G), elem, hframe.found, helem,
    rfl⟩
  have hmem : (parent w, elem.1) ∈ G.handed parent (parent w) :=
    Forest.handed_of_mem_trees (List.mem_of_getElem? helem)
  simp [hothers, Forest.handed, hmem]

/-- The element that is deleted has nothing that a window outside the vectors is a part of. -/
def SparesElement (a : α) (index : Nat) (F : Forest (Managed α κ)) : Prop :=
  ∀ x ∈ F.find parent (lies a) none, ∀ elem ∈ x.2.2.trees[index]?,
    Spares elem.1.address (grips none F) F

theorem delete_subwindow_ensures (hF : Seated nc F) (a : α) (index : Nat) :
    Ensures (Holds nc exact calm F (addresses F) (grips none F)) (delete_subwindow a index)
      (fun _ => Kept nc (exact ∧ SparesElement a index F) calm)
      (Ends nc (exact ∧ SparesElement a index F) calm) := by
  unfold delete_subwindow
  refine (get_subwindow_ensures a index fun _ => ⟨trivial, trivial⟩).bind fun b => ?_
  refine Ensures.knowing (fun s hs => hs.2) ?_
  rintro ⟨hb, x, elem, hfind, helem, rfl⟩
  refine Ensures.knowing (fun s hs => hs.1.apart) ?_
  intro hapart
  have hne : elem.1.address ≠ nc := hF.ne hapart hb
  refine lookup_bind nc (fun s hs => hs.1.still) (fun _ _ => trivial) ?_
  intro i w G A C hframe
  have hnc : nc ∈ A := hframe.nc_mem hne hF
  rw [hframe.addresses_eq, Multiset.cons_add] at hapart
  have hbA : elem.1.address ∉ A :=
    fun h => (Multiset.nodup_cons.mp hapart).1 (Multiset.mem_add.mpr (Or.inl h))
  have hspares : SparesElement a index F ↔
      Free (⟨i, w.win_, w.win_save_⟩ ::ₘ C) (handles (.tree w G)) := by
    rw [hframe.free, ← hframe.spares]
    constructor
    · exact fun h => h x hfind elem helem
    · rintro h y hy e he
      cases hfind.symm.trans hy
      cases helem.symm.trans he
      exact h
  refine Ensures.pre (fun s hs => hs.1) ?_
  rw [hspares, hframe.addresses_eq, hframe.grips_eq, Multiset.cons_add]
  refine (unregister_ensures (Multiset.mem_add.mpr (Or.inl hnc))).bind fun _ => ?_
  refine (destroy_ensures w G hnc hframe.closed hframe.held).bind ?_
  rintro ⟨w', G'⟩
  refine Ensures.pre (fun s hs => hs.2) ?_
  refine (clear_vacant G' hnc (hframe.closed.cons hframe.held)
    (Or.inr ⟨_, Multiset.mem_cons_self _ C, rfl⟩)).bind fun _ => ?_
  refine (register_ensures hbA true (by simp)).bind fun _ => ?_
  refine Ensures.pre (fun s hs => hs.1) (hframe.put_back ?_ ?_ (hframe.seated hne hF _))
  · rw [addresses_tree, addresses_nil, Multiset.add_cons, add_zero]
  · rw [grips_tree, grips_nil, Multiset.add_cons, add_zero]

end Window

end nccpp
