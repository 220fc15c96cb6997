-- What windows own. Each window that lives is in the registry once, and each curses window that
-- one of them holds is open and held by no other. Whatever else curses has open is lost. What a
-- destructor deletes is deleted, unless a window that is no subwindow of it has a part of that.
import Rmrf.Windows

open runs stateful forest

namespace nccpp

/-- What a window owns: a curses window of its own, or one put aside. -/
def Managed.handle {α κ : Type} (w : Managed α κ) : Option (WINDOW κ) := w.win_.or w.win_save_

namespace Window

/-! ## What a forest of windows holds -/

/-- What a window holds, wherever it lies. -/
structure Grip (κ : Type) where
  under : Option (Option κ)
  win_ : Option (WINDOW κ)
  win_save_ : Option (WINDOW κ)

namespace Grip

variable {κ : Type}

def handle (g : Grip κ) : Option (WINDOW κ) := g.win_.or g.win_save_

/-- In ncurses mode nothing is put aside, and what is in a vector has a part of what its parent
has, if it has anything. -/
structure Sound (off : Bool) (g : Grip κ) : Prop where
  one : g.win_ = none ∨ g.win_save_ = none
  on : off = false → g.win_save_ = none
  part : ∀ u, g.under = some u →
    g.win_save_ = none ∧ ∀ h ∈ g.win_, u.isSome = true ∧ h.part_of = u

end Grip

variable {α κ : Type}

def grip (x : Option (Option κ) × Managed α κ) : Grip κ := ⟨x.1, x.2.win_, x.2.win_save_⟩

def grips (i : Option (Option κ)) (F : Forest (Managed α κ)) : Multiset (Grip κ) :=
  (F.handed parent i).map grip

def addresses (F : Forest (Managed α κ)) : Multiset α := F.labels.map Managed.address

/-- The curses windows that are held. -/
def entries (C : Multiset (Grip κ)) : Multiset (WINDOW κ) := C.filterMap Grip.handle

def handles (F : Forest (Managed α κ)) : Multiset (WINDOW κ) := F.labels.filterMap Managed.handle

theorem entries_grips (i : Option (Option κ)) (F : Forest (Managed α κ)) :
    entries (grips i F) = handles F := by
  rw [handles, ← Forest.map_snd_handed parent i F, entries, grips, Multiset.filterMap_map,
    Multiset.filterMap_map]
  rfl

theorem grips_node (i : Option (Option κ)) (w : Managed α κ) (below next : Forest (Managed α κ)) :
    grips i (.node w below next) =
      ⟨i, w.win_, w.win_save_⟩ ::ₘ (grips (parent w) below + grips i next) := by
  simp only [grips, Forest.handed, Multiset.map_cons, Multiset.map_add, grip]

theorem addresses_node (w : Managed α κ) (below next : Forest (Managed α κ)) :
    addresses (.node w below next) = w.address ::ₘ (addresses below + addresses next) := by
  simp only [addresses, Forest.labels, Multiset.map_cons, Multiset.map_add]

/-- A window that is taken out of what there is, and its subwindows beside it. -/
theorem add_grips_node (C : Multiset (Grip κ)) (i : Option (Option κ)) (w : Managed α κ)
    (below next : Forest (Managed α κ)) :
    C + grips i (.node w below next) =
      ⟨i, w.win_, w.win_save_⟩ ::ₘ (C + grips i next) + grips (parent w) below := by
  rw [grips_node, Multiset.add_cons, Multiset.cons_add, add_assoc, add_comm (grips i next)]

theorem add_addresses_node (A : Multiset α) (w : Managed α κ)
    (below next : Forest (Managed α κ)) :
    A + addresses (.node w below next) =
      w.address ::ₘ (A + addresses next) + addresses below := by
  rw [addresses_node, Multiset.add_cons, Multiset.cons_add, add_assoc, add_comm (addresses next)]

@[simp] theorem grips_nil (i : Option (Option κ)) : grips i (.nil : Forest (Managed α κ)) = 0 := rfl

@[simp] theorem addresses_nil : addresses (.nil : Forest (Managed α κ)) = 0 := rfl

/-- What is handed down in a forest to subwindows is never nothing. -/
theorem fst_ne_none {F : Forest (Managed α κ)} {i : Option (Option κ)} (hi : i ≠ none)
    {x : Option (Option κ) × Managed α κ} (hx : x ∈ F.handed parent i) : x.1 ≠ none := by
  rcases Forest.handed_under i F x hx with h | ⟨y, _, h⟩
  · rwa [h]
  · simp [h, parent]

theorem grips_append (i : Option (Option κ)) (F G : Forest (Managed α κ)) :
    grips i (F.append G) = grips i F + grips i G := by
  rw [grips, Forest.handed_append, Multiset.map_add, grips, grips]

theorem addresses_append (F G : Forest (Managed α κ)) :
    addresses (F.append G) = addresses F + addresses G := by
  rw [addresses, Forest.labels_append, Multiset.map_add, addresses, addresses]

theorem entries_add (C D : Multiset (Grip κ)) : entries (C + D) = entries C + entries D :=
  Multiset.filterMap_add _ C D

@[simp] theorem handles_nil : handles (.nil : Forest (Managed α κ)) = 0 := rfl

theorem handles_node_some {w : Managed α κ} {i : Option (Option κ)} {k : WINDOW κ}
    (h : (⟨i, w.win_, w.win_save_⟩ : Grip κ).handle = some k) (below next : Forest (Managed α κ)) :
    handles (.node w below next) = k ::ₘ (handles below + handles next) := by
  have h : w.handle = some k := h
  rw [handles, Forest.labels, Multiset.filterMap_cons_some _ _ _ h, Multiset.filterMap_add]
  rfl

theorem handles_node_none {w : Managed α κ} {i : Option (Option κ)}
    (h : (⟨i, w.win_, w.win_save_⟩ : Grip κ).handle = none) (below next : Forest (Managed α κ)) :
    handles (.node w below next) = handles below + handles next := by
  have h : w.handle = none := h
  rw [handles, Forest.labels, Multiset.filterMap_cons_none _ _ h, Multiset.filterMap_add]
  rfl

theorem entries_cons_some {g : Grip κ} {k : WINDOW κ} (h : g.handle = some k)
    (C : Multiset (Grip κ)) : entries (g ::ₘ C) = k ::ₘ entries C :=
  Multiset.filterMap_cons_some _ _ _ h

theorem entries_cons_none {g : Grip κ} (h : g.handle = none) (C : Multiset (Grip κ)) :
    entries (g ::ₘ C) = entries C :=
  Multiset.filterMap_cons_none _ _ h

theorem mem_entries {C : Multiset (Grip κ)} {k : WINDOW κ} :
    k ∈ entries C ↔ ∃ g ∈ C, g.handle = some k := Multiset.mem_filterMap _ _

theorem entries_eq_zero_iff {C : Multiset (Grip κ)} :
    entries C = 0 ↔ ∀ g ∈ C, g.handle = none := by
  simp only [Multiset.eq_zero_iff_forall_notMem, mem_entries, not_exists, not_and,
    Option.eq_none_iff_forall_ne_some]
  exact forall_comm.trans (forall_congr' fun _ => forall_comm)

/-- Windows that hold nothing. -/
def Vacant (G : Forest (Managed α κ)) : Prop := ∀ w ∈ G.labels, w.win_ = none ∧ w.win_save_ = none

/-- A window that holds nothing has subwindows that hold nothing, and so on. -/
theorem vacant_of_sound {off : Bool} {G : Forest (Managed α κ)}
    (h : ∀ g ∈ grips (some none) G, g.Sound off) : Vacant G := by
  induction G with
  | nil => exact fun w hw => absurd hw (Multiset.notMem_zero w)
  | node w below next ihb ihn =>
    rw [grips_node] at h
    obtain ⟨hsave, hwin⟩ := (h _ (Multiset.mem_cons_self _ _)).part none rfl
    have hwin : w.win_ = none :=
      Option.eq_none_iff_forall_ne_some.mpr fun k hk => absurd (hwin k hk).1 (by simp)
    rw [parent, hwin] at h
    have hbelow := ihb fun g hg => h g (by simp [hg])
    have hnext := ihn fun g hg => h g (by simp [hg])
    intro x hx
    simp only [Forest.labels, Multiset.mem_cons, Multiset.mem_add] at hx
    rcases hx with rfl | hx | hx
    · exact ⟨hwin, hsave⟩
    · exact hbelow x hx
    · exact hnext x hx

theorem Vacant.grips {G : Forest (Managed α κ)} (h : Vacant G) (i : Option (Option κ)) :
    ∀ g ∈ grips i G, g.win_ = none ∧ g.win_save_ = none := by
  intro g hg
  obtain ⟨x, hx, rfl⟩ := Multiset.mem_map.mp hg
  exact h x.2 (Forest.map_snd_handed parent i G ▸ Multiset.mem_map_of_mem Prod.snd hx)

theorem Vacant.handles {G : Forest (Managed α κ)} (h : Vacant G) : Window.handles G = 0 := by
  rw [← entries_grips none G, entries_eq_zero_iff]
  intro g hg
  obtain ⟨hwin, hsave⟩ := h.grips none g hg
  simp [Grip.handle, hwin, hsave]

/-- The parent is one of these windows, or there is none. -/
def Held (C : Multiset (Grip κ)) (i : Option (Option κ)) : Prop :=
  i = none ∨ ∃ g ∈ C, i = some (g.win_.map WINDOW.key)

def Closed (C : Multiset (Grip κ)) : Prop := ∀ g ∈ C, Held C g.under

theorem Held.mono {C D : Multiset (Grip κ)} {i : Option (Option κ)} (h : Held C i) (hCD : C ⊆ D) :
    Held D i := by
  rcases h with h | ⟨g, hg, h⟩
  · exact Or.inl h
  · exact Or.inr ⟨g, hCD hg, h⟩

theorem Closed.cons {C : Multiset (Grip κ)} {g : Grip κ} (h : Closed C) (hg : Held C g.under) :
    Closed (g ::ₘ C) := by
  have hsub : C ⊆ g ::ₘ C := Multiset.subset_cons C g
  intro x hx
  rcases Multiset.mem_cons.mp hx with rfl | hx
  · exact hg.mono hsub
  · exact (h x hx).mono hsub

/-- Subwindows of one of these windows, and theirs. -/
theorem Closed.add_grips {C : Multiset (Grip κ)} {i : Option (Option κ)} (h : Closed C)
    (hi : Held C i) (F : Forest (Managed α κ)) : Closed (C + grips i F) := by
  intro g hg
  rcases Multiset.mem_add.mp hg with hg | hg
  · exact (h g hg).mono (Multiset.subset_of_le (Multiset.le_add_right C _))
  · obtain ⟨x, hx, rfl⟩ := Multiset.mem_map.mp hg
    rcases Forest.handed_under i F x hx with hup | ⟨y, hy, hup⟩
    · rw [show (grip x).under = i from hup]
      exact hi.mono (Multiset.subset_of_le (Multiset.le_add_right C _))
    · exact Or.inr ⟨grip y, Multiset.mem_add.mpr (Or.inr (Multiset.mem_map_of_mem grip hy)), hup⟩

/-- No window outside the vectors has a part of one of these. -/
def Free (C : Multiset (Grip κ)) (D : Multiset (WINDOW κ)) : Prop :=
  ∀ g ∈ C, g.under = none → ∀ h ∈ g.handle, ∀ k ∈ D, h.part_of ≠ some k.key

section Free

variable {C : Multiset (Grip κ)} {D : Multiset (WINDOW κ)} {g : Grip κ}

theorem free_zero (C : Multiset (Grip κ)) : Free C 0 :=
  fun _ _ _ _ _ k hk => absurd hk (Multiset.notMem_zero k)

theorem free_add (D' : Multiset (WINDOW κ)) : Free C (D + D') ↔ Free C D ∧ Free C D' := by
  simp only [Free, Multiset.mem_add, or_imp, forall_and]

theorem free_cons_key (k : WINDOW κ) : Free C (k ::ₘ D) ↔ Free C {k} ∧ Free C D := by
  rw [← Multiset.singleton_add, free_add]

theorem free_cons (h : g.under ≠ none) : Free (g ::ₘ C) D ↔ Free C D := by
  simp [Free, h]

theorem free_cons_whole (h : ∀ k ∈ g.handle, k.part_of = none) : Free (g ::ₘ C) D ↔ Free C D := by
  refine ⟨fun hfree x hx => hfree x (Multiset.mem_cons_of_mem hx), fun hfree x hx hroot => ?_⟩
  rcases Multiset.mem_cons.mp hx with rfl | hx
  · intro p hp k _
    simp [h p hp]
  · exact hfree x hx hroot

/-- Only the windows outside the vectors count. -/
theorem free_add_grips {i : Option (Option κ)} (hi : i ≠ none) (G : Forest (Managed α κ)) :
    Free (C + grips i G) D ↔ Free C D := by
  constructor
  · exact fun h g hg => h g (Multiset.mem_add.mpr (Or.inl hg))
  · intro h g hg hroot
    rcases Multiset.mem_add.mp hg with hg | hg
    · exact h g hg hroot
    · obtain ⟨x, hx, rfl⟩ := Multiset.mem_map.mp hg
      exact absurd hroot (fst_ne_none hi hx)

end Free

/-! ## What curses has open -/

/-- The windows at `A` are those in the registry, and what they hold is open. When `exact` is
so, and only then, nothing else is. That is said as long as curses has refused nothing, which
is `calm`. -/
structure Holds (nc : α) (exact calm : Prop) (F : Forest (Managed α κ)) (A : Multiset α)
    (C : Multiset (Grip κ)) (s : Screen α κ) : Prop where
  still : s.live = F
  registered : nc ::ₘ (s.windows_ : Multiset α) = A
  apart : A.Nodup
  calm_iff : s.refused = [] ↔ calm
  opened : ∃ lost, s.open_ = entries C + lost ∧ (calm → (lost = 0 ↔ exact))
  once : s.keys.Nodup
  rooted : ∀ p ∈ s.open_, ∀ k ∈ p.part_of, k ∈ s.keys
  sound : ∀ g ∈ C, g.Sound s.is_exit_

section Methods

variable {nc : α} {exact exact' calm : Prop} {F : Forest (Managed α κ)}
  {A : Multiset α} {C C' : Multiset (Grip κ)} {g : Grip κ} {k : WINDOW κ} {s : Screen α κ}
  {E : Ending → Screen α κ → Prop}

/-- The same windows are open when others hold them. -/
theorem Holds.hold (h : Holds nc exact calm F A C s)
    (hopened : ∃ lost, s.open_ = entries C' + lost ∧ (calm → (lost = 0 ↔ exact')))
    (hsound : ∀ g ∈ C', g.Sound s.is_exit_) : Holds nc exact' calm F A C' s :=
  ⟨h.still, h.registered, h.apart, h.calm_iff, hopened, h.once, h.rooted, hsound⟩

theorem Holds.mem_open (h : Holds nc exact calm F A C s) (hg : g ∈ C) (hk : g.handle = some k) :
    k ∈ s.open_ := by
  obtain ⟨lost, hopen, _⟩ := h.opened
  rw [hopen]
  exact Multiset.mem_add.mpr (Or.inl (mem_entries.mpr ⟨g, hg, hk⟩))

theorem Holds.is_open (h : Holds nc exact calm F A C s) (hg : g ∈ C) (hk : g.handle = some k) :
    k.key ∈ s.keys :=
  Multiset.mem_map_of_mem WINDOW.key (h.mem_open hg hk)

theorem Holds.drop (h : Holds nc exact calm F A (g ::ₘ C) s) (hg : g.handle = none) :
    Holds nc exact calm F A C s := by
  refine h.hold ?_ fun x hx => h.sound x (Multiset.mem_cons_of_mem hx)
  rw [← entries_cons_none hg]
  exact h.opened

theorem Holds.drop_beside {D : Multiset (Grip κ)} (h : Holds nc exact calm F A (g ::ₘ C + D) s)
    (hg : g.handle = none) : Holds nc exact calm F A (C + D) s := by
  rw [Multiset.cons_add] at h
  exact h.drop hg

theorem Holds.put (h : Holds nc exact calm F A C s) (i : Option (Option κ)) :
    Holds nc exact calm F A (⟨i, none, none⟩ ::ₘ C) s := by
  refine h.hold ?_ ?_
  · rw [entries_cons_none rfl]
    exact h.opened
  · intro x hx
    rcases Multiset.mem_cons.mp hx with rfl | hx
    · exact ⟨Or.inl rfl, fun _ => rfl, fun _ _ => ⟨rfl, by simp⟩⟩
    · exact h.sound x hx

/-- What is held may be that of a window outside the vectors. -/
theorem Holds.uproot {i : Option (Option κ)} {win save : Option (WINDOW κ)}
    (h : Holds nc exact calm F A (⟨i, win, save⟩ ::ₘ C) s) :
    Holds nc exact calm F A (⟨none, win, save⟩ ::ₘ C) s := by
  have hsame : entries ((⟨none, win, save⟩ : Grip κ) ::ₘ C) = entries (⟨i, win, save⟩ ::ₘ C) := by
    rw [entries, entries, Multiset.filterMap_cons, Multiset.filterMap_cons]
    rfl
  refine h.hold (hsame ▸ h.opened) ?_
  intro g hg
  rcases Multiset.mem_cons.mp hg with rfl | hg
  · have hsound := h.sound ⟨i, win, save⟩ (Multiset.mem_cons_self _ C)
    exact ⟨hsound.one, hsound.on, fun u hu => absurd hu (by simp)⟩
  · exact h.sound g (Multiset.mem_cons_of_mem hg)

/-- What is held is forgotten, and it is lost if there is something. -/
theorem Holds.lose (h : Holds nc exact calm F A (g ::ₘ C) s) :
    Holds nc (exact ∧ g.handle = none) calm F A C s := by
  refine h.hold ?_ fun x hx => h.sound x (Multiset.mem_cons_of_mem hx)
  obtain ⟨lost, hopen, hlost⟩ := h.opened
  cases hk : g.handle with
  | none =>
    rw [entries_cons_none hk] at hopen
    exact ⟨lost, hopen, by simpa using hlost⟩
  | some k =>
    rw [entries_cons_some hk, Multiset.cons_add, ← Multiset.add_cons] at hopen
    exact ⟨_, hopen, by simp⟩

theorem Holds.congr (h : Holds nc exact calm F A C s) (hexact : exact ↔ exact') :
    Holds nc exact' calm F A C s := by
  obtain ⟨lost, hopen, hlost⟩ := h.opened
  exact h.hold ⟨lost, hopen, fun hcalm => (hlost hcalm).trans hexact⟩ h.sound

theorem Holds.vacant {G : Forest (Managed α κ)}
    (h : Holds nc exact calm F A (C + grips (some none) G) s) : Vacant G :=
  vacant_of_sound fun g hg => h.sound g (Multiset.mem_add.mpr (Or.inr hg))

/-- Subwindows that hold nothing may be those of any window. -/
theorem Holds.regrip {G : Forest (Managed α κ)}
    (h : Holds nc exact calm F A (C + grips (some none) G) s) (i : Option (Option κ)) :
    Holds nc exact calm F A (C + grips i G) s := by
  have hG : Vacant G := h.vacant
  refine h.hold ?_ ?_
  · rw [entries_add, entries_grips, ← entries_grips (some none), ← entries_add]
    exact h.opened
  · intro g hg
    rcases Multiset.mem_add.mp hg with hg | hg
    · exact h.sound g (Multiset.mem_add.mpr (Or.inl hg))
    · obtain ⟨hwin, hsave⟩ := hG.grips i g hg
      exact ⟨Or.inl hwin, fun _ => hsave, fun _ _ => ⟨hsave, by simp [hwin]⟩⟩

/-- A window that is held and that is a part of the one that `g` holds is outside the vectors. -/
theorem Holds.root_of_part (h : Holds nc exact calm F A (g ::ₘ C) s) (hk : g.handle = some k)
    (hC : Closed C) (hg : Held C g.under) {x : Grip κ} (hx : x ∈ g ::ₘ C) {p : WINDOW κ}
    (hp : x.handle = some p) (hpart : p.part_of = some k.key) : x.under = none := by
  by_contra hunder
  obtain ⟨u, hu⟩ := Option.ne_none_iff_exists'.mp hunder
  obtain ⟨lost, hopen, _⟩ := h.opened
  -- the key of `g` is that of no other window
  have honce := h.once
  rw [Screen.keys, hopen, entries_cons_some hk, Multiset.cons_add, Multiset.map_cons,
    Multiset.nodup_cons, Multiset.map_add, Multiset.mem_add, not_or] at honce
  obtain ⟨hsave, hwin⟩ := (h.sound x hx).part u hu
  have hp : x.win_ = some p := by simpa [Grip.handle, hsave] using hp
  obtain rfl : some k.key = u := hpart.symm.trans (hwin p hp).2
  -- what it is a part of is what its parent has, and that is another one than `g`
  have hheld : Held C (some (some k.key)) := by
    rw [← hu]
    exact (Multiset.mem_cons.mp hx).elim (fun heq => heq ▸ hg) (hC x)
  rcases hheld with hnone | ⟨y, hy, hkey⟩
  · exact absurd hnone (by simp)
  · obtain ⟨q, hq, hqk⟩ := Option.map_eq_some_iff.mp (Option.some.inj hkey).symm
    have hmem : q ∈ entries C := mem_entries.mpr ⟨y, hy, by simp [Grip.handle, hq]⟩
    exact honce.1.1 (hqk ▸ Multiset.mem_map_of_mem WINDOW.key hmem)

theorem assert_ok {condition : Bool} (h : condition = true) (s : Screen α κ) :
    assert condition s = .ok () s := by
  rw [assert, if_pos h]
  rfl

theorem assert_error {condition : Bool} (h : ¬condition = true) (s : Screen α κ) :
    assert condition s = .error .assertion s := by
  rw [assert, if_neg h]
  rfl

theorem assert_ensures {P : Screen α κ → Prop} {condition : Bool}
    (hE : ∀ s, P s → E .assertion s) :
    Ensures P (assert condition) (fun _ s => P s ∧ condition = true) E := by
  unfold assert
  apply Ensures.ite
  · exact fun hc => (ensures_pure ()).imp (fun _ hs => ⟨hs, hc⟩) (fun _ _ h => h) (fun _ _ h => h)
  · exact fun _ => ensures_throw hE

theorem use_ensures [DecidableEq κ] {P : Screen α κ → Prop} (hP : ∀ s, P s → k.key ∈ s.keys) :
    Ensures P (use k) (fun _ => P) E := by
  unfold use
  apply Ensures.get_bind
  intro s
  apply Ensures.ite
  · exact fun _ => fun _ hs => hs.1
  · rintro hk t ⟨ht, rfl⟩
    exact absurd (hP t ht) hk

/-- curses does not have the window, and if it is a part of one, that is one that curses has. -/
def Unused (win : Option (WINDOW κ)) (s : Screen α κ) : Prop :=
  ∀ k ∈ win, k.key ∉ s.keys ∧ ∀ p ∈ k.part_of, p ∈ s.keys

/-- A window that curses makes is in hand, and held by no window yet. -/
theorem create_ensures {win : Option (WINDOW κ)} {i : Option (Option κ)}
    (hi : ∀ u, i = some u → ∀ k ∈ win, u.isSome = true ∧ k.part_of = u) :
    Ensures (fun s => Holds nc exact calm F A C s ∧ Unused win s) (create win)
      (fun _ => Holds nc exact calm F A (⟨i, win, none⟩ ::ₘ C)) E := by
  rintro s ⟨hs, hwin⟩
  have hsound : ∀ g ∈ (⟨i, win, none⟩ : Grip κ) ::ₘ C, g.Sound s.is_exit_ := by
    intro g hg
    rcases Multiset.mem_cons.mp hg with rfl | hg
    · exact ⟨Or.inr rfl, fun _ => rfl, fun u hu => ⟨rfl, hi u hu⟩⟩
    · exact hs.sound g hg
  cases win with
  | none =>
    refine hs.hold ?_ hsound
    rw [entries_cons_none rfl]
    exact hs.opened
  | some k =>
    obtain ⟨hnew, hpart⟩ := hwin k rfl
    obtain ⟨lost, hopen, hlost⟩ := hs.opened
    refine ⟨hs.still, hs.registered, hs.apart, hs.calm_iff, ⟨lost, ?_, hlost⟩, ?_, ?_, hsound⟩
    · rw [entries_cons_some (g := ⟨i, some k, none⟩) (k := k) rfl, Multiset.cons_add, ← hopen]
    · simp only [Screen.keys, Multiset.map_cons, Multiset.nodup_cons]
      exact ⟨hnew, hs.once⟩
    · intro p hp j hj
      rw [Screen.keys, Multiset.map_cons, Multiset.mem_cons]
      rcases Multiset.mem_cons.mp hp with rfl | hp
      · exact Or.inr (hpart j hj)
      · exact Or.inr (hs.rooted p hp j hj)

/-- Nothing is a part of what curses has not made yet. -/
theorem Holds.free_new {win : Option (WINDOW κ)} (h : Holds nc exact calm F A C s)
    (hwin : Unused win s) (i : Option (Option κ)) :
    ∀ k, win = some k → Free (⟨i, win, none⟩ ::ₘ C) {k} := by
  intro k hk
  obtain ⟨hnew, hpart⟩ := hwin k hk
  intro g hg _ p hp k' hk' heq
  rw [Multiset.mem_singleton.mp hk'] at heq
  refine hnew ?_
  rcases Multiset.mem_cons.mp hg with rfl | hg
  · obtain rfl : k = p := by simpa [Grip.handle, hk] using hp
    exact hpart _ heq
  · exact h.rooted p (h.mem_open hg hp) _ heq

/-- A window that is held is deleted, unless one outside the vectors, or one that was lost, is a
part of it. -/
theorem delwin_ensures [DecidableEq κ] (hk : g.handle = some k) (hC : Closed C)
    (hg : Held C g.under) :
    Ensures (Holds nc exact calm F A (g ::ₘ C)) (delwin (some k))
      (fun _ => Holds nc (exact ∧ Free (g ::ₘ C) {k}) calm F A C) E := by
  intro s hs
  have hsound : ∀ x ∈ C, x.Sound s.is_exit_ := fun x hx => hs.sound x (Multiset.mem_cons_of_mem hx)
  obtain ⟨lost, hopen, hlost⟩ := hs.opened
  unfold delwin
  dsimp only
  rw [get_bind, if_neg (not_not.mpr (hs.is_open (Multiset.mem_cons_self g C) hk))]
  split_ifs with hpart
  · -- the window stays
    refine hs.hold ⟨k ::ₘ lost, ?_, fun hcalm => ?_⟩ hsound
    · rw [hopen, entries_cons_some hk, Multiset.cons_add, Multiset.add_cons]
    · refine iff_of_false Multiset.cons_ne_zero ?_
      rintro ⟨hexact, hfree⟩
      obtain ⟨p, hp, hpart⟩ := Multiset.mem_map.mp hpart
      rw [hopen, (hlost hcalm).mpr hexact, add_zero] at hp
      obtain ⟨x, hx, hxp⟩ := mem_entries.mp hp
      have hroot := hs.root_of_part hk hC hg hx hxp hpart
      exact hfree x hx hroot p hxp k (Multiset.mem_singleton_self k) hpart
  · have hfree : Free (g ::ₘ C) {k} := by
      intro x hx _ p hp k' hk' heq
      rw [Multiset.mem_singleton.mp hk'] at heq
      exact hpart (Multiset.mem_map.mpr ⟨p, hs.mem_open hx hp, heq⟩)
    have honce := hs.once
    rw [Screen.keys, hopen, entries_cons_some hk, Multiset.cons_add, Multiset.map_cons] at honce
    have hfilter : s.open_.filter (fun p => p.key ≠ k.key) = entries C + lost := by
      rw [hopen, entries_cons_some hk, Multiset.cons_add, Multiset.filter_cons_of_neg _ (by simp),
        Multiset.filter_eq_self]
      intro p hp heq
      exact (Multiset.nodup_cons.mp honce).1 (heq ▸ Multiset.mem_map_of_mem WINDOW.key hp)
    refine ⟨hs.still, hs.registered, hs.apart, hs.calm_iff, ⟨lost, hfilter, ?_⟩, ?_, ?_, hsound⟩
    · simpa [hfree] using hlost
    · exact Multiset.nodup_of_le (Multiset.map_le_map (Multiset.filter_le _ _)) hs.once
    · intro p hp j hj
      have hp := (Multiset.mem_filter.mp hp).1
      obtain ⟨q, hq, rfl⟩ := Multiset.mem_map.mp (hs.rooted p hp j hj)
      have hne : q.key ≠ k.key := by
        intro heq
        rw [heq] at hj
        exact hpart (Multiset.mem_map.mpr ⟨p, hp, hj⟩)
      exact Multiset.mem_map_of_mem WINDOW.key (Multiset.mem_filter.mpr ⟨hq, hne⟩)

theorem register_ensures {a : α} (ha : a ∉ A) (memory : Bool)
    (hE : ∀ s, Holds nc exact calm F A C s → memory = false → E .bad_alloc s) :
    Ensures (Holds nc exact calm F A C) (register_window_ a memory)
      (fun _ s => Holds nc exact calm F (a ::ₘ A) C s ∧ memory = true) E := by
  unfold register_window_
  apply Ensures.ite
  · rintro hmemory s hs
    refine ⟨⟨hs.still, ?_, Multiset.nodup_cons.mpr ⟨ha, hs.apart⟩, hs.calm_iff, hs.opened, hs.once,
      hs.rooted, hs.sound⟩, hmemory⟩
    rw [← hs.registered, ← Multiset.coe_add, Multiset.coe_singleton, Multiset.add_comm,
      Multiset.singleton_add, Multiset.cons_swap]
  · exact fun hmemory => ensures_throw fun s hs => hE s hs (by simpa using hmemory)

theorem unregister_ensures [DecidableEq α] {a : α} (hnc : nc ∈ A) :
    Ensures (Holds nc exact calm F (a ::ₘ A) C) (unregister_window_ a)
      (fun _ => Holds nc exact calm F A C) E := by
  intro s hs
  obtain ⟨hnot, hapart⟩ := Multiset.nodup_cons.mp hs.apart
  have hne : nc ≠ a := fun h => hnot (h ▸ hnc)
  have hmem : a ∈ nc ::ₘ (s.windows_ : Multiset α) := hs.registered ▸ Multiset.mem_cons_self a A
  have hmem : a ∈ s.windows_ := (Multiset.mem_cons.mp hmem).resolve_left hne.symm
  unfold unregister_window_
  rw [get_bind, if_pos hmem]
  refine ⟨hs.still, ?_, hapart, hs.calm_iff, hs.opened, hs.once, hs.rooted, hs.sound⟩
  show nc ::ₘ ((s.windows_.erase a : List α) : Multiset α) = A
  rw [← Multiset.coe_erase, ← Multiset.erase_cons_tail _ hne, hs.registered,
    Multiset.erase_cons_head]

/-- Nothing is lost when a vector is destroyed, unless a window outside the vectors has a part of
what it had. -/
theorem clear_ensures [DecidableEq α] [DecidableEq κ] (G : Forest (Managed α κ))
    {u : Option κ} (hnc : nc ∈ A) (hC : Closed C) (hu : Held C (some u)) :
    Ensures (Holds nc exact calm F (A + addresses G) (C + grips (some u) G)) (clear G)
      (fun _ => Holds nc (exact ∧ Free C (handles G)) calm F A C) E := by
  induction G generalizing exact A C u with
  | nil =>
    rw [addresses_nil, grips_nil, add_zero, add_zero]
    exact fun _ hs => hs.congr (by simp [handles_nil, free_zero])
  | node w below next ihb ihn =>
    let g : Grip κ := ⟨some u, w.win_, w.win_save_⟩
    have hnext : Closed (C + grips (some u) next) := hC.add_grips hu next
    have hunext : Held (C + grips (some u) next) (some u) :=
      hu.mono (Multiset.subset_of_le (Multiset.le_add_right C _))
    have hfree : ∀ D, Free (g ::ₘ (C + grips (some u) next)) D ↔ Free C D := by
      intro D
      rw [free_cons (by simp [g]), free_add_grips (by simp)]
    -- the subwindows of `w` go first, and then nothing in a vector is a part of what it holds
    have hbelow : Ensures (Holds nc exact calm F (A + addresses next + addresses below)
          (g ::ₘ (C + grips (some u) next) + grips (parent w) below))
        (clear below)
        (fun _ => Holds nc (exact ∧ Free (g ::ₘ (C + grips (some u) next)) (handles below)) calm F
          (A + addresses next) (g ::ₘ (C + grips (some u) next))) E :=
      ihb (by simp [hnc]) (hnext.cons hunext) (Or.inr ⟨g, Multiset.mem_cons_self g _, rfl⟩)
    have hdeleted : ∀ {k : WINDOW κ}, g.handle = some k →
        Ensures (Holds nc (exact ∧ Free (g ::ₘ (C + grips (some u) next)) (handles below)) calm F
            (A + addresses next) (g ::ₘ (C + grips (some u) next)))
          (do delwin (some k); clear next)
          (fun _ => Holds nc (exact ∧ Free C (handles (.node w below next))) calm F A C) E := by
      intro k hk
      refine (delwin_ensures hk hnext hunext).bind fun _ => ?_
      refine (ihn hnc hC hu).imp (fun _ hs => hs) (fun _ _ hs => hs.congr ?_) (fun _ _ h => h)
      rw [handles_node_some hk, free_cons_key, free_add, hfree, hfree]
      tauto
    rw [add_addresses_node, Multiset.cons_add, add_grips_node]
    unfold clear
    refine (unregister_ensures (by simp [hnc])).bind fun _ => ?_
    split
    · rename_i k hk
      exact hbelow.bind fun _ => hdeleted (by simp [g, Grip.handle, hk])
    · rename_i k hnone hk
      exact hbelow.bind fun _ => hdeleted (by simp [g, Grip.handle, hk, hnone])
    · rename_i hnone hnone'
      have hg : g.handle = none := by simp [g, Grip.handle, hnone, hnone']
      refine hbelow.bind fun _ => Ensures.pre (fun s hs => hs.drop hg) ?_
      refine (ihn hnc hC hu).imp (fun _ hs => hs) (fun _ _ hs => hs.congr ?_) (fun _ _ h => h)
      rw [handles_node_none hg, free_add, hfree]
      tauto

/-- Elements that hold nothing go without a trace. -/
theorem clear_vacant [DecidableEq α] [DecidableEq κ] (G : Forest (Managed α κ)) (hnc : nc ∈ A)
    (hC : Closed C) (hnone : Held C (some none)) :
    Ensures (Holds nc exact calm F (A + addresses G) (C + grips (some none) G)) (clear G)
      (fun _ => Holds nc exact calm F A C) E := by
  apply Ensures.knowing (fun s hs => hs.vacant)
  intro hG
  refine (clear_ensures G hnc hC hnone).imp (fun _ hs => hs) (fun _ s hs => hs.congr ?_)
    (fun _ _ h => h)
  simp [hG.handles, free_zero]

/-- What is left is a window that holds nothing, and the subwindows of one that held nothing. -/
theorem destroy_ensures [DecidableEq α] [DecidableEq κ] (w : Managed α κ)
    (G : Forest (Managed α κ)) {i : Option (Option κ)} (hnc : nc ∈ A) (hC : Closed C)
    (hi : Held C i) :
    Ensures (Holds nc exact calm F (A + addresses G)
        (⟨i, w.win_, w.win_save_⟩ ::ₘ C + grips (parent w) G)) (destroy w G)
      (fun r s => r.1 = release w ∧
        Holds nc (exact ∧ Free (⟨i, w.win_, w.win_save_⟩ ::ₘ C) (handles (.tree w G))) calm F
          (A + addresses r.2) (⟨i, none, none⟩ ::ₘ C + grips (some none) r.2) s)
      E := by
  let g : Grip κ := ⟨i, w.win_, w.win_save_⟩
  apply Ensures.knowing (fun s hs => (hs.sound g (by simp [g])).one)
  intro hone
  have hgone : ∀ {k : WINDOW κ} {w' : Managed α κ}, g.handle = some k → w' = release w →
      Ensures (Holds nc exact calm F (A + addresses G) (g ::ₘ C + grips (parent w) G))
        (do clear G; delwin (some k); return (w', .nil))
        (fun r s => r.1 = release w ∧
          Holds nc (exact ∧ Free (g ::ₘ C) (handles (.tree w G))) calm F
            (A + addresses r.2) (⟨i, none, none⟩ ::ₘ C + grips (some none) r.2) s) E := by
    rintro k _ hk rfl
    refine (clear_ensures G hnc (hC.cons hi) (Or.inr ⟨g, Multiset.mem_cons_self g C, rfl⟩)).bind ?_
    intro _
    refine (delwin_ensures hk hC hi).bind fun _ => ?_
    refine (ensures_pure _).imp (fun s hs => ⟨rfl, ?_⟩) (fun _ _ h => h) (fun _ _ h => h)
    rw [addresses_nil, grips_nil, add_zero, add_zero]
    refine (hs.congr ?_).put i
    rw [handles_node_some hk, handles_nil, add_zero, free_cons_key]
    tauto
  unfold destroy
  split
  · rename_i k hk
    have hsave : w.win_save_ = none := hone.resolve_left (by simp [g, hk])
    exact hgone (by simp [g, Grip.handle, hk]) (by simp [release, hsave])
  · rename_i k hnone hk
    exact hgone (by simp [g, Grip.handle, hk, hnone]) (by simp [release, hnone])
  · rename_i hnone hnone'
    have hg : g.handle = none := by simp [g, Grip.handle, hnone, hnone']
    refine (ensures_pure (w, G)).imp ?_ (fun _ _ h => h) (fun _ _ h => h)
    intro s hs
    simp only [parent, hnone, hnone'] at hs
    have hG : Vacant G := hs.vacant
    refine ⟨?_, ?_⟩
    · obtain ⟨address, is_subwindow, win_, win_save_⟩ := w
      cases hnone
      cases hnone'
      rfl
    · refine hs.congr ?_
      rw [handles_node_none hg, hG.handles, handles_nil, add_zero]
      simp [free_zero]

end Methods

end Window

end nccpp
