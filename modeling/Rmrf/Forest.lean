-- Forests whose nodes are labelled, and what a forest holds: each label, with what its parent
-- hands down. A tree that is cut off or put in changes that by what the tree itself holds, and
-- a pass that works on the trees below some nodes reaches a node once for each on its way.
import Mathlib

namespace forest

/-- The first tree of a forest, as its label and the forest below, and the trees after it. -/
inductive Forest (β : Type*)
  | nil
  | node (label : β) (below next : Forest β)
deriving DecidableEq, Repr

namespace Forest

variable {β ι α : Type*}

/-- A forest of one tree. -/
abbrev tree (b : β) (below : Forest β) : Forest β := .node b below .nil

def append : Forest β → Forest β → Forest β
  | .nil, rest => rest
  | .node b below next, rest => .node b below (next.append rest)

def map (g : β → β) : Forest β → Forest β
  | .nil => .nil
  | .node b below next => .node (g b) (below.map g) (next.map g)

def labels : Forest β → Multiset β
  | .nil => 0
  | .node b below next => b ::ₘ (below.labels + next.labels)

/-- Each label, with what its parent hands down to it. -/
def handed (down : β → ι) (i : ι) : Forest β → Multiset (ι × β)
  | .nil => 0
  | .node b below next => (i, b) ::ₘ (below.handed down (down b) + next.handed down i)

/-- The trees, each with the forest below its first node. -/
def trees : Forest β → List (β × Forest β)
  | .nil => []
  | .node b below next => (b, below) :: next.trees

def any (p : β → Bool) : Forest β → Bool
  | .nil => false
  | .node b below next => p b || below.any p || next.any p

/-- The first node that is wanted: what is handed down to it, its label, and what is below. -/
def find (down : β → ι) (p : β → Bool) (i : ι) : Forest β → Option (ι × β × Forest β)
  | .nil => none
  | .node b below next =>
    if p b then some (i, b, below)
    else if below.any p then below.find down p (down b)
    else next.find down p i

/-- A forest in the place of the first node that is wanted and of all below it. -/
def graft (p : β → Bool) : Forest β → Forest β → Forest β
  | .nil, _ => .nil
  | .node b below next, t =>
    if p b then t.append next
    else if below.any p then .node b (below.graft p t) next
    else .node b below (next.graft p t)

/-! ## What a forest holds -/

variable {down : β → ι} {p : β → Bool}

theorem labels_append (F G : Forest β) : (F.append G).labels = F.labels + G.labels := by
  induction F with
  | nil => exact (zero_add _).symm
  | node b below next _ ih => simp only [append, labels, ih, Multiset.cons_add, add_assoc]

theorem handed_append (i : ι) (F G : Forest β) :
    (F.append G).handed down i = F.handed down i + G.handed down i := by
  induction F with
  | nil => exact (zero_add _).symm
  | node b below next _ ih => simp only [append, handed, ih, Multiset.cons_add, add_assoc]

theorem map_snd_handed (down : β → ι) (i : ι) (F : Forest β) :
    (F.handed down i).map Prod.snd = F.labels := by
  induction F generalizing i with
  | nil => rfl
  | node b below next ihb ihn =>
    simp only [handed, labels, Multiset.map_cons, Multiset.map_add, ihb, ihn]

theorem labels_map (g : β → β) (F : Forest β) : (F.map g).labels = F.labels.map g := by
  induction F with
  | nil => rfl
  | node b below next ihb ihn =>
    simp only [map, labels, Multiset.map_cons, Multiset.map_add, ihb, ihn]

theorem any_iff {p : β → Bool} (F : Forest β) : F.any p = true ↔ ∃ b ∈ F.labels, p b = true := by
  induction F with
  | nil => simp [any, labels]
  | node b below next ihb ihn =>
    simp only [any, labels, Bool.or_eq_true, ihb, ihn, Multiset.mem_cons, Multiset.mem_add,
      or_and_right, exists_or, exists_eq_left, or_assoc]

theorem handed_of_mem_trees {i : ι} {F : Forest β} {t : β × Forest β} (h : t ∈ F.trees) :
    (i, t.1) ∈ F.handed down i := by
  induction F with
  | nil => exact absurd h List.not_mem_nil
  | node b below next _ ihn =>
    rcases List.mem_cons.mp h with rfl | h
    · exact Multiset.mem_cons_self _ _
    · simp [handed, ihn h]

/-- In `M` there is a node that hands this down, or it comes from above. -/
def Under (down : β → ι) (i : ι) (M : Multiset (ι × β)) (j : ι) : Prop :=
  j = i ∨ ∃ x ∈ M, j = down x.2

theorem Under.mono {i j : ι} {M N : Multiset (ι × β)} (h : Under down i M j) (hMN : M ⊆ N) :
    Under down i N j := by
  rcases h with h | ⟨x, hx, h⟩
  · exact Or.inl h
  · exact Or.inr ⟨x, hMN hx, h⟩

/-- What is handed down to a node comes from above or from a node of the forest. -/
theorem handed_under (i : ι) (F : Forest β) :
    ∀ x ∈ F.handed down i, Under down i (F.handed down i) x.1 := by
  induction F generalizing i with
  | nil => exact fun x hx => absurd hx (Multiset.notMem_zero x)
  | node b below next ihb ihn =>
    intro x hx
    simp only [handed, Multiset.mem_cons, Multiset.mem_add] at hx
    rcases hx with rfl | hx | hx
    · exact Or.inl rfl
    · rcases ihb (down b) x hx with h | ⟨y, hy, h⟩
      · exact Or.inr ⟨(i, b), by simp [handed], h⟩
      · exact Or.inr ⟨y, by simp [handed, hy], h⟩
    · rcases ihn i x hx with h | ⟨y, hy, h⟩
      · exact Or.inl h
      · exact Or.inr ⟨y, by simp [handed, hy], h⟩

/-- A node that is found may be exchanged, with all below it, and the others stay. What the
others are handed down comes from above or from one of themselves. -/
theorem exists_others {i j : ι} {b : β} {below F : Forest β}
    (h : F.find down p i = some (j, b, below)) : p b = true ∧ ∃ others,
      F.handed down i = others + (tree b below).handed down j ∧
      (∀ t, (F.graft p t).handed down i = others + t.handed down j) ∧
      Under down i others j ∧ ∀ x ∈ others, Under down i others x.1 := by
  induction F generalizing i with
  | nil => exact absurd h (by simp [find])
  | node c first next ihb ihn =>
    simp only [find] at h
    split_ifs at h with hc hfirst
    · simp only [Option.some.injEq, Prod.mk.injEq] at h
      obtain ⟨rfl, rfl, rfl⟩ := h
      refine ⟨hc, next.handed down i, ?_, ?_, Or.inl rfl, handed_under i next⟩
      · simp [handed, add_comm]
      · intro t
        simp only [graft, if_pos hc, handed_append, add_comm]
    · obtain ⟨hb, others, hF, hgraft, hj, hothers⟩ := ihb h
      -- what came from above now comes from `c`
      have hup : ∀ {k : ι}, Under down (down c) others k →
          Under down i ((i, c) ::ₘ (others + next.handed down i)) k := by
        rintro k (hk | ⟨y, hy, hk⟩)
        · exact Or.inr ⟨(i, c), by simp, hk⟩
        · exact Or.inr ⟨y, by simp [hy], hk⟩
      refine ⟨hb, (i, c) ::ₘ (others + next.handed down i), ?_, ?_, hup hj, ?_⟩
      · rw [handed, hF, Multiset.cons_add, add_right_comm]
      · intro t
        rw [graft, if_neg hc, if_pos hfirst, handed, hgraft, Multiset.cons_add, add_right_comm]
      · intro x hx
        simp only [Multiset.mem_cons, Multiset.mem_add] at hx
        rcases hx with rfl | hx | hx
        · exact Or.inl rfl
        · exact hup (hothers x hx)
        · exact (handed_under i next x hx).mono fun y hy => by simp [hy]
    · obtain ⟨hb, others, hF, hgraft, hj, hothers⟩ := ihn h
      have hsub : others ⊆ (i, c) ::ₘ (first.handed down (down c) + others) :=
        fun y hy => by simp [hy]
      refine ⟨hb, (i, c) ::ₘ (first.handed down (down c) + others), ?_, ?_, hj.mono hsub, ?_⟩
      · rw [handed, hF, Multiset.cons_add, add_assoc]
      · intro t
        rw [graft, if_neg hc, if_neg hfirst, handed, hgraft, Multiset.cons_add, add_assoc]
      · intro x hx
        simp only [Multiset.mem_cons, Multiset.mem_add] at hx
        rcases hx with rfl | hx | hx
        · exact Or.inl rfl
        · rcases handed_under (down c) first x hx with hk | ⟨y, hy, hk⟩
          · exact Or.inr ⟨(i, c), by simp, hk⟩
          · exact Or.inr ⟨y, by simp [hy], hk⟩
        · exact (hothers x hx).mono hsub

/-! ## What is found afterwards -/

theorem any_of_find {i : ι} {F : Forest β} {x : ι × β × Forest β}
    (h : F.find down p i = some x) : F.any p = true := by
  induction F generalizing i with
  | nil => exact absurd h (by simp [find])
  | node b below next _ ihn =>
    simp only [find] at h
    split_ifs at h with hb hbelow
    · simp [any, hb]
    · simp [any, hbelow]
    · simp [any, ihn h]

/-- The node that has been put in place is found there. -/
theorem find_graft_self {i j : ι} {b c : β} {below G F : Forest β}
    (h : F.find down p i = some (j, b, below)) (hc : p c = true) :
    (F.graft p (tree c G)).find down p i = some (j, c, G) := by
  induction F generalizing i with
  | nil => exact absurd h (by simp [find])
  | node d first next ihb ihn =>
    simp only [find] at h
    split_ifs at h with hd hfirst
    · cases h
      simp [graft, hd, append, find, hc]
    · have hfind := ihb h
      rw [graft, if_neg hd, if_pos hfirst, find, if_neg hd, if_pos (any_of_find hfind), hfind]
    · rw [graft, if_neg hd, if_neg hfirst, find, if_neg hd, if_neg hfirst, ihn h]

theorem any_append {q : β → Bool} {t : Forest β} (ht : t.any q = false) (F : Forest β) :
    (t.append F).any q = F.any q := by
  induction t with
  | nil => rfl
  | node b below next _ ihn =>
    simp only [any, Bool.or_eq_false_iff] at ht
    simp [append, any, ht.1.1, ht.1.2, ihn ht.2]

theorem find_append {q : β → Bool} {t : Forest β} (ht : t.any q = false) (i : ι) (F : Forest β) :
    (t.append F).find down q i = F.find down q i := by
  induction t with
  | nil => rfl
  | node b below next _ ihn =>
    simp only [any, Bool.or_eq_false_iff] at ht
    simp [append, find, ht.1.1, ht.1.2, ihn ht.2]

theorem find_append_of_any {F : Forest β} (h : F.any p = true) (i : ι) (G : Forest β) :
    (F.append G).find down p i = F.find down p i := by
  induction F with
  | nil => exact absurd h Bool.false_ne_true
  | node b below next _ ihn =>
    simp only [append, find]
    split_ifs with hb hbelow
    · rfl
    · rfl
    · exact ihn (by simpa [any, hb, hbelow] using h)

theorem any_graft_other {q : β → Bool} {i j : ι} {b : β} {below t F : Forest β}
    (h : F.find down p i = some (j, b, below)) (hb : q b = false) (hbelow : below.any q = false)
    (ht : t.any q = false) : (F.graft p t).any q = F.any q := by
  induction F generalizing i with
  | nil => rfl
  | node c first next ihb ihn =>
    simp only [find] at h
    split_ifs at h with hc hfirst
    · cases h
      simp [graft, hc, any, hb, hbelow, any_append ht]
    · simp [graft, hc, hfirst, any, ihb h]
    · simp [graft, hc, hfirst, any, ihn h]

/-- Of two nodes that lie apart, the one is found when the other has given way. -/
theorem find_graft_other {q : β → Bool} {i j k : ι} {b c : β} {below G t F : Forest β}
    (h : F.find down p i = some (j, b, below)) (hq : F.find down q i = some (k, c, G))
    (hb : q b = false) (hbelow : below.any q = false) (ht : t.any q = false)
    (hG : G.any p = false) : (F.graft p t).find down q i = some (k, c, G) := by
  induction F generalizing i with
  | nil => exact absurd h (by simp [find])
  | node d first next ihb ihn =>
    simp only [find] at h hq
    split_ifs at h with hd hfirst
    · cases h
      simp only [hb, hbelow, Bool.false_eq_true, if_false] at hq
      rw [graft, if_pos hd, find_append ht, hq]
    · rw [graft, if_neg hd, if_pos hfirst, find, any_graft_other h hb hbelow ht]
      split_ifs at hq ⊢
      · cases hq
        exact absurd hfirst (by simp [hG])
      · exact ihb h hq
      · exact hq
    · rw [graft, if_neg hd, if_neg hfirst, find]
      split_ifs at hq ⊢
      · exact hq
      · exact hq
      · exact ihn h hq

/-! ## A pass over the nodes -/

/-- `g` for each node as often as there are nodes on the way to it, itself among them. -/
def nest (g : β → β) : Forest β → Forest β
  | .nil => .nil
  | .node b below next => .node (g b) ((below.nest g).map g) (next.nest g)

/-- `g` for the first nodes of each tree, and `z` for all below. -/
def layer (g z : β → β) : Forest β → Forest β
  | .nil => .nil
  | .node b below next => .node (g b) (below.map z) (next.layer g z)

variable {key : β → α} {g z : β → β}

theorem layer_keys (hg : ∀ b, key (g b) = key b) (hz : ∀ b, key (z b) = key b) (F : Forest β) :
    (F.layer g z).labels.map key = F.labels.map key := by
  induction F with
  | nil => rfl
  | node b below next _ ihn =>
    simp only [layer, labels, labels_map, Multiset.map_cons, Multiset.map_add, Multiset.map_map,
      Function.comp_def, hg, hz, ihn]

theorem layer_layer (g' z' : β → β) (F : Forest β) :
    (F.layer g z).layer g' z' = F.layer (g' ∘ g) (z' ∘ z) := by
  have hmap : ∀ G : Forest β, (G.map z).map z' = G.map (z' ∘ z) := by
    intro G
    induction G with
    | nil => rfl
    | node b below next ihb ihn => simp only [map, ihb, ihn, Function.comp_apply]
  induction F with
  | nil => rfl
  | node b below next _ ihn => simp only [layer, ihn, hmap, Function.comp_apply]

theorem layer_congr {g' : β → β} {F : Forest β} (h : ∀ t ∈ F.trees, g t.1 = g' t.1) :
    F.layer g z = F.layer g' z := by
  induction F with
  | nil => rfl
  | node b below next _ ihn =>
    rw [layer, layer, h (b, below) List.mem_cons_self,
      ihn fun t ht => h t (List.mem_cons_of_mem _ ht)]

variable [DecidableEq α]

/-- `g` for the node with this key and for each node below it. -/
def touch (key : β → α) (g : β → β) : Forest β → α → Forest β
  | .nil, _ => .nil
  | .node b below next, a =>
    if key b = a then .node (g b) (below.map g) next
    else .node b (below.touch key g a) (next.touch key g a)

theorem touch_keys (hkey : ∀ b, key (g b) = key b) (a : α) (F : Forest β) :
    (F.touch key g a).labels.map key = F.labels.map key := by
  have hmap : ∀ G : Forest β, (G.map g).labels.map key = G.labels.map key := by
    intro G
    simp only [labels_map, Multiset.map_map, Function.comp_def, hkey]
  induction F with
  | nil => rfl
  | node b below next ihb ihn =>
    simp only [touch]
    split_ifs with h <;>
      simp only [labels, Multiset.map_cons, Multiset.map_add, hkey, hmap, ihb, ihn]

theorem map_touch (hkey : ∀ b, key (g b) = key b) (a : α) (F : Forest β) :
    (F.map g).touch key g a = (F.touch key g a).map g := by
  induction F with
  | nil => rfl
  | node b below next ihb ihn =>
    simp only [map, touch, hkey]
    split_ifs with h
    · rfl
    · rw [map, ihb, ihn]

theorem foldl_touch_map (hkey : ∀ b, key (g b) = key b) (as : List α) (F : Forest β) :
    as.foldl (touch key g) (F.map g) =
      (as.foldl (touch key g) F).map g := by
  induction as generalizing F with
  | nil => rfl
  | cons a rest ih => rw [List.foldl_cons, map_touch hkey, ih, List.foldl_cons]

theorem foldl_touch_node {as : List α} {b : β} (h : key b ∉ as) (below next : Forest β) :
    as.foldl (touch key g) (.node b below next) =
      .node b (as.foldl (touch key g) below)
        (as.foldl (touch key g) next) := by
  induction as generalizing below next with
  | nil => rfl
  | cons a rest ih =>
    obtain ⟨ha, hrest⟩ := not_or.mp (List.mem_cons.not.mp h)
    rw [List.foldl_cons, touch, if_neg ha, ih hrest, List.foldl_cons, List.foldl_cons]

/-- A pass that meets each key once, in whatever order. -/
theorem foldl_touch (hkey : ∀ b, key (g b) = key b) {as : List α} {F : Forest β}
    (hnodup : (F.labels.map key).Nodup) (honce : ∀ b ∈ F.labels, as.count (key b) = 1) :
    as.foldl (touch key g) F = F.nest g := by
  induction F generalizing as with
  | nil =>
    clear hnodup honce
    induction as with
    | nil => rfl
    | cons a rest ih => exact ih
  | node b below next ihb ihn =>
    have hb := honce b (Multiset.mem_cons_self b _)
    obtain ⟨before, behind, rfl⟩ := List.append_of_mem
      (List.count_pos_iff.mp (hb ▸ Nat.one_pos) : key b ∈ as)
    simp only [List.count_append, List.count_cons_self] at hb
    have hbefore : key b ∉ before := List.count_eq_zero.mp (by omega)
    have hbehind : key b ∉ behind := List.count_eq_zero.mp (by omega)
    simp only [labels, Multiset.map_cons, Multiset.map_add, Multiset.nodup_cons, Multiset.mem_add,
      not_or, Multiset.nodup_add] at hnodup
    obtain ⟨⟨hnotbelow, hnotnext⟩, hnodupb, hnodupn, _⟩ := hnodup
    -- the key of `b` is that of no other node
    have hother : ∀ {c}, c ∈ below.labels + next.labels →
        (before ++ behind).count (key c) = 1 := by
      intro c hc
      have hne : key b ≠ key c := by
        intro heq
        rcases Multiset.mem_add.mp hc with hc | hc
        · exact hnotbelow (heq ▸ Multiset.mem_map_of_mem key hc)
        · exact hnotnext (heq ▸ Multiset.mem_map_of_mem key hc)
      have hcount := honce c (Multiset.mem_cons_of_mem hc)
      rwa [List.count_append, List.count_cons_of_ne hne, ← List.count_append] at hcount
    have hbelow := ihb hnodupb fun c hc => hother (Multiset.mem_add.mpr (Or.inl hc))
    have hnext := ihn hnodupn fun c hc => hother (Multiset.mem_add.mpr (Or.inr hc))
    rw [List.foldl_append] at hbelow hnext
    have hgb : key (g b) ∉ behind := by rwa [hkey]
    rw [List.foldl_append, foldl_touch_node hbefore, List.foldl_cons, touch, if_pos rfl,
      foldl_touch_node hgb, foldl_touch_map hkey, hbelow, hnext, nest]

/-- When two times bring a node where it stays, only the first nodes are met once. -/
theorem nest_eq_layer (htwice : ∀ b, g (g b) = z b) (hstays : ∀ b, g (z b) = z b)
    (F : Forest β) : F.nest g = F.layer g z := by
  have hmap : ∀ G : Forest β, (G.map z).map g = G.map z := by
    intro G
    induction G with
    | nil => rfl
    | node b below next ihb ihn => simp only [map, hstays, ihb, ihn]
  have hnest : ∀ G : Forest β, (G.nest g).map g = G.map z := by
    intro G
    induction G with
    | nil => rfl
    | node b below next ihb ihn => simp only [nest, map, htwice, ihb, ihn, hmap]
  induction F with
  | nil => rfl
  | node b below next _ ihn => rw [nest, layer, hnest, ihn]

end Forest

end forest
