-- The color pairs of nccpp. A color is registered once, and its place in the vector gives
-- the number of the curses pair that shows it. The terminal decides how many there can be.
import Rmrf.Machine
import Rmrf.Runs
import Rmrf.Stateful

open machine runs stateful

namespace nccpp

/-! ## The source -/

structure Color where
  foreground : Int
  background : Int
deriving DecidableEq, Repr

/-- How a member function ends other than by a return. A failed `assert` ends the program,
and what an element past the end of a vector is, C++ leaves undefined. -/
inductive Ending
  | ColorInit
  | TooMuchColors (color : Color)
  | assertion
  | past_the_end
deriving DecidableEq, Repr

/-- What curses has for attributes and pairs. -/
structure Curses (Attr : Type) where
  COLOR_PAIRS : Int
  COLOR_PAIR : Int → Attr
  PAIR_NUMBER : Attr → Int

/-- Its manual: attributes can hold color pairs in the range 0 to 255. -/
structure Curses.Documented {Attr : Type} (t : Curses Attr) : Prop where
  pair_of_attr : ∀ n, 0 ≤ n → n ≤ 255 → t.PAIR_NUMBER (t.COLOR_PAIR n) = n
  range : ∀ a, 0 ≤ t.PAIR_NUMBER a ∧ t.PAIR_NUMBER a ≤ 255

/-- What the terminal can do at a call: colors at all, and one more pair. -/
structure Terminal where
  has_colors : Bool
  has_pair : Bool
deriving DecidableEq, Repr

/-- The colors of the singleton, and what curses shows for a pair. -/
structure Ncurses where
  registered_colors_ : List Color
  colors_initialized_ : Bool
  is_exit_ : Bool
  shown : Int → Option Color

abbrev Method := EStateM Ending Ncurses

namespace Ncurses

/-- No color yet, in ncurses mode. -/
def start : Ncurses := ⟨[], false, false, fun _ => none⟩

/-- A number as a `short`. -/
def toShort (x : Int) : Int := x.bmod 0x10000

def assert (condition : Bool) : Method Unit := if condition then pure () else throw .assertion

/-- `assert(!is_exit_ && "Ncurses mode is off")` -/
def assert_mode : Method Unit := do assert !(← get).is_exit_

def start_color (terminal : Terminal) : Method Unit := do
  assert_mode
  if (← get).colors_initialized_ then
    return
  else if !terminal.has_colors then
    throw .ColorInit
  else
    modify fun s => { s with colors_initialized_ := true }

/-- `init_pair`, which wants a pair from 1 up to `COLOR_PAIRS - 1`. -/
def init_pair {Attr : Type} (t : Curses Attr) (terminal : Terminal) (pair : Int) (color : Color) :
    Method Bool := do
  if terminal.has_pair ∧ 1 ≤ pair ∧ pair < t.COLOR_PAIRS then
    modify fun s => { s with shown := Function.update s.shown pair (some color) }
    return true
  else
    return false

section Colors

variable {Attr : Type} (t : Curses Attr) (terminal : Terminal)

def color_to_pair_number (color : Color) : Method Int := do
  assert_mode
  let registered_colors_ := (← get).registered_colors_
  match registered_colors_.findIdx? (color == ·) with
  | some i => return toShort (i + 1)
  | none =>
    start_color terminal
    if !(← init_pair t terminal (toShort (registered_colors_.length + 1)) color) then
      throw (.TooMuchColors color)
    else
      modify fun s => { s with registered_colors_ := s.registered_colors_ ++ [color] }
      return toShort (← get).registered_colors_.length

def color_to_attr (color : Color) : Method Attr := do
  assert_mode
  return t.COLOR_PAIR (← color_to_pair_number t terminal color)

def pair_number_to_color (pair_n : Int) : Method Color := do
  assert_mode
  let registered_colors_ := (← get).registered_colors_
  assert (toSize pair_n ≤ registered_colors_.length)
  match registered_colors_[toSize (pair_n - 1)]? with
  | some color => return color
  | none => throw .past_the_end

def attr_to_color (a : Attr) : Method Color := do
  assert_mode
  pair_number_to_color (toShort (t.PAIR_NUMBER a))

end Colors

def exit_ncurses_mode : Method Unit := do
  assert_mode
  modify fun s => { s with is_exit_ := true }

def resume_ncurses_mode : Method Unit := do
  assert (← get).is_exit_
  modify fun s => { s with is_exit_ := false }

/-! ## The runs -/

/-- The calls of a program. `use_default_colors` and `init_color` start the colors and then
leave them to curses. -/
inductive Step (Attr : Type)
  | start_color (terminal : Terminal)
  | color_to_pair_number (terminal : Terminal) (color : Color)
  | color_to_attr (terminal : Terminal) (color : Color)
  | pair_number_to_color (pair_n : Int)
  | attr_to_color (a : Attr)
  | exit_ncurses_mode
  | resume_ncurses_mode
deriving DecidableEq, Repr

/-- The colors after a call that returns or throws. -/
def after {α : Type} (h : Method α) (s : Ncurses) : Option Ncurses :=
  match h s with
  | .ok _ t => some t
  | .error (.ColorInit) t => some t
  | .error (.TooMuchColors _) t => some t
  | .error _ _ => none

def next {Attr : Type} (t : Curses Attr) (s : Ncurses) : Step Attr → Option Ncurses
  | .start_color terminal => after (start_color terminal) s
  | .color_to_pair_number terminal color => after (color_to_pair_number t terminal color) s
  | .color_to_attr terminal color => after (color_to_attr t terminal color) s
  | .pair_number_to_color pair_n => after (pair_number_to_color pair_n) s
  | .attr_to_color a => after (attr_to_color t a) s
  | .exit_ncurses_mode => after exit_ncurses_mode s
  | .resume_ncurses_mode => after resume_ncurses_mode s

/-! ## The functions, case by case -/

theorem assert_mode_eq {s : Ncurses} (h : s.is_exit_ = false) : assert_mode s = .ok () s := by
  rw [assert_mode, get_bind, h]
  rfl

theorem assert_mode_error {s : Ncurses} (h : s.is_exit_ = true) :
    assert_mode s = .error .assertion s := by
  rw [assert_mode, get_bind, h]
  rfl

theorem start_color_eq {s : Ncurses} (h : s.is_exit_ = false) (terminal : Terminal) :
    start_color terminal s =
      if s.colors_initialized_ ∨ terminal.has_colors then
        .ok () { s with colors_initialized_ := true }
      else .error .ColorInit s := by
  rw [start_color, bind_ok (assert_mode_eq h), get_bind]
  cases hinit : s.colors_initialized_ with
  | true =>
    have hsame : { s with colors_initialized_ := true } = s := by rw [← hinit]
    simp only [if_true, true_or, hsame]
    rfl
  | false =>
    cases terminal.has_colors with
    | true => rfl
    | false => rfl

section Colors

variable {Attr : Type} {t : Curses Attr} {terminal : Terminal} {color : Color} {s : Ncurses}

theorem init_pair_eq (t : Curses Attr) (terminal : Terminal) (pair : Int) (color : Color)
    (s : Ncurses) :
    init_pair t terminal pair color s =
      if terminal.has_pair ∧ 1 ≤ pair ∧ pair < t.COLOR_PAIRS then
        .ok true { s with shown := Function.update s.shown pair (some color) }
      else .ok false s := by
  unfold init_pair
  split_ifs <;> rfl

/-- The state with one more color. -/
def with_color (s : Ncurses) (color : Color) : Ncurses :=
  { s with
    colors_initialized_ := true
    shown := Function.update s.shown (toShort (s.registered_colors_.length + 1)) (some color)
    registered_colors_ := s.registered_colors_ ++ [color] }

theorem color_to_pair_number_new (h : s.is_exit_ = false)
    (hfind : s.registered_colors_.findIdx? (color == ·) = none) :
    color_to_pair_number t terminal color s =
      if s.colors_initialized_ ∨ terminal.has_colors then
        if terminal.has_pair ∧ 1 ≤ toShort (s.registered_colors_.length + 1) ∧
            toShort (s.registered_colors_.length + 1) < t.COLOR_PAIRS then
          .ok (toShort (s.registered_colors_.length + 1)) (s.with_color color)
        else .error (.TooMuchColors color) { s with colors_initialized_ := true }
      else .error .ColorInit s := by
  rw [color_to_pair_number, bind_ok (assert_mode_eq h), get_bind, hfind]
  simp only
  have hstart := start_color_eq h terminal
  by_cases hcolors : s.colors_initialized_ = true ∨ terminal.has_colors = true
  · rw [if_pos hcolors] at hstart ⊢
    rw [bind_ok hstart]
    have hinit := init_pair_eq t terminal (toShort (s.registered_colors_.length + 1)) color
      { s with colors_initialized_ := true }
    split_ifs at hinit ⊢ with hpair
    · rw [bind_ok hinit]
      have hlen : ((s.registered_colors_ ++ [color]).length : Int) =
          s.registered_colors_.length + 1 := by simp
      show EStateM.Result.ok (toShort (s.registered_colors_ ++ [color] : List Color).length) _ = _
      rw [hlen]
      rfl
    · rw [bind_ok hinit]
      rfl
  · rw [if_neg hcolors] at hstart ⊢
    exact bind_error hstart _

/-- What a call for the number of a color does. -/
inductive Numbered (t : Curses Attr) (s : Ncurses) (color : Color) :
    EStateM.Result Ending Ncurses Int → Prop
  | found {i : Nat} : s.registered_colors_[i]? = some color →
      Numbered t s color (.ok (toShort (i + 1)) s)
  | added : color ∉ s.registered_colors_ → 1 ≤ toShort (s.registered_colors_.length + 1) →
      toShort (s.registered_colors_.length + 1) < t.COLOR_PAIRS →
      Numbered t s color (.ok (toShort (s.registered_colors_.length + 1)) (s.with_color color))
  | no_colors : color ∉ s.registered_colors_ → Numbered t s color (.error .ColorInit s)
  | too_many : color ∉ s.registered_colors_ → Numbered t s color
      (.error (.TooMuchColors color) { s with colors_initialized_ := true })
  | not_in_mode : s.is_exit_ = true → Numbered t s color (.error .assertion s)

theorem color_to_pair_number.spec (t : Curses Attr) (terminal : Terminal) (color : Color)
    (s : Ncurses) : Numbered t s color (color_to_pair_number t terminal color s) := by
  cases hmode : s.is_exit_ with
  | true =>
    rw [color_to_pair_number, bind_error (assert_mode_error hmode)]
    exact .not_in_mode hmode
  | false =>
    cases hfind : s.registered_colors_.findIdx? (color == ·) with
    | some i =>
      rw [color_to_pair_number, bind_ok (assert_mode_eq hmode), get_bind, hfind]
      obtain ⟨hlt, heq, _⟩ := List.findIdx?_eq_some_iff_getElem.mp hfind
      refine .found (List.getElem?_eq_some_iff.mpr ⟨hlt, ?_⟩)
      exact (beq_iff_eq.mp heq).symm
    | none =>
      have hnew : color ∉ s.registered_colors_ := by
        intro hmem
        have hne := List.findIdx?_eq_none_iff.mp hfind color hmem
        simp at hne
      rw [color_to_pair_number_new hmode hfind]
      split_ifs with hcolors hpair
      · exact .added hnew hpair.2.1 hpair.2.2
      · exact .too_many hnew
      · exact .no_colors hnew

/-- What a call for the color of a pair does. -/
theorem pair_number_to_color_eq (h : s.is_exit_ = false) (pair_n : Int) :
    pair_number_to_color pair_n s =
      if toSize pair_n ≤ s.registered_colors_.length then
        match s.registered_colors_[toSize (pair_n - 1)]? with
        | some c => .ok c s
        | none => .error .past_the_end s
      else .error .assertion s := by
  rw [pair_number_to_color, bind_ok (assert_mode_eq h), get_bind]
  by_cases hle : toSize pair_n ≤ s.registered_colors_.length
  · rw [if_pos hle, assert, if_pos (by simpa using hle)]
    show (match s.registered_colors_[toSize (pair_n - 1)]? with
      | some c => pure c
      | none => throw .past_the_end : Method Color) s = _
    cases s.registered_colors_[toSize (pair_n - 1)]? <;> rfl
  · rw [if_neg hle, assert, if_neg (by simpa using hle)]
    rfl

end Colors

/-! ## The invariant -/

/-- Each color is registered once, under a number that a `short` has, and curses shows it
for that pair. -/
structure Sound (s : Ncurses) : Prop where
  nodup : s.registered_colors_.Nodup
  short : s.registered_colors_.length < 2 ^ 15
  shown : ∀ (i : Nat) c, s.registered_colors_[i]? = some c → s.shown (i + 1) = some c

theorem toShort_of_lt {n : Nat} (h : n < 2 ^ 15) : toShort n = n := by
  unfold toShort
  rw [Int.bmod_def]
  omega

/-- The number of one pair too many is negative. -/
theorem lt_of_one_le_toShort {n : Nat} (hn : n ≤ 2 ^ 15) (h : 1 ≤ toShort n) : n < 2 ^ 15 := by
  by_contra hge
  have heq : n = 2 ^ 15 := by omega
  rw [heq] at h
  exact absurd h (by decide)

theorem sound_start : start.Sound := by
  refine ⟨List.nodup_nil, by decide, ?_⟩
  intro i c h
  simp [start] at h

/-- Colors have been added behind the others. -/
structure GoesOn (s u : Ncurses) : Prop where
  sound : u.Sound
  registered : s.registered_colors_ <+: u.registered_colors_

theorem GoesOn.trans {s t u : Ncurses} (h : GoesOn s t) (h' : GoesOn t u) : GoesOn s u :=
  ⟨h'.sound, h.registered.trans h'.registered⟩

/-- A change of the flags alone. -/
theorem goesOn_of_eq {s u : Ncurses} (hs : s.Sound)
    (hr : u.registered_colors_ = s.registered_colors_) (hshown : u.shown = s.shown) :
    GoesOn s u := by
  refine ⟨⟨hr ▸ hs.nodup, hr ▸ hs.short, ?_⟩, hr ▸ List.prefix_rfl⟩
  rw [hr, hshown]
  exact hs.shown

/-- The state in which a call ends. -/
def state {α : Type} : EStateM.Result Ending Ncurses α → Ncurses
  | .ok _ s => s
  | .error _ s => s

theorem eq_state_of_after {α : Type} {h : Method α} {s u : Ncurses} (hu : after h s = some u) :
    u = state (h s) := by
  unfold after at hu
  cases hs : h s with
  | ok a t =>
    rw [hs] at hu
    cases hu
    rfl
  | error e t =>
    rw [hs] at hu
    cases e <;> cases hu <;> rfl

section Colors

variable {Attr : Type} {t : Curses Attr} {color : Color} {s : Ncurses}

theorem Numbered.goesOn {r : EStateM.Result Ending Ncurses Int} (h : Numbered t s color r)
    (hs : s.Sound) : GoesOn s (state r) := by
  cases h with
  | found _ => exact goesOn_of_eq hs rfl rfl
  | no_colors _ => exact goesOn_of_eq hs rfl rfl
  | too_many _ => exact goesOn_of_eq hs rfl rfl
  | not_in_mode _ => exact goesOn_of_eq hs rfl rfl
  | added hnew hone hlt =>
    have hlen := hs.short
    have hshort : s.registered_colors_.length + 1 < 2 ^ 15 :=
      lt_of_one_le_toShort (n := s.registered_colors_.length + 1) hlen hone
    refine ⟨⟨?_, ?_, ?_⟩, List.prefix_append _ _⟩
    · exact List.nodup_append.mpr ⟨hs.nodup, List.nodup_singleton _, by
        rintro a ha b hb rfl
        exact hnew (List.mem_singleton.mp hb ▸ ha)⟩
    · simpa [state, with_color] using hshort
    · intro i c hi
      have hpair : toShort (s.registered_colors_.length + 1) = s.registered_colors_.length + 1 :=
        toShort_of_lt (n := s.registered_colors_.length + 1) hshort
      simp only [state, with_color, hpair] at hi ⊢
      rcases Nat.lt_trichotomy i s.registered_colors_.length with hi' | rfl | hi'
      · rw [List.getElem?_append_left hi'] at hi
        rw [Function.update_of_ne (by omega)]
        exact hs.shown i c hi
      · rw [List.getElem?_append_right (Nat.le_refl _), Nat.sub_self] at hi
        cases hi
        exact Function.update_self _ _ _
      · rw [List.getElem?_eq_none (by simp; omega)] at hi
        cases hi

theorem goesOn_start_color (hs : s.Sound) (terminal : Terminal) :
    GoesOn s (state (start_color terminal s)) := by
  cases hmode : s.is_exit_ with
  | true =>
    rw [start_color, bind_error (assert_mode_error hmode)]
    exact goesOn_of_eq hs rfl rfl
  | false =>
    rw [start_color_eq hmode]
    split_ifs <;> exact goesOn_of_eq hs rfl rfl

theorem color_to_attr_state (terminal : Terminal) :
    state (color_to_attr t terminal color s) = state (color_to_pair_number t terminal color s) := by
  cases hmode : s.is_exit_ with
  | true =>
    rw [color_to_attr, bind_error (assert_mode_error hmode), color_to_pair_number,
      bind_error (assert_mode_error hmode)]
    rfl
  | false =>
    rw [color_to_attr, bind_ok (assert_mode_eq hmode)]
    cases hcall : color_to_pair_number t terminal color s with
    | ok n u =>
      rw [bind_ok hcall]
      rfl
    | error e u =>
      rw [bind_error hcall]
      rfl

theorem pair_number_to_color_state (pair_n : Int) :
    state (pair_number_to_color pair_n s) = s := by
  cases hmode : s.is_exit_ with
  | true =>
    rw [pair_number_to_color, bind_error (assert_mode_error hmode)]
    rfl
  | false =>
    rw [pair_number_to_color_eq hmode]
    split
    · split <;> rfl
    · rfl

theorem attr_to_color_state (a : Attr) : state (attr_to_color t a s) = s := by
  cases hmode : s.is_exit_ with
  | true =>
    rw [attr_to_color, bind_error (assert_mode_error hmode)]
    rfl
  | false =>
    rw [attr_to_color, bind_ok (assert_mode_eq hmode)]
    exact pair_number_to_color_state _

theorem goesOn_next {u : Ncurses} {a : Step Attr} (hs : s.Sound) (h : next t s a = some u) :
    GoesOn s u := by
  cases a with
  | start_color terminal =>
    rw [eq_state_of_after h]
    exact goesOn_start_color hs terminal
  | color_to_pair_number terminal color =>
    rw [eq_state_of_after h]
    exact (color_to_pair_number.spec t terminal color s).goesOn hs
  | color_to_attr terminal color =>
    rw [eq_state_of_after h, color_to_attr_state]
    exact (color_to_pair_number.spec t terminal color s).goesOn hs
  | pair_number_to_color pair_n =>
    rw [eq_state_of_after h, pair_number_to_color_state]
    exact goesOn_of_eq hs rfl rfl
  | attr_to_color a =>
    rw [eq_state_of_after h, attr_to_color_state]
    exact goesOn_of_eq hs rfl rfl
  | exit_ncurses_mode =>
    rw [eq_state_of_after h, exit_ncurses_mode]
    cases hmode : s.is_exit_ with
    | true =>
      rw [bind_error (assert_mode_error hmode)]
      exact goesOn_of_eq hs rfl rfl
    | false =>
      rw [bind_ok (assert_mode_eq hmode)]
      exact goesOn_of_eq hs rfl rfl
  | resume_ncurses_mode =>
    rw [eq_state_of_after h, resume_ncurses_mode, get_bind]
    cases hmode : s.is_exit_ <;> exact goesOn_of_eq hs rfl rfl

theorem goesOn_run {u : Ncurses} {as : List (Step Attr)} (hs : s.Sound)
    (h : run (next t) s as = some u) : GoesOn s u :=
  run_invariant (next t) (goesOn_of_eq hs rfl rfl)
    (fun _ _ _ hgo hu => hgo.trans (goesOn_next hgo.sound hu)) h

/-! ## The laws -/

theorem index_lt {i : Nat} (hi : s.registered_colors_[i]? = some color) :
    i < s.registered_colors_.length := (List.getElem?_eq_some_iff.mp hi).1

/-- A color keeps its place. -/
theorem getElem?_of_goesOn {u : Ncurses} (h : GoesOn s u) {i : Nat}
    (hi : s.registered_colors_[i]? = some color) : u.registered_colors_[i]? = some color := by
  obtain ⟨more, hmore⟩ := h.registered
  rw [← hmore, List.getElem?_append_left (index_lt hi), hi]

theorem toShort_index (hs : s.Sound) {i : Nat} (hi : s.registered_colors_[i]? = some color) :
    toShort (i + 1) = i + 1 := by
  have hlt := index_lt hi
  have hshort := hs.short
  exact toShort_of_lt (n := i + 1) (by omega)

/-- The number of a color is its place, from 1 on. -/
theorem index_of_number {terminal : Terminal} {n : Int} {s' : Ncurses} (hs : s.Sound)
    (hcall : color_to_pair_number t terminal color s = .ok n s') :
    GoesOn s s' ∧ ∃ i : Nat, s'.registered_colors_[i]? = some color ∧ n = i + 1 := by
  have hspec := color_to_pair_number.spec t terminal color s
  have hgo := hspec.goesOn hs
  generalize color_to_pair_number t terminal color s = r at hspec hcall hgo
  cases hspec with
  | @found i hi =>
    obtain ⟨rfl, rfl⟩ := EStateM.Result.ok.inj hcall
    exact ⟨hgo, i, hi, toShort_index hs hi⟩
  | added hnew hone hlt =>
    obtain ⟨rfl, rfl⟩ := EStateM.Result.ok.inj hcall
    refine ⟨hgo, s.registered_colors_.length, by simp [with_color], ?_⟩
    have hlen := hgo.sound.short
    simp only [state, with_color, List.length_append, List.length_singleton] at hlen
    exact toShort_of_lt (n := s.registered_colors_.length + 1) hlen
  | no_colors _ => cases hcall
  | too_many _ => cases hcall
  | not_in_mode _ => cases hcall

theorem number_of_index {i : Nat} (hs : s.Sound) (hmode : s.is_exit_ = false)
    (hi : s.registered_colors_[i]? = some color) (terminal : Terminal) :
    color_to_pair_number t terminal color s = .ok (i + 1) s := by
  have hspec := color_to_pair_number.spec t terminal color s
  have hmem := List.mem_of_getElem? hi
  generalize color_to_pair_number t terminal color s = r at hspec
  cases hspec with
  | @found j hj =>
    have heq : j = i := (List.getElem?_inj (index_lt hj) hs.nodup).mp (hj.trans hi.symm)
    rw [heq, toShort_index hs hi]
  | added hnew _ _ => exact absurd hmem hnew
  | no_colors hnew => exact absurd hmem hnew
  | too_many hnew => exact absurd hmem hnew
  | not_in_mode hexit =>
    rw [hmode] at hexit
    cases hexit

theorem color_of_index {i : Nat} (hs : s.Sound) (hmode : s.is_exit_ = false)
    (hi : s.registered_colors_[i]? = some color) :
    pair_number_to_color (i + 1) s = .ok color s := by
  have hlt := index_lt hi
  have hshort := hs.short
  have hn : toSize ((i : Int) + 1) = i + 1 := by
    unfold toSize
    omega
  have hplace : toSize ((i : Int) + 1 - 1) = i := by
    unfold toSize
    omega
  rw [pair_number_to_color_eq hmode, hn, hplace, if_pos (by omega), hi]

section Runs

variable {terminal : Terminal} {s' u : Ncurses} {before afterwards : List (Step Attr)} {n : Int}

/-- Once a color has a number, the number stands for the color in every later state: it
gives the color back, each call for the color gives it again, curses shows the color for it,
and no other color gets it. -/
theorem a_number_stands_for_its_color (h : run (next t) start before = some s)
    (hcall : color_to_pair_number t terminal color s = .ok n s')
    (hlater : run (next t) s' afterwards = some u) (hmode : u.is_exit_ = false) :
    pair_number_to_color n u = .ok color u ∧
      (∀ terminal', color_to_pair_number t terminal' color u = .ok n u) ∧
      u.shown n = some color ∧
      ∀ terminal' color' u', color_to_pair_number t terminal' color' u = .ok n u' →
        color' = color := by
  have hs := (goesOn_run sound_start h).sound
  obtain ⟨hgo, i, hi, rfl⟩ := index_of_number hs hcall
  have hgo' := goesOn_run hgo.sound hlater
  have hu := getElem?_of_goesOn hgo' hi
  refine ⟨color_of_index hgo'.sound hmode hu, number_of_index hgo'.sound hmode hu,
    hgo'.sound.shown i color hu, ?_⟩
  intro terminal' color' u' hcall'
  obtain ⟨hgo'', j, hj, hij⟩ := index_of_number hgo'.sound hcall'
  have heq : j = i := by omega
  rw [heq, getElem?_of_goesOn hgo'' hu] at hj
  exact (Option.some.inj hj).symm

/-- The attribute of a color gives the color back, now and in every later state, exactly when
the number of its pair is at most 255. -/
theorem an_attribute_has_its_color_up_to_255 (ht : t.Documented)
    (h : run (next t) start before = some s)
    (hcall : color_to_pair_number t terminal color s = .ok n s')
    (hlater : run (next t) s' afterwards = some u) (hmode : u.is_exit_ = false) :
    (∀ terminal', color_to_attr t terminal' color u = .ok (t.COLOR_PAIR n) u) ∧
      (attr_to_color t (t.COLOR_PAIR n) u = .ok color u ↔ n ≤ 255) := by
  have hs := (goesOn_run sound_start h).sound
  obtain ⟨hgo, i, hi, rfl⟩ := index_of_number hs hcall
  have hgo' := goesOn_run hgo.sound hlater
  have hu := getElem?_of_goesOn hgo' hi
  have hlt := index_lt hu
  have hshort := hgo'.sound.short
  constructor
  · intro terminal'
    rw [color_to_attr, bind_ok (assert_mode_eq hmode),
      bind_ok (number_of_index hgo'.sound hmode hu terminal')]
    rfl
  · obtain ⟨hlo, hhi⟩ := ht.range (t.COLOR_PAIR (i + 1))
    have hcut : toShort (t.PAIR_NUMBER (t.COLOR_PAIR (i + 1))) =
        t.PAIR_NUMBER (t.COLOR_PAIR (i + 1)) := by
      unfold toShort
      rw [Int.bmod_def]
      omega
    rw [attr_to_color, bind_ok (assert_mode_eq hmode), hcut]
    constructor
    · -- the place that is read has the color, so it is the place of its number
      intro hcolor
      rw [pair_number_to_color_eq hmode] at hcolor
      split_ifs at hcolor
      split at hcolor
      · rename_i c hplace
        obtain ⟨rfl, _⟩ := EStateM.Result.ok.inj hcolor
        have heq := (List.getElem?_inj (index_lt hplace) hgo'.sound.nodup).mp
          (hplace.trans hu.symm)
        unfold toSize at heq
        omega
      · cases hcolor
    · intro hle
      rw [ht.pair_of_attr _ (by omega) hle]
      exact color_of_index hgo'.sound hmode hu

end Runs

end Colors

/-- The macros of `curses.h`. -/
def macros (COLOR_PAIRS : Int) : Curses (BitVec 32) where
  COLOR_PAIRS
  COLOR_PAIR n := BitVec.ofInt 32 n <<< 8 &&& 0xff00#32
  PAIR_NUMBER a := ((a &&& 0xff00#32) >>> 8).toNat

theorem macros_documented (COLOR_PAIRS : Int) : (macros COLOR_PAIRS).Documented := by
  constructor
  · intro n h0 hn
    obtain ⟨k, rfl⟩ := Int.eq_ofNat_of_zero_le h0
    have hall : ∀ k < 256, ((macros 0).PAIR_NUMBER ((macros 0).COLOR_PAIR (k : Nat))) = k := by
      decide +kernel
    exact hall k (by omega)
  · intro a
    have hle : (a &&& 0xff00#32).toNat ≤ 0xff00 := by
      rw [BitVec.toNat_and]
      exact Nat.and_le_right
    simp only [macros, BitVec.toNat_ushiftRight, Nat.shiftRight_eq_div_pow]
    omega

/-- The second color of a program, before and after its time outside of ncurses mode. -/
theorem a_number_stands_for_its_color_after_a_pause :
    ∃ s s' u, run (next (macros 256)) start [.color_to_pair_number ⟨true, true⟩ ⟨1, 0⟩] = some s ∧
      color_to_pair_number (macros 256) ⟨true, true⟩ ⟨2, -1⟩ s = .ok 2 s' ∧
      run (next (macros 256)) s' [.exit_ncurses_mode, .resume_ncurses_mode] = some u ∧
      pair_number_to_color 2 u = .ok ⟨2, -1⟩ u ∧ u.shown 2 = some ⟨2, -1⟩ := by
  have hfirst : run (next (macros 256)) start [.color_to_pair_number ⟨true, true⟩ ⟨1, 0⟩] =
      some (start.with_color ⟨1, 0⟩) := by
    rw [run, next, after, color_to_pair_number_new rfl rfl, if_pos (by decide),
      if_pos (by decide)]
    rfl
  have hcall : color_to_pair_number (macros 256) ⟨true, true⟩ ⟨2, -1⟩ (start.with_color ⟨1, 0⟩) =
      .ok 2 ((start.with_color ⟨1, 0⟩).with_color ⟨2, -1⟩) := by
    have htwo : toShort ((start.with_color ⟨1, 0⟩).registered_colors_.length + 1) = 2 := by decide
    rw [color_to_pair_number_new rfl (by decide), if_pos (by decide), if_pos (by decide), htwo]
  obtain ⟨u, hlater, hmode⟩ : ∃ u, run (next (macros 256))
      ((start.with_color ⟨1, 0⟩).with_color ⟨2, -1⟩)
      [.exit_ncurses_mode, .resume_ncurses_mode] = some u ∧ u.is_exit_ = false := ⟨_, rfl, rfl⟩
  obtain ⟨hback, _, hshown, _⟩ := a_number_stands_for_its_color hfirst hcall hlater hmode
  exact ⟨_, _, u, hfirst, hcall, hlater, hback, hshown⟩

/-- The attribute of the first color. -/
theorem an_attribute_has_its_color_for_the_first_pair :
    ∃ s, color_to_pair_number (macros 256) ⟨true, true⟩ ⟨1, 0⟩ start = .ok 1 s ∧
      attr_to_color (macros 256) ((macros 256).COLOR_PAIR 1) s = .ok ⟨1, 0⟩ s := by
  have hcall : color_to_pair_number (macros 256) ⟨true, true⟩ ⟨1, 0⟩ start =
      .ok 1 (start.with_color ⟨1, 0⟩) := by
    have hone : toShort (start.registered_colors_.length + 1) = 1 := by decide
    rw [color_to_pair_number_new rfl rfl, if_pos (by decide), if_pos (by decide), hone]
  exact ⟨_, hcall, (an_attribute_has_its_color_up_to_255 (t := macros 256) (s := start)
    (macros_documented 256) (run_nil _ _) hcall (run_nil _ _) rfl).2.mpr (by decide)⟩

end Ncurses

end nccpp
