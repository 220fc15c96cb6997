-- The windows of nccpp. A window owns a curses window and the subwindows in its vector, the
-- singleton has a pointer to each, and it goes through them to leave ncurses mode and to come
-- back. curses keeps its own account of the windows that it has.
import Rmrf.ColorPairs
import Rmrf.Forest
import Rmrf.Stateful

open runs stateful forest

namespace nccpp

/-! ## The source -/

/-- A curses window, with the one that it is a part of. -/
structure WINDOW (κ : Type) where
  key : κ
  part_of : Option κ
deriving DecidableEq, Repr

/-- Where a window lies, whether it is a `Subwindow`, its curses window, and the one it keeps
while ncurses mode is off. -/
structure Managed (α κ : Type) where
  address : α
  is_subwindow : Bool
  win_ : Option (WINDOW κ)
  win_save_ : Option (WINDOW κ)
deriving DecidableEq, Repr

namespace Window

/-- How a member function ends other than by a return. C++ leaves undefined what a reference to
no window does and a pointer of the singleton to none, and curses what is made of a window that
it does not have. -/
inductive Ending
  | WindowInit
  | bad_alloc
  | assertion
  | unregistered
  | undefined
  | dangling
  | closed
deriving DecidableEq, Repr

/-- The windows that live, each with its subwindows. The singleton is one of them, but it is not
among its own `windows_`. curses has its `stdscr` and others open, and `refused` is what it was
told to delete though it did not have it. -/
structure Screen (α κ : Type) where
  live : Forest (Managed α κ)
  windows_ : List α
  is_exit_ : Bool
  open_ : Multiset (WINDOW κ)
  stdscr : κ
  refused : List κ

def Screen.keys {α κ : Type} (s : Screen α κ) : Multiset κ := s.open_.map WINDOW.key

abbrev Method (α κ : Type) := EStateM Ending (Screen α κ)

variable {α κ : Type} [DecidableEq α] [DecidableEq κ]

def assert (condition : Bool) : Method α κ Unit :=
  if condition then pure () else throw .assertion

/-- What curses has made for a call, if it had room for it. -/
def create (win : Option (WINDOW κ)) : Method α κ Unit :=
  match win with
  | none => pure ()
  | some k => modify fun s => { s with open_ := k ::ₘ s.open_ }

def use (k : WINDOW κ) : Method α κ Unit := do
  if k.key ∈ (← get).keys then pure () else throw .closed

/-- A window that curses does not have is refused, and one that another is a part of stays. -/
def delwin : Option (WINDOW κ) → Method α κ Unit
  | none => pure ()
  | some k => do
    let s ← get
    if k.key ∉ s.keys then modify fun s => { s with refused := k.key :: s.refused }
    else if some k.key ∈ s.open_.map WINDOW.part_of then pure ()
    else modify fun s => { s with open_ := s.open_.filter (fun p => p.key ≠ k.key) }

/-- There may be no memory for one more pointer. -/
def register_window_ (a : α) (memory : Bool) : Method α κ Unit :=
  if memory then modify fun s => { s with windows_ := s.windows_ ++ [a] }
  else throw .bad_alloc

def unregister_window_ (a : α) : Method α κ Unit := do
  if a ∈ (← get).windows_ then modify fun s => { s with windows_ := s.windows_.erase a }
  else throw .unregistered

/-- Each element is destroyed: its destructor goes through `destroy`, and then what is left of
its vector is destroyed too. -/
def clear : Forest (Managed α κ) → Method α κ Unit
  | .nil => pure ()
  | .node elem subwindows_ rest => do
    unregister_window_ elem.address
    match elem.win_, elem.win_save_ with
    | some k, _ => do clear subwindows_; delwin (some k); clear rest
    | none, some k => do clear subwindows_; delwin (some k); clear rest
    | none, none => do clear subwindows_; clear rest

def destroy (w : Managed α κ) (subwindows_ : Forest (Managed α κ)) :
    Method α κ (Managed α κ × Forest (Managed α κ)) :=
  match w.win_, w.win_save_ with
  | some k, _ => do clear subwindows_; delwin (some k); return ({ w with win_ := none }, .nil)
  | none, some k => do
    clear subwindows_; delwin (some k); return ({ w with win_save_ := none }, .nil)
  | none, none => return (w, subwindows_)

/-- A window that has nothing any more, as a move leaves it. -/
def release (w : Managed α κ) : Managed α κ := { w with win_ := none, win_save_ := none }

/-! ### Where the windows lie -/

def lies (a : α) (w : Managed α κ) : Bool := w.address = a

/-- What a window has for its subwindows. -/
abbrev parent (w : Managed α κ) : Option (Option κ) := some (w.win_.map WINDOW.key)

/-- The window at an address, with what its parent has when it is in a vector. -/
def lookup (a : α) :
    Method α κ (Option (Option κ) × Managed α κ × Forest (Managed α κ)) := do
  match (← get).live.find parent (lies a) none with
  | some found => return found
  | none => throw .undefined

/-- What is in no vector, and not the singleton. -/
def object (nc a : α) : Method α κ (Managed α κ × Forest (Managed α κ)) := do
  let found ← lookup a
  if found.1 = none ∧ a ≠ nc then return found.2 else throw .undefined

/-- A `Window` proper. The constructors and assignments from the singleton and from a subwindow
are deleted, and so is what the two would do with `assign` and `destroy`. -/
def window (nc a : α) : Method α κ (Managed α κ × Forest (Managed α κ)) := do
  let w ← object nc a
  if w.1.is_subwindow then throw .undefined else return w

/-- A `Subwindow`, in a vector or not. -/
def subwindow (nc a : α) : Method α κ (Managed α κ × Forest (Managed α κ)) := do
  let found ← lookup a
  if found.2.1.is_subwindow ∧ a ≠ nc then return found.2 else throw .undefined

def place (w : Managed α κ) (subwindows_ : Forest (Managed α κ)) : Method α κ Unit :=
  modify fun s => { s with live := s.live.append (.tree w subwindows_) }

def update (a : α) (t : Forest (Managed α κ)) : Method α κ Unit :=
  modify fun s => { s with live := s.live.graft (lies a) t }

/-! ### The constructors -/

/-- A registration, and what goes when it throws. -/
def register_or (a : α) (memory : Bool) (undo : Method α κ Unit) : Method α κ Unit :=
  try register_window_ a memory
  catch e => do
    undo
    throw e

/-- `Window(WINDOW*)`, with what the caller has got from curses. Only the singleton has
`stdscr`. -/
def of_handle (a : α) (win : Option (WINDOW κ)) (memory : Bool) : Method α κ Unit := do
  create win
  if win.map WINDOW.key ≠ some (← get).stdscr then register_window_ a memory
  place ⟨a, false, win, none⟩ .nil

/-- `Window(int, int, int, int)` -/
def of_size (a : α) (win : Option κ) (memory : Bool) : Method α κ Unit := do
  assert !(← get).is_exit_
  let win := win.map (WINDOW.mk · none)
  create win
  if win.isNone then throw .WindowInit
  else do
    register_or a memory (delwin win)
    place ⟨a, false, win, none⟩ .nil

/-- `dupwin`, where there is something to duplicate. A duplicate is no part of a window. -/
def dup (old : Option (WINDOW κ)) (win : Option κ) : Method α κ (Option (WINDOW κ)) :=
  match old with
  | none => return none
  | some k => do
    use k
    let win := win.map (WINDOW.mk · none)
    create win
    if win.isNone then throw .WindowInit else return win

/-- `Window(Window const &)`, which makes room for subwindows, but no subwindows. -/
def copy (nc a b : α) (reserved : Bool) (win : Option κ) (memory : Bool) : Method α κ Unit := do
  let cp ← window nc b
  assert cp.1.win_save_.isNone
  if reserved then do
    let win_ ← dup cp.1.win_ win
    register_or a memory (delwin win_)
    place ⟨a, false, win_, none⟩ .nil
  else throw .bad_alloc

/-- What the move constructor of a window does with what it has taken. No `try` is round its
registration: when that throws the vector is destroyed, and the curses window is not. -/
def take (a : α) (mv : Managed α κ) (subwindows_ : Forest (Managed α κ)) (memory : Bool) :
    Method α κ Unit := do
  register_or a memory (clear subwindows_)
  place { mv with address := a } subwindows_

/-- `Window(Window &&)` -/
def move (nc a b : α) (memory : Bool) : Method α κ Unit := do
  let mv ← window nc b
  update b (.tree (release mv.1) .nil)
  take a mv.1 mv.2 memory

/-- `Subwindow(Subwindow &&)`, called by the program. -/
def move_subwindow (nc a b : α) (memory : Bool) : Method α κ Unit := do
  let mv ← subwindow nc b
  update b (.tree (release mv.1) .nil)
  take a mv.1 mv.2 memory

/-! ### The members -/

/-- `~Window` -/
def delete (nc a : α) : Method α κ Unit := do
  let w ← object nc a
  unregister_window_ a
  let w ← destroy w.1 w.2
  clear w.2
  update a .nil

/-- `destroy`, called for a window. -/
def destroy_window (nc a : α) : Method α κ Unit := do
  let w ← window nc a
  let w ← destroy w.1 w.2
  update a (.tree w.1 w.2)

/-- `operator=(Window &&)`. The vector still has elements when the window held nothing. -/
def assign_move (nc a b : α) : Method α κ Unit := do
  if a = b then pure ()
  else do
    destroy_window nc a
    let mv ← window nc b
    update b (.tree (release mv.1) .nil)
    let w ← window nc a
    clear w.2
    update a (.tree { w.1 with win_ := mv.1.win_, win_save_ := mv.1.win_save_ } mv.2)

/-- `operator=(Window const &)` of the window at `a`, which makes a copy at `tmp` first. -/
def assign_copy (nc a b tmp : α) (reserved : Bool) (win : Option κ) (memory : Bool) :
    Method α κ Unit := do
  if a = b then pure ()
  else do
    let _ ← window nc a
    copy nc tmp b reserved win memory
    assign_move nc a tmp
    delete nc tmp

/-- `assign`, with what the caller has got from curses. -/
def assign (nc a : α) (new_win : Option (WINDOW κ)) : Method α κ Unit := do
  create new_win
  let w ← window nc a
  assert w.1.win_save_.isNone
  if w.1.win_.isSome then do
    let w ← destroy w.1 w.2
    update a (.tree { w.1 with win_ := new_win } w.2)
  else update a (.tree { w.1 with win_ := new_win } w.2)

/-! ### The subwindows -/

/-- The elements of a vector are moved to a new buffer, one after the other, each with whether
it can register there. What comes out is the new elements and the old ones, and whether all
could. The one that could not has lost its vector and its curses window. -/
def relocate : List (α × Bool) → Forest (Managed α κ) →
    Method α κ (Forest (Managed α κ) × Forest (Managed α κ) × Bool)
  | [], .nil => return (.nil, .nil, true)
  | (a, memory) :: places, .node elem subwindows_ rest =>
    if memory then do
      register_window_ a true
      let moved ← relocate places rest
      return (.node { elem with address := a } subwindows_ moved.1,
        .node (release elem) .nil moved.2.1, moved.2.2)
    else do
      clear subwindows_
      return (.nil, .node (release elem) .nil rest, false)
  | _, _ => throw .undefined

/-- `emplace_back` makes the new element, in a new buffer when the vector is full, and the others
are moved there. If one of them throws, those that have been moved are destroyed, and after them
the new one. -/
def emplace_back (w : Managed α κ) (subwindows_ : Forest (Managed α κ)) (elem : Managed α κ)
    (moved : Option (List (α × Bool))) (memory : Bool) : Method α κ Unit := do
  register_window_ elem.address memory
  match moved with
  | none => update w.address (.tree w (subwindows_.append (.tree elem .nil)))
  | some places => do
    let buffers ← relocate places subwindows_
    if buffers.2.2 then do
      clear buffers.2.1
      update w.address (.tree w (buffers.1.append (.tree elem .nil)))
    else do
      clear buffers.1
      clear (.tree elem .nil)
      update w.address (.tree w buffers.2.1)
      throw .bad_alloc

def add_subwindow (a fresh : α) (moved : Option (List (α × Bool))) (new_subw : Option κ)
    (inside memory : Bool) : Method α κ Nat := do
  let w ← lookup a
  match w.2.1.win_ with
  | none => throw .assertion
  | some k => do
    assert inside
    use k
    match new_subw.map (WINDOW.mk · (some k.key)) with
    | none => throw .WindowInit
    | some new_subw => do
      create (some new_subw)
      try emplace_back w.2.1 w.2.2 ⟨fresh, true, some new_subw, none⟩ moved memory
      catch e => do
        delwin (some new_subw)
        throw e
      return w.2.2.trees.length

/-- The asserts are those of `delete_subwindow` too. -/
def get_subwindow (a : α) (index : Nat) : Method α κ α := do
  let w ← lookup a
  assert w.2.1.win_.isSome
  match w.2.2.trees[index]? with
  | none => throw .assertion
  | some elem => do
    assert elem.1.win_.isSome
    return elem.1.address

/-- The element is destroyed, and an empty one is made in its place. There is room for its
pointer, since another one has just gone. -/
def delete_subwindow (a : α) (index : Nat) : Method α κ Unit := do
  let elem ← get_subwindow a index
  let w ← lookup elem
  unregister_window_ elem
  let w ← destroy w.2.1 w.2.2
  clear w.2
  register_window_ elem true
  update elem (.tree ⟨elem, true, none, none⟩ .nil)

/-! ### Ncurses mode -/

/-- `invalidate_for_exit_`, for one window. -/
def invalidate (w : Managed α κ) : Managed α κ := { w with win_ := none, win_save_ := w.win_ }

/-- `validate_for_resume_`, for one window. -/
def validate (w : Managed α κ) : Managed α κ := { w with win_ := w.win_save_, win_save_ := none }

/-- The member is called through each of the pointers, for the window and its subwindows. -/
def each (member : Managed α κ → Managed α κ) : List α → Method α κ Unit
  | [] => pure ()
  | a :: rest => do
    if (← get).live.any (lies a) then do
      modify fun s => { s with live := s.live.touch Managed.address member a }
      each member rest
    else throw .dangling

def exit_ncurses_mode (nc : α) : Method α κ Unit := do
  assert !(← get).is_exit_
  each invalidate ((← get).windows_ ++ [nc])
  modify fun s => { s with is_exit_ := true }

def resume_ncurses_mode (nc : α) : Method α κ Unit := do
  assert (← get).is_exit_
  each validate ((← get).windows_ ++ [nc])
  modify fun s => { s with is_exit_ := false }

/-! ## Runs -/

/-- A call, with where its windows are made, what curses makes for it or has made for the
caller, and whether there is memory. -/
inductive Op (α κ : Type)
  | of_handle (a : α) (win : Option (WINDOW κ)) (memory : Bool)
  | of_size (a : α) (win : Option κ) (memory : Bool)
  | copy (a b : α) (reserved : Bool) (win : Option κ) (memory : Bool)
  | move (a b : α) (memory : Bool)
  | move_subwindow (a b : α) (memory : Bool)
  | delete (a : α)
  | assign_move (a b : α)
  | assign_copy (a b tmp : α) (reserved : Bool) (win : Option κ) (memory : Bool)
  | assign (a : α) (new_win : Option (WINDOW κ))
  | destroy (a : α)
  | add_subwindow (a fresh : α) (moved : Option (List (α × Bool))) (new_subw : Option κ)
      (inside memory : Bool)
  | delete_subwindow (a : α) (index : Nat)
  | exit_ncurses_mode
  | resume_ncurses_mode
deriving DecidableEq, Repr

namespace Op

/-- Where windows are made. -/
def places : Op α κ → List α
  | .of_handle a _ _ | .of_size a _ _ | .copy a _ _ _ _ | .move a _ _ | .move_subwindow a _ _
  | .assign_copy _ _ a _ _ _ => [a]
  | .add_subwindow _ a moved _ _ _ => a :: (moved.getD []).map Prod.fst
  | _ => []

/-- What curses makes. -/
def created : Op α κ → Option κ
  | .of_handle _ win _ | .assign _ win => win.map WINDOW.key
  | .of_size _ win _ | .copy _ _ _ win _ | .assign_copy _ _ _ _ win _
  | .add_subwindow _ _ _ win _ _ => win
  | _ => none

/-- What the caller has got from curses. -/
def given : Op α κ → Option (WINDOW κ)
  | .of_handle _ win _ | .assign _ win => win
  | _ => none

def call (nc : α) : Op α κ → Method α κ Unit
  | .of_handle a win memory => Window.of_handle a win memory
  | .of_size a win memory => Window.of_size a win memory
  | .copy a b reserved win memory => Window.copy nc a b reserved win memory
  | .move a b memory => Window.move nc a b memory
  | .move_subwindow a b memory => Window.move_subwindow nc a b memory
  | .delete a => Window.delete nc a
  | .assign_move a b => Window.assign_move nc a b
  | .assign_copy a b tmp reserved win memory => Window.assign_copy nc a b tmp reserved win memory
  | .assign a new_win => Window.assign nc a new_win
  | .destroy a => destroy_window nc a
  | .add_subwindow a fresh moved new_subw inside memory => do
    let _ ← Window.add_subwindow a fresh moved new_subw inside memory
  | .delete_subwindow a index => Window.delete_subwindow a index
  | .exit_ncurses_mode => Window.exit_ncurses_mode nc
  | .resume_ncurses_mode => Window.resume_ncurses_mode nc

/-- A window is made where none lies. curses makes one that it does not have, and one that the
caller has got from it may be a part of one that it has. -/
def Fresh (op : Op α κ) (s : Screen α κ) : Prop :=
  op.places.Nodup ∧ (∀ a ∈ op.places, s.live.any (lies a) = false) ∧
    (∀ k ∈ op.created, k ∉ s.keys ∧ k ≠ s.stdscr) ∧
    ∀ win ∈ op.given, ∀ k ∈ win.part_of, k ∈ s.keys

instance (op : Op α κ) (s : Screen α κ) : Decidable (op.Fresh s) :=
  inferInstanceAs (Decidable (_ ∧ _ ∧ (∀ k ∈ op.created, k ∉ s.keys ∧ k ≠ s.stdscr) ∧
    ∀ win ∈ op.given, ∀ k ∈ win.part_of, k ∈ s.keys))

end Op

/-- The singleton with `stdscr`, and no other window. -/
def start (nc : α) (stdscr : κ) : Screen α κ :=
  ⟨.tree ⟨nc, false, some ⟨stdscr, none⟩, none⟩ .nil, [], false, {⟨stdscr, none⟩}, stdscr, []⟩

omit [DecidableEq α] in
/-- The constructor of the singleton goes through that of a window, with what `initscr` gives. -/
theorem start_eq (nc : α) (stdscr : κ) (memory : Bool) :
    of_handle nc (some ⟨stdscr, none⟩) memory ⟨.nil, [], false, 0, stdscr, []⟩ =
      .ok () (start nc stdscr) := by
  have hnone : ¬(some ⟨stdscr, none⟩ : Option (WINDOW κ)).map WINDOW.key ≠ some stdscr := by simp
  unfold of_handle create
  rw [bind_ok (modify_eq _ _), get_bind, if_neg hnone]
  rfl

/-- The state after a call that returns, or that throws what can be caught. -/
def step (nc : α) (s : Screen α κ) (op : Op α κ) : Option (Screen α κ) :=
  if op.Fresh s then
    match op.call nc s with
    | .ok _ t | .error .WindowInit t | .error .bad_alloc t => some t
    | .error _ _ => none
  else none

end Window

end nccpp
