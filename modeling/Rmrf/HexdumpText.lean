-- The text of a dump as a function of the cells of its lines: what the loops write, and
-- how wide it is. The cells of a line are its data in order.
import Rmrf.Hexdump

open machine ostream

namespace rmrf.utils

/-! ## The columns of a line -/

/-- What the hex column shows for a cell. -/
def hexOf (upper : Bool) : HexdumpData → List Char
  | .byte hd_data => pad 2 '0' (numeral 16 upper hd_data.toNat)
  | .non_existent => [' ', ' ']
  | .unknown => ['?', '?']

/-- What the text column shows for a cell. -/
def textOf : HexdumpData → Char
  | .byte hd_data => textual hd_data
  | .non_existent => ' '
  | .unknown => '?'

/-- The space before cell `i`. -/
def space (o : Layout) (i : Nat) : List Char :=
  if i = 0 then []
  else (if i % o.bytes_per_group = 0 then List.replicate o.space_per_group ' ' else []) ++
    List.replicate o.space_per_byte ' '

/-- The hex column from cell `i` on. -/
def column (o : Layout) : Nat → List HexdumpData → List Char
  | _, [] => []
  | i, c :: cells => space o i ++ hexOf o.display_uppercase c ++ column o (i + 1) cells

/-- The cells up to the last one that is present or unknown. -/
def shown (cells : List HexdumpData) : List HexdumpData := cells.rdropWhile (· = .non_existent)

/-- The width of the first `k` cells of the hex column. -/
def width (o : Layout) (k : Nat) : Nat :=
  if k = 0 then 0
  else 2 * k + (k - 1) * o.space_per_byte + (k - 1) / o.bytes_per_group * o.space_per_group

/-- The group size is no divisor, or it is not zero. -/
def Grouped (o : Layout) : Prop := o.space_per_group = 0 ∨ 0 < o.bytes_per_group

theorem column_append (o : Layout) (i : Nat) (u v : List HexdumpData) :
    column o i (u ++ v) = column o i u ++ column o (i + u.length) v := by
  induction u generalizing i with
  | nil => rfl
  | cons c u ih =>
    rw [List.cons_append, column, ih, column, List.length_cons, Nat.add_right_comm]
    simp [Nat.add_assoc]

theorem column_snoc (o : Layout) (u : List HexdumpData) (c : HexdumpData) :
    column o 0 (u ++ [c]) = column o 0 u ++ space o u.length ++ hexOf o.display_uppercase c := by
  rw [column_append, Nat.zero_add, column, column, List.append_nil, List.append_assoc]

theorem shown_snoc (u : List HexdumpData) (c : HexdumpData) :
    shown (u ++ [c]) = if c = .non_existent then shown u else u ++ [c] := by
  unfold shown
  rw [List.rdropWhile_concat]
  simp

theorem shown_isPrefix (cells : List HexdumpData) : shown cells <+: cells :=
  List.rdropWhile_prefix _ cells

/-- Two digits are enough for a byte. -/
theorem length_digits_byte {n : Nat} (h : n < 256) : (digits 16 n).length ≤ 2 := by
  have htable : ∀ n < 256, (digits 16 n).length ≤ 2 := by decide +kernel
  exact htable n h

@[simp] theorem length_hexOf (upper : Bool) (c : HexdumpData) : (hexOf upper c).length = 2 := by
  cases c with
  | byte hd_data =>
    have hlen := length_digits_byte hd_data.toNat_lt
    rw [hexOf, length_pad, length_numeral]
    omega
  | non_existent => rfl
  | unknown => rfl

theorem width_succ {o : Layout} (hg : Grouped o) (k : Nat) :
    width o (k + 1) = width o k + (space o k).length + 2 := by
  cases k with
  | zero => simp [width, space]
  | succ j =>
    have hgroups : (j + 1) / o.bytes_per_group * o.space_per_group =
        j / o.bytes_per_group * o.space_per_group +
          if (j + 1) % o.bytes_per_group = 0 then o.space_per_group else 0 := by
      rcases hg with hzero | hpos
      · simp [hzero]
      · rw [Nat.succ_div, Nat.add_mul]
        simp only [Nat.dvd_iff_mod_eq_zero]
        split_ifs <;> simp
    have hspace : (space o (j + 1)).length =
        (if (j + 1) % o.bytes_per_group = 0 then o.space_per_group else 0) +
          o.space_per_byte := by
      unfold space
      rw [if_neg (Nat.succ_ne_zero j)]
      split_ifs <;> simp
    unfold width
    rw [if_neg (Nat.succ_ne_zero _), if_neg (Nat.succ_ne_zero _), hspace, Nat.add_sub_cancel,
      Nat.add_sub_cancel, hgroups, Nat.add_mul]
    omega

theorem length_column {o : Layout} (hg : Grouped o) (cells : List HexdumpData) :
    (column o 0 cells).length = width o cells.length := by
  induction cells using List.reverseRecOn with
  | nil => rfl
  | append_singleton u c ih =>
    rw [column_snoc, List.length_append, List.length_append, ih, length_hexOf,
      List.length_append, List.length_singleton, width_succ hg]

theorem width_strictMono {o : Layout} (hg : Grouped o) : StrictMono (width o) := by
  apply strictMono_nat_of_lt_succ
  intro k
  rw [width_succ hg]
  omega

theorem two_mul_le_width (o : Layout) (k : Nat) : 2 * k ≤ width o k := by
  unfold width
  split_ifs <;> omega

/-! ## The strings of a line -/

/-- The hex column is a string. -/
def Sized (max_size : Nat) (o : Layout) : Prop := width o o.bytes_per_line ≤ max_size

instance (max_size : Nat) (o : Layout) : Decidable (Sized max_size o) :=
  inferInstanceAs (Decidable (_ ≤ _))

/-- The spaces before cell `i` are strings. -/
def Spaced (max_size : Nat) (o : Layout) (i : Nat) : Prop :=
  i ≠ 0 → (i % o.bytes_per_group = 0 → o.space_per_group ≤ max_size) ∧
    o.space_per_byte ≤ max_size

theorem Sized.spaced {max_size : Nat} {o : Layout} (h : Sized max_size o) (hg : Grouped o)
    {i : Nat} (hi : i < o.bytes_per_line) : Spaced max_size o i := by
  intro hpos
  have hwidth : width o (i + 1) ≤ max_size :=
    Nat.le_trans ((width_strictMono hg).monotone hi) h
  have hspace : (space o i).length ≤ max_size := by
    rw [width_succ hg] at hwidth
    omega
  unfold space at hspace
  rw [if_neg hpos, List.length_append, List.length_replicate] at hspace
  constructor
  · intro hmod
    rw [if_pos hmod, List.length_replicate] at hspace
    omega
  · omega

theorem Sized.line {max_size : Nat} {o : Layout} (h : Sized max_size o) :
    o.bytes_per_line ≤ max_size := by
  have hwidth := two_mul_le_width o o.bytes_per_line
  unfold Sized at h
  omega

/-! ## The loop over a line -/

/-- The row after the cells `u`, with `n` cells to go. -/
structure Shows (o : Layout) (u : List HexdumpData) (n : Nat) (row : Row) : Prop where
  text : row.display_hex_data.text = column o 0 u
  width : row.display_hex_data.width = 0
  uppercase : row.display_hex_data.uppercase = true → o.display_uppercase = true
  textual : row.display_textual_data = u.map textOf ++ List.replicate n ' '
  last : row.display_textual_last = (shown u).length

theorem shows_empty (o : Layout) :
    Shows o [] o.bytes_per_line ⟨Ostream.init, List.replicate o.bytes_per_line ' ', 0⟩ where
  text := rfl
  width := rfl
  uppercase h := by cases h
  textual := rfl
  last := rfl

/-- A string of spaces goes to the stream when it is one. -/
theorem map_put_filled (max_size n : Nat) {s : Ostream} (hw : s.width = 0) :
    (filled max_size n ' ').map s.put =
      if n ≤ max_size then .ok { s with text := s.text ++ List.replicate n ' ' }
      else .error .length_error := by
  unfold filled
  split_ifs
  · exact congrArg Except.ok (Ostream.put_of_width hw _)
  · rfl

theorem group_space.spec {max_size : Nat} {o : Layout} (hg : Grouped o) {idx : Nat}
    (hidx : idx ≠ 0) {s : Ostream} (hw : s.width = 0) :
    group_space max_size o idx s =
      if idx % o.bytes_per_group = 0 → o.space_per_group ≤ max_size then
        .ok { s with text := s.text ++
          if idx % o.bytes_per_group = 0 then List.replicate o.space_per_group ' ' else [] }
      else .error .length_error := by
  unfold group_space
  by_cases hspg : o.space_per_group = 0
  · simp [hspg]
  · have hbpg : o.bytes_per_group ≠ 0 := by
      rcases hg with h | h
      · exact absurd h hspg
      · omega
    rw [if_pos ⟨hspg, hidx⟩, if_neg hbpg]
    by_cases hmod : idx % o.bytes_per_group = 0
    · simp only [hmod, if_true, true_implies, map_put_filled max_size _ hw]
    · simp [hmod]

theorem byte_space.spec {max_size : Nat} (o : Layout) {idx : Nat} (hidx : idx ≠ 0) {s : Ostream}
    (hw : s.width = 0) :
    byte_space max_size o idx s =
      if o.space_per_byte ≤ max_size then
        .ok { s with text := s.text ++ List.replicate o.space_per_byte ' ' }
      else .error .length_error := by
  unfold byte_space
  by_cases hspb : o.space_per_byte = 0
  · simp [hspb]
  · rw [if_pos ⟨hspb, hidx⟩, map_put_filled max_size _ hw]

/-- The two spaces before a cell, when they are strings. -/
theorem spaces_eq {max_size : Nat} {o : Layout} (hg : Grouped o) {idx : Nat} {s : Ostream}
    (hw : s.width = 0) (hspaced : Spaced max_size o idx) :
    (group_space max_size o idx s).bind (byte_space max_size o idx) =
      .ok { s with text := s.text ++ space o idx } := by
  by_cases hidx : idx = 0
  · simp [hidx, group_space, byte_space, space, Except.bind]
  · obtain ⟨hgroup, hbyte⟩ := hspaced hidx
    rw [group_space.spec hg hidx hw, if_pos hgroup]
    show byte_space max_size o idx _ = _
    rw [byte_space.spec o hidx, if_pos hbyte, List.append_assoc, space, if_neg hidx]
    exact hw

/-- A space that is no string stops the line. -/
theorem spaces_of_not_spaced {max_size : Nat} {o : Layout} (hg : Grouped o) {idx : Nat}
    {s : Ostream} (hw : s.width = 0) (hspaced : ¬ Spaced max_size o idx) :
    (group_space max_size o idx s).bind (byte_space max_size o idx) = .error .length_error := by
  obtain ⟨hidx, hnot⟩ := not_forall.mp hspaced
  rw [group_space.spec hg hidx hw]
  by_cases hgroup : idx % o.bytes_per_group = 0 → o.space_per_group ≤ max_size
  · rw [if_pos hgroup]
    show byte_space max_size o idx _ = _
    rw [byte_space.spec o hidx, if_neg fun hbyte => hnot ⟨hgroup, hbyte⟩]
    exact hw
  · rw [if_neg hgroup]
    rfl

theorem set_textual (u : List HexdumpData) (n : Nat) (c : HexdumpData) :
    (u.map textOf ++ List.replicate (n + 1) ' ').set u.length (textOf c) =
      (u ++ [c]).map textOf ++ List.replicate n ' ' := by
  rw [List.set_append_right _ _ (by simp)]
  simp [List.replicate_succ]

/-- The two characters of a cell that is no byte. -/
theorem Shows.put {o : Layout} {u : List HexdumpData} {n : Nat} {row : Row}
    (h : Shows o u (n + 1) row) {c : HexdumpData} {t : List Char}
    (ht : hexOf o.display_uppercase c = t) {last : Nat} (hlast : last = (shown (u ++ [c])).length) :
    Shows o (u ++ [c]) n
      { display_hex_data := { row.display_hex_data with
          text := row.display_hex_data.text ++ space o u.length }.put t
        display_textual_data := row.display_textual_data.set u.length (textOf c)
        display_textual_last := last } := by
  refine ⟨?_, rfl, h.uppercase, ?_, hlast⟩
  · show row.display_hex_data.text ++ space o u.length ++
      pad row.display_hex_data.width row.display_hex_data.fill t = _
    rw [h.width, pad_zero, column_snoc, h.text, ht]
  · rw [h.textual, set_textual]

theorem Shows.step {o : Layout} {u : List HexdumpData} {n : Nat} {row : Row}
    (h : Shows o u (n + 1) row) (c : HexdumpData) :
    Shows o (u ++ [c]) n (show_data o u.length c { row with
      display_hex_data := { row.display_hex_data with
        text := row.display_hex_data.text ++ space o u.length } }) := by
  cases c with
  | non_existent =>
    apply h.put rfl
    rw [shown_snoc, if_pos rfl]
    exact h.last
  | unknown =>
    apply h.put rfl
    rw [shown_snoc, if_neg (by simp), List.length_append, List.length_singleton]
  | byte hd_data =>
    -- the column's own stream is in upper case only when the dump is
    obtain ⟨s, hs⟩ : ∃ s : Ostream, s = { row.display_hex_data with
      text := row.display_hex_data.text ++ space o u.length } := ⟨_, rfl⟩
    have hcase : (if o.display_uppercase then s.set_uppercase else s) =
        { s with uppercase := o.display_uppercase } := by
      cases hupper : o.display_uppercase with
      | true => rfl
      | false =>
        have hoff : s.uppercase = false := by
          rw [← Bool.not_eq_true, hs]
          intro hon
          rw [h.uppercase hon] at hupper
          cases hupper
        rw [if_neg (by decide), ← hoff]
    unfold show_data
    simp only [← hs, hcase]
    refine ⟨?_, rfl, id, ?_, ?_⟩
    · rw [column_snoc, ← h.text, hs]
      rfl
    · rw [h.textual]
      exact set_textual u n (.byte hd_data)
    · rw [shown_snoc, if_neg (by simp), List.length_append, List.length_singleton]

/-- The cells of the line at `offset`. -/
def cellsAt (o : Layout) (get_data : HexdumpGetdata) (offset : Int) : List HexdumpData :=
  (List.range o.bytes_per_line).map fun idx : Nat => get_data (toOff (offset + idx))

theorem length_cellsAt (o : Layout) (get_data : HexdumpGetdata) (offset : Int) :
    (cellsAt o get_data offset).length = o.bytes_per_line := by
  rw [cellsAt, List.length_map, List.length_range]

/-- The values from place `k` on begin with the one at `k`. -/
theorem map_range_succ {α : Type*} (f : Nat → α) (k n : Nat) :
    ((List.range (n + 1)).map fun j => f (k + j)) =
      f k :: (List.range n).map fun j => f (k + 1 + j) := by
  rw [List.range_succ_eq_map, List.map_cons, List.map_map]
  congr 2
  funext j
  rw [Function.comp_apply, Nat.succ_eq_add_one, Nat.add_comm j 1, Nat.add_assoc]

/-- One cell of the line, when its spaces are strings. -/
theorem row_loop_succ {max_size : Nat} {o : Layout} (get_data : HexdumpGetdata) (offset : Int)
    (n idx : Nat) (row : Row) :
    row_loop max_size o get_data offset (n + 1) idx row =
      ((group_space max_size o idx row.display_hex_data).bind (byte_space max_size o idx)).bind
        fun s => row_loop max_size o get_data offset n (idx + 1)
          (show_data o idx (get_data (toOff (offset + toOff idx)))
            { row with display_hex_data := s }) := by
  rw [row_loop]
  cases group_space max_size o idx row.display_hex_data <;> rfl

/-- The loop shows the cells, or it stops at a space that is no string. -/
theorem row_loop.spec {max_size : Nat} {o : Layout} (hg : Grouped o) (get_data : HexdumpGetdata)
    (offset : Int) (n : Nat) {u : List HexdumpData} {row : Row} (h : Shows o u n row) :
    (∃ row', row_loop max_size o get_data offset n u.length row = .ok row' ∧
      Shows o (u ++ (List.range n).map fun i => get_data (toOff (offset + (u.length + i : Nat))))
        0 row') ∨
    (row_loop max_size o get_data offset n u.length row = .error .length_error ∧
      ∃ i < u.length + n, ¬ Spaced max_size o i) := by
  induction n generalizing u row with
  | zero => exact .inl ⟨row, rfl, by simpa using h⟩
  | succ n ih =>
    rw [row_loop_succ]
    by_cases hspaced : Spaced max_size o u.length
    · obtain ⟨c, hc⟩ : ∃ c, c = get_data (toOff (offset + toOff u.length)) := ⟨_, rfl⟩
      have hrest := ih (h.step c)
      rw [List.length_append, List.length_singleton, List.append_assoc] at hrest
      rw [spaces_eq hg h.width hspaced, ← hc,
        map_range_succ (fun i : Nat => get_data (toOff (offset + i))), ← toOff_add_toOff, ← hc]
      refine hrest.imp_right ?_
      rintro ⟨herror, i, hi, hnot⟩
      exact ⟨herror, i, by omega, hnot⟩
    · right
      rw [spaces_of_not_spaced hg h.width hspaced]
      exact ⟨rfl, u.length, by omega, hspaced⟩

/-- A line is put from the row of its cells, or one of its strings is too long. -/
theorem put_line_row {max_size : Nat} {o : Layout} (hg : Grouped o) (get_data : HexdumpGetdata)
    (offset : Int) (os : Ostream) :
    (∃ row, Shows o (cellsAt o get_data offset) 0 row ∧
      put_line max_size o get_data offset os = put_row max_size o row os) ∨
    (¬ Sized max_size o ∧ put_line max_size o get_data offset os = .error .length_error) := by
  by_cases hline : o.bytes_per_line ≤ max_size
  · have hput : put_line max_size o get_data offset os =
        (row_loop max_size o get_data offset o.bytes_per_line 0
          ⟨Ostream.init, List.replicate o.bytes_per_line ' ', 0⟩).bind
            fun row => put_row max_size o row os := by
      unfold put_line Row.empty filled
      rw [if_pos hline]
      rfl
    have hloop := @row_loop.spec max_size o hg get_data offset _ [] _ (shows_empty o)
    rcases hloop with ⟨row, hrow, hshows⟩ | ⟨herror, i, hi, hnot⟩
    · simp only [List.nil_append, List.length_nil, Nat.zero_add] at hrow hshows
      refine .inl ⟨row, hshows, ?_⟩
      rw [hput, hrow]
      rfl
    · rw [List.length_nil, Nat.zero_add] at hi
      refine .inr ⟨fun hsize => hnot (hsize.spaced hg hi), ?_⟩
      rw [List.length_nil] at herror
      rw [hput, herror]
      rfl
  · refine .inr ⟨fun hsize => hline hsize.line, ?_⟩
    unfold put_line Row.empty filled
    rw [if_neg hline]
    rfl

/-! ## One line of text -/

/-- The place of the cut, as the code computes it. -/
def cutAt (o : Layout) (last : Nat) : Nat :=
  toSize (last * 2 + toSize (last - 1) * o.space_per_byte +
    toSize (last - 1) / o.bytes_per_group * o.space_per_group : Nat)

/-- What the code writes behind the label. -/
def lineEnd (o : Layout) (cells : List HexdumpData) : List Char :=
  if o.display_textual then column o 0 cells ++ [' ', ':', ' '] ++ (shown cells).map textOf
  else (column o 0 cells).take (cutAt o (shown cells).length)

def labelText (upper : Bool) (n : Nat) : List Char :=
  pad 8 '0' (numeral 16 upper n) ++ [' ', ':', ' ']

/-- The hex column of a line is a string when it is not too long. -/
theorem str_row {max_size : Nat} {o : Layout} (hg : Grouped o) {cells : List HexdumpData}
    {row : Row} (h : Shows o cells 0 row) (hlen : cells.length = o.bytes_per_line) :
    str max_size row.display_hex_data =
      if Sized max_size o then .ok (column o 0 cells) else .error .length_error := by
  unfold str
  rw [h.text, length_column hg, hlen]
  rfl

theorem put_row.spec {max_size : Nat} {o : Layout} {cells : List HexdumpData} {row : Row}
    {os : Ostream} (h : Shows o cells 0 row)
    (hstr : str max_size row.display_hex_data = .ok (column o 0 cells))
    (hdiv : o.display_textual = true ∨ 0 < o.bytes_per_group) (hw : os.width = 0) :
    put_row max_size o row os =
      .ok { os with text := os.text ++ lineEnd o cells ++ ['\n'] } := by
  have htake : row.display_textual_data.take row.display_textual_last =
      (shown cells).map textOf := by
    have hprefix := List.prefix_iff_eq_take.mp (shown_isPrefix cells)
    rw [h.textual, h.last, List.replicate_zero, List.append_nil, ← List.map_take, ← hprefix]
  unfold put_row lineEnd
  simp only [hstr, htake, bind, Except.bind, pure, Except.pure, Ostream.put_put hw]
  by_cases htext : o.display_textual = true
  · rw [if_pos htext, if_pos htext, Ostream.put_of_width hw, List.append_assoc os.text]
  · have hpos := hdiv.resolve_left htext
    have hcut : cut o row.display_textual_last = .ok (cutAt o (shown cells).length) := by
      rw [cut, if_neg (by omega), Nat.max_eq_right (Nat.zero_le _), h.last]
      rfl
    rw [if_neg htext, if_neg htext, hcut]
    show Except.ok (os.put _) = _
    rw [Ostream.put_of_width hw, List.append_assoc os.text]

/-- A column that is no string stops the line. -/
theorem put_line_of_not_sized {max_size : Nat} {o : Layout} (hg : Grouped o)
    (hsize : ¬ Sized max_size o) (get_data : HexdumpGetdata) (offset : Int) (os : Ostream) :
    put_line max_size o get_data offset os = .error .length_error := by
  rcases put_line_row hg get_data offset os with ⟨row, hshows, hput⟩ | ⟨-, herror⟩
  · have hstr := @str_row max_size _ hg _ _ hshows (length_cellsAt o get_data offset)
    rw [if_neg hsize] at hstr
    rw [hput, put_row, hstr]
    rfl
  · exact herror

/-- The row of a line whose strings are not too long. -/
theorem Sized.put_line_row {max_size : Nat} {o : Layout} (h : Sized max_size o) (hg : Grouped o)
    (get_data : HexdumpGetdata) (offset : Int) (os : Ostream) :
    ∃ row, Shows o (cellsAt o get_data offset) 0 row ∧
      put_line max_size o get_data offset os = put_row max_size o row os ∧
      str max_size row.display_hex_data = .ok (column o 0 (cellsAt o get_data offset)) := by
  rcases utils.put_line_row hg get_data offset os with ⟨row, hshows, hput⟩ | ⟨hnot, -⟩
  · have hstr := @str_row max_size _ hg _ _ hshows (length_cellsAt o get_data offset)
    rw [if_pos h] at hstr
    exact ⟨row, hshows, hput, hstr⟩
  · exact absurd h hnot

/-- The stream once a text with a label on it is written. -/
def after (o : Layout) (os : Ostream) (text : List Char) : Ostream where
  text := os.text ++ text
  base := 16
  uppercase := os.uppercase || o.display_uppercase
  fill := '0'
  width := 0

theorem after_after (o : Layout) (os : Ostream) (t u : List Char) :
    after o (after o os t) u = after o os (t ++ u) := by
  unfold after
  rw [List.append_assoc, Bool.or_assoc, Bool.or_self]

theorem put_label.spec (o : Layout) (offset_line : Int) (os : Ostream) :
    put_label o offset_line os =
      after o os (labelText (os.uppercase || o.display_uppercase) (toSize offset_line)) := by
  unfold put_label
  cases hupper : o.display_uppercase <;>
    simp [Ostream.set_uppercase, Ostream.setw, Ostream.setfill, Ostream.hex, Ostream.put_number,
      Ostream.put, labelText, after, hupper]

theorem put_line.spec {max_size : Nat} {o : Layout} (hg : Grouped o) (hsize : Sized max_size o)
    (hdiv : o.display_textual = true ∨ 0 < o.bytes_per_group) (get_data : HexdumpGetdata)
    (offset : Int) {os : Ostream} (hw : os.width = 0) :
    put_line max_size o get_data offset os =
      .ok { os with text := os.text ++ lineEnd o (cellsAt o get_data offset) ++ ['\n'] } := by
  obtain ⟨row, hshows, hput, hstr⟩ := hsize.put_line_row hg get_data offset os
  rw [hput]
  exact put_row.spec hshows hstr hdiv hw

/-! ## The dump -/

/-- The number on the label of line `k`. -/
def labelAt (o : Layout) (k : Nat) : Nat :=
  toSize (o.voffset_at_zero + o.offset_start + k * o.bytes_per_line)

/-- The lines from line `k` on, from what stands behind their labels. -/
def render (o : Layout) (upper : Bool) : Nat → List (List Char) → List Char
  | _, [] => []
  | k, e :: ends => labelText upper (labelAt o k) ++ e ++ ['\n'] ++ render o upper (k + 1) ends

/-- The number of lines. -/
def lineCount (o : Layout) : Nat :=
  if o.offset_start ≤ o.offset_end then
    ((o.offset_end - o.offset_start) / o.bytes_per_line + 1).toNat
  else 0

/-- The cells of line `k`. -/
def lineCells (o : Layout) (get_data : HexdumpGetdata) (k : Nat) : List HexdumpData :=
  (List.range o.bytes_per_line).map fun idx : Nat =>
    get_data (o.offset_start + (k * o.bytes_per_line + idx : Nat))

/-- The cells of all lines. -/
def dumpCells (o : Layout) (get_data : HexdumpGetdata) : List (List HexdumpData) :=
  (List.range (lineCount o)).map (lineCells o get_data)

/-- The text of a dump. -/
def dumpText (o : Layout) (upper : Bool) (get_data : HexdumpGetdata) : List Char :=
  render o upper 0 ((dumpCells o get_data).map (lineEnd o))

/-- The sizes are not zero, and every offset of the lines is an `off_t`. -/
structure Fits (o : Layout) : Prop where
  line : 1 ≤ o.bytes_per_line
  group : 1 ≤ o.bytes_per_group
  low : -2 ^ 63 ≤ o.offset_start
  high : o.offset_end + o.bytes_per_line < 2 ^ 63

instance (o : Layout) : Decidable (Fits o) :=
  decidable_of_iff (1 ≤ o.bytes_per_line ∧ 1 ≤ o.bytes_per_group ∧ -2 ^ 63 ≤ o.offset_start ∧
      o.offset_end + o.bytes_per_line < 2 ^ 63)
    ⟨fun h => ⟨h.1, h.2.1, h.2.2.1, h.2.2.2⟩, fun h => ⟨h.line, h.group, h.low, h.high⟩⟩

/-- The stream after `m` lines. -/
def wrote (o : Layout) (m : Nat) (os : Ostream) (text : List Char) : Ostream :=
  if m = 0 then os else after o os text

theorem lt_lineCount_iff {o : Layout} (h : Fits o) (k : Nat) :
    k < lineCount o ↔ o.offset_start + (k * o.bytes_per_line : Nat) ≤ o.offset_end := by
  have hline : (0 : Int) < o.bytes_per_line := by
    have hone := h.line
    omega
  have hmul := Int.le_ediv_iff_mul_le (a := k) (b := o.offset_end - o.offset_start) hline
  unfold lineCount
  rw [Nat.cast_mul]
  split_ifs with hle
  · have hpos := Int.ediv_nonneg (Int.sub_nonneg_of_le hle) (Int.le_of_lt hline)
    omega
  · have hnn : 0 ≤ (k : Int) * o.bytes_per_line := Int.mul_nonneg (by omega) (Int.le_of_lt hline)
    omega

theorem cellsAt_line {o : Layout} (h : Fits o) (get_data : HexdumpGetdata) {k : Nat}
    (hk : k < lineCount o) :
    cellsAt o get_data (o.offset_start + (k * o.bytes_per_line : Nat)) =
      lineCells o get_data k := by
  have hle := (lt_lineCount_iff h k).mp hk
  apply List.map_congr_left
  intro idx hidx
  have hlt := List.mem_range.mp hidx
  have hlow := h.low
  have hhigh := h.high
  rw [toOff_of_range (by omega) (by omega), Nat.cast_add, Int.add_assoc]

/-- One line, label and all. -/
theorem put_line_put_label {max_size : Nat} {o : Layout} (h : Fits o) (hsize : Sized max_size o)
    (get_data : HexdumpGetdata) {k : Nat} (hk : k < lineCount o) (os : Ostream) :
    put_line max_size o get_data (o.offset_start + (k * o.bytes_per_line : Nat))
        (put_label o (toOff (o.voffset_at_zero + o.offset_start + k * o.bytes_per_line)) os) =
      .ok (after o os (labelText (os.uppercase || o.display_uppercase) (labelAt o k) ++
        lineEnd o (lineCells o get_data k) ++ ['\n'])) := by
  rw [put_label.spec, toSize_toOff,
    put_line.spec (.inr h.group) hsize (.inr h.group) get_data _ rfl, cellsAt_line h get_data hk]
  unfold after labelAt
  simp only [List.append_assoc]

theorem next_offset {o : Layout} (h : Fits o) {k : Nat} (hk : k < lineCount o) :
    toOff (o.offset_start + (k * o.bytes_per_line : Nat) + toOff o.bytes_per_line) =
      o.offset_start + ((k + 1) * o.bytes_per_line : Nat) := by
  have hle := (lt_lineCount_iff h k).mp hk
  have hlow := h.low
  have hhigh := h.high
  rw [toOff_add_toOff, toOff_of_range (by omega) (by omega), Nat.add_mul]
  omega

theorem next_label (o : Layout) (k : Nat) :
    toOff (toOff (o.voffset_at_zero + o.offset_start + k * o.bytes_per_line) +
        toOff o.bytes_per_line) =
      toOff (o.voffset_at_zero + o.offset_start + (k + 1 : Nat) * o.bytes_per_line) := by
  rw [toOff_add_toOff, Int.add_comm, toOff_add_toOff]
  congr 1
  rw [Nat.cast_add, Int.add_mul]
  omega

/-- With enough turns the loop writes its lines and returns. -/
theorem hexdump_loop.spec {max_size : Nat} {o : Layout} (h : Fits o)
    (hsize : 0 < lineCount o → Sized max_size o) (get_data : HexdumpGetdata) (m k : Nat)
    (hk : k + m = lineCount o) (os : Ostream) {fuel : Nat} (hfuel : m < fuel) :
    hexdump_loop max_size o get_data fuel (o.offset_start + (k * o.bytes_per_line : Nat))
        (toOff (o.voffset_at_zero + o.offset_start + k * o.bytes_per_line)) os =
      .returned (wrote o m os (render o (os.uppercase || o.display_uppercase) k
        ((List.range m).map fun j => lineEnd o (lineCells o get_data (k + j))))) := by
  induction m generalizing k os fuel with
  | zero =>
    obtain ⟨fuel, rfl⟩ := Nat.exists_eq_add_of_lt hfuel
    have hend := (lt_lineCount_iff h k).not.mp (by omega)
    rw [hexdump_loop, if_neg hend]
    rfl
  | succ m ih =>
    obtain ⟨fuel, rfl⟩ := Nat.exists_eq_succ_of_ne_zero (Nat.ne_of_gt (Nat.zero_lt_of_lt hfuel))
    have hlt : k < lineCount o := by omega
    have hends := map_range_succ (fun j => lineEnd o (lineCells o get_data j)) k m
    rw [hexdump_loop, if_pos ((lt_lineCount_iff h k).mp hlt)]
    simp only [put_line_put_label h (hsize (by omega)) get_data hlt os]
    rw [next_offset h hlt, next_label, ih (k + 1) (by omega) _ (by omega), hends]
    unfold wrote
    rw [if_neg (Nat.succ_ne_zero m), after_after]
    split_ifs with hm
    · rw [hm]
      simp [render]
    · rw [render]
      simp [after]

theorem hexdump_to_stream.spec {max_size : Nat} {o : Layout} (h : Fits o)
    (hsize : 0 < lineCount o → Sized max_size o) (get_data : HexdumpGetdata) (os : Ostream)
    {fuel : Nat} (hfuel : lineCount o < fuel) :
    hexdump_to_stream max_size fuel os o get_data =
      .returned (wrote o (lineCount o) os
        (dumpText o (os.uppercase || o.display_uppercase) get_data)) := by
  have hloop := hexdump_loop.spec h hsize get_data (lineCount o) 0 (Nat.zero_add _) os hfuel
  simp only [Nat.zero_mul, Nat.cast_zero, Int.zero_mul, Int.add_zero, Nat.zero_add] at hloop
  rw [hexdump_to_stream, hloop, dumpText, dumpCells, List.map_map]
  rfl

/-- A dump whose lines are no strings stops behind its first label. -/
theorem hexdump_to_stream_of_not_sized {max_size : Nat} {o : Layout} (h : Fits o)
    (hcount : 0 < lineCount o) (hsize : ¬ Sized max_size o) (get_data : HexdumpGetdata)
    (os : Ostream) {fuel : Nat} (hfuel : 0 < fuel) :
    hexdump_to_stream max_size fuel os o get_data =
      .stopped .length_error
        (after o os (labelText (os.uppercase || o.display_uppercase) (labelAt o 0))) := by
  obtain ⟨fuel, rfl⟩ := Nat.exists_eq_succ_of_ne_zero (Nat.ne_of_gt hfuel)
  have hle := (lt_lineCount_iff h 0).mp hcount
  rw [Nat.zero_mul, Nat.cast_zero, Int.add_zero] at hle
  have hlabel : labelAt o 0 = toSize (toOff (o.voffset_at_zero + o.offset_start)) := by
    rw [labelAt, toSize_toOff, Nat.cast_zero, Int.zero_mul, Int.add_zero]
  rw [hexdump_to_stream, hexdump_loop, if_pos hle, hlabel, ← put_label.spec]
  simp only [put_line_of_not_sized (.inr h.group) hsize]

/-- The space between two bytes is no string. -/
example : hexdump_to_stream (2 ^ 62 - 1) 1 Ostream.init ⟨2, 1, 2 ^ 62, 0, 0, 0, 0, false, false⟩
    (make_getdata_t [65]) = .stopped .length_error ⟨"00000000 : ".toList, 16, false, '0', 0⟩ := by
  decide +kernel

/-! ## When a dump returns -/

/-- The dump has returned or stopped. -/
def Outcome.Ended : Outcome → Prop
  | .running _ => False
  | _ => True

/-- More turns do not change what has ended. -/
theorem hexdump_loop_stays {max_size : Nat} {o : Layout} {get_data : HexdumpGetdata} {fuel : Nat}
    {offset offset_line : Int} {os : Ostream}
    (h : (hexdump_loop max_size o get_data fuel offset offset_line os).Ended) {turns : Nat}
    (hturns : fuel ≤ turns) :
    hexdump_loop max_size o get_data turns offset offset_line os =
      hexdump_loop max_size o get_data fuel offset offset_line os := by
  induction fuel generalizing turns offset offset_line os with
  | zero => exact h.elim
  | succ fuel ih =>
    obtain ⟨turns, rfl⟩ := Nat.exists_eq_succ_of_ne_zero (Nat.ne_zero_of_lt hturns)
    unfold hexdump_loop at h ⊢
    split_ifs at h ⊢ with hle
    · dsimp only at h ⊢
      cases hline : put_line max_size o get_data offset (put_label o offset_line os) with
      | error fault => rfl
      | ok os₁ =>
        rw [hline] at h
        exact ih h (Nat.le_of_succ_le_succ hturns)
    · rfl

/-- How a dump ends: it returns with its lines, or its lines are no strings. -/
theorem ended_iff {max_size : Nat} {o : Layout} (h : Fits o) (get_data : HexdumpGetdata)
    (os : Ostream) {out : Outcome} (hended : out.Ended) :
    (∃ fuel, hexdump_to_stream max_size fuel os o get_data = out) ↔
      out = if 0 < lineCount o → Sized max_size o then
          .returned (wrote o (lineCount o) os
            (dumpText o (os.uppercase || o.display_uppercase) get_data))
        else .stopped .length_error
          (after o os (labelText (os.uppercase || o.display_uppercase) (labelAt o 0))) := by
  have hspec : hexdump_to_stream max_size (lineCount o + 1) os o get_data =
      if 0 < lineCount o → Sized max_size o then
        .returned (wrote o (lineCount o) os
          (dumpText o (os.uppercase || o.display_uppercase) get_data))
      else .stopped .length_error
        (after o os (labelText (os.uppercase || o.display_uppercase) (labelAt o 0))) := by
    split_ifs with hsize
    · exact hexdump_to_stream.spec h hsize get_data os (Nat.lt_succ_self _)
    · obtain ⟨hcount, hnot⟩ := not_forall.mp hsize
      exact hexdump_to_stream_of_not_sized h hcount hnot get_data os (Nat.succ_pos _)
  have hwhole : (hexdump_to_stream max_size (lineCount o + 1) os o get_data).Ended := by
    rw [hspec]
    split_ifs <;> trivial
  rw [← hspec]
  constructor
  · rintro ⟨fuel, rfl⟩
    exact (hexdump_loop_stays hended (Nat.le_add_left fuel (lineCount o + 1))).symm.trans
      (hexdump_loop_stays hwhole (Nat.le_add_right (lineCount o + 1) fuel))
  · rintro rfl
    exact ⟨_, rfl⟩

/-- A dump returns unless its lines are no strings, and what it has written then. -/
theorem returned_iff {max_size : Nat} {o : Layout} (h : Fits o) (get_data : HexdumpGetdata)
    (os os' : Ostream) :
    (∃ fuel, hexdump_to_stream max_size fuel os o get_data = .returned os') ↔
      (0 < lineCount o → Sized max_size o) ∧ os' = wrote o (lineCount o) os
        (dumpText o (os.uppercase || o.display_uppercase) get_data) := by
  rw [ended_iff h get_data os (show (Outcome.returned os').Ended from trivial)]
  split_ifs with hsize
  · rw [Outcome.returned.injEq]
    exact (and_iff_right hsize).symm
  · exact ⟨fun hout => (nomatch hout), fun hout => absurd hout.1 hsize⟩

theorem text_wrote (o : Layout) (upper : Bool) (get_data : HexdumpGetdata) (os : Ostream) :
    (wrote o (lineCount o) os (dumpText o upper get_data)).text =
      os.text ++ dumpText o upper get_data := by
  unfold wrote
  split_ifs with hcount
  · rw [dumpText, dumpCells, hcount]
    exact (List.append_nil _).symm
  · rfl

/-- The text that a dump returns. -/
theorem hexdump_to_string_iff {max_size : Nat} {o : Layout} (h : Fits o)
    (get_data : HexdumpGetdata) (text : List Char) :
    (∃ fuel, hexdump_to_string max_size fuel o get_data = some text) ↔
      (0 < lineCount o → Sized max_size o) ∧ text = dumpText o o.display_uppercase get_data ∧
        text.length ≤ max_size := by
  have hret := @returned_iff max_size o h get_data Ostream.init
  have htext := text_wrote o o.display_uppercase get_data Ostream.init
  have hstr : ∀ ss : Ostream, (str max_size ss).toOption = some text ↔
      text = ss.text ∧ text.length ≤ max_size := by
    intro ss
    unfold str
    split_ifs with hlen
    · constructor
      · intro hsome
        obtain rfl := Option.some.inj hsome
        exact ⟨rfl, hlen⟩
      · rintro ⟨rfl, -⟩
        rfl
    · refine ⟨fun hnone => (nomatch hnone), ?_⟩
      rintro ⟨rfl, hle⟩
      exact absurd hle hlen
  unfold hexdump_to_string
  constructor
  · rintro ⟨fuel, hfuel⟩
    cases hout : hexdump_to_stream max_size fuel Ostream.init o get_data with
    | returned ss =>
      rw [hout] at hfuel
      obtain ⟨hsize, rfl⟩ := (hret ss).mp ⟨fuel, hout⟩
      obtain ⟨rfl, hlen⟩ := (hstr _).mp hfuel
      exact ⟨hsize, htext, hlen⟩
    | stopped fault ss =>
      rw [hout] at hfuel
      cases hfuel
    | running ss =>
      rw [hout] at hfuel
      cases hfuel
  · rintro ⟨hsize, rfl, hlen⟩
    obtain ⟨fuel, hfuel⟩ := (hret _).mpr ⟨hsize, rfl⟩
    refine ⟨fuel, ?_⟩
    rw [hfuel]
    exact (hstr _).mpr ⟨htext.symm, hlen⟩

end rmrf.utils
