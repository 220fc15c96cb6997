-- The hexdump: a line for each `bytes_per_line` offsets, its label on the stream that it is
-- given and its data on a stream of its own. A dump ends with a fault where the code
-- divides by zero or makes a string that is longer than `max_size`, the longest there is.
import Rmrf.Machine
import Rmrf.Ostream

open machine ostream

namespace rmrf.utils

/-! ## The arguments -/

/-- What is known of an offset: `std::variant<uint8_t, hexdump_data_t>`. -/
inductive HexdumpData
  | byte (hd_data : UInt8)
  | non_existent
  | unknown
deriving DecidableEq, Repr

/-- `hexdump_getdata_t` -/
abbrev HexdumpGetdata := Int → HexdumpData

/-- The arguments of a dump but for its stream and its data. -/
structure Layout where
  bytes_per_line : Nat
  bytes_per_group : Nat
  space_per_byte : Nat
  space_per_group : Nat
  offset_start : Int
  offset_end : Int
  voffset_at_zero : Int
  display_textual : Bool
  display_uppercase : Bool
deriving DecidableEq, Repr

/-- The data of a buffer. -/
def make_getdata_t (buffer : List UInt8) : HexdumpGetdata := fun offset =>
  if offset < 0 then .non_existent
  else
    match buffer[toSize offset]? with
    | none => .non_existent
    | some hd_data => .byte hd_data

/-! ## One line -/

inductive Fault
  | division_by_zero
  | division_overflow
  | length_error
deriving DecidableEq, Repr

/-- `std::string(n, c)` -/
def filled (max_size n : Nat) (c : Char) : Except Fault (List Char) :=
  if n ≤ max_size then .ok (List.replicate n c) else .error .length_error

/-- `str()` -/
def str (max_size : Nat) (s : Ostream) : Except Fault (List Char) :=
  if s.text.length ≤ max_size then .ok s.text else .error .length_error

/-- The data of a line so far: the stream of the hex column, the text column, and the end
of what the text column shows. -/
structure Row where
  display_hex_data : Ostream
  display_textual_data : List Char
  display_textual_last : Nat
deriving DecidableEq, Repr

def Row.empty (max_size : Nat) (o : Layout) : Except Fault Row :=
  (filled max_size o.bytes_per_line ' ').map fun spaces => ⟨Ostream.init, spaces, 0⟩

/-- The space before a group. -/
def group_space (max_size : Nat) (o : Layout) (idx : Nat) (s : Ostream) : Except Fault Ostream :=
  if o.space_per_group ≠ 0 ∧ idx ≠ 0 then
    if o.bytes_per_group = 0 then .error .division_by_zero
    else if idx % o.bytes_per_group = 0 then (filled max_size o.space_per_group ' ').map s.put
    else .ok s
  else .ok s

/-- The space before a byte. -/
def byte_space (max_size : Nat) (o : Layout) (idx : Nat) (s : Ostream) : Except Fault Ostream :=
  if o.space_per_byte ≠ 0 ∧ idx ≠ 0 then (filled max_size o.space_per_byte ' ').map s.put
  else .ok s

/-- What the text column shows for a byte. -/
def textual (hd_data : UInt8) : Char :=
  if hd_data ≥ 32 ∧ hd_data < 127 then Char.ofNat hd_data.toNat else '.'

/-- The two columns after the data of `idx`. A variant without a value, which the code
shows as `!!`, no source of data gives. -/
def show_data (o : Layout) (idx : Nat) (data : HexdumpData) (row : Row) : Row :=
  match data with
  | .unknown =>
    { display_hex_data := row.display_hex_data.put ['?', '?']
      display_textual_data := row.display_textual_data.set idx '?'
      display_textual_last := idx + 1 }
  | .non_existent =>
    { row with
      display_hex_data := row.display_hex_data.put [' ', ' ']
      display_textual_data := row.display_textual_data.set idx ' ' }
  | .byte hd_data =>
    let s := row.display_hex_data
    let s := if o.display_uppercase then s.set_uppercase else s
    { display_hex_data := (((s.setw 2).setfill '0').hex).put_number hd_data.toNat
      display_textual_data := row.display_textual_data.set idx (textual hd_data)
      display_textual_last := idx + 1 }

/-- The loop over a line at `idx`, with `n` offsets to go. -/
def row_loop (max_size : Nat) (o : Layout) (get_data : HexdumpGetdata) (offset : Int) :
    Nat → Nat → Row → Except Fault Row
  | 0, _, row => .ok row
  | n + 1, idx, row => do
    let offset_data := toOff (offset + toOff idx)
    let data := get_data offset_data
    let s ← group_space max_size o idx row.display_hex_data
    let s ← byte_space max_size o idx s
    row_loop max_size o get_data offset n (idx + 1)
      (show_data o idx data { row with display_hex_data := s })

/-- Where the hex column is cut off. The number is a `size_t`, and so is each of its
parts: with no data on the line, `display_textual_last - 1` is the largest of them. -/
def cut (o : Layout) (display_textual_last : Nat) : Except Fault Nat :=
  let before := toSize (display_textual_last - 1)
  if o.bytes_per_group = 0 then .error .division_by_zero
  else .ok (max 0 (toSize (display_textual_last * 2 + before * o.space_per_byte +
    before / o.bytes_per_group * o.space_per_group : Nat)))

/-- A line behind its label. -/
def put_row (max_size : Nat) (o : Layout) (row : Row) (os : Ostream) :
    Except Fault Ostream := do
  let hex ← str max_size row.display_hex_data
  if o.display_textual then
    let os := os.put hex
    let os := os.put [' ', ':', ' ']
    let os := os.put (row.display_textual_data.take row.display_textual_last)
    return os.put ['\n']
  else
    let os := os.put (hex.take (← cut o row.display_textual_last))
    return os.put ['\n']

/-- The label of a line. The stream stays in upper case once it is set. -/
def put_label (o : Layout) (offset_line : Int) (os : Ostream) : Ostream :=
  let os := if o.display_uppercase then os.set_uppercase else os
  (((os.setw 8).setfill '0').hex.put_number (toSize offset_line)).put [' ', ':', ' ']

/-- A line behind its label, from its data. -/
def put_line (max_size : Nat) (o : Layout) (get_data : HexdumpGetdata) (offset : Int)
    (os : Ostream) : Except Fault Ostream := do
  let row ← Row.empty max_size o
  let row ← row_loop max_size o get_data offset o.bytes_per_line 0 row
  put_row max_size o row os

/-! ## The dump -/

/-- How a dump stands: it has returned, it has stopped at a fault, or it has more lines
to write than it was given time for. -/
inductive Outcome
  | returned (os : Ostream)
  | stopped (fault : Fault) (os : Ostream)
  | running (os : Ostream)
deriving DecidableEq, Repr

/-- The loop over the lines, for `fuel` turns. -/
def hexdump_loop (max_size : Nat) (o : Layout) (get_data : HexdumpGetdata) :
    Nat → Int → Int → Ostream → Outcome
  | 0, _, _, os => .running os
  | fuel + 1, offset, offset_line, os =>
    if offset ≤ o.offset_end then
      let os := put_label o offset_line os
      match put_line max_size o get_data offset os with
      | .error fault => .stopped fault os
      | .ok os =>
        hexdump_loop max_size o get_data fuel (toOff (offset + toOff o.bytes_per_line))
          (toOff (offset_line + toOff o.bytes_per_line)) os
    else .returned os

def hexdump_to_stream (max_size fuel : Nat) (os : Ostream) (o : Layout)
    (get_data : HexdumpGetdata) : Outcome :=
  hexdump_loop max_size o get_data fuel o.offset_start
    (toOff (o.voffset_at_zero + o.offset_start)) os

/-- The text, when the dump returns. -/
def hexdump_to_string (max_size fuel : Nat) (o : Layout) (get_data : HexdumpGetdata) :
    Option (List Char) :=
  match hexdump_to_stream max_size fuel Ostream.init o get_data with
  | .returned ss => (str max_size ss).toOption
  | _ => none

end rmrf.utils
