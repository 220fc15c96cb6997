-- The range of a dump of a buffer: how many lines it takes, and which bytes these show.
import Rmrf.HexdumpReadback

open machine ostream

namespace rmrf.utils

/-! ## The bytes of a range -/

/-- The byte of the buffer at an offset, with the offset. -/
def byteAt (buffer : List UInt8) (offset : Int) : Option (Int × UInt8) :=
  if offset < 0 then none else buffer[offset.toNat]?.map fun hd_data => (offset, hd_data)

/-- The bytes of the buffer at the `n` offsets from the start of the range on. -/
def bytesFrom (o : Layout) (buffer : List UInt8) (n : Nat) : List (Int × UInt8) :=
  (List.range n).filterMap fun j : Nat => byteAt buffer (o.offset_start + j)

/-- The bytes of the buffer in the range, each once and in order. -/
def requested (o : Layout) (buffer : List UInt8) : List (Int × UInt8) :=
  bytesFrom o buffer (o.offset_end - o.offset_start + 1).toNat

/-- The bytes that the lines show, with their offsets. -/
def shownBytes (o : Layout) (lines : List (List HexdumpData)) : List (Int × UInt8) :=
  lines.flatten.zipIdx.filterMap fun p =>
    match p.1 with
    | .byte hd_data => some (o.offset_start + p.2, hd_data)
    | _ => none

/-- A dump of the buffer covers its range: it has the lines for it, each with its label,
and these show the bytes of the range and no others. -/
def CoversRange (max_size : Nat) (o : Layout) (buffer : List UInt8) (os : Ostream) : Prop :=
  ∃ fuel os' lines,
    hexdump_to_stream max_size fuel os o (make_getdata_t buffer) = .returned os' ∧
    os'.text = os.text ++ render o (os.uppercase || o.display_uppercase) 0
      (lines.map (lineEnd o)) ∧
    (∀ cells ∈ lines, cells.length = o.bytes_per_line) ∧
    (lines.length : Int) =
      ⌈((o.offset_end - o.offset_start + 1 : Int) : ℚ) / o.bytes_per_line⌉ ∧
    shownBytes o lines = requested o buffer

/-- One more, divided and rounded up, is the number divided and one more. -/
theorem neg_neg_ediv {d b : Int} (hb : 0 < b) : -(-(d + 1) / b) = d / b + 1 := by
  have hmod := Int.emod_nonneg d (Int.ne_of_gt hb)
  have hlt := Int.emod_lt_of_pos d hb
  have hdiv := Int.emod_add_mul_ediv d b
  have hround : -(d + 1) / b = -(d / b) - 1 ∧ -(d + 1) % b = b - d % b - 1 := by
    rw [Int.ediv_emod_unique hb]
    refine ⟨?_, by omega, by omega⟩
    rw [Int.mul_sub, Int.mul_neg]
    omega
  rw [hround.1]
  omega

/-- The lines of a range, the last of which may be cut short. -/
theorem lineCount_eq_ceil {o : Layout} (hline : 1 ≤ o.bytes_per_line)
    (hle : o.offset_start ≤ o.offset_end) :
    (lineCount o : Int) = ⌈((o.offset_end - o.offset_start + 1 : Int) : ℚ) / o.bytes_per_line⌉ := by
  have hpos : (0 : Int) < o.bytes_per_line := by omega
  have hnn := Int.ediv_nonneg (Int.sub_nonneg_of_le hle) (Int.le_of_lt hpos)
  rw [Rat.ceil_intCast_div_natCast, neg_neg_ediv hpos]
  unfold lineCount
  rw [if_pos hle]
  omega

/-- The lines reach beyond the end of the range, and by less than a line. -/
theorem end_lt_lines {o : Layout} (h : Fits o) :
    o.offset_end < o.offset_start + (lineCount o * o.bytes_per_line : Nat) := by
  have hlast := (lt_lineCount_iff h (lineCount o)).not.mp (Nat.lt_irrefl _)
  omega

theorem lt_of_lt_lines {o : Layout} (h : Fits o) {j : Nat}
    (hj : j < lineCount o * o.bytes_per_line) :
    o.offset_start + j < o.offset_end + o.bytes_per_line := by
  obtain ⟨k, hk⟩ : ∃ k, lineCount o = k + 1 := by
    apply Nat.exists_eq_succ_of_ne_zero
    intro hzero
    rw [hzero, Nat.zero_mul] at hj
    cases hj
  have hle := (lt_lineCount_iff h k).mp (by omega)
  rw [hk, Nat.succ_mul] at hj
  omega

/-! ## The cells of the lines in one -/

theorem flatten_lineCells (o : Layout) (get_data : HexdumpGetdata) (n : Nat) :
    ((List.range n).map (lineCells o get_data)).flatten =
      (List.range (n * o.bytes_per_line)).map fun j : Nat => get_data (o.offset_start + j) := by
  induction n with
  | zero => simp
  | succ n ih =>
    rw [List.range_succ, List.map_append, List.flatten_append, ih, Nat.succ_mul, List.range_add,
      List.map_append, List.map_map, List.map_singleton, List.flatten_singleton]
    rfl

theorem zipIdx_map_range {α : Type*} (f : Nat → α) (n : Nat) :
    ((List.range n).map f).zipIdx = (List.range n).map fun j => (f j, j) := by
  apply List.ext_getElem
  · simp
  · intro i _ _
    simp

/-- The buffer's own bytes are shown. -/
theorem byteAt_eq (buffer : List UInt8) {offset : Int} (hlt : offset < 2 ^ 63) :
    byteAt buffer offset =
      match make_getdata_t buffer offset with
      | .byte hd_data => some (offset, hd_data)
      | _ => none := by
  unfold byteAt make_getdata_t
  split_ifs with hneg
  · rfl
  · have hsize : toSize offset = offset.toNat := by
      unfold toSize
      omega
    rw [hsize]
    cases buffer[offset.toNat]? <;> rfl

theorem shownBytes_dumpCells {o : Layout} (h : Fits o) (buffer : List UInt8) :
    shownBytes o (dumpCells o (make_getdata_t buffer)) =
      bytesFrom o buffer (lineCount o * o.bytes_per_line) := by
  unfold shownBytes dumpCells bytesFrom
  rw [flatten_lineCells, zipIdx_map_range, List.filterMap_map]
  apply List.filterMap_congr
  intro j hj
  have hlt := lt_of_lt_lines h (List.mem_range.mp hj)
  have hhigh := h.high
  exact (byteAt_eq buffer (by omega)).symm

/-! ## The bytes behind the range -/

theorem byteAt_eq_none_iff (buffer : List UInt8) (offset : Int) :
    byteAt buffer offset = none ↔ offset < 0 ∨ (buffer.length : Int) ≤ offset := by
  unfold byteAt
  split_ifs with hneg
  · simp [hneg]
  · rw [Option.map_eq_none_iff, List.getElem?_eq_none_iff]
    omega

/-- The lines show the range alone when the buffer has no byte behind it on the last. -/
theorem bytesFrom_lines_iff {o : Layout} (h : Fits o) (hle : o.offset_start ≤ o.offset_end)
    (buffer : List UInt8) :
    bytesFrom o buffer (lineCount o * o.bytes_per_line) = requested o buffer ↔
      ∀ offset : Nat, offset < buffer.length → o.offset_end < offset →
        o.offset_start + (lineCount o * o.bytes_per_line : Nat) ≤ offset := by
  have hend := end_lt_lines h
  obtain ⟨behind, hbehind⟩ := Nat.exists_eq_add_of_le
    (by omega : (o.offset_end - o.offset_start + 1).toNat ≤ lineCount o * o.bytes_per_line)
  unfold requested bytesFrom
  rw [hbehind, List.range_add, List.filterMap_append, List.append_right_eq_self,
    List.filterMap_eq_nil_iff]
  constructor
  · intro hnone offset hlt hafter
    by_contra hin
    have hbyte := hnone _ (List.mem_map_of_mem (List.mem_range.mpr
      (by omega : ((offset : Int) - o.offset_end - 1).toNat < behind)))
    rw [byteAt_eq_none_iff] at hbyte
    omega
  · intro hpast x hx
    obtain ⟨i, hi, rfl⟩ := List.mem_map.mp hx
    have hlt := List.mem_range.mp hi
    rw [byteAt_eq_none_iff]
    by_contra hin
    have hle := hpast (o.offset_start + ((o.offset_end - o.offset_start + 1).toNat + i : Nat)).toNat
      (by omega) (by omega)
    omega

/-- The cells of the lines are known from the text, and their number from the range. -/
theorem coversRange_iff {max_size : Nat} (hmax : max_size < 2 ^ 64) {o : Layout} (h : Fits o)
    (hle : o.offset_start ≤ o.offset_end) (buffer : List UInt8) (os : Ostream) :
    CoversRange max_size o buffer os ↔
      Sized max_size o ∧
        bytesFrom o buffer (lineCount o * o.bytes_per_line) = requested o buffer := by
  have hret := @returned_iff max_size o h (make_getdata_t buffer) os
  have htext := text_wrote o (os.uppercase || o.display_uppercase) (make_getdata_t buffer) os
  have hceil := lineCount_eq_ceil h.line hle
  have hlength : (dumpCells o (make_getdata_t buffer)).length = lineCount o := by
    rw [dumpCells, List.length_map, List.length_range]
  rw [← shownBytes_dumpCells h]
  constructor
  · rintro ⟨fuel, os', lines, hfuel, hlines, hcells, hcount, hshown⟩
    obtain ⟨hsize, rfl⟩ := (hret os').mp ⟨fuel, hfuel⟩
    have hsized := hsize ((lt_lineCount_iff h 0).mpr (by omega))
    have hdump := isLine_dumpCells hmax hsized (make_getdata_t buffer)
    have hsame : dumpCells o (make_getdata_t buffer) = lines := by
      apply render_lineEnd_inj (.inr h.group) _ hdump
        (fun cells hmem => ⟨hcells cells hmem, Nat.lt_of_le_of_lt hsized hmax⟩)
        (List.append_cancel_left (htext.symm.trans hlines))
      omega
    rw [hsame]
    exact ⟨hsized, hshown⟩
  · rintro ⟨hsized, hshown⟩
    obtain ⟨fuel, hfuel⟩ := (hret _).mpr ⟨fun _ => hsized, rfl⟩
    refine ⟨fuel, _, dumpCells o (make_getdata_t buffer), hfuel, htext, ?_, ?_, hshown⟩
    · intro cells hmem
      exact (isLine_dumpCells hmax hsized _ cells hmem).length
    · rw [hlength, hceil]

/-- A dump covers its range exactly when its lines are strings, and the buffer has no byte
behind the range on the last of them. -/
theorem a_dump_covers_its_range {max_size : Nat} (hmax : max_size < 2 ^ 64) {o : Layout}
    (h : Fits o) (hle : o.offset_start ≤ o.offset_end) (buffer : List UInt8) (os : Ostream) :
    CoversRange max_size o buffer os ↔
      Sized max_size o ∧ ∀ offset : Nat, offset < buffer.length → o.offset_end < offset →
        o.offset_start + (lineCount o * o.bytes_per_line : Nat) ≤ offset := by
  rw [coversRange_iff hmax h hle, bytesFrom_lines_iff h hle]

/-- The range ends with the buffer. -/
theorem a_dump_covers_its_buffer :
    CoversRange (2 ^ 62 - 1) ⟨4, 2, 1, 1, -2, 2, 0, true, false⟩ [65, 66, 67] Ostream.init :=
  (a_dump_covers_its_range (by decide) (o := ⟨4, 2, 1, 1, -2, 2, 0, true, false⟩)
    (by decide) (by decide) _ _).mpr ⟨by decide, by decide⟩

/-- Of a range of one byte the line shows the next byte too. -/
theorem a_dump_shows_a_byte_behind_its_range :
    hexdump_to_string (2 ^ 62 - 1) 2 ⟨2, 1, 0, 0, 0, 0, 0, false, false⟩
        (make_getdata_t [65, 66]) = some "00000000 : 4142\n".toList ∧
      ¬ CoversRange (2 ^ 62 - 1) ⟨2, 1, 0, 0, 0, 0, 0, false, false⟩ [65, 66] Ostream.init := by
  constructor
  · decide +kernel
  · rw [coversRange_iff (by decide) (by decide) (by decide)]
    rintro ⟨-, hshown⟩
    revert hshown
    decide

end rmrf.utils
