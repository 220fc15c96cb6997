-- The columns of a dump: where a line without text is cut off, and what the group size
-- does where there is no space between groups.
import Rmrf.HexdumpReadback

open machine ostream

namespace rmrf.utils

/-! ## The end of a line -/

/-- What stands behind a label when the line ends with its data: the hex column, and the
text beside it, or the column up to the last byte that is present or unknown. -/
def alignedEnd (o : Layout) (cells : List HexdumpData) : List Char :=
  if o.display_textual then column o 0 cells ++ [' ', ':', ' '] ++ (shown cells).map textOf
  else (column o 0 cells).take (width o (shown cells).length)

theorem newline_not_mem_alignedEnd (o : Layout) (u : List HexdumpData) :
    '\n' ∉ alignedEnd o u := by
  by_cases htext : o.display_textual = true
  · have hline := newline_not_mem_lineEnd o u
    unfold lineEnd at hline
    unfold alignedEnd
    rw [if_pos htext] at hline ⊢
    exact hline
  · unfold alignedEnd
    rw [if_neg htext]
    intro h
    exact newline_not_mem_column o 0 u (List.mem_of_mem_take h)

/-- With no data on the line, the index before the first is the largest `size_t`. -/
theorem cutAt_zero_iff (o : Layout) :
    cutAt o 0 = 0 ↔ (2 ^ 64 - 1) / o.bytes_per_group * o.space_per_group % 2 ^ 64 =
      o.space_per_byte % 2 ^ 64 := by
  have hpred : toSize ((0 : Nat) - 1) = 2 ^ 64 - 1 := by decide
  unfold cutAt
  rw [hpred, toSize_natCast]
  omega

theorem shown_ne_nil_iff (u : List HexdumpData) : shown u ≠ [] ↔ ∃ c ∈ u, c ≠ .non_existent := by
  unfold shown
  rw [Ne, List.rdropWhile_eq_nil_iff]
  simp

/-- A line ends with its data, unless it has none and the cut is not at the start. -/
theorem lineEnd_eq_alignedEnd_iff {o : Layout} (hg : Grouped o) (hline : 1 ≤ o.bytes_per_line)
    {u : List HexdumpData} (hu : IsLine o u) :
    lineEnd o u = alignedEnd o u ↔
      o.display_textual = true ∨ shown u ≠ [] ∨ cutAt o 0 = 0 := by
  by_cases htext : o.display_textual = true
  · unfold lineEnd alignedEnd
    rw [if_pos htext, if_pos htext]
    simp [htext]
  · have haligned : alignedEnd o u = column o 0 (shown u) := by
      unfold alignedEnd
      rw [if_neg htext, take_width_shown hg]
    rw [haligned]
    by_cases hshown : shown u = []
    · have hlength : (column o 0 u).length ≠ 0 := by
        rw [length_column hg, hu.length]
        have hpos := width_strictMono hg (Nat.lt_of_lt_of_le Nat.zero_lt_one hline)
        omega
      unfold lineEnd
      rw [if_neg htext, hshown]
      show (column o 0 u).take (cutAt o 0) = [] ↔ _
      rw [List.take_eq_nil_iff, ← List.length_eq_zero_iff]
      simp [htext, hlength]
    · simp [lineEnd_of_shown hg htext hu hshown, hshown]

/-! ## The lines of a dump -/

/-- Every line that a dump writes ends with its data, and every hex column has one width. A
dump that has stopped has written no line behind its label. -/
def InColumns (max_size : Nat) (o : Layout) (get_data : HexdumpGetdata) (os : Ostream) : Prop :=
  ∃ fuel,
    match hexdump_to_stream max_size fuel os o get_data with
    | .returned os' =>
      os'.text = os.text ++ render o (os.uppercase || o.display_uppercase) 0
        ((dumpCells o get_data).map (alignedEnd o)) ∧
      ∀ cells ∈ dumpCells o get_data, (column o 0 cells).length = width o o.bytes_per_line
    | .stopped _ os' =>
      os'.text = os.text ++ labelText (os.uppercase || o.display_uppercase) (labelAt o 0)
    | .running _ => False

theorem lineEnd_eq_alignedEnd_of_render {o : Layout} {upper : Bool} {us : List (List HexdumpData)}
    (h : render o upper 0 (us.map (lineEnd o)) = render o upper 0 (us.map (alignedEnd o))) :
    ∀ cells ∈ us, lineEnd o cells = alignedEnd o cells := by
  apply List.map_inj_left.mp
  apply render_inj (by simp) _ _ h
  · intro e he
    obtain ⟨u, _, rfl⟩ := List.mem_map.mp he
    exact newline_not_mem_lineEnd o u
  · intro e he
    obtain ⟨u, _, rfl⟩ := List.mem_map.mp he
    exact newline_not_mem_alignedEnd o u

theorem inColumns_iff {max_size : Nat} {o : Layout} (h : Fits o) (get_data : HexdumpGetdata)
    (os : Ostream) :
    InColumns max_size o get_data os ↔
      (Sized max_size o →
        ∀ cells ∈ dumpCells o get_data, lineEnd o cells = alignedEnd o cells) := by
  have htext := text_wrote o (os.uppercase || o.display_uppercase) get_data os
  constructor
  · rintro ⟨fuel, hdump⟩ hsize
    cases hout : hexdump_to_stream max_size fuel os o get_data with
    | returned os' =>
      rw [hout] at hdump
      obtain ⟨-, rfl⟩ := (returned_iff h get_data os os').mp ⟨fuel, hout⟩
      exact lineEnd_eq_alignedEnd_of_render (List.append_cancel_left (htext.symm.trans hdump.1))
    | stopped fault os' =>
      have hended : (Outcome.stopped fault os').Ended := trivial
      have hstopped := (ended_iff h get_data os hended).mp ⟨fuel, hout⟩
      rw [if_pos fun _ => hsize] at hstopped
      cases hstopped
    | running os' =>
      rw [hout] at hdump
      exact hdump.elim
  · intro hends
    by_cases hsize : 0 < lineCount o → Sized max_size o
    · obtain ⟨fuel, hfuel⟩ := (returned_iff h get_data os _).mpr ⟨hsize, rfl⟩
      have hlines : ∀ cells ∈ dumpCells o get_data, lineEnd o cells = alignedEnd o cells := by
        intro cells hcells
        obtain ⟨k, hk, _⟩ := List.mem_map.mp hcells
        exact hends (hsize (Nat.zero_lt_of_lt (List.mem_range.mp hk))) cells hcells
      refine ⟨fuel, ?_⟩
      rw [hfuel]
      refine ⟨?_, ?_⟩
      · rw [htext, dumpText, List.map_congr_left hlines]
      · intro cells hcells
        obtain ⟨k, _, rfl⟩ := List.mem_map.mp hcells
        rw [length_column (.inr h.group), lineCells, List.length_map, List.length_range]
    · refine ⟨1, ?_⟩
      obtain ⟨hcount, hnot⟩ := not_forall.mp hsize
      rw [hexdump_to_stream_of_not_sized h hcount hnot get_data os Nat.one_pos]
      rfl

/-- The lines end with their data exactly when the text is shown, or every line has data,
or the two spaces cancel out in the cut of a line without data, or the lines are no strings
and none is written. -/
theorem lines_end_with_their_data {max_size : Nat} (hmax : max_size < 2 ^ 64) {o : Layout}
    (h : Fits o) (get_data : HexdumpGetdata) (os : Ostream) :
    InColumns max_size o get_data os ↔
      o.display_textual = true ∨
        (∀ k < lineCount o, ∃ i < o.bytes_per_line,
          get_data (o.offset_start + (k * o.bytes_per_line + i : Nat)) ≠ .non_existent) ∨
        (2 ^ 64 - 1) / o.bytes_per_group * o.space_per_group % 2 ^ 64 =
          o.space_per_byte % 2 ^ 64 ∨
        ¬ Sized max_size o := by
  have hdata : (∀ cells ∈ dumpCells o get_data, shown cells ≠ []) ↔
      ∀ k < lineCount o, ∃ i < o.bytes_per_line,
        get_data (o.offset_start + (k * o.bytes_per_line + i : Nat)) ≠ .non_existent := by
    simp [dumpCells, lineCells, shown_ne_nil_iff]
  rw [inColumns_iff h, ← cutAt_zero_iff, ← hdata]
  by_cases hsize : Sized max_size o
  · have hline : ∀ cells ∈ dumpCells o get_data, lineEnd o cells = alignedEnd o cells ↔
        o.display_textual = true ∨ shown cells ≠ [] ∨ cutAt o 0 = 0 := by
      intro cells hcells
      exact lineEnd_eq_alignedEnd_iff (.inr h.group) h.line
        (isLine_dumpCells hmax hsize get_data cells hcells)
    constructor
    · intro hends
      by_cases htext : o.display_textual = true
      · exact .inl htext
      · by_cases hcut : cutAt o 0 = 0
        · exact .inr (.inr (.inl hcut))
        · refine .inr (.inl ?_)
          intro cells hcells
          have hcases := (hline cells hcells).mp (hends hsize cells hcells)
          exact (hcases.resolve_left htext).resolve_right hcut
    · rintro (htext | hshown | hcut | hnot) - cells hcells
      · exact (hline cells hcells).mpr (.inl htext)
      · exact (hline cells hcells).mpr (.inr (.inl (hshown cells hcells)))
      · exact (hline cells hcells).mpr (.inr (.inr hcut))
      · exact absurd hsize hnot
  · constructor
    · intro _
      exact .inr (.inr (.inr hsize))
    · intro _ hsized
      exact absurd hsized hsize

/-- A line of text ends with its data. -/
theorem a_textual_line_ends_with_its_data :
    InColumns (2 ^ 62 - 1) ⟨4, 2, 1, 1, 0, 3, 0, true, false⟩ (make_getdata_t [65])
      Ostream.init :=
  (lines_end_with_their_data (by decide) (o := ⟨4, 2, 1, 1, 0, 3, 0, true, false⟩)
    (by decide) _ _).mpr (.inl rfl)

/-- A line of an empty buffer ends with the spaces of its column. -/
theorem an_empty_line_ends_with_spaces :
    hexdump_to_string (2 ^ 62 - 1) 2 ⟨2, 1, 1, 0, 0, 1, 0, false, false⟩ (make_getdata_t []) =
        some "00000000 :      \n".toList ∧
      ¬ InColumns (2 ^ 62 - 1) ⟨2, 1, 1, 0, 0, 1, 0, false, false⟩ (make_getdata_t [])
        Ostream.init := by
  constructor
  · decide +kernel
  · rw [inColumns_iff (by decide)]
    intro hends
    have hline := hends (by decide) [.non_existent, .non_existent] (by decide)
    revert hline
    decide

/-! ## No space between groups -/

/-- The layout with another group size. -/
def Layout.withGroup (o : Layout) (g : Nat) : Layout := { o with bytes_per_group := g }

/-- Without a space between groups the group size does not show in the column. -/
theorem column_withGroup {o : Layout} (hspg : o.space_per_group = 0) (g i : Nat)
    (u : List HexdumpData) : column (o.withGroup g) i u = column o i u := by
  have hspace : ∀ j, space (o.withGroup g) j = space o j := by
    intro j
    simp [space, Layout.withGroup, hspg]
  induction u generalizing i with
  | nil => rfl
  | cons c u ih =>
    rw [column, column, hspace, ih]
    rfl

theorem cutAt_withGroup {o : Layout} (hspg : o.space_per_group = 0) (g last : Nat) :
    cutAt (o.withGroup g) last = cutAt o last := by
  simp [cutAt, Layout.withGroup, hspg]

theorem lineEnd_withGroup {o : Layout} (hspg : o.space_per_group = 0) (g : Nat)
    (u : List HexdumpData) : lineEnd (o.withGroup g) u = lineEnd o u := by
  unfold lineEnd
  rw [column_withGroup hspg, cutAt_withGroup hspg]
  rfl

theorem sized_withGroup {max_size : Nat} {o : Layout} (hspg : o.space_per_group = 0) (g : Nat) :
    Sized max_size (o.withGroup g) ↔ Sized max_size o := by
  simp [Sized, width, Layout.withGroup, hspg]

/-- The cut does not divide by the group size `g`: it is not zero, or there is no cut. -/
def Uncut (max_size : Nat) (o : Layout) (g : Nat) : Prop :=
  o.display_textual = true ∨ 0 < g ∨ ¬ Sized max_size o

theorem put_line_withGroup {max_size : Nat} {o : Layout} (hspg : o.space_per_group = 0) {g : Nat}
    (hg : Uncut max_size o g) (get_data : HexdumpGetdata) (offset : Int) {os : Ostream}
    (hw : os.width = 0) :
    put_line max_size (o.withGroup g) get_data offset os =
      if Sized max_size o then
        .ok { os with text := os.text ++ lineEnd o (cellsAt o get_data offset) ++ ['\n'] }
      else .error .length_error := by
  have hgrouped : Grouped (o.withGroup g) := .inl hspg
  split_ifs with hsize
  · have hdiv : o.display_textual = true ∨ 0 < g := by
      rcases hg with htext | hpos | hnot
      · exact .inl htext
      · exact .inr hpos
      · exact absurd hsize hnot
    rw [put_line.spec hgrouped ((sized_withGroup hspg g).mpr hsize) hdiv get_data offset hw,
      lineEnd_withGroup hspg]
    rfl
  · exact put_line_of_not_sized hgrouped ((sized_withGroup hspg g).not.mpr hsize) get_data offset os

/-- A cut by groups of no size stops the dump at its first line. -/
theorem put_line_withGroup_zero {max_size : Nat} {o : Layout} (hspg : o.space_per_group = 0)
    (hg : ¬ Uncut max_size o 0) (get_data : HexdumpGetdata) (offset : Int) (os : Ostream) :
    put_line max_size (o.withGroup 0) get_data offset os = .error .division_by_zero := by
  obtain ⟨htext, hsize⟩ : o.display_textual ≠ true ∧ Sized max_size o := by
    unfold Uncut at hg
    rw [not_or, not_or, not_not] at hg
    exact ⟨hg.1, hg.2.2⟩
  have hsized := (sized_withGroup hspg 0).mpr hsize
  obtain ⟨row, -, hput, hstr⟩ := hsized.put_line_row (.inl hspg) get_data offset os
  rw [hput, put_row, hstr]
  show (if o.display_textual = true then _ else _) = _
  rw [if_neg htext]
  rfl

/-- One turn of the loop, which the group size has no part in. -/
theorem hexdump_loop_withGroup_succ {max_size : Nat} {o : Layout} (hspg : o.space_per_group = 0)
    {g : Nat} (hg : Uncut max_size o g) (get_data : HexdumpGetdata) (fuel : Nat)
    (offset offset_line : Int) (os : Ostream) :
    hexdump_loop max_size (o.withGroup g) get_data (fuel + 1) offset offset_line os =
      if offset ≤ o.offset_end then
        if Sized max_size o then
          hexdump_loop max_size (o.withGroup g) get_data fuel
            (toOff (offset + toOff o.bytes_per_line))
            (toOff (offset_line + toOff o.bytes_per_line))
            { put_label o offset_line os with
              text := (put_label o offset_line os).text ++
                lineEnd o (cellsAt o get_data offset) ++ ['\n'] }
        else .stopped .length_error (put_label o offset_line os)
      else .returned os := by
  have hlabel : put_label (o.withGroup g) offset_line os = put_label o offset_line os := rfl
  have hw : (put_label o offset_line os).width = 0 := by rw [put_label.spec, after]
  rw [hexdump_loop]
  simp only [hlabel, put_line_withGroup hspg hg get_data offset hw]
  by_cases hsize : Sized max_size o
  · simp only [if_pos hsize]
    rfl
  · simp only [if_neg hsize]
    rfl

/-- Without a space between groups, two group sizes that the cut does not divide by zero
with make one dump. -/
theorem hexdump_loop_withGroup {max_size : Nat} {o : Layout} (hspg : o.space_per_group = 0)
    {g g' : Nat} (hg : Uncut max_size o g) (hg' : Uncut max_size o g') (get_data : HexdumpGetdata)
    (fuel : Nat) (offset offset_line : Int) (os : Ostream) :
    (∀ os', hexdump_loop max_size (o.withGroup g) get_data fuel offset offset_line os ≠
      .stopped .division_by_zero os') ∧
    hexdump_loop max_size (o.withGroup g) get_data fuel offset offset_line os =
      hexdump_loop max_size (o.withGroup g') get_data fuel offset offset_line os := by
  induction fuel generalizing offset offset_line os with
  | zero => exact ⟨by simp [hexdump_loop], rfl⟩
  | succ fuel ih =>
    rw [hexdump_loop_withGroup_succ hspg hg, hexdump_loop_withGroup_succ hspg hg']
    split_ifs
    · exact ih _ _ _
    · exact ⟨by simp, rfl⟩
    · exact ⟨by simp, rfl⟩

/-- A dump divides by no zero, and writes the same, whatever its group size is. -/
def IgnoresGroups (max_size : Nat) (o : Layout) (get_data : HexdumpGetdata) : Prop :=
  ∀ g g' fuel os,
    (∀ os', hexdump_to_stream max_size fuel os (o.withGroup g) get_data ≠
      .stopped .division_by_zero os') ∧
    hexdump_to_stream max_size fuel os (o.withGroup g) get_data =
      hexdump_to_stream max_size fuel os (o.withGroup g') get_data

/-- Without a space between groups, a dump ignores the group size exactly when it shows
the text, or has no line, or stops at a string that is too long before it is cut. Any two
sizes but zero are always the same to it. -/
theorem groups_without_space_are_ignored {max_size : Nat} {o : Layout}
    (hspg : o.space_per_group = 0) (get_data : HexdumpGetdata) :
    (IgnoresGroups max_size o get_data ↔
      o.display_textual = true ∨ o.offset_end < o.offset_start ∨ ¬ Sized max_size o) ∧
    ∀ g g', 0 < g → 0 < g' → ∀ fuel os,
      (∀ os', hexdump_to_stream max_size fuel os (o.withGroup g) get_data ≠
        .stopped .division_by_zero os') ∧
      hexdump_to_stream max_size fuel os (o.withGroup g) get_data =
        hexdump_to_stream max_size fuel os (o.withGroup g') get_data := by
  refine ⟨⟨?_, ?_⟩, ?_⟩
  · intro hignores
    by_contra hnot
    rw [not_or, not_or, not_lt] at hnot
    obtain ⟨htext, hle, hsize⟩ := hnot
    have huncut : ¬ Uncut max_size o 0 := by
      rintro (h | h | h)
      · exact htext h
      · cases h
      · exact hsize h
    apply (hignores 0 0 1 Ostream.init).1
      (put_label o (toOff (o.voffset_at_zero + o.offset_start)) Ostream.init)
    rw [hexdump_to_stream, hexdump_loop]
    simp only [put_line_withGroup_zero hspg huncut]
    exact if_pos hle
  · rintro (htext | hempty | hsize) g g' fuel os
    · exact hexdump_loop_withGroup hspg (.inl htext) (.inl htext) get_data fuel _ _ os
    · cases fuel with
      | zero => exact ⟨by simp [hexdump_to_stream, hexdump_loop], rfl⟩
      | succ fuel =>
        have hreturned : ∀ g, hexdump_to_stream max_size (fuel + 1) os (o.withGroup g) get_data =
            .returned os := by
          intro g
          rw [hexdump_to_stream, hexdump_loop]
          exact if_neg (not_le.mpr hempty)
        rw [hreturned, hreturned]
        exact ⟨by simp, rfl⟩
    · exact hexdump_loop_withGroup hspg (.inr (.inr hsize)) (.inr (.inr hsize)) get_data fuel _ _ os
  · intro g g' hpos hpos' fuel os
    exact hexdump_loop_withGroup hspg (.inr (.inl hpos)) (.inr (.inl hpos')) get_data fuel _ _ os

/-- With the text shown no group size matters. -/
theorem a_textual_dump_ignores_groups :
    IgnoresGroups (2 ^ 62 - 1) ⟨16, 0, 1, 0, 0, 0, 0, true, false⟩ (make_getdata_t [65]) :=
  (groups_without_space_are_ignored (o := ⟨16, 0, 1, 0, 0, 0, 0, true, false⟩) rfl _).1.mpr
    (.inl rfl)

/-- The dump of one byte divides by the group size of zero. -/
theorem a_dump_divides_by_its_group_size :
    ¬ IgnoresGroups (2 ^ 62 - 1) ⟨16, 0, 1, 0, 0, 0, 0, false, false⟩ (make_getdata_t [65]) := by
  intro hignores
  apply (hignores 0 0 1 Ostream.init).1
    ⟨"00000000 : ".toList, 16, false, '0', 0⟩
  decide +kernel

end rmrf.utils
