-- A dump is read back from its text: its lines are apart at the newlines, the cells of a
-- line are apart by their widths, and where a line is cut off only spaces are lost.
import Rmrf.Fields
import Rmrf.HexdumpText

open fields machine numerals ostream

namespace rmrf.utils

/-! ## The cells of a column -/

theorem isDigit_hexOf {upper : Bool} {hd_data : UInt8} {c : Char}
    (h : c ∈ hexOf upper (.byte hd_data)) : isDigit 16 c = true :=
  isDigit_pad (by decide) (fun _ hx => isDigit_numeral (by decide) (by decide) hx) h

theorem value_hexOf (upper : Bool) (hd_data : UInt8) :
    value 16 (hexOf upper (.byte hd_data)) = hd_data.toNat := by
  rw [hexOf, value_pad, value_numeral (by decide) (by decide)]

theorem not_mem_hexOf (upper : Bool) (hd_data : UInt8) {c : Char} (hc : isDigit 16 c = false) :
    c ∉ hexOf upper (.byte hd_data) := by
  intro h
  rw [isDigit_hexOf h] at hc
  cases hc

/-- A byte is not shown as two equal characters that are no digits. -/
theorem hexOf_byte_ne (upper : Bool) (hd_data : UInt8) {c : Char} (hc : isDigit 16 c = false) :
    hexOf upper (.byte hd_data) ≠ [c, c] := by
  intro h
  apply not_mem_hexOf upper hd_data hc
  rw [h]
  exact List.mem_cons_self

theorem hexOf_inj {upper : Bool} {c c' : HexdumpData} (h : hexOf upper c = hexOf upper c') :
    c = c' := by
  cases c with
  | byte hd_data =>
    cases c' with
    | byte hd_data' =>
      have hvalue := congrArg (value 16) h
      rw [value_hexOf, value_hexOf] at hvalue
      rw [UInt8.toNat_inj.mp hvalue]
    | non_existent => exact absurd h (hexOf_byte_ne upper hd_data (by decide))
    | unknown => exact absurd h (hexOf_byte_ne upper hd_data (by decide))
  | non_existent =>
    cases c' with
    | byte hd_data' => exact absurd h.symm (hexOf_byte_ne upper hd_data' (by decide))
    | non_existent => rfl
    | unknown => cases h
  | unknown =>
    cases c' with
    | byte hd_data' => exact absurd h.symm (hexOf_byte_ne upper hd_data' (by decide))
    | non_existent => cases h
    | unknown => rfl

/-- Columns of equally many cells are equal when they show the same. -/
theorem column_inj {o : Layout} {u v : List HexdumpData} (hlen : u.length = v.length) {i : Nat}
    (h : column o i u = column o i v) : u = v := by
  induction u generalizing v i with
  | nil => exact (List.length_eq_zero_iff.mp hlen.symm).symm
  | cons c u ih =>
    cases v with
    | nil => cases hlen
    | cons d v =>
      simp only [column, List.append_assoc, List.append_cancel_left_eq] at h
      obtain ⟨hcell, hrest⟩ := List.append_inj h (by rw [length_hexOf, length_hexOf])
      rw [hexOf_inj hcell, ih (Nat.succ.inj hlen) hrest]

/-- Only a cell that is shown has another character than a space in the column. -/
theorem exists_ne_space (upper : Bool) {c : HexdumpData} (h : c ≠ .non_existent) :
    ∃ x ∈ hexOf upper c, x ≠ ' ' := by
  cases c with
  | byte hd_data =>
    obtain ⟨x, hx⟩ := List.exists_mem_of_length_pos
      (by rw [length_hexOf]; decide : 0 < (hexOf upper (.byte hd_data)).length)
    refine ⟨x, hx, ?_⟩
    rintro rfl
    exact not_mem_hexOf upper hd_data (by decide) hx
  | non_existent => exact absurd rfl h
  | unknown => exact ⟨'?', by simp [hexOf], by decide⟩

theorem mem_space {o : Layout} {i : Nat} {x : Char} (h : x ∈ space o i) : x = ' ' := by
  unfold space at h
  split_ifs at h
  · cases h
  · rcases List.mem_append.mp h with h | h
    · exact List.eq_of_mem_replicate h
    · exact List.eq_of_mem_replicate h
  · exact List.eq_of_mem_replicate h

theorem mem_column {o : Layout} {u : List HexdumpData} {i : Nat} {x : Char}
    (h : x ∈ column o i u) : x = ' ' ∨ ∃ c ∈ u, x ∈ hexOf o.display_uppercase c := by
  induction u generalizing i with
  | nil => cases h
  | cons c u ih =>
    rw [column, List.mem_append, List.mem_append] at h
    rcases h with (hspace | hcell) | hrest
    · exact .inl (mem_space hspace)
    · exact .inr ⟨c, List.mem_cons_self, hcell⟩
    · rcases ih hrest with hspace | ⟨d, hd, hx⟩
      · exact .inl hspace
      · exact .inr ⟨d, List.mem_cons_of_mem c hd, hx⟩

/-! ## The end of a line -/

/-- Behind the cells that are shown there are none that exist. -/
theorem eq_shown_append (u : List HexdumpData) :
    ∃ n, u = shown u ++ List.replicate n .non_existent := by
  induction u using List.reverseRecOn with
  | nil => exact ⟨0, rfl⟩
  | append_singleton u c ih =>
    rw [shown_snoc]
    split_ifs with hc
    · obtain ⟨n, hn⟩ := ih
      refine ⟨n + 1, ?_⟩
      rw [hc, List.replicate_succ', ← List.append_assoc, ← hn]
    · exact ⟨0, by simp⟩

/-- Equally many cells are equal when the same of them are shown. -/
theorem eq_of_shown_eq {u v : List HexdumpData} (hlen : u.length = v.length)
    (h : shown u = shown v) : u = v := by
  obtain ⟨m, hm⟩ := eq_shown_append u
  obtain ⟨n, hn⟩ := eq_shown_append v
  have hcount : m = n := by
    have hu := congrArg List.length hm
    have hv := congrArg List.length hn
    rw [List.length_append, List.length_replicate] at hu hv
    rw [h] at hu
    omega
  rw [hm, hn, h, hcount]

/-- The last cell that is shown is present or unknown. -/
theorem shown_eq_snoc {u : List HexdumpData} (h : shown u ≠ []) :
    ∃ v c, shown u = v ++ [c] ∧ c ≠ .non_existent := by
  refine ⟨(shown u).dropLast, (shown u).getLast h, (List.dropLast_append_getLast h).symm, ?_⟩
  have hlast := List.rdropWhile_last_not (fun c => decide (c = HexdumpData.non_existent)) u h
  simpa [shown] using hlast

/-- Where a byte is shown, the line is cut off behind the last one. -/
theorem cutAt_eq_width {o : Layout} {last : Nat} (hlast : 0 < last)
    (hsize : width o last < 2 ^ 64) : cutAt o last = width o last := by
  have hpred : toSize (last - 1) = last - 1 := by
    have htwice := two_mul_le_width o last
    unfold toSize
    omega
  unfold cutAt
  rw [hpred, toSize_natCast, Nat.mul_comm last 2]
  unfold width at hsize ⊢
  rw [if_neg (by omega)] at hsize ⊢
  exact Nat.mod_eq_of_lt hsize

/-- The first cells take the first characters of the column. -/
theorem take_width_column {o : Layout} (hg : Grouped o) (u v : List HexdumpData) :
    (column o 0 (u ++ v)).take (width o u.length) = column o 0 u := by
  rw [column_append, ← length_column hg u, List.take_left]

theorem take_width_shown {o : Layout} (hg : Grouped o) (u : List HexdumpData) :
    (column o 0 u).take (width o (shown u).length) = column o 0 (shown u) := by
  obtain ⟨n, hn⟩ := eq_shown_append u
  have htake := take_width_column hg (shown u) (List.replicate n .non_existent)
  rwa [← hn] at htake

/-- A line of cells, as the loops make them, with a width that is a `size_t`. -/
structure IsLine (o : Layout) (u : List HexdumpData) : Prop where
  length : u.length = o.bytes_per_line
  width : width o o.bytes_per_line < 2 ^ 64

theorem lineEnd_of_shown {o : Layout} (hg : Grouped o) (htext : o.display_textual ≠ true)
    {u : List HexdumpData} (hu : IsLine o u) (hshown : shown u ≠ []) :
    lineEnd o u = column o 0 (shown u) := by
  have hle : width o (shown u).length ≤ width o o.bytes_per_line := by
    rw [← hu.length]
    exact (width_strictMono hg).monotone (shown_isPrefix u).length_le
  unfold lineEnd
  rw [if_neg htext, cutAt_eq_width (List.length_pos_iff.mpr hshown)
    (Nat.lt_of_le_of_lt hle hu.width), take_width_shown hg]

/-- A line without data is of spaces, however it is cut off. -/
theorem mem_lineEnd_of_not_shown {o : Layout} (htext : o.display_textual ≠ true)
    {u : List HexdumpData} (hshown : shown u = []) {x : Char} (hx : x ∈ lineEnd o u) : x = ' ' := by
  obtain ⟨n, hn⟩ := eq_shown_append u
  rw [hshown, List.nil_append] at hn
  unfold lineEnd at hx
  rw [if_neg htext] at hx
  rcases mem_column (List.mem_of_mem_take hx) with hspace | ⟨c, hc, hx⟩
  · exact hspace
  · rw [hn] at hc
    rw [List.eq_of_mem_replicate hc] at hx
    simpa [hexOf] using hx

/-- A line with data has more than spaces. -/
theorem exists_ne_space_column (o : Layout) {u : List HexdumpData} (hshown : shown u ≠ []) :
    ∃ x ∈ column o 0 (shown u), x ≠ ' ' := by
  obtain ⟨v, c, hv, hc⟩ := shown_eq_snoc hshown
  obtain ⟨x, hx, hne⟩ := exists_ne_space o.display_uppercase hc
  refine ⟨x, ?_, hne⟩
  rw [hv, column_snoc]
  exact List.mem_append_right _ hx

theorem shown_eq_nil_iff {o : Layout} (hg : Grouped o) (htext : o.display_textual ≠ true)
    {u : List HexdumpData} (hu : IsLine o u) :
    shown u = [] ↔ ∀ x ∈ lineEnd o u, x = ' ' := by
  constructor
  · intro hshown x hx
    exact mem_lineEnd_of_not_shown htext hshown hx
  · intro hall
    by_contra hshown
    obtain ⟨x, hx, hne⟩ := exists_ne_space_column o hshown
    rw [← lineEnd_of_shown hg htext hu hshown] at hx
    exact hne (hall x hx)

/-- The cells of a line are read back from what stands behind its label. -/
theorem lineEnd_inj {o : Layout} (hg : Grouped o) {u v : List HexdumpData} (hu : IsLine o u)
    (hv : IsLine o v) (h : lineEnd o u = lineEnd o v) : u = v := by
  have hlen : u.length = v.length := hu.length.trans hv.length.symm
  by_cases htext : o.display_textual = true
  · unfold lineEnd at h
    rw [if_pos htext, if_pos htext, List.append_assoc, List.append_assoc] at h
    have hwidth : (column o 0 u).length = (column o 0 v).length := by
      rw [length_column hg, length_column hg, hlen]
    exact column_inj hlen (List.append_inj_left h hwidth)
  · apply eq_of_shown_eq hlen
    have hnil := shown_eq_nil_iff hg htext hu
    rw [h, ← shown_eq_nil_iff hg htext hv] at hnil
    by_cases hshown : shown u = []
    · rw [hshown, hnil.mp hshown]
    · have hshown' := hnil.not.mp hshown
      rw [lineEnd_of_shown hg htext hu hshown, lineEnd_of_shown hg htext hv hshown'] at h
      have hwidth := congrArg List.length h
      rw [length_column hg, length_column hg] at hwidth
      exact column_inj ((width_strictMono hg).injective hwidth) h

/-! ## The lines of a dump -/

theorem textual_ne_newline (hd_data : UInt8) : textual hd_data ≠ '\n' := by
  have htable : ∀ n < 256, textual (UInt8.ofNat n) ≠ '\n' := by decide +kernel
  have hne := htable hd_data.toNat hd_data.toNat_lt
  rwa [UInt8.ofNat_toNat] at hne

theorem newline_not_mem_column (o : Layout) (i : Nat) (u : List HexdumpData) :
    '\n' ∉ column o i u := by
  intro h
  rcases mem_column h with hspace | ⟨c, _, hx⟩
  · revert hspace
    decide
  · cases c with
    | byte hd_data => exact not_mem_hexOf o.display_uppercase hd_data (by decide) hx
    | non_existent => simp [hexOf] at hx
    | unknown => simp [hexOf] at hx

theorem newline_not_mem_lineEnd (o : Layout) (u : List HexdumpData) : '\n' ∉ lineEnd o u := by
  unfold lineEnd
  split_ifs
  · intro h
    rcases List.mem_append.mp h with hcolumn | htext
    · rcases List.mem_append.mp hcolumn with hhex | hcolon
      · exact newline_not_mem_column o 0 u hhex
      · revert hcolon
        decide
    · obtain ⟨c, _, hc⟩ := List.mem_map.mp htext
      cases c with
      | byte hd_data => exact textual_ne_newline hd_data hc
      | non_existent => cases hc
      | unknown => cases hc
  · intro h
    exact newline_not_mem_column o 0 u (List.mem_of_mem_take h)

/-- What stands behind the labels is read back from the text. -/
theorem render_inj {o : Layout} {upper : Bool} {us vs : List (List Char)}
    (hlen : us.length = vs.length) (hus : ∀ e ∈ us, '\n' ∉ e) (hvs : ∀ e ∈ vs, '\n' ∉ e)
    {k : Nat} (h : render o upper k us = render o upper k vs) : us = vs := by
  induction us generalizing vs k with
  | nil => exact (List.length_eq_zero_iff.mp hlen.symm).symm
  | cons e us ih =>
    cases vs with
    | nil => cases hlen
    | cons f vs =>
      simp only [render, List.append_assoc, List.append_cancel_left_eq, List.singleton_append] at h
      rw [List.forall_mem_cons] at hus hvs
      obtain ⟨hend, hrest⟩ := append_cons_inj hus.1 hvs.1 h
      rw [hend, ih (Nat.succ.inj hlen) hus.2 hvs.2 hrest]

/-- The cells of the lines are read back from the text. -/
theorem render_lineEnd_inj {o : Layout} (hg : Grouped o) {upper : Bool}
    {us vs : List (List HexdumpData)} (hlen : us.length = vs.length)
    (hus : ∀ u ∈ us, IsLine o u) (hvs : ∀ v ∈ vs, IsLine o v)
    {k : Nat} (h : render o upper k (us.map (lineEnd o)) = render o upper k (vs.map (lineEnd o))) :
    us = vs := by
  have hends : ∀ ws : List (List HexdumpData), ∀ e ∈ ws.map (lineEnd o), '\n' ∉ e := by
    intro ws e he
    obtain ⟨w, _, rfl⟩ := List.mem_map.mp he
    exact newline_not_mem_lineEnd o w
  have hmap := render_inj (by rw [List.length_map, List.length_map, hlen]) (hends us) (hends vs) h
  apply List.ext_getElem hlen
  intro i hi hi'
  have hget := List.getElem_of_eq hmap (i := i) (by rwa [List.length_map])
  rw [List.getElem_map, List.getElem_map] at hget
  exact lineEnd_inj hg (hus _ (List.getElem_mem hi)) (hvs _ (List.getElem_mem hi')) hget

theorem isLine_dumpCells {max_size : Nat} (hmax : max_size < 2 ^ 64) {o : Layout}
    (hsize : Sized max_size o) (get_data : HexdumpGetdata) :
    ∀ u ∈ dumpCells o get_data, IsLine o u := by
  intro u hu
  obtain ⟨k, _, rfl⟩ := List.mem_map.mp hu
  exact ⟨by rw [lineCells, List.length_map, List.length_range], Nat.lt_of_le_of_lt hsize hmax⟩

/-- A dump returns when its lines and its text are strings, and two sources of data with the
same dump give the same at every offset of its lines. -/
theorem a_dump_loses_no_data {max_size : Nat} (hmax : max_size < 2 ^ 64) {o : Layout}
    (h : Fits o) :
    (∀ get_data, (∃ fuel text, hexdump_to_string max_size fuel o get_data = some text) ↔
      (0 < lineCount o → Sized max_size o) ∧
        (dumpText o o.display_uppercase get_data).length ≤ max_size) ∧
      ∀ get_data get_data' fuel fuel' text,
        hexdump_to_string max_size fuel o get_data = some text →
        hexdump_to_string max_size fuel' o get_data' = some text →
        ∀ k < lineCount o, ∀ i < o.bytes_per_line,
          get_data (o.offset_start + (k * o.bytes_per_line + i : Nat)) =
            get_data' (o.offset_start + (k * o.bytes_per_line + i : Nat)) := by
  constructor
  · intro get_data
    constructor
    · rintro ⟨fuel, text, hfuel⟩
      obtain ⟨hsize, rfl, hlen⟩ := (hexdump_to_string_iff h get_data text).mp ⟨fuel, hfuel⟩
      exact ⟨hsize, hlen⟩
    · rintro ⟨hsize, hlen⟩
      obtain ⟨fuel, hfuel⟩ := (hexdump_to_string_iff h get_data _).mpr ⟨hsize, rfl, hlen⟩
      exact ⟨fuel, _, hfuel⟩
  · intro get_data get_data' fuel fuel' text hdump hdump' k hk i hi
    obtain ⟨hsize, htext, -⟩ := (hexdump_to_string_iff h get_data text).mp ⟨fuel, hdump⟩
    obtain ⟨-, htext', -⟩ := (hexdump_to_string_iff h get_data' text).mp ⟨fuel', hdump'⟩
    have hsized := hsize (Nat.zero_lt_of_lt hk)
    have hcells : dumpCells o get_data = dumpCells o get_data' := by
      apply render_lineEnd_inj (.inr h.group) (by simp [dumpCells])
        (isLine_dumpCells hmax hsized get_data) (isLine_dumpCells hmax hsized get_data')
      exact htext.symm.trans htext'
    have hline := List.map_inj_left.mp hcells k (List.mem_range.mpr hk)
    exact List.map_inj_left.mp hline i (List.mem_range.mpr hi)

/-- Where two sources differ behind the last line alone, the dumps are equal. -/
theorem two_sources_of_one_dump :
    let o : Layout := ⟨2, 1, 1, 0, -1, 0, 0, false, true⟩
    let present : HexdumpGetdata := fun offset => if offset = 0 then .byte 171 else .non_existent
    let beyond : HexdumpGetdata := fun offset => if offset = 1 then .unknown else present offset
    hexdump_to_string (2 ^ 62 - 1) 2 o present = some "FFFFFFFFFFFFFFFF :    AB\n".toList ∧
      hexdump_to_string (2 ^ 62 - 1) 2 o beyond = some "FFFFFFFFFFFFFFFF :    AB\n".toList ∧
      present 0 = beyond 0 := by
  intro o present beyond
  have hpresent : hexdump_to_string (2 ^ 62 - 1) 2 o present =
      some "FFFFFFFFFFFFFFFF :    AB\n".toList := by decide +kernel
  have hbeyond : hexdump_to_string (2 ^ 62 - 1) 2 o beyond =
      some "FFFFFFFFFFFFFFFF :    AB\n".toList := by decide +kernel
  have hagree := (a_dump_loses_no_data (by decide : 2 ^ 62 - 1 < 2 ^ 64) (o := o)
    (by decide)).2 present beyond 2 2 _ hpresent hbeyond 0 (by decide) 1 (by decide)
  exact ⟨hpresent, hbeyond, hagree⟩

end rmrf.utils
