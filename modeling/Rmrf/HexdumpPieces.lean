-- Dumps of the same data in other lines. In pieces, one after the other on one stream, a
-- dump writes the same text and stops at the same fault. Aligned, it shows each byte by its
-- virtual offset.
import Rmrf.HexdumpStreams

open machine ostream

namespace rmrf.utils

variable {max_size : Nat}

/-! ## Outcomes in a row -/

/-- What follows a dump once it has returned. -/
def Outcome.andThen (out : Outcome) (next : Ostream → Outcome) : Outcome :=
  match out with
  | .returned os => next os
  | .stopped fault os => .stopped fault os
  | .running os => .running os

theorem Outcome.Ended.of_andThen {out : Outcome} {next : Ostream → Outcome}
    (h : (out.andThen next).Ended) : out.Ended := by
  cases out with
  | returned os => trivial
  | stopped fault os => trivial
  | running os => exact h

theorem write_all_cons (fuel : Nat) (os : Ostream) (d : Layout × HexdumpGetdata)
    (dumps : List (Layout × HexdumpGetdata)) :
    write_all max_size fuel os (d :: dumps) =
      (hexdump_to_stream max_size fuel os d.1 d.2).andThen
        fun os => write_all max_size fuel os dumps := by
  rw [write_all]
  cases hexdump_to_stream max_size fuel os d.1 d.2 <;> rfl

theorem write_all_stays {fuel : Nat} {os : Ostream} {dumps : List (Layout × HexdumpGetdata)}
    (h : (write_all max_size fuel os dumps).Ended) {turns : Nat} (hturns : fuel ≤ turns) :
    write_all max_size turns os dumps = write_all max_size fuel os dumps := by
  induction dumps generalizing os with
  | nil => rfl
  | cons d dumps ih =>
    rw [write_all_cons] at h ⊢
    have hfirst : hexdump_to_stream max_size turns os d.1 d.2 =
        hexdump_to_stream max_size fuel os d.1 d.2 :=
      hexdump_loop_stays h.of_andThen hturns
    rw [write_all_cons, hfirst]
    cases hdump : hexdump_to_stream max_size fuel os d.1 d.2 with
    | returned os₁ =>
      rw [hdump] at h
      exact ih h
    | stopped fault os₁ => rfl
    | running os₁ => rfl

/-! ## Lines without an end -/

/-- `n` lines, whatever the last offset is. -/
def put_lines (max_size : Nat) (o : Layout) (get_data : HexdumpGetdata) :
    Nat → Int → Int → Ostream → Outcome
  | 0, _, _, os => .returned os
  | n + 1, offset, offset_line, os =>
    let os := put_label o offset_line os
    match put_line max_size o get_data offset os with
    | .error fault => .stopped fault os
    | .ok os =>
      put_lines max_size o get_data n (toOff (offset + toOff o.bytes_per_line))
        (toOff (offset_line + toOff o.bytes_per_line)) os

/-- The first turns of the loop write lines as long as their offsets are in range. -/
theorem hexdump_loop_lines {o : Layout} (get_data : HexdumpGetdata) (n : Nat) {offset : Int}
    (hlow : -2 ^ 63 ≤ offset) (hhigh : offset + (n * o.bytes_per_line : Nat) < 2 ^ 63)
    (hin : ∀ j < n, offset + (j * o.bytes_per_line : Nat) ≤ o.offset_end)
    (label : Int) (os : Ostream) (fuel : Nat) :
    hexdump_loop max_size o get_data (n + fuel) offset (toOff label) os =
      (put_lines max_size o get_data n offset (toOff label) os).andThen
        (hexdump_loop max_size o get_data fuel (offset + (n * o.bytes_per_line : Nat))
          (toOff (label + (n * o.bytes_per_line : Nat)))) := by
  induction n generalizing offset label os with
  | zero =>
    rw [Nat.zero_add, Nat.zero_mul, Nat.cast_zero, Int.add_zero, Int.add_zero]
    rfl
  | succ n ih =>
    have hfirst := hin 0 (Nat.zero_lt_succ n)
    rw [Nat.zero_mul, Nat.cast_zero, Int.add_zero] at hfirst
    rw [Nat.succ_mul, Nat.cast_add] at hhigh ⊢
    rw [Nat.add_right_comm]
    unfold hexdump_loop put_lines
    rw [if_pos hfirst]
    dsimp only
    cases put_line max_size o get_data offset (put_label o (toOff label) os) with
    | error fault => rfl
    | ok os =>
      have hnext : toOff (offset + toOff o.bytes_per_line) = offset + o.bytes_per_line := by
        rw [toOff_add_toOff, toOff_of_range (by omega) (by omega)]
      have hlabel : toOff (toOff label + toOff o.bytes_per_line) =
          toOff (label + o.bytes_per_line) := by
        rw [toOff_add_toOff, Int.add_comm, toOff_add_toOff, Int.add_comm]
      have hrest : ∀ j < n, offset + o.bytes_per_line + (j * o.bytes_per_line : Nat) ≤
          o.offset_end := by
        intro j hj
        have hlater := hin (j + 1) (Nat.succ_lt_succ hj)
        rw [Nat.succ_mul, Nat.cast_add] at hlater
        omega
      dsimp only
      rw [hnext, hlabel, ih (by omega) (by omega) hrest, Int.add_assoc, Int.add_assoc,
        Int.add_comm (o.bytes_per_line : Int)]

/-! ## The pieces -/

/-- The same lines for the offsets from `s` to `e`. -/
def Layout.within (o : Layout) (s e : Int) : Layout := { o with offset_start := s, offset_end := e }

/-- The first `n` lines. -/
def Layout.upTo (o : Layout) (n : Nat) : Layout :=
  o.within o.offset_start (o.offset_start + (n * o.bytes_per_line : Nat) - 1)

/-- The lines behind the first `n`. -/
def Layout.behind (o : Layout) (n : Nat) : Layout :=
  o.within (o.offset_start + (n * o.bytes_per_line : Nat)) o.offset_end

/-- A dump that is cut after so many lines each. -/
def pieces (o : Layout) : List Nat → List Layout
  | [] => [o]
  | n :: ns => o.upTo n :: pieces (o.behind n) ns

theorem row_loop_within (o : Layout) (s e : Int) (get_data : HexdumpGetdata) (offset : Int)
    (n idx : Nat) (row : Row) :
    row_loop max_size (o.within s e) get_data offset n idx row =
      row_loop max_size o get_data offset n idx row := by
  induction n generalizing idx row with
  | zero => rfl
  | succ n ih =>
    -- the spaces of a cell have no part in the range
    rw [row_loop_succ, row_loop_succ]
    exact congrArg (Except.bind _) (funext fun hex => ih _ _)

theorem put_line_within (o : Layout) (s e : Int) (get_data : HexdumpGetdata) (offset : Int)
    (os : Ostream) :
    put_line max_size (o.within s e) get_data offset os =
      put_line max_size o get_data offset os := by
  unfold put_line
  simp only [row_loop_within]
  rfl

theorem put_label_within (o : Layout) (s e : Int) (offset_line : Int) (os : Ostream) :
    put_label (o.within s e) offset_line os = put_label o offset_line os := rfl

theorem put_lines_within (o : Layout) (s e : Int) (get_data : HexdumpGetdata) (n : Nat)
    (offset offset_line : Int) (os : Ostream) :
    put_lines max_size (o.within s e) get_data n offset offset_line os =
      put_lines max_size o get_data n offset offset_line os := by
  induction n generalizing offset offset_line os with
  | zero => rfl
  | succ n ih =>
    unfold put_lines
    rw [put_label_within]
    dsimp only
    rw [put_line_within]
    cases put_line max_size o get_data offset (put_label o offset_line os) with
    | error fault => rfl
    | ok os => exact ih _ _ _

theorem hexdump_loop_within (o : Layout) (s : Int) (get_data : HexdumpGetdata) (fuel : Nat)
    (offset offset_line : Int) (os : Ostream) :
    hexdump_loop max_size (o.within s o.offset_end) get_data fuel offset offset_line os =
      hexdump_loop max_size o get_data fuel offset offset_line os := by
  induction fuel generalizing offset offset_line os with
  | zero => rfl
  | succ fuel ih =>
    unfold hexdump_loop
    apply if_congr Iff.rfl _ rfl
    rw [put_label_within]
    dsimp only
    rw [put_line_within]
    cases put_line max_size o get_data offset (put_label o offset_line os) with
    | error fault => rfl
    | ok os => exact ih _ _ _

/-- The first piece writes the first lines. -/
theorem hexdump_to_stream_upTo {o : Layout} (hline : 1 ≤ o.bytes_per_line)
    (hlow : -2 ^ 63 ≤ o.offset_start) {n : Nat}
    (hhigh : o.offset_start + (n * o.bytes_per_line : Nat) < 2 ^ 63)
    (get_data : HexdumpGetdata) (os : Ostream) (fuel : Nat) :
    hexdump_to_stream max_size (n + (fuel + 1)) os (o.upTo n) get_data =
      put_lines max_size o get_data n o.offset_start
        (toOff (o.voffset_at_zero + o.offset_start)) os := by
  have hlast : (o.upTo n).offset_end = o.offset_start + (n * o.bytes_per_line : Nat) - 1 := rfl
  have hin : ∀ j < n, o.offset_start + (j * o.bytes_per_line : Nat) ≤ (o.upTo n).offset_end := by
    intro j hj
    have hnext : (j + 1) * o.bytes_per_line ≤ n * o.bytes_per_line := Nat.mul_le_mul_right _ hj
    rw [Nat.succ_mul] at hnext
    omega
  have hloop := @hexdump_loop_lines max_size (o.upTo n) get_data n _ hlow hhigh hin
    (o.voffset_at_zero + o.offset_start) os (fuel + 1)
  have hend : ∀ label os, hexdump_loop max_size (o.upTo n) get_data (fuel + 1)
      (o.offset_start + (n * (o.upTo n).bytes_per_line : Nat)) label os = .returned os := by
    intro label os
    have hbytes : (o.upTo n).bytes_per_line = o.bytes_per_line := rfl
    rw [hexdump_loop, if_neg (by rw [hlast, hbytes]; omega)]
  have hlines : put_lines max_size (o.upTo n) get_data n = put_lines max_size o get_data n := by
    funext offset offset_line os
    exact put_lines_within o _ _ get_data n offset offset_line os
  rw [hlines] at hloop
  refine hloop.trans ?_
  cases put_lines max_size o get_data n o.offset_start _ os with
  | returned os₁ => exact hend _ os₁
  | stopped fault os₁ => rfl
  | running os₁ => rfl

/-- A dump that has `n` lines and more writes them, and then the lines behind. -/
theorem hexdump_to_stream_behind {o : Layout} (hlow : -2 ^ 63 ≤ o.offset_start) {n : Nat}
    (hhigh : o.offset_start + (n * o.bytes_per_line : Nat) < 2 ^ 63)
    (hin : ∀ j < n, o.offset_start + (j * o.bytes_per_line : Nat) ≤ o.offset_end)
    (get_data : HexdumpGetdata) (os : Ostream) (fuel : Nat) :
    hexdump_to_stream max_size (n + fuel) os o get_data =
      (put_lines max_size o get_data n o.offset_start
        (toOff (o.voffset_at_zero + o.offset_start)) os).andThen
          fun os => hexdump_to_stream max_size fuel os (o.behind n) get_data := by
  unfold hexdump_to_stream
  rw [hexdump_loop_lines get_data n hlow hhigh hin, Int.add_assoc o.voffset_at_zero]
  congr 1
  funext os
  exact (hexdump_loop_within o _ get_data fuel _ _ os).symm

/-- How the dumps end, one after the other on the stream. -/
def Ends (max_size : Nat) (os : Ostream) (dumps : List (Layout × HexdumpGetdata))
    (out : Outcome) : Prop :=
  out.Ended ∧ ∃ fuel, write_all max_size fuel os dumps = out

theorem ends_singleton (os : Ostream) (o : Layout) (get_data : HexdumpGetdata) (out : Outcome) :
    Ends max_size os [(o, get_data)] out ↔
      out.Ended ∧ ∃ fuel, hexdump_to_stream max_size fuel os o get_data = out := by
  have hone : ∀ fuel, write_all max_size fuel os [(o, get_data)] =
      hexdump_to_stream max_size fuel os o get_data := by
    intro fuel
    rw [write_all_cons]
    cases hexdump_to_stream max_size fuel os o get_data <;> rfl
  unfold Ends
  simp only [hone]

/-- The first piece ends, and the others go on where it returns. -/
theorem ends_upTo_cons {o : Layout} (hline : 1 ≤ o.bytes_per_line)
    (hlow : -2 ^ 63 ≤ o.offset_start) {n : Nat}
    (hhigh : o.offset_start + (n * o.bytes_per_line : Nat) < 2 ^ 63) (get_data : HexdumpGetdata)
    (os : Ostream) (dumps : List (Layout × HexdumpGetdata)) (out : Outcome) :
    Ends max_size os ((o.upTo n, get_data) :: dumps) out ↔
      out.Ended ∧ ∃ fuel, (put_lines max_size o get_data n o.offset_start
        (toOff (o.voffset_at_zero + o.offset_start)) os).andThen
          (fun os => write_all max_size fuel os dumps) = out := by
  have hfirst := @hexdump_to_stream_upTo max_size o hline hlow n hhigh get_data os
  unfold Ends
  constructor
  · rintro ⟨hended, fuel, rfl⟩
    refine ⟨hended, n + (fuel + 1), ?_⟩
    rw [← hfirst fuel]
    exact (write_all_cons _ _ _ _).symm.trans (write_all_stays hended (by omega))
  · rintro ⟨hended, fuel, rfl⟩
    refine ⟨hended, n + (fuel + 1), ?_⟩
    rw [write_all_cons, hfirst fuel]
    cases hlines : put_lines max_size o get_data n o.offset_start
        (toOff (o.voffset_at_zero + o.offset_start)) os with
    | returned os₁ =>
      rw [hlines] at hended
      exact write_all_stays hended (by omega)
    | stopped fault os₁ => rfl
    | running os₁ => rfl

theorem ends_behind {o : Layout} (hlow : -2 ^ 63 ≤ o.offset_start) {n : Nat}
    (hhigh : o.offset_start + (n * o.bytes_per_line : Nat) < 2 ^ 63)
    (hin : ∀ j < n, o.offset_start + (j * o.bytes_per_line : Nat) ≤ o.offset_end)
    (get_data : HexdumpGetdata) (os : Ostream) (out : Outcome) :
    Ends max_size os [(o, get_data)] out ↔
      out.Ended ∧ ∃ fuel, (put_lines max_size o get_data n o.offset_start
        (toOff (o.voffset_at_zero + o.offset_start)) os).andThen
          (fun os => hexdump_to_stream max_size fuel os (o.behind n) get_data) = out := by
  have hsplit := @hexdump_to_stream_behind max_size o hlow n hhigh hin get_data os
  rw [ends_singleton]
  constructor
  · rintro ⟨hended, fuel, rfl⟩
    refine ⟨hended, fuel, ?_⟩
    rw [← hsplit fuel]
    exact hexdump_loop_stays hended (Nat.le_add_left fuel n)
  · rintro ⟨hended, fuel, rfl⟩
    exact ⟨hended, n + fuel, hsplit fuel⟩

theorem ends_pieces {o : Layout} (hline : 1 ≤ o.bytes_per_line) (hlow : -2 ^ 63 ≤ o.offset_start)
    (hhigh : o.offset_end + o.bytes_per_line < 2 ^ 63) {ns : List Nat} (hns : ∀ n ∈ ns, 0 < n)
    (hin : ∀ j < ns.sum, o.offset_start + (j * o.bytes_per_line : Nat) ≤ o.offset_end)
    (get_data : HexdumpGetdata) (os : Ostream) (out : Outcome) :
    Ends max_size os ((pieces o ns).map fun piece => (piece, get_data)) out ↔
      Ends max_size os [(o, get_data)] out := by
  induction ns generalizing o os with
  | nil => rfl
  | cons n ns ih =>
    rw [List.forall_mem_cons] at hns
    rw [List.sum_cons] at hin
    have hlast := hin (n - 1) (by omega)
    have hend : o.offset_start + (n * o.bytes_per_line : Nat) < 2 ^ 63 := by
      have hmul : n * o.bytes_per_line = (n - 1) * o.bytes_per_line + o.bytes_per_line := by
        rw [← Nat.succ_mul, Nat.succ_eq_add_one, Nat.sub_add_cancel hns.1]
      omega
    have hbehind : ∀ j < ns.sum,
        (o.behind n).offset_start + (j * o.bytes_per_line : Nat) ≤ o.offset_end := by
      intro j hj
      have hlater := hin (n + j) (Nat.add_lt_add_left hj n)
      rw [Nat.add_mul, Nat.cast_add, ← Int.add_assoc] at hlater
      exact hlater
    have hstart : -2 ^ 63 ≤ (o.behind n).offset_start := by
      show _ ≤ o.offset_start + (n * o.bytes_per_line : Nat)
      omega
    rw [pieces, List.map_cons, ends_upTo_cons hline hlow hend,
      ends_behind hlow hend fun j hj => hin j (Nat.lt_add_right _ hj)]
    apply and_congr_right
    intro hended
    cases put_lines max_size o get_data n o.offset_start
        (toOff (o.voffset_at_zero + o.offset_start)) os with
    | returned os₁ =>
      have hrest := ih (o := o.behind n) hline hstart hhigh hns.2 hbehind os₁
      rw [ends_singleton] at hrest
      exact (and_congr_right_iff.mp hrest) hended
    | stopped fault os₁ => rfl
    | running os₁ => rfl

/-- A dump may be cut behind any of its lines: its pieces write to one stream what it
writes, and stop where it stops. -/
theorem a_dump_may_be_cut_between_its_lines {o : Layout} (hline : 1 ≤ o.bytes_per_line)
    (hlow : -2 ^ 63 ≤ o.offset_start) (hhigh : o.offset_end + o.bytes_per_line < 2 ^ 63)
    {ns : List Nat} (hns : ∀ n ∈ ns, 0 < n) (hsum : ns.sum ≤ lineCount o)
    (get_data : HexdumpGetdata) (os : Ostream) (out : Outcome) :
    Ends max_size os ((pieces o ns).map fun piece => (piece, get_data)) out ↔
      Ends max_size os [(o, get_data)] out := by
  apply ends_pieces hline hlow hhigh hns
  -- the group size plays no part in the number of lines
  have hfits : Fits { o with bytes_per_group := 1 } := ⟨hline, Nat.le_refl 1, hlow, hhigh⟩
  intro j hj
  exact (lt_lineCount_iff hfits j).mp (Nat.lt_of_lt_of_le hj hsum)

/-- Two lines in one dump and the third, without data, in another. -/
theorem a_dump_is_cut_behind_its_second_line :
    ∃ os', Ends (2 ^ 62 - 1) Ostream.init
        ((pieces ⟨2, 1, 0, 1, 0, 5, 254, true, true⟩ [2]).map fun piece =>
          (piece, make_getdata_t [171, 65, 10, 66])) (.returned os') ∧
      os'.text = "000000FE : AB 41 : .A\n00000100 : 0A 42 : .B\n00000102 :       : \n".toList := by
  refine ⟨after ⟨2, 1, 0, 1, 0, 5, 254, true, true⟩ Ostream.init _, ?_, rfl⟩
  apply (a_dump_may_be_cut_between_its_lines (by decide) (by decide) (by decide) (by decide)
    (by decide) _ _ _).mpr
  exact ⟨trivial, 4, by decide +kernel⟩

/-! ## Aligned dumps -/

/-- `hexdump_align`. The remainder has the sign of the offset, and the smallest `off_t` has
none by -1. -/
def hexdump_align (voffset_at_zero : Int) (bytes_per_line : Nat) : Except Fault Int :=
  if toOff bytes_per_line = 0 then .error .division_by_zero
  else if voffset_at_zero = -2 ^ 63 ∧ toOff bytes_per_line = -1 then .error .division_overflow
  else
    let offset := voffset_at_zero.tmod (toOff bytes_per_line)
    .ok (voffset_at_zero - offset)

/-- A dump from the virtual offset `s` on. -/
def Layout.startAt (o : Layout) (s : Int) : Layout := o.within (s - o.voffset_at_zero) o.offset_end

/-- Line `q` of the virtual offsets, label and all. -/
def addressLine (o : Layout) (get_data : HexdumpGetdata) (q : Nat) : List Char :=
  labelText o.display_uppercase (q * o.bytes_per_line) ++
    lineEnd o ((List.range o.bytes_per_line).map fun idx : Nat =>
      get_data ((q * o.bytes_per_line + idx : Nat) - o.voffset_at_zero)) ++ ['\n']

theorem hexdump_align.spec {v : Nat} {bytes_per_line : Nat} (hpos : 1 ≤ bytes_per_line)
    (hline : bytes_per_line < 2 ^ 63) :
    hexdump_align v bytes_per_line = .ok ((v / bytes_per_line * bytes_per_line : Nat) : Int) := by
  have hoff : toOff bytes_per_line = bytes_per_line := toOff_of_range (by omega) (by omega)
  have hsplit := Nat.div_add_mod' v bytes_per_line
  unfold hexdump_align
  rw [hoff, if_neg (by omega), if_neg (by omega)]
  dsimp only
  rw [← Int.ofNat_tmod]
  apply congrArg Except.ok
  omega

theorem render_range (o : Layout) (upper : Bool) (f : Nat → List Char) (n k : Nat) :
    render o upper k ((List.range' k n).map f) =
      ((List.range' k n).map fun j =>
        labelText upper (labelAt o j) ++ f j ++ ['\n']).flatten := by
  induction n generalizing k with
  | zero => rfl
  | succ n ih =>
    rw [List.range'_succ, List.map_cons, render, ih, List.map_cons, List.flatten_cons]

theorem lineEnd_within (o : Layout) (s e : Int) : lineEnd (o.within s e) = lineEnd o := by
  have hcolumn : column (o.within s e) = column o := by
    funext i cells
    induction cells generalizing i with
    | nil => rfl
    | cons c cells ih =>
      rw [column, ih]
      rfl
  funext cells
  unfold lineEnd
  rw [hcolumn]
  rfl

theorem lineCount_startAt {o : Layout} (hpos : 1 ≤ o.bytes_per_line) {v last q : Nat}
    (hv : o.voffset_at_zero = v) (hlast : o.offset_end = last)
    (hq : q * o.bytes_per_line ≤ v) :
    lineCount (o.startAt (q * o.bytes_per_line : Nat)) =
      (v + last) / o.bytes_per_line + 1 - q := by
  have hle : q ≤ (v + last) / o.bytes_per_line :=
    (Nat.le_div_iff_mul_le hpos).mpr (Nat.le_add_right_of_le hq)
  have hsize : (last : Int) - ((q * o.bytes_per_line : Nat) - v) =
      (v + last - o.bytes_per_line * q : Nat) := by
    rw [Nat.mul_comm o.bytes_per_line]
    omega
  have hline : (o.startAt (q * o.bytes_per_line : Nat)).bytes_per_line = o.bytes_per_line := rfl
  have hstart : (o.startAt (q * o.bytes_per_line : Nat)).offset_start =
      (q * o.bytes_per_line : Nat) - o.voffset_at_zero := rfl
  have hend : (o.startAt (q * o.bytes_per_line : Nat)).offset_end = o.offset_end := rfl
  unfold lineCount
  rw [hline, hstart, hend, hv, hlast, if_pos (by omega), hsize, ← Int.natCast_ediv,
    Nat.sub_mul_div]
  omega

/-- Line `j` of a dump from a multiple of the line's size on. -/
theorem line_startAt {o : Layout} (get_data : HexdumpGetdata) {q j : Nat}
    (h : (q + j) * o.bytes_per_line < 2 ^ 64) :
    labelText o.display_uppercase (labelAt (o.startAt (q * o.bytes_per_line : Nat)) j) ++
        lineEnd (o.startAt (q * o.bytes_per_line : Nat))
          (lineCells (o.startAt (q * o.bytes_per_line : Nat)) get_data j) ++ ['\n'] =
      addressLine o get_data (q + j) := by
  have hlabel : labelAt (o.startAt (q * o.bytes_per_line : Nat)) j =
      (q + j) * o.bytes_per_line := by
    show toSize (o.voffset_at_zero + ((q * o.bytes_per_line : Nat) - o.voffset_at_zero) +
      j * o.bytes_per_line) = _
    rw [← Nat.mod_eq_of_lt h, ← toSize_natCast, Nat.add_mul]
    congr 1
    rw [Nat.cast_add, Nat.cast_mul j]
    omega
  have hcells : lineCells (o.startAt (q * o.bytes_per_line : Nat)) get_data j =
      (List.range o.bytes_per_line).map fun idx : Nat =>
        get_data (((q + j) * o.bytes_per_line + idx : Nat) - o.voffset_at_zero) := by
    apply List.map_congr_left
    intro idx _
    apply congrArg get_data
    show (q * o.bytes_per_line : Nat) - o.voffset_at_zero + (j * o.bytes_per_line + idx : Nat) = _
    rw [Nat.add_mul]
    omega
  have hend : lineEnd (o.startAt (q * o.bytes_per_line : Nat)) = lineEnd o := lineEnd_within o _ _
  unfold addressLine
  rw [hlabel, hcells, hend]

/-- An aligned dump writes the lines of the virtual offsets, from the one with the offset
zero to the one with the last offset. -/
theorem an_aligned_dump_shows_each_byte_by_its_virtual_offset {o : Layout}
    (hline : 1 ≤ o.bytes_per_line) (hgroup : 1 ≤ o.bytes_per_group)
    {v last : Nat} (hv : o.voffset_at_zero = v) (hoff : v < 2 ^ 63)
    (hlast : o.offset_end = last) (hhigh : last + o.bytes_per_line < 2 ^ 63) {s : Int}
    (hs : hexdump_align o.voffset_at_zero o.bytes_per_line = .ok s)
    (get_data : HexdumpGetdata) (text : List Char) :
    (∃ fuel, hexdump_to_string max_size fuel (o.startAt s) get_data = some text) ↔
      Sized max_size o ∧ text = ((List.range' (v / o.bytes_per_line)
        ((v + last) / o.bytes_per_line + 1 - v / o.bytes_per_line)).map
          (addressLine o get_data)).flatten ∧ text.length ≤ max_size := by
  rw [hv, hexdump_align.spec hline (by omega)] at hs
  obtain rfl := Except.ok.inj hs
  obtain ⟨q, hq⟩ : ∃ q, q = v / o.bytes_per_line := ⟨_, rfl⟩
  rw [← hq]
  have hfloor : q * o.bytes_per_line ≤ v := hq ▸ Nat.div_mul_le_self v o.bytes_per_line
  have hmono : q ≤ (v + last) / o.bytes_per_line :=
    (Nat.le_div_iff_mul_le hline).mpr (Nat.le_add_right_of_le hfloor)
  have hfits : Fits (o.startAt (q * o.bytes_per_line : Nat)) := by
    refine ⟨hline, hgroup, ?_, ?_⟩
    · show _ ≤ ((q * o.bytes_per_line : Nat) : Int) - o.voffset_at_zero
      omega
    · show o.offset_end + o.bytes_per_line < 2 ^ 63
      omega
  have hcount := lineCount_startAt hline hv hlast hfloor
  have htext : dumpText (o.startAt (q * o.bytes_per_line : Nat)) o.display_uppercase get_data =
      ((List.range' q ((v + last) / o.bytes_per_line + 1 - q)).map
        (addressLine o get_data)).flatten := by
    unfold dumpText dumpCells
    rw [hcount, List.map_map, List.range_eq_range', render_range, List.range'_eq_map_range,
      List.range'_eq_map_range, List.map_map, List.map_map]
    congr 1
    apply List.map_congr_left
    intro j hj
    have hlt := List.mem_range.mp hj
    have hlabel : (q + j) * o.bytes_per_line < 2 ^ 64 := by
      have hle : (q + j) * o.bytes_per_line ≤ v + last :=
        (Nat.le_div_iff_mul_le hline).mp (by omega)
      omega
    simp only [Function.comp_apply, Nat.zero_add]
    exact line_startAt get_data hlabel
  rw [hexdump_to_string_iff hfits, hcount, ← htext]
  apply and_congr_left
  intro _
  exact ⟨fun hsize => hsize (by omega), fun hsize _ => hsize⟩

/-- Three bytes at the virtual offset 5, from offset 4 on. -/
theorem three_bytes_are_shown_from_an_aligned_offset :
    ∃ fuel, hexdump_to_string (2 ^ 62 - 1) fuel
      (Layout.startAt ⟨4, 1, 0, 0, 0, 2, 5, true, false⟩ 4)
      (make_getdata_t [65, 66, 67]) = some "00000004 :   414243 :  ABC\n".toList :=
  (an_aligned_dump_shows_each_byte_by_its_virtual_offset (v := 5) (by decide) (by decide) rfl
    (by decide) (show (2 : Int) = (2 : Nat) from rfl) (by decide) (by decide +kernel)
    _ _).mpr
      ⟨by decide, by decide +kernel, by decide +kernel⟩

end rmrf.utils
