-- Several dumps on one stream: what one leaves on the stream for the next, and where the
-- labels show it.
import Rmrf.HexdumpText

open machine ostream

namespace rmrf.utils

/-! ## The case of the labels -/

/-- A label of the dump has a letter. -/
def LetterOnLabel (o : Layout) : Prop := ∃ k < lineCount o, ∃ d ∈ digits 16 (labelAt o k), 10 ≤ d

@[simp] theorem length_labelText (upper : Bool) (n : Nat) :
    (labelText upper n).length = max 8 (digits 16 n).length + 3 := by
  rw [labelText, List.length_append, length_pad, length_numeral]
  rfl

theorem labelText_eq_iff (n : Nat) :
    labelText true n = labelText false n ↔ ∀ d ∈ digits 16 n, d < 10 := by
  unfold labelText pad
  rw [List.append_left_inj, length_numeral, length_numeral, List.append_right_inj, numeral_eq_iff]

theorem length_render (o : Layout) (upper : Bool) (k : Nat) (ends : List (List Char)) :
    (render o upper k ends).length = (render o false k ends).length := by
  induction ends generalizing k with
  | nil => rfl
  | cons e ends ih => simp only [render, List.length_append, length_labelText, ih]

theorem render_eq_iff (o : Layout) (k : Nat) (ends : List (List Char)) :
    render o true k ends = render o false k ends ↔
      ∀ j < ends.length, ∀ d ∈ digits 16 (labelAt o (k + j)), d < 10 := by
  induction ends generalizing k with
  | nil => simp [render]
  | cons e ends ih =>
    have hsplit : render o true k (e :: ends) = render o false k (e :: ends) ↔
        labelText true (labelAt o k) = labelText false (labelAt o k) ∧
          render o true (k + 1) ends = render o false (k + 1) ends := by
      simp only [render, List.append_assoc]
      constructor
      · intro h
        obtain ⟨hlabel, hrest⟩ := List.append_inj h (by simp)
        exact ⟨hlabel, List.append_cancel_left (List.append_cancel_left hrest)⟩
      · rintro ⟨hlabel, hrest⟩
        rw [hlabel, hrest]
    rw [hsplit, labelText_eq_iff, ih]
    constructor
    · rintro ⟨hfirst, hrest⟩ j hj
      cases j with
      | zero => exact hfirst
      | succ j =>
        rw [← Nat.add_assoc, Nat.add_right_comm]
        exact hrest j (Nat.lt_of_succ_lt_succ hj)
    · intro hall
      refine ⟨hall 0 (Nat.zero_lt_succ _), ?_⟩
      intro j hj
      have hlater := hall (j + 1) (Nat.succ_lt_succ hj)
      rwa [← Nat.add_assoc, Nat.add_right_comm] at hlater

/-- The case of a dump's labels shows exactly on letters. -/
theorem dumpText_eq_iff (o : Layout) (get_data : HexdumpGetdata) :
    dumpText o true get_data = dumpText o false get_data ↔ ¬ LetterOnLabel o := by
  unfold dumpText LetterOnLabel
  rw [render_eq_iff]
  simp [dumpCells]

/-! ## Dumps one after the other -/

/-- `hexdump_to_stream` for each of the dumps, one after the other. -/
def write_all (max_size fuel : Nat) : Ostream → List (Layout × HexdumpGetdata) → Outcome
  | os, [] => .returned os
  | os, (o, get_data) :: dumps =>
    match hexdump_to_stream max_size fuel os o get_data with
    | .returned os => write_all max_size fuel os dumps
    | .stopped fault os => .stopped fault os
    | .running os => .running os

/-- The dump writes a line in upper case. -/
def LeavesUppercase (o : Layout) : Prop :=
  o.display_uppercase = true ∧ o.offset_start ≤ o.offset_end

/-- The dump shows the case of the stream that it is given. -/
def ShowsUppercase (o : Layout) : Prop := o.display_uppercase = false ∧ LetterOnLabel o

/-- What a dump writes on its own. -/
def ownText (d : Layout × HexdumpGetdata) : List Char := dumpText d.1 d.1.display_uppercase d.2

/-- The case after a dump. -/
def upperAfter (upper : Bool) (o : Layout) : Bool :=
  upper || (o.display_uppercase && decide (0 < lineCount o))

/-- What the dumps write to a stream that is in upper case or not. -/
def writtenText : Bool → List (Layout × HexdumpGetdata) → List Char
  | _, [] => []
  | upper, (o, get_data) :: dumps =>
    dumpText o (upper || o.display_uppercase) get_data ++ writtenText (upperAfter upper o) dumps

theorem uppercase_wrote (o : Layout) (os : Ostream) (text : List Char) :
    (wrote o (lineCount o) os text).uppercase = upperAfter os.uppercase o := by
  unfold wrote upperAfter
  split_ifs with hcount
  · simp [hcount]
  · simp [after, Nat.pos_of_ne_zero hcount]

theorem write_all_text {max_size : Nat} {dumps : List (Layout × HexdumpGetdata)}
    (hfits : ∀ d ∈ dumps, Fits d.1) {fuel : Nat} {os os' : Ostream}
    (h : write_all max_size fuel os dumps = .returned os') :
    os'.text = os.text ++ writtenText os.uppercase dumps := by
  induction dumps generalizing os with
  | nil =>
    rw [← Outcome.returned.inj h]
    exact (List.append_nil _).symm
  | cons d dumps ih =>
    obtain ⟨o, get_data⟩ := d
    rw [List.forall_mem_cons] at hfits
    unfold write_all at h
    cases hdump : hexdump_to_stream max_size fuel os o get_data with
    | returned os₁ =>
      rw [hdump] at h
      obtain ⟨-, rfl⟩ := (returned_iff hfits.1 get_data os os₁).mp ⟨fuel, hdump⟩
      rw [ih hfits.2 h, text_wrote, uppercase_wrote, writtenText, List.append_assoc]
    | stopped fault os₁ =>
      rw [hdump] at h
      cases h
    | running os₁ =>
      rw [hdump] at h
      cases h

theorem write_all_returns {max_size : Nat} {dumps : List (Layout × HexdumpGetdata)}
    (hfits : ∀ d ∈ dumps, Fits d.1)
    (hsize : ∀ d ∈ dumps, 0 < lineCount d.1 → Sized max_size d.1)
    {fuel : Nat} (hfuel : ∀ d ∈ dumps, lineCount d.1 < fuel) (os : Ostream) :
    ∃ os', write_all max_size fuel os dumps = .returned os' := by
  induction dumps generalizing os with
  | nil => exact ⟨os, rfl⟩
  | cons d dumps ih =>
    obtain ⟨o, get_data⟩ := d
    rw [List.forall_mem_cons] at hfits hsize hfuel
    unfold write_all
    rw [hexdump_to_stream.spec hfits.1 hsize.1 get_data os hfuel.1]
    exact ih hfits.2 hsize.2 hfuel.2 _

theorem exists_fuel (dumps : List (Layout × HexdumpGetdata)) :
    ∃ fuel, ∀ d ∈ dumps, lineCount d.1 < fuel := by
  refine ⟨(dumps.map fun d => lineCount d.1).sum + 1, ?_⟩
  intro d hd
  exact Nat.lt_succ_of_le (List.le_sum_of_mem (List.mem_map_of_mem hd))

/-! ## What a dump leaves behind -/

theorem length_dumpText (o : Layout) (upper upper' : Bool) (get_data : HexdumpGetdata) :
    (dumpText o upper get_data).length = (dumpText o upper' get_data).length := by
  unfold dumpText
  rw [length_render, ← length_render o upper']

/-- A dump on a stream in upper case writes its own text but for the letters on its
labels. -/
theorem dumpText_eq_ownText_iff (d : Layout × HexdumpGetdata) (upper : Bool) :
    dumpText d.1 (upper || d.1.display_uppercase) d.2 = ownText d ↔
      (upper = true → ¬ ShowsUppercase d.1) := by
  unfold ownText ShowsUppercase
  cases upper with
  | false => simp
  | true =>
    cases hupper : d.1.display_uppercase with
    | false => simp [dumpText_eq_iff]
    | true => simp

theorem upperAfter_iff {o : Layout} (h : Fits o) (upper : Bool) :
    upperAfter upper o = true ↔ upper = true ∨ LeavesUppercase o := by
  have hcount := lt_lineCount_iff h 0
  rw [Nat.zero_mul, Nat.cast_zero, Int.add_zero] at hcount
  unfold upperAfter LeavesUppercase
  rw [Bool.or_eq_true, Bool.and_eq_true, decide_eq_true_iff, hcount]

theorem writtenText_iff {dumps : List (Layout × HexdumpGetdata)} (hfits : ∀ d ∈ dumps, Fits d.1)
    (upper : Bool) :
    writtenText upper dumps = (dumps.map ownText).flatten ↔
      (upper = true → ∀ d ∈ dumps, ¬ ShowsUppercase d.1) ∧
        dumps.Pairwise fun d e => LeavesUppercase d.1 → ¬ ShowsUppercase e.1 := by
  induction dumps generalizing upper with
  | nil => simp [writtenText]
  | cons d dumps ih =>
    rw [List.forall_mem_cons] at hfits
    have hsplit : writtenText upper (d :: dumps) = ((d :: dumps).map ownText).flatten ↔
        (upper = true → ¬ ShowsUppercase d.1) ∧
          writtenText (upperAfter upper d.1) dumps = (dumps.map ownText).flatten := by
      rw [← dumpText_eq_ownText_iff d upper, writtenText, List.map_cons, List.flatten_cons]
      constructor
      · intro h
        exact List.append_inj h (length_dumpText d.1 _ _ d.2)
      · rintro ⟨hfirst, hrest⟩
        rw [hfirst, hrest]
    rw [hsplit, ih hfits.2, upperAfter_iff hfits.1, List.pairwise_cons, List.forall_mem_cons]
    constructor
    · rintro ⟨hfirst, hlater, hpairs⟩
      refine ⟨?_, ?_, hpairs⟩
      · intro hupper
        exact ⟨hfirst hupper, hlater (.inl hupper)⟩
      · intro e he hleaves
        exact hlater (.inr hleaves) e he
    · rintro ⟨hupper, hfirst, hpairs⟩
      refine ⟨fun h => (hupper h).1, ?_, hpairs⟩
      rintro (h | hleaves) e he
      · exact (hupper h).2 e he
      · exact hfirst e he hleaves

/-- The dumps write to one stream what each of them is as a string. -/
def WritesStrings (max_size : Nat) (dumps : List (Layout × HexdumpGetdata))
    (texts : List (List Char)) : Prop :=
  ∃ fuel os', write_all max_size fuel Ostream.init dumps = .returned os' ∧ os'.text = texts.flatten

/-- They do exactly when no dump that shows the case of its stream comes behind one that
leaves it in upper case. -/
theorem dumps_write_strings_unless_the_case_shows {max_size : Nat}
    {dumps : List (Layout × HexdumpGetdata)} (hfits : ∀ d ∈ dumps, Fits d.1)
    {texts : List (List Char)}
    (htexts : List.Forall₂
      (fun d text => ∃ fuel, hexdump_to_string max_size fuel d.1 d.2 = some text) dumps texts) :
    WritesStrings max_size dumps texts ↔
      dumps.Pairwise fun d e => LeavesUppercase d.1 → ¬ ShowsUppercase e.1 := by
  have hown : (∀ d ∈ dumps, 0 < lineCount d.1 → Sized max_size d.1) ∧
      texts = dumps.map ownText := by
    induction htexts with
    | nil => exact ⟨by simp, rfl⟩
    | cons hdump _ ih =>
      rw [List.forall_mem_cons] at hfits
      obtain ⟨hsize, htext, -⟩ := (hexdump_to_string_iff hfits.1 _ _).mp hdump
      obtain ⟨hsizes, htexts⟩ := ih hfits.2
      exact ⟨List.forall_mem_cons.mpr ⟨hsize, hsizes⟩, by rw [htext, htexts]; rfl⟩
  have hwritten := writtenText_iff hfits false
  rw [hown.2]
  constructor
  · rintro ⟨fuel, os', hret, htext⟩
    rw [write_all_text hfits hret] at htext
    exact (hwritten.mp htext).2
  · intro hpairs
    obtain ⟨fuel, hfuel⟩ := exists_fuel dumps
    obtain ⟨os', hret⟩ := write_all_returns hfits hown.1 hfuel Ostream.init
    refine ⟨fuel, os', hret, ?_⟩
    rw [write_all_text hfits hret]
    exact hwritten.mpr ⟨by simp, hpairs⟩

/-- In lower case first, the dumps write their strings. -/
theorem a_lower_dump_before_an_upper_one :
    WritesStrings (2 ^ 62 - 1)
      [(⟨1, 1, 0, 0, 0, 0, 10, false, false⟩, make_getdata_t [171]),
        (⟨1, 1, 0, 0, 0, 0, 11, false, true⟩, make_getdata_t [171])]
      ["0000000a : ab\n".toList, "0000000B : AB\n".toList] :=
  (dumps_write_strings_unless_the_case_shows
    (by decide)
    (.cons ⟨2, by decide +kernel⟩ (.cons ⟨2, by decide +kernel⟩ .nil))).mpr
    (by simp [LeavesUppercase])

/-- Behind a dump in upper case, the label of a dump in lower case is not in lower case. -/
theorem an_upper_dump_before_a_lower_one :
    hexdump_to_string (2 ^ 62 - 1) 2 ⟨1, 1, 0, 0, 0, 0, 11, false, true⟩
        (make_getdata_t [171]) = some "0000000B : AB\n".toList ∧
      hexdump_to_string (2 ^ 62 - 1) 2 ⟨1, 1, 0, 0, 0, 0, 10, false, false⟩
        (make_getdata_t [171]) = some "0000000a : ab\n".toList ∧
      ¬ WritesStrings (2 ^ 62 - 1)
        [(⟨1, 1, 0, 0, 0, 0, 11, false, true⟩, make_getdata_t [171]),
          (⟨1, 1, 0, 0, 0, 0, 10, false, false⟩, make_getdata_t [171])]
        ["0000000B : AB\n".toList, "0000000a : ab\n".toList] := by
  refine ⟨by decide +kernel, by decide +kernel, ?_⟩
  rintro ⟨fuel, os', hret, htext⟩
  rw [write_all_text _ hret] at htext
  · revert htext
    decide +kernel
  · decide

end rmrf.utils
