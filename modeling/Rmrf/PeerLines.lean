-- The lines of a peer: a line buffer at one end of a conversation gets what `in_data_cb`
-- is called with, and its complete lines are the first lines of what the other end was
-- given to write.
import Rmrf.ConversationLaws
import Rmrf.SearchedLines

open pieces runs

namespace rmrf.net

namespace Conversation

open ConnectionLineBuffer

/-- The text of a call of `in_data_cb`. -/
def call_of : Effect → Option (List UInt8)
  | .in_data_cb data => some data
  | _ => none

/-- The texts that `in_data_cb` was called with. -/
def calls (trace : List Effect) : List (List UInt8) := trace.filterMap call_of

theorem heard_eq (trace : List Effect) : heard trace = (calls trace).flatten := by
  induction trace with
  | nil => rfl
  | cons e rest ih =>
    have hcons : heard (e :: rest) = told e ++ heard rest := rfl
    rw [hcons, ih]
    cases e <;> rfl

/-- The pieces of a first part of a list are its first pieces. -/
theorem cut_prefix {isEnd : UInt8 → Bool} {lines : List (List UInt8)} (tail rest : List UInt8)
    (hlines : ∀ line ∈ lines, Piece isEnd line) :
    lines <+: (cut isEnd (lines.flatten ++ tail ++ rest)).1 := by
  induction lines with
  | nil => exact List.nil_prefix
  | cons line lines ih =>
    have hmore := ih (fun l hl => hlines l (List.mem_cons_of_mem line hl))
    rw [List.flatten_cons, List.append_assoc, List.append_assoc,
      cut_append isEnd (hlines line List.mem_cons_self), ← List.append_assoc]
    exact List.cons_prefix_cons.mpr ⟨rfl, hmore⟩

/-- However the steps of both sides and the chunks of the kernel come, the complete lines
that one side reads are the first lines of what the other was given to write, as long as no
line is given up on; and they are all of them when nothing is on its way or waits. -/
theorem each_side_reads_the_lines_of_the_other {left right : Endpoint} {as : List Action}
    {c : Conversation} (h : run next (start left right) as = some c) (side : Side)
    (hok : Meets next (Writes side.other) (start left right) as) (isEnd : UInt8 → Bool)
    (max : Nat) :
    ∃ fuel b, feed fuel (calls (c.party side).trace) ⟨search_behind isEnd, max, [], []⟩ =
        .returned b ∧
      b.held ++ c.wire side ++ (c.party side.other).unsent = said side.other as ∧
      ((∀ r ∈ b.found, r.2 = true) →
        b.lines <+: (cut isEnd (said side.other as)).1 ∧
        (c.wire side = [] → (c.party side.other).unsent = [] →
          (b.lines, b.data) = cut isEnd (said side.other as))) := by
  obtain ⟨b, hfeed, htidy, _, hheld⟩ := feed_behind isEnd max (calls (c.party side).trace)
  have hconserved : b.held ++ c.wire side ++ (c.party side.other).unsent = said side.other as := by
    rw [hheld, ← heard_eq, (sound_run h).conserved side]
    exact all_said_run hok h
  refine ⟨_, b, hfeed, hconserved, ?_⟩
  intro hall
  have hsplit : b.held = b.lines.flatten ++ b.data := by
    rw [held, lines_eq hall, List.flatMap_def]
  constructor
  · rw [← hconserved, hsplit, List.append_assoc]
    apply cut_prefix
    intro line hline
    rw [lines_eq hall] at hline
    obtain ⟨r, hr, rfl⟩ := List.mem_map.mp hline
    exact htidy.complete r hr (hall r hr)
  · intro hwire hun
    rw [hwire, hun, List.append_nil, List.append_nil] at hconserved
    rw [← hconserved]
    exact htidy.cut_held hall

/-- Two bytes of three have been heard. -/
theorem each_side_reads_the_lines_of_the_other_in_parts :
    let acts : List Action := [⟨.left, .write_data [97, LF, 98]⟩,
      ⟨.left, .cb_ev ev.WRITE (.come 0) (.accepts 9)⟩,
      ⟨.right, .cb_ev ev.READ (.come 2) (.accepts 0)⟩]
    ∃ c, run next (start ⟨true, 5, "::1", 25⟩ ⟨true, 6, "::1", 26⟩) acts = some c ∧
      calls (c.party .right).trace = [[97, LF]] ∧
      ∃ fuel b, feed fuel (calls (c.party .right).trace)
          ⟨search_behind (· == LF), 80, [], []⟩ = .returned b ∧
        b.held ++ c.wire .right ++ (c.party .left).unsent = [97, LF, 98] := by
  intro acts
  have hpasses : ∀ count, (WriteResult.accepts count).Passes := by simp [WriteResult.Passes]
  have hok : Meets next (Writes .left) (start ⟨true, 5, "::1", 25⟩ ⟨true, 6, "::1", 26⟩) acts := by
    refine ⟨fun _ _ => trivial, fun t ht => ?_⟩
    cases ht
    exact ⟨fun _ _ => hpasses 9, fun t _ => ⟨fun h => (by cases h), fun _ _ => trivial⟩⟩
  obtain ⟨c, hc, hcalls⟩ : ∃ c, run next (start ⟨true, 5, "::1", 25⟩ ⟨true, 6, "::1", 26⟩) acts =
      some c ∧ calls (c.party .right).trace = [[97, LF]] := ⟨_, rfl, rfl⟩
  obtain ⟨fuel, b, hfeed, hheld, _⟩ :=
    each_side_reads_the_lines_of_the_other hc .right hok (· == LF) 80
  exact ⟨c, hc, hcalls, fuel, b, hfeed, hheld⟩

end Conversation

end rmrf.net
