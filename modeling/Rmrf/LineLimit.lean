-- The limit on the length of a line. A call tests it when its loop is over, and so only
-- for what stays in the buffer: a line that a terminator ends is handed over as long as
-- it is.
import Rmrf.LineBuffer

namespace rmrf.net

open ConnectionLineBuffer

/-- No line that is handed over as complete is longer than the limit, and no call
returns with more than the limit in the buffer. -/
structure KeepsLimit (max : Nat) (chunks : List (List UInt8)) : Prop where
  reported : ∀ fuel, ∀ line ∈ (feed fuel chunks (of_max max)).buffer.lines, line.length ≤ max
  buffered : ∀ fuel k b, feed fuel (chunks.take k) (of_max max) = .returned b →
    b.data.length ≤ max

/-- The bytes that wait in the buffer behind chunks without terminator. More than the
limit are given up on. -/
def waiting (max : Nat) (chunks : List (List UInt8)) : Nat :=
  chunks.foldl (fun n c => if n + c.length > max then 0 else n + c.length) 0

/-- The first terminator of the stream ends a line that is not longer than the limit. -/
def FirstLineFits (max : Nat) (chunks : List (List UInt8)) : Prop :=
  ∀ before chunk behind p, chunks = before ++ chunk :: behind → (∀ c ∈ before, Unbroken c) →
    default_eol_search chunk 0 = some p → waiting max before + p ≤ max

/-! ## The buffer before the first terminator -/

theorem feed_append (fuel : Nat) (before behind : List (List UInt8)) (b : ConnectionLineBuffer) :
    feed fuel (before ++ behind) b =
      match feed fuel before b with
      | .returned b' => feed fuel behind b'
      | call => call := by
  induction before generalizing b with
  | nil => rfl
  | cons c rest ih =>
    rw [List.cons_append, feed, feed]
    cases conn_data_in_cb fuel c b with
    | running b' => rfl
    | returned b' => exact ih b'
    | threw b' => rfl

theorem feed_singleton {fuel : Nat} {c : List UInt8} {b b' : ConnectionLineBuffer}
    (h : conn_data_in_cb fuel c b = .returned b') : feed fuel [c] b = .returned b' := by
  rw [feed, h]
  rfl

/-- Chunks without terminator leave behind as many bytes as are waiting. -/
theorem feed_waiting {chunks : List (List UInt8)} (h : ∀ c ∈ chunks, Unbroken c) (fuel max : Nat) :
    ∃ b, feed (fuel + 1) chunks (of_max max) = .returned b ∧ b.search = default_eol_search ∧
      b.lines = [] ∧ b.max = max ∧ b.data.length = waiting max chunks := by
  induction chunks using List.reverseRecOn with
  | nil => exact ⟨of_max max, rfl, rfl, rfl, rfl, rfl⟩
  | append_singleton before c ih =>
    obtain ⟨b, hfeed, hs, hlines, hmax, hlen⟩ := ih (fun x hx => h x (List.mem_append_left _ hx))
    have hc : Unbroken c := h c (List.mem_append_right _ (List.mem_singleton_self c))
    have hcall := conn_data_in_cb_unbroken_eq hc fuel b hs
    have hwaiting : waiting max (before ++ [c]) =
        if waiting max before + c.length > max then 0 else waiting max before + c.length := by
      rw [waiting, List.foldl_append]
      rfl
    have hsum : (b.data ++ c).length = waiting max before + c.length := by
      rw [List.length_append, hlen]
    refine ⟨_, by rw [feed_append, hfeed]; exact feed_singleton hcall, ?_⟩
    rw [hsum, hmax, hwaiting]
    by_cases hlong : waiting max before + c.length > max
    · rw [if_pos hlong, if_pos hlong]
      refine ⟨hs, ?_, hmax, rfl⟩
      rw [← hlines]
      simp [lines, found_next_line_cb]
    · rw [if_neg hlong, if_neg hlong]
      exact ⟨hs, hlines, rfl, hsum⟩

/-- The line of the first terminator is what waits and the chunk up to there. -/
theorem feed_first_line {before : List (List UInt8)} (h : ∀ c ∈ before, Unbroken c)
    {chunk : List UInt8} {p : Nat} (hp : default_eol_search chunk 0 = some p)
    (behind : List (List UInt8)) (fuel max : Nat) :
    ∃ b line, feed (fuel + 1) (before ++ chunk :: behind) (of_max max) = .running b ∧
      line.length = waiting max before + p ∧ b.lines = line :: List.replicate fuel [] := by
  obtain ⟨b, hfeed, hs, hlines, _, hlen⟩ := feed_waiting h fuel max
  obtain ⟨b', hcall, hfound⟩ := conn_data_in_cb_of_terminator hp (fuel + 1) b hs
  refine ⟨b', b.data ++ chunk.take p, ?_, ?_, ?_⟩
  · rw [feed_append, hfeed]
    simp only [feed, hcall]
  · have hzero := default_eol_search_zero chunk
    rw [hp] at hzero
    have hlt := endsAt_lt hzero
    rw [List.length_append, List.length_take, hlen]
    omega
  · rw [hfound, hlines, List.nil_append, List.take_succ_cons, List.take_replicate]
    congr 2
    omega

/-- A stream has a first chunk with a terminator, or has none. -/
theorem unbroken_or_first_broken (chunks : List (List UInt8)) :
    (∀ c ∈ chunks, Unbroken c) ∨
      ∃ before chunk behind p, chunks = before ++ chunk :: behind ∧
        (∀ c ∈ before, Unbroken c) ∧ default_eol_search chunk 0 = some p := by
  induction chunks with
  | nil => exact Or.inl (by simp)
  | cons c rest ih =>
    cases hp : default_eol_search c 0 with
    | some p => exact Or.inr ⟨[], c, rest, p, rfl, by simp, hp⟩
    | none =>
      have hc : Unbroken c := (default_eol_search_eq_none_iff c).mp hp
      rcases ih with hrest | ⟨before, chunk, behind, p, rfl, hbefore, hchunk⟩
      · exact Or.inl (List.forall_mem_cons.mpr ⟨hc, hrest⟩)
      · exact Or.inr ⟨c :: before, chunk, behind, p, rfl, List.forall_mem_cons.mpr ⟨hc, hbefore⟩,
          hchunk⟩

/-! ## The limit -/

/-- What a call that has returned leaves in the buffer is never too long. -/
theorem buffered_of_returned {max fuel : Nat} {chunks : List (List UInt8)}
    {b : ConnectionLineBuffer} (h : feed fuel chunks (of_max max) = .returned b) :
    b.data.length ≤ max := by
  by_cases hun : ∀ c ∈ chunks, Unbroken c
  · cases fuel with
    | zero =>
      cases chunks with
      | nil =>
        cases h
        exact Nat.zero_le max
      | cons c rest => cases h
    | succ fuel =>
      obtain ⟨b', hfeed, hin⟩ := feed_of_unbroken hun fuel (of_max max) rfl (Nat.zero_le _)
      rw [hfeed] at h
      cases h
      have hfits := hin.fits
      rw [hin.max] at hfits
      exact hfits
  · push Not at hun
    obtain ⟨b', hfeed, _⟩ := feed_of_broken hun fuel (of_max max) rfl
    rw [hfeed] at h
    cases h

theorem lines_of_no_pass (max : Nat) (chunks : List (List UInt8)) :
    (feed 0 chunks (of_max max)).buffer.lines = [] := by
  cases chunks <;> rfl

/-- The limit holds exactly for a stream whose first terminator ends a line that fits:
each later report is of an empty line. -/
theorem the_limit_holds_when_the_first_line_fits (max : Nat) (chunks : List (List UInt8)) :
    KeepsLimit max chunks ↔ FirstLineFits max chunks := by
  constructor
  · rintro ⟨hreported, _⟩ before chunk behind p rfl hbefore hp
    obtain ⟨b, line, hfeed, hlen, hlines⟩ := feed_first_line hbefore hp behind 0 max
    have hle := hreported 1 line
    rw [hfeed, Call.buffer, hlines] at hle
    rw [← hlen]
    exact hle (List.mem_singleton_self line)
  · intro hfits
    refine ⟨?_, fun fuel k b => buffered_of_returned⟩
    intro fuel line hline
    cases fuel with
    | zero =>
      rw [lines_of_no_pass] at hline
      cases hline
    | succ fuel =>
      rcases unbroken_or_first_broken chunks with hun | ⟨before, chunk, behind, p, rfl, hbefore, hp⟩
      · obtain ⟨b, hfeed, _, hlines, _⟩ := feed_waiting hun fuel max
        rw [hfeed, Call.buffer, hlines] at hline
        cases hline
      · obtain ⟨b, first, hfeed, hlen, hlines⟩ := feed_first_line hbefore hp behind fuel max
        rw [hfeed, Call.buffer, hlines] at hline
        rcases List.mem_cons.mp hline with rfl | hempty
        · rw [hlen]
          exact hfits before chunk behind p rfl hbefore hp
        · rw [List.eq_of_mem_replicate hempty]
          exact Nat.zero_le max

/-- Six bytes pass a limit of four, in one chunk or in two. -/
theorem a_long_line_is_reported_as_complete :
    (feed 1 [[97, 98, 99, 100, 101, 102, LF]] (of_max 4)).buffer.lines =
        [[97, 98, 99, 100, 101, 102]] ∧
      (feed 1 [[97, 98, 99], [100, 101, 102, LF]] (of_max 4)).buffer.lines =
        [[97, 98, 99, 100, 101, 102]] ∧
      ¬ KeepsLimit 4 [[97, 98, 99, 100, 101, 102, LF]] := by
  refine ⟨rfl, rfl, ?_⟩
  intro h
  exact absurd (h.reported 1 [97, 98, 99, 100, 101, 102] (List.mem_singleton_self _)) (by decide)

end rmrf.net
