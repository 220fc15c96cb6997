-- The line buffer with a search of its user. Whatever the search finds, the callback and
-- the buffer have the bytes of the connection in their order; the calls end where no search
-- comes back to its start; and a search that ends behind the terminator splits the stream.
import Rmrf.LineBuffer
import Rmrf.Fields

open machine pieces

namespace rmrf.net

namespace ConnectionLineBuffer

/-! ## The bytes that the buffer has had -/

/-- The bytes of all payloads so far, and those in the buffer. -/
def held (b : ConnectionLineBuffer) : List UInt8 := b.found.flatMap Prod.fst ++ b.data

/-- The search finds a place from its start on, and none past the end. -/
def InBounds (search : List UInt8 → Nat → Option Nat) : Prop :=
  ∀ data start p, start ≤ data.length → search data start = some p →
    start ≤ p ∧ p ≤ data.length

theorem inBounds_default : InBounds default_eol_search := by
  intro data start p _ hp
  have hspec := eol_search_loop.spec data (data.length - start) start rfl
  unfold default_eol_search at hp
  rw [hp] at hspec
  obtain ⟨i, hi, rfl⟩ := hspec
  exact ⟨hi.le_lastOf, Nat.le_of_lt (endsAt_lt hi.endsAt)⟩

/-- The call has had these bytes, or a first part of them while it runs, and it does not
throw. -/
def Passes (b : ConnectionLineBuffer) (bytes : List UInt8) : Call → Prop
  | .running b' => b'.held <+: b.held ++ bytes
  | .returned b' => b'.held = b.held ++ bytes ∧ b'.search = b.search
  | .threw _ => False

theorem held_found (b : ConnectionLineBuffer) (line : List UInt8) (complete : Bool) :
    { b.found_next_line_cb (b.data ++ line) complete with data := [] }.held = b.held ++ line := by
  simp [held, found_next_line_cb]

theorem search_loop.spec {data_in : List UInt8} {b : ConnectionLineBuffer}
    (hs : InBounds b.search) {strpos : Nat} (hle : strpos ≤ data_in.length) (fuel : Nat) :
    Passes b (data_in.drop strpos) (search_loop data_in fuel strpos b) := by
  induction fuel generalizing strpos b with
  | zero => exact List.prefix_append _ _
  | succ fuel ih =>
    rw [search_loop]
    cases hp : b.search data_in strpos with
    | none =>
      simp only [substr_of_le hle, sizeSub_of_le hle]
      refine ⟨?_, rfl⟩
      rw [held, held, List.append_assoc, List.take_of_length_le (by simp)]
    | some p =>
      obtain ⟨hge, hp⟩ := hs data_in strpos p hle hp
      simp only [substr_of_le hle, sizeSub_of_le hge]
      have hrest := ih (b := { b.found_next_line_cb
        (b.data ++ (data_in.drop strpos).take (p - strpos)) true with data := [] }) hs hp
      -- what the line takes, and what is left behind it
      have hcut : data_in.drop strpos =
          (data_in.drop strpos).take (p - strpos) ++ data_in.drop p := by
        have hdrop : data_in.drop p = (data_in.drop strpos).drop (p - strpos) := by
          rw [List.drop_drop, Nat.add_sub_cancel' hge]
        rw [hdrop, List.take_append_drop]
      revert hrest
      cases search_loop data_in fuel p _ with
      | running b' =>
        intro hrest
        rw [Passes, held_found, List.append_assoc, ← hcut] at hrest
        exact hrest
      | returned b' =>
        rintro ⟨hheld, hsearch⟩
        rw [held_found, List.append_assoc, ← hcut] at hheld
        exact ⟨hheld, hsearch⟩
      | threw b' => exact id

theorem conn_data_in_cb.spec {b : ConnectionLineBuffer} (hs : InBounds b.search)
    (chunk : List UInt8) (fuel : Nat) : Passes b chunk (conn_data_in_cb fuel chunk b) := by
  have hloop := search_loop.spec hs (Nat.zero_le chunk.length) fuel
  rw [List.drop_zero] at hloop
  rw [conn_data_in_cb]
  revert hloop
  cases search_loop chunk fuel 0 b with
  | running b' => exact id
  | threw b' => exact id
  | returned b' =>
    rintro ⟨hheld, hsearch⟩
    by_cases hlong : b'.data.length > b'.max
    · simp only [if_pos hlong]
      refine ⟨?_, hsearch⟩
      have hfound := held_found b' [] false
      rw [List.append_nil, List.append_nil] at hfound
      rw [hfound, hheld]
    · simp only [if_neg hlong]
      exact ⟨hheld, hsearch⟩

theorem feed.spec {b : ConnectionLineBuffer} (hs : InBounds b.search) (fuel : Nat)
    (chunks : List (List UInt8)) : Passes b chunks.flatten (feed fuel chunks b) := by
  induction chunks generalizing b with
  | nil => exact ⟨by simp, rfl⟩
  | cons chunk rest ih =>
    have hcall := conn_data_in_cb.spec hs chunk fuel
    rw [feed]
    revert hcall
    cases conn_data_in_cb fuel chunk b with
    | running b' =>
      intro hcall
      rw [List.flatten_cons]
      exact hcall.trans (by rw [← List.append_assoc]; exact List.prefix_append _ _)
    | threw b' => exact id
    | returned b' =>
      rintro ⟨hheld, hsearch⟩
      have hrest := ih (b := b') (hsearch ▸ hs)
      simp only
      revert hrest
      cases feed fuel rest b' with
      | running b'' =>
        intro hrest
        rw [Passes, hheld, List.append_assoc] at hrest
        exact hrest
      | returned b'' =>
        rintro ⟨hheld', hsearch'⟩
        rw [hheld, List.append_assoc] at hheld'
        exact ⟨hheld', hsearch'.trans hsearch⟩
      | threw b'' => exact id

/-- With a search that finds places in its text, no call throws, and what the callback was
given so far and what waits in the buffer are the bytes of the chunks in their order: the
first ones while a call runs, and all of them when each call has returned. -/
theorem the_buffer_passes_on_what_comes_in {search : List UInt8 → Nat → Option Nat}
    (hs : InBounds search) (max fuel : Nat) (chunks : List (List UInt8)) :
    (∀ b, feed fuel chunks ⟨search, max, [], []⟩ ≠ .threw b) ∧
      (feed fuel chunks ⟨search, max, [], []⟩).buffer.held <+: chunks.flatten ∧
      ∀ b, feed fuel chunks ⟨search, max, [], []⟩ = .returned b → b.held = chunks.flatten := by
  have hpasses := feed.spec (b := ⟨search, max, [], []⟩) hs fuel chunks
  cases hfeed : feed fuel chunks ⟨search, max, [], []⟩ with
  | running b =>
    rw [hfeed] at hpasses
    exact ⟨by simp, hpasses, by simp⟩
  | returned b =>
    rw [hfeed] at hpasses
    have hheld : b.held = chunks.flatten := hpasses.1
    refine ⟨by simp, ?_, ?_⟩
    · rw [Call.buffer, hheld]
    · intro b' hb'
      cases hb'
      exact hheld
  | threw b =>
    rw [hfeed] at hpasses
    exact hpasses.elim

/-- The default search, in a chunk that its call does not leave. -/
theorem the_buffer_passes_on_a_line_without_end :
    (feed 3 [[97, LF, 98]] (of_max 80)).buffer.held = [97] ∧
      (feed 3 [[97, LF, 98]] (of_max 80)).buffer.held <+: [97, LF, 98] :=
  ⟨rfl, (the_buffer_passes_on_what_comes_in inBounds_default 80 3 [[97, LF, 98]]).2.1⟩

/-! ## The calls that end -/

/-- The places that the loop comes to in a chunk. -/
inductive Reaches (search : List UInt8 → Nat → Option Nat) (chunk : List UInt8) : Nat → Prop
  | start : Reaches search chunk 0
  | next {p q : Nat} : Reaches search chunk p → search chunk p = some q → Reaches search chunk q

theorem le_of_reaches {search : List UInt8 → Nat → Option Nat} (hs : InBounds search)
    {chunk : List UInt8} {p : Nat} (h : Reaches search chunk p) : p ≤ chunk.length := by
  induction h with
  | start => exact Nat.zero_le _
  | next _ hq ih => exact (hs _ _ _ ih hq).2

/-- One pass that finds a line goes on at its end. -/
theorem search_loop_some {data_in : List UInt8} {b : ConnectionLineBuffer} {p q : Nat}
    (hp : p ≤ data_in.length) (hq : b.search data_in p = some q) (fuel : Nat) :
    ∃ b', b'.search = b.search ∧
      search_loop data_in (fuel + 1) p b = search_loop data_in fuel q b' := by
  refine ⟨{ b.found_next_line_cb (b.data ++ (data_in.drop p).take (sizeSub q p)) true with
    data := [] }, rfl, ?_⟩
  simp only [search_loop, hq, substr_of_le hp]

theorem search_loop_none {data_in : List UInt8} {b : ConnectionLineBuffer} {p : Nat}
    (hp : p ≤ data_in.length) (hq : b.search data_in p = none) (fuel : Nat) :
    ∃ b', search_loop data_in (fuel + 1) p b = .returned b' := by
  simp only [search_loop, hq, substr_of_le hp]
  exact ⟨_, rfl⟩

/-- The loop stays in its run from a place on. -/
def RunsOn (search : List UInt8 → Nat → Option Nat) (chunk : List UInt8) (p : Nat) : Prop :=
  ∀ fuel b, b.search = search → ∃ b', search_loop chunk fuel p b = .running b'

theorem runsOn_of_stays {search : List UInt8 → Nat → Option Nat} {chunk : List UInt8} {p : Nat}
    (hp : p ≤ chunk.length) (hstays : search chunk p = some p) : RunsOn search chunk p := by
  intro fuel
  induction fuel with
  | zero => exact fun b _ => ⟨b, rfl⟩
  | succ fuel ih =>
    intro b hb
    obtain ⟨b', hb', hloop⟩ := search_loop_some hp (hb ▸ hstays) fuel
    rw [hloop]
    exact ih b' (hb'.trans hb)

/-- What runs on from a place runs on from the start. -/
theorem runsOn_of_reaches {search : List UInt8 → Nat → Option Nat} (hs : InBounds search)
    {chunk : List UInt8} {p : Nat} (h : Reaches search chunk p) (hon : RunsOn search chunk p) :
    RunsOn search chunk 0 := by
  induction h with
  | start => exact hon
  | @next p q hreach hq ih =>
    apply ih
    intro fuel b hb
    cases fuel with
    | zero => exact ⟨b, rfl⟩
    | succ fuel =>
      obtain ⟨b', hb', hloop⟩ := search_loop_some (le_of_reaches hs hreach) (hb ▸ hq) fuel
      rw [hloop]
      exact hon fuel b' (hb'.trans hb)

/-- Where no search comes back to its start, each pass takes the loop further on. -/
theorem search_loop_returns {search : List UInt8 → Nat → Option Nat} (hs : InBounds search)
    {chunk : List UInt8} (hmoves : ∀ p, Reaches search chunk p → search chunk p ≠ some p)
    {fuel p : Nat} (hfuel : chunk.length - p ≤ fuel) (hp : Reaches search chunk p)
    (b : ConnectionLineBuffer) (hb : b.search = search) :
    ∃ b', search_loop chunk (fuel + 1) p b = .returned b' := by
  have hle := le_of_reaches hs hp
  induction fuel generalizing p b with
  | zero =>
    cases hq : b.search chunk p with
    | none => exact search_loop_none hle hq 0
    | some q =>
      rw [hb] at hq
      obtain ⟨hge, hq'⟩ := hs chunk p q hle hq
      have heq : q = p := by omega
      exact absurd (heq ▸ hq) (hmoves p hp)
  | succ fuel ih =>
    cases hq : b.search chunk p with
    | none => exact search_loop_none hle hq (fuel + 1)
    | some q =>
      obtain ⟨b', hb', hloop⟩ := search_loop_some hle hq (fuel + 1)
      rw [hb] at hq
      obtain ⟨hge, hq'⟩ := hs chunk p q hle hq
      have hne : q ≠ p := fun heq => hmoves p hp (heq ▸ hq)
      rw [hloop]
      exact ih (by omega) (hp.next hq) b' (hb'.trans hb) hq'

/-- A call ends exactly when the search comes back to its start in no place that the loop
comes to, and then it needs a pass for each byte and one more. -/
theorem a_call_ends_unless_its_search_stays {search : List UInt8 → Nat → Option Nat}
    (hs : InBounds search) (max : Nat) (data : List UInt8) (found : List (List UInt8 × Bool))
    (chunk : List UInt8) :
    ((∃ fuel b, conn_data_in_cb fuel chunk ⟨search, max, data, found⟩ = .returned b) ↔
      ∀ p, Reaches search chunk p → search chunk p ≠ some p) ∧
    ((∀ p, Reaches search chunk p → search chunk p ≠ some p) →
      ∃ b, conn_data_in_cb (chunk.length + 1) chunk ⟨search, max, data, found⟩ = .returned b) := by
  have hends : (∀ p, Reaches search chunk p → search chunk p ≠ some p) →
      ∃ b, conn_data_in_cb (chunk.length + 1) chunk ⟨search, max, data, found⟩ = .returned b := by
    intro hmoves
    obtain ⟨b, hb⟩ := search_loop_returns hs hmoves (Nat.sub_le chunk.length 0) .start
      ⟨search, max, data, found⟩ rfl
    rw [conn_data_in_cb, hb]
    by_cases hlong : b.data.length > b.max
    · simp only [if_pos hlong]
      exact ⟨_, rfl⟩
    · simp only [if_neg hlong]
      exact ⟨_, rfl⟩
  refine ⟨⟨?_, fun hmoves => ⟨_, hends hmoves⟩⟩, hends⟩
  rintro ⟨fuel, b, hreturns⟩ p hreach hstays
  have hon := runsOn_of_reaches hs hreach (runsOn_of_stays (le_of_reaches hs hreach) hstays)
  obtain ⟨b', hrun⟩ := hon fuel ⟨search, max, data, found⟩ rfl
  rw [conn_data_in_cb, hrun] at hreturns
  cases hreturns

/-- The default search stays at the newline that it has found. -/
theorem a_call_with_the_default_search_does_not_end :
    ¬ ∃ fuel b, conn_data_in_cb fuel [97, LF] (of_max 80) = .returned b := by
  rw [of_max, (a_call_ends_unless_its_search_stays inBounds_default 80 [] [] [97, LF]).1]
  intro hmoves
  exact hmoves 1 (Reaches.start.next (by decide)) (by decide)

/-! ## A search that ends behind the terminator -/

/-- The place behind the first byte of a kind. -/
def search_behind (isEnd : UInt8 → Bool) (data : List UInt8) (start_position : Nat) : Option Nat :=
  ((data.drop start_position).findIdx? isEnd).map (start_position + · + 1)

theorem search_behind_some {isEnd : UInt8 → Bool} {data : List UInt8} {start p : Nat}
    (h : search_behind isEnd data start = some p) :
    start < p ∧ p ≤ data.length ∧ Piece isEnd ((data.drop start).take (p - start)) := by
  obtain ⟨i, hi, rfl⟩ := Option.map_eq_some_iff.mp h
  obtain ⟨hlt, hpiece⟩ := piece_of_findIdx? isEnd hi
  rw [List.length_drop] at hlt
  have hsub : start + i + 1 - start = i + 1 := by omega
  exact ⟨by omega, by omega, hsub.symm ▸ hpiece⟩

theorem inBounds_behind (isEnd : UInt8 → Bool) : InBounds (search_behind isEnd) := by
  intro data start p _ hp
  obtain ⟨hlt, hle, _⟩ := search_behind_some hp
  exact ⟨Nat.le_of_lt hlt, hle⟩

/-- A complete line ends with its terminator and has no other one, and what the buffer has
given up on is too long and has none. -/
structure Tidy (isEnd : UInt8 → Bool) (b : ConnectionLineBuffer) : Prop where
  complete : ∀ r ∈ b.found, r.2 = true → Piece isEnd r.1
  given_up : ∀ r ∈ b.found, r.2 = false → Open isEnd r.1 ∧ b.max < r.1.length
  data : Open isEnd b.data

theorem Tidy.found {isEnd : UInt8 → Bool} {b : ConnectionLineBuffer} (h : Tidy isEnd b)
    {line : List UInt8} {complete : Bool} (hpiece : complete = true → Piece isEnd line)
    (hlong : complete = false → Open isEnd line ∧ b.max < line.length) :
    Tidy isEnd { b.found_next_line_cb line complete with data := [] } := by
  refine ⟨?_, ?_, by simp [Open]⟩
  · intro r hr hr2
    rcases List.mem_append.mp hr with hr | hr
    · exact h.complete r hr hr2
    · rw [List.mem_singleton.mp hr] at hr2 ⊢
      exact hpiece hr2
  · intro r hr hr2
    rcases List.mem_append.mp hr with hr | hr
    · exact h.given_up r hr hr2
    · rw [List.mem_singleton.mp hr] at hr2 ⊢
      exact hlong hr2

theorem search_loop_tidy {isEnd : UInt8 → Bool} {data_in : List UInt8} {fuel p : Nat}
    {b b' : ConnectionLineBuffer} (hb : b.search = search_behind isEnd) (h : Tidy isEnd b)
    (hp : p ≤ data_in.length) (hloop : search_loop data_in fuel p b = .returned b') :
    Tidy isEnd b' ∧ b'.search = b.search ∧ b'.max = b.max := by
  induction fuel generalizing p b with
  | zero => cases hloop
  | succ fuel ih =>
    rw [search_loop] at hloop
    cases hq : b.search data_in p with
    | none =>
      simp only [hq, substr_of_le hp, sizeSub_of_le hp] at hloop
      cases hloop
      rw [hb] at hq
      have hopen := open_of_findIdx? isEnd (Option.map_eq_none_iff.mp hq)
      rw [List.take_of_length_le (by simp)]
      exact ⟨⟨h.complete, h.given_up, h.data.append isEnd hopen⟩, rfl, rfl⟩
    | some q =>
      rw [hb] at hq
      obtain ⟨hlt, hle, hpiece⟩ := search_behind_some hq
      rw [← hb] at hq
      simp only [hq, substr_of_le hp, sizeSub_of_le (Nat.le_of_lt hlt)] at hloop
      have hfound : Tidy isEnd { b.found_next_line_cb
          (b.data ++ (data_in.drop p).take (q - p)) true with data := [] } :=
        h.found (fun _ => Piece.append isEnd h.data hpiece) (by simp)
      exact ih (b := { b.found_next_line_cb
        (b.data ++ (data_in.drop p).take (q - p)) true with data := [] }) hb hfound hle hloop

theorem conn_data_in_cb_tidy {isEnd : UInt8 → Bool} {chunk : List UInt8} {fuel : Nat}
    {b : ConnectionLineBuffer} (hb : b.search = search_behind isEnd) (h : Tidy isEnd b)
    (hfuel : chunk.length < fuel) :
    ∃ b', conn_data_in_cb fuel chunk b = .returned b' ∧ Tidy isEnd b' ∧
      b'.search = b.search ∧ b'.max = b.max ∧ b'.data.length ≤ b'.max := by
  have hmoves : ∀ p, Reaches (search_behind isEnd) chunk p →
      search_behind isEnd chunk p ≠ some p := by
    intro p _ hstays
    exact absurd (search_behind_some hstays).1 (Nat.lt_irrefl p)
  obtain ⟨fuel, rfl⟩ : ∃ n, fuel = n + 1 := ⟨fuel - 1, by omega⟩
  have hle : chunk.length - 0 ≤ fuel := by omega
  obtain ⟨b₁, hloop⟩ := search_loop_returns (inBounds_behind isEnd) hmoves hle .start b hb
  obtain ⟨htidy, hsearch, hmax⟩ := search_loop_tidy hb h (Nat.zero_le _) hloop
  rw [conn_data_in_cb, hloop]
  by_cases hlong : b₁.data.length > b₁.max
  · simp only [if_pos hlong]
    exact ⟨_, rfl, htidy.found (by simp) (fun _ => ⟨htidy.data, hlong⟩), hsearch, hmax,
      Nat.zero_le _⟩
  · simp only [if_neg hlong]
    exact ⟨_, rfl, htidy, hsearch, hmax, Nat.le_of_not_lt hlong⟩

theorem feed_tidy {isEnd : UInt8 → Bool} {chunks : List (List UInt8)} {fuel : Nat}
    {b : ConnectionLineBuffer} (hb : b.search = search_behind isEnd) (h : Tidy isEnd b)
    (hfits : b.data.length ≤ b.max) (hfuel : ∀ c ∈ chunks, c.length < fuel) :
    ∃ b', feed fuel chunks b = .returned b' ∧ Tidy isEnd b' ∧ b'.data.length ≤ b.max := by
  induction chunks generalizing b with
  | nil => exact ⟨b, rfl, h, hfits⟩
  | cons chunk rest ih =>
    obtain ⟨b₁, hcall, htidy, hsearch, hmax, hfits₁⟩ :=
      conn_data_in_cb_tidy hb h (hfuel chunk List.mem_cons_self)
    obtain ⟨b', hfeed, htidy', hfits'⟩ := ih (hsearch.trans hb) htidy hfits₁
      (fun c hc => hfuel c (List.mem_cons_of_mem chunk hc))
    exact ⟨b', by rw [feed, hcall]; exact hfeed, htidy', hmax ▸ hfits'⟩

/-- The calls on a stream return with its bytes in a tidy buffer. -/
theorem feed_behind (isEnd : UInt8 → Bool) (max : Nat) (chunks : List (List UInt8)) :
    ∃ b, feed (chunks.flatten.length + 1) chunks ⟨search_behind isEnd, max, [], []⟩ = .returned b ∧
      Tidy isEnd b ∧ b.data.length ≤ max ∧ b.held = chunks.flatten := by
  have hstart : Tidy isEnd ⟨search_behind isEnd, max, [], []⟩ := by
    refine ⟨?_, ?_, ?_⟩ <;> simp [Open]
  have hfuel : ∀ c ∈ chunks, c.length < chunks.flatten.length + 1 := by
    intro c hc
    exact Nat.lt_succ_of_le (List.sublist_flatten_of_mem hc).length_le
  obtain ⟨b, hfeed, htidy, hfits⟩ := feed_tidy rfl hstart (Nat.zero_le max) hfuel
  have hpasses := feed.spec (b := ⟨search_behind isEnd, max, [], []⟩) (inBounds_behind isEnd)
    (chunks.flatten.length + 1) chunks
  rw [hfeed] at hpasses
  exact ⟨b, hfeed, htidy, hfits, hpasses.1⟩

theorem lines_eq {b : ConnectionLineBuffer} (hall : ∀ r ∈ b.found, r.2 = true) :
    b.lines = b.found.map Prod.fst := by
  rw [lines, List.filter_eq_self.mpr hall]

/-- A tidy buffer that has not given up holds the pieces of its bytes. -/
theorem Tidy.cut_held {isEnd : UInt8 → Bool} {b : ConnectionLineBuffer} (h : Tidy isEnd b)
    (hall : ∀ r ∈ b.found, r.2 = true) : (b.lines, b.data) = cut isEnd b.held := by
  rw [held, List.flatMap_def, ← lines_eq hall]
  refine (cut_flatten isEnd ?_ h.data).symm
  intro line hline
  rw [lines_eq hall] at hline
  obtain ⟨r, hr, rfl⟩ := List.mem_map.mp hline
  exact h.complete r hr (hall r hr)

/-- With a search that ends behind the first byte of a kind, every call returns, however
the stream comes in chunks. Complete lines end with such a byte and have no other one, what
is given up on is longer than the limit, and all bytes are there. Where nothing is given up
on, the lines and the buffer are what the stream is cut into. -/
theorem a_search_behind_the_terminator_splits_the_stream (isEnd : UInt8 → Bool) (max : Nat)
    (chunks : List (List UInt8)) :
    ∃ b, feed (chunks.flatten.length + 1) chunks ⟨search_behind isEnd, max, [], []⟩ = .returned b ∧
      Tidy isEnd b ∧ b.data.length ≤ max ∧ b.held = chunks.flatten ∧
      ((∀ r ∈ b.found, r.2 = true) → (b.lines, b.data) = cut isEnd chunks.flatten) := by
  obtain ⟨b, hfeed, htidy, hfits, hheld⟩ := feed_behind isEnd max chunks
  refine ⟨b, hfeed, htidy, hfits, hheld, ?_⟩
  intro hall
  rw [← hheld]
  exact htidy.cut_held hall

end ConnectionLineBuffer

end rmrf.net
