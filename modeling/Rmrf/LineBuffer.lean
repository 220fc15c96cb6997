-- The line buffer of a connection: the search for the end of a line, the loop over a
-- chunk, and the chunks fed one after the other. The loop goes on from the terminator
-- it has found and not from behind it, so it ends only on a chunk without one.
import Rmrf.Machine

open machine

namespace rmrf.net

/-! ## The search -/

def CR : UInt8 := 13
def LF : UInt8 := 10

/-- The loop of `default_eol_search` at `i`, with `n` bytes to go. -/
def eol_search_loop (data : List UInt8) : Nat → Nat → Option Nat
  | 0, _ => none
  | n + 1, i =>
    if data[i]? = some CR then
      if i < data.length - 1 ∧ data[i + 1]? = some LF then some (i + 1) else some i
    else if data[i]? = some LF then some i
    else eol_search_loop data n (i + 1)

/-- The last byte of the next terminator; `none` is `npos`. -/
def default_eol_search (data : List UInt8) (start_position : Nat) : Option Nat :=
  eol_search_loop data (data.length - start_position) start_position

def IsEol (b : UInt8) : Prop := b = CR ∨ b = LF

instance : DecidablePred IsEol := fun b => inferInstanceAs (Decidable (b = CR ∨ b = LF))

/-- A terminator ends at `p`. -/
def EndsAt (data : List UInt8) (p : Nat) : Prop :=
  data[p]? = some LF ∨ data[p]? = some CR ∧ data[p + 1]? ≠ some LF

theorem endsAt_lt {data : List UInt8} {p : Nat} (h : EndsAt data p) : p < data.length := by
  rcases h with h | ⟨h, _⟩ <;> exact (List.getElem?_eq_some_iff.mp h).1

/-- The first terminator from `start` on begins at `i`. An LF at `start` is one, whatever
stands before it. -/
structure FirstEol (data : List UInt8) (start i : Nat) : Prop where
  from_start : start ≤ i
  begins : ∃ b, data[i]? = some b ∧ IsEol b
  first : ∀ j, start ≤ j → j < i → ∀ b, data[j]? = some b → ¬ IsEol b

/-- The last byte of the terminator that begins at `i`: a CR with an LF behind it is one
terminator. -/
def lastOf (data : List UInt8) (i : Nat) : Nat :=
  if data[i]? = some CR ∧ data[i + 1]? = some LF then i + 1 else i

theorem FirstEol.unique {data : List UInt8} {start i j : Nat} (hi : FirstEol data start i)
    (hj : FirstEol data start j) : i = j := by
  rcases Nat.lt_trichotomy i j with hlt | rfl | hlt
  · obtain ⟨b, hb, heol⟩ := hi.begins
    exact absurd heol (hj.first i hi.from_start hlt b hb)
  · rfl
  · obtain ⟨b, hb, heol⟩ := hj.begins
    exact absurd heol (hi.first j hj.from_start hlt b hb)

theorem FirstEol.of_later {data : List UInt8} {start i : Nat}
    (hhere : ∀ b, data[start]? = some b → ¬ IsEol b) (h : FirstEol data (start + 1) i) :
    FirstEol data start i := by
  refine ⟨Nat.le_of_succ_le h.from_start, h.begins, ?_⟩
  intro j hj hlt b hb
  rcases Nat.eq_or_lt_of_le hj with rfl | hlater
  · exact hhere b hb
  · exact h.first j hlater hlt b hb

theorem FirstEol.here {data : List UInt8} {i : Nat} {b : UInt8} (hb : data[i]? = some b)
    (heol : IsEol b) : FirstEol data i i := by
  refine ⟨Nat.le_refl i, ⟨b, hb, heol⟩, ?_⟩
  intro j hj hlt
  omega

theorem FirstEol.endsAt {data : List UInt8} {start i : Nat} (h : FirstEol data start i) :
    EndsAt data (lastOf data i) := by
  obtain ⟨b, hb, heol⟩ := h.begins
  unfold lastOf
  by_cases hpair : data[i]? = some CR ∧ data[i + 1]? = some LF
  · rw [if_pos hpair]
    exact Or.inl hpair.2
  · rw [if_neg hpair]
    rcases heol with rfl | rfl
    · exact Or.inr ⟨hb, fun hlf => hpair ⟨hb, hlf⟩⟩
    · exact Or.inl hb

theorem FirstEol.le_lastOf {data : List UInt8} {start i : Nat} (h : FirstEol data start i) :
    start ≤ lastOf data i := by
  have hle := h.from_start
  unfold lastOf
  split <;> omega

theorem eol_search_loop.spec (data : List UInt8) (n i : Nat) (hn : n = data.length - i) :
    match eol_search_loop data n i with
    | none => ∀ j ≥ i, ∀ b, data[j]? = some b → ¬ IsEol b
    | some p => ∃ j, FirstEol data i j ∧ p = lastOf data j := by
  induction n generalizing i with
  | zero =>
    intro j hj b hb
    have hlt := (List.getElem?_eq_some_iff.mp hb).1
    omega
  | succ n ih =>
    simp only [eol_search_loop]
    by_cases hcr : data[i]? = some CR
    · rw [if_pos hcr]
      have hfirst := FirstEol.here hcr (Or.inl rfl)
      by_cases hnext : i < data.length - 1 ∧ data[i + 1]? = some LF
      · rw [if_pos hnext]
        exact ⟨i, hfirst, by rw [lastOf, if_pos ⟨hcr, hnext.2⟩]⟩
      · rw [if_neg hnext]
        refine ⟨i, hfirst, ?_⟩
        -- an LF behind the CR would stand before the last place of the bound test
        have hpair : ¬ (data[i]? = some CR ∧ data[i + 1]? = some LF) := by
          rintro ⟨_, hlf⟩
          have hlt := (List.getElem?_eq_some_iff.mp hlf).1
          exact hnext ⟨by omega, hlf⟩
        rw [lastOf, if_neg hpair]
    · rw [if_neg hcr]
      by_cases hlf : data[i]? = some LF
      · rw [if_pos hlf]
        exact ⟨i, FirstEol.here hlf (Or.inr rfl), by rw [lastOf, if_neg (fun h => hcr h.1)]⟩
      · rw [if_neg hlf]
        have hhere : ∀ b, data[i]? = some b → ¬ IsEol b := by
          rintro b hb (rfl | rfl)
          · exact hcr hb
          · exact hlf hb
        have hrest := ih (i + 1) (by omega)
        split at hrest
        · intro j hj b hb
          rcases Nat.eq_or_lt_of_le hj with rfl | hlt
          · exact hhere b hb
          · exact hrest j hlt b hb
        · obtain ⟨j, hj, rfl⟩ := hrest
          exact ⟨j, hj.of_later hhere, rfl⟩

/-- The search comes back with the last byte of the first terminator, and with `npos`
exactly when there is none. -/
theorem the_search_finds_the_first_terminator (data : List UInt8) (start : Nat) :
    (default_eol_search data start = none ↔ ∀ j ≥ start, ∀ b, data[j]? = some b → ¬ IsEol b) ∧
    (∀ p, default_eol_search data start = some p ↔
      ∃ i, FirstEol data start i ∧ p = lastOf data i) ∧
    (∀ p, default_eol_search data start = some p → start ≤ p ∧ p < data.length) := by
  have hspec := eol_search_loop.spec data (data.length - start) start rfl
  unfold default_eol_search
  cases hs : eol_search_loop data (data.length - start) start with
  | none =>
    rw [hs] at hspec
    refine ⟨iff_of_true rfl hspec, ?_, by simp⟩
    intro p
    apply iff_of_false (by simp)
    rintro ⟨i, hi, _⟩
    obtain ⟨b, hb, heol⟩ := hi.begins
    exact hspec i hi.from_start b hb heol
  | some p =>
    rw [hs] at hspec
    obtain ⟨i, hi, rfl⟩ := hspec
    refine ⟨?_, ?_, ?_⟩
    · apply iff_of_false (by simp)
      intro hnone
      obtain ⟨b, hb, heol⟩ := hi.begins
      exact hnone i hi.from_start b hb heol
    · intro q
      constructor
      · intro hq
        cases hq
        exact ⟨i, hi, rfl⟩
      · rintro ⟨j, hj, rfl⟩
        rw [hi.unique hj]
    · intro q hq
      cases hq
      exact ⟨hi.le_lastOf, endsAt_lt hi.endsAt⟩

/-- The LF of a pair that the search starts in is a terminator of its own. -/
example : default_eol_search [97, CR, LF, CR] 0 = some 2 ∧
    default_eol_search [97, CR, LF, CR] 2 = some 2 ∧
    default_eol_search [97, CR, LF, CR] 3 = some 3 ∧
    default_eol_search [97, CR, LF, CR] 9 = none := by decide

/-- Where a terminator ends, a search that starts there comes back with it. -/
theorem default_eol_search_of_endsAt {data : List UInt8} {p : Nat} (h : EndsAt data p) :
    default_eol_search data p = some p := by
  have hlt := endsAt_lt h
  obtain ⟨n, hn⟩ : ∃ n, data.length - p = n + 1 := ⟨data.length - p - 1, by omega⟩
  unfold default_eol_search
  rw [hn, eol_search_loop]
  rcases h with h | ⟨h, hnext⟩
  · rw [if_neg (by rw [h]; decide), if_pos h]
  · rw [if_pos h, if_neg (fun hb => hnext hb.2)]

/-- A text without terminator. -/
def Unbroken (data : List UInt8) : Prop := ∀ b ∈ data, ¬ IsEol b

instance (data : List UInt8) : Decidable (Unbroken data) :=
  inferInstanceAs (Decidable (∀ b ∈ data, ¬ IsEol b))

theorem default_eol_search_zero (data : List UInt8) :
    match default_eol_search data 0 with
    | none => Unbroken data
    | some p => EndsAt data p := by
  have hspec := eol_search_loop.spec data (data.length - 0) 0 rfl
  unfold default_eol_search
  split at hspec
  · intro b hb
    obtain ⟨j, hj⟩ := List.getElem?_of_mem hb
    exact hspec j (Nat.zero_le j) b hj
  · obtain ⟨j, hj, rfl⟩ := hspec
    exact hj.endsAt

theorem default_eol_search_eq_none_iff (data : List UInt8) :
    default_eol_search data 0 = none ↔ Unbroken data := by
  have hspec := default_eol_search_zero data
  cases hs : default_eol_search data 0 with
  | none =>
    rw [hs] at hspec
    exact iff_of_true rfl hspec
  | some p =>
    rw [hs] at hspec
    apply iff_of_false (by simp)
    intro hun
    rcases hspec with h | ⟨h, _⟩
    · exact absurd (Or.inr rfl) (hun LF (List.mem_of_getElem? h))
    · exact absurd (Or.inl rfl) (hun CR (List.mem_of_getElem? h))

/-! ## The buffer -/

/-- `found` holds what the callback `found_next_line_cb` was given so far. -/
structure ConnectionLineBuffer where
  search : List UInt8 → Nat → Option Nat
  max : Nat
  data : List UInt8
  found : List (List UInt8 × Bool)

/-- `data.substr(pos, len)`, which throws for a `pos` past the end. -/
def substr (data : List UInt8) (pos len : Nat) : Option (List UInt8) :=
  if pos ≤ data.length then some ((data.drop pos).take len) else none

/-- A call that is in its loop, that has returned, or that has thrown. -/
inductive Call
  | running (buffer : ConnectionLineBuffer)
  | returned (buffer : ConnectionLineBuffer)
  | threw (buffer : ConnectionLineBuffer)

def Call.buffer : Call → ConnectionLineBuffer
  | .running b => b
  | .returned b => b
  | .threw b => b

namespace ConnectionLineBuffer

/-- The buffer that the constructor makes with `default_eol_search`. -/
def of_max (max : Nat) : ConnectionLineBuffer := ⟨default_eol_search, max, [], []⟩

def found_next_line_cb (b : ConnectionLineBuffer) (line : List UInt8) (complete : Bool) :
    ConnectionLineBuffer := { b with found := b.found ++ [(line, complete)] }

/-- The loop of `conn_data_in_cb`, for at most `fuel` passes. -/
def search_loop (data_in : List UInt8) : Nat → Nat → ConnectionLineBuffer → Call
  | 0, _, b => .running b
  | fuel + 1, strpos, b =>
    match b.search data_in strpos with
    | none =>
      match substr data_in strpos (sizeSub data_in.length strpos) with
      | none => .threw b
      | some rest => .returned { b with data := b.data ++ rest }
    | some nextpos =>
      match substr data_in strpos (sizeSub nextpos strpos) with
      | none => .threw b
      | some line =>
        search_loop data_in fuel nextpos
          { b.found_next_line_cb (b.data ++ line) true with data := [] }

def conn_data_in_cb (fuel : Nat) (data_in : List UInt8) (b : ConnectionLineBuffer) : Call :=
  match search_loop data_in fuel 0 b with
  | .returned b =>
    if b.data.length > b.max then .returned { b.found_next_line_cb b.data false with data := [] }
    else .returned b
  | call => call

/-- The chunks of a connection, one call for each. A call that does not return is the
last one. -/
def feed (fuel : Nat) : List (List UInt8) → ConnectionLineBuffer → Call
  | [], b => .returned b
  | chunk :: rest, b =>
    match conn_data_in_cb fuel chunk b with
    | .returned b => feed fuel rest b
    | call => call

/-- The payloads that were reported with the flag true. -/
def lines (b : ConnectionLineBuffer) : List (List UInt8) :=
  (b.found.filter (·.2)).map (·.1)

end ConnectionLineBuffer

/-! ## A chunk with a terminator, and one without -/

namespace ConnectionLineBuffer

theorem substr_of_le {data : List UInt8} {pos len : Nat} (h : pos ≤ data.length) :
    substr data pos len = some ((data.drop pos).take len) := if_pos h

theorem lines_of_found (b : ConnectionLineBuffer) (line : List UInt8) :
    { b.found_next_line_cb line true with data := [] }.lines = b.lines ++ [line] := by
  simp [lines, found_next_line_cb]

/-- From the first terminator on, the loop stays where it is, and reports a line in
each pass: first what was buffered and the bytes up to the terminator, then nothing. -/
theorem search_loop_stays {data_in : List UInt8} {i p : Nat} (hi : i ≤ data_in.length)
    (hp : default_eol_search data_in i = some p) (h : EndsAt data_in p) (fuel : Nat)
    (b : ConnectionLineBuffer) (hs : b.search = default_eol_search) :
    ∃ b', search_loop data_in fuel i b = .running b' ∧
      b'.lines = b.lines ++ ((b.data ++ (data_in.drop i).take (sizeSub p i)) ::
        List.replicate fuel []).take fuel := by
  induction fuel generalizing i b with
  | zero => exact ⟨b, rfl, by simp⟩
  | succ fuel ih =>
    simp only [search_loop, hs, hp, substr_of_le hi]
    obtain ⟨b', hrun, hlines⟩ := ih (Nat.le_of_lt (endsAt_lt h)) (default_eol_search_of_endsAt h)
      { b.found_next_line_cb (b.data ++ (data_in.drop i).take (sizeSub p i)) true with data := [] }
      hs
    refine ⟨b', hrun, ?_⟩
    have hempty : ([] : List UInt8) ++ (data_in.drop p).take (sizeSub p p) = [] := by
      rw [sizeSub_of_le (Nat.le_refl p), Nat.sub_self, List.take_zero, List.append_nil]
    rw [hlines, lines_of_found, hempty, ← List.replicate_succ, List.take_replicate,
      List.take_succ_cons, List.take_replicate, List.append_assoc, List.singleton_append]

/-- A call for a chunk with a terminator never returns. -/
theorem conn_data_in_cb_of_terminator {chunk : List UInt8} {p : Nat}
    (hp : default_eol_search chunk 0 = some p) (fuel : Nat) (b : ConnectionLineBuffer)
    (hs : b.search = default_eol_search) :
    ∃ b', conn_data_in_cb fuel chunk b = .running b' ∧
      b'.lines = b.lines ++ ((b.data ++ chunk.take p) :: List.replicate fuel []).take fuel := by
  have hzero := default_eol_search_zero chunk
  rw [hp] at hzero
  obtain ⟨b', hrun, hlines⟩ := search_loop_stays (Nat.zero_le _) hp hzero fuel b hs
  rw [sizeSub_of_le (Nat.zero_le p), Nat.sub_zero, List.drop_zero] at hlines
  exact ⟨b', by rw [conn_data_in_cb, hrun], hlines⟩

theorem conn_data_in_cb_of_broken {chunk : List UInt8} (h : ¬ Unbroken chunk) (fuel : Nat)
    (b : ConnectionLineBuffer) (hs : b.search = default_eol_search) :
    ∃ b', conn_data_in_cb fuel chunk b = .running b' ∧
      b'.lines.length = b.lines.length + fuel := by
  cases hp : default_eol_search chunk 0 with
  | none => exact absurd ((default_eol_search_eq_none_iff chunk).mp hp) h
  | some p =>
    obtain ⟨b', hrun, hlines⟩ := conn_data_in_cb_of_terminator hp fuel b hs
    refine ⟨b', hrun, ?_⟩
    rw [hlines, List.length_append, List.length_take, List.length_cons, List.length_replicate]
    omega

/-- The buffer has taken the bytes in, or has given up on them as too long. -/
structure TakesIn (b b' : ConnectionLineBuffer) (bytes : List UInt8) : Prop where
  search : b'.search = b.search
  max : b'.max = b.max
  lines : b'.lines = b.lines
  fits : b'.data.length ≤ b'.max
  data : (b.data ++ bytes).length ≤ b.max → b'.data = b.data ++ bytes

theorem TakesIn.trans {b b' b'' : ConnectionLineBuffer} {xs ys : List UInt8}
    (h : TakesIn b b' xs) (h' : TakesIn b' b'' ys) : TakesIn b b'' (xs ++ ys) := by
  refine ⟨h'.search.trans h.search, h'.max.trans h.max, h'.lines.trans h.lines, h'.fits, ?_⟩
  intro hle
  have hxs := h.data (by simp at hle ⊢; omega)
  rw [h'.data (by rw [hxs, h.max, List.append_assoc]; exact hle), hxs, List.append_assoc]

/-- A call for a chunk without terminator returns from its first pass. -/
theorem conn_data_in_cb_unbroken_eq {chunk : List UInt8} (h : Unbroken chunk) (fuel : Nat)
    (b : ConnectionLineBuffer) (hs : b.search = default_eol_search) :
    conn_data_in_cb (fuel + 1) chunk b = .returned
      (if (b.data ++ chunk).length > b.max then
        { b.found_next_line_cb (b.data ++ chunk) false with data := [] }
      else { b with data := b.data ++ chunk }) := by
  have hnone := (default_eol_search_eq_none_iff chunk).mpr h
  have hloop : search_loop chunk (fuel + 1) 0 b = .returned { b with data := b.data ++ chunk } := by
    simp [search_loop, hs, hnone, substr_of_le, sizeSub_of_le]
  simp only [conn_data_in_cb, hloop]
  by_cases hlong : (b.data ++ chunk).length > b.max
  · rw [if_pos hlong, if_pos hlong]
    rfl
  · rw [if_neg hlong, if_neg hlong]

theorem conn_data_in_cb_of_unbroken {chunk : List UInt8} (h : Unbroken chunk) (fuel : Nat)
    (b : ConnectionLineBuffer) (hs : b.search = default_eol_search) :
    ∃ b', conn_data_in_cb (fuel + 1) chunk b = .returned b' ∧ TakesIn b b' chunk := by
  rw [conn_data_in_cb_unbroken_eq h fuel b hs]
  by_cases hlong : (b.data ++ chunk).length > b.max
  · rw [if_pos hlong]
    refine ⟨_, rfl, rfl, rfl, ?_, Nat.zero_le _, fun hle => absurd hle (Nat.not_le.mpr hlong)⟩
    simp [lines, found_next_line_cb]
  · rw [if_neg hlong]
    exact ⟨_, rfl, rfl, rfl, rfl, Nat.not_lt.mp hlong, fun _ => rfl⟩

/-- A call that gets no pass at all is in its loop. -/
theorem feed_zero (c : List UInt8) (rest : List (List UInt8)) (b : ConnectionLineBuffer) :
    feed 0 (c :: rest) b = .running b := rfl

theorem feed_of_unbroken {chunks : List (List UInt8)} (h : ∀ c ∈ chunks, Unbroken c) (fuel : Nat)
    (b : ConnectionLineBuffer) (hs : b.search = default_eol_search)
    (hfits : b.data.length ≤ b.max) :
    ∃ b', feed (fuel + 1) chunks b = .returned b' ∧ TakesIn b b' chunks.flatten := by
  induction chunks generalizing b with
  | nil => exact ⟨b, rfl, rfl, rfl, rfl, hfits, fun _ => by simp⟩
  | cons c rest ih =>
    obtain ⟨b₁, hcall, hin⟩ := conn_data_in_cb_of_unbroken (h c (by simp)) fuel b hs
    obtain ⟨b', hfeed, hrest⟩ := ih (fun x hx => h x (List.mem_cons_of_mem _ hx)) b₁
      (hin.search.trans hs) hin.fits
    exact ⟨b', by rw [feed, hcall]; exact hfeed, hin.trans hrest⟩

/-- With a terminator in the stream, the buffer reports as many lines as it has passes. -/
theorem feed_of_broken {chunks : List (List UInt8)} (h : ∃ c ∈ chunks, ¬ Unbroken c) (fuel : Nat)
    (b : ConnectionLineBuffer) (hs : b.search = default_eol_search) :
    ∃ b', feed fuel chunks b = .running b' ∧ fuel ≤ b'.lines.length := by
  induction chunks generalizing b with
  | nil =>
    obtain ⟨c, hc, _⟩ := h
    cases hc
  | cons c rest ih =>
    by_cases hc : Unbroken c
    · cases fuel with
      | zero => exact ⟨b, feed_zero c rest b, Nat.zero_le _⟩
      | succ fuel =>
        obtain ⟨b₁, hcall, hin⟩ := conn_data_in_cb_of_unbroken hc fuel b hs
        have hrest : ∃ c ∈ rest, ¬ Unbroken c := by
          obtain ⟨x, hx, hnx⟩ := h
          rcases List.mem_cons.mp hx with rfl | hx
          · exact absurd hc hnx
          · exact ⟨x, hx, hnx⟩
        obtain ⟨b', hfeed, hle⟩ := ih hrest b₁ (hin.search.trans hs)
        exact ⟨b', by rw [feed, hcall]; exact hfeed, hle⟩
    · obtain ⟨b', hcall, hlen⟩ := conn_data_in_cb_of_broken hc fuel b hs
      exact ⟨b', by rw [feed, hcall], by omega⟩

end ConnectionLineBuffer

/-! ## The lines of a stream -/

open ConnectionLineBuffer

/-- The lines of a stream without their terminators, and the tail that has none. -/
def splitLines : List UInt8 → List (List UInt8) × List UInt8
  | [] => ([], [])
  | 13 :: 10 :: rest => ([] :: (splitLines rest).1, (splitLines rest).2)
  | b :: rest =>
    if IsEol b then ([] :: (splitLines rest).1, (splitLines rest).2)
    else
      match splitLines rest with
      | ([], tail) => ([], b :: tail)
      | (line :: more, tail) => ((b :: line) :: more, tail)

theorem splitLines_of_unbroken {s : List UInt8} (h : Unbroken s) : splitLines s = ([], s) := by
  induction s with
  | nil => rfl
  | cons b rest ih =>
    have hb : ¬ IsEol b := h b (by simp)
    have hrest : splitLines rest = ([], rest) := ih (fun x hx => h x (List.mem_cons_of_mem _ hx))
    rw [splitLines]
    · rw [if_neg hb, hrest]
    · rintro r rfl
      exact absurd (Or.inl rfl) hb

/-- The buffer cuts the stream into its lines, however the chunks come. -/
structure SplitsIntoLines (max : Nat) (chunks : List (List UInt8)) : Prop where
  /-- The lines that are reported are the first lines of the stream. -/
  in_order : ∀ fuel, (feed fuel chunks (of_max max)).buffer.lines <+: (splitLines chunks.flatten).1
  /-- When a call returns, all lines so far are reported, and the tail is kept. -/
  settled : ∀ fuel k b, feed fuel (chunks.take k) (of_max max) = .returned b →
    (b.lines, b.data) = splitLines (chunks.take k).flatten

theorem unbroken_flatten {chunks : List (List UInt8)} (h : ∀ c ∈ chunks, Unbroken c) :
    Unbroken chunks.flatten := by
  intro b hb
  obtain ⟨c, hc, hbc⟩ := List.mem_flatten.mp hb
  exact h c hc b hbc

/-- A stream without terminator stays in the buffer that has room for it. -/
theorem splits_of_unbroken {max : Nat} {chunks : List (List UInt8)}
    (hun : ∀ c ∈ chunks, Unbroken c) (hmax : chunks.flatten.length ≤ max) :
    SplitsIntoLines max chunks := by
  constructor
  · intro fuel
    cases fuel with
    | zero => cases chunks <;> exact List.nil_prefix
    | succ fuel =>
      obtain ⟨b, hfeed, hin⟩ := feed_of_unbroken hun fuel (of_max max) rfl (Nat.zero_le _)
      rw [hfeed, Call.buffer, hin.lines]
      exact List.nil_prefix
  · intro fuel k b hret
    have hfed : ∀ c ∈ chunks.take k, Unbroken c := fun c hc => hun c (List.mem_of_mem_take hc)
    have hle : (chunks.take k).flatten.length ≤ max :=
      Nat.le_trans (List.take_sublist k chunks).flatten.length_le hmax
    rw [splitLines_of_unbroken (unbroken_flatten hfed)]
    generalize chunks.take k = fed at *
    cases fuel with
    | zero =>
      cases fed with
      | nil =>
        cases hret
        rfl
      | cons c rest => cases hret
    | succ fuel =>
      obtain ⟨b', hfeed, hin⟩ := feed_of_unbroken hfed fuel (of_max max) rfl (Nat.zero_le _)
      rw [hfeed] at hret
      cases hret
      have hdata : b.data = [] ++ fed.flatten := hin.data hle
      have hlines : b.lines = [] := hin.lines
      rw [hdata, hlines, List.nil_append]

/-- A stream with a terminator is not split: the lines that are reported run on past
those that it has. -/
theorem unbroken_of_splits {max : Nat} {chunks : List (List UInt8)}
    (h : SplitsIntoLines max chunks) : ∀ c ∈ chunks, Unbroken c := by
  by_contra hnot
  push Not at hnot
  obtain ⟨b, hfeed, hle⟩ :=
    feed_of_broken hnot ((splitLines chunks.flatten).1.length + 1) (of_max max) rfl
  have hpre := (h.in_order ((splitLines chunks.flatten).1.length + 1)).length_le
  rw [hfeed, Call.buffer] at hpre
  omega

/-- A stream is cut into its lines exactly when it has no terminator, and so no line,
and its bytes fit the buffer. Then each call returns. -/
theorem only_an_unbroken_stream_is_split (max : Nat) (chunks : List (List UInt8)) :
    (SplitsIntoLines max chunks ↔
      (∀ c ∈ chunks, Unbroken c) ∧ chunks.flatten.length ≤ max) ∧
    ((∀ c ∈ chunks, Unbroken c) → ∃ b, feed 1 chunks (of_max max) = .returned b) := by
  refine ⟨⟨?_, ?_⟩, ?_⟩
  · intro hsplits
    have hun := unbroken_of_splits hsplits
    obtain ⟨b, hfeed, hin⟩ := feed_of_unbroken hun 0 (of_max max) rfl (Nat.zero_le _)
    have hset := hsplits.settled 1 chunks.length b (by rw [List.take_length]; exact hfeed)
    rw [List.take_length, splitLines_of_unbroken (unbroken_flatten hun)] at hset
    have hfits := hin.fits
    rw [(Prod.mk.inj hset).2, hin.max] at hfits
    exact ⟨hun, hfits⟩
  · rintro ⟨hun, hmax⟩
    exact splits_of_unbroken hun hmax
  · intro hun
    obtain ⟨b, hfeed, _⟩ := feed_of_unbroken hun 0 (of_max max) rfl (Nat.zero_le _)
    exact ⟨b, hfeed⟩

/-- The one line of `a\n` comes with an empty line after it in each further pass. -/
theorem one_line_is_reported_without_end :
    splitLines [97, LF] = ([[97]], []) ∧
      (feed 3 [[97, LF]] (of_max 80)).buffer.lines = [[97], [], []] ∧
      ¬ SplitsIntoLines 80 [[97, LF]] := by
  refine ⟨rfl, rfl, ?_⟩
  intro h
  have hpre := (h.in_order 3).length_le
  exact absurd hpre (by decide)

/-! ## The end of a call -/

/-- A call returns, and it reports a line for each terminator at most, and at most one
remainder that is too long. -/
def EndsInTime (chunk : List UInt8) (b : ConnectionLineBuffer) : Prop :=
  ∃ fuel b' calls, conn_data_in_cb fuel chunk b = .returned b' ∧ b'.found = b.found ++ calls ∧
    (calls.filter (·.2)).length ≤ (splitLines chunk).1.length ∧
    (calls.filter (!·.2)).length ≤ 1

theorem endsInTime_of_unbroken {chunk : List UInt8} (h : Unbroken chunk)
    (b : ConnectionLineBuffer) (hs : b.search = default_eol_search) : EndsInTime chunk b := by
  have hcall := conn_data_in_cb_unbroken_eq h 0 b hs
  by_cases hlong : (b.data ++ chunk).length > b.max
  · rw [if_pos hlong] at hcall
    refine ⟨1, _, [(b.data ++ chunk, false)], hcall, rfl, ?_, ?_⟩
    · simp
    · simp
  · rw [if_neg hlong] at hcall
    refine ⟨1, _, [], hcall, ?_, Nat.zero_le _, Nat.zero_le _⟩
    simp

/-- A call of a buffer with the default search ends exactly when its chunk has no
terminator, whatever is buffered and whatever the limit is. -/
theorem a_call_ends_only_on_an_unbroken_chunk (max : Nat) (data : List UInt8)
    (found : List (List UInt8 × Bool)) (chunk : List UInt8) :
    EndsInTime chunk ⟨default_eol_search, max, data, found⟩ ↔ Unbroken chunk := by
  constructor
  · rintro ⟨fuel, b', calls, hreturn, _⟩
    by_contra hbroken
    obtain ⟨b'', hrun, _⟩ :=
      conn_data_in_cb_of_broken hbroken fuel ⟨default_eol_search, max, data, found⟩ rfl
    rw [hrun] at hreturn
    cases hreturn
  · intro h
    exact endsInTime_of_unbroken h _ rfl

/-- A single terminator keeps a call busy for ever. -/
theorem a_call_for_a_newline_never_ends :
    (∀ fuel b', conn_data_in_cb fuel [LF] (of_max 80) ≠ .returned b') ∧
      ¬ EndsInTime [LF] (of_max 80) := by
  have hnever : ∀ fuel b', conn_data_in_cb fuel [LF] (of_max 80) ≠ .returned b' := by
    intro fuel b' hreturn
    have hbroken : ¬ Unbroken [LF] := by decide
    obtain ⟨b'', hrun, _⟩ := conn_data_in_cb_of_broken hbroken fuel (of_max 80) rfl
    rw [hrun] at hreturn
    cases hreturn
  refine ⟨hnever, ?_⟩
  rintro ⟨fuel, b', _, hreturn, _⟩
  exact hnever fuel b' hreturn

end rmrf.net
