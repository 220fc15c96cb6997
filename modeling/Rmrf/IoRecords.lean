-- The records of a program and the queues that they are pushed into: every record that
-- exists has its offset inside its buffer, until one is moved out of that has been read
-- from. The move takes the buffer and leaves the offset.
import Rmrf.IoQueue
import Rmrf.Runs

open machine runs

namespace rmrf.net

namespace IoQueue

/-- `push_back(const iorecord &data)` -/
def push_back_copy (q : IoQueue) (data : IoRecord) : IoQueue :=
  if !data.empty then ⟨q.queue ++ [data]⟩ else q

/-- `push_front(iorecord &&data)`: the queue, and what is left of `data`. -/
def push_front_move (q : IoQueue) (data : IoRecord) : IoQueue × IoRecord :=
  if !data.empty then
    let (new, left) := data.move
    (⟨new :: q.queue⟩, left)
  else (q, data)

end IoQueue

/-! ## The objects of a program -/

/-- The records that exist, by their names, and the queues. -/
structure Objects where
  records : Nat → Option IoRecord
  queues : Nat → IoQueue

namespace Objects

/-- No record yet, and all queues empty. -/
def start : Objects := ⟨fun _ => none, fun _ => ⟨[]⟩⟩

/-- The operations, with the names of the objects. A constructor takes a name that no
record has. -/
inductive Step
  | construct (x : Nat)
  | construct_buffer (x : Nat) (buf : List UInt8)
  | copy (x other : Nat)
  | move (x other : Nat)
  | advance (x amount : Nat)
  | push_back (q x : Nat)
  | push_back_move (q x : Nat)
  | push_front (q x : Nat)
  | push_front_move (q x : Nat)
  | pop_front (x q : Nat)
  | destroy (x : Nat)
deriving DecidableEq, Repr

def put (s : Objects) (x : Nat) (r : IoRecord) : Objects :=
  { s with records := Function.update s.records x (some r) }

def remove (s : Objects) (x : Nat) : Objects :=
  { s with records := Function.update s.records x none }

def put_queue (s : Objects) (q : Nat) (queue : IoQueue) : Objects :=
  { s with queues := Function.update s.queues q queue }

@[simp] theorem put_self (s : Objects) (x : Nat) (r : IoRecord) :
    (s.put x r).records x = some r := by simp [put]

theorem put_of_ne (s : Objects) {x y : Nat} (h : y ≠ x) (r : IoRecord) :
    (s.put x r).records y = s.records y := by simp [put, h]

@[simp] theorem put_queue_self (s : Objects) (q : Nat) (queue : IoQueue) :
    (s.put_queue q queue).queues q = queue := by simp [put_queue]

theorem put_queue_of_ne (s : Objects) {q q' : Nat} (h : q' ≠ q) (queue : IoQueue) :
    (s.put_queue q queue).queues q' = s.queues q' := by simp [put_queue, h]

/-- The objects after an operation, when it can be called. -/
def next (s : Objects) : Step → Option Objects
  | .construct x =>
    if s.records x = none then some (s.put x IoRecord.none) else none
  | .construct_buffer x buf =>
    if s.records x = none then some (s.put x (IoRecord.of_buffer buf)) else none
  | .copy x other => do
    let r ← s.records other
    if s.records x = none then some (s.put x r) else none
  | .move x other => do
    let r ← s.records other
    if s.records x = none then some ((s.put other r.move.2).put x r.move.1) else none
  | .advance x amount => do
    let r ← s.records x
    some (s.put x (r.advance amount))
  | .push_back q x => do
    let r ← s.records x
    some (s.put_queue q ((s.queues q).push_back_copy r))
  | .push_back_move q x => do
    let r ← s.records x
    let (queue, left) := (s.queues q).push_back r
    some ((s.put x left).put_queue q queue)
  | .push_front q x => do
    let r ← s.records x
    some (s.put_queue q ((s.queues q).push_front r))
  | .push_front_move q x => do
    let r ← s.records x
    let (queue, left) := (s.queues q).push_front_move r
    some ((s.put x left).put_queue q queue)
  | .pop_front x q =>
    if s.records x = none then
      let (result, queue) := (s.queues q).pop_front
      some ((s.put x result).put_queue q queue)
    else none
  | .destroy x => do
    let _ ← s.records x
    some (s.remove x)

end Objects

/-! ## The invariant -/

/-- The offset is in the buffer, `size()` does not wrap around, and `empty()` says
whether a byte is left to read. -/
structure IoRecord.WellFormed (r : IoRecord) : Prop where
  fits : r.offset ≤ r.data.length
  size : r.size = r.data.length - r.offset
  empty : r.empty = true ↔ r.unread = []

namespace IoRecord

theorem wellFormed_iff {r : IoRecord} : r.WellFormed ↔ r.Fits :=
  ⟨fun h => h.fits, fun h => ⟨h, sizeSub_of_le h, empty_iff h⟩⟩

/-- What a move leaves is well formed when nothing has been read. -/
theorem wellFormed_left {r : IoRecord} : r.move.2.WellFormed ↔ r.offset = 0 := by
  rw [wellFormed_iff]
  exact Nat.le_zero

theorem wellFormed_advance {r : IoRecord} (h : r.WellFormed) (amount : Nat) :
    (r.advance amount).WellFormed := wellFormed_iff.mpr (fits_advance h.fits amount)

end IoRecord

namespace IoQueue

/-- Both overloads put the same record into the queue. -/
theorem push_back_queue (q : IoQueue) (data : IoRecord) :
    (q.push_back data).1 = q.push_back_copy data := by
  unfold push_back push_back_copy
  split <;> rfl

theorem push_front_move_queue (q : IoQueue) (data : IoRecord) :
    (q.push_front_move data).1 = q.push_front data := by
  unfold push_front_move push_front
  split <;> rfl

theorem push_back_left (q : IoQueue) (data : IoRecord) :
    (q.push_back data).2 = if data.empty = false then data.move.2 else data := by
  unfold push_back
  cases data.empty <;> rfl

theorem push_front_move_left (q : IoQueue) (data : IoRecord) :
    (q.push_front_move data).2 = if data.empty = false then data.move.2 else data := by
  unfold push_front_move
  cases data.empty <;> rfl

/-- A record of a queue is well formed and has a byte to read. -/
def Waits (r : IoRecord) : Prop := r.WellFormed ∧ r.empty = false

theorem waits_push_back {q : IoQueue} (hq : ∀ r ∈ q.queue, Waits r) {data : IoRecord}
    (hdata : data.WellFormed) : ∀ r ∈ (q.push_back_copy data).queue, Waits r := by
  intro r hr
  unfold push_back_copy at hr
  cases hempty : data.empty with
  | true =>
    rw [hempty] at hr
    exact hq r hr
  | false =>
    rw [hempty] at hr
    rcases List.mem_append.mp hr with hr | hr
    · exact hq r hr
    · rw [List.mem_singleton.mp hr]
      exact ⟨hdata, hempty⟩

theorem waits_push_front {q : IoQueue} (hq : ∀ r ∈ q.queue, Waits r) {data : IoRecord}
    (hdata : data.WellFormed) : ∀ r ∈ (q.push_front data).queue, Waits r := by
  intro r hr
  unfold push_front at hr
  cases hempty : data.empty with
  | true =>
    rw [hempty] at hr
    exact hq r hr
  | false =>
    rw [hempty] at hr
    rcases List.mem_cons.mp hr with rfl | hr
    · exact ⟨hdata, hempty⟩
    · exact hq r hr

/-- The record that comes out of a queue is well formed, and the rest of the queue waits. -/
theorem waits_pop_front {q : IoQueue} (hq : ∀ r ∈ q.queue, Waits r) :
    q.pop_front.1.WellFormed ∧ ∀ r ∈ q.pop_front.2.queue, Waits r := by
  rcases q with ⟨_ | ⟨result, rest⟩⟩
  · exact ⟨IoRecord.wellFormed_iff.mpr (Nat.le_refl 0), hq⟩
  · exact ⟨(hq result (by simp)).1, fun r hr => hq r (List.mem_cons_of_mem _ hr)⟩

end IoQueue

namespace Objects

/-- Every record is well formed, and those in the queues have a byte to read. -/
structure Invariant (s : Objects) : Prop where
  records : ∀ x r, s.records x = some r → r.WellFormed
  queued : ∀ q, ∀ r ∈ (s.queues q).queue, IoQueue.Waits r

/-- The operation moves out of no record that has been read from. What is empty, a queue
does not move. -/
def MovesUnread (s : Objects) : Step → Prop
  | .move _ other => ∀ r, s.records other = some r → r.offset = 0
  | .push_back_move _ x | .push_front_move _ x =>
    ∀ r, s.records x = some r → r.empty = false → r.offset = 0
  | _ => True

theorem invariant_start : start.Invariant := by
  refine ⟨?_, ?_⟩
  · intro x r hr
    cases hr
  · intro q r hr
    cases hr

theorem Invariant.put {s : Objects} (h : s.Invariant) (x : Nat) {r : IoRecord}
    (hr : r.WellFormed) : (s.put x r).Invariant := by
  refine ⟨?_, h.queued⟩
  intro y r' hy
  by_cases hyx : y = x
  · subst hyx
    rw [put_self] at hy
    cases hy
    exact hr
  · rw [put_of_ne s hyx] at hy
    exact h.records y r' hy

theorem Invariant.remove {s : Objects} (h : s.Invariant) (x : Nat) :
    (s.remove x).Invariant := by
  refine ⟨?_, h.queued⟩
  intro y r hy
  by_cases hyx : y = x
  · simp [Objects.remove, hyx] at hy
  · exact h.records y r (by simpa [Objects.remove, hyx] using hy)

theorem Invariant.put_queue {s : Objects} (h : s.Invariant) (q : Nat) {queue : IoQueue}
    (hq : ∀ r ∈ queue.queue, IoQueue.Waits r) : (s.put_queue q queue).Invariant := by
  refine ⟨h.records, ?_⟩
  intro q' r hr
  by_cases hqq : q' = q
  · subst hqq
    rw [put_queue_self] at hr
    exact hq r hr
  · rw [put_queue_of_ne s hqq] at hr
    exact h.queued q' r hr

/-! ## The steps -/

/-- A push that moves leaves a well-formed record, or one that it has not moved. -/
theorem Invariant.push_left {s : Objects} (h : s.Invariant) {x : Nat} {r : IoRecord}
    (hr : s.records x = some r) (hunread : r.empty = false → r.offset = 0) :
    (s.put x (if r.empty = false then r.move.2 else r)).Invariant := by
  apply h.put
  split_ifs with hempty
  · exact IoRecord.wellFormed_left.mpr (hunread hempty)
  · exact h.records x r hr

theorem invariant_next {s t : Objects} {a : Step} (h : s.Invariant) (ha : s.MovesUnread a)
    (ht : s.next a = some t) : t.Invariant := by
  cases a with
  | construct x =>
    simp only [next] at ht
    split_ifs at ht
    cases ht
    exact h.put x (IoRecord.wellFormed_iff.mpr (Nat.le_refl 0))
  | construct_buffer x buf =>
    simp only [next] at ht
    split_ifs at ht
    cases ht
    exact h.put x (IoRecord.wellFormed_iff.mpr (IoRecord.fits_of_buffer buf))
  | copy x other =>
    obtain ⟨r, hr, ht⟩ := Option.bind_eq_some_iff.mp ht
    split_ifs at ht
    cases ht
    exact h.put x (h.records other r hr)
  | move x other =>
    obtain ⟨r, hr, ht⟩ := Option.bind_eq_some_iff.mp ht
    split_ifs at ht
    cases ht
    have hleft := h.put other (IoRecord.wellFormed_left.mpr (ha r hr))
    exact hleft.put x (h.records other r hr)
  | advance x amount =>
    obtain ⟨r, hr, ht⟩ := Option.bind_eq_some_iff.mp ht
    cases ht
    exact h.put x (IoRecord.wellFormed_advance (h.records x r hr) amount)
  | push_back q x =>
    obtain ⟨r, hr, ht⟩ := Option.bind_eq_some_iff.mp ht
    cases ht
    exact h.put_queue q (IoQueue.waits_push_back (h.queued q) (h.records x r hr))
  | push_back_move q x =>
    obtain ⟨r, hr, ht⟩ := Option.bind_eq_some_iff.mp ht
    simp only [IoQueue.push_back_queue, IoQueue.push_back_left] at ht
    cases ht
    apply (h.push_left hr (ha r hr)).put_queue
    exact IoQueue.waits_push_back (h.queued q) (h.records x r hr)
  | push_front q x =>
    obtain ⟨r, hr, ht⟩ := Option.bind_eq_some_iff.mp ht
    cases ht
    exact h.put_queue q (IoQueue.waits_push_front (h.queued q) (h.records x r hr))
  | push_front_move q x =>
    obtain ⟨r, hr, ht⟩ := Option.bind_eq_some_iff.mp ht
    simp only [IoQueue.push_front_move_queue, IoQueue.push_front_move_left] at ht
    cases ht
    apply (h.push_left hr (ha r hr)).put_queue
    exact IoQueue.waits_push_front (h.queued q) (h.records x r hr)
  | pop_front x q =>
    simp only [next] at ht
    split_ifs at ht
    cases ht
    obtain ⟨hresult, hrest⟩ := IoQueue.waits_pop_front (h.queued q)
    exact (h.put x hresult).put_queue q hrest
  | destroy x =>
    obtain ⟨r, hr, ht⟩ := Option.bind_eq_some_iff.mp ht
    cases ht
    exact h.remove x

/-- A move out of a record that has been read from leaves its offset past the end. -/
theorem not_invariant_of_left {s : Objects} {x : Nat} {r : IoRecord}
    (hx : s.records x = some r.move.2) (hread : r.offset ≠ 0) : ¬ s.Invariant :=
  fun h => hread (IoRecord.wellFormed_left.mp (h.records x _ hx))

theorem not_invariant_push_left {s : Objects} {q x : Nat} {r : IoRecord} (queue : IoQueue)
    (hr : s.records x = some r)
    (hnot : ¬ ∀ r', s.records x = some r' → r'.empty = false → r'.offset = 0) :
    ¬ ((s.put x (if r.empty = false then r.move.2 else r)).put_queue q queue).Invariant := by
  push Not at hnot
  obtain ⟨r', hr', hempty, hread⟩ := hnot
  rw [hr] at hr'
  cases hr'
  rw [if_pos hempty]
  exact not_invariant_of_left (put_self s x r.move.2) hread

theorem not_invariant_next {s t : Objects} {a : Step} (ha : ¬ s.MovesUnread a)
    (ht : s.next a = some t) : ¬ t.Invariant := by
  cases a with
  | move x other =>
    obtain ⟨r, hr, ht⟩ := Option.bind_eq_some_iff.mp ht
    split_ifs at ht with hnone
    cases ht
    have hne : other ≠ x := by
      rintro rfl
      rw [hnone] at hr
      cases hr
    have hread : r.offset ≠ 0 := by
      intro hzero
      apply ha
      intro r' hr'
      rw [hr] at hr'
      cases hr'
      exact hzero
    exact not_invariant_of_left ((put_of_ne _ hne _).trans (put_self s other _)) hread
  | push_back_move q x =>
    obtain ⟨r, hr, ht⟩ := Option.bind_eq_some_iff.mp ht
    simp only [IoQueue.push_back_queue, IoQueue.push_back_left] at ht
    cases ht
    exact not_invariant_push_left _ hr ha
  | push_front_move q x =>
    obtain ⟨r, hr, ht⟩ := Option.bind_eq_some_iff.mp ht
    simp only [IoQueue.push_front_move_queue, IoQueue.push_front_move_left] at ht
    cases ht
    exact not_invariant_push_left _ hr ha
  | construct => exact absurd trivial ha
  | construct_buffer => exact absurd trivial ha
  | copy => exact absurd trivial ha
  | advance => exact absurd trivial ha
  | push_back => exact absurd trivial ha
  | push_front => exact absurd trivial ha
  | pop_front => exact absurd trivial ha
  | destroy => exact absurd trivial ha

/-! ## The law -/

/-- The records keep their invariant all along a run exactly when the run moves out of no
record that has been read from. -/
theorem records_stay_well_formed_until_one_is_moved_that_was_read {s : Objects}
    {steps : List Step} (h : run next start steps = some s) :
    (∀ before behind t, steps = before ++ behind → run next start before = some t →
      t.Invariant) ↔ Meets next MovesUnread start steps := by
  apply forall_iff_meets next (J := fun _ => True) trivial invariant_start
  · exact fun _ _ _ _ _ => trivial
  · exact fun _ _ _ _ hinv hunread ht => invariant_next hinv hunread ht
  · exact fun _ _ _ _ _ hread ht => not_invariant_next hread ht
  · exact h

/-- A record that was read from comes out of a push without its bytes, and is not empty. -/
theorem a_moved_record_has_a_size_without_bytes :
    ∃ s left, run next start [.construct_buffer 0 [1, 2, 3], .advance 0 1,
        .push_back_move 0 0] = some s ∧
      s.records 0 = some left ∧ left.data = [] ∧ left.size = 2 ^ 64 - 1 ∧ left.empty = false ∧
      ¬ s.Invariant := by
  refine ⟨_, _, rfl, rfl, rfl, rfl, rfl, ?_⟩
  intro hinv
  exact absurd (hinv.records 0 _ rfl).fits (by decide)

/-- Records that are copied, and moved before they are read, are well formed. -/
theorem unread_records_move_well_formed :
    let steps : List Step := [.construct_buffer 0 [1, 2, 3], .push_back_move 0 0, .pop_front 1 0,
      .advance 1 2, .push_front 0 1, .copy 2 1]
    ∀ before behind t, steps = before ++ behind → run next start before = some t →
      t.Invariant := by
  intro steps
  obtain ⟨s, hs⟩ : ∃ s, run next start steps = some s := ⟨_, rfl⟩
  apply (records_stay_well_formed_until_one_is_moved_that_was_read hs).mpr
  refine ⟨trivial, fun t ht => ?_⟩
  cases ht
  constructor
  · intro r hr _
    cases hr
    rfl
  · intro t ht
    cases ht
    refine ⟨trivial, fun t ht => ⟨trivial, fun t ht => ⟨trivial, fun t ht => ?_⟩⟩⟩
    exact ⟨trivial, fun _ _ => trivial⟩

end Objects

end rmrf.net
