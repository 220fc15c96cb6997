-- The write queue. A record is a buffer with a read offset, and the queue drops
-- a record that has no unread byte. Each operation has its spec on the bytes that
-- are still to be sent.
import Rmrf.Machine

open machine

namespace rmrf.net

/-! ## The records -/

structure IoRecord where
  offset : Nat
  data : List UInt8
deriving DecidableEq, Repr

namespace IoRecord

/-- `iorecord()` -/
def none : IoRecord := ⟨0, []⟩

/-- `iorecord(const void *buf, size_t size)` -/
def of_buffer (buf : List UInt8) : IoRecord := ⟨0, buf⟩

/-- `iorecord(iorecord &&other)`: the new record, and what is left of `other`. Its
vector is moved out, and its offset stays. -/
def move (other : IoRecord) : IoRecord × IoRecord :=
  (⟨other.offset, other.data⟩, ⟨other.offset, []⟩)

def size (r : IoRecord) : Nat := sizeSub r.data.length r.offset

def empty (r : IoRecord) : Bool := r.size == 0

/-- The `size()` bytes at `ptr()`. -/
def bytes (r : IoRecord) : List UInt8 := (r.data.drop r.offset).take r.size

def advance (r : IoRecord) (amount : Nat) : IoRecord :=
  { r with offset := sizeAdd r.data.length r.offset (min amount r.size) }

/-- The offset is inside the buffer or at its end. -/
def Fits (r : IoRecord) : Prop := r.offset ≤ r.data.length

/-- The bytes that are still to be read. -/
def unread (r : IoRecord) : List UInt8 := r.data.drop r.offset

theorem size_of_fits {r : IoRecord} (h : r.Fits) : r.size = r.unread.length := by
  simp [size, unread, sizeSub_of_le h]

theorem empty_iff {r : IoRecord} (h : r.Fits) : r.empty = true ↔ r.unread = [] := by
  simp [empty, size_of_fits h]

theorem bytes_of_fits {r : IoRecord} (h : r.Fits) : r.bytes = r.unread := by
  unfold bytes
  rw [size_of_fits h]
  exact List.take_length

theorem fits_of_buffer (buf : List UInt8) : (of_buffer buf).Fits := Nat.zero_le _

@[simp] theorem unread_of_buffer (buf : List UInt8) : (of_buffer buf).unread = buf := rfl

/-- For an offset that is inside the buffer the sum does not wrap. -/
theorem offset_advance {r : IoRecord} (h : r.Fits) (amount : Nat) :
    (r.advance amount).offset = r.offset + min amount (r.data.length - r.offset) := by
  have hs : r.size = r.data.length - r.offset := sizeSub_of_le h
  have hfit : r.offset ≤ r.data.length := h
  unfold advance
  rw [hs]
  exact sizeAdd_of_le (by omega)

theorem advance_zero {r : IoRecord} (h : r.Fits) : r.advance 0 = r := by
  have hoffset := offset_advance h 0
  rw [Nat.zero_min, Nat.add_zero] at hoffset
  obtain ⟨offset, data⟩ := r
  exact congrArg (IoRecord.mk · data) hoffset

theorem fits_advance {r : IoRecord} (h : r.Fits) (amount : Nat) : (r.advance amount).Fits := by
  have hfit : r.offset ≤ r.data.length := h
  unfold Fits
  rw [offset_advance h]
  show r.offset + min amount (r.data.length - r.offset) ≤ r.data.length
  omega

/-- `advance` skips as many bytes as it is told, and no byte past the end. -/
theorem unread_advance {r : IoRecord} (h : r.Fits) (amount : Nat) :
    (r.advance amount).unread = r.unread.drop amount := by
  have hfit : r.offset ≤ r.data.length := h
  unfold unread
  rw [offset_advance h, List.drop_drop]
  show r.data.drop (r.offset + min amount (r.data.length - r.offset)) = _
  rcases Nat.le_total amount (r.data.length - r.offset) with hle | hle
  · rw [Nat.min_eq_left hle]
  · rw [Nat.min_eq_right hle, List.drop_of_length_le (by omega), List.drop_of_length_le (by omega)]

/-- Where the buffer has been moved out from under the offset, the sum wraps. -/
example : (advance ⟨1, []⟩ (2 ^ 64 - 1)).offset = 0 := by decide

end IoRecord

/-! ## The queue -/

structure IoQueue where
  queue : List IoRecord
deriving DecidableEq, Repr

namespace IoQueue

def empty (q : IoQueue) : Bool := q.queue.isEmpty

/-- `push_back(iorecord &&data)`: the queue, and what is left of `data`. -/
def push_back (q : IoQueue) (data : IoRecord) : IoQueue × IoRecord :=
  if !data.empty then
    let (new, left) := data.move
    (⟨q.queue ++ [new]⟩, left)
  else (q, data)

/-- `push_front(const iorecord &data)` -/
def push_front (q : IoQueue) (data : IoRecord) : IoQueue :=
  if !data.empty then ⟨data :: q.queue⟩ else q

/-- The record at the front, and the queue without it. -/
def pop_front (q : IoQueue) : IoRecord × IoQueue :=
  match q.queue with
  | [] => (IoRecord.none, q)
  | result :: rest => (result, ⟨rest⟩)

/-- Each record has its offset inside its buffer, with a byte left to read. -/
def Sound (q : IoQueue) : Prop := ∀ r ∈ q.queue, r.Fits ∧ r.unread ≠ []

/-- The unread bytes of all records, from front to back. -/
def unsent (q : IoQueue) : List UInt8 := q.queue.flatMap IoRecord.unread

theorem sound_nil : Sound ⟨[]⟩ := by simp [Sound]

theorem Sound.tail {r : IoRecord} {rest : List IoRecord} (h : Sound ⟨r :: rest⟩) :
    Sound ⟨rest⟩ := fun x hx => h x (List.mem_cons_of_mem _ hx)

theorem Sound.head {r : IoRecord} {rest : List IoRecord} (h : Sound ⟨r :: rest⟩) :
    r.Fits ∧ r.unread ≠ [] := h r (by simp)

@[simp] theorem unsent_cons (r : IoRecord) (rest : List IoRecord) :
    unsent ⟨r :: rest⟩ = r.unread ++ unsent ⟨rest⟩ := by simp [unsent]

/-- A sound queue is empty when it has no byte to send. -/
theorem empty_iff {q : IoQueue} (h : Sound q) : q.empty = true ↔ q.unsent = [] := by
  rcases q with ⟨_ | ⟨r, rest⟩⟩
  · simp [empty, unsent]
  · simp [empty, h.head.2]

theorem push_back.spec {q : IoQueue} {data : IoRecord} (hq : Sound q) (hd : data.Fits) :
    Sound (q.push_back data).1 ∧ (q.push_back data).1.unsent = q.unsent ++ data.unread := by
  unfold push_back
  by_cases he : data.empty = true
  · have hnil := (IoRecord.empty_iff hd).mp he
    simp [he, hnil, hq]
  · have hne : data.unread ≠ [] := fun h => he ((IoRecord.empty_iff hd).mpr h)
    simp only [he, Bool.not_false, if_true, IoRecord.move]
    refine ⟨?_, by simp [unsent]⟩
    intro r hr
    rcases List.mem_append.mp hr with hr | hr
    · exact hq r hr
    · rw [List.mem_singleton] at hr
      exact hr ▸ ⟨hd, hne⟩

theorem push_front.spec {q : IoQueue} {data : IoRecord} (hq : Sound q) (hd : data.Fits) :
    Sound (q.push_front data) ∧ (q.push_front data).unsent = data.unread ++ q.unsent := by
  unfold push_front
  by_cases he : data.empty = true
  · have hnil := (IoRecord.empty_iff hd).mp he
    simp [he, hnil, hq]
  · have hne : data.unread ≠ [] := fun h => he ((IoRecord.empty_iff hd).mpr h)
    simp only [he, Bool.not_false, if_true]
    refine ⟨?_, by simp⟩
    intro r hr
    rcases List.mem_cons.mp hr with rfl | hr
    · exact ⟨hd, hne⟩
    · exact hq r hr

end IoQueue

end rmrf.net
