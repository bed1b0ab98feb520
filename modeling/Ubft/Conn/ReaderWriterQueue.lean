import Mathlib

/-!
# Conn — the queue of blocks

`readerwriterqueue.h`, one call at a time: a queue with one reader and one writer is a circle of
blocks.  The reader is in the front block, the writer in the tail block, and the blocks from the
one to the other hold the elements.  A writer that may not allocate refuses when its block is full
and the next one is the front block, even if the reader emptied that one.

`room` is how many elements the writer can add before it refuses (`tryEnqueue_cases`); it depends
on the blocks that the elements are in.
-/

namespace Ubft.Conn

/-- `ReaderWriterQueue`.  `front` is what is left in the front block, and `behind` are the blocks
after it, up to the tail block: the writer only advances to a block with an element.  A block holds
`sizeMask` elements. -/
structure ReaderWriterQueue (α : Type) where
  blocks : Nat
  sizeMask : Nat
  pos : 0 < sizeMask
  front : List α := []
  behind : List (α × List α) := []

namespace ReaderWriterQueue

variable {α : Type}

/-! ### The operations -/

/-- `MAX_BLOCK_SIZE`. -/
def maxBlockSize : Nat := 512

/-- The least power of two that is not below `x`. -/
def ceilToPow2 (x : Nat) : Nat := 2 ^ Nat.clog 2 x

theorem one_lt_ceilToPow2 {size : Nat} (h : 0 < size) : 0 < ceilToPow2 (size + 1) - 1 :=
  Nat.sub_pos_of_lt (Nat.lt_of_lt_of_le (Nat.succ_lt_succ h) (Nat.le_pow_clog Nat.one_lt_two _))

/-- The constructor.  A block that would be too large is replaced by several. -/
def make (size : Nat) (h : 0 < size) : ReaderWriterQueue α :=
  if ceilToPow2 (size + 1) > maxBlockSize * 2 then
    { blocks := (size + maxBlockSize * 2 - 3) / (maxBlockSize - 1)
      sizeMask := maxBlockSize - 1
      pos := Nat.succ_pos _ }
  else
    { blocks := 1
      sizeMask := ceilToPow2 (size + 1) - 1
      pos := one_lt_ceilToPow2 h }

/-- The elements of the tail block. -/
def tail (q : ReaderWriterQueue α) : List α :=
  match q.behind.getLast? with
  | none => q.front
  | some block => block.1 :: block.2

/-- An element is put in the tail block. -/
def write (q : ReaderWriterQueue α) (element : α) : ReaderWriterQueue α :=
  match q.behind.getLast? with
  | none => { q with front := q.front ++ [element] }
  | some block => { q with behind := q.behind.dropLast ++ [(block.1, block.2 ++ [element])] }

/-- `inner_enqueue`, which does not allocate. -/
def tryEnqueue (q : ReaderWriterQueue α) (element : α) : Option (ReaderWriterQueue α) :=
  if q.tail.length < q.sizeMask then some (q.write element)
  else if q.behind.length + 1 < q.blocks then
    some { q with behind := q.behind ++ [(element, [])] }
  else none

/-- The element at the front, and the queue without it. -/
def tryDequeue (q : ReaderWriterQueue α) : Option (α × ReaderWriterQueue α) :=
  match q.front, q.behind with
  | element :: front, _ => some (element, { q with front })
  | [], (element, front) :: behind => some (element, { q with front, behind })
  | [], [] => none

/-! ### What is in a queue -/

/-- The elements, the next one to dequeue first. -/
def toList (q : ReaderWriterQueue α) : List α :=
  q.front ++ q.behind.flatMap fun block => block.1 :: block.2

/-- How many elements can be enqueued as long as none is dequeued. -/
def room (q : ReaderWriterQueue α) : Nat :=
  (q.blocks - 1 - q.behind.length) * q.sizeMask + (q.sizeMask - q.tail.length)

theorem toList_make (size : Nat) (h : 0 < size) :
    (make size h : ReaderWriterQueue α).toList = [] := by
  unfold make
  split <;> rfl

/-- The queue is first in, first out. -/
theorem tryDequeue_cases (q : ReaderWriterQueue α) :
    (q.tryDequeue = none ∧ q.toList = []) ∨
      ∃ element q', q.tryDequeue = some (element, q') ∧ q.toList = element :: q'.toList := by
  obtain ⟨blocks, sizeMask, pos, front, behind⟩ := q
  cases front with
  | cons element front => exact .inr ⟨element, _, rfl, rfl⟩
  | nil =>
      cases behind with
      | nil => exact .inl ⟨rfl, rfl⟩
      | cons block behind => exact .inr ⟨block.1, _, rfl, rfl⟩

/-- A write changes the tail block only. -/
theorem write_cases (q : ReaderWriterQueue α) (element : α) :
    (q.write element).toList = q.toList ++ [element] ∧
      (q.write element).tail = q.tail ++ [element] ∧
      (q.write element).behind.length = q.behind.length := by
  obtain ⟨blocks, sizeMask, pos, front, behind⟩ := q
  rcases List.eq_nil_or_concat behind with rfl | ⟨init, block, rfl⟩
  · simp [write, tail, toList]
  · simp [write, tail, toList]

/-- **The writer** is refused when there is no room, and appends its element otherwise. -/
theorem tryEnqueue_cases (q : ReaderWriterQueue α) (element : α) :
    (q.tryEnqueue element = none ∧ q.room = 0) ∨
      ∃ q', q.tryEnqueue element = some q' ∧ q'.toList = q.toList ++ [element] ∧
        q.room = q'.room + 1 := by
  unfold tryEnqueue
  split
  · next hlt =>
      obtain ⟨hlist, htail, hbehind⟩ := q.write_cases element
      refine .inr ⟨_, rfl, hlist, ?_⟩
      have hmask : (q.write element).sizeMask = q.sizeMask ∧
          (q.write element).blocks = q.blocks := by
        unfold write
        split <;> exact ⟨rfl, rfl⟩
      rw [room, room, htail, hbehind, hmask.1, hmask.2, List.length_append, List.length_singleton]
      omega
  · next hfull =>
      have hnone : q.sizeMask - q.tail.length = 0 := Nat.sub_eq_zero_of_le (Nat.not_lt.mp hfull)
      split
      · next hnext =>
          refine .inr ⟨_, rfl, by simp [toList], ?_⟩
          have htail : tail { q with behind := q.behind ++ [(element, [])] } = [element] := by
            simp [tail]
          -- a block is begun, with one place taken
          obtain ⟨n, hn⟩ : ∃ n, q.blocks - 1 - q.behind.length = n + 1 :=
            Nat.exists_eq_succ_of_ne_zero (by omega)
          have hn' : q.blocks - 1 - (q.behind.length + 1) = n := by omega
          rw [room, room, hnone, htail, hn]
          dsimp only
          rw [List.length_append, List.length_singleton, hn', Nat.succ_mul, List.length_singleton]
          have := q.pos
          omega
      · next hlast =>
          have hzero : q.blocks - 1 - q.behind.length = 0 := by omega
          exact .inl ⟨rfl, by rw [room, hnone, hzero, Nat.zero_mul]⟩

end ReaderWriterQueue

end Ubft.Conn
