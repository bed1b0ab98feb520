import Ubft.Store.Tail
import Ubft.Support.Ring
import Ubft.Support.Runs

/-!
# Store — the two tail queues

`tail-queue.hpp` makes `TailQueue` one of two classes: `VectorTailQueue`, a ring of `tail` slots and
two counters that only grow, reduced modulo `tail` at each access, and `DequeTailQueue`, a
`std::deque`.  Both hold what the `TailQueue` of the other modules holds (`Refines`,
`toTailQueue_emplaceBack`), and they answer the same (`answers_iff`) as long as `back` is called
before the ring wraps: it leaves out the reduction that the other accessors make.
-/

namespace Ubft

universe u

/-- What an access to a queue can end in. -/
inductive QueueError where
  /-- "Out of bounds" -/
  | outOfBounds
  /-- `uat` past the end of the array: `std::out_of_range` in debug builds, undefined in others. -/
  | outOfRange
  /-- An optional without a value is dereferenced: undefined. -/
  | noValue
  /-- An element of an empty `std::deque`: undefined. -/
  | empty
  deriving DecidableEq, Repr

/-- The calls of a queue; `iterate` is a loop from `begin` to `end`. -/
inductive QueueOp (α : Type u) where
  | emplaceBack (a : α)
  | popFront
  | popBack
  | clear
  | front
  | back
  | size
  | isEmpty
  | iterate
  deriving DecidableEq

/-- What a call on a queue gives back. -/
inductive QueueAnswer (α : Type u) where
  | done
  | element (a : α)
  | size (n : Nat)
  | isEmpty (b : Bool)
  | elements (l : List α)
  deriving DecidableEq

/-! ### The ring -/

/-- `head` and `next` are on 64 bits. -/
structure VectorTailQueue (α : Type u) where
  tail : Nat
  dynArray : Nat → Option α := fun _ => none
  head : Nat := 0
  next : Nat := 0

namespace VectorTailQueue

variable {α : Type u}

/-- The element `uat` finds in `dyn_array`, which has `tail` of them. -/
def uat (q : VectorTailQueue α) (index : Nat) : Except QueueError α :=
  if index < q.tail then
    match q.dynArray index with
    | some a => .ok a
    | none => .error .noValue
  else .error .outOfRange

/-- The slot is emptied. -/
def reset (q : VectorTailQueue α) (index : Nat) : VectorTailQueue α :=
  { q with dynArray := Function.update q.dynArray index none }

/-- `next - head`. -/
def size (q : VectorTailQueue α) : Nat :=
  if q.head ≤ q.next then q.next - q.head else q.next + 2 ^ 64 - q.head

/-- `size() == 0`. -/
def isEmpty (q : VectorTailQueue α) : Bool := q.size = 0

/-- The slot of the new element may be that of the front, which then moves on. -/
def emplaceBack (q : VectorTailQueue α) (a : α) : VectorTailQueue α :=
  let dest := q.next
  { q with
    head := if (q.head + q.tail) % 2 ^ 64 = dest then (q.head + 1) % 2 ^ 64 else q.head
    next := (dest + 1) % 2 ^ 64
    dynArray := Function.update q.dynArray (dest % q.tail) (some a) }

/-- The array after the loop of `clear` from `p`, which takes `size` steps to reach `next`. -/
def resetFrom (tail : Nat) (a : Nat → Option α) : Nat → Nat → Nat → Option α
  | 0, _ => a
  | n + 1, p => resetFrom tail (Function.update a (p % tail) none) n ((p + 1) % 2 ^ 64)

/-- The elements between `head` and `next` are reset. -/
def clear (q : VectorTailQueue α) : VectorTailQueue α :=
  { q with
    dynArray := resetFrom q.tail q.dynArray q.size q.head
    head := q.next }

end VectorTailQueue

/-- `VectorTailQueue::at`. -/
def VectorTailQueue.at {α : Type u} (q : VectorTailQueue α) (p : Nat) : Except QueueError α :=
  if p < q.head ∨ q.next ≤ p then .error .outOfBounds else q.uat (p % q.tail)

namespace VectorTailQueue

variable {α : Type u}

/-- The element at `head`. -/
def front (q : VectorTailQueue α) : Except QueueError α := q.at q.head

/-- The slot of the front is emptied. -/
def popFront (q : VectorTailQueue α) : VectorTailQueue α :=
  { q.reset (q.head % q.tail) with head := (q.head + 1) % 2 ^ 64 }

/-- `next - 1`. -/
def last (q : VectorTailQueue α) : Nat := (q.next + 2 ^ 64 - 1) % 2 ^ 64

/-- The element before `next`. -/
def back (q : VectorTailQueue α) : Except QueueError α := q.uat q.last

/-- The slot of the back is emptied. -/
def popBack (q : VectorTailQueue α) : VectorTailQueue α :=
  { q.reset (q.last % q.tail) with next := q.last }

/-- The elements at an iterator that starts at `p`, which reaches `next` in `size` steps. -/
def walk (q : VectorTailQueue α) : Nat → Nat → Except QueueError (List α)
  | 0, _ => .ok []
  | n + 1, p => do
    let a ← q.at p
    let l ← walk q n ((p + 1) % 2 ^ 64)
    return a :: l

/-- From `begin()` to `end()`. -/
def iterate (q : VectorTailQueue α) : Except QueueError (List α) := q.walk q.size q.head

/-- One call on the queue in an array. -/
def exec (q : VectorTailQueue α) :
    QueueOp α → Except QueueError (VectorTailQueue α × QueueAnswer α)
  | .emplaceBack a => .ok (q.emplaceBack a, .done)
  | .popFront => .ok (q.popFront, .done)
  | .popBack => .ok (q.popBack, .done)
  | .clear => .ok (q.clear, .done)
  | .front => q.front.map fun a => (q, .element a)
  | .back => q.back.map fun a => (q, .element a)
  | .size => .ok (q, .size q.size)
  | .isEmpty => .ok (q, .isEmpty q.isEmpty)
  | .iterate => q.iterate.map fun l => (q, .elements l)

end VectorTailQueue

/-! ### The deque -/

/-- The sibling over `std::deque`. -/
structure DequeTailQueue (α : Type u) where
  tail : Nat
  deque : List α := []

namespace DequeTailQueue

variable {α : Type u}

/-- `deque.front()`, undefined on an empty deque. -/
def front (q : DequeTailQueue α) : Except QueueError α :=
  match q.deque with
  | [] => .error .empty
  | a :: _ => .ok a

/-- `deque.pop_front()`, undefined on an empty deque. -/
def popFront (q : DequeTailQueue α) : Except QueueError (DequeTailQueue α) :=
  match q.deque with
  | [] => .error .empty
  | _ :: deque => .ok { q with deque }

/-- `deque.back()`, undefined on an empty deque. -/
def back (q : DequeTailQueue α) : Except QueueError α :=
  match q.deque.getLast? with
  | none => .error .empty
  | some a => .ok a

/-- `deque.pop_back()`, undefined on an empty deque. -/
def popBack (q : DequeTailQueue α) : Except QueueError (DequeTailQueue α) :=
  match q.deque with
  | [] => .error .empty
  | a :: l => .ok { q with deque := (a :: l).dropLast }

/-- The front goes when there would be more than `tail` elements. -/
def emplaceBack (q : DequeTailQueue α) (a : α) : Except QueueError (DequeTailQueue α) :=
  (if q.tail < (q.deque.length + 1) % 2 ^ 64 then q.popFront else .ok q).map
    fun q => { q with deque := q.deque ++ [a] }

/-- One call on the queue over a deque. -/
def exec (q : DequeTailQueue α) :
    QueueOp α → Except QueueError (DequeTailQueue α × QueueAnswer α)
  | .emplaceBack a => (q.emplaceBack a).map (·, .done)
  | .popFront => q.popFront.map (·, .done)
  | .popBack => q.popBack.map (·, .done)
  | .clear => .ok ({ q with deque := [] }, .done)
  | .front => q.front.map fun a => (q, .element a)
  | .back => q.back.map fun a => (q, .element a)
  | .size => .ok (q, .size q.deque.length)
  | .isEmpty => .ok (q, .isEmpty q.deque.isEmpty)
  | .iterate => .ok (q, .elements q.deque)

/-- What the queue holds. -/
def toTailQueue (q : DequeTailQueue α) : TailQueue α := ⟨q.tail, q.deque⟩

section

variable {q q' : DequeTailQueue α} {a : α}

theorem front_eq_ok : q.front = .ok a ↔ ∃ h : q.deque ≠ [], q.deque.head h = a := by
  unfold front
  cases q.deque with
  | nil => exact ⟨nofun, fun ⟨h, _⟩ => absurd rfl h⟩
  | cons b l =>
      exact ⟨fun h => ⟨List.cons_ne_nil b l, Except.ok.inj h⟩, fun ⟨_, h⟩ => congrArg _ h⟩

theorem popFront_eq_ok :
    q.popFront = .ok q' ↔ q.deque ≠ [] ∧ q' = { q with deque := q.deque.drop 1 } := by
  unfold popFront
  cases q.deque with
  | nil => exact ⟨nofun, fun h => absurd rfl h.1⟩
  | cons b l =>
      exact ⟨fun h => ⟨List.cons_ne_nil b l, (Except.ok.inj h).symm⟩, fun h => congrArg _ h.2.symm⟩

theorem back_eq_ok : q.back = .ok a ↔ ∃ h : q.deque ≠ [], q.deque.getLast h = a := by
  unfold back
  by_cases h : q.deque = []
  · rw [List.getLast?_eq_none_iff.mpr h]
    exact ⟨nofun, fun ⟨hne, _⟩ => absurd h hne⟩
  · rw [List.getLast?_eq_some_getLast h]
    exact ⟨fun he => ⟨h, Except.ok.inj he⟩, fun ⟨_, he⟩ => congrArg _ he⟩

theorem popBack_eq_ok :
    q.popBack = .ok q' ↔ q.deque ≠ [] ∧ q' = { q with deque := q.deque.dropLast } := by
  unfold popBack
  cases q.deque with
  | nil => exact ⟨nofun, fun h => absurd rfl h.1⟩
  | cons b l =>
      exact ⟨fun h => ⟨List.cons_ne_nil b l, (Except.ok.inj h).symm⟩, fun h => congrArg _ h.2.symm⟩

/-- A full deque loses its front, unless it has none. -/
theorem emplaceBack_eq_ok (hlt : q.deque.length + 1 < 2 ^ 64) :
    q.emplaceBack a = .ok q' ↔ (q.tail ≤ q.deque.length → q.deque ≠ []) ∧
      q' = { q with
        deque := (if q.tail ≤ q.deque.length then q.deque.drop 1 else q.deque) ++ [a] } := by
  rw [emplaceBack, map_eq_ok, Nat.mod_eq_of_lt hlt]
  by_cases hle : q.tail ≤ q.deque.length
  · simp only [Nat.lt_succ_of_le hle, hle, if_true, popFront_eq_ok, true_imp_iff]
    exact ⟨fun ⟨_, ⟨hne, h₁⟩, h₂⟩ => ⟨hne, by rw [← h₂, h₁]⟩,
      fun ⟨hne, h⟩ => ⟨_, ⟨hne, rfl⟩, h.symm⟩⟩
  · have hlt' : ¬ q.tail < q.deque.length + 1 := fun h => hle (Nat.le_of_lt_succ h)
    simp only [hlt', hle, if_false, false_imp_iff, true_and]
    exact ⟨fun ⟨_, h₁, h₂⟩ => by cases h₁; exact h₂.symm, fun h => ⟨_, rfl, h.symm⟩⟩

theorem toTailQueue_emplaceBack (hl : q.deque.length ≤ q.tail)
    (hlt : q.deque.length + 1 < 2 ^ 64) (h : q.emplaceBack a = .ok q') :
    q'.toTailQueue = q.toTailQueue.emplaceBack a := by
  obtain ⟨-, rfl⟩ := (emplaceBack_eq_ok hlt).mp h
  by_cases hfull : q.deque.length = q.tail
  · simp only [toTailQueue, TailQueue.emplaceBack, hfull, Nat.le_refl, if_true]
  · have hlt : ¬ q.tail ≤ q.deque.length := by omega
    simp only [toTailQueue, TailQueue.emplaceBack, hfull, hlt, if_false]

end

end DequeTailQueue

/-! ### What the ring holds -/

namespace VectorTailQueue

variable {α : Type u} {q : VectorTailQueue α} {t : TailQueue α} {a : α}

/-- The ring `q` holds the queue `t`, its `k`-th element in the slot `head + k` modulo `tail`. -/
structure Refines (q : VectorTailQueue α) (t : TailQueue α) : Prop where
  tail : q.tail = t.tail
  length_le : t.items.length ≤ t.tail
  next : q.next = q.head + t.items.length
  next_lt : q.next < 2 ^ 64
  get : ∀ k (hk : k < t.items.length), q.dynArray ((q.head + k) % q.tail) = some t.items[k]

/-- A ring just constructed. -/
theorem refines_new (n : Nat) : Refines { tail := n } (⟨n, []⟩ : TailQueue α) where
  tail := rfl
  length_le := Nat.zero_le n
  next := rfl
  next_lt := Nat.two_pow_pos 64
  get := nofun

theorem reset_next (q : VectorTailQueue α) (i n : Nat) :
    ({ q.reset i with next := n } : VectorTailQueue α) = reset { q with next := n } i := rfl

namespace Refines

/-- The cursors are apart by the size. -/
theorem size (h : Refines q t) : q.size = t.items.length := by
  rw [VectorTailQueue.size, h.next, if_pos (Nat.le_add_right _ _), Nat.add_sub_cancel_left]

theorem isEmpty (h : Refines q t) : q.isEmpty = t.items.isEmpty := by
  rw [VectorTailQueue.isEmpty, h.size]
  cases t.items <;> simp

/-- The `k`-th element is found at `head + k`. -/
theorem get_at (h : Refines q t) (ht : 0 < t.tail) {k : Nat} (hk : k < t.items.length) :
    q.at (q.head + k) = .ok t.items[k] := by
  have hn := h.next
  have hslot : (q.head + k) % q.tail < q.tail := Nat.mod_lt _ (h.tail ▸ ht)
  rw [VectorTailQueue.at, if_neg (by omega), uat, if_pos hslot, h.get k hk]

/-- The front is given up, its slot left as it is. -/
theorem dropFront (h : Refines q t) (hne : t.items ≠ []) :
    Refines { q with head := q.head + 1 } t.popFront := by
  have hn := h.next
  have hlen := h.length_le
  have hpos := List.length_pos_iff.mpr hne
  have hdrop : t.popFront.items.length = t.items.length - 1 := List.length_drop
  refine ⟨h.tail, by rw [hdrop]; exact Nat.sub_le_of_le_add (Nat.le_succ_of_le hlen), ?_, h.next_lt,
    fun k hk => ?_⟩
  · change q.next = q.head + 1 + _
    omega
  · have hget := h.get (1 + k) (by omega)
    rw [← Nat.add_assoc] at hget
    exact hget.trans (congrArg some List.getElem_drop.symm)

/-- An element is written behind the others, in a slot that is free. -/
theorem put (h : Refines q t) (hroom : t.items.length < t.tail) (hlt : q.next + 1 < 2 ^ 64)
    (a : α) :
    Refines { q with
      next := q.next + 1
      dynArray := Function.update q.dynArray (q.next % q.tail) (some a) }
      { t with items := t.items ++ [a] } := by
  have hn := h.next
  have htail := h.tail
  refine ⟨htail, ?_, ?_, hlt, fun k hk => ?_⟩
  · rw [List.length_append, List.length_singleton]
    exact hroom
  · rw [List.length_append, List.length_singleton, ← Nat.add_assoc, ← hn]
  · rw [List.length_append, List.length_singleton] at hk
    change Function.update q.dynArray (q.next % q.tail) (some a) ((q.head + k) % q.tail) = _
    rcases Nat.lt_succ_iff_lt_or_eq.mp hk with hk | rfl
    · rw [Function.update_of_ne (Ring.mod_ne (by omega) (by omega)), h.get k hk]
      exact congrArg some (List.getElem_append_left hk).symm
    · rw [← hn, Function.update_self]
      exact congrArg some (List.getElem_concat_length rfl _).symm

/-- A slot that no element is in changes. -/
theorem reset (h : Refines q t) {i : Nat}
    (hi : ∀ k < t.items.length, (q.head + k) % q.tail ≠ i) : Refines (q.reset i) t :=
  ⟨h.tail, h.length_le, h.next, h.next_lt, fun k hk =>
    (Function.update_of_ne (hi k hk) _ _).trans (h.get k hk)⟩

theorem front (h : Refines q t) (ht : 0 < t.tail) (hne : t.items ≠ []) :
    q.front = .ok (t.items.head hne) := by
  rw [List.head_eq_getElem]
  exact h.get_at ht (List.length_pos_iff.mpr hne)

/-- The new element takes the slot of the front if the queue is full. -/
theorem emplaceBack (h : Refines q t) (ht : 0 < t.tail) (htlt : t.tail < 2 ^ 64)
    (hlt : q.next + 1 < 2 ^ 64) (a : α) : Refines (q.emplaceBack a) (t.emplaceBack a) := by
  have hn := h.next
  have hlen := h.length_le
  have htail := h.tail
  have hnext : (q.next + 1) % 2 ^ 64 = q.next + 1 := Nat.mod_eq_of_lt hlt
  by_cases hfull : t.items.length = t.tail
  · -- the slot of the oldest element is the one that is written
    have hlap : (q.head + q.tail) % 2 ^ 64 = q.next := by omega
    have hhead : (q.head + 1) % 2 ^ 64 = q.head + 1 := by omega
    have hpos : 0 < t.items.length := hfull ▸ ht
    have hdrop : t.popFront.items.length < t.tail := by
      change (t.items.drop 1).length < t.tail
      rw [List.length_drop]
      omega
    have hput := (h.dropFront (List.length_pos_iff.mp hpos)).put hdrop hlt a
    simp only [VectorTailQueue.emplaceBack, TailQueue.emplaceBack, hlap, hhead, hnext, hfull,
      if_true]
    exact hput
  · have hlap : ¬ (q.head + q.tail) % 2 ^ 64 = q.next := by omega
    have hput := h.put (Nat.lt_of_le_of_ne hlen hfull) hlt a
    simp only [VectorTailQueue.emplaceBack, TailQueue.emplaceBack, hlap, hnext, hfull, if_false]
    exact hput

/-- The next element becomes the front. -/
theorem popFront (h : Refines q t) (hne : t.items ≠ []) : Refines q.popFront t.popFront := by
  have hn := h.next
  have hlt := h.next_lt
  have hlen := h.length_le
  have htail := h.tail
  have hpos := List.length_pos_iff.mpr hne
  have hhead : (q.head + 1) % 2 ^ 64 = q.head + 1 := Nat.mod_eq_of_lt (by omega)
  have hdrop : t.popFront.items.length = t.items.length - 1 := List.length_drop
  have hslot : ∀ k < t.popFront.items.length, (q.head + 1 + k) % q.tail ≠ q.head % q.tail := by
    intro k hk
    exact (Ring.mod_ne (by omega) (by omega)).symm
  have hreset := (h.dropFront hne).reset hslot
  rw [VectorTailQueue.popFront, hhead]
  exact hreset

/-- The cursor of the back, as long as it does not wrap. -/
theorem last (h : Refines q t) (hne : t.items ≠ []) : q.last = q.next - 1 := by
  have hn := h.next
  have hlt := h.next_lt
  have hpos := List.length_pos_iff.mpr hne
  rw [VectorTailQueue.last]
  omega

/-- The element before becomes the back. -/
theorem popBack (h : Refines q t) (hne : t.items ≠ []) :
    Refines q.popBack { t with items := t.items.dropLast } := by
  have hn := h.next
  have hlt := h.next_lt
  have hlen := h.length_le
  have htail := h.tail
  have hlast := h.last hne
  have hinit : t.items.dropLast.length = t.items.length - 1 := List.length_dropLast
  have hpos := List.length_pos_iff.mpr hne
  have hback : Refines { q with next := q.last } { t with items := t.items.dropLast } := by
    refine ⟨htail, hinit.trans_le (Nat.le_trans (Nat.sub_le _ _) hlen), ?_, ?_, fun k hk => ?_⟩
    · change q.last = q.head + t.items.dropLast.length
      omega
    · change q.last < 2 ^ 64
      omega
    · change k < t.items.dropLast.length at hk
      exact (h.get k (by omega)).trans (congrArg some (List.getElem_dropLast hk).symm)
  have hslot : ∀ k < t.items.dropLast.length, (q.head + k) % q.tail ≠ q.last % q.tail := by
    intro k hk
    exact Ring.mod_ne (by omega) (by omega)
  rw [VectorTailQueue.popBack, reset_next]
  exact hback.reset hslot

/-- The last element is looked for where it is if `next` did not pass the end of the array. -/
theorem back (h : Refines q t) (hne : t.items ≠ []) (hle : q.next ≤ t.tail) :
    q.back = .ok (t.items.getLast hne) := by
  have hn := h.next
  have htail := h.tail
  have hpos := List.length_pos_iff.mpr hne
  have hlast : q.last = q.head + (t.items.length - 1) := (h.last hne).trans (by omega)
  have hlt : q.head + (t.items.length - 1) < q.tail := by omega
  have hget := h.get (t.items.length - 1) (by omega)
  rw [Nat.mod_eq_of_lt hlt] at hget
  rw [VectorTailQueue.back, hlast, uat, if_pos hlt, hget, List.getLast_eq_getElem]

/-- Past a lap `back` is out of range: it takes the cursor for a place. -/
theorem back_of_lt (h : Refines q t) (hne : t.items ≠ []) (hlt : t.tail < q.next) :
    q.back = .error .outOfRange := by
  have hn := h.next
  have htail := h.tail
  have hpos := List.length_pos_iff.mpr hne
  rw [VectorTailQueue.back, h.last hne, uat, if_neg (by omega)]

theorem clear (h : Refines q t) : Refines q.clear { t with items := [] } where
  tail := h.tail
  length_le := Nat.zero_le t.tail
  next := (Nat.add_zero q.next).symm
  next_lt := h.next_lt
  get := nofun

/-- An iterator at the `k`-th element visits it and the ones after it. -/
theorem walk (h : Refines q t) (ht : 0 < t.tail) {n k : Nat} (hk : k + n = t.items.length) :
    q.walk n (q.head + k) = .ok (t.items.drop k) := by
  induction n generalizing k with
  | zero =>
      have hle : t.items.length ≤ k := Nat.le_of_eq hk.symm
      rw [VectorTailQueue.walk, List.drop_eq_nil_of_le hle]
  | succ n ih =>
      have hn := h.next
      have hlt := h.next_lt
      have hk' : k < t.items.length := by omega
      have hp : (q.head + k + 1) % 2 ^ 64 = q.head + (k + 1) := by omega
      have hrest := ih (k := k + 1) (by omega)
      rw [VectorTailQueue.walk, h.get_at ht hk', hp, hrest, List.drop_eq_getElem_cons hk']
      rfl

/-- The elements, from the front. -/
theorem iterate (h : Refines q t) (ht : 0 < t.tail) : q.iterate = .ok t.items := by
  rw [VectorTailQueue.iterate, h.size]
  exact h.walk ht (k := 0) (Nat.zero_add _)

end Refines

end VectorTailQueue

/-! ### The same answers -/

/-- The elements pushed, less those popped at the back, which is what `next` counts. -/
def QueueOp.pushed {α : Type u} (n : Nat) : QueueOp α → Nat
  | .emplaceBack _ => n + 1
  | .popBack => n - 1
  | _ => n

/-- The counters stay on their 64 bits. -/
def Counted {α : Type u} : Nat → List (QueueOp α) → Prop
  | _, [] => True
  | n, op :: ops => op.pushed n < 2 ^ 64 ∧ Counted (op.pushed n) ops

/-- `back` is called before more elements were pushed than the array has room for. -/
def BacksInPlace {α : Type u} (tail : Nat) : Nat → List (QueueOp α) → Prop
  | _, [] => True
  | n, op :: ops => (op = .back → n ≤ tail) ∧ BacksInPlace tail (op.pushed n) ops

section Agreement

variable {α : Type u} {q q' : VectorTailQueue α} {d d' : DequeTailQueue α} {op : QueueOp α}
  {ops : List (QueueOp α)} {a : QueueAnswer α} {as : List (QueueAnswer α)}

open VectorTailQueue (Refines)

theorem DequeTailQueue.tail_exec (h : d.exec op = .ok (d', a)) : d'.tail = d.tail := by
  cases op with
  | emplaceBack x =>
      obtain ⟨d₁, h₁, h₂⟩ := map_eq_ok.mp h
      cases h₂
      obtain ⟨d₂, h₃, rfl⟩ := map_eq_ok.mp h₁
      split at h₃
      · obtain ⟨-, rfl⟩ := popFront_eq_ok.mp h₃
        rfl
      · cases h₃
        rfl
  | popFront =>
      obtain ⟨d₁, h₁, h₂⟩ := map_eq_ok.mp h
      cases h₂
      obtain ⟨-, rfl⟩ := popFront_eq_ok.mp h₁
      rfl
  | popBack =>
      obtain ⟨d₁, h₁, h₂⟩ := map_eq_ok.mp h
      cases h₂
      obtain ⟨-, rfl⟩ := popBack_eq_ok.mp h₁
      rfl
  | front | back =>
      obtain ⟨x, -, h₂⟩ := map_eq_ok.mp h
      cases h₂
      rfl
  | clear | size | isEmpty | iterate =>
      cases h
      rfl

/-- What the deque answers, the ring answers. -/
theorem VectorTailQueue.Refines.exec (h : Refines q d.toTailQueue) (ht : 0 < d.tail)
    (htlt : d.tail < 2 ^ 64) (hc : op.pushed q.next < 2 ^ 64) (hb : op = .back → q.next ≤ d.tail)
    (hd : d.exec op = .ok (d', a)) :
    ∃ q', q.exec op = .ok (q', a) ∧ Refines q' d'.toTailQueue ∧ q'.next = op.pushed q.next := by
  cases op with
  | emplaceBack x =>
      obtain ⟨d₁, h₁, h₂⟩ := map_eq_ok.mp hd
      cases h₂
      change q.next + 1 < 2 ^ 64 at hc
      have hle : d.deque.length ≤ q.next := h.next ▸ Nat.le_add_left _ _
      have hd' := DequeTailQueue.toTailQueue_emplaceBack h.length_le (by omega) h₁
      exact ⟨_, rfl, hd' ▸ h.emplaceBack ht htlt hc x, Nat.mod_eq_of_lt hc⟩
  | popFront =>
      obtain ⟨d₁, h₁, h₂⟩ := map_eq_ok.mp hd
      cases h₂
      obtain ⟨hne, rfl⟩ := DequeTailQueue.popFront_eq_ok.mp h₁
      exact ⟨_, rfl, h.popFront hne, rfl⟩
  | popBack =>
      obtain ⟨d₁, h₁, h₂⟩ := map_eq_ok.mp hd
      cases h₂
      obtain ⟨hne, rfl⟩ := DequeTailQueue.popBack_eq_ok.mp h₁
      exact ⟨_, rfl, h.popBack hne, h.last hne⟩
  | clear =>
      cases hd
      exact ⟨_, rfl, h.clear, rfl⟩
  | front =>
      obtain ⟨x, h₁, h₂⟩ := map_eq_ok.mp hd
      cases h₂
      obtain ⟨hne, rfl⟩ := DequeTailQueue.front_eq_ok.mp h₁
      exact ⟨q, map_eq_ok.mpr ⟨_, h.front ht hne, rfl⟩, h, rfl⟩
  | back =>
      obtain ⟨x, h₁, h₂⟩ := map_eq_ok.mp hd
      cases h₂
      obtain ⟨hne, rfl⟩ := DequeTailQueue.back_eq_ok.mp h₁
      exact ⟨q, map_eq_ok.mpr ⟨_, h.back hne (hb rfl), rfl⟩, h, rfl⟩
  | size =>
      cases hd
      exact ⟨q, congrArg (fun n => Except.ok (q, QueueAnswer.size n)) h.size, h, rfl⟩
  | isEmpty =>
      cases hd
      exact ⟨q, congrArg (fun b => Except.ok (q, QueueAnswer.isEmpty b)) h.isEmpty, h, rfl⟩
  | iterate =>
      cases hd
      exact ⟨q, map_eq_ok.mpr ⟨_, h.iterate ht, rfl⟩, h, rfl⟩

/-- `q` and `d` hold the same elements, at most `tail`, and when they are full drop the oldest one
for a new one. -/
structure Alike (q : VectorTailQueue α) (d : DequeTailQueue α) : Prop where
  iterate : q.iterate = .ok d.deque
  length_le : d.deque.length ≤ d.tail
  emplaceBack : ∀ a, q.next + 1 < 2 ^ 64 → ∃ d', d.emplaceBack a = .ok d' ∧
    (q.emplaceBack a).iterate = .ok d'.deque ∧
    d'.deque = (if d.deque.length = d.tail then d.deque.drop 1 else d.deque) ++ [a]

/-- A queue that refines the other is like it. -/
theorem VectorTailQueue.Refines.alike (h : Refines q d.toTailQueue) (ht : 0 < d.tail)
    (htlt : d.tail < 2 ^ 64) : Alike q d where
  iterate := h.iterate ht
  length_le := h.length_le
  emplaceBack a hlt := by
    have hle : d.deque.length ≤ q.next := h.next ▸ Nat.le_add_left _ _
    have hlt' : d.deque.length + 1 < 2 ^ 64 := by omega
    have hd : d.emplaceBack a = .ok _ := (DequeTailQueue.emplaceBack_eq_ok hlt').mpr
      ⟨fun hfull => List.length_pos_iff.mp (Nat.lt_of_lt_of_le ht hfull), rfl⟩
    have htail := DequeTailQueue.toTailQueue_emplaceBack h.length_le hlt' hd
    have hitems := congrArg TailQueue.items htail
    have hiter := (h.emplaceBack ht htlt hlt a).iterate ht
    rw [← hitems] at hiter
    exact ⟨_, hd, hiter, hitems⟩

/-- **By induction on the calls**: the same answers as long as no `back` is asked past a lap. -/
theorem VectorTailQueue.Refines.answers_iff (h : Refines q d.toTailQueue) (ht : 0 < d.tail)
    (htlt : d.tail < 2 ^ 64) (hc : Counted q.next ops)
    (hd : answers DequeTailQueue.exec d ops = .ok (d', as)) :
    (∃ q', answers VectorTailQueue.exec q ops = .ok (q', as) ∧ Alike q' d') ↔
      BacksInPlace d.tail q.next ops := by
  induction ops generalizing q d as with
  | nil =>
      cases hd
      exact ⟨fun _ => trivial, fun _ => ⟨q, rfl, h.alike ht htlt⟩⟩
  | cons op ops ih =>
      obtain ⟨d₁, a, as', h₁, h₂, rfl⟩ := answers_cons.mp hd
      have htail := DequeTailQueue.tail_exec h₁
      by_cases hb : op = .back → q.next ≤ d.tail
      · obtain ⟨q₁, hq₁, hr, hnext⟩ := h.exec ht htlt hc.1 hb h₁
        have hrest := ih hr (htail ▸ ht) (htail ▸ htlt) (hnext ▸ hc.2) h₂
        rw [htail, hnext] at hrest
        rw [BacksInPlace, ← hrest]
        constructor
        · rintro ⟨q', hq', hsame⟩
          obtain ⟨q₂, a₂, as₂, h₃, h₄, h₅⟩ := answers_cons.mp hq'
          rw [hq₁] at h₃
          cases h₃
          cases h₅
          exact ⟨hb, q', h₄, hsame⟩
        · rintro ⟨-, q', hq', hsame⟩
          exact ⟨q', answers_cons.mpr ⟨q₁, a, as', hq₁, hq', rfl⟩, hsame⟩
      · -- the ring looks past the end of its array
        obtain ⟨rfl, hlt⟩ : op = .back ∧ d.tail < q.next := by
          rwa [Classical.not_imp, Nat.not_le] at hb
        refine ⟨?_, fun hin => absurd hin.1 hb⟩
        rintro ⟨q', hq', -⟩
        obtain ⟨q₂, a₂, as₂, h₃, -⟩ := answers_cons.mp hq'
        obtain ⟨x, h₁, -⟩ := map_eq_ok.mp h₁
        obtain ⟨hne, -⟩ := DequeTailQueue.back_eq_ok.mp h₁
        obtain ⟨y, h₃, -⟩ := map_eq_ok.mp h₃
        exact nomatch (h.back_of_lt hne hlt).symm.trans h₃

/-- **Two tail queues.**  On the calls that a deque allows, the ring answers the same and holds the
same elements, unless `back` is called when more elements were pushed than it has slots. -/
theorem tailQueues_answer_alike_iff {tail : Nat} (ht : 0 < tail) (htlt : tail < 2 ^ 64)
    (hc : Counted 0 ops) (hd : answers DequeTailQueue.exec { tail } ops = .ok (d, as)) :
    (∃ q, answers VectorTailQueue.exec { tail } ops = .ok (q, as) ∧ Alike q d) ↔
      BacksInPlace tail 0 ops :=
  (VectorTailQueue.refines_new tail).answers_iff ht htlt hc hd

end Agreement

/-- A ring for two elements wraps, once its back was read. -/
theorem tailQueues_answer_alike_two :
    ∃ q, answers VectorTailQueue.exec { tail := 2 }
        [.emplaceBack 7, .emplaceBack 8, .back, .emplaceBack 9, .front, .iterate] =
          .ok (q, [.done, .done, .element 8, .done, .element 8, .elements [8, 9]]) ∧
      Alike q ⟨2, [8, 9]⟩ := by
  refine (tailQueues_answer_alike_iff (by decide) (by decide) ?_ rfl).mpr ?_
  · exact ⟨by decide, by decide, by decide, by decide, by decide, by decide, trivial⟩
  · exact ⟨nofun, nofun, fun _ => by decide, nofun, nofun, nofun, trivial⟩

/-- The last of two elements pushed to a queue for one is not found. -/
theorem back_past_end :
    ∃ d, answers DequeTailQueue.exec { tail := 1 } [.emplaceBack 7, .emplaceBack 8, .back] =
        .ok (d, [.done, .done, .element 8]) ∧
      ¬ ∃ q as, answers VectorTailQueue.exec { tail := 1 }
        [.emplaceBack 7, .emplaceBack 8, .back] = .ok (q, as) := by
  have herr : (answers VectorTailQueue.exec ({ tail := 1 } : VectorTailQueue Nat)
      [.emplaceBack 7, .emplaceBack 8, .back]).isOk = false := by decide +kernel
  refine ⟨⟨1, [8]⟩, rfl, fun ⟨q, as, h⟩ => ?_⟩
  rw [h] at herr
  cases herr

end Ubft
