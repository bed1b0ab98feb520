import Ubft.Support.Heap
import Ubft.Support.Runs
import Ubft.ThreadPool.TaskQueues

/-!
# ThreadPool — the priority queue

`updatable_priority_queue`, which `KeyedPriorityQueue` wraps: a binary heap in a vector, and for
each key its position there.  A sift carries a hole along a path of the heap and writes the node it
moves once, at the end.

An access outside the vectors is `none`; the front of an empty heap is one.  In every run that only
increments and decrements the priorities of present keys, without wrapping, and asks for the top of
queues that are not empty, none occurs, and the queue is a map of priorities whose top is a largest
one (`answers_of_reachable`).  So it is what the task queues rely on, whose priorities are lengths
(`correct_keyedPriorityQueue`).
-/

namespace Ubft.ThreadPool

variable {V : Type}

/-- `priority_queue_node`. -/
structure PriorityQueueNode (V : Type) where
  priority : V
  key : Nat
  deriving DecidableEq, Repr

/-- What `id_to_heappos` holds: `-1`, `-2`, or a position. -/
inductive Heappos where
  | unseen
  | remembered
  | «at» (pos : Nat)
  deriving DecidableEq, Repr

/-- The position changes, a mark stays. -/
def Heappos.map (f : Nat → Nat) : Heappos → Heappos
  | .at i => .at (f i)
  | x => x

/-- A binary heap, and for each key where it stands in it. -/
structure UpdatablePriorityQueue (V : Type) where
  idToHeappos : List Heappos := []
  heap : List (PriorityQueueNode V) := []
  deriving DecidableEq, Repr

namespace UpdatablePriorityQueue

/-- `heap.empty()`. -/
def empty (q : UpdatablePriorityQueue V) : Bool := q.heap.isEmpty

/-- The front of the heap. -/
def top (q : UpdatablePriorityQueue V) : Option (PriorityQueueNode V) := q.heap[0]?

/-- `id_to_heappos[key] = …`. -/
def setHeappos (q : UpdatablePriorityQueue V) (key : Nat) (pos : Heappos) :
    Option (UpdatablePriorityQueue V) :=
  if key < q.idToHeappos.length then some { q with idToHeappos := q.idToHeappos.set key pos }
  else none

/-- A node is written at a position, which its key gets. -/
def place (q : UpdatablePriorityQueue V) (pos : Nat) (node : PriorityQueueNode V) :
    Option (UpdatablePriorityQueue V) :=
  if pos < q.heap.length then
    { q with heap := q.heap.set pos node }.setHeappos node.key (.at pos)
  else none

/-- The position of a present key. -/
def heappos? (q : UpdatablePriorityQueue V) (key : Nat) : Option Nat :=
  match q.idToHeappos[key]? with
  | some (.at pos) => some pos
  | _ => none

/-- The priority of a key that is present. -/
def getPriority (q : UpdatablePriorityQueue V) (key : Nat) : Option V :=
  (q.heappos? key).bind fun pos => q.heap[pos]?.map (·.priority)

/-- `extend_ids`: the keys up to `k` get a place in the index. -/
def extendIds (q : UpdatablePriorityQueue V) (k : Nat) : UpdatablePriorityQueue V :=
  { q with
    idToHeappos := q.idToHeappos ++ List.replicate (k + 1 - q.idToHeappos.length) .unseen }

/-! ### Sifting -/

section

variable [LT V] [DecidableLT V]

/-- The loop of `sift_up`, which moves parents down. -/
def siftUpLoop (val : PriorityQueueNode V) :
    Nat → UpdatablePriorityQueue V → Nat → Option (UpdatablePriorityQueue V)
  | 0, _, _ => none
  | fuel + 1, q, heappos =>
    if heappos = 0 then q.place heappos val
    else
      q.heap[Heap.parent heappos]?.bind fun parent =>
        if parent.priority < val.priority then
          (q.place heappos parent).bind fun q => q.siftUpLoop val fuel (Heap.parent heappos)
        else q.place heappos val

/-- The element at `heappos` goes up as long as its parent is lower. -/
def siftUp (q : UpdatablePriorityQueue V) (heappos : Nat) : Option (UpdatablePriorityQueue V) :=
  if q.heap.length < 2 ∨ heappos = 0 then some q
  else
    q.heap[heappos]?.bind fun val =>
      q.heap[Heap.parent heappos]?.bind fun parent =>
        if parent.priority < val.priority then q.siftUpLoop val (heappos + 1) heappos else some q

/-- The second child when it is higher. -/
def higherChild (q : UpdatablePriorityQueue V) (child : Nat) : Nat :=
  match q.heap[child]?, q.heap[child + 1]? with
  | some a, some b => if a.priority < b.priority then child + 1 else child
  | _, _ => child

/-- The loop of `sift_down`, which moves children up. -/
def siftDownLoop (val : PriorityQueueNode V) :
    Nat → UpdatablePriorityQueue V → Nat → Option (UpdatablePriorityQueue V)
  | 0, _, _ => none
  | fuel + 1, q, heappos =>
    if q.heap.length ≤ 2 * heappos + 1 then q.place heappos val
    else
      q.heap[q.higherChild (2 * heappos + 1)]?.bind fun child =>
        if val.priority < child.priority then
          (q.place heappos child).bind fun q' =>
            q'.siftDownLoop val fuel (q.higherChild (2 * heappos + 1))
        else q.place heappos val

/-- The element at `heappos` goes down as long as a child is higher. -/
def siftDown (q : UpdatablePriorityQueue V) (heappos : Nat) : Option (UpdatablePriorityQueue V) :=
  if q.heap.length < 2 ∨ q.heap.length ≤ 2 * heappos + 1 then some q
  else
    q.heap[heappos]?.bind fun val =>
      q.heap[q.higherChild (2 * heappos + 1)]?.bind fun child =>
        if val.priority < child.priority then q.siftDownLoop val (q.heap.length + 1) heappos
        else some q

/-! ### The operations -/

/-- What `pop` writes for the key it removes. -/
def forget (rememberKey : Bool) : Heappos := if rememberKey then .remembered else .unseen

/-- The last element takes the place of the first and goes down. -/
def pop (q : UpdatablePriorityQueue V) (rememberKey : Bool) : Option (UpdatablePriorityQueue V) :=
  match q.heap with
  | [] => some q
  | front :: rest =>
    (q.setHeappos front.key (forget rememberKey)).bind fun q =>
      match rest.getLast? with
      | none => { q with heap := [] }.siftDown 0
      | some last =>
        (q.place 0 last).bind fun q => { q with heap := q.heap.dropLast }.siftDown 0

/-- An empty queue has no value to pop. -/
def popValue (q : UpdatablePriorityQueue V) (rememberKey : Bool) :
    Option (UpdatablePriorityQueue V × Option (PriorityQueueNode V)) :=
  (q.pop rememberKey).map fun q' => (q', q.top)

/-- The element joins the end of the heap. -/
def emplaceBack (q : UpdatablePriorityQueue V) (node : PriorityQueueNode V) :
    UpdatablePriorityQueue V :=
  { q with heap := q.heap ++ [node] }

/-- A key that is not present enters at the end and goes up. -/
def push (q : UpdatablePriorityQueue V) (key : Nat) (priority : V) (onlyIfUnknown : Bool) :
    Option (UpdatablePriorityQueue V × Bool) :=
  let q := q.extendIds key
  match q.idToHeappos[key]? with
  | none => none
  | some (.at _) => some (q, false)
  | some pos =>
    if onlyIfUnknown = true ∧ pos = .remembered then some (q, false)
    else
      (q.setHeappos key (.at q.heap.length)).bind fun q =>
        ((q.emplaceBack ⟨priority, key⟩).siftUp q.heap.length).map (·, true)

/-- The priority at a position is written. -/
def write (q : UpdatablePriorityQueue V) (pos : Nat) (node : PriorityQueueNode V) (priority : V) :
    UpdatablePriorityQueue V :=
  { q with heap := q.heap.set pos { node with priority } }

/-- The new priority goes up, or down if `onlyIfHigher` does not forbid it. -/
def update (q : UpdatablePriorityQueue V) (key : Nat) (newPriority : V) (onlyIfHigher : Bool) :
    Option (UpdatablePriorityQueue V × Bool) :=
  match q.heappos? key with
  | none => some (q, false)
  | some pos =>
    q.heap[pos]?.bind fun node =>
      if node.priority < newPriority then ((q.write pos node newPriority).siftUp pos).map (·, true)
      else if onlyIfHigher = false ∧ newPriority < node.priority then
        ((q.write pos node newPriority).siftDown pos).map (·, true)
      else some (q, false)

/-- `only_if_higher` is the `only_if_unknown` of `push`. -/
def set (q : UpdatablePriorityQueue V) (key : Nat) (priority : V) (onlyIfHigher : Bool) :
    Option (UpdatablePriorityQueue V × Bool) :=
  if (q.heappos? key).isSome then q.update key priority onlyIfHigher
  else q.push key priority onlyIfHigher

/-- `priority++`, which wraps when the type of the priorities does: the node is sifted up all the
same. -/
def increment [Add V] [One V] (q : UpdatablePriorityQueue V) (key : Nat) :
    Option (UpdatablePriorityQueue V) :=
  (q.heappos? key).bind fun pos =>
    q.heap[pos]?.bind fun node => (q.write pos node (node.priority + 1)).siftUp pos

/-- `priority--`, after which the node is sifted down. -/
def decrement [Sub V] [One V] (q : UpdatablePriorityQueue V) (key : Nat) :
    Option (UpdatablePriorityQueue V) :=
  (q.heappos? key).bind fun pos =>
    q.heap[pos]?.bind fun node => (q.write pos node (node.priority - 1)).siftDown pos

end

/-! ### The vectors -/

section

variable {q q' q'' : UpdatablePriorityQueue V} {i j k key hole : Nat}
  {val a b : PriorityQueueNode V}

/-- What is known of a key. -/
inductive Slot (V : Type) where
  | unseen
  | remembered
  | present (priority : V)
  deriving DecidableEq, Repr

/-- What the queue knows about a key. -/
def slot (q : UpdatablePriorityQueue V) (key : Nat) : Slot V :=
  match q.idToHeappos[key]? with
  | none | some .unseen => .unseen
  | some .remembered => .remembered
  | some (.at pos) => (q.heap[pos]?).elim .unseen fun node => .present node.priority

/-- The keys and the positions of the nodes are each other's. -/
def Indexed (q : UpdatablePriorityQueue V) : Prop :=
  ∀ k i : Nat, q.idToHeappos[k]? = some (.at i) ↔ ∃ node, q.heap[i]? = some node ∧ node.key = k

/-- The priorities of the positions. -/
def level (q : UpdatablePriorityQueue V) (i : Nat) : WithBot V :=
  (q.heap[i]?).elim ⊥ fun node => node.priority

theorem level_of_getElem? (h : q.heap[i]? = some a) : q.level i = a.priority := by
  rw [level, h]
  rfl

theorem level_eq_bot (h : q.heap.length ≤ i) : q.level i = ⊥ := by
  rw [level, List.getElem?_eq_none h]
  rfl

theorem exists_getElem? (h : i < q.heap.length) : ∃ a, q.heap[i]? = some a :=
  ⟨_, List.getElem?_eq_getElem h⟩

theorem heappos?_eq_some : q.heappos? key = some i ↔ q.idToHeappos[key]? = some (.at i) := by
  unfold heappos?
  split
  · next h => rw [h, Option.some.injEq, Option.some.injEq, Heappos.at.injEq]
  · next hno =>
      constructor
      · rintro ⟨⟩
      · exact fun h => absurd h (hno i)

/-- What is known of a key depends on its place in the index and on the heap there. -/
theorem slot_congr (hk : q'.idToHeappos[k]? = q.idToHeappos[k]?)
    (hi : ∀ i : Nat, q.idToHeappos[k]? = some (.at i) → q'.heap[i]? = q.heap[i]?) :
    q'.slot k = q.slot k := by
  unfold slot
  rw [hk]
  split
  · rfl
  · rfl
  · rfl
  · next i h => rw [hi i h]

namespace Indexed

/-- The index points at the key's own node. -/
theorem node (h : q.Indexed) (hi : q.idToHeappos[key]? = some (.at i)) :
    ∃ node, q.heap[i]? = some node ∧ node.key = key := (h key i).mp hi

theorem pos (h : q.Indexed) (hi : q.heap[i]? = some a) : q.idToHeappos[a.key]? = some (.at i) :=
  (h a.key i).mpr ⟨a, hi, rfl⟩

/-- No key is in the heap twice. -/
theorem inj (h : q.Indexed) (hi : q.heap[i]? = some a) (hj : q.heap[j]? = some b)
    (hk : a.key = b.key) : i = j := by
  have ha := h.pos hi
  rw [hk, h.pos hj] at ha
  cases ha
  rfl

theorem key_lt (h : q.Indexed) (hi : q.heap[i]? = some a) : a.key < q.idToHeappos.length :=
  (List.getElem?_eq_some_iff.mp (h.pos hi)).choose

/-- A node's key is present, with the node's priority. -/
theorem slot_pos (h : q.Indexed) (hi : q.heap[i]? = some a) :
    q.slot a.key = .present a.priority := by
  rw [slot, h.pos hi]
  change (q.heap[i]?).elim _ _ = _
  rw [hi]
  rfl

/-- A present key has a node. -/
theorem exists_node (h : q.Indexed) {p : V} (hk : q.slot key = .present p) :
    ∃ i node, q.idToHeappos[key]? = some (.at i) ∧ q.heap[i]? = some node ∧ node.key = key ∧
      node.priority = p := by
  unfold slot at hk
  split at hk
  · cases hk
  · cases hk
  · cases hk
  · next i hi =>
      obtain ⟨node, hn, hkey⟩ := h.node hi
      rw [hn] at hk
      cases hk
      exact ⟨i, node, hi, hn, hkey, rfl⟩

/-- The keys in the heap are those that are present. -/
theorem mem_keys (h : q.Indexed) : k ∈ q.heap.map (·.key) ↔ ∃ p, q.slot k = .present p := by
  constructor
  · intro hk
    obtain ⟨node, hn, rfl⟩ := List.mem_map.mp hk
    obtain ⟨i, hi⟩ := List.mem_iff_getElem?.mp hn
    exact ⟨_, h.slot_pos hi⟩
  · rintro ⟨p, hk⟩
    obtain ⟨i, node, -, hn, rfl, -⟩ := h.exists_node hk
    exact List.mem_map_of_mem (List.mem_of_getElem? hn)

/-- Each key has one node at most. -/
theorem nodup_keys (h : q.Indexed) : (q.heap.map (·.key)).Nodup := by
  rw [List.nodup_iff_getElem?_ne_getElem?]
  intro i j hij hj heq
  rw [List.length_map] at hj
  obtain ⟨a, ha⟩ := exists_getElem? (hij.trans hj)
  obtain ⟨b, hb⟩ := exists_getElem? hj
  rw [List.getElem?_map, List.getElem?_map, ha, hb] at heq
  exact Nat.ne_of_lt hij (h.inj ha hb (Option.some.inj heq))

end Indexed

/-! ### Exchanges -/

/-- The vectors after a node is written at a position. -/
def fill (q : UpdatablePriorityQueue V) (hole : Nat) (val : PriorityQueueNode V) :
    UpdatablePriorityQueue V where
  idToHeappos := q.idToHeappos.set val.key (.at hole)
  heap := q.heap.set hole val

/-- Within bounds, a node is placed. -/
theorem place_eq (hole_lt : hole < q.heap.length) (key_lt : val.key < q.idToHeappos.length) :
    q.place hole val = some (q.fill hole val) := by
  unfold place setHeappos
  rw [if_pos hole_lt, if_pos key_lt]
  rfl

/-- Two positions are exchanged. -/
structure Exchanged (q q' : UpdatablePriorityQueue V) (i j : Nat) : Prop where
  heap : ∀ k : Nat, q'.heap[k]? = q.heap[Equiv.swap i j k]?
  ids : ∀ k : Nat, q'.idToHeappos[k]? = (q.idToHeappos[k]?).map (Heappos.map (Equiv.swap i j))

namespace Exchanged

/-- After an exchange the index is that before, the two positions swapped. -/
theorem ids_at (h : Exchanged q q' i j) :
    q'.idToHeappos[key]? = some (.at k) ↔
      q.idToHeappos[key]? = some (.at (Equiv.swap i j k)) := by
  rw [h.ids]
  cases hk : q.idToHeappos[key]? with
  | none => exact ⟨by rintro ⟨⟩, by rintro ⟨⟩⟩
  | some x =>
      cases x with
      | unseen => exact ⟨by rintro ⟨⟩, by rintro ⟨⟩⟩
      | remembered => exact ⟨by rintro ⟨⟩, by rintro ⟨⟩⟩
      | «at» m =>
          change some (Heappos.at (Equiv.swap i j m)) = _ ↔ _
          rw [Option.some.injEq, Option.some.injEq, Heappos.at.injEq, Heappos.at.injEq,
            Equiv.swap_apply_eq_iff]

/-- An exchange keeps the index matching. -/
theorem indexed (h : Exchanged q q' i j) (hq : q.Indexed) : q'.Indexed := by
  intro key k
  rw [h.ids_at, h.heap]
  exact hq _ _

/-- An exchange swaps two levels. -/
theorem level (h : Exchanged q q' i j) : q'.level = q.level ∘ Equiv.swap i j := by
  funext k
  rw [UpdatablePriorityQueue.level, h.heap]
  rfl

/-- An exchange changes what is known of no key. -/
theorem slot (h : Exchanged q q' i j) : q'.slot = q.slot := by
  funext key
  unfold UpdatablePriorityQueue.slot
  rw [h.ids]
  cases q.idToHeappos[key]? with
  | none => rfl
  | some x =>
      cases x with
      | unseen => rfl
      | remembered => rfl
      | «at» m =>
          change (q'.heap[Equiv.swap i j m]?).elim _ _ = (q.heap[m]?).elim _ _
          rw [h.heap, Equiv.swap_apply_self]

end Exchanged

theorem heap_fill_self (val : PriorityQueueNode V) (h : hole < q.heap.length) :
    (q.fill hole val).heap[hole]? = some val :=
  List.getElem?_set_self h

theorem heap_fill_ne (h : hole ≠ i) : (q.fill hole val).heap[i]? = q.heap[i]? :=
  List.getElem?_set_ne h

/-- A hole moves to the position of the node that fills it. -/
theorem exchanged_fill (hq : (q.fill hole val).Indexed) (hole_lt : hole < q.heap.length)
    (hne : hole ≠ j) (hb : q.heap[j]? = some b) :
    Exchanged (q.fill hole val) ((q.fill hole b).fill j val) hole j := by
  have hval := heap_fill_self val hole_lt
  have hb' : (q.fill hole val).heap[j]? = some b := by rw [heap_fill_ne hne, hb]
  have hkey : val.key ≠ b.key := fun hk => hne (hq.inj hval hb' hk)
  have hlt : j < q.heap.length := (List.getElem?_eq_some_iff.mp hb).choose
  have hvlt : val.key < q.idToHeappos.length := by
    have h := hq.key_lt hval
    rwa [fill, List.length_set] at h
  have hblt : b.key < q.idToHeappos.length := by
    have h := hq.key_lt hb'
    rwa [fill, List.length_set] at h
  constructor
  · intro k
    change ((q.heap.set hole b).set j val)[k]? = (q.heap.set hole val)[Equiv.swap hole j k]?
    rw [Equiv.swap_apply_def]
    by_cases hkj : k = j
    · subst hkj
      rw [List.getElem?_set_self (by rwa [List.length_set]), if_neg (Ne.symm hne), if_pos rfl,
        List.getElem?_set_self hole_lt]
    · rw [List.getElem?_set_ne (Ne.symm hkj), if_neg hkj]
      by_cases hk : k = hole
      · rw [if_pos hk, hk, List.getElem?_set_self hole_lt, List.getElem?_set_ne hne, hb]
      · rw [if_neg hk, List.getElem?_set_ne (Ne.symm hk), List.getElem?_set_ne (Ne.symm hk)]
  · intro k
    change ((q.idToHeappos.set b.key (.at hole)).set val.key (.at j))[k]? =
      ((q.idToHeappos.set val.key (.at hole))[k]?).map _
    by_cases hkv : k = val.key
    · subst hkv
      rw [List.getElem?_set_self (by rwa [List.length_set]), List.getElem?_set_self hvlt]
      change _ = some (Heappos.at (Equiv.swap hole j hole))
      rw [Equiv.swap_apply_left]
    · rw [List.getElem?_set_ne (Ne.symm hkv), List.getElem?_set_ne (Ne.symm hkv)]
      have hids : (q.fill hole val).idToHeappos[k]? = q.idToHeappos[k]? :=
        List.getElem?_set_ne (Ne.symm hkv)
      by_cases hkb : k = b.key
      · subst hkb
        rw [List.getElem?_set_self hblt, ← hids, hq.pos hb']
        change _ = some (Heappos.at (Equiv.swap hole j j))
        rw [Equiv.swap_apply_right]
      · rw [List.getElem?_set_ne (Ne.symm hkb)]
        -- the keys of the two positions are the two above
        cases hx : q.idToHeappos[k]? with
        | none => rfl
        | some x =>
            cases x with
            | unseen => rfl
            | remembered => rfl
            | «at» m =>
                obtain ⟨node, hm, hk⟩ := hq.node (hids.trans hx)
                change _ = some (Heappos.at (Equiv.swap hole j m))
                rw [Equiv.swap_apply_of_ne_of_ne]
                · rintro rfl
                  rw [hval] at hm
                  cases hm
                  exact hkv hk.symm
                · rintro rfl
                  rw [hb'] at hm
                  cases hm
                  exact hkb hk.symm

/-- A node is where it is. -/
theorem fill_self (h : q.Indexed) (hi : q.heap[i]? = some a) : q.fill i a = q := by
  have hset : ∀ {α : Type} {l : List α} {n : Nat} {x : α}, l[n]? = some x → l.set n x = l := by
    intro α l n x hx
    obtain ⟨hlt, rfl⟩ := List.getElem?_eq_some_iff.mp hx
    exact List.set_getElem_self hlt
  rw [fill, hset hi, hset (h.pos hi)]

theorem lt_of_fill (hq : (q.fill hole val).Indexed)
    (hi : (q.fill hole val).heap[i]? = some a) : a.key < q.idToHeappos.length := by
  have h := hq.key_lt hi
  rwa [fill, List.length_set] at h

/-! ### Writes -/

/-- A new priority leaves every position as it is. -/
theorem Indexed.write (h : q.Indexed) (hi : q.heap[i]? = some a) (p : V) :
    (q.write i a p).Indexed := by
  intro k j
  change q.idToHeappos[k]? = _ ↔ ∃ node, (q.heap.set i { a with priority := p })[j]? = _ ∧ _
  obtain ⟨hlt, -⟩ := List.getElem?_eq_some_iff.mp hi
  by_cases hj : j = i
  · subst hj
    rw [List.getElem?_set_self hlt, h k j, hi]
    constructor
    · rintro ⟨node, hnode, rfl⟩
      cases hnode
      exact ⟨_, rfl, rfl⟩
    · rintro ⟨node, hnode, rfl⟩
      cases hnode
      exact ⟨_, rfl, rfl⟩
  · rw [List.getElem?_set_ne (Ne.symm hj)]
    exact h k j

/-- A new priority changes one level. -/
theorem level_write (hi : q.heap[i]? = some a) (p : V) :
    (q.write i a p).level = Function.update q.level i p := by
  obtain ⟨hlt, -⟩ := List.getElem?_eq_some_iff.mp hi
  funext k
  unfold level UpdatablePriorityQueue.write
  by_cases hk : k = i
  · subst hk
    rw [Function.update_self, List.getElem?_set_self hlt]
    rfl
  · rw [Function.update_of_ne hk, List.getElem?_set_ne (Ne.symm hk)]

/-- A new priority is known of its key, and of no other. -/
theorem slot_write (h : q.Indexed) (hi : q.heap[i]? = some a) (p : V) :
    (q.write i a p).slot = Function.update q.slot a.key (.present p) := by
  have hlt := (List.getElem?_eq_some_iff.mp hi).choose
  funext k
  by_cases hk : k = a.key
  · subst hk
    rw [Function.update_self]
    exact (h.write hi p).slot_pos (a := { a with priority := p }) (List.getElem?_set_self hlt)
  · rw [Function.update_of_ne hk]
    refine slot_congr rfl fun j hj => List.getElem?_set_ne ?_
    rintro rfl
    obtain ⟨node, hnode, hkey⟩ := h.node hj
    rw [hi] at hnode
    cases hnode
    exact hk hkey.symm

end

/-! ### Sifting -/

section

variable [LinearOrder V] {q q' : UpdatablePriorityQueue V} {i key hole fuel : Nat}
  {val a b : PriorityQueueNode V}

/-- The index matches the heap, and the heap is ordered. -/
structure Valid (q : UpdatablePriorityQueue V) : Prop where
  indexed : q.Indexed
  ordered : Heap.Ordered q.level

/-- What a sift may change: the places of the nodes. -/
structure Sifted (q q' : UpdatablePriorityQueue V) : Prop where
  valid : q'.Valid
  slot : q'.slot = q.slot
  heap : q'.heap.length = q.heap.length

/-- By induction on the fuel: each round moves the hole to its parent. -/
theorem siftUpLoop_sifted (hfuel : hole < fuel) (hole_lt : hole < q.heap.length)
    (hq : (q.fill hole val).Indexed) (ho : Heap.UpTo (q.fill hole val).level hole) :
    ∃ q', q.siftUpLoop val fuel hole = some q' ∧ Sifted (q.fill hole val) q' := by
  induction fuel generalizing q hole with
  | zero => exact absurd hfuel (Nat.not_lt_zero _)
  | succ fuel ih =>
      have hval := heap_fill_self val hole_lt
      have hplace := place_eq hole_lt (lt_of_fill hq hval)
      -- the hole is filled when nothing is above it
      have stop (hle : 0 < hole →
          (q.fill hole val).level hole ≤ (q.fill hole val).level (Heap.parent hole)) :
          ∃ q', q.place hole val = some q' ∧ Sifted (q.fill hole val) q' :=
        ⟨_, hplace, ⟨hq, ho.ordered hle⟩, rfl, rfl⟩
      rw [siftUpLoop]
      rcases Nat.eq_zero_or_pos hole with rfl | hpos
      · rw [if_pos rfl]
        exact stop fun h => absurd h (Nat.lt_irrefl 0)
      · have hlt := Heap.parent_lt hpos
        have hne := Nat.ne_of_gt hlt
        obtain ⟨parent, hparent⟩ := exists_getElem? (hlt.trans hole_lt)
        have hparent' : (q.fill hole val).heap[Heap.parent hole]? = some parent := by
          rw [heap_fill_ne hne, hparent]
        rw [if_neg (Nat.ne_of_gt hpos), hparent, Option.bind_some]
        split
        · next hlt' =>
            have hex := exchanged_fill hq hole_lt hne hparent
            have hlevel := ho.swap hpos (by
              rw [level_of_getElem? hval, level_of_getElem? hparent']
              exact WithBot.coe_lt_coe.mpr hlt')
            rw [← hex.level] at hlevel
            have hlen : (q.fill hole parent).heap.length = q.heap.length := List.length_set ..
            obtain ⟨q', hq', hs⟩ := ih (by omega) (hlen ▸ hlt.trans hole_lt) (hex.indexed hq) hlevel
            rw [place_eq hole_lt (lt_of_fill hq hparent'), Option.bind_some]
            refine ⟨q', hq', hs.valid, hs.slot.trans hex.slot, hs.heap.trans ?_⟩
            simp only [fill, List.length_set]
        · next hge =>
            refine stop fun _ => ?_
            rw [level_of_getElem? hval, level_of_getElem? hparent']
            exact WithBot.coe_le_coe.mpr (not_lt.mp hge)

/-- **`sift_up`** restores the order. -/
theorem siftUp_sifted (hi : i < q.heap.length) (hq : q.Indexed) (ho : Heap.UpTo q.level i) :
    ∃ q', q.siftUp i = some q' ∧ Sifted q q' := by
  have stop (hle : 0 < i → q.level i ≤ q.level (Heap.parent i)) :
      ∃ q', some q = some q' ∧ Sifted q q' := ⟨q, rfl, ⟨hq, ho.ordered hle⟩, rfl, rfl⟩
  unfold siftUp
  split
  · next h => exact stop fun hpos => by omega
  · next h =>
      have hpos : 0 < i := by omega
      obtain ⟨val, hval⟩ := exists_getElem? hi
      obtain ⟨parent, hparent⟩ := exists_getElem? ((Heap.parent_lt hpos).trans hi)
      rw [hval, hparent, Option.bind_some, Option.bind_some]
      split
      · have hfill := fill_self hq hval
        obtain ⟨q', hq', hs⟩ := siftUpLoop_sifted (Nat.lt_succ_self i) hi (hfill.symm ▸ hq)
          (hfill.symm ▸ ho)
        rw [hfill] at hs
        exact ⟨q', hq', hs⟩
      · next hge =>
          refine stop fun _ => ?_
          rw [level_of_getElem? hval, level_of_getElem? hparent]
          exact WithBot.coe_le_coe.mpr (not_lt.mp hge)

/-- A highest child. -/
theorem higherChild_cases (h : 2 * i + 1 < q.heap.length) :
    q.higherChild (2 * i + 1) < q.heap.length ∧ 0 < q.higherChild (2 * i + 1) ∧
      Heap.parent (q.higherChild (2 * i + 1)) = i ∧
      ∀ k, 0 < k → Heap.parent k = i → q.level k ≤ q.level (q.higherChild (2 * i + 1)) := by
  obtain ⟨a, ha⟩ := exists_getElem? h
  have hparent : Heap.parent (2 * i + 1) = i :=
    (Heap.parent_eq_iff (Nat.succ_pos _)).mpr (.inl rfl)
  have hparent' : Heap.parent (2 * i + 1 + 1) = i :=
    (Heap.parent_eq_iff (Nat.succ_pos _)).mpr (.inr rfl)
  have children {k : Nat} (hk : 0 < k) (hp : Heap.parent k = i) :
      k = 2 * i + 1 ∨ k = 2 * i + 1 + 1 := (Heap.parent_eq_iff hk).mp hp
  unfold higherChild
  cases hb : q.heap[2 * i + 1 + 1]? with
  | none =>
      rw [ha]
      refine ⟨h, Nat.succ_pos _, hparent, fun k hk hp => ?_⟩
      rcases children hk hp with rfl | rfl
      · exact le_refl _
      · rw [level, hb]
        exact bot_le
  | some b =>
      have hlt : 2 * i + 1 + 1 < q.heap.length := (List.getElem?_eq_some_iff.mp hb).choose
      rw [ha]
      dsimp only
      split
      · next hab =>
          refine ⟨hlt, Nat.succ_pos _, hparent', fun k hk hp => ?_⟩
          rcases children hk hp with rfl | rfl
          · rw [level_of_getElem? ha, level_of_getElem? hb]
            exact WithBot.coe_le_coe.mpr hab.le
          · exact le_refl _
      · next hab =>
          refine ⟨h, Nat.succ_pos _, hparent, fun k hk hp => ?_⟩
          rcases children hk hp with rfl | rfl
          · exact le_refl _
          · rw [level_of_getElem? ha, level_of_getElem? hb]
            exact WithBot.coe_le_coe.mpr (not_lt.mp hab)

/-- A position without a child is not lower than its children. -/
theorem level_le_of_leaf (h : q.heap.length ≤ 2 * i + 1) :
    ∀ k, 0 < k → Heap.parent k = i → q.level k ≤ q.level i := by
  intro k hk hp
  rw [level_eq_bot]
  · exact bot_le
  · rcases (Heap.parent_eq_iff hk).mp hp with rfl | rfl
    · exact h
    · exact h.trans (Nat.le_succ _)

/-- The children of a hole are seen around it. -/
theorem higherChild_fill :
    (q.fill hole val).higherChild (2 * hole + 1) = q.higherChild (2 * hole + 1) := by
  unfold higherChild
  rw [heap_fill_ne (by omega), heap_fill_ne (by omega)]

/-- By induction on the fuel: each round moves the hole to its higher child. -/
theorem siftDownLoop_sifted (hfuel : q.heap.length < fuel + hole) (hole_lt : hole < q.heap.length)
    (hq : (q.fill hole val).Indexed) (ho : Heap.DownFrom (q.fill hole val).level hole) :
    ∃ q', q.siftDownLoop val fuel hole = some q' ∧ Sifted (q.fill hole val) q' := by
  induction fuel generalizing q hole with
  | zero => omega
  | succ fuel ih =>
      have hval := heap_fill_self val hole_lt
      have hplace := place_eq hole_lt (lt_of_fill hq hval)
      have hlen : (q.fill hole val).heap.length = q.heap.length := List.length_set ..
      have stop (hle : ∀ k, 0 < k → Heap.parent k = hole →
            (q.fill hole val).level k ≤ (q.fill hole val).level hole) :
          ∃ q', q.place hole val = some q' ∧ Sifted (q.fill hole val) q' :=
        ⟨_, hplace, ⟨hq, ho.ordered hle⟩, rfl, rfl⟩
      rw [siftDownLoop]
      split
      · next hleaf => exact stop (level_le_of_leaf (hlen ▸ hleaf))
      · next hleaf =>
          obtain ⟨hlt, hpos, hparent, hmax⟩ :=
            higherChild_cases (q := q.fill hole val) (i := hole) (hlen ▸ Nat.not_le.mp hleaf)
          rw [higherChild_fill] at hlt hpos hparent hmax
          generalize q.higherChild (2 * hole + 1) = c at hlt hpos hparent hmax
          rw [hlen] at hlt
          have hbelow : hole < c := hparent ▸ Heap.parent_lt hpos
          have hne := Nat.ne_of_lt hbelow
          obtain ⟨child, hchild⟩ := exists_getElem? hlt
          have hchild' : (q.fill hole val).heap[c]? = some child := by
            rw [heap_fill_ne hne, hchild]
          rw [hchild, Option.bind_some]
          split
          · next hlt' =>
              have hex := exchanged_fill hq hole_lt hne hchild
              have hlevel := ho.swap hpos hparent (by
                rw [level_of_getElem? hval, level_of_getElem? hchild']
                exact WithBot.coe_lt_coe.mpr hlt') hmax
              rw [← hex.level] at hlevel
              have hlen' : (q.fill hole child).heap.length = q.heap.length := List.length_set ..
              obtain ⟨q', hq', hs⟩ := ih (by omega) (hlen' ▸ hlt) (hex.indexed hq) hlevel
              rw [place_eq hole_lt (lt_of_fill hq hchild'), Option.bind_some]
              refine ⟨q', hq', hs.valid, hs.slot.trans hex.slot, hs.heap.trans ?_⟩
              simp only [fill, List.length_set]
          · next hge =>
              refine stop fun k hk hp => (hmax k hk hp).trans ?_
              rw [level_of_getElem? hval, level_of_getElem? hchild']
              exact WithBot.coe_le_coe.mpr (not_lt.mp hge)

/-- **`sift_down`** restores the order. -/
theorem siftDown_sifted (hq : q.Indexed) (ho : Heap.DownFrom q.level i) :
    ∃ q', q.siftDown i = some q' ∧ Sifted q q' := by
  have stop (hle : ∀ k, 0 < k → Heap.parent k = i → q.level k ≤ q.level i) :
      ∃ q', some q = some q' ∧ Sifted q q' := ⟨q, rfl, ⟨hq, ho.ordered hle⟩, rfl, rfl⟩
  unfold siftDown
  split
  · next h => exact stop (level_le_of_leaf (by omega))
  · next h =>
      have hi : i < q.heap.length := by omega
      obtain ⟨hlt, hpos, hparent, hmax⟩ := higherChild_cases (q := q) (i := i) (by omega)
      generalize q.higherChild (2 * i + 1) = c at hlt hpos hparent hmax
      obtain ⟨val, hval⟩ := exists_getElem? hi
      obtain ⟨child, hchild⟩ := exists_getElem? hlt
      rw [hval, hchild, Option.bind_some, Option.bind_some]
      split
      · have hfill := fill_self hq hval
        have hfuel : q.heap.length < q.heap.length + 1 + i := by omega
        obtain ⟨q', hq', hs⟩ := siftDownLoop_sifted hfuel hi (hfill.symm ▸ hq) (hfill.symm ▸ ho)
        rw [hfill] at hs
        exact ⟨q', hq', hs⟩
      · next hge =>
          refine stop fun k hk hp => (hmax k hk hp).trans ?_
          rw [level_of_getElem? hval, level_of_getElem? hchild]
          exact WithBot.coe_le_coe.mpr (not_lt.mp hge)

/-! ### What the operations do -/

theorem valid_empty : Valid ({} : UpdatablePriorityQueue V) where
  indexed k i := ⟨by rintro ⟨⟩, by rintro ⟨_, ⟨⟩, -⟩⟩
  ordered i _ := by
    rw [level_eq_bot (Nat.zero_le i)]
    exact bot_le

/-- An operation leaves a valid queue, in which `key` has what is given, and the others what they
had. -/
structure Sets (q q' : UpdatablePriorityQueue V) (key : Nat) (x : Slot V) : Prop where
  valid : q'.Valid
  slot : q'.slot = Function.update q.slot key x

/-- A higher priority, or the same. -/
theorem siftUp_write (h : q.Valid) (hi : q.heap[i]? = some a) {p : V} (hp : a.priority ≤ p) :
    ∃ q', (q.write i a p).siftUp i = some q' ∧ Sets q q' a.key (.present p) := by
  have hlt := (List.getElem?_eq_some_iff.mp hi).choose
  have hle : q.level i ≤ (p : WithBot V) := by
    rw [level_of_getElem? hi]
    exact WithBot.coe_le_coe.mpr hp
  obtain ⟨q', hq', hs⟩ := siftUp_sifted (q := q.write i a p) (i := i)
    (by rwa [UpdatablePriorityQueue.write, List.length_set]) (h.indexed.write hi p)
    (level_write hi p ▸ h.ordered.raise hle)
  exact ⟨q', hq', hs.valid, hs.slot.trans (slot_write h.indexed hi p)⟩

/-- A lower priority, or the same. -/
theorem siftDown_write (h : q.Valid) (hi : q.heap[i]? = some a) {p : V} (hp : p ≤ a.priority) :
    ∃ q', (q.write i a p).siftDown i = some q' ∧ Sets q q' a.key (.present p) := by
  have hle : (p : WithBot V) ≤ q.level i := by
    rw [level_of_getElem? hi]
    exact WithBot.coe_le_coe.mpr hp
  obtain ⟨q', hq', hs⟩ := siftDown_sifted (h.indexed.write hi p)
    (level_write hi p ▸ h.ordered.lower hle)
  exact ⟨q', hq', hs.valid, hs.slot.trans (slot_write h.indexed hi p)⟩

omit [LinearOrder V] in
/-- The index gets unseen keys at its end. -/
theorem getElem?_extendIds (q : UpdatablePriorityQueue V) (key k : Nat) :
    (q.extendIds key).idToHeappos[k]? = q.idToHeappos[k]? ∨
      q.idToHeappos[k]? = none ∧ (q.extendIds key).idToHeappos[k]? = some .unseen := by
  unfold extendIds
  dsimp only
  rcases Nat.lt_or_ge k q.idToHeappos.length with hlt | hge
  · exact .inl (List.getElem?_append_left hlt)
  · rw [List.getElem?_append_right hge, List.getElem?_eq_none hge, List.getElem?_replicate]
    split
    · exact .inr ⟨rfl, rfl⟩
    · exact .inl rfl

omit [LinearOrder V] in
/-- An unseen key is as good as none. -/
theorem slot_extendIds (q : UpdatablePriorityQueue V) (key : Nat) :
    (q.extendIds key).slot = q.slot := by
  funext k
  unfold slot
  rcases getElem?_extendIds q key k with h | ⟨h, h'⟩
  · rw [h]
    rfl
  · rw [h, h']

theorem Valid.extendIds (h : q.Valid) (key : Nat) : (q.extendIds key).Valid := by
  refine ⟨fun k i => ?_, h.ordered⟩
  rw [show (q.extendIds key).heap = q.heap from rfl, ← h.indexed k i]
  rcases getElem?_extendIds q key k with h | ⟨h, h'⟩
  · rw [h]
  · rw [h, h']
    exact ⟨by rintro ⟨⟩, by rintro ⟨⟩⟩

omit [LinearOrder V] in
theorem lt_extendIds (q : UpdatablePriorityQueue V) (key : Nat) :
    key < (q.extendIds key).idToHeappos.length := by
  simp only [UpdatablePriorityQueue.extendIds, List.length_append, List.length_replicate]
  omega

omit [LinearOrder V] in
theorem getElem?_append_singleton (l : List (PriorityQueueNode V)) (a : PriorityQueueNode V)
    (i : Nat) : (l ++ [a])[i]? = if i = l.length then some a else l[i]? := by
  split
  · next hi => rw [hi, List.getElem?_concat_length]
  · next hi =>
      rcases Nat.lt_or_ge i l.length with hlt | hge
      · rw [List.getElem?_append_left hlt]
      · rw [List.getElem?_eq_none hge, List.getElem?_eq_none]
        rw [List.length_append, List.length_singleton]
        omega

/-- A node is appended, of a key that has none. -/
theorem emplaceBack_sets (h : q.Valid) (hlt : key < q.idToHeappos.length)
    (hno : ∀ i, q.idToHeappos[key]? ≠ some (.at i)) (p : V) :
    ∃ q₁ q', q.setHeappos key (.at q.heap.length) = some q₁ ∧
      (q₁.emplaceBack ⟨p, key⟩).siftUp q₁.heap.length = some q' ∧
      Sets q q' key (.present p) := by
  have hnode : ∀ (i : Nat) node, q.heap[i]? = some node → node.key ≠ key := by
    rintro i node hi rfl
    exact hno i (h.indexed.pos hi)
  have hget : ∀ i : Nat, (q.heap ++ [⟨p, key⟩])[i]? =
      if i = q.heap.length then some ⟨p, key⟩ else q.heap[i]? :=
    getElem?_append_singleton q.heap _
  have hids : ∀ k : Nat, (q.idToHeappos.set key (.at q.heap.length))[k]? =
      if k = key then some (.at q.heap.length) else q.idToHeappos[k]? := by
    intro k
    split
    · next hk => rw [hk, List.getElem?_set_self hlt]
    · next hk => rw [List.getElem?_set_ne (Ne.symm hk)]
  let q₁ : UpdatablePriorityQueue V :=
    { q with idToHeappos := q.idToHeappos.set key (.at q.heap.length) }
  have hindexed : (q₁.emplaceBack ⟨p, key⟩).Indexed := by
    intro k i
    change (q.idToHeappos.set key (.at q.heap.length))[k]? = _ ↔
      ∃ node, (q.heap ++ [⟨p, key⟩])[i]? = some node ∧ _
    rw [hids, hget]
    by_cases hk : k = key
    · rw [if_pos hk]
      subst hk
      constructor
      · rintro ⟨⟩
        rw [if_pos rfl]
        exact ⟨_, rfl, rfl⟩
      · rintro ⟨node, hn, hkey⟩
        split at hn
        · next hi => rw [hi]
        · exact absurd hkey (hnode i node hn)
    · rw [if_neg hk, h.indexed k i]
      split
      · next hi =>
          rw [hi, List.getElem?_eq_none (Nat.le_refl _)]
          constructor
          · rintro ⟨_, ⟨⟩, -⟩
          · rintro ⟨_, ⟨⟩, hkey⟩
            exact absurd hkey.symm hk
      · exact Iff.rfl
  have hlevel : (q₁.emplaceBack ⟨p, key⟩).level = Function.update q.level q.heap.length p := by
    funext i
    change ((q.heap ++ [⟨p, key⟩])[i]?).elim _ _ = _
    rw [hget]
    by_cases hi : i = q.heap.length
    · rw [if_pos hi, hi, Function.update_self]
      rfl
    · rw [if_neg hi, Function.update_of_ne hi]
      rfl
  have hslot : (q₁.emplaceBack ⟨p, key⟩).slot = Function.update q.slot key (.present p) := by
    funext k
    by_cases hk : k = key
    · rw [hk, Function.update_self]
      exact hindexed.slot_pos (a := ⟨p, key⟩) ((hget _).trans (if_pos rfl))
    · rw [Function.update_of_ne hk]
      refine slot_congr ((hids k).trans (if_neg hk)) fun i hi => ?_
      obtain ⟨node, hnode, -⟩ := h.indexed.node hi
      exact (hget i).trans (if_neg (Nat.ne_of_lt (List.getElem?_eq_some_iff.mp hnode).choose))
  obtain ⟨q', hq', hs⟩ := siftUp_sifted (q := q₁.emplaceBack ⟨p, key⟩) (i := q.heap.length)
    (by
      change q.heap.length < (q.heap ++ _).length
      rw [List.length_append, List.length_singleton]
      exact Nat.lt_succ_self _)
    hindexed (hlevel ▸ h.ordered.raise (by rw [level_eq_bot (Nat.le_refl _)]; exact bot_le))
  refine ⟨q₁, q', ?_, hq', hs.valid, hs.slot.trans hslot⟩
  unfold setHeappos
  rw [if_pos hlt]

/-! ### The top -/

/-- What is known of a key that is popped. -/
def Slot.left (rememberKey : Bool) : Slot V := if rememberKey then .remembered else .unseen

omit [LinearOrder V] in
theorem present_or (x : Slot V) : (∃ p, x = .present p) ∨ ∀ p, x ≠ .present p := by
  cases x with
  | present p => exact .inl ⟨p, rfl⟩
  | unseen => exact .inr (by rintro p ⟨⟩)
  | remembered => exact .inr (by rintro p ⟨⟩)

/-- The top is a largest priority. -/
theorem Valid.top (h : q.Valid) (ht : q.top = some a) :
    q.slot a.key = .present a.priority ∧ ∀ k p, q.slot k = .present p → p ≤ a.priority := by
  refine ⟨h.indexed.slot_pos ht, fun k p hk => ?_⟩
  obtain ⟨i, node, -, hn, -, rfl⟩ := h.indexed.exists_node hk
  have hle := h.ordered.le_root i
  rw [level_of_getElem? hn, level_of_getElem? (show q.heap[0]? = some a from ht)] at hle
  exact WithBot.coe_le_coe.mp hle

/-- An empty heap has no key present. -/
theorem Valid.top_eq_none (h : q.Valid) (ht : q.top = none) (k : Nat) (p : V) :
    q.slot k ≠ .present p := by
  intro hk
  obtain ⟨i, node, -, hn, -⟩ := h.indexed.exists_node hk
  have hnil : q.heap.length ≤ 0 := List.getElem?_eq_none_iff.mp ht
  have hlt := (List.getElem?_eq_some_iff.mp hn).choose
  omega

omit [LinearOrder V] in
/-- The last node is removed, and its key forgotten. -/
theorem removeLast {l : List (PriorityQueueNode V)} {x : Heappos} (h : q.Indexed)
    (hheap : q.heap = l ++ [a]) (hx : ∀ i, x ≠ .at i) :
    Indexed { q with idToHeappos := q.idToHeappos.set a.key x, heap := l } ∧
      level { q with idToHeappos := q.idToHeappos.set a.key x, heap := l } =
        Function.update q.level l.length ⊥ ∧
      ∀ k, k ≠ a.key →
        slot { q with idToHeappos := q.idToHeappos.set a.key x, heap := l } k = q.slot k := by
  have hget : ∀ i : Nat, q.heap[i]? = if i = l.length then some a else l[i]? := by
    intro i
    rw [hheap]
    exact getElem?_append_singleton l a i
  have ha : q.heap[l.length]? = some a := (hget _).trans (if_pos rfl)
  have hids : ∀ k : Nat, (q.idToHeappos.set a.key x)[k]? =
      if k = a.key then some x else q.idToHeappos[k]? := by
    intro k
    split
    · next hk => rw [hk, List.getElem?_set_self (h.key_lt ha)]
    · next hk => rw [List.getElem?_set_ne (Ne.symm hk)]
  refine ⟨fun k i => ?_, ?_, fun k hk => ?_⟩
  · change (q.idToHeappos.set a.key x)[k]? = _ ↔ ∃ node, l[i]? = some node ∧ _
    have hi := h k i
    rw [hget] at hi
    rw [hids]
    split
    · next hk =>
        constructor
        · intro hx'
          exact absurd (Option.some.inj hx') (hx i)
        · rintro ⟨node, hn, hkey⟩
          have hlt := (List.getElem?_eq_some_iff.mp hn).choose
          have hni : q.heap[i]? = some node := by rw [hget, if_neg (Nat.ne_of_lt hlt), hn]
          exact absurd (h.inj hni ha (hkey.trans hk)) (Nat.ne_of_lt hlt)
    · next hk =>
        rw [hi]
        split
        · next hil =>
            rw [hil, List.getElem?_eq_none (Nat.le_refl _)]
            constructor
            · rintro ⟨_, ⟨⟩, hkey⟩
              exact absurd hkey.symm hk
            · rintro ⟨_, ⟨⟩, -⟩
        · exact Iff.rfl
  · funext i
    by_cases hi : i = l.length
    · rw [hi, Function.update_self]
      exact level_eq_bot (Nat.le_refl _)
    · rw [Function.update_of_ne hi]
      unfold level
      rw [hget, if_neg hi]
  · refine slot_congr ((hids k).trans (if_neg hk)) fun i hi => ?_
    rw [hget, if_neg]
    rintro rfl
    obtain ⟨node, hn, hkey⟩ := h.node hi
    rw [ha] at hn
    cases hn
    exact hk hkey.symm

theorem forget_ne (rememberKey : Bool) (i : Nat) : forget rememberKey ≠ .at i := by
  cases rememberKey with
  | true => rintro ⟨⟩
  | false => rintro ⟨⟩

omit [LinearOrder V] in
/-- Whether a popped key is remembered is the caller's choice. -/
theorem slot_forget {rememberKey : Bool}
    (h : q.idToHeappos[key]? = some (forget rememberKey)) : q.slot key = .left rememberKey := by
  unfold slot
  rw [h]
  cases rememberKey with
  | true => rfl
  | false => rfl

/-- The root and the last node are exchanged, and the last is removed. -/
theorem siftDown_removed {l : List (PriorityQueueNode V)} (h : q.Valid)
    (hex : Exchanged q q' 0 l.length) (hheap : q'.heap = l ++ [a]) (rememberKey : Bool) :
    ∃ q'', siftDown { idToHeappos := q'.idToHeappos.set a.key (forget rememberKey), heap := l } 0 =
        some q'' ∧ Sets q q'' a.key (.left rememberKey) := by
  have hindexed := hex.indexed h.indexed
  obtain ⟨hi, hlevel, hslot⟩ := removeLast hindexed hheap (forget_ne rememberKey)
  have hbot : ∀ j, l.length < j → q.level j = ⊥ := by
    intro j hj
    have hk := hex.heap j
    rw [Equiv.swap_apply_of_ne_of_ne (by omega) (Nat.ne_of_gt hj), hheap,
      List.getElem?_eq_none (by rw [List.length_append, List.length_singleton]; omega)] at hk
    rw [level, ← hk]
    rfl
  have hdown := h.ordered.pop hbot
  rw [← hex.level, ← hlevel] at hdown
  obtain ⟨q'', hq'', hs⟩ := siftDown_sifted hi hdown
  refine ⟨q'', hq'', hs.valid, hs.slot.trans (funext fun k => ?_)⟩
  by_cases hk : k = a.key
  · rw [hk, Function.update_self]
    have hlast : q'.heap[l.length]? = some a := by rw [hheap, List.getElem?_concat_length]
    exact slot_forget (List.getElem?_set_self (hindexed.key_lt hlast))
  · rw [Function.update_of_ne hk, hslot k hk, hex.slot]

/-- The last node takes the place of the first. -/
theorem pop_sets (h : q.Valid) (ht : q.top = some a) (rememberKey : Bool) :
    ∃ q', q.pop rememberKey = some q' ∧ Sets q q' a.key (.left rememberKey) := by
  have ha : q.heap[0]? = some a := ht
  have hkey := h.indexed.key_lt ha
  cases hheap : q.heap with
  | nil => rw [hheap] at ha; cases ha
  | cons front rest =>
      obtain rfl : front = a := by rw [hheap] at ha; exact Option.some.inj ha
      have hset : q.setHeappos front.key (forget rememberKey) =
          some { q with idToHeappos := q.idToHeappos.set front.key (forget rememberKey) } :=
        if_pos hkey
      unfold pop
      rw [hheap]
      dsimp only
      rw [hset, Option.bind_some]
      cases hlast : rest.getLast? with
      | none =>
          obtain rfl := List.getLast?_eq_none_iff.mp hlast
          have hex : Exchanged q q 0 0 := by
            refine ⟨fun k => ?_, fun k => ?_⟩
            · rw [Equiv.swap_self]
              rfl
            · rw [Equiv.swap_self]
              cases q.idToHeappos[k]? with
              | none => rfl
              | some x => cases x <;> rfl
          exact siftDown_removed (l := []) h hex hheap rememberKey
      | some last =>
          obtain ⟨l, rfl⟩ := List.getLast?_eq_some_iff.mp hlast
          have hlast : q.heap[l.length + 1]? = some last := by
            rw [hheap, List.getElem?_cons_succ, List.getElem?_concat_length]
          have hfront := fill_self h.indexed ha
          have hpos : 0 < q.heap.length := by rw [hheap]; exact Nat.zero_lt_succ _
          have hex := exchanged_fill (j := l.length + 1) (hfront.symm ▸ h.indexed) hpos
            (by omega) hlast
          rw [hfront] at hex
          have hlt := h.indexed.key_lt hlast
          have hne : last.key ≠ front.key := fun hk => by
            have := h.indexed.inj hlast ha hk
            omega
          have hplace : place
              { q with idToHeappos := q.idToHeappos.set front.key (forget rememberKey) } 0 last =
                some _ := place_eq hpos (by rwa [List.length_set])
          dsimp only
          rw [hplace, Option.bind_some]
          have hheap' : ((q.fill 0 last).fill (l.length + 1) front).heap =
              last :: l ++ [front] := by
            change (q.heap.set 0 last).set (l.length + 1) front = _
            rw [hheap, List.set_cons_zero, List.set_cons_succ, List.set_append_right _ _ (by omega)]
            simp
          obtain ⟨q'', hq'', hs⟩ := siftDown_removed (l := last :: l) h hex hheap' rememberKey
          refine ⟨q'', Eq.trans ?_ hq'', hs⟩
          have hids : ((q.fill 0 last).fill (l.length + 1) front).idToHeappos.set front.key
              (forget rememberKey) = (q.idToHeappos.set front.key (forget rememberKey)).set last.key
                (.at 0) := by
            change ((q.idToHeappos.set last.key (.at 0)).set front.key _).set front.key _ = _
            rw [List.set_set, List.set_comm _ _ hne]
          rw [hids]
          change siftDown ⟨_, (q.heap.set 0 last).dropLast⟩ 0 = _
          have hdrop : (last :: (l ++ [last])).dropLast = last :: l := by
            rw [← List.cons_append, List.dropLast_concat]
          rw [hheap, List.set_cons_zero, hdrop]
          rfl

end

/-! ### The operations on slots -/

section

variable [LinearOrder V] {q q' : UpdatablePriorityQueue V} {key : Nat} {p p' : V}

omit [LinearOrder V] in
theorem heappos?_of_present (h : q.Indexed) (hk : q.slot key = .present p) :
    ∃ i node, q.heappos? key = some i ∧ q.heap[i]? = some node ∧ node.key = key ∧
      node.priority = p := by
  obtain ⟨i, node, hi, hn, hkey, hp⟩ := h.exists_node hk
  exact ⟨i, node, heappos?_eq_some.mpr hi, hn, hkey, hp⟩

omit [LinearOrder V] in
/-- A key that is not present is not found. -/
theorem heappos?_eq_none (h : q.Indexed) (hk : ∀ p, q.slot key ≠ .present p) :
    q.heappos? key = none := by
  cases hi : q.heappos? key with
  | none => rfl
  | some i =>
      obtain ⟨node, hn, rfl⟩ := h.node (heappos?_eq_some.mp hi)
      exact absurd (h.slot_pos hn) (hk _)

omit [LinearOrder V] in
theorem getPriority_of_present (h : q.Indexed) (hk : q.slot key = .present p) :
    q.getPriority key = some p := by
  obtain ⟨i, node, hi, hn, -, rfl⟩ := heappos?_of_present h hk
  rw [getPriority, hi, Option.bind_some, hn]
  rfl

omit [LinearOrder V] in
theorem getPriority_eq_none (h : q.Indexed) (hk : ∀ p, q.slot key ≠ .present p) :
    q.getPriority key = none := by
  rw [getPriority, heappos?_eq_none h hk]
  rfl

/-- A key that is present is not added. -/
theorem push_of_present (h : q.Valid) (hk : q.slot key = .present p) (p' : V) (b : Bool) :
    q.push key p' b = some (q.extendIds key, false) := by
  rw [← slot_extendIds q key] at hk
  obtain ⟨i, -, hi, -⟩ := (h.extendIds key).indexed.exists_node hk
  unfold push
  dsimp only
  rw [hi]

/-- A key that is not is added, but for one that is remembered. -/
theorem push_of_absent (h : q.Valid) (hk : ∀ p, q.slot key ≠ .present p) (p : V) (b : Bool) :
    (q.slot key = .remembered ∧ b = true ∧ q.push key p b = some (q.extendIds key, false)) ∨
      (q.slot key = .remembered → b = false) ∧
        ∃ q', q.push key p b = some (q', true) ∧ Sets q q' key (.present p) := by
  have h' := h.extendIds key
  have hlt := lt_extendIds q key
  rw [← slot_extendIds q key] at hk ⊢
  have hno : ∀ i, (q.extendIds key).idToHeappos[key]? ≠ some (.at i) := by
    intro i hi
    obtain ⟨node, hn, rfl⟩ := h'.indexed.node hi
    exact hk _ (h'.indexed.slot_pos hn)
  obtain ⟨q₁, q', hset, hsift, hs⟩ := emplaceBack_sets h' hlt hno p
  have hs' : Sets q q' key (.present p) := ⟨hs.valid, by rw [hs.slot, slot_extendIds]⟩
  unfold push
  dsimp only
  cases hx : (q.extendIds key).idToHeappos[key]? with
  | none =>
      have hge := List.getElem?_eq_none_iff.mp hx
      omega
  | some x =>
      cases x with
      | «at» i => exact absurd hx (hno i)
      | unseen =>
          refine .inr ⟨fun hr => ?_, q', ?_, hs'⟩
          · unfold slot at hr
            rw [hx] at hr
            cases hr
          · dsimp only
            rw [if_neg (by rintro ⟨-, ⟨⟩⟩), hset, Option.bind_some, hsift]
            rfl
      | remembered =>
          have hr : (q.extendIds key).slot key = .remembered := by
            unfold slot
            rw [hx]
          dsimp only
          cases b with
          | true => exact .inl ⟨hr, rfl, rfl⟩
          | false =>
              refine .inr ⟨fun _ => rfl, q', ?_, hs'⟩
              rw [if_neg (by rintro ⟨⟨⟩, -⟩), hset, Option.bind_some, hsift]
              rfl

/-- A present key gets a higher priority, or a lower one. -/
theorem update_of_present (h : q.Valid) (hk : q.slot key = .present p) (p' : V) (b : Bool) :
    ((p < p' ∨ b = false ∧ p' < p) ∧
        ∃ q', q.update key p' b = some (q', true) ∧ Sets q q' key (.present p')) ∨
      ¬ (p < p' ∨ b = false ∧ p' < p) ∧ q.update key p' b = some (q, false) := by
  obtain ⟨i, node, hi, hn, rfl, rfl⟩ := heappos?_of_present h.indexed hk
  unfold update
  rw [hi]
  dsimp only
  rw [hn, Option.bind_some]
  split
  · next hlt =>
      obtain ⟨q', hq', hs⟩ := siftUp_write h hn hlt.le
      exact .inl ⟨.inl hlt, q', by rw [hq']; rfl, hs⟩
  · next hge =>
      split
      · next hlt =>
          obtain ⟨q', hq', hs⟩ := siftDown_write h hn hlt.2.le
          exact .inl ⟨.inr hlt, q', by rw [hq']; rfl, hs⟩
      · next hno => exact .inr ⟨fun ho => ho.elim hge hno, rfl⟩

/-- Only a present key is updated. -/
theorem update_of_absent (h : q.Valid) (hk : ∀ p, q.slot key ≠ .present p) (p : V) (b : Bool) :
    q.update key p b = some (q, false) := by
  unfold update
  rw [heappos?_eq_none h.indexed hk]

/-- The priority is higher after the increment, unless it wraps. -/
theorem increment_sets [Add V] [One V] (h : q.Valid) (hk : q.slot key = .present p)
    (hp : p ≤ p + 1) : ∃ q', q.increment key = some q' ∧ Sets q q' key (.present (p + 1)) := by
  obtain ⟨i, node, hi, hn, rfl, rfl⟩ := heappos?_of_present h.indexed hk
  unfold increment
  rw [hi, Option.bind_some, hn, Option.bind_some]
  exact siftUp_write h hn hp

/-- A present key loses one, when that does not wrap. -/
theorem decrement_sets [Sub V] [One V] (h : q.Valid) (hk : q.slot key = .present p)
    (hp : p - 1 ≤ p) : ∃ q', q.decrement key = some q' ∧ Sets q q' key (.present (p - 1)) := by
  obtain ⟨i, node, hi, hn, rfl, rfl⟩ := heappos?_of_present h.indexed hk
  unfold decrement
  rw [hi, Option.bind_some, hn, Option.bind_some]
  exact siftDown_write h hn hp

end

/-! ### Runs -/

/-- The functions of the queue. -/
inductive Op (V : Type) where
  | push (key : Nat) (priority : V) (onlyIfUnknown : Bool)
  | update (key : Nat) (newPriority : V) (onlyIfHigher : Bool)
  | set (key : Nat) (priority : V) (onlyIfHigher : Bool)
  | increment (key : Nat)
  | decrement (key : Nat)
  | pop (rememberKey : Bool)
  | popValue (rememberKey : Bool)
  | getPriority (key : Nat)
  | top
  deriving DecidableEq, Repr

/-- What they return. -/
inductive Answer (V : Type) where
  | done
  | changed (b : Bool)
  | priority (p : Option V)
  | node (n : Option (PriorityQueueNode V))
  deriving DecidableEq, Repr

section

variable [LinearOrder V] [Add V] [Sub V] [One V]

/-- `none` is an access outside the vectors. -/
def next (q : UpdatablePriorityQueue V) : Op V → Option (UpdatablePriorityQueue V × Answer V)
  | .push key priority b => (q.push key priority b).map fun r => (r.1, .changed r.2)
  | .update key priority b => (q.update key priority b).map fun r => (r.1, .changed r.2)
  | .set key priority b => (q.set key priority b).map fun r => (r.1, .changed r.2)
  | .increment key => (q.increment key).map (·, .done)
  | .decrement key => (q.decrement key).map (·, .done)
  | .pop b => (q.pop b).map (·, .done)
  | .popValue b => (q.popValue b).map fun r => (r.1, .node r.2)
  | .getPriority key => some (q, .priority (q.getPriority key))
  | .top => q.top.map fun node => (q, .node (some node))

/-- A map of slots: what an operation answers, and the slots after it. -/
inductive Answers (m : Nat → Slot V) : Op V → Answer V → (Nat → Slot V) → Prop where
  | pushPresent {k : Nat} {p' : V} (p : V) (b : Bool) (h : m k = .present p') :
      Answers m (.push k p b) (.changed false) m
  | pushRemembered {k : Nat} (p : V) (h : m k = .remembered) :
      Answers m (.push k p true) (.changed false) m
  | push {k : Nat} (p : V) (b : Bool) (h : ∀ p', m k ≠ .present p')
      (hb : m k = .remembered → b = false) :
      Answers m (.push k p b) (.changed true) (Function.update m k (.present p))
  | update {k : Nat} {p p' : V} {b : Bool} (h : m k = .present p')
      (hp : p' < p ∨ b = false ∧ p < p') :
      Answers m (.update k p b) (.changed true) (Function.update m k (.present p))
  | updateSame {k : Nat} {p p' : V} {b : Bool} (h : m k = .present p')
      (hp : ¬ (p' < p ∨ b = false ∧ p < p')) : Answers m (.update k p b) (.changed false) m
  | updateAbsent {k : Nat} (p : V) (b : Bool) (h : ∀ p', m k ≠ .present p') :
      Answers m (.update k p b) (.changed false) m
  | setPresent {k : Nat} {p p' : V} {b : Bool} {a : Answer V} {m' : Nat → Slot V}
      (h : m k = .present p') (hu : Answers m (.update k p b) a m') : Answers m (.set k p b) a m'
  | setAbsent {k : Nat} {p : V} {b : Bool} {a : Answer V} {m' : Nat → Slot V}
      (h : ∀ p', m k ≠ .present p') (hp : Answers m (.push k p b) a m') :
      Answers m (.set k p b) a m'
  | increment {k : Nat} {p : V} (h : m k = .present p) :
      Answers m (.increment k) .done (Function.update m k (.present (p + 1)))
  | decrement {k : Nat} {p : V} (h : m k = .present p) :
      Answers m (.decrement k) .done (Function.update m k (.present (p - 1)))
  | pop {k : Nat} {p : V} (b : Bool) (h : m k = .present p)
      (hp : ∀ k' p', m k' = .present p' → p' ≤ p) :
      Answers m (.pop b) .done (Function.update m k (.left b))
  | popEmpty (b : Bool) (h : ∀ k p, m k ≠ .present p) : Answers m (.pop b) .done m
  | popValue {k : Nat} {p : V} (b : Bool) (h : m k = .present p)
      (hp : ∀ k' p', m k' = .present p' → p' ≤ p) :
      Answers m (.popValue b) (.node (some ⟨p, k⟩)) (Function.update m k (.left b))
  | popValueEmpty (b : Bool) (h : ∀ k p, m k ≠ .present p) :
      Answers m (.popValue b) (.node none) m
  | getPriority {k : Nat} {p : V} (h : m k = .present p) :
      Answers m (.getPriority k) (.priority (some p)) m
  | getPriorityAbsent {k : Nat} (h : ∀ p, m k ≠ .present p) :
      Answers m (.getPriority k) (.priority none) m
  | top {k : Nat} {p : V} (h : m k = .present p) (hp : ∀ k' p', m k' = .present p' → p' ≤ p) :
      Answers m .top (.node (some ⟨p, k⟩)) m

variable {q q' : UpdatablePriorityQueue V} {k : Nat} {p : V} {op : Op V}

/-- An operation is total, answers as the slots say, and leaves a valid queue. -/
def Serves (q : UpdatablePriorityQueue V) (op : Op V) : Prop :=
  ∃ q' a, q.next op = some (q', a) ∧ q'.Valid ∧ Answers q.slot op a q'.slot

theorem push_serves (h : q.Valid) (k : Nat) (p : V) (b : Bool) : q.Serves (.push k p b) := by
  rcases present_or (q.slot k) with ⟨p', hk⟩ | hk
  · refine ⟨q.extendIds k, .changed false, ?_, h.extendIds k, ?_⟩
    · rw [next, push_of_present h hk]
      rfl
    · rw [slot_extendIds]
      exact .pushPresent p b hk
  · rcases push_of_absent h hk p b with ⟨hr, rfl, hq⟩ | ⟨hr, q', hq, hs⟩
    · refine ⟨q.extendIds k, .changed false, by rw [next, hq]; rfl, h.extendIds k, ?_⟩
      rw [slot_extendIds]
      exact .pushRemembered p hr
    · exact ⟨q', .changed true, by rw [next, hq]; rfl, hs.valid, hs.slot ▸ .push p b hk hr⟩

theorem update_serves (h : q.Valid) (k : Nat) (p : V) (b : Bool) : q.Serves (.update k p b) := by
  rcases present_or (q.slot k) with ⟨p', hk⟩ | hk
  · rcases update_of_present h hk p b with ⟨hp, q', hq, hs⟩ | ⟨hp, hq⟩
    · exact ⟨q', .changed true, by rw [next, hq]; rfl, hs.valid, hs.slot ▸ .update hk hp⟩
    · exact ⟨q, .changed false, by rw [next, hq]; rfl, h, .updateSame hk hp⟩
  · exact ⟨q, .changed false, by rw [next, update_of_absent h hk]; rfl, h, .updateAbsent p b hk⟩

theorem set_serves (h : q.Valid) (k : Nat) (p : V) (b : Bool) : q.Serves (.set k p b) := by
  rcases present_or (q.slot k) with ⟨p', hk⟩ | hk
  · obtain ⟨q', a, hq, hv, ha⟩ := update_serves h k p b
    obtain ⟨i, -, hi, -⟩ := heappos?_of_present h.indexed hk
    refine ⟨q', a, ?_, hv, .setPresent hk ha⟩
    rw [next, set, hi]
    exact hq
  · obtain ⟨q', a, hq, hv, ha⟩ := push_serves h k p b
    refine ⟨q', a, ?_, hv, .setAbsent hk ha⟩
    rw [next, set, heappos?_eq_none h.indexed hk]
    exact hq

theorem pop_serves (h : q.Valid) (b : Bool) : q.Serves (.pop b) := by
  cases ht : q.top with
  | none =>
      have hnil : q.heap = [] := by
        cases hq : q.heap with
        | nil => rfl
        | cons a l => rw [top, hq] at ht; cases ht
      refine ⟨q, .done, ?_, h, .popEmpty b (h.top_eq_none ht)⟩
      rw [next, pop, hnil]
      rfl
  | some a =>
      obtain ⟨hk, hp⟩ := h.top ht
      obtain ⟨q', hq, hs⟩ := pop_sets h ht b
      exact ⟨q', .done, by rw [next, hq]; rfl, hs.valid, hs.slot ▸ .pop b hk hp⟩

/-- The top of a queue that is not empty has the highest priority. -/
theorem top_serves (h : q.Valid) (hne : q.empty = false) : q.Serves .top := by
  cases ht : q.top with
  | none =>
      rw [top, List.getElem?_eq_none_iff, Nat.le_zero, List.length_eq_zero_iff] at ht
      rw [empty, ht] at hne
      cases hne
  | some a => exact ⟨q, _, by rw [next, ht]; rfl, h, .top (h.top ht).1 (h.top ht).2⟩

theorem popValue_serves (h : q.Valid) (b : Bool) : q.Serves (.popValue b) := by
  obtain ⟨q', a, hq, hv, ha⟩ := pop_serves h b
  obtain ⟨q₁, hq₁, he⟩ := Option.map_eq_some_iff.mp hq
  cases he
  refine ⟨q', .node q.top, ?_, hv, ?_⟩
  · rw [next, popValue, hq₁]
    rfl
  · cases ht : q.top with
    | none =>
        have hno := h.top_eq_none ht
        generalize q'.slot = m' at ha
        cases ha with
        | pop _ hk _ => exact absurd hk (hno _ _)
        | popEmpty => exact .popValueEmpty b hno
    | some a =>
        obtain ⟨q₂, hq₂, hs⟩ := pop_sets h ht b
        rw [hq₁] at hq₂
        cases hq₂
        exact hs.slot ▸ .popValue b (h.top ht).1 (h.top ht).2

theorem getPriority_serves (h : q.Valid) (k : Nat) : q.Serves (.getPriority k) := by
  refine ⟨q, _, rfl, h, ?_⟩
  rcases present_or (q.slot k) with ⟨p, hk⟩ | hk
  · rw [getPriority_of_present h.indexed hk]
    exact .getPriority hk
  · rw [getPriority_eq_none h.indexed hk]
    exact .getPriorityAbsent hk

/-- Only the priorities of present keys are incremented and decremented, without wrapping, and there
is a top when it is asked for. -/
def Apt (q : UpdatablePriorityQueue V) : Op V → Prop
  | .increment key => (q.getPriority key).any fun p => p ≤ p + 1
  | .decrement key => (q.getPriority key).any fun p => p - 1 ≤ p
  | .top => q.empty = false
  | _ => True

/-- **Every call answers as the abstract queue does.** -/
theorem serves (h : q.Valid) (op : Op V) (ha : q.Apt op) : q.Serves op := by
  have present {k : Nat} {f : V → Bool} (hk : (q.getPriority k).any f) :
      ∃ p, q.slot k = .present p ∧ f p = true := by
    rcases present_or (q.slot k) with ⟨p, hp⟩ | hno
    · rw [getPriority_of_present h.indexed hp] at hk
      exact ⟨p, hp, hk⟩
    · rw [getPriority_eq_none h.indexed hno] at hk
      cases hk
  cases op with
  | push k p b => exact push_serves h k p b
  | update k p b => exact update_serves h k p b
  | set k p b => exact set_serves h k p b
  | increment k =>
      obtain ⟨p, hk, hp⟩ := present ha
      obtain ⟨q', hq, hs⟩ := increment_sets h hk (of_decide_eq_true hp)
      exact ⟨q', .done, by rw [next, hq]; rfl, hs.valid, hs.slot ▸ .increment hk⟩
  | decrement k =>
      obtain ⟨p, hk, hp⟩ := present ha
      obtain ⟨q', hq, hs⟩ := decrement_sets h hk (of_decide_eq_true hp)
      exact ⟨q', .done, by rw [next, hq]; rfl, hs.valid, hs.slot ▸ .decrement hk⟩
  | pop b => exact pop_serves h b
  | popValue b => exact popValue_serves h b
  | getPriority k => exact getPriority_serves h k
  | top => exact top_serves h ha

instance (q : UpdatablePriorityQueue V) : (op : Op V) → Decidable (q.Apt op)
  | .increment key =>
    inferInstanceAs (Decidable (((q.getPriority key).any fun p => p ≤ p + 1) = true))
  | .decrement key =>
    inferInstanceAs (Decidable (((q.getPriority key).any fun p => p - 1 ≤ p) = true))
  | .top => inferInstanceAs (Decidable (q.empty = false))
  | .push .. | .update .. | .set .. | .pop _ | .popValue _ | .getPriority _ => .isTrue trivial

/-- A call that is defined. -/
def Step (q : UpdatablePriorityQueue V) (op : Op V) (q' : UpdatablePriorityQueue V) : Prop :=
  ∃ a, q.next op = some (q', a)

/-- An empty queue. -/
def Init (q : UpdatablePriorityQueue V) : Prop := q = {}

end

section

variable {q q' : UpdatablePriorityQueue Nat} {k p : Nat}

/-- The priority of a slot. -/
def Slot.priority? : Slot V → Option V
  | .present p => some p
  | _ => none

/-- The priority is what is known of the key. -/
theorem getPriority_eq (h : q.Indexed) (k : Nat) : q.getPriority k = (q.slot k).priority? := by
  rcases present_or (q.slot k) with ⟨p, hk⟩ | hk
  · rw [getPriority_of_present h hk, hk]
    rfl
  · rw [getPriority_eq_none h hk]
    generalize q.slot k = x at hk
    cases x with
    | present p => exact absurd rfl (hk p)
    | _ => rfl

theorem Sets.getPriority (hs : Sets q q' k (.present p)) (h : q.Valid) :
    q'.getPriority = Function.update q.getPriority k (some p) := by
  funext j
  rw [getPriority_eq hs.valid.indexed, hs.slot]
  by_cases hj : j = k
  · rw [hj, Function.update_self, Function.update_self]
    rfl
  · rw [Function.update_of_ne hj, Function.update_of_ne hj, getPriority_eq h.indexed]

theorem present_of_getPriority (h : q.Valid) (hk : q.getPriority k = some p) :
    q.slot k = .present p := by
  rw [getPriority_eq h.indexed] at hk
  generalize q.slot k = x at hk
  cases x with
  | present p' => cases hk; rfl
  | _ => cases hk

/-- `set` without a condition gives the key its priority. -/
theorem set_priority (h : q.Valid) (k p : Nat) : ∃ q' b, q.set k p false = some (q', b) ∧
    q'.Valid ∧ q'.getPriority = Function.update q.getPriority k (some p) := by
  unfold set
  rcases present_or (q.slot k) with ⟨p', hk⟩ | hk
  · obtain ⟨i, -, hi, -⟩ := heappos?_of_present h.indexed hk
    rw [hi, if_pos (by rfl)]
    rcases update_of_present h hk p false with ⟨-, q', hq, hs⟩ | ⟨hp, hq⟩
    · exact ⟨q', true, hq, hs.valid, hs.getPriority h⟩
    · refine ⟨q, false, hq, h, ?_⟩
      -- a priority that is neither higher nor lower is the one the key has
      have he : p = p' := by
        rcases lt_trichotomy p p' with hlt | he | hlt
        · exact absurd (.inr ⟨rfl, hlt⟩) hp
        · exact he
        · exact absurd (.inl hlt) hp
      rw [he, ← getPriority_of_present h.indexed hk, Function.update_eq_self]
  · rw [heappos?_eq_none h.indexed hk, if_neg (by rintro ⟨⟩)]
    rcases push_of_absent h hk p false with ⟨-, ⟨⟩, -⟩ | ⟨-, q', hq, hs⟩
    exact ⟨q', true, hq, hs.valid, hs.getPriority h⟩

end

/-- The queue that is left, or the one there was. -/
def kept (q : {q : UpdatablePriorityQueue Nat // q.Valid}) (o : Option (UpdatablePriorityQueue Nat))
    (h : ∀ q' ∈ o, q'.Valid) : {q : UpdatablePriorityQueue Nat // q.Valid} :=
  match o, h with
  | none, _ => q
  | some q', h => ⟨q', h q' rfl⟩

theorem valid_of_set {q : UpdatablePriorityQueue Nat} (h : q.Valid) (k p : Nat) :
    ∀ q' ∈ (q.set k p false).map Prod.fst, q'.Valid := by
  intro q' hq'
  obtain ⟨q₁, b, hq₁, hv, -⟩ := set_priority h k p
  rw [hq₁] at hq'
  cases hq'
  exact hv

theorem valid_of_increment {q : UpdatablePriorityQueue Nat} (h : q.Valid) (k : Nat) :
    ∀ q' ∈ q.increment k, q'.Valid := by
  intro q' hq'
  rcases present_or (q.slot k) with ⟨p, hk⟩ | hk
  · obtain ⟨q₁, hq₁, hs⟩ := increment_sets h hk (Nat.le_succ p)
    rw [hq₁] at hq'
    cases hq'
    exact hs.valid
  · rw [increment, heappos?_eq_none h.indexed hk] at hq'
    cases hq'

theorem valid_of_decrement {q : UpdatablePriorityQueue Nat} (h : q.Valid) (k : Nat) :
    ∀ q' ∈ q.decrement k, q'.Valid := by
  intro q' hq'
  rcases present_or (q.slot k) with ⟨p, hk⟩ | hk
  · obtain ⟨q₁, hq₁, hs⟩ := decrement_sets h hk (Nat.sub_le p 1)
    rw [hq₁] at hq'
    cases hq'
    exact hs.valid
  · rw [decrement, heappos?_eq_none h.indexed hk] at hq'
    cases hq'

/-- `KeyedPriorityQueue`, over the valid queues. -/
def keyedPriorityQueue : KeyedPriorityQueue {q : UpdatablePriorityQueue Nat // q.Valid} where
  empty := ⟨{}, valid_empty⟩
  set q k n := kept q ((q.1.set k n false).map Prod.fst) (valid_of_set q.2 k n)
  increment q k := kept q (q.1.increment k) (valid_of_increment q.2 k)
  decrement q k := kept q (q.1.decrement k) (valid_of_decrement q.2 k)
  top q := (q.1.top).elim 0 (·.key)
  priority q k := q.1.getPriority k

/-- The invariant travels with the value. -/
theorem kept_val {q : {q : UpdatablePriorityQueue Nat // q.Valid}} {q' : UpdatablePriorityQueue Nat}
    {o : Option (UpdatablePriorityQueue Nat)} {h : ∀ q' ∈ o, q'.Valid} (ho : o = some q') :
    (kept q o h).1 = q' := by
  subst ho
  rfl

/-- **What the task queues rely on** holds of the heap. -/
theorem correct_keyedPriorityQueue : keyedPriorityQueue.Correct where
  empty k := rfl
  set q k n := by
    obtain ⟨q', b, hq, -, hp⟩ := set_priority q.2 k n
    change UpdatablePriorityQueue.getPriority (kept _ _ _).1 = _
    rw [kept_val (by rw [hq]; rfl), hp]
    rfl
  increment q k n h := by
    obtain ⟨q', hq, hs⟩ := increment_sets q.2 (present_of_getPriority q.2 h)
      (Nat.le_succ n)
    change UpdatablePriorityQueue.getPriority (kept _ _ _).1 = _
    rw [kept_val hq, hs.getPriority q.2]
    rfl
  decrement q k n h := by
    obtain ⟨q', hq, hs⟩ := decrement_sets q.2 (present_of_getPriority q.2 h)
      (Nat.sub_le (n + 1) 1)
    change UpdatablePriorityQueue.getPriority (kept _ _ _).1 = _
    rw [kept_val hq, hs.getPriority q.2]
    rfl
  top q k n h := by
    have hk := present_of_getPriority q.2 h
    cases ht : q.1.top with
    | none => exact absurd hk (q.2.top_eq_none ht k n)
    | some a =>
        obtain ⟨ha, hmax⟩ := q.2.top ht
        refine ⟨a.priority, ?_, hmax k n hk⟩
        change q.1.getPriority ((q.1.top).elim 0 (·.key)) = _
        rw [ht]
        exact getPriority_of_present q.2.indexed ha

end UpdatablePriorityQueue

namespace History

open UpdatablePriorityQueue

variable {T : Type} {s : History T {q : UpdatablePriorityQueue Nat // q.Valid}}

/-- **The heap of the task queues.**  In every run of the task queues over the heap, it has one
node for each queue, whose priority is the number of its tasks; `pop` takes the oldest task of a
longest queue, and throws when there is none. -/
theorem heap_of_reachable (h : Reachable (Init keyedPriorityQueue) (Step keyedPriorityQueue)
    (Always (ι := Op T)) s) :
    (s.queues.queuesSizes.1.heap.map (·.key)).Perm (List.range s.queues.queues.length) ∧
      (∀ node ∈ s.queues.queuesSizes.1.heap, ∃ q, s.queues.queues[node.key]? = some q ∧
        node.priority = q.queue.length) ∧
      ((s.queues.tasks = 0 ∧ s.queues.pop keyedPriorityQueue = .error .emptyQueues) ∨
        ∃ i q t rest queues, s.queues.queues[i]? = some q ∧ q.queue = t :: rest ∧
          (∀ (j : Nat) (q' : QueueTailPair (Task T)), s.queues.queues[j]? = some q' →
            q'.queue.length ≤ q.queue.length) ∧
          s.queues.pop keyedPriorityQueue = .ok (queues, i, t)) := by
  have hb := (sound_of_reachable correct_keyedPriorityQueue h).balanced
  have hv := s.queues.queuesSizes.2
  have hp : ∀ k, s.queues.queuesSizes.1.getPriority k = s.queues.queues[k]?.map (·.queue.length) :=
    hb.priority
  refine ⟨?_, fun node hn => ?_, ?_⟩
  · refine (List.perm_ext_iff_of_nodup hv.indexed.nodup_keys List.nodup_range).mpr fun k => ?_
    rw [hv.indexed.mem_keys, List.mem_range]
    constructor
    · rintro ⟨p, hk⟩
      have hs := getPriority_of_present hv.indexed hk
      rw [hp] at hs
      obtain ⟨q, hq, -⟩ := Option.map_eq_some_iff.mp hs
      exact (List.getElem?_eq_some_iff.mp hq).choose
    · intro hk
      have hs := hp k
      rw [List.getElem?_eq_getElem hk] at hs
      exact ⟨_, present_of_getPriority hv hs⟩
  · obtain ⟨i, hi⟩ := List.mem_iff_getElem?.mp hn
    have hs := getPriority_of_present hv.indexed (hv.indexed.slot_pos hi)
    rw [hp] at hs
    obtain ⟨q, hq, he⟩ := Option.map_eq_some_iff.mp hs
    exact ⟨q, hq, he.symm⟩
  · rcases TailTaskQueues.pop_cases correct_keyedPriorityQueue hb with hpop | ⟨i, q, t, rest,
      queues, hq, hqueue, hlong, hpop, -⟩
    · exact .inl hpop
    · exact .inr ⟨i, q, t, rest, queues, hq, hqueue, hlong, hpop⟩

/-- The second of two queues is the longest. -/
theorem heap_two : ∃ s : History Nat {q : UpdatablePriorityQueue Nat // q.Valid},
    s.queues.queues.map (·.queue.length) = [1, 2] ∧
      (s.queues.queuesSizes.1.heap.map (·.key)).Perm (List.range 2) := by
  obtain ⟨s, hs, hsee⟩ : ∃ s : History Nat {q : UpdatablePriorityQueue Nat // q.Valid},
      Reachable (Init keyedPriorityQueue) (Step keyedPriorityQueue) (fun _ _ => True) s ∧
        decide (s.queues.queues.map (·.queue.length) = [1, 2]) = true :=
    exists_reachable _ rfl [.createQueue 2, .createQueue 2, .enqueue 0 7, .enqueue 1 8,
      .enqueue 1 5] (by decide +kernel)
  have h := heap_of_reachable hs
  have hlen : s.queues.queues.length = 2 := by
    rw [← List.length_map (f := (·.queue.length)), of_decide_eq_true hsee]
    rfl
  exact ⟨s, of_decide_eq_true hsee, hlen ▸ h.1⟩

end History

end Ubft.ThreadPool
