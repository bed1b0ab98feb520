import Ubft.Support.OrdMap

/-!
# Store — maps and queues of bounded size

`TailMap` is `tail-map/vector.hpp`'s `VectorTailMap`, a map whose keys are inserted in
increasing order and which keeps the keys above the largest one minus `tail`; `TailQueue` is
`tail-queue/vector.hpp`'s `VectorTailQueue`.

The source keeps the entries in a ring of `tail` slots, each linked to its successor; here they
are an `OrdMap`.  The two agree as long as no key is emplaced over itself: the ring then links
the back slot to itself, and a walk over the map does not end.  `tryEmplaceWord` answers
`.relinked` there, where the source throws nothing.

Keys have 64 bits, and so has `begin()->first + tail`, which wraps for the last keys: the entry at
the front may then be dropped too early (`skipWord`).  `skip` and `tryEmplace` do not wrap.  They
are what the source computes on a map whose keys are at least `tail` below `2 ^ 64`
(`tryEmplaceWord_eq`): those of the instances, for which `pack` has 48 bits.
-/

namespace Ubft

universe u

/-- What `tryEmplace` can answer instead of an entry. -/
inductive EmplaceError where
  /-- "Tried to emplace a past element." -/
  | past
  /-- The back entry is emplaced over itself. -/
  | relinked
  deriving DecidableEq, Repr

/-- A map of at most `tail` entries, whose keys are inserted in order. -/
structure TailMap (V : Type u) where
  tail : Nat
  map : OrdMap Nat V := .empty
  min : Nat := 0

namespace TailMap

variable {V : Type u}

/-- `find(key)`, as a value. -/
def find? (t : TailMap V) (k : Nat) : Option V := t.map.find? k

/-- `*begin()`, the element of the lowest key. -/
def first? (t : TailMap V) : Option (Nat × V) := t.map.first?

/-- The entries a key pushes out of the tail. -/
def skip (t : TailMap V) (key : Nat) : OrdMap Nat V :=
  t.map.popWhile (fun k => decide (k + t.tail ≤ key))

/-- `tryEmplace`, of keys that do not wrap. -/
def tryEmplace (t : TailMap V) (key : Nat) (v : V) : Except EmplaceError (TailMap V × Bool) :=
  if key < t.min then
    match t.find? key with
    | none => .error .past
    | some _ => .ok (t, false)
  else
    match (t.skip key).find? key with
    | some _ => .error .relinked
    | none => .ok ({ t with map := (t.skip key).insert key v, min := key }, true)

/-- The entries a key pushes out of the tail, on 64 bits. -/
def skipWord (t : TailMap V) (key : Nat) : OrdMap Nat V :=
  t.map.popWhile (fun k => decide ((k + t.tail) % 2 ^ 64 ≤ key))

/-- `tryEmplace`, on 64 bits. -/
def tryEmplaceWord (t : TailMap V) (key : Nat) (v : V) :
    Except EmplaceError (TailMap V × Bool) :=
  if key < t.min then
    match t.find? key with
    | none => .error .past
    | some _ => .ok (t, false)
  else
    match (t.skipWord key).find? key with
    | some _ => .error .relinked
    | none => .ok ({ t with map := (t.skipWord key).insert key v, min := key }, true)

/-- `popFront` as long as the front key is below `bound`. -/
def popBelow (t : TailMap V) (bound : Nat) : TailMap V :=
  { t with map := t.map.popWhile (fun k => decide (k < bound)) }

/-- Every element goes; any key may enter again. -/
def clear (t : TailMap V) : TailMap V := { t with map := .empty, min := 0 }

/-- Through `find`, an element is changed in place. -/
def modify (t : TailMap V) (k : Nat) (f : V → V) : TailMap V := { t with map := t.map.modify k f }

theorem find?_popBelow (t : TailMap V) (b k : Nat) :
    (t.popBelow b).find? k = if k < b then none else t.find? k := by
  rw [find?, popBelow, OrdMap.find?_popWhile]
  · simp only [decide_eq_true_eq]; rfl
  · simp only [decide_eq_true_eq]; omega

/-- What is a tail behind is gone. -/
theorem find?_skip (t : TailMap V) (key k : Nat) :
    (t.skip key).find? k = if k + t.tail ≤ key then none else t.find? k := by
  rw [skip, OrdMap.find?_popWhile]
  · simp only [decide_eq_true_eq]; rfl
  · simp only [decide_eq_true_eq]; omega

theorem find?_modify (t : TailMap V) (k k' : Nat) (f : V → V) :
    (t.modify k f).find? k' = if k' = k then (t.find? k).map f else t.find? k' :=
  t.map.find?_modify k k' f

/-- **What `tryEmplace` does**: it finds the key again, or it inserts it last. -/
theorem tryEmplace_cases {t t' : TailMap V} {key : Nat} {v : V} {b : Bool}
    (h : t.tryEmplace key v = .ok (t', b)) :
    (b = false ∧ t' = t ∧ key < t.min ∧ ∃ w, t.find? key = some w) ∨
    (b = true ∧ t.min ≤ key ∧ t'.min = key ∧ t'.tail = t.tail ∧
      (∀ k, t'.find? k = if k = key then some v
        else if k + t.tail ≤ key then none else t.find? k) ∧
      (0 < t.tail → t.find? key = none)) := by
  unfold tryEmplace at h
  split at h
  · next hlt =>
      split at h
      · cases h
      · next w hw => cases h; exact .inl ⟨rfl, rfl, hlt, w, hw⟩
  · next hge =>
      split at h
      · cases h
      · next hno =>
          cases h
          refine .inr ⟨rfl, Nat.not_lt.mp hge, rfl, rfl, fun k => ?_, fun ht => ?_⟩
          · rw [find?, OrdMap.find?_insert, find?_skip]
          · rw [find?_skip, if_neg (by omega)] at hno; exact hno

theorem tail_tryEmplace {t t' : TailMap V} {key : Nat} {v : V} {b : Bool}
    (h : t.tryEmplace key v = .ok (t', b)) : t'.tail = t.tail := by
  rcases tryEmplace_cases h with ⟨-, rfl, -⟩ | ⟨-, -, -, htail, -⟩
  · rfl
  · exact htail

/-- A key at or above every key inserted so far that is not present is inserted. -/
theorem tryEmplace_fresh {t : TailMap V} {key : Nat} (v : V) (hmin : t.min ≤ key)
    (hno : t.find? key = none) :
    t.tryEmplace key v =
      .ok ({ t with map := (t.skip key).insert key v, min := key }, true) := by
  unfold tryEmplace
  rw [if_neg (Nat.not_lt.mpr hmin), find?_skip, hno, ite_self]

/-! ### Keys of 64 bits -/

variable {W : Type u} {t t' : TailMap V} {key : Nat} {v : V} {b : Bool}

/-- **What a key leaves**: the entries from one on that stops the loop. -/
theorem find?_skipWord_eq_some {k : Nat} {w : V} : (t.skipWord key).find? k = some w ↔
    t.find? k = some w ∧ ∃ f ≤ k, (t.find? f).isSome ∧ key < (f + t.tail) % 2 ^ 64 := by
  rw [skipWord, OrdMap.find?_popWhile_eq_some]
  simp only [decide_eq_false_iff_not, Nat.not_le]
  rfl

/-- What is left was there, -/
theorem find?_of_skipWord {k : Nat} {w : V} (h : (t.skipWord key).find? k = some w) :
    t.find? k = some w :=
  (find?_skipWord_eq_some.mp h).1

/-- and is less than a tail behind the key. -/
theorem lt_add_of_skipWord {k : Nat} {w : V} (h : (t.skipWord key).find? k = some w) :
    key < k + t.tail := by
  obtain ⟨-, f, hle, -, hlt⟩ := find?_skipWord_eq_some.mp h
  exact (hlt.trans_le (Nat.mod_le _ _)).trans_le (Nat.add_le_add_right hle _)

/-- **What `tryEmplaceWord` does**: it finds the key again, or it inserts it last. -/
theorem tryEmplaceWord_cases (h : t.tryEmplaceWord key v = .ok (t', b)) :
    (b = false ∧ t' = t ∧ key < t.min ∧ ∃ w, t.find? key = some w) ∨
    (b = true ∧ t.min ≤ key ∧ t'.min = key ∧ t'.tail = t.tail ∧
      t'.map = (t.skipWord key).insert key v ∧ (t.skipWord key).find? key = none) := by
  unfold tryEmplaceWord at h
  split at h
  · next hlt =>
      split at h
      · cases h
      · next w hw =>
          cases h
          exact .inl ⟨rfl, rfl, hlt, w, hw⟩
  · next hge =>
      split at h
      · cases h
      · next hno =>
          cases h
          exact .inr ⟨rfl, Nat.not_lt.mp hge, rfl, rfl, rfl, hno⟩

theorem tail_tryEmplaceWord (h : t.tryEmplaceWord key v = .ok (t', b)) : t'.tail = t.tail := by
  rcases tryEmplaceWord_cases h with ⟨-, rfl, -⟩ | ⟨-, -, -, htail, -⟩
  · rfl
  · exact htail

/-- What there is once a key was inserted: it, and what it does not push out. -/
theorem find?_tryEmplaceWord (h : t.tryEmplaceWord key v = .ok (t', true)) (k : Nat) :
    t'.find? k = if k = key then some v else (t.skipWord key).find? k := by
  rcases tryEmplaceWord_cases h with ⟨hb, -⟩ | ⟨-, -, -, -, hmap, -⟩
  · cases hb
  · rw [find?, hmap, OrdMap.find?_insert]

/-- An entry after a key was inserted is its, or was there. -/
theorem find?_tryEmplaceWord_cases (h : t.tryEmplaceWord key v = .ok (t', true)) {k : Nat} {w : V}
    (hk : t'.find? k = some w) : (k = key ∧ w = v) ∨ t.find? k = some w := by
  rw [find?_tryEmplaceWord h] at hk
  split at hk
  · next heq => exact .inl ⟨heq, (Option.some.inj hk).symm⟩
  · exact .inr (find?_of_skipWord hk)

/-- A key that is not present is inserted, unless it is below the one inserted last. -/
theorem tryEmplaceWord_of_notMem (v : V) (hno : t.find? key = none) :
    t.tryEmplaceWord key v = if key < t.min then .error .past
      else .ok ({ t with map := (t.skipWord key).insert key v, min := key }, true) := by
  have hskip : (t.skipWord key).find? key = none := by
    cases hf : (t.skipWord key).find? key with
    | none => rfl
    | some w => exact nomatch hno.symm.trans (find?_of_skipWord hf)
  unfold tryEmplaceWord
  rw [hno, hskip]

/-- No key is so close to the end of the words that its place in the tail wraps. -/
def Bounded (t : TailMap V) : Prop := ∀ e ∈ t.map.entries, e.1 + t.tail < 2 ^ 64

/-- The loop of `tryEmplace` does not wrap then, -/
theorem skipWord_eq (h : t.Bounded) (key : Nat) : t.skipWord key = t.skip key := by
  refine OrdMap.popWhile_congr fun e he => ?_
  rw [Nat.mod_eq_of_lt (h e he)]

/-- and neither does `tryEmplace`. -/
theorem tryEmplaceWord_eq (h : t.Bounded) (key : Nat) (v : V) :
    t.tryEmplaceWord key v = t.tryEmplace key v := by
  unfold tryEmplaceWord tryEmplace
  rw [skipWord_eq h]

/-- The map with every value replaced by its image. -/
def mapValues (t : TailMap V) (f : V → W) : TailMap W := ⟨t.tail, t.map.map f, t.min⟩

theorem find?_mapValues (t : TailMap V) (f : V → W) (k : Nat) :
    (t.mapValues f).find? k = (t.find? k).map f := t.map.find?_map f k

/-- Which entries are dropped depends on the keys only. -/
theorem skipWord_mapValues (t : TailMap V) (f : V → W) (key : Nat) :
    (t.mapValues f).skipWord key = (t.skipWord key).map f :=
  (t.map.map_popWhile f _).symm

end TailMap

/-- A queue that drops its front when a push finds it full. -/
structure TailQueue (α : Type u) where
  tail : Nat
  items : List α := []

namespace TailQueue

variable {α : Type u}

/-- When the queue is full, its front goes first. -/
def emplaceBack (q : TailQueue α) (a : α) : TailQueue α :=
  { q with items := (if q.items.length = q.tail then q.items.drop 1 else q.items) ++ [a] }

/-- On an empty queue nothing happens. -/
def popFront (q : TailQueue α) : TailQueue α := { q with items := q.items.drop 1 }

/-- `popFront` as long as the front passes `p`. -/
def popWhile (q : TailQueue α) (p : α → Bool) : TailQueue α :=
  { q with items := q.items.dropWhile p }

theorem mem_emplaceBack {q : TailQueue α} {a b : α} (h : b ∈ (q.emplaceBack a).items) :
    b ∈ q.items ∨ b = a := by
  rcases List.mem_append.mp h with h | h
  · split at h
    · exact .inl (List.mem_of_mem_drop h)
    · exact .inl h
  · exact .inr (List.mem_singleton.mp h)

end TailQueue

end Ubft
