import Ubft.Store.Tail
import Ubft.Support.Ring

/-!
# Store — the ring of a tail map

`VectorTailMap` as the source keeps it: `tail` slots, the entry of a key in the slot of the key
modulo `tail`, each entry linked to the slot of its successor.  `Refines r t` says that the ring `r`
holds the map `t`; every operation that `t` allows keeps it, and a walk along the links visits the
entries of `t` in order.

Keys have 64 bits, and so has `begin()->first + tail`: the ring holds the map of `tryEmplaceWord`.
-/

namespace Ubft

universe u

/-- An element of `dyn_array`: an entry and the index of its successor. -/
structure Slot (V : Type u) where
  key : Nat
  value : V
  next : Option Nat

/-- `VectorTailMap`; `min` is the key inserted last. -/
structure VectorTailMap (V : Type u) where
  tail : Nat
  dynArray : Nat → Option (Slot V) := fun _ => none
  head : Option Nat := none
  back : Option Nat := none
  min : Nat := 0

namespace VectorTailMap

variable {V : Type u}

/-- The element at `begin()`. -/
def first? (r : VectorTailMap V) : Option (Slot V) := r.head.bind r.dynArray

/-- `find`: the element in the slot of the key, if it has that key. -/
def find? (r : VectorTailMap V) (key : Nat) : Option V :=
  match r.dynArray (key % r.tail) with
  | some e => if e.key = key then some e.value else none
  | none => none

/-- `popFront` of a map that is not empty. -/
def popFront (r : VectorTailMap V) : VectorTailMap V :=
  match r.head with
  | none => r
  | some i =>
      { r with
        dynArray := Function.update r.dynArray i none
        head := r.first?.bind (·.next)
        back := if r.head = r.back then none else r.back }

/-- The loop that drops the entries a key leaves behind. -/
def skip (r : VectorTailMap V) (key : Nat) : Nat → VectorTailMap V
  | 0 => r
  | fuel + 1 =>
      match r.first? with
      | none => r
      | some e => if (e.key + r.tail) % 2 ^ 64 ≤ key then skip r.popFront key fuel else r

/-- `setNext` of an element. -/
def setNext (a : Nat → Option (Slot V)) (i next : Nat) : Nat → Option (Slot V) :=
  Function.update a i ((a i).map fun e => { e with next := some next })

/-- Puts an entry behind the others. -/
def emplaceBack (r : VectorTailMap V) (key : Nat) (v : V) : VectorTailMap V :=
  let i := key % r.tail
  let a := Function.update r.dynArray i (some ⟨key, v, none⟩)
  match r.head, r.back with
  | some _, some b => { r with dynArray := setNext a b i, back := some i }
  | some _, none => { r with dynArray := a, back := some i }
  | none, _ => { r with dynArray := a, head := some i, back := some i }

/-- `tryEmplace`.  Only a key below the last one is looked up. -/
def tryEmplace (r : VectorTailMap V) (key : Nat) (v : V) :
    Except String (VectorTailMap V × Bool) :=
  if key < r.min then
    match r.find? key with
    | none => .error "Tried to emplace a past element."
    | some _ => .ok (r, false)
  else
    -- no more than `tail` entries can be in the way
    .ok ((skip { r with min := key } key r.tail).emplaceBack key v, true)

/-- A key not below the one inserted last is put behind the others. -/
theorem tryEmplace_of_le {r : VectorTailMap V} {key : Nat} (v : V) (h : r.min ≤ key) :
    r.tryEmplace key v =
      .ok ((skip { r with min := key } key r.tail).emplaceBack key v, true) :=
  if_neg (Nat.not_lt.mpr h)

/-- The entries from an element on, along the links. -/
def walk (r : VectorTailMap V) : Nat → Option Nat → List (Nat × V)
  | 0, _ => []
  | _ + 1, none => []
  | fuel + 1, some i =>
      match r.dynArray i with
      | none => []
      | some e => (e.key, e.value) :: walk r fuel e.next

/-! ### Links -/

section Links

variable {n : Nat} {a a' : Nat → Option (Slot V)}

/-- The slot of the first of some entries. -/
def slot? (n : Nat) (l : List (Nat × V)) : Option Nat := l.head?.map (·.1 % n)

/-- The entries are in their slots, each linked to the next one. -/
def Linked (n : Nat) (a : Nat → Option (Slot V)) : List (Nat × V) → Prop
  | [] => True
  | e :: l => a (e.1 % n) = some ⟨e.1, e.2, slot? n l⟩ ∧ Linked n a l

/-- Entries in order, no two of which are a lap apart. -/
structure InLap (n : Nat) (l : List (Nat × V)) : Prop where
  sorted : l.Pairwise (fun e e' => e.1 < e'.1)
  span : l.Pairwise (fun e e' => e'.1 < e.1 + n)

/-- Fewer keys are still in a lap. -/
theorem InLap.tail {e : Nat × V} {l : List (Nat × V)} (h : InLap n (e :: l)) : InLap n l :=
  ⟨(List.pairwise_cons.mp h.sorted).2, (List.pairwise_cons.mp h.span).2⟩

/-- Two keys of a lap are in different slots. -/
theorem InLap.slot_ne {e e' : Nat × V} {l : List (Nat × V)} (h : InLap n (e :: l)) (he : e' ∈ l) :
    e.1 % n ≠ e'.1 % n :=
  Ring.mod_ne ((List.pairwise_cons.mp h.sorted).1 e' he) ((List.pairwise_cons.mp h.span).1 e' he)

/-- There are at most as many keys as the lap is long. -/
theorem InLap.length_le {l : List (Nat × V)} (h : InLap n l) (hn : 0 < n) : l.length ≤ n := by
  cases l with
  | nil => exact Nat.zero_le _
  | cons e l =>
      have hl := OrdMap.length_le_of_pairwise (a := e.1) (b := e.1 + n) h.sorted fun e' he' => by
        rcases List.mem_cons.mp he' with rfl | he'
        · omega
        · exact ⟨((List.pairwise_cons.mp h.sorted).1 e' he').le,
            (List.pairwise_cons.mp h.span).1 e' he'⟩
      rwa [Nat.add_sub_cancel_left] at hl

/-- A list depends on its own slots alone. -/
theorem Linked.congr {l : List (Nat × V)} (h : Linked n a l)
    (ha : ∀ e ∈ l, a' (e.1 % n) = a (e.1 % n)) : Linked n a' l := by
  induction l with
  | nil => trivial
  | cons e l ih =>
      exact ⟨(ha e List.mem_cons_self).trans h.1,
        ih h.2 fun e' he' => ha e' (List.mem_cons_of_mem _ he')⟩

/-- The slot of an entry holds it. -/
theorem Linked.get {l : List (Nat × V)} (h : Linked n a l) {e : Nat × V} (he : e ∈ l) :
    ∃ next, a (e.1 % n) = some ⟨e.1, e.2, next⟩ := by
  induction l with
  | nil => cases he
  | cons e' l ih =>
      rcases List.mem_cons.mp he with rfl | he
      · exact ⟨_, h.1⟩
      · exact ih h.2 he

/-- One more entry in a slot that is free, the last one linked to it. -/
theorem Linked.append {l : List (Nat × V)} (h : Linked n a l) (hl : InLap n l) {x y : Nat × V}
    (hy : l.getLast? = some y) (hx : ∀ e ∈ l, e.1 % n ≠ x.1 % n) :
    Linked n (setNext (Function.update a (x.1 % n) (some ⟨x.1, x.2, none⟩)) (y.1 % n)
      (x.1 % n)) (l ++ [x]) := by
  induction l with
  | nil => cases hy
  | cons e l ih =>
      have hex := hx e List.mem_cons_self
      cases l with
      | nil =>
          -- the last entry gets its link
          obtain rfl : e = y := by simpa using hy
          refine ⟨?_, ?_, trivial⟩
          · rw [setNext, Function.update_self, Function.update_of_ne hex, h.1]
            rfl
          · rw [setNext, Function.update_of_ne hex.symm, Function.update_self]
            rfl
      | cons e' l =>
          have hy' : (e' :: l).getLast? = some y := by rwa [List.getLast?_cons_cons] at hy
          have hne := hl.slot_ne (List.mem_of_getLast? hy')
          refine ⟨?_, ih h.2 hl.tail hy' fun z hz => hx z (List.mem_cons_of_mem _ hz)⟩
          rw [setNext, Function.update_of_ne hne, Function.update_of_ne hex]
          exact h.1

/-- Walking the links gives the list. -/
theorem Linked.walk {r : VectorTailMap V} {l : List (Nat × V)} (h : Linked n r.dynArray l)
    {fuel : Nat} (hf : l.length ≤ fuel) : r.walk fuel (slot? n l) = l := by
  induction l generalizing fuel with
  | nil => cases fuel <;> rfl
  | cons e l ih =>
      cases fuel with
      | zero => exact absurd hf (Nat.not_succ_le_zero _)
      | succ fuel =>
          have hw := ih h.2 (Nat.le_of_succ_le_succ hf)
          simp only [slot?, List.head?_cons, Option.map_some, VectorTailMap.walk, h.1]
          exact congrArg _ hw

end Links

/-! ### What an operation leaves -/

section Found

variable {r r' : VectorTailMap V} {key k : Nat} {v w : V}

theorem find?_of_popFront (h : r.popFront.find? k = some w) : r.find? k = some w := by
  unfold popFront at h
  split at h
  · exact h
  · next i _ =>
      unfold find? at h ⊢
      dsimp only at h
      by_cases hi : k % r.tail = i
      · rw [hi, Function.update_self] at h
        cases h
      · rwa [Function.update_of_ne hi] at h

theorem find?_of_skip {fuel : Nat} (h : (r.skip key fuel).find? k = some w) :
    r.find? k = some w := by
  induction fuel generalizing r with
  | zero => exact h
  | succ fuel ih =>
      unfold skip at h
      split at h
      · exact h
      · split at h
        · exact find?_of_popFront (ih h)
        · exact h

/-- What is found behind a new entry is it, or was there. -/
theorem find?_of_emplaceBack (h : (r.emplaceBack key v).find? k = some w) :
    w = v ∨ r.find? k = some w := by
  -- a link that is set changes no key and no value
  have hlink : ∀ {a : Nat → Option (Slot V)} {b i : Nat} {e : Slot V},
      setNext a b i (k % r.tail) = some e →
        ∃ e', a (k % r.tail) = some e' ∧ e'.key = e.key ∧ e'.value = e.value := by
    intro a b i e he
    by_cases hb : k % r.tail = b
    · rw [setNext, ← hb, Function.update_self] at he
      obtain ⟨e', he', rfl⟩ := Option.map_eq_some_iff.mp he
      exact ⟨e', he', rfl, rfl⟩
    · rw [setNext, Function.update_of_ne hb] at he
      exact ⟨e, he, rfl, rfl⟩
  have hput : ∀ {e : Slot V},
      Function.update r.dynArray (key % r.tail) (some ⟨key, v, none⟩) (k % r.tail) = some e →
        e.key = k → e.value = v ∨ r.find? k = some e.value := by
    intro e he hk
    by_cases hi : k % r.tail = key % r.tail
    · rw [hi, Function.update_self] at he
      cases he
      exact .inl rfl
    · rw [Function.update_of_ne hi] at he
      refine .inr ?_
      unfold find?
      rw [he]
      exact if_pos hk
  have hall : ∃ e : Slot V, (r.emplaceBack key v).dynArray (k % r.tail) = some e ∧ e.key = k ∧
      e.value = w := by
    have htail : (r.emplaceBack key v).tail = r.tail := by
      unfold emplaceBack
      simp only
      split <;> rfl
    unfold find? at h
    rw [htail] at h
    split at h
    · next e he =>
        split at h
        · next hk => exact ⟨e, he, hk, Option.some.inj h⟩
        · cases h
    · cases h
  obtain ⟨e, he, hk, rfl⟩ := hall
  unfold emplaceBack at he
  simp only at he
  split at he
  · obtain ⟨e', he', hkey, hvalue⟩ := hlink he
    rw [← hvalue]
    exact hput he' (hkey.trans hk)
  · exact hput he hk
  · exact hput he hk

/-- What is found after `tryEmplace` is the new entry, or was there. -/
theorem find?_of_tryEmplace {b : Bool} (h : r.tryEmplace key v = .ok (r', b))
    (hk : r'.find? k = some w) : w = v ∨ r.find? k = some w := by
  unfold tryEmplace at h
  split at h
  · split at h
    · cases h
    · cases h
      exact .inr hk
  · cases h
    exact (find?_of_emplaceBack hk).imp_right fun h => find?_of_skip (r := { r with min := key }) h

end Found

/-! ### What the ring holds -/

/-- The entries that a key leaves. -/
def left (n key : Nat) (l : List (Nat × V)) : List (Nat × V) :=
  l.dropWhile fun e => decide ((e.1 + n) % 2 ^ 64 ≤ key)

/-- They are those from one on that stops the loop, -/
theorem mem_left {n key : Nat} {l : List (Nat × V)} (hl : l.Pairwise fun e e' => e.1 < e'.1)
    {e : Nat × V} : e ∈ left n key l ↔
      e ∈ l ∧ ∃ f ∈ l, f.1 ≤ e.1 ∧ key < (f.1 + n) % 2 ^ 64 := by
  have h := OrdMap.mem_popWhile (m := ⟨l, hl⟩) (p := fun k => decide ((k + n) % 2 ^ 64 ≤ key))
    (e := e)
  simp only [decide_eq_false_iff_not, Nat.not_le] at h
  exact h

/-- and less than a tail behind the key. -/
theorem lt_add_of_mem_left {n key : Nat} {l : List (Nat × V)}
    (hl : l.Pairwise fun e e' => e.1 < e'.1) {e : Nat × V} (he : e ∈ left n key l) :
    key < e.1 + n := by
  obtain ⟨-, f, -, hle, hlt⟩ := (mem_left hl).mp he
  exact (hlt.trans_le (Nat.mod_le _ _)).trans_le (Nat.add_le_add_right hle n)

/-- `r` holds the entries `l`, in this order, and nothing else. -/
structure Holds (r : VectorTailMap V) (l : List (Nat × V)) : Prop where
  linked : Linked r.tail r.dynArray l
  only : ∀ i e, r.dynArray i = some e → ∃ x ∈ l, x.1 % r.tail = i
  head : r.head = slot? r.tail l
  back : r.back = l.getLast?.map (·.1 % r.tail)
  inLap : InLap r.tail l

namespace Holds

variable {r : VectorTailMap V} {l : List (Nat × V)} {e : Nat × V}

theorem first? (h : Holds r (e :: l)) : r.first? = some ⟨e.1, e.2, slot? r.tail l⟩ := by
  rw [VectorTailMap.first?, h.head]
  exact h.linked.1

/-- The back is the front of one entry only. -/
theorem head_eq_back (h : Holds r (e :: l)) : r.head = r.back ↔ l = [] := by
  rw [h.head, h.back]
  constructor
  · intro he
    cases l with
    | nil => rfl
    | cons x l =>
        obtain ⟨y, hy⟩ := Option.ne_none_iff_exists'.mp
          (List.getLast?_eq_none_iff.not.mpr (List.cons_ne_nil x l))
        rw [List.getLast?_cons_cons, hy] at he
        exact absurd (Option.some.inj he) (h.inLap.slot_ne (List.mem_of_getLast? hy))
  · rintro rfl
    rfl

theorem tail_popFront (r : VectorTailMap V) : r.popFront.tail = r.tail := by
  unfold VectorTailMap.popFront
  split <;> rfl

theorem min_popFront (r : VectorTailMap V) : r.popFront.min = r.min := by
  unfold VectorTailMap.popFront
  split <;> rfl

theorem tail_skip (r : VectorTailMap V) (key fuel : Nat) :
    (r.skip key fuel).tail = r.tail ∧ (r.skip key fuel).min = r.min := by
  induction fuel generalizing r with
  | zero => exact ⟨rfl, rfl⟩
  | succ fuel ih =>
      unfold VectorTailMap.skip
      split
      · exact ⟨rfl, rfl⟩
      · split
        · obtain ⟨ht, hm⟩ := ih r.popFront
          exact ⟨ht.trans (tail_popFront r), hm.trans (min_popFront r)⟩
        · exact ⟨rfl, rfl⟩

theorem popFront (h : Holds r (e :: l)) : Holds r.popFront l := by
  have hne : ∀ x ∈ l, x.1 % r.tail ≠ e.1 % r.tail := fun x hx => (h.inLap.slot_ne hx).symm
  have hback : (if r.head = r.back then none else r.back) = l.getLast?.map (·.1 % r.tail) := by
    split
    · next he => rw [h.head_eq_back.mp he]; rfl
    · next he =>
        rw [h.back]
        cases l with
        | nil => exact absurd (h.head_eq_back.mpr rfl) he
        | cons x l => rw [List.getLast?_cons_cons]
  have hr : r.popFront = { r with
      dynArray := Function.update r.dynArray (e.1 % r.tail) none
      head := slot? r.tail l
      back := l.getLast?.map (·.1 % r.tail) } := by
    have hhead : r.head = some (e.1 % r.tail) := h.head
    rw [← hback, VectorTailMap.popFront, h.first?, hhead]
    rfl
  rw [hr]
  refine ⟨?_, fun i x hi => ?_, rfl, rfl, h.inLap.tail⟩
  · exact h.linked.2.congr fun x hx => Function.update_of_ne (hne x hx) _ _
  · change Function.update r.dynArray _ none i = some x at hi
    by_cases hie : i = e.1 % r.tail
    · rw [hie, Function.update_self] at hi
      cases hi
    · rw [Function.update_of_ne hie] at hi
      obtain ⟨y, hy, hyi⟩ := h.only i x hi
      rcases List.mem_cons.mp hy with rfl | hy
      · exact absurd hyi.symm hie
      · exact ⟨y, hy, hyi⟩

/-- With enough fuel the loop ends at the entry that stops it. -/
theorem skip (h : Holds r l) (key : Nat) {fuel : Nat} (hf : l.length ≤ fuel) :
    Holds (r.skip key fuel) (left r.tail key l) := by
  induction fuel generalizing r l with
  | zero =>
      obtain rfl := List.eq_nil_of_length_eq_zero (Nat.le_zero.mp hf)
      exact h
  | succ fuel ih =>
      unfold VectorTailMap.skip
      cases l with
      | nil =>
          have hfirst : r.first? = none := by rw [VectorTailMap.first?, h.head]; rfl
          rw [hfirst]
          exact h
      | cons e l =>
          simp only [h.first?, left, List.dropWhile_cons, decide_eq_true_eq]
          split
          · have hpop := ih h.popFront (Nat.le_of_succ_le_succ hf)
            rwa [tail_popFront] at hpop
          · exact h

theorem tail_emplaceBack (r : VectorTailMap V) (key : Nat) (v : V) :
    (r.emplaceBack key v).tail = r.tail := by
  unfold VectorTailMap.emplaceBack
  simp only
  split <;> rfl

theorem min_emplaceBack (r : VectorTailMap V) (key : Nat) (v : V) :
    (r.emplaceBack key v).min = r.min := by
  unfold VectorTailMap.emplaceBack
  simp only
  split <;> rfl

/-- The list with the new element at its end. -/
theorem emplaceBack (h : Holds r l) {key : Nat} (v : V) (hl : InLap r.tail (l ++ [(key, v)])) :
    Holds (r.emplaceBack key v) (l ++ [(key, v)]) := by
  have hne : ∀ x ∈ l, x.1 % r.tail ≠ key % r.tail := by
    intro x hx
    have hs := (List.pairwise_append.mp hl.sorted).2.2 x hx _ List.mem_cons_self
    exact Ring.mod_ne hs ((List.pairwise_append.mp hl.span).2.2 x hx _ List.mem_cons_self)
  cases hlast : l.getLast? with
  | none =>
      obtain rfl := List.getLast?_eq_none_iff.mp hlast
      have hhead : r.head = none := h.head
      have hr : r.emplaceBack key v = { r with
          dynArray := Function.update r.dynArray (key % r.tail) (some ⟨key, v, none⟩)
          head := some (key % r.tail)
          back := some (key % r.tail) } := by
        rw [VectorTailMap.emplaceBack, hhead]
      rw [hr]
      refine ⟨⟨Function.update_self .., trivial⟩, fun i e hi => ?_, rfl, rfl, hl⟩
      change Function.update r.dynArray _ _ i = some e at hi
      by_cases hie : i = key % r.tail
      · exact ⟨_, List.mem_cons_self, hie.symm⟩
      · rw [Function.update_of_ne hie] at hi
        obtain ⟨x, hx, -⟩ := h.only i e hi
        cases hx
  | some y =>
      obtain ⟨x, l, rfl⟩ := List.exists_cons_of_ne_nil
        (List.ne_nil_of_mem (List.mem_of_getLast? hlast))
      have hhead : r.head = some (x.1 % r.tail) := h.head
      have hback : r.back = some (y.1 % r.tail) := by rw [h.back, hlast]; rfl
      have hr : r.emplaceBack key v = { r with
          dynArray := setNext (Function.update r.dynArray (key % r.tail) (some ⟨key, v, none⟩))
            (y.1 % r.tail) (key % r.tail)
          back := some (key % r.tail) } := by
        rw [VectorTailMap.emplaceBack, hhead, hback]
      rw [hr]
      have hlinked := h.linked.append h.inLap (x := (key, v)) hlast hne
      refine ⟨hlinked, fun i e hi => ?_, hhead, ?_, hl⟩
      · by_cases hie : i = key % r.tail
        · exact ⟨_, List.mem_append_right _ List.mem_cons_self, hie.symm⟩
        · -- the back slot was in use before its link changed
          have hi' : ∃ e', r.dynArray i = some e' := by
            change setNext _ _ _ i = some e at hi
            by_cases hiy : i = y.1 % r.tail
            · obtain ⟨next, hn⟩ := h.linked.get (List.mem_of_getLast? hlast)
              exact ⟨_, hiy ▸ hn⟩
            · rw [setNext, Function.update_of_ne hiy, Function.update_of_ne hie] at hi
              exact ⟨e, hi⟩
          obtain ⟨e', he'⟩ := hi'
          obtain ⟨z, hz, hzi⟩ := h.only i e' he'
          exact ⟨z, List.mem_append_left _ hz, hzi⟩
      · change some (key % r.tail) = _
        rw [List.getLast?_concat]
        rfl

/-- **A key above those it leaves** is linked behind them. -/
theorem put (h : Holds r l) (ht : 0 < r.tail) {key : Nat} (v : V)
    (hlt : ∀ x ∈ left r.tail key l, x.1 < key) :
    Holds ((VectorTailMap.skip { r with min := key } key r.tail).emplaceBack key v)
      (left r.tail key l ++ [(key, v)]) := by
  have hmin : Holds { r with min := key } l := { h with }
  have hskip := hmin.skip key (h.inLap.length_le ht)
  have hlap := hskip.inLap
  have htail := (tail_skip { r with min := key } key r.tail).1
  change _ = r.tail at htail
  refine hskip.emplaceBack v ?_
  rw [htail] at hlap ⊢
  refine ⟨List.pairwise_append.mpr ⟨hlap.sorted, List.pairwise_singleton _ _, ?_⟩,
    List.pairwise_append.mpr ⟨hlap.span, List.pairwise_singleton _ _, ?_⟩⟩
  · intro x hx y hy
    obtain rfl := List.mem_singleton.mp hy
    exact hlt x hx
  · intro x hx y hy
    obtain rfl := List.mem_singleton.mp hy
    exact lt_add_of_mem_left h.inLap.sorted hx

/-- The entries are what `find` finds. -/
theorem find?_eq_some (h : Holds r l) {key : Nat} {v : V} : r.find? key = some v ↔ (key, v) ∈ l := by
  unfold VectorTailMap.find?
  constructor
  · intro hf
    split at hf
    · next e he =>
        split at hf
        · next hk =>
            cases hf
            obtain ⟨x, hx, hxi⟩ := h.only _ _ he
            obtain ⟨next, hn⟩ := h.linked.get hx
            rw [hxi, he] at hn
            cases hn
            exact hk ▸ hx
        · cases hf
    · cases hf
  · intro hm
    obtain ⟨next, hn⟩ := h.linked.get hm
    simp only [hn, if_true]

end Holds

/-- The entries are up to the key inserted last. -/
structure UpTo (r : VectorTailMap V) (l : List (Nat × V)) : Prop where
  holds : Holds r l
  le_min : ∀ e ∈ l, e.1 ≤ r.min

namespace UpTo

variable {r : VectorTailMap V} {l : List (Nat × V)} {key : Nat}

/-- A key above those it leaves is put behind them, -/
theorem put (h : UpTo r l) (ht : 0 < r.tail) (v : V) (hlt : ∀ x ∈ left r.tail key l, x.1 < key) :
    UpTo ((skip { r with min := key } key r.tail).emplaceBack key v)
      (left r.tail key l ++ [(key, v)]) := by
  refine ⟨h.holds.put ht v hlt, fun e he => ?_⟩
  rw [Holds.min_emplaceBack, (Holds.tail_skip { r with min := key } key r.tail).2]
  rcases List.mem_append.mp he with he | he
  · exact (hlt e he).le
  · exact (congrArg Prod.fst (List.mem_singleton.mp he)).le

/-- and so is a key that is not there and not below the one inserted last. -/
theorem insert (h : UpTo r l) (ht : 0 < r.tail) (hmin : r.min ≤ key) (hno : r.find? key = none)
    (v : V) :
    UpTo ((skip { r with min := key } key r.tail).emplaceBack key v)
      (left r.tail key l ++ [(key, v)]) := by
  refine h.put ht v fun e he => ?_
  have hmem := ((mem_left h.holds.inLap.sorted).mp he).1
  refine lt_of_le_of_ne ((h.le_min e hmem).trans hmin) fun hek => ?_
  have hfind : r.find? e.1 = some e.2 := h.holds.find?_eq_some.mpr hmem
  rw [hek, hno] at hfind
  cases hfind

end UpTo

/-! ### The map in the ring -/

/-- `r` holds the map `t`. -/
structure Refines (r : VectorTailMap V) (t : TailMap V) : Prop where
  upTo : UpTo r t.map.entries
  tail : r.tail = t.tail
  min : r.min = t.min

/-- A ring just constructed. -/
theorem refines_new (n : Nat) : Refines { tail := n } (⟨n, .empty, 0⟩ : TailMap V) where
  upTo := ⟨⟨trivial, nofun, rfl, rfl, .nil, .nil⟩, nofun⟩
  tail := rfl
  min := rfl

namespace Refines

variable {r : VectorTailMap V} {t t' : TailMap V}

/-- A walk visits the entries in order, and ends. -/
theorem walk (h : Refines r t) {fuel : Nat} (hf : t.map.entries.length ≤ fuel) :
    r.walk fuel r.head = t.map.entries := by
  rw [h.upTo.holds.head]
  exact h.upTo.holds.linked.walk hf

/-- There are at most `tail` of them. -/
theorem length_le (h : Refines r t) (ht : 0 < t.tail) : t.map.entries.length ≤ t.tail :=
  h.tail ▸ h.upTo.holds.inLap.length_le (h.tail ▸ ht)

/-- **Both maps find the same.** -/
theorem find? (h : Refines r t) (key : Nat) : r.find? key = t.find? key := by
  refine Option.ext fun v => ?_
  rw [h.upTo.holds.find?_eq_some, OrdMap.mem_entries_iff]
  rfl

/-- A key above the others is linked behind them. -/
theorem insert (h : Refines r t) (ht : 0 < t.tail) {key : Nat} (v : V) (hmin : t.min ≤ key)
    (hno : (t.skipWord key).find? key = none) :
    Refines ((VectorTailMap.skip { r with min := key } key r.tail).emplaceBack key v)
      { t with
        map := (t.skipWord key).insert key v
        min := key } := by
  have hleft : left r.tail key t.map.entries = (t.skipWord key).entries := by
    rw [h.tail]
    rfl
  have hlt : ∀ x ∈ (t.skipWord key).entries, x.1 < key := by
    intro x hx
    have hfind := OrdMap.mem_entries.mp hx
    have hle := h.upTo.le_min x (OrdMap.mem_entries.mpr (TailMap.find?_of_skipWord hfind))
    refine lt_of_le_of_ne (hle.trans (h.min.trans_le hmin)) ?_
    rintro rfl
    exact nomatch hno.symm.trans hfind
  have hput := h.upTo.put (h.tail ▸ ht) v (hleft ▸ hlt)
  rw [hleft, ← OrdMap.insert_last hlt] at hput
  obtain ⟨htail, hmin'⟩ := Holds.tail_skip { r with min := key } key r.tail
  refine ⟨hput, ?_, ?_⟩
  · rw [Holds.tail_emplaceBack, htail]
    exact h.tail
  · rw [Holds.min_emplaceBack, hmin']

/-- **The ring of a map.**  What `t` answers to a key, the ring answers, and it holds the map
after. -/
theorem tryEmplace (h : Refines r t) (ht : 0 < t.tail) {key : Nat} {v : V} {b : Bool}
    (he : t.tryEmplaceWord key v = .ok (t', b)) :
    ∃ r', r.tryEmplace key v = .ok (r', b) ∧ Refines r' t' := by
  unfold TailMap.tryEmplaceWord at he
  unfold VectorTailMap.tryEmplace
  rw [h.min, h.find?]
  by_cases hlt : key < t.min
  · rw [if_pos hlt] at he ⊢
    cases hf : t.find? key with
    | none => rw [hf] at he; cases he
    | some w => rw [hf] at he; cases he; exact ⟨r, rfl, h⟩
  · rw [if_neg hlt] at he ⊢
    split at he
    · cases he
    · next hno =>
        cases he
        exact ⟨_, rfl, h.insert ht v (Nat.not_lt.mp hlt) hno⟩

end Refines

end VectorTailMap

end Ubft
