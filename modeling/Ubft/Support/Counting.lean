import Mathlib

/-!
# Support — counting

How often a predicate holds in a list: what an element that leaves takes with it
(`countP_eraseIdx`), or one that takes its place (`countP_set_add`, `flatMap_set_perm`), and the
element that two predicates which hold often enough share (`exists_of_countP`).
-/

namespace Ubft

theorem ite_le_one (p : Prop) [Decidable p] : (if p then 1 else 0) ≤ 1 := by
  split
  · exact Nat.le_refl 1
  · exact Nat.zero_le 1

/-- An element that leaves is not counted any longer. -/
theorem countP_eraseIdx {α : Type} {l : List α} {k : Nat} {a : α} (h : l[k]? = some a)
    (p : α → Bool) : (l.eraseIdx k).countP p + (if p a then 1 else 0) = l.countP p := by
  induction l generalizing k with
  | nil => cases h
  | cons b l ih =>
      cases k with
      | zero => cases h; rw [List.eraseIdx_cons_zero, List.countP_cons]
      | succ k =>
          rw [List.eraseIdx_cons_succ, List.countP_cons, List.countP_cons, ← ih h]
          omega

/-- An element takes the place of another. -/
theorem countP_set_add {α : Type} {l : List α} {k : Nat} {a : α} (h : l[k]? = some a) (b : α)
    (p : α → Bool) :
    (l.set k b).countP p + (if p a then 1 else 0) = l.countP p + (if p b then 1 else 0) := by
  induction l generalizing k with
  | nil => cases h
  | cons c l ih =>
      cases k with
      | zero =>
          cases h
          rw [List.set_cons_zero, List.countP_cons, List.countP_cons]
          omega
      | succ k =>
          rw [List.set_cons_succ, List.countP_cons, List.countP_cons]
          have hi := ih h
          omega

/-- What an element that takes the place of another brings, and what that one takes with it. -/
theorem flatMap_set_perm {α β : Type} {l : List α} {k : Nat} {a : α} (h : l[k]? = some a) (b : α)
    (g : α → List β) : (g a ++ (l.set k b).flatMap g).Perm (g b ++ l.flatMap g) := by
  obtain ⟨hlt, ha⟩ := List.getElem?_eq_some_iff.mp h
  have hset : ((l.set k b).flatMap g).Perm (g b ++ (l.eraseIdx k).flatMap g) :=
    (List.set_perm_cons_eraseIdx hlt b).flatMap_right g
  have hget : (l.flatMap g).Perm (g a ++ (l.eraseIdx k).flatMap g) := by
    rw [← ha]
    exact (List.getElem_cons_eraseIdx_perm hlt).symm.flatMap_right g
  refine (hset.append_left _).trans ((List.perm_append_comm_assoc ..).trans ?_)
  exact hget.symm.append_left _

theorem sum_set_add {l : List Nat} {k a : Nat} (h : l[k]? = some a) (b : Nat) :
    (l.set k b).sum + a = l.sum + b := by
  induction l generalizing k with
  | nil => cases h
  | cons c l ih =>
      cases k with
      | zero =>
          cases h
          rw [List.set_cons_zero, List.sum_cons, List.sum_cons]
          omega
      | succ k =>
          rw [List.set_cons_succ, List.sum_cons, List.sum_cons]
          have hi := ih h
          omega

/-- An increasing list of numbers below a bound leaves room for its length. -/
theorem add_length_lt {x n : Nat} {l : List Nat} (h : (x :: l).Pairwise (· < ·))
    (hn : ∀ y ∈ x :: l, y < n) : x + l.length < n := by
  induction l generalizing x with
  | nil => exact hn x List.mem_cons_self
  | cons y l ih =>
      obtain ⟨hx, hl⟩ := List.pairwise_cons.mp h
      have hlt := ih hl fun z hz => hn z (List.mem_cons_of_mem _ hz)
      have hxy := hx y List.mem_cons_self
      rw [List.length_cons]
      omega

/-- Two predicates that hold often enough hold of one element. -/
theorem exists_of_countP {α : Type} {p q : α → Bool} {l : List α}
    (h : l.length < l.countP p + l.countP q) : ∃ x ∈ l, p x = true ∧ q x = true := by
  by_contra hno
  push Not at hno
  refine Nat.not_le.mpr h ?_
  clear h
  induction l with
  | nil => exact Nat.le_refl _
  | cons x l ih =>
      have ih := ih fun y hy => hno y (List.mem_cons_of_mem _ hy)
      have hx := hno x List.mem_cons_self
      rw [List.countP_cons, List.countP_cons, List.length_cons]
      by_cases hp : p x = true
      · rw [if_pos hp, if_neg (hx hp)]
        omega
      · rw [if_neg hp]
        split <;> omega

/-- What a partial function gives on a list, counted by the places. -/
theorem length_filterMap_eq_countP_range {α β : Type} (f : α → Option β) (l : List α) :
    (l.filterMap f).length = (List.range l.length).countP fun i => (l[i]?.bind f).isSome := by
  induction l with
  | nil => rfl
  | cons a l ih =>
      rw [List.length_cons, List.range_succ_eq_map, List.countP_cons, List.countP_map,
        List.filterMap_cons]
      change _ = (List.range l.length).countP (fun i => (l[i]?.bind f).isSome) +
        if (f a).isSome = true then 1 else 0
      rw [← ih]
      cases f a with
      | none => rfl
      | some b => rfl

theorem countP_mono {p q : Nat → Bool} {n : Nat} (h : ∀ x < n, p x = true → q x = true) :
    (List.range n).countP p ≤ (List.range n).countP q :=
  List.countP_mono_left fun x hx => h x (List.mem_range.mp hx)

end Ubft
