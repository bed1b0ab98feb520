import Mathlib

/-!
# Support — binary heaps

A heap is read through the priorities of its positions, `f : Nat → β`; a position that holds nothing
has the least of them.  `Ordered` is the heap order.  `UpTo f i` and `DownFrom f i` say that it
holds but for position `i`, which may be too high for its parent, or too low for its children: what
raising or lowering a priority leaves, and what an exchange along the path of a sift keeps.
-/

namespace Ubft.Heap

variable {β : Type*} [LinearOrder β] {f : Nat → β} {i j : Nat} {x : β}

/-- The node above `i` in a binary heap in an array. -/
def parent (i : Nat) : Nat := (i - 1) / 2

theorem parent_lt (h : 0 < i) : parent i < i := by
  unfold parent
  omega

theorem parent_eq_iff (h : 0 < j) : parent j = i ↔ j = 2 * i + 1 ∨ j = 2 * i + 2 := by
  unfold parent
  omega

/-- No position is higher than its parent. -/
def Ordered (f : Nat → β) : Prop :=
  ∀ i, 0 < i → f i ≤ f (parent i)

/-- The order but for `i`, which may be higher than its parent. -/
structure UpTo (f : Nat → β) (i : Nat) : Prop where
  except : ∀ j, 0 < j → j ≠ i → f j ≤ f (parent j)
  across : 0 < i → ∀ j, 0 < j → parent j = i → f j ≤ f (parent i)

/-- The order but for `i`, which may be lower than its children. -/
structure DownFrom (f : Nat → β) (i : Nat) : Prop where
  except : ∀ j, 0 < j → parent j ≠ i → f j ≤ f (parent j)
  across : 0 < i → ∀ j, 0 < j → parent j = i → f j ≤ f (parent i)

/-! ### The root -/

/-- Nothing is higher than the root. -/
theorem Ordered.le_root (h : Ordered f) (i : Nat) : f i ≤ f 0 := by
  induction i using Nat.strong_induction_on with
  | _ i ih =>
      rcases Nat.eq_zero_or_pos i with rfl | hi
      · exact le_refl _
      · exact (h i hi).trans (ih _ (parent_lt hi))

/-- A child is no higher than its grandparent. -/
theorem Ordered.grandparent (h : Ordered f) (hi : 0 < i) (hj : 0 < j) (hp : parent j = i) :
    f j ≤ f (parent i) := by
  have hle := h j hj
  rw [hp] at hle
  exact hle.trans (h i hi)

/-! ### Changing a priority -/

/-- A priority is raised. -/
theorem Ordered.raise (h : Ordered f) (hx : f i ≤ x) : UpTo (Function.update f i x) i where
  except j hj hne := by
    rw [Function.update_of_ne hne]
    by_cases hp : parent j = i
    · rw [hp, Function.update_self]
      exact (hp ▸ h j hj).trans hx
    · rw [Function.update_of_ne hp]
      exact h j hj
  across hi j hj hp := by
    have hji : j ≠ i := Nat.ne_of_gt (hp ▸ parent_lt hj)
    rw [Function.update_of_ne hji, Function.update_of_ne (Nat.ne_of_lt (parent_lt hi))]
    exact h.grandparent hi hj hp

/-- A priority is lowered. -/
theorem Ordered.lower (h : Ordered f) (hx : x ≤ f i) : DownFrom (Function.update f i x) i where
  except j hj hne := by
    rw [Function.update_of_ne hne]
    by_cases hji : j = i
    · subst hji
      rw [Function.update_self]
      exact hx.trans (h j hj)
    · rw [Function.update_of_ne hji]
      exact h j hj
  across hi j hj hp := by
    have hji : j ≠ i := Nat.ne_of_gt (hp ▸ parent_lt hj)
    rw [Function.update_of_ne hji, Function.update_of_ne (Nat.ne_of_lt (parent_lt hi))]
    exact h.grandparent hi hj hp

/-! ### Sifting -/

/-- A position that is not higher than its parent ends the way up. -/
theorem UpTo.ordered (h : UpTo f i) (hi : 0 < i → f i ≤ f (parent i)) : Ordered f := by
  intro j hj
  by_cases hji : j = i
  · subst hji
    exact hi hj
  · exact h.except j hj hji

/-- A position that is not lower than its children ends the way down. -/
theorem DownFrom.ordered (h : DownFrom f i) (hi : ∀ j, 0 < j → parent j = i → f j ≤ f i) :
    Ordered f := by
  intro j hj
  by_cases hp : parent j = i
  · rw [hp]
    exact hi j hj hp
  · exact h.except j hj hp

omit [LinearOrder β] in
theorem swap_apply (i j k : Nat) (f : Nat → β) :
    (f ∘ Equiv.swap i j) k = if k = i then f j else if k = j then f i else f k := by
  rw [Function.comp_apply, Equiv.swap_apply_def]
  split
  · rfl
  · split <;> rfl

/-- One exchange of the way up. -/
theorem UpTo.swap (h : UpTo f i) (hi : 0 < i) (hlt : f (parent i) < f i) :
    UpTo (f ∘ Equiv.swap i (parent i)) (parent i) where
  except j hj hne := by
    have hpi := parent_lt hi
    have hpj := parent_lt hj
    simp only [swap_apply]
    by_cases hji : j = i
    · subst hji
      rw [if_pos rfl, if_neg (Nat.ne_of_lt hpi), if_pos rfl]
      exact hlt.le
    · rw [if_neg hji, if_neg hne]
      by_cases hp : parent j = i
      · rw [if_pos hp]
        exact h.across hi j hj hp
      · rw [if_neg hp]
        split
        · next hpp => exact (hpp ▸ h.except j hj hji).trans hlt.le
        · exact h.except j hj hji
  across hpos j hj hp := by
    have hpi := parent_lt hi
    have hpp := parent_lt hpos
    have hup := h.except _ hpos (Nat.ne_of_lt hpi)
    simp only [swap_apply]
    rw [if_neg (show parent (parent i) ≠ i by omega), if_neg (Nat.ne_of_lt hpp)]
    split
    · exact hup
    · next hji =>
        rw [if_neg (Nat.ne_of_gt (hp ▸ parent_lt hj))]
        exact (hp ▸ h.except j hj hji).trans hup

/-- One exchange of the way down, with a highest child. -/
theorem DownFrom.swap (h : DownFrom f i) (hj : 0 < j) (hp : parent j = i) (hlt : f i < f j)
    (hmax : ∀ k, 0 < k → parent k = i → f k ≤ f j) : DownFrom (f ∘ Equiv.swap i j) j where
  except k hk hne := by
    have hij : i < j := hp ▸ parent_lt hj
    have hpk := parent_lt hk
    simp only [swap_apply]
    by_cases hki : k = i
    · subst hki
      rw [if_pos rfl, if_neg (Nat.ne_of_lt hpk), if_neg (by omega)]
      exact h.across hk j hj hp
    · rw [if_neg hki, if_neg hne]
      by_cases hkj : k = j
      · subst hkj
        rw [if_pos rfl, if_pos hp]
        exact hlt.le
      · rw [if_neg hkj]
        split
        · next hpi => exact hmax k hk hpi
        · next hpi => exact h.except k hk hpi
  across _ k hk hkp := by
    have hij : i < j := hp ▸ parent_lt hj
    have hjk : j < k := hkp ▸ parent_lt hk
    simp only [swap_apply]
    rw [if_neg (by omega), if_neg (Nat.ne_of_gt hjk), if_pos hp]
    exact hkp ▸ h.except k hk (by omega)

/-- The last position takes the place of the root. -/
theorem Ordered.pop [OrderBot β] {n : Nat} (h : Ordered f) (hbot : ∀ j, n < j → f j = ⊥) :
    DownFrom (Function.update (f ∘ Equiv.swap 0 n) n ⊥) 0 where
  except j hj hne := by
    by_cases hjn : j = n
    · rw [hjn, Function.update_self]
      exact bot_le
    · rw [Function.update_of_ne hjn, swap_apply, if_neg (Nat.ne_of_gt hj), if_neg hjn]
      by_cases hp : parent j = n
      · rw [hbot j (hp ▸ parent_lt hj)]
        exact bot_le
      · rw [Function.update_of_ne hp, swap_apply, if_neg hne, if_neg hp]
        exact h j hj
  across h := absurd h (Nat.lt_irrefl 0)

end Ubft.Heap
