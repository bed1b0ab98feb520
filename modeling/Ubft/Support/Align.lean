import Mathlib

/-!
# Support — Align

The least multiple of an alignment that is not below a number, on the naturals and as it is computed
with a mask on words of `w` bits (`land_neg`, `div_mul_mod`).  Intervals that are aligned and
disjoint are a rounded length apart (`add_alignUp_le`), so that the last one of a number of them is
as far as it is in an array (`exists_far`).
-/

namespace Ubft.Align

variable {a k m n w x y : Nat} {l : List Nat}

/-- The least multiple of `a` that is not below `n`. -/
def alignUp (n a : Nat) : Nat := (n + a - 1) / a * a

theorem dvd_alignUp (n a : Nat) : a ∣ alignUp n a := Nat.dvd_mul_left a _

/-- Aligning goes up, -/
theorem le_alignUp (ha : 0 < a) (n : Nat) : n ≤ alignUp n a := by
  have hlt := Nat.lt_div_mul_add (a := n + a - 1) ha
  unfold alignUp
  omega

/-- by less than the alignment, -/
theorem alignUp_lt (ha : 0 < a) (n : Nat) : alignUp n a < n + a := by
  have hle := Nat.div_mul_le_self (n + a - 1) a
  unfold alignUp
  omega

/-- to the first multiple. -/
theorem alignUp_le (ha : 0 < a) (hm : a ∣ m) (h : n ≤ m) : alignUp n a ≤ m := by
  obtain ⟨c, rfl⟩ := hm
  rw [alignUp, Nat.mul_comm a c]
  refine Nat.mul_le_mul_right a (Nat.le_of_lt_succ ((Nat.div_lt_iff_lt_mul ha).mpr ?_))
  rw [Nat.succ_mul, Nat.mul_comm c a]
  omega

theorem alignUp_add (ha : 0 < a) (hm : a ∣ m) (n : Nat) : alignUp (n + m) a = alignUp n a + m := by
  obtain ⟨c, rfl⟩ := hm
  have hpos : 1 ≤ n + a := Nat.le_add_left_of_le ha
  rw [alignUp, alignUp, show n + a * c + a - 1 = n + a - 1 + a * c by omega,
    Nat.add_mul_div_left _ _ ha, Nat.add_mul, Nat.mul_comm c a]

/-- Rounding up what was wrapped. -/
theorem alignUp_mod (ha : 0 < a) (h : a ∣ w) (n : Nat) : alignUp (n % w) a % w = alignUp n a % w := by
  have hsplit := alignUp_add ha (Nat.dvd_mul_right_of_dvd h (n / w)) (n % w)
  rw [Nat.mod_add_div] at hsplit
  rw [hsplit, Nat.add_mul_mod_self_left]

/-- Aligned numbers at least `n` apart. -/
theorem add_alignUp_le (ha : 0 < a) (hx : a ∣ x) (hy : a ∣ y) (h : x + n ≤ y) :
    x + alignUp n a ≤ y := by
  have hle := alignUp_le ha (Nat.dvd_sub hy hx) (Nat.le_sub_of_add_le' h)
  omega

/-- Rounding down commutes with wrapping at a multiple of the alignment. -/
theorem div_mul_mod (m : Nat) (h : a ∣ w) : m % w / a * a = m / a * a % w := by
  obtain ⟨q, rfl⟩ := h
  rcases Nat.eq_zero_or_pos a with rfl | ha
  · rw [Nat.mul_zero, Nat.mul_zero, Nat.zero_mod]
  · rw [Nat.mod_mul, Nat.add_mul_div_left _ _ ha, Nat.div_eq_of_lt (Nat.mod_lt m ha), Nat.zero_add,
      Nat.mul_comm a q, Nat.mul_mod_mul_right]

/-- Rounding down with a mask. -/
theorem land_neg (hx : x < 2 ^ w) (hk : k ≤ w) : x &&& (2 ^ w - 2 ^ k) = x / 2 ^ k * 2 ^ k := by
  have hmask : 2 ^ w - 2 ^ k = (2 ^ (w - k) - 1) <<< k := by
    rw [Nat.shiftLeft_eq, Nat.sub_mul, ← Nat.pow_add, Nat.sub_add_cancel hk, Nat.one_mul]
  rw [hmask, ← Nat.shiftRight_eq_div_pow, ← Nat.shiftLeft_eq]
  refine Nat.eq_of_testBit_eq fun i => ?_
  rw [Nat.testBit_and, Nat.testBit_shiftLeft, Nat.testBit_shiftLeft, Nat.testBit_two_pow_sub_one,
    Nat.testBit_shiftRight]
  by_cases hi : k ≤ i
  · rw [Nat.add_sub_cancel' hi]
    by_cases hiw : i < w
    · simp [hi, show i - k < w - k by omega]
    · have hpow : x < 2 ^ i := Nat.lt_of_lt_of_le hx (Nat.pow_le_pow_right (by decide) (by omega))
      simp [Nat.testBit_lt_two_pow hpow]
  · simp [hi]

/-- Numbers pairwise `n` apart reach as far as in an array. -/
theorem exists_far {lo : Nat} (hn : 0 < n) (hl : l ≠ []) (hlo : ∀ x ∈ l, lo ≤ x)
    (hp : l.Pairwise fun x y => x + n ≤ y ∨ y + n ≤ x) :
    ∃ x ∈ l, lo + (l.length - 1) * n ≤ x := by
  by_contra hno
  have hlt : ∀ x ∈ l, x < lo + (l.length - 1) * n := fun x hx =>
    Nat.not_le.mp fun hle => hno ⟨x, hx, hle⟩
  -- the places in the array are distinct, and there are too few of them
  have hnodup : (l.map fun x => (x - lo) / n).Nodup := by
    refine List.pairwise_map.mpr (hp.imp_of_mem fun {x y} hx hy hxy he => ?_)
    have hloX := hlo x hx
    have hloY := hlo y hy
    have hX := Nat.div_add_mod (x - lo) n
    have hY := Nat.div_add_mod (y - lo) n
    have hXlt := Nat.mod_lt (x - lo) hn
    have hYlt := Nat.mod_lt (y - lo) hn
    rw [he] at hX
    omega
  have hsub : (l.map fun x => (x - lo) / n) ⊆ List.range (l.length - 1) := by
    intro q hq
    obtain ⟨x, hx, rfl⟩ := List.mem_map.mp hq
    have hlo' := hlo x hx
    have hlt' := hlt x hx
    exact List.mem_range.mpr ((Nat.div_lt_iff_lt_mul hn).mpr (by omega))
  have hlen := (hnodup.subperm hsub).length_le
  rw [List.length_map, List.length_range] at hlen
  have hpos := List.length_pos_iff.mpr hl
  omega

end Ubft.Align
