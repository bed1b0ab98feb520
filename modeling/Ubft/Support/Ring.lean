import Mathlib

/-!
# Support — Ring

Writes numbered `0, 1, …` to a ring of `n` slots, the `m`-th one to the slot `m % n`.  `Holds` tells
which of them can still be read: those below `hi`, except the ones that may have been overwritten
by the writes below `lo`.
-/

namespace Ubft.Ring

variable {α : Type} {n lo hi lo' hi' m m' : Nat} {f : Nat → α} {P P' : Nat → α → Prop}

/-- Two writes less than a lap apart are in different slots. -/
theorem mod_ne (h : m < m') (h' : m' < m + n) : m % n ≠ m' % n := by
  intro he
  have hd : n ∣ m' - m := Nat.dvd_of_mod_eq_zero (Nat.sub_mod_eq_zero_of_mod_eq he.symm)
  exact absurd (Nat.le_of_dvd (Nat.sub_pos_of_lt h) hd) (by omega)

/-- Two writes in one slot are a lap apart. -/
theorem add_le_of_mod_eq (he : m % n = m' % n) (h : m < m') : m + n ≤ m' :=
  Nat.not_lt.mp fun hlt => mod_ne h hlt he

/-- Less than a lap apart, a place tells the number. -/
theorem eq_of_mod_eq (he : m % n = m' % n) (h : m < m' + n) (h' : m' < m + n) : m = m' := by
  rcases Nat.lt_trichotomy m m' with hlt | heq | hlt
  · exact absurd he (mod_ne hlt h')
  · exact heq
  · exact absurd he.symm (mod_ne hlt h)

/-- The last of the first `hi` writes to a slot. -/
theorem exists_newest (hn : 0 < n) {i : Nat} (hi' : i < n) (h : i < hi) :
    ∃ m < hi, hi ≤ m + n ∧ m % n = i := by
  have hm : (hi - 1 - i) / n * n ≤ hi - 1 - i := Nat.div_mul_le_self _ _
  have hlt := Nat.lt_div_mul_add (a := hi - 1 - i) hn
  refine ⟨i + (hi - 1 - i) / n * n, by omega, by omega, ?_⟩
  rw [Nat.add_mul_mod_self_right, Nat.mod_eq_of_lt hi']

/-- The writes below `hi` can be read, if no write below `lo` is to their slot again. -/
def Holds (n lo hi : Nat) (f : Nat → α) (P : Nat → α → Prop) : Prop :=
  ∀ m < hi, lo ≤ m + n → P m (f (m % n))

theorem Holds.zero : Holds n lo 0 f P := nofun

theorem Holds.mono (h : Holds n lo hi f P) (hl : lo ≤ lo') (hh : hi' ≤ hi) :
    Holds n lo' hi' f P :=
  fun m hm hlm => h m (Nat.lt_of_lt_of_le hm hh) (Nat.le_trans hl hlm)

theorem Holds.imp (h : Holds n lo hi f P) (hP : ∀ m < hi, ∀ x, P m x → P' m x) :
    Holds n lo hi f P' :=
  fun m hm hlm => hP m hm _ (h m hm hlm)

/-- A slot changes in a way that does not matter. -/
theorem Holds.set (h : Holds n lo hi f P) {i : Nat} {x : α} (hx : ∀ m, P m (f i) → P m x) :
    Holds n lo hi (Function.update f i x) P := by
  intro m hm hl
  by_cases hi : m % n = i
  · rw [hi, Function.update_self]
    exact hx m (hi ▸ h m hm hl)
  · rw [Function.update_of_ne hi]
    exact h m hm hl

/-- A slot changes whose write is not to be read any more. -/
theorem Holds.update (h : Holds n lo hi f P) (hle : hi ≤ m') (hlt : m' < lo) (x : α) :
    Holds n lo hi (Function.update f (m' % n) x) P := by
  intro m hm hl
  rw [Function.update_of_ne (mod_ne (Nat.lt_of_lt_of_le hm hle) (Nat.lt_of_lt_of_le hlt hl))]
  exact h m hm hl

/-- The next write was made already. -/
theorem Holds.succ (h : Holds n lo hi f P) (hx : P hi (f (hi % n))) : Holds n lo (hi + 1) f P := by
  intro m hm hl
  rcases Nat.lt_succ_iff_lt_or_eq.mp hm with hm | rfl
  · exact h m hm hl
  · exact hx

/-- One more write. -/
theorem Holds.write (h : Holds n lo hi f P) (hlt : hi < lo) {x : α} (hx : P hi x) :
    Holds n lo (hi + 1) (Function.update f (hi % n) x) P :=
  (h.update (Nat.le_refl _) hlt x).succ (by rwa [Function.update_self])

end Ubft.Ring
