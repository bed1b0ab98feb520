import Mathlib

/-!
# Support — Bytes

Byte strings and little-endian integers, as `reinterpret_cast` reads them on the machines the
source runs on.
-/

namespace Ubft

/-- The memory of the source, byte by byte. -/
abbrev Bytes := List UInt8

/-- `x` on `w` bytes, the least significant first. -/
def le : Nat → Nat → Bytes
  | 0, _ => []
  | w + 1, x => UInt8.ofNat x :: le w (x / 256)

/-- The integer a byte string holds, the least significant byte first. -/
def ofLe : Bytes → Nat
  | [] => 0
  | b :: bs => b.toNat + 256 * ofLe bs

@[simp] theorem length_le (w x : Nat) : (le w x).length = w := by
  induction w generalizing x with
  | zero => rfl
  | succ w ih => simp only [le, List.length_cons, ih]

/-- A number is read back modulo its width. -/
theorem ofLe_le (w x : Nat) : ofLe (le w x) = x % 256 ^ w := by
  induction w generalizing x with
  | zero => simp [le, ofLe, Nat.mod_one]
  | succ w ih =>
      have hb : (UInt8.ofNat x).toNat = x % 256 := by simp
      rw [le, ofLe, ih, hb, Nat.pow_succ, Nat.mul_comm (256 ^ w) 256, Nat.mod_mul]

/-- A number that fits is read back. -/
theorem ofLe_le_of_lt {w x : Nat} (h : x < 256 ^ w) : ofLe (le w x) = x := by
  rw [ofLe_le, Nat.mod_eq_of_lt h]

/-- A byte string is read back from the integer it holds. -/
theorem le_ofLe (bs : Bytes) : le bs.length (ofLe bs) = bs := by
  induction bs with
  | nil => rfl
  | cons b bs ih =>
      have hb : UInt8.ofNat (b.toNat + 256 * ofLe bs) = b := by
        refine UInt8.toNat_inj.mp ?_
        rw [UInt8.toNat_ofNat', Nat.add_mul_mod_self_left]
        exact Nat.mod_eq_of_lt b.toNat_lt
      have hdiv : (b.toNat + 256 * ofLe bs) / 256 = ofLe bs := by
        have := b.toNat_lt
        omega
      rw [List.length_cons, ofLe, le, hb, hdiv, ih]

theorem ofLe_lt (bs : Bytes) : ofLe bs < 256 ^ bs.length := by
  induction bs with
  | nil => exact Nat.one_pos
  | cons b bs ih =>
      have hb := b.toNat_lt
      rw [ofLe, List.length_cons, Nat.pow_succ']
      omega

/-- The first bytes are the low ones. -/
theorem ofLe_append (xs ys : Bytes) : ofLe (xs ++ ys) = ofLe xs + 256 ^ xs.length * ofLe ys := by
  induction xs with
  | nil => simp [ofLe]
  | cons x xs ih =>
      rw [List.cons_append, ofLe, ofLe, ih, List.length_cons, Nat.pow_succ', Nat.mul_add,
        Nat.mul_assoc, Nat.add_assoc]

end Ubft
