import Mathlib

/-!
# Support — Layout

Buffers, their fields at fixed offsets and their slots at computed ones.  `read` and `write` are
what a cast of an address followed by a load or a copy does; `fill` puts the items of a list in
successive slots.

What a write leaves alone is `Within`; a read is settled by `read_write` in the range written,
by `Within.read` outside, and by `fill_slot` in the slot of an item.
-/

namespace Ubft.Layout

universe u v

variable {α : Type u} {β : Type v} {b b' : List α} {off n : Nat} {xs : List α}

/-- The `n` elements at `off`. -/
def read (b : List α) (off n : Nat) : List α := (b.drop off).take n

/-- `b` with `xs` at `off`. -/
def write (b : List α) (off : Nat) (xs : List α) : List α :=
  b.take off ++ xs ++ b.drop (off + xs.length)

/-! ### Reads -/

theorem getElem?_read (b : List α) (off n k : Nat) :
    (read b off n)[k]? = if k < n then b[off + k]? else none := by
  rw [read, List.getElem?_take]
  split
  · rw [List.getElem?_drop]
  · rfl

theorem length_read (h : off + n ≤ b.length) : (read b off n).length = n := by
  rw [read, List.length_take, List.length_drop]
  omega

/-- A part depends on its own bytes alone. -/
theorem read_eq (h : ∀ k < n, b'[off + k]? = b[off + k]?) : read b' off n = read b off n := by
  refine List.ext_getElem? fun k => ?_
  rw [getElem?_read, getElem?_read]
  split
  · next hk => exact h k hk
  · rfl

/-- Two reads in a row. -/
theorem read_add (b : List α) (off m n : Nat) :
    read b off (m + n) = read b off m ++ read b (off + m) n := by
  rw [read, read, read, ← List.drop_drop, List.take_add]

@[simp] theorem read_zero_length (b : List α) : read b 0 b.length = b := by
  simp [read]

theorem read_take {m : Nat} (h : off + n ≤ m) : read (b.take m) off n = read b off n :=
  read_eq fun k hk => by rw [List.getElem?_take, if_pos (by omega)]

theorem read_append_left (h : off + n ≤ xs.length) (ys : List α) :
    read (xs ++ ys) off n = read xs off n := by
  refine read_eq fun k hk => ?_
  rw [List.getElem?_append_left (by omega)]

theorem read_append_right (xs ys : List α) (off n : Nat) :
    read (xs ++ ys) (xs.length + off) n = read ys off n := by
  rw [read, read, List.drop_length_add_append]

/-! ### Writes -/

theorem getElem?_write (h : off + xs.length ≤ b.length) (k : Nat) :
    (write b off xs)[k]? =
      if off ≤ k ∧ k < off + xs.length then xs[k - off]? else b[k]? := by
  have ht : (b.take off).length = off := by rw [List.length_take]; omega
  rw [write, List.append_assoc]
  by_cases h₁ : k < off
  · rw [List.getElem?_append_left (by omega), List.getElem?_take, if_pos h₁,
      if_neg (by omega)]
  · rw [List.getElem?_append_right (by omega), ht]
    by_cases h₂ : k < off + xs.length
    · rw [List.getElem?_append_left (by omega), if_pos (by omega)]
    · rw [List.getElem?_append_right (by omega), List.getElem?_drop, if_neg (by omega)]
      congr 1
      omega

theorem length_write (h : off + xs.length ≤ b.length) : (write b off xs).length = b.length := by
  simp only [write, List.length_append, List.length_take, List.length_drop]
  omega

/-- What was written is read back, any part of it. -/
theorem read_write_part (h : off + xs.length ≤ b.length) {k : Nat} (hk : k + n ≤ xs.length) :
    read (write b off xs) (off + k) n = read xs k n := by
  refine List.ext_getElem? fun i => ?_
  rw [getElem?_read, getElem?_read]
  split
  · rw [getElem?_write h, if_pos (by omega)]
    congr 1
    omega
  · rfl

theorem read_write (h : off + xs.length ≤ b.length) :
    read (write b off xs) off xs.length = xs := by
  have := read_write_part (k := 0) h (n := xs.length) (by omega)
  simpa using this

/-! ### What a write leaves alone -/

/-- `b'` is `b` but for what lies from `lo` to `hi`. -/
structure Within (lo hi : Nat) (b b' : List α) : Prop where
  length : b'.length = b.length
  outside : ∀ k, k < lo ∨ hi ≤ k → b'[k]? = b[k]?

namespace Within

variable {lo hi : Nat}

theorem refl (lo hi : Nat) (b : List α) : Within lo hi b b := ⟨rfl, fun _ _ => rfl⟩

theorem trans {b'' : List α} (h₁ : Within lo hi b b') (h₂ : Within lo hi b' b'') :
    Within lo hi b b'' :=
  ⟨h₂.length.trans h₁.length, fun k hk => (h₂.outside k hk).trans (h₁.outside k hk)⟩

theorem mono {lo' hi' : Nat} (h : Within lo hi b b') (hl : lo' ≤ lo) (hh : hi ≤ hi') :
    Within lo' hi' b b' :=
  ⟨h.length, fun k hk => h.outside k (by omega)⟩

theorem write (h : off + xs.length ≤ b.length) :
    Within off (off + xs.length) b (write b off xs) :=
  ⟨length_write h, fun k hk => by rw [getElem?_write h, if_neg (by omega)]⟩

/-- A write in the range. -/
theorem write_of_le (hl : lo ≤ off) (hh : off + xs.length ≤ hi) (h : hi ≤ b.length) :
    Within lo hi b (Layout.write b off xs) :=
  (Within.write (hh.trans h)).mono hl hh

/-- A part outside of what changed. -/
theorem read (h : Within lo hi b b') (hr : off + n ≤ lo ∨ hi ≤ off) :
    read b' off n = read b off n :=
  read_eq fun k hk => h.outside _ (by omega)

end Within

/-! ### Slots -/

/-- Puts the items in successive slots, the first one in the slot `i`. -/
def fill (put : List α → Nat → β → List α) (slot : Nat → Nat) :
    List α → Nat → List β → List α
  | b, _, [] => b
  | b, i, x :: xs => fill put slot (put b (slot i) x) (i + 1) xs

section Fill

variable {put : List α → Nat → β → List α} {slot : Nat → Nat} {width : Nat} {items : List β}

/-- Slots are one behind the other. -/
theorem slot_le (hslot : ∀ i, slot i + width ≤ slot (i + 1)) {i j : Nat} (h : i ≤ j) :
    slot i ≤ slot j :=
  monotone_nat_of_le_succ (fun i => (Nat.le_add_right _ _).trans (hslot i)) h

/-- Only the slots that are filled matter. -/
theorem fill_congr {slot' : Nat → Nat} {i : Nat}
    (h : ∀ k < items.length, slot' (i + k) = slot (i + k)) :
    fill put slot' b i items = fill put slot b i items := by
  induction items generalizing b i with
  | nil => rfl
  | cons x items ih =>
      have h₀ := h 0 (by rw [List.length_cons]; omega)
      rw [Nat.add_zero] at h₀
      rw [fill, fill, h₀]
      refine ih fun k hk => ?_
      rw [Nat.add_assoc, Nat.add_comm 1 k]
      exact h (k + 1) (by rw [List.length_cons]; omega)

/-- The slots that are filled are touched, and nothing else. -/
theorem fill_within (hslot : ∀ i, slot i + width ≤ slot (i + 1))
    (hput : ∀ x ∈ items, ∀ (b : List α) (off : Nat), off + width ≤ b.length →
      Within off (off + width) b (put b off x))
    {i : Nat} (hfit : slot (i + items.length) ≤ b.length) :
    Within (slot i) (slot (i + items.length)) b (fill put slot b i items) := by
  induction items generalizing b i with
  | nil => exact .refl _ _ _
  | cons x items ih =>
      have hidx : i + (x :: items).length = i + 1 + items.length := by
        rw [List.length_cons]; omega
      rw [hidx] at hfit ⊢
      have hnext : slot (i + 1) ≤ slot (i + 1 + items.length) := slot_le hslot (by omega)
      have hx := hput x List.mem_cons_self b (slot i) ((hslot i).trans (hnext.trans hfit))
      have hrest := ih (fun y hy => hput y (List.mem_cons_of_mem _ hy)) (b := put b (slot i) x)
        (i := i + 1) (by rw [hx.length]; exact hfit)
      exact (hx.mono le_rfl ((hslot i).trans hnext)).trans
        (hrest.mono (slot_le hslot (by omega)) le_rfl)

/-- **Slots.**  The slot of an item holds what putting it there left: `b₁` is the buffer the item
was put in, and the slots after it were not touched before. -/
theorem fill_slot (hslot : ∀ i, slot i + width ≤ slot (i + 1))
    (hput : ∀ x ∈ items, ∀ (b : List α) (off : Nat), off + width ≤ b.length →
      Within off (off + width) b (put b off x))
    {i : Nat} (hfit : slot (i + items.length) ≤ b.length) {j : Nat} {x : β}
    (hj : items[j]? = some x) :
    ∃ b₁, Within (slot i) (slot (i + j)) b b₁ ∧ ∀ off n, slot (i + j) ≤ off →
      off + n ≤ slot (i + j) + width →
      read (fill put slot b i items) off n = read (put b₁ (slot (i + j)) x) off n := by
  induction items generalizing b i j with
  | nil => simp at hj
  | cons y items ih =>
      have hidx : i + (y :: items).length = i + 1 + items.length := by
        rw [List.length_cons]; omega
      rw [hidx] at hfit
      have hnext : slot (i + 1) ≤ slot (i + 1 + items.length) := slot_le hslot (by omega)
      have hy := hput y List.mem_cons_self b (slot i) ((hslot i).trans (hnext.trans hfit))
      have hput' := fun z hz => hput z (List.mem_cons_of_mem _ hz)
      have hfit' : slot (i + 1 + items.length) ≤ (put b (slot i) y).length := by
        rw [hy.length]; exact hfit
      cases j with
      | zero =>
          obtain rfl : y = x := by simpa using hj
          refine ⟨b, .refl _ _ _, fun off n ho hn => ?_⟩
          -- the slots filled afterwards lie above this one
          exact (fill_within hslot hput' hfit').read (.inl (hn.trans (hslot i)))
      | succ j =>
          obtain ⟨b₁, hb₁, hread⟩ := ih hput' hfit' (by simpa using hj)
          rw [show i + 1 + j = i + (j + 1) by omega] at hb₁ hread
          refine ⟨b₁, ?_, hread⟩
          exact (hy.mono le_rfl ((hslot i).trans (slot_le hslot (by omega)))).trans
            (hb₁.mono (slot_le hslot (by omega)) le_rfl)

end Fill

/-- Slots that are filled to the brim leave nothing of the buffer between them. -/
theorem fill_exact (base : Nat) {encode : β → List α} {width : Nat} {items : List β}
    (hwidth : ∀ x ∈ items, (encode x).length = width) {i : Nat}
    (hfit : base + (i + items.length) * width ≤ b.length) :
    fill (fun b off x => write b off (encode x)) (fun i => base + i * width) b i items =
      b.take (base + i * width) ++ items.flatMap encode ++
        b.drop (base + (i + items.length) * width) := by
  induction items generalizing b i with
  | nil => simp [fill]
  | cons x items ih =>
      have hx := hwidth x List.mem_cons_self
      have hidx : i + (x :: items).length = i + 1 + items.length := by
        rw [List.length_cons]; omega
      have hnext : base + (i + 1) * width = base + i * width + (encode x).length := by
        rw [hx, Nat.succ_mul]; omega
      have hle : base + (i + 1) * width ≤ base + (i + 1 + items.length) * width :=
        Nat.add_le_add_left (Nat.mul_le_mul_right _ (by omega)) _
      rw [hidx] at hfit ⊢
      have hput : base + i * width + (encode x).length ≤ b.length := hnext ▸ hle.trans hfit
      rw [fill, ih (fun y hy => hwidth y (List.mem_cons_of_mem _ hy))
        (by rw [length_write hput]; exact hfit)]
      have htake : (write b (base + i * width) (encode x)).take (base + (i + 1) * width) =
          b.take (base + i * width) ++ encode x := by
        rw [hnext, write, List.take_append_of_le_length, List.take_of_length_le]
        all_goals simp only [List.length_append, List.length_take]; omega
      have hdrop : (write b (base + i * width) (encode x)).drop
          (base + (i + 1 + items.length) * width) =
          b.drop (base + (i + 1 + items.length) * width) := by
        refine List.ext_getElem? fun k => ?_
        rw [List.getElem?_drop, List.getElem?_drop, getElem?_write hput, if_neg (by omega)]
      rw [htake, hdrop, List.flatMap_cons, List.append_assoc (b.take _)]

end Ubft.Layout
