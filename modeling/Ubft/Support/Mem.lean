import Ubft.Support.Bytes

/-!
# Support — Mem

A memory without end, by address.  `load` and `store` are what a copy from and to an address does;
a load of what was stored is `load_store_self`, and one next to it is `load_store_of_apart`.
-/

namespace Ubft.Mem

variable {m m' : Nat → UInt8} {a a' n n' : Nat} {bs : Bytes}

/-- The `n` bytes at `a`. -/
def load (m : Nat → UInt8) (a n : Nat) : Bytes := (List.range n).map fun k => m (a + k)

/-- `m` with `bs` at `a`. -/
def store (m : Nat → UInt8) (a : Nat) (bs : Bytes) : Nat → UInt8 := fun i =>
  if a ≤ i ∧ i < a + bs.length then bs.getD (i - a) 0 else m i

@[simp] theorem length_load (m : Nat → UInt8) (a n : Nat) : (load m a n).length = n := by
  rw [load, List.length_map, List.length_range]

theorem getElem_load {k : Nat} (hk : k < (load m a n).length) : (load m a n)[k] = m (a + k) := by
  simp only [load, List.getElem_map, List.getElem_range]

/-- A load depends on its own bytes alone. -/
theorem load_congr (h : ∀ k < n, m' (a + k) = m (a + k)) : load m' a n = load m a n :=
  List.map_congr_left fun k hk => h k (List.mem_range.mp hk)

/-- Two loads in a row. -/
theorem load_add (m : Nat → UInt8) (a n n' : Nat) :
    load m a (n + n') = load m a n ++ load m (a + n) n' := by
  rw [load, load, load, List.range_add, List.map_append, List.map_map]
  exact congrArg _ (List.map_congr_left fun k _ => congrArg m (Nat.add_assoc a n k).symm)

/-- Two memories that hold the same bytes hold the same bytes among them. -/
theorem load_part {off k : Nat} (h : load m' a n = load m a n) (hk : off + k ≤ n) :
    load m' (a + off) k = load m (a + off) k := by
  obtain ⟨r, rfl⟩ := Nat.exists_eq_add_of_le hk
  rw [load_add, load_add, load_add, load_add] at h
  obtain ⟨h, -⟩ := List.append_inj h (by simp only [List.length_append, length_load])
  exact (List.append_inj h (by rw [length_load, length_load])).2

/-- A store changes its own bytes alone. -/
theorem store_of_not_mem {i : Nat} (h : i < a ∨ a + bs.length ≤ i) : store m a bs i = m i :=
  if_neg (by omega)

theorem store_add {k : Nat} (hk : k < bs.length) : store m a bs (a + k) = bs.getD k 0 := by
  rw [store, if_pos ⟨Nat.le_add_right a k, Nat.add_lt_add_left hk a⟩, Nat.add_sub_cancel_left]

theorem load_store_self (m : Nat → UInt8) (a : Nat) (bs : Bytes) :
    load (store m a bs) a bs.length = bs := by
  refine List.ext_getElem (length_load ..) fun k hk hk' => ?_
  rw [getElem_load, store_add hk', List.getD_eq_getElem?_getD, List.getElem?_eq_getElem hk',
    Option.getD_some]

/-- What is next to the bytes stored does not change. -/
theorem load_store_of_apart (m : Nat → UInt8) (h : a' + n ≤ a ∨ a + bs.length ≤ a') :
    load (store m a bs) a' n = load m a' n :=
  load_congr fun k hk => store_of_not_mem (by omega)

/-- A byte stored among those loaded. -/
theorem load_store_byte (m : Nat → UInt8) (a : Nat) {k n : Nat} (v : UInt8) :
    load (store m (a + k) [v]) a n = (load m a n).set k v := by
  refine List.ext_getElem (by rw [List.length_set, length_load, length_load]) fun i hi hi' => ?_
  rw [List.getElem_set]
  by_cases hik : k = i
  · subst hik
    rw [if_pos rfl, getElem_load]
    exact store_add (a := a + k) (k := 0) Nat.one_pos
  · rw [if_neg hik, getElem_load, getElem_load]
    refine store_of_not_mem ?_
    rw [List.length_singleton]
    omega

end Ubft.Mem
