import Mathlib

/-!
# Support — Assoc

Unordered maps, as lists of their entries.  An entry that is found can be brought to the front
(`perm_of_lookup`), which is how a map is split at a key.
-/

namespace Ubft.Assoc

universe u v

variable {K : Type u} {V : Type v} [DecidableEq K] {l : List (K × V)} {k k' : K} {v : V}

/-- The entry is added if the key has none. -/
def tryEmplace (l : List (K × V)) (k : K) (v : V) : List (K × V) :=
  if (l.lookup k).isSome then l else l ++ [(k, v)]

/-- The first entry of the key is removed. -/
def erase (l : List (K × V)) (k : K) : List (K × V) := l.eraseP (fun e => e.1 == k)

/-- A key is found when it is there. -/
theorem lookup_isSome : (l.lookup k).isSome ↔ k ∈ l.map Prod.fst := by
  rw [List.lookup_isSome_iff, List.mem_map]
  exact ⟨fun ⟨p, hp, hk⟩ => ⟨p, hp, (beq_iff_eq.mp hk).symm⟩,
    fun ⟨p, hp, hk⟩ => ⟨p, hp, beq_iff_eq.mpr hk.symm⟩⟩

theorem lookup_eq_none : l.lookup k = none ↔ k ∉ l.map Prod.fst := by
  rw [← lookup_isSome, Option.not_isSome_iff_eq_none]

theorem tryEmplace_of_notMem (h : k ∉ l.map Prod.fst) : tryEmplace l k v = l ++ [(k, v)] := by
  rw [tryEmplace, if_neg fun hs => h (lookup_isSome.mp hs)]

theorem mem_tryEmplace {e : K × V} (h : e ∈ tryEmplace l k v) : e ∈ l ∨ e = (k, v) := by
  unfold tryEmplace at h
  split at h
  · exact .inl h
  · exact (List.mem_append.mp h).imp_right List.mem_singleton.mp

theorem mem_of_mem_erase {e : K × V} (h : e ∈ erase l k) : e ∈ l := List.mem_of_mem_eraseP h

theorem perm_of_lookup (h : l.lookup k = some v) : l.Perm ((k, v) :: erase l k) := by
  obtain ⟨l₁, l₂, rfl, hl₁⟩ := List.lookup_eq_some_iff.mp h
  have he : erase (l₁ ++ (k, v) :: l₂) k = l₁ ++ l₂ := by
    rw [erase, List.eraseP_append_right _ fun e hm hk =>
      bne_iff_ne.mp (hl₁ e hm) (beq_iff_eq.mp hk).symm, List.eraseP_cons_of_pos
        (by exact beq_self_eq_true k)]
  rw [he]
  exact List.perm_middle

theorem mem_of_lookup (h : l.lookup k = some v) : (k, v) ∈ l :=
  (perm_of_lookup h).mem_iff.mpr List.mem_cons_self

/-- Erasing changes no other key. -/
theorem lookup_erase_of_ne (h : k' ≠ k) : (erase l k).lookup k' = l.lookup k' := by
  induction l with
  | nil => rfl
  | cons e l ih =>
      obtain ⟨a, v⟩ := e
      rw [erase, List.eraseP_cons]
      by_cases ha : a = k
      · subst ha
        rw [beq_self_eq_true, cond_true, List.lookup_cons, beq_false_of_ne h]
      · have ih : (l.eraseP fun e => e.1 == k).lookup k' = l.lookup k' := ih
        rw [beq_false_of_ne ha, cond_false, List.lookup_cons, List.lookup_cons, ih]

theorem lookup_map_self {f : K → V} {ks : List K} (h : k ∈ ks) :
    (ks.map fun k => (k, f k)).lookup k = some (f k) := by
  induction ks with
  | nil => cases h
  | cons a ks ih =>
      rw [List.map_cons, List.lookup_cons]
      by_cases ha : k = a
      · rw [ha, beq_self_eq_true]
      · rw [beq_false_of_ne ha]
        exact ih ((List.mem_cons.mp h).resolve_left ha)

end Ubft.Assoc
