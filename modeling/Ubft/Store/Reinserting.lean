import Ubft.Store.MapRuns

/-!
# Store — inserting a key again

`tryEmplace` tells a key that is present from a new one by comparing it with `min`, the key
inserted last.  Below `min` the entry is found and nothing changes; `min` itself is taken for a new
key, and its entry is overwritten and linked behind itself.  As long as that does not happen
(`Apart`) the map keeps its order, whatever the keys are (`kempt_of_reachable`), and of those
present `min` is the only one that cannot be inserted again (`UpTo.present_iff`).
-/

namespace Ubft

universe u

namespace VectorTailMap

variable {V : Type u} {r : VectorTailMap V} {l : List (Nat × V)} {key n : Nat} {v : V}

/-- An iteration ends, and visits the entries in order. -/
def Orderly (r : VectorTailMap V) : Prop :=
  ∃ l, r.entries = some l ∧ l.Pairwise (fun e e' => e.1 < e'.1) ∧
    ∀ key v, r.find? key = some v ↔ (key, v) ∈ l

/-- The elements, without the last one. -/
theorem UpTo.orderly (h : UpTo r l) (ht : 0 < r.tail) : r.Orderly :=
  ⟨l, h.holds.entries ht, h.holds.inLap.sorted, fun _ _ => h.holds.find?_eq_some⟩

/-- **A key that is there** is found again, or it is the last one and overwritten. -/
theorem UpTo.present_iff (h : UpTo r l) (hp : (r.find? key).isSome) (v : V) :
    r.tryEmplace key v = .ok (r, false) ↔ key ≠ r.min := by
  obtain ⟨w, hw⟩ := Option.isSome_iff_exists.mp hp
  have hle : key ≤ r.min := h.le_min _ (h.holds.find?_eq_some.mp hw)
  unfold tryEmplace
  split
  · next hlt =>
      rw [hw]
      exact ⟨fun _ => hlt.ne, fun _ => rfl⟩
  · next hge =>
      refine ⟨fun he => ?_, fun hne => absurd (lt_of_le_of_ne hle hne) hge⟩
      cases (congrArg (Except.map Prod.snd) he : Except.ok true = Except.ok false)

namespace Logged

variable {s s' : Logged V}

/-- The key inserted last is not inserted again as long as it is there. -/
def Apart (s : Logged V) : Op V → Prop
  | .tryEmplace key _ => key = s.map.min → s.map.find? key = none
  | .popFront | .clear => True

/-- What the map is in every such run. -/
def Kempt (n : Nat) (s : Logged V) : Prop := s.map.tail = n ∧ ∃ l, UpTo s.map l

theorem Kempt.step (h : Kempt n s) (hn : 0 < n) {o : Op V} (ho : s.Apart o)
    (hs : Step s o s') : Kempt n s' := by
  obtain ⟨rfl, l, hl⟩ := h
  cases o with
  | tryEmplace key v =>
      unfold Step next at hs
      dsimp only at hs
      split at hs
      · cases hs
      · next m b he =>
          cases hs
          unfold tryEmplace at he
          split at he
          · split at he
            · cases he
            · cases he
              exact ⟨rfl, l, hl⟩
          · next hge =>
              cases he
              have hmin := Nat.not_lt.mp hge
              refine ⟨?_, _, hl.insert hn hmin ?_ v⟩
              · exact (Holds.tail_emplaceBack ..).trans (Holds.tail_skip ..).1
              · cases hf : s.map.find? key with
                | none => rfl
                | some w =>
                    have hle : key ≤ s.map.min := hl.le_min _ (hl.holds.find?_eq_some.mp hf)
                    rw [← hf]
                    exact ho (le_antisymm hle hmin)
  | popFront =>
      unfold Step next at hs
      dsimp only at hs
      split at hs
      · cases hs
      · next e he =>
          cases hs
          obtain ⟨hh, hle⟩ := hl
          cases l with
          | nil =>
              rw [VectorTailMap.first?, hh.head] at he
              cases he
          | cons x l =>
              refine ⟨Holds.tail_popFront _, l, hh.popFront, fun e he => ?_⟩
              rw [Holds.min_popFront]
              exact hle e (List.mem_cons_of_mem _ he)
  | clear =>
      cases hs
      obtain ⟨hall, htail⟩ := hl.holds.popAll (hl.holds.inLap.length_le hn)
      exact ⟨htail, [], { hall with }, by rintro _ ⟨⟩⟩

/-- In every run whose keys are apart. -/
theorem kempt_of_reachable (hn : 0 < n) (h : Reachable (Init n) Step Apart s) : Kempt n s := by
  refine h.induct (P := Kempt n) ?_ fun s o s' _ hk ho hs => hk.step hn ho hs
  rintro s rfl
  exact ⟨rfl, [], ⟨trivial, nofun, rfl, rfl, .nil, .nil⟩, nofun⟩

end Logged

/-- A key that is there: it is below the last one, or it is inserted as if it were new. -/
theorem UpTo.cases (h : UpTo r l) (hp : (r.find? key).isSome) (v : V) :
    key ≠ r.min ∧ r.tryEmplace key v = .ok (r, false) ∨
      key = r.min ∧ ∃ r', r.tryEmplace key v = .ok (r', true) := by
  by_cases hk : key = r.min
  · exact .inr ⟨hk, _, if_neg (Nat.not_lt.mpr hk.ge)⟩
  · exact .inl ⟨hk, (h.present_iff hp v).mpr hk⟩

end VectorTailMap

end Ubft
