import Ubft.Swmr.Quorums
import Ubft.Swmr.Regular

/-!
# Swmr — the hosts of the replicated register

A `Cell` is what the replicated register has of a register of one host.  It mirrors the one that
the writer, the memory and the readers of the host make together (`Mirrors`): a WRITE given to the
host, and its completion, are those of its writer, and nothing else changes the cell.

What the replicated register takes for granted of a READ of the host holds then
(`answered_of_reachable`): it finds a WRITE, not older than the last one completed when it began.
-/

namespace Ubft.Swmr.Replicated

variable {a : Bool} {c : Cell} {t t' : Swmr.State} {l : Swmr.Label}

/-- The WRITEs of the cell are those of the host after the first one of the constructor; in memory
the incarnations are two ahead. -/
structure Mirrors (c : Cell) (t : Swmr.State) : Prop where
  register : c.register = t.register
  written : t.written.drop 1 = c.written.map fun w => ⟨w.incarnation + 2, w.value⟩
  completed : t.completed = c.completed + 1

/-- The initial WRITEs are done. -/
theorem mirrors_start (size : Nat) : Mirrors (.start size) (.start size) := ⟨rfl, rfl, rfl⟩

/-! ### The steps -/

/-- **`pushToWriter`** does nothing, or what `write` of the host does. -/
theorem Mirrors.push {buffer : Bytes} (h : Mirrors c t) (hi : t.Inv) (ht : c.throws a = false) :
    ∃ t', (t' = t ∨ ∃ inc, c.toWrite = some inc ∧ t.write a buffer (some inc) = .ok t') ∧
      Mirrors (c.push a buffer) t' := by
  unfold Cell.throws at ht
  unfold Cell.push
  cases hw : c.toWrite with
  | none => exact ⟨t, .inl rfl, h⟩
  | some inc =>
      rw [hw] at ht
      simp only at ht ⊢
      by_cases hs : c.register.scheduled = true
      · rw [if_pos hs]
        exact ⟨t, .inl rfl, h⟩
      · rw [Bool.eq_false_iff.mpr hs, Bool.not_false, Bool.true_and] at ht
        rw [if_neg hs]
        cases hr : c.register.incarnate a (some inc) with
        | error e => rw [hr] at ht; cases ht
        | ok r =>
            refine ⟨{ t with
              register := { r.changeRemoteSubslot with
                content := buffer
                scheduled := true }
              stage := .queued
              written := t.written ++ [⟨inc.toNat + 2, buffer⟩] },
              .inr ⟨inc, rfl, ?_⟩, rfl, ?_, h.completed⟩
            · rw [h.register] at hs hr
              rw [Swmr.State.write, if_neg hs, hr]
              rfl
            · have hlen : 1 ≤ t.written.length :=
                Nat.le_trans (Nat.le_of_succ_le hi.pos) hi.landed_le
              rw [List.drop_append_of_le_length hlen, h.written, List.map_append]
              rfl

/-- The writer of the host polls a completion. -/
theorem Mirrors.complete (h : Mirrors c t) (hi : t.Inv) :
    Mirrors (if t.stage = .landed then c.complete else c) t.complete := by
  unfold Swmr.State.complete
  split
  · next hl =>
      have hs := hi.staged
      simp only [Swmr.State.Staged, hl] at hs
      rw [Cell.complete, if_pos (h.register ▸ hs.1)]
      exact ⟨by rw [← h.register], h.written, congrArg (· + 1) h.completed⟩
  · exact h

/-- The network and the readers leave the writer as it is. -/
theorem unchanged_of_next (hw : ∀ value custom, l ≠ .write value custom) (hc : l ≠ .complete)
    (hs : t.next a l = .ok t') :
    t'.register = t.register ∧ t'.written = t.written ∧ t'.completed = t.completed := by
  cases l with
  | write value custom => exact absurd rfl (hw value custom)
  | complete => exact absurd rfl hc
  | post => cases hs; unfold Swmr.State.post; split <;> exact ⟨rfl, rfl, rfl⟩
  | tear => cases hs; unfold Swmr.State.tear; split <;> exact ⟨rfl, rfl, rfl⟩
  | land => cases hs; unfold Swmr.State.land; split <;> exact ⟨rfl, rfl, rfl⟩
  | read => cases hs; exact ⟨rfl, rfl, rfl⟩
  | postRead k =>
      cases hs
      unfold Swmr.State.postRead
      split
      · exact ⟨rfl, rfl, rfl⟩
      · split <;> exact ⟨rfl, rfl, rfl⟩
  | sample k i =>
      cases hs
      unfold Swmr.State.sample
      split
      · exact ⟨rfl, rfl, rfl⟩
      · split <;> exact ⟨rfl, rfl, rfl⟩
  | pollRead k late =>
      simp only [Swmr.State.next, Swmr.State.pollRead] at hs
      split at hs
      · cases hs; exact ⟨rfl, rfl, rfl⟩
      · split at hs
        · split at hs
          · cases hs; exact ⟨rfl, rfl, rfl⟩
          · split at hs <;> cases hs
            exact ⟨rfl, rfl, rfl⟩
        · cases hs; exact ⟨rfl, rfl, rfl⟩

/-- Whatever the reader does changes no WRITE. -/
theorem Mirrors.next (h : Mirrors c t) (hw : ∀ value custom, l ≠ .write value custom)
    (hc : l ≠ .complete) (hs : t.next a l = .ok t') : Mirrors c t' := by
  obtain ⟨hr, hwr, hco⟩ := unchanged_of_next hw hc hs
  exact ⟨h.register.trans hr.symm, hwr ▸ h.written, hco ▸ h.completed⟩

/-! ### The answers -/

/-- The WRITEs of the cell, behind the initial ones. -/
theorem Mirrors.nth (h : Mirrors c t) {n : Nat} (hn : 1 ≤ n) :
    t.nth (n + 1) = c.written[n - 1]?.map fun w => ⟨w.incarnation + 2, w.value⟩ := by
  rw [← List.getElem?_map, ← h.written, List.getElem?_drop, Swmr.State.nth]
  congr 1
  omega

/-- The last WRITE that the host completed. -/
theorem Mirrors.acknowledged {ws : List Subslot} (h : Mirrors c t) (hh : c.History ws) :
    ∃ w, t.nth t.completed = some w ∧ w.incarnation = c.acknowledged + 2 := by
  obtain ⟨w, hw, ha⟩ := hh.acknowledged
  rw [h.completed, h.nth hh.pos, hw]
  exact ⟨_, rfl, congrArg (· + 2) ha.symm⟩

/-- **A READ of a host** during which at most one WRITE is in flight finds a WRITE of the cell,
not older than the last one that the host had completed when the READ began. -/
theorem answered_of_reachable
    (h : Reachable Swmr.State.Init (Swmr.State.Step a) (fun t l => t.Overlaps l ∧ t.Increments l) t)
    (hm : Mirrors c t) {rd : Read} (hrd : rd ∈ t.reads) {x y : Option Subslot}
    (hx : rd.samples 0 = some x) (hy : rd.samples 1 = some y) {found : Subslot}
    (hf : Swmr.State.bestSubslot none [x, y] = some found) {w : Subslot}
    (hw : t.nth rd.since = some w) : c.Answers (w.incarnation - 2) found := by
  have hi := Swmr.State.inv_of_reachable h
  have hp := (hi.reads rd hrd).posted_of_sample hx
  obtain ⟨b, hb⟩ := (hi.reads rd hrd).based hp
  obtain ⟨n, d, hbest, hbn, -, hd⟩ := hb.best hi hx hy
  cases hf.symm.trans hbest
  have hn : 2 ≤ n := Nat.le_trans hb.pos hbn
  obtain ⟨n, rfl⟩ : ∃ k, n = k + 1 := ⟨n - 1, by omega⟩
  have hget := hd
  rw [hm.nth (by omega)] at hget
  obtain ⟨v, hv, rfl⟩ := Option.map_eq_some_iff.mp hget
  refine ⟨v, List.mem_of_getElem? hv, ?_, rfl⟩
  -- the WRITE found comes after the one completed when the READ began
  have hle : w.incarnation ≤ v.incarnation + 2 := by
    rcases Nat.eq_zero_or_pos rd.since with h0 | h0
    · rw [h0] at hw
      exact hi.le (m := 1) hw hd (Nat.le_refl _) (Nat.le_of_succ_le hn)
    · exact hi.le hw hd h0 (Nat.le_trans hb.since hbn)
  exact Nat.sub_le_of_le_add hle

end Ubft.Swmr.Replicated
