import Ubft.Memory.Chunks

/-!
# Memory — the pools of an arena

Where the pools are that an `ArenaPoolAllocator` creates one after another in a buffer of the program
(`createPools_apart`), and how large a buffer has to be for a pool
(`new_of_alignedSpaceRequirement`).
-/

namespace Ubft.Memory

open PoolAllocator (Laid first strideOf)

/-- A pool to be created. -/
structure Request where
  T : ObjectType
  maxObjects : Nat
  alignment : Nat

namespace Arena

variable {a a' : Arena} {T : ObjectType} {maxObjects alignment : Nat} {m m' : Contents}
  {p : PoolAllocator} {reqs : List Request} {ps : List PoolAllocator}

/-- The pools that the requests get, in order. -/
def createPools (a : Arena) (m : Contents) :
    List Request → Except PoolError (List PoolAllocator × Arena × Contents)
  | [] => .ok ([], a, m)
  | r :: reqs => do
    let (p, a, m) ← a.createPool r.T r.maxObjects r.alignment m
    let (ps, a, m) ← createPools a m reqs
    return (p :: ps, a, m)

/-- The pool has the first part of what was left of the buffer. -/
theorem laid_createPool (halign : alignment < 2 ^ 64) (hpos : 0 < a.bufNext)
    (hle : a.bufNext + a.bufSize ≤ 2 ^ 63)
    (h : a.createPool T maxObjects alignment m = .ok (p, a', m')) :
    Laid a.bufNext a.bufSize p ∧ a'.bufNext = p.chunksEnd ∧
      a'.bufNext + a'.bufSize = a.bufNext + a.bufSize := by
  obtain ⟨⟨p₁, m₁⟩, hnew, he⟩ := map_eq_ok.mp h
  have hfits := fits_of_new (b := ⟨a.bufNext, a.bufSize, hpos, hle⟩) halign hnew
  obtain ⟨hpow, hfirst, hlast, -, hp⟩ := (PoolAllocator.new_eq_ok halign).mp hnew
  have hblank := PoolAllocator.blank_laid a.offsetReference hpow (by omega) (by omega) hfirst hlast
    hfits
  obtain ⟨next, hnext, -⟩ := linked_fst
    (PoolAllocator.blank T a.bufNext a.bufSize maxObjects a.offsetReference alignment) m
  rw [← hp] at hnext
  have hlaid : Laid a.bufNext a.bufSize p₁ := by
    rw [show p₁ = _ from hnext]
    exact hblank.setNext next
  cases he
  have hle := hlaid.chunksEnd_le
  rw [hlaid.remaining_eq]
  exact ⟨hlaid, rfl, Nat.add_sub_cancel' hle⟩

/-- **An arena** gives its pools disjoint parts of its buffer, in order. -/
theorem createPools_apart (hpos : 0 < a.bufNext) (hle : a.bufNext + a.bufSize ≤ 2 ^ 63)
    (hreqs : ∀ r ∈ reqs, r.alignment < 2 ^ 64)
    (h : a.createPools m reqs = .ok (ps, a', m')) :
    (∀ p ∈ ps, ∀ c ∈ p.chunks, a.bufNext ≤ c ∧ c + p.T.chunkSize ≤ a'.bufNext) ∧
      ps.Pairwise (fun p q => ∀ c ∈ p.chunks, ∀ d ∈ q.chunks, c + p.T.chunkSize ≤ d) ∧
      a.bufNext ≤ a'.bufNext ∧ a'.bufNext + a'.bufSize = a.bufNext + a.bufSize := by
  induction reqs generalizing a m ps with
  | nil =>
      cases h
      exact ⟨nofun, .nil, Nat.le_refl _, rfl⟩
  | cons r reqs ih =>
      obtain ⟨⟨p, a₁, m₁⟩, hp, h⟩ := bind_eq_ok.mp h
      obtain ⟨⟨ps', a₂, m₂⟩, hps, h⟩ := bind_eq_ok.mp h
      cases h
      obtain ⟨hlaid, hnext, hsum⟩ := laid_createPool (hreqs r List.mem_cons_self) hpos hle hp
      have hge : a.bufNext ≤ a₁.bufNext := hnext ▸ hlaid.le_chunksEnd
      obtain ⟨hin, hapart, hend, hsum'⟩ := ih (Nat.lt_of_lt_of_le hpos hge) (hsum ▸ hle)
        (fun r' hr' => hreqs r' (List.mem_cons_of_mem r hr')) hps
      have hfirst : ∀ c ∈ p.chunks, a.bufNext ≤ c ∧ c + p.T.chunkSize ≤ a₁.bufNext := fun c hc =>
        ⟨(hlaid.chunk_inside hc).2.2.1, hnext ▸ (hlaid.chunk_inside hc).2.1⟩
      refine ⟨fun q hq c hc => ?_, ?_, hge.trans hend, hsum'.trans hsum⟩
      · rcases List.mem_cons.mp hq with rfl | hq
        · exact ⟨(hfirst c hc).1, (hfirst c hc).2.trans hend⟩
        · exact ⟨hge.trans (hin q hq c hc).1, (hin q hq c hc).2⟩
      · refine List.pairwise_cons.mpr ⟨fun q hq c hc d hd => ?_, hapart⟩
        exact (hfirst c hc).2.trans (hin q hq d hd).1

end Arena

/-- A buffer of the size that `alignedSpaceRequirement` asks for is large enough, wherever it
starts. -/
theorem new_of_alignedSpaceRequirement {T : ObjectType}
    {start space maxObjects reference alignment : Nat} {m : Contents} (hpos : 0 < start)
    (halign : alignment < 2 ^ 64)
    (hlt : start + strideOf T alignment * maxObjects + alignment + T.headerSize < 2 ^ 64)
    (h : PoolAllocator.alignedSpaceRequirement T alignment maxObjects = .ok space)
    (hpow : alignment.isPowerOfTwo) :
    ∃ r, PoolAllocator.new T start space maxObjects reference alignment m = .ok r := by
  have ha := Nat.pos_of_isPowerOfTwo hpow
  have hadd := PoolAllocator.first_lt_add T ha start
  have hstride := PoolAllocator.chunkSize_le_strideOf T ha
  have hsize := T.chunkSize_pos
  have hge := PoolAllocator.le_first T ha start
  obtain ⟨required, hrequired, rfl⟩ := map_eq_ok.mp h
  -- both ends are before the end of the buffer
  have hends : first T start alignment % 2 ^ 64 <
        (start + (required + alignment + T.headerSize) % 2 ^ 64) % 2 ^ 64 ∧
      PoolAllocator.trueEnd T (first T start alignment % 2 ^ 64) maxObjects (strideOf T alignment) <
        (start + (required + alignment + T.headerSize) % 2 ^ 64) % 2 ^ 64 := by
    cases maxObjects with
    | zero =>
        cases hrequired
        rw [Nat.mul_zero] at hlt
        rw [PoolAllocator.trueEnd, if_pos rfl]
        exact ⟨by omega, by omega⟩
    | succ n =>
        obtain ⟨stride, hs, rfl⟩ := map_eq_ok.mp hrequired
        obtain ⟨-, rfl⟩ := (PoolAllocator.computeStride_eq_ok halign).mp hs
        rw [Nat.mul_succ] at hlt
        rw [PoolAllocator.trueEnd, PoolAllocator.trueEnd, if_neg n.succ_ne_zero,
          if_neg n.succ_ne_zero, PoolAllocator.chunkStart, PoolAllocator.chunkStart,
          Nat.add_sub_cancel, Nat.zero_add]
        exact ⟨by omega, by omega⟩
  -- then all chunks are in the buffer, and their links too
  have hfits : PoolAllocator.Fits T start maxObjects alignment := by
    refine ⟨by omega, (Nat.eq_zero_or_pos maxObjects).imp_right fun hmax => ⟨by omega, ?_⟩⟩
    obtain ⟨n, rfl⟩ := Nat.exists_eq_succ_of_ne_zero (Nat.ne_of_gt hmax)
    rw [Nat.mul_succ] at hlt
    rw [Nat.succ_sub_one]
    omega
  have hlaid := PoolAllocator.blank_laid reference hpow (by omega)
    (Nat.mod_lt _ (Nat.two_pow_pos 64)) hends.1 hends.2 hfits
  refine ⟨_, (PoolAllocator.new_eq_ok halign).mpr ⟨hpow, hends.1, hends.2, fun i hi => ?_, rfl⟩⟩
  have hmem := PoolAllocator.mem_chunks.mpr ⟨i, hi, (hlaid.chunkStart_eq hi).symm⟩
  have hin := (hlaid.chunk_inside hmem).2.2
  have hlink : 8 ≤ T.chunkSize :=
    T.eight_le_headerSize.trans ((Nat.le_add_right _ _).trans T.headerSize_add_size_le)
  exact ⟨hin.1, (Nat.add_le_add_left hlink _).trans hin.2⟩

end Ubft.Memory
