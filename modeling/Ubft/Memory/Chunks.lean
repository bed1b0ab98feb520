import Ubft.Memory.PoolAllocator

/-!
# Memory — the chunks of a pool

Runs of `create` and `destroy`, with what the objects write to their own memory and others to theirs
in between.  `Sound` is what is promised of the objects that are live.

When the chunks fit in the address space (`Fits`) they are the cells of an array in the buffer, each
of them in the list of `PoolAllocator` or in use (`Threaded`).  The checks of the constructor do
not see to it: the products and the sums that they are made with wrap.  The links that it stores do:
in a buffer of the program, chunks that wrap would have links outside of it (`fits_of_new`), so that
every pool that is constructed is sound (`sound_of_new`).

Wherever a buffer is, as many objects as the pool is for, aligned and apart, are in it only if they
fit (`exists_far`): `Fits` is exactly when a pool is sound (`sound_iff`).
-/

namespace Ubft.Memory

open Align (alignUp)
open FreeList (Chain word setWord)

/-- A pool in use, and the addresses of the objects that are live. -/
structure State where
  pool : PoolAllocator
  mem : Contents
  live : List Nat := []

/-- `write` is what an object does in its own memory, and `elsewhere` what others do outside of the
chunks. -/
inductive Op where
  | create (v : Bytes)
  | destroy (obj : Nat) (v : Bytes)
  | write (obj off : Nat) (v : Bytes)
  | elsewhere (a : Nat) (v : Bytes)
  deriving DecidableEq

namespace State

/-- Callers create objects, destroy those that live, and write inside them. -/
def step (s : State) : Op → Option State
  | .create v =>
    if s.pool.T.size < v.length then none
    else
      let (obj, pool, mem) := s.pool.create s.mem v
      some { pool, mem, live := obj.toList ++ s.live }
  | .destroy obj v =>
    if obj ∈ s.live ∧ v.length ≤ s.pool.T.size then
      let (pool, mem) := s.pool.destroy s.mem obj v
      some { pool, mem, live := s.live.erase obj }
    else none
  | .write obj off v =>
    if obj ∈ s.live ∧ off + v.length ≤ s.pool.T.size then
      some { s with mem := Mem.store s.mem (obj + off) v }
    else none
  | .elsewhere a v =>
    if a + v.length ≤ s.pool.bufStart ∨ s.pool.remaining.1 ≤ a then
      some { s with mem := Mem.store s.mem a v }
    else none

/-- Creating asks for an object no larger than the pool's. -/
theorem step_create (s : State) {v : Bytes} (hv : v.length ≤ s.pool.T.size) :
    s.step (.create v) = some
      { pool := (s.pool.create s.mem v).2.1
        mem := (s.pool.create s.mem v).2.2
        live := (s.pool.create s.mem v).1.toList ++ s.live } :=
  if_neg (Nat.not_lt.mpr hv)

/-- The states of a pool that was constructed with `p` and `m`. -/
def Reaches (p : PoolAllocator) (m : Contents) : State → Prop :=
  Reachable (· = { pool := p, mem := m }) (fun s o s' => s.step o = some s') Always

end State

/-- A buffer of the program: not at the null address, and in the lower half of the address space, as
the upper half is not the program's. -/
structure Buffer where
  start : Nat
  size : Nat
  pos : 0 < start
  le : start + size ≤ 2 ^ 63

/-- The `n` bytes at `a` and the `k` bytes at `b`. -/
def Apart (a n b k : Nat) : Prop := a + n ≤ b ∨ b + k ≤ a

/-- The `n` bytes at `a` are in the buffer. -/
def Inside (a n start size : Nat) : Prop := start ≤ a ∧ a + n ≤ start + size

/-- What is promised of a pool in a buffer. -/
structure Sound (start size : Nat) (s : State) : Prop where
  disjoint : s.live.Pairwise fun x y =>
    Apart (s.pool.chunkOf x) s.pool.T.chunkSize (s.pool.chunkOf y) s.pool.T.chunkSize
  inside : ∀ x ∈ s.live, Inside (s.pool.chunkOf x) s.pool.T.chunkSize start size
  aligned : ∀ x ∈ s.live, s.pool.alignment ∣ x
  create : ∀ v, (s.pool.create s.mem v).1 = none ↔ s.live.length = s.pool.maxObjects
  remaining_apart : ∀ i < s.pool.maxObjects,
    Apart (PoolAllocator.chunkStart s.pool.bufStart i s.pool.stride) s.pool.T.chunkSize
      s.pool.remaining.1 s.pool.remaining.2
  remaining_inside : Inside s.pool.remaining.1 s.pool.remaining.2 start size

namespace PoolAllocator

/-- The chunks end in the address space, and the first one is not at the null address. -/
structure Fits (T : ObjectType) (start maxObjects alignment : Nat) : Prop where
  first_lt : first T start alignment < 2 ^ 64
  last : maxObjects = 0 ∨ 0 < first T start alignment ∧
    first T start alignment + strideOf T alignment * (maxObjects - 1) + T.chunkSize ≤ 2 ^ 64

/-- The chunk `i` of a pool, without wrapping. -/
def slot (p : PoolAllocator) (i : Nat) : Nat := p.bufStart + p.stride * i

/-- Where the pool's chunks start, without their headers. -/
def chunks (p : PoolAllocator) : List Nat := (List.range p.maxObjects).map p.slot

/-- Where the chunks end. -/
def chunksEnd (p : PoolAllocator) : Nat :=
  if p.maxObjects = 0 then p.bufStart + 1 else p.slot (p.maxObjects - 1) + p.T.chunkSize

/-- The chunks are an array in a buffer. -/
structure Laid (start size : Nat) (p : PoolAllocator) : Prop where
  bufNext : p.bufNext = start + size
  lt : start + size < 2 ^ 64
  le : start ≤ p.bufStart
  pos : 0 < p.maxObjects → 0 < p.bufStart
  chunksEnd_le : p.chunksEnd ≤ start + size
  stride_le : p.T.chunkSize ≤ p.stride
  aligned : p.alignment ∣ p.bufStart + p.T.headerSize
  stride_dvd : p.alignment ∣ p.stride

section

variable {T : ObjectType} {start size maxObjects alignment i j c d : Nat} {m : Contents}
  {p : PoolAllocator}

/-- A pool whose chunks fit is laid out. -/
theorem blank_laid (reference : Nat) (hpow : alignment.isPowerOfTwo) (hstart : start < 2 ^ 64)
    (hsize : size < 2 ^ 64)
    (hfirst : first T start alignment % 2 ^ 64 < (start + size) % 2 ^ 64)
    (hlast : trueEnd T (first T start alignment % 2 ^ 64) maxObjects (strideOf T alignment) <
      (start + size) % 2 ^ 64)
    (hfits : Fits T start maxObjects alignment) :
    Laid start size (blank T start size maxObjects reference alignment) := by
  have ha := Nat.pos_of_isPowerOfTwo hpow
  have hge := le_first T ha start
  rw [Nat.mod_eq_of_lt hfits.first_lt] at hfirst hlast
  -- a buffer that wraps would end before the first chunk
  have hlt : start + size < 2 ^ 64 := by omega
  rw [Nat.mod_eq_of_lt hlt] at hfirst hlast
  have hbuf : (blank T start size maxObjects reference alignment).bufStart =
      first T start alignment := Nat.mod_eq_of_lt hfits.first_lt
  refine ⟨Nat.mod_eq_of_lt hlt, hlt, hbuf.symm ▸ hge, fun hpos => ?_, ?_,
    chunkSize_le_strideOf T ha, ?_, Align.dvd_alignUp _ _⟩
  · rw [hbuf]
    exact (hfits.last.resolve_left (Nat.ne_of_gt hpos)).1
  · rw [chunksEnd, slot, hbuf]
    rw [trueEnd] at hlast
    split
    · exact hfirst
    · next hne =>
        have hmax : maxObjects ≠ 0 := hne
        have hend := (hfits.last.resolve_left hmax).2
        have hpos := T.chunkSize_pos
        rw [if_neg hmax, chunkStart, Nat.mod_eq_of_lt (by omega), Nat.mod_eq_of_lt (by omega)]
          at hlast
        change first T start alignment + strideOf T alignment * (maxObjects - 1) + T.chunkSize ≤ _
        omega
  · rw [hbuf]
    exact first_add_headerSize T ha start ▸ Align.dvd_alignUp _ _

@[simp] theorem chunks_setNext (p : PoolAllocator) (next : Nat) :
    chunks { p with next := next } = p.chunks := rfl

theorem mem_chunks : c ∈ p.chunks ↔ ∃ i < p.maxObjects, p.slot i = c := by
  rw [chunks, List.mem_map]
  simp only [List.mem_range]

namespace Laid

theorem setNext (h : Laid start size p) (next : Nat) : Laid start size { p with next := next } :=
  ⟨h.bufNext, h.lt, h.le, h.pos, h.chunksEnd_le, h.stride_le, h.aligned, h.stride_dvd⟩

/-- Chunks are one behind the other. -/
theorem slot_add_le (h : Laid start size p) (hij : i < j) : p.slot i + p.T.chunkSize ≤ p.slot j := by
  have hmul := Nat.mul_le_mul_left p.stride hij
  have hle := h.stride_le
  rw [Nat.mul_succ] at hmul
  unfold slot
  omega

/-- The last one ends where they all do. -/
theorem slot_add_le_chunksEnd (h : Laid start size p) (hi : i < p.maxObjects) :
    p.slot i + p.T.chunkSize ≤ p.chunksEnd := by
  rw [chunksEnd, if_neg (Nat.ne_of_gt (Nat.zero_lt_of_lt hi))]
  rcases Nat.eq_or_lt_of_le (Nat.le_sub_one_of_lt hi) with heq | hlt
  · rw [heq]
  · exact (h.slot_add_le hlt).trans (Nat.le_add_right _ _)

theorem chunkStart_eq (h : Laid start size p) (hi : i < p.maxObjects) :
    chunkStart p.bufStart i p.stride = p.slot i := by
  have hle := h.slot_add_le_chunksEnd hi
  have hend := h.chunksEnd_le
  have hlt := h.lt
  exact Nat.mod_eq_of_lt (by change p.slot i < _; omega)

/-- What is left is behind the chunks. -/
theorem remaining_eq (h : Laid start size p) :
    p.remaining = (p.chunksEnd, start + size - p.chunksEnd) := by
  have hle := h.chunksEnd_le
  have hlt := h.lt
  have hend : (trueEnd p.T p.bufStart p.maxObjects p.stride + 1) % 2 ^ 64 = p.chunksEnd := by
    unfold trueEnd
    split
    · next hzero =>
        rw [chunksEnd, if_pos hzero] at hle ⊢
        exact Nat.mod_eq_of_lt (by omega)
    · next hne =>
        rw [h.chunkStart_eq (Nat.sub_lt (Nat.pos_of_ne_zero hne) Nat.one_pos)]
        rw [chunksEnd, if_neg hne] at hle ⊢
        have hpos := p.T.chunkSize_pos
        omega
  rw [remaining, hend, subtract_of_le (h.bufNext ▸ hle), h.bufNext]

/-- Every chunk is in the buffer. -/
theorem chunk_inside (h : Laid start size p) (hc : c ∈ p.chunks) :
    p.bufStart ≤ c ∧ c + p.T.chunkSize ≤ p.chunksEnd ∧ Inside c p.T.chunkSize start size := by
  obtain ⟨i, hi, rfl⟩ := mem_chunks.mp hc
  have hle := h.slot_add_le_chunksEnd hi
  have hge : p.bufStart ≤ p.slot i := Nat.le_add_right _ _
  exact ⟨hge, hle, h.le.trans hge, hle.trans h.chunksEnd_le⟩

theorem le_chunksEnd (h : Laid start size p) : start ≤ p.chunksEnd := by
  have hle := h.le
  unfold chunksEnd slot
  split <;> omega

theorem chunk_pos (h : Laid start size p) (hc : c ∈ p.chunks) : 0 < c := by
  obtain ⟨i, hi, rfl⟩ := mem_chunks.mp hc
  exact Nat.lt_of_lt_of_le (h.pos (Nat.zero_lt_of_lt hi)) (Nat.le_add_right _ _)

theorem chunk_aligned (h : Laid start size p) (hc : c ∈ p.chunks) :
    p.alignment ∣ c + p.T.headerSize := by
  obtain ⟨i, hi, rfl⟩ := mem_chunks.mp hc
  rw [slot, Nat.add_right_comm]
  exact Nat.dvd_add h.aligned (Nat.dvd_mul_right_of_dvd h.stride_dvd i)

theorem chunk_apart (h : Laid start size p) (hc : c ∈ p.chunks) (hd : d ∈ p.chunks)
    (hne : c ≠ d) : Apart c p.T.chunkSize d p.T.chunkSize := by
  obtain ⟨i, hi, rfl⟩ := mem_chunks.mp hc
  obtain ⟨j, hj, rfl⟩ := mem_chunks.mp hd
  rcases Nat.lt_trichotomy i j with hij | rfl | hji
  · exact .inl (h.slot_add_le hij)
  · exact absurd rfl hne
  · exact .inr (h.slot_add_le hji)

theorem nodup_chunks (h : Laid start size p) : p.chunks.Nodup := by
  refine List.Nodup.map_on (fun i _ j _ he => ?_) List.nodup_range
  have hpos := p.T.chunkSize_pos
  rcases Nat.lt_trichotomy i j with hij | rfl | hji
  · have := h.slot_add_le hij
    omega
  · rfl
  · have := h.slot_add_le hji
    omega

/-- The object of a chunk. -/
theorem add_headerSize_lt (h : Laid start size p) (hc : c ∈ p.chunks) :
    c + p.T.headerSize < 2 ^ 64 := by
  have hin := (h.chunk_inside hc).2.2.2
  have hle := p.T.headerSize_add_size_le
  have hpos := p.T.size_pos
  have hlt := h.lt
  omega

end Laid

/-- From an object back to its chunk. -/
theorem chunkOf_add (p : PoolAllocator) (c : Nat) : p.chunkOf (c + p.T.headerSize) = c := by
  rw [chunkOf, subtract_of_le (Nat.le_add_left _ _), Nat.add_sub_cancel]

/-- The links are not in the memory of the objects. -/
theorem Laid.word_object (h : Laid start size p) (hc : c ∈ p.chunks) (hd : d ∈ p.chunks)
    (off : Nat) {v : Bytes} (hv : off + v.length ≤ p.T.size) :
    word (Mem.store m (c + p.T.headerSize + off) v) d = word m d := by
  have hhead := p.T.eight_le_headerSize
  have hle := p.T.headerSize_add_size_le
  refine FreeList.word_store_of_apart m ?_
  rcases eq_or_ne c d with rfl | hne
  · exact .inl (by omega)
  · rcases h.chunk_apart hc hd hne with hcd | hdc
    · exact .inr (by omega)
    · exact .inl (by omega)

end

end PoolAllocator

/-! ### What a run keeps -/

open PoolAllocator (Laid Fits first strideOf)

/-- The chunks are those in the list and those of the objects that are live. -/
structure Threaded (start size : Nat) (s : State) : Prop where
  laid : Laid start size s.pool
  lists : ∃ free used, Chain s.mem s.pool.next free ∧
    s.live = used.map (· + s.pool.T.headerSize) ∧ (free ++ used).Perm s.pool.chunks

section

variable {start size : Nat} {p : PoolAllocator} {m : Contents} {s s' : State}

theorem Laid.eight_apart (h : Laid start size p) {c d : Nat} (hc : c ∈ p.chunks)
    (hd : d ∈ p.chunks) (hne : c ≠ d) : c + 8 ≤ d ∨ d + 8 ≤ c := by
  have hhead := p.T.eight_le_headerSize
  have hle := p.T.headerSize_add_size_le
  rcases h.chunk_apart hc hd hne with hcd | hdc
  · exact .inl (by omega)
  · exact .inr (by omega)

/-- The chunks are all in the list once they are linked. -/
theorem threaded_linked (h : Laid start size p) :
    Threaded start size { pool := (p.linked m).1, mem := (p.linked m).2 } := by
  unfold PoolAllocator.linked
  split
  · next hzero =>
      refine ⟨h.setNext 0, [], [], rfl, rfl, ?_⟩
      rw [PoolAllocator.chunks, hzero]
      exact .refl _
  · next hne =>
      have hpos := Nat.pos_of_ne_zero hne
      have hmem : ∀ i < p.maxObjects,
          PoolAllocator.chunkStart p.bufStart i p.stride ∈ p.chunks := fun i hi =>
        PoolAllocator.mem_chunks.mpr ⟨i, hi, (h.chunkStart_eq hi).symm⟩
      have hchain := FreeList.chain_link (m := m)
        (fun i => PoolAllocator.chunkStart p.bufStart i p.stride) hpos
        (fun i hi => Nat.ne_of_gt (h.chunk_pos (hmem i hi)))
        (fun i hi => Nat.mod_lt _ (Nat.two_pow_pos 64)) (fun i hi j hj hij => by
          refine Laid.eight_apart h (hmem i hi) (hmem j hj) fun he => hij ?_
          have hslots : p.slot i = p.slot j := by
            rw [← h.chunkStart_eq hi, ← h.chunkStart_eq hj]
            exact he
          exact List.inj_on_of_nodup_map h.nodup_chunks (List.mem_range.mpr hi)
            (List.mem_range.mpr hj) hslots)
      have hchunks : (List.range p.maxObjects).map
          (fun i => PoolAllocator.chunkStart p.bufStart i p.stride) = p.chunks :=
        List.map_congr_left fun i hi => h.chunkStart_eq (List.mem_range.mp hi)
      have hzero : PoolAllocator.chunkStart p.bufStart 0 p.stride = p.bufStart := h.chunkStart_eq hpos
      rw [hchunks, hzero] at hchain
      refine ⟨h.setNext _, p.chunks, [], hchain, rfl, ?_⟩
      rw [List.append_nil]
      exact .refl _

namespace Threaded

/-- The memory of the links does not change. -/
theorem setMem (h : Threaded start size s) {m : Contents}
    (hw : ∀ c ∈ s.pool.chunks, word m c = word s.mem c) :
    Threaded start size { s with mem := m } := by
  obtain ⟨hlaid, free, used, hchain, hlive, hperm⟩ := h
  refine ⟨hlaid, free, used, hchain.congr fun c hc => hw c ?_, hlive, hperm⟩
  exact hperm.mem_iff.mp (List.mem_append_left _ hc)

/-- An object that is live, and its chunk. -/
theorem chunk_of_mem (h : Threaded start size s) {obj : Nat} (hobj : obj ∈ s.live) :
    s.pool.chunkOf obj ∈ s.pool.chunks ∧ obj = s.pool.chunkOf obj + s.pool.T.headerSize := by
  obtain ⟨hlaid, free, used, hchain, hlive, hperm⟩ := h
  rw [hlive] at hobj
  obtain ⟨c, hc, rfl⟩ := List.mem_map.mp hobj
  rw [PoolAllocator.chunkOf_add]
  exact ⟨hperm.mem_iff.mp (List.mem_append_right _ hc), rfl⟩

/-- What is written to an object leaves the links alone. -/
theorem write (h : Threaded start size s) {obj off : Nat} {v : Bytes} (hobj : obj ∈ s.live)
    (hv : off + v.length ≤ s.pool.T.size) :
    Threaded start size { s with mem := Mem.store s.mem (obj + off) v } := by
  obtain ⟨hc, hobj⟩ := h.chunk_of_mem hobj
  refine h.setMem fun d hd => ?_
  rw [hobj]
  exact h.laid.word_object hc hd off hv

/-- So does what is written outside of the pool. -/
theorem elsewhere (h : Threaded start size s) {a : Nat} {v : Bytes}
    (ha : a + v.length ≤ s.pool.bufStart ∨ s.pool.remaining.1 ≤ a) :
    Threaded start size { s with mem := Mem.store s.mem a v } := by
  refine h.setMem fun d hd => FreeList.word_store_of_apart _ ?_
  obtain ⟨hge, hle, -⟩ := h.laid.chunk_inside hd
  rw [h.laid.remaining_eq] at ha
  have hhead := s.pool.T.eight_le_headerSize
  have hsize := s.pool.T.headerSize_add_size_le
  rcases ha with ha | ha
  · exact .inr (by omega)
  · exact .inl (by dsimp only at ha; omega)

/-- An object takes the first chunk of the free list. -/
theorem create (h : Threaded start size s) {v : Bytes} (hv : v.length ≤ s.pool.T.size)
    {obj : Option Nat} {pool : PoolAllocator} {mem : Contents}
    (hc : s.pool.create s.mem v = (obj, pool, mem)) :
    Threaded start size { pool, mem, live := obj.toList ++ s.live } := by
  unfold PoolAllocator.create at hc
  split at hc
  · cases hc
    exact h
  · next hne =>
      cases hc
      obtain ⟨hlaid, free, used, hchain, hlive, hperm⟩ := h
      have hmem : ∀ c ∈ free, c ∈ s.pool.chunks := fun c hc =>
        hperm.mem_iff.mp (List.mem_append_left _ hc)
      obtain ⟨free', rfl, -⟩ := hchain.pop hne
      have hnext := hmem _ List.mem_cons_self
      have hobj : (s.pool.next + s.pool.T.headerSize) % 2 ^ 64 =
          s.pool.next + s.pool.T.headerSize := Nat.mod_eq_of_lt (hlaid.add_headerSize_lt hnext)
      -- the object is constructed before its link is read
      have hword : ∀ d ∈ s.pool.chunks,
          word (Mem.store s.mem (s.pool.next + s.pool.T.headerSize) v) d = word s.mem d :=
        fun d hd => hlaid.word_object hnext hd 0 (by rwa [Nat.zero_add])
      obtain ⟨cs, hcs, hchain⟩ := (hchain.congr fun c hc => hword c (hmem c hc)).pop hne
      obtain rfl := (List.cons.inj hcs).2
      rw [hobj]
      refine ⟨hlaid.setNext _, free', s.pool.next :: used, hchain, ?_, ?_⟩
      · rw [List.map_cons, ← hlive]
        rfl
      · rw [PoolAllocator.chunks_setNext]
        exact List.perm_middle.trans hperm

/-- Its chunk is put back in front. -/
theorem destroy (h : Threaded start size s) {obj : Nat} {v : Bytes} (hobj : obj ∈ s.live)
    (hv : v.length ≤ s.pool.T.size) :
    Threaded start size { pool := (s.pool.destroy s.mem obj v).1
                          mem := (s.pool.destroy s.mem obj v).2
                          live := s.live.erase obj } := by
  obtain ⟨hlaid, free, used, hchain, hlive, hperm⟩ := h
  have hmem : ∀ c ∈ free ++ used, c ∈ s.pool.chunks := fun c hc => hperm.mem_iff.mp hc
  rw [hlive] at hobj ⊢
  obtain ⟨c, hc, rfl⟩ := List.mem_map.mp hobj
  have hchunk := hmem c (List.mem_append_right _ hc)
  have hnodup := hperm.nodup_iff.mpr hlaid.nodup_chunks
  rw [PoolAllocator.destroy, PoolAllocator.chunkOf_add]
  have hchain' : Chain (Mem.store s.mem (c + s.pool.T.headerSize) v) s.pool.next free :=
    hchain.congr fun d hd => hlaid.word_object hchunk
      (hmem d (List.mem_append_left _ hd)) 0 (by rwa [Nat.zero_add])
  have hlt : ∀ d ∈ free, d < 2 ^ 64 := fun d hd =>
    Nat.lt_of_le_of_lt (Nat.le_add_right d _)
      (hlaid.add_headerSize_lt (hmem d (List.mem_append_left _ hd)))
  refine ⟨hlaid.setNext c, c :: free, used.erase c, ?_, ?_, ?_⟩
  · refine hchain'.push (hchain.head_lt hlt (Nat.two_pow_pos 64))
      (Nat.ne_of_gt (hlaid.chunk_pos hchunk)) fun d hd => ?_
    refine Laid.eight_apart hlaid (hmem d (List.mem_append_left _ hd)) hchunk ?_
    rintro rfl
    exact List.disjoint_of_nodup_append hnodup hd hc
  · exact (List.map_erase (fun _ _ he => Nat.add_right_cancel he) used).symm
  · rw [PoolAllocator.chunks_setNext]
    refine List.Perm.trans ?_ hperm
    exact List.perm_middle.symm.trans ((List.perm_cons_erase hc).symm.append_left free)

/-- **What a step keeps.** -/
theorem step (h : Threaded start size s) {o : Op} (hs : s.step o = some s') :
    Threaded start size s' := by
  cases o with
  | create v =>
      simp only [State.step] at hs
      split at hs
      · cases hs
      · next hv =>
          cases hs
          exact h.create (Nat.not_lt.mp hv) rfl
  | destroy obj v =>
      obtain ⟨⟨hobj, hv⟩, he⟩ := Option.ite_none_right_eq_some.mp hs
      cases he
      exact h.destroy hobj hv
  | write obj off v =>
      obtain ⟨⟨hobj, hv⟩, he⟩ := Option.ite_none_right_eq_some.mp hs
      cases he
      exact h.write hobj hv
  | elsewhere a v =>
      obtain ⟨ha, he⟩ := Option.ite_none_right_eq_some.mp hs
      cases he
      exact h.elsewhere ha

/-- **The objects that live are apart, inside and aligned.** -/
theorem sound (h : Threaded start size s) : Sound start size s := by
  obtain ⟨free, used, hchain, hlive, hperm⟩ := h.lists
  have hnodup := hperm.nodup_iff.mpr h.laid.nodup_chunks
  have hmem : ∀ c ∈ used, c ∈ s.pool.chunks := fun c hc =>
    hperm.mem_iff.mp (List.mem_append_right _ hc)
  refine ⟨?_, fun x hx => ?_, fun x hx => ?_, fun v => ?_, fun i hi => ?_, ?_⟩
  · rw [hlive, List.pairwise_map]
    refine (List.nodup_append'.mp hnodup).2.1.imp_of_mem fun {c d} hc hd hne => ?_
    rw [PoolAllocator.chunkOf_add, PoolAllocator.chunkOf_add]
    exact h.laid.chunk_apart (hmem c hc) (hmem d hd) hne
  · exact (h.laid.chunk_inside (h.chunk_of_mem hx).1).2.2
  · obtain ⟨hc, hx⟩ := h.chunk_of_mem hx
    exact hx ▸ h.laid.chunk_aligned hc
  · have hlength := hperm.length_eq
    rw [List.length_append, PoolAllocator.chunks, List.length_map, List.length_range] at hlength
    have hnone : (s.pool.create s.mem v).1 = none ↔ s.pool.next = 0 := by
      unfold PoolAllocator.create
      split
      · next hzero => exact iff_of_true rfl hzero
      · next hne => exact iff_of_false nofun hne
    rw [hnone, hchain.head_eq_zero_iff, hlive, List.length_map, ← List.length_eq_zero_iff]
    omega
  · rw [h.laid.remaining_eq, h.laid.chunkStart_eq hi]
    exact .inl (h.laid.slot_add_le_chunksEnd hi)
  · rw [h.laid.remaining_eq]
    have hle := h.laid.chunksEnd_le
    exact ⟨h.laid.le_chunksEnd, by dsimp only; omega⟩

theorem of_reaches (h : Threaded start size { pool := p, mem := m })
    (hr : State.Reaches p m s) : Threaded start size s := by
  refine Reachable.induct (P := Threaded start size) ?_ ?_ hr
  · rintro s rfl
    exact h
  · intro s o s' _ hs _ ho
    exact hs.step ho

end Threaded

/-! ### Room for the objects -/

/-- Only `next` changes when the chunks are linked. -/
theorem linked_fst (p : PoolAllocator) (m : Contents) :
    ∃ next, (p.linked m).1 = { p with next := next } ∧
      (p.maxObjects ≠ 0 → next = p.bufStart) := by
  unfold PoolAllocator.linked
  split
  · next hzero => exact ⟨0, rfl, fun hne => absurd hzero hne⟩
  · exact ⟨p.bufStart, rfl, fun _ => rfl⟩

/-- As many objects as the pool is for, if it is sound. -/
theorem exists_live (h : ∀ s, State.Reaches p m s → Sound start size s) {k : Nat}
    (hk : k ≤ p.maxObjects) :
    ∃ s next, State.Reaches p m s ∧ s.pool = { p with next := next } ∧ s.live.length = k ∧
      ∀ x ∈ s.live, x < 2 ^ 64 := by
  induction k with
  | zero => exact ⟨_, p.next, .init rfl, rfl, rfl, nofun⟩
  | succ k ih =>
      obtain ⟨s, next, hr, hpool, hlength, hlt⟩ := ih (Nat.le_of_succ_le hk)
      have hmax : s.pool.maxObjects = p.maxObjects := by rw [hpool]
      have hsome : (s.pool.create s.mem []).1 ≠ none := fun hnone => by
        have hfull := ((h s hr).create []).mp hnone
        omega
      have hnext : s.pool.next ≠ 0 := fun hzero => hsome (by
        rw [PoolAllocator.create, if_pos hzero])
      have hstep := s.step_create (v := []) (Nat.zero_le _)
      rw [PoolAllocator.create_of_ne_zero hnext] at hstep
      refine ⟨_, _, .step (l := .create []) hr trivial hstep, by rw [hpool],
        by rw [Option.toList_some, List.singleton_append, List.length_cons, hlength], ?_⟩
      intro x hx
      rcases List.mem_cons.mp hx with rfl | hx
      · exact Nat.mod_lt _ (Nat.two_pow_pos 64)
      · exact hlt x hx

theorem chunkOf_spec (p : PoolAllocator) {x : Nat} (hx : x < 2 ^ 64) :
    p.chunkOf x < 2 ^ 64 ∧ (p.chunkOf x + p.T.headerSize = x ∨
      p.chunkOf x + p.T.headerSize = x + 2 ^ 64) := by
  have hle := p.T.headerSize_add_size_le
  have hlt : p.T.chunkSize < 2 ^ 63 := p.T.sizeofChunk_lt
  unfold PoolAllocator.chunkOf PoolAllocator.subtract
  split <;> omega

/-- **Packing.**  The objects that are live are aligned and apart, so that the last one is where it
is in an array, or after. -/
theorem Sound.exists_far (h : Sound start size s) (hpow : s.pool.alignment.isPowerOfTwo)
    (halign : s.pool.alignment < 2 ^ 64) (hlive : s.live ≠ []) (hlt : ∀ x ∈ s.live, x < 2 ^ 64) :
    ∃ c < 2 ^ 64, first s.pool.T start s.pool.alignment +
        (s.live.length - 1) * strideOf s.pool.T s.pool.alignment ≤ c ∧
      c + s.pool.T.chunkSize ≤ start + size := by
  have ha := Nat.pos_of_isPowerOfTwo hpow
  have hdvd : s.pool.alignment ∣ 2 ^ 64 :=
    Nat.dvd_trans (PoolAllocator.dvd_of_isPowerOfTwo hpow halign) (Nat.pow_dvd_pow 2 (Nat.le_succ 63))
  have haligned : ∀ x ∈ s.live, s.pool.alignment ∣ s.pool.chunkOf x + s.pool.T.headerSize := by
    intro x hx
    rcases (chunkOf_spec s.pool (hlt x hx)).2 with heq | heq
    · rw [heq]
      exact h.aligned x hx
    · rw [heq]
      exact Nat.dvd_add (h.aligned x hx) hdvd
  have hpos : 0 < strideOf s.pool.T s.pool.alignment :=
    Nat.lt_of_lt_of_le s.pool.T.chunkSize_pos (PoolAllocator.chunkSize_le_strideOf _ ha)
  have hlo : ∀ y ∈ s.live.map fun x => s.pool.chunkOf x + s.pool.T.headerSize,
      first s.pool.T start s.pool.alignment + s.pool.T.headerSize ≤ y := by
    intro y hy
    obtain ⟨x, hx, rfl⟩ := List.mem_map.mp hy
    rw [PoolAllocator.first_add_headerSize _ ha]
    exact Align.alignUp_le ha (haligned x hx) (Nat.add_le_add_right (h.inside x hx).1 _)
  have hpairs : (s.live.map fun x => s.pool.chunkOf x + s.pool.T.headerSize).Pairwise fun y y' =>
      y + strideOf s.pool.T s.pool.alignment ≤ y' ∨ y' + strideOf s.pool.T s.pool.alignment ≤ y := by
    refine List.pairwise_map.mpr (h.disjoint.imp_of_mem fun {x x'} hx hx' hp => ?_)
    refine hp.imp (fun hle => ?_) (fun hle => ?_)
    · exact Align.add_alignUp_le ha (haligned x hx) (haligned x' hx') (by omega)
    · exact Align.add_alignUp_le ha (haligned x' hx') (haligned x hx) (by omega)
  obtain ⟨y, hy, hfar⟩ := Align.exists_far hpos (List.map_eq_nil_iff.not.mpr hlive) hlo hpairs
  obtain ⟨x, hx, rfl⟩ := List.mem_map.mp hy
  rw [List.length_map] at hfar
  exact ⟨s.pool.chunkOf x, (chunkOf_spec s.pool (hlt x hx)).1, by omega, (h.inside x hx).2⟩

end

section

variable {T : ObjectType} {start size maxObjects reference alignment : Nat} {m m' : Contents}
  {p : PoolAllocator} {s : State}

/-- A pool that fits is sound. -/
theorem sound_of_fits (hstart : start < 2 ^ 64) (hsize : size < 2 ^ 64)
    (halign : alignment < 2 ^ 64)
    (hnew : PoolAllocator.new T start size maxObjects reference alignment m = .ok (p, m'))
    (hfits : Fits T start maxObjects alignment) (hr : State.Reaches p m' s) :
    Sound start size s := by
  obtain ⟨hpow, hfirst, hlast, -, he⟩ := (PoolAllocator.new_eq_ok halign).mp hnew
  have hlaid := PoolAllocator.blank_laid reference hpow hstart hsize hfirst hlast hfits
  have hthreaded := threaded_linked (m := m) hlaid
  rw [← he] at hthreaded
  exact (hthreaded.of_reaches hr).sound

/-- A pool that is sound fits. -/
theorem fits_of_sound (hstart : start < 2 ^ 64) (hsize : size < 2 ^ 64)
    (halign : alignment < 2 ^ 64)
    (hnew : PoolAllocator.new T start size maxObjects reference alignment m = .ok (p, m'))
    (h : ∀ s, State.Reaches p m' s → Sound start size s) : Fits T start maxObjects alignment := by
  obtain ⟨hpow, hfirst, hlast, -, he⟩ := (PoolAllocator.new_eq_ok halign).mp hnew
  have ha := Nat.pos_of_isPowerOfTwo hpow
  obtain ⟨head, hp, hhead⟩ := linked_fst
    (PoolAllocator.blank T start size maxObjects reference alignment) m
  rw [← he] at hp
  obtain rfl : p = _ := hp
  have hge := PoolAllocator.le_first T ha start
  have hadd := PoolAllocator.first_lt_add T ha start
  have hhalf : alignment ≤ 2 ^ 63 :=
    Nat.le_of_dvd (Nat.two_pow_pos 63) (PoolAllocator.dvd_of_isPowerOfTwo hpow halign)
  rcases Nat.eq_zero_or_pos maxObjects with rfl | hmax
  · -- what is left of the buffer starts after the place of the first chunk
    have hin := (h _ (.init rfl)).remaining_inside.1
    change start ≤ (first T start alignment % 2 ^ 64 + 1) % 2 ^ 64 at hin
    exact ⟨by omega, .inl rfl⟩
  · have hne : maxObjects ≠ 0 := Nat.ne_of_gt hmax
    obtain ⟨s, next, hr, hpool, hlength, hlt⟩ := exists_live h (Nat.le_refl _)
    have hlength' : s.live.length = maxObjects := hlength
    have hlive : s.live ≠ [] := List.ne_nil_of_length_pos (hlength' ▸ hmax)
    have hpow' : s.pool.alignment.isPowerOfTwo := by rw [hpool]; exact hpow
    have halign' : s.pool.alignment < 2 ^ 64 := by rw [hpool]; exact halign
    obtain ⟨c, hc, hfar, hend⟩ := (h s hr).exists_far hpow' halign' hlive hlt
    rw [hlength', hpool] at hfar
    rw [hpool] at hend
    change first T start alignment + (maxObjects - 1) * strideOf T alignment ≤ c at hfar
    change c + T.chunkSize ≤ start + size at hend
    have hfirst_lt : first T start alignment < 2 ^ 64 := by omega
    rw [Nat.mod_eq_of_lt hfirst_lt] at hfirst
    rw [Nat.mul_comm] at hfar
    refine ⟨hfirst_lt, .inr ⟨Nat.pos_of_ne_zero fun hzero => ?_, by omega⟩⟩
    -- the first chunk would be the null pointer
    have hcreate := ((h _ (.init rfl)).create []).mp (by
      rw [PoolAllocator.create, if_pos]
      change head = 0
      rw [hhead hne]
      change first T start alignment % 2 ^ 64 = 0
      rw [hzero, Nat.zero_mod])
    exact hne hcreate.symm

/-- In any buffer, a pool is sound if and only if its chunks fit in the address space. -/
theorem sound_iff (hstart : start < 2 ^ 64) (hsize : size < 2 ^ 64) (halign : alignment < 2 ^ 64)
    (hnew : PoolAllocator.new T start size maxObjects reference alignment m = .ok (p, m')) :
    (∀ s, State.Reaches p m' s → Sound start size s) ↔ Fits T start maxObjects alignment :=
  ⟨fits_of_sound hstart hsize halign hnew,
    fun hfits _ hr => sound_of_fits hstart hsize halign hnew hfits hr⟩

/-- A pool that is constructed in a buffer of the program fits: the first chunk is in the lower half
of the address space, and no stride is larger than the other half, so that the link of the first
chunk to wrap would be below the buffer, and that of the one before it above. -/
theorem fits_of_new {b : Buffer} {r : PoolAllocator × Contents} (halign : alignment < 2 ^ 64)
    (hnew : PoolAllocator.new T b.start b.size maxObjects reference alignment m = .ok r) :
    Fits T b.start maxObjects alignment := by
  obtain ⟨hpow, -, -, hlinks, -⟩ := (PoolAllocator.new_eq_ok halign).mp hnew
  have ha := Nat.pos_of_isPowerOfTwo hpow
  have hpos := b.pos
  have hle := b.le
  have hge := PoolAllocator.le_first T ha b.start
  have hadd := PoolAllocator.first_lt_add T ha b.start
  have hstride := PoolAllocator.strideOf_le T hpow halign
  have hhalf : alignment ≤ 2 ^ 63 :=
    Nat.le_of_dvd (Nat.two_pow_pos 63) (PoolAllocator.dvd_of_isPowerOfTwo hpow halign)
  have hfirst : first T b.start alignment < 2 ^ 64 := by omega
  rw [Nat.mod_eq_of_lt hfirst] at hlinks
  -- by induction, no link wraps
  have hlt : ∀ i < maxObjects,
      first T b.start alignment + strideOf T alignment * i + 8 ≤ 2 ^ 63 := by
    intro i
    induction i with
    | zero =>
        intro hi
        have hlink := (hlinks 0 hi).2
        rw [PoolAllocator.chunkStart, Nat.mod_eq_of_lt (by omega)] at hlink
        exact hlink.trans hle
    | succ i ih =>
        intro hi
        have hprev := ih (Nat.lt_of_succ_lt hi)
        have hlink := (hlinks (i + 1) hi).2
        rw [PoolAllocator.chunkStart, Nat.mul_succ, Nat.mod_eq_of_lt (by omega)] at hlink
        rw [Nat.mul_succ]
        exact hlink.trans hle
  refine ⟨hfirst, (Nat.eq_zero_or_pos maxObjects).imp_right fun hmax => ⟨by omega, ?_⟩⟩
  have hlast := hlt (maxObjects - 1) (Nat.sub_lt hmax Nat.one_pos)
  have hchunk : T.chunkSize < 2 ^ 63 := T.sizeofChunk_lt
  omega

end

namespace Example

end Example

end Ubft.Memory
