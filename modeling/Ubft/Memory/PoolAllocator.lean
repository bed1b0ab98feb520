import Ubft.Support.Align
import Ubft.Support.FreeList
import Ubft.Support.Runs

/-!
# Memory — the pool allocator

`pool-allocator.hpp`: a `PoolAllocator` cuts the buffer it is given in chunks, a link followed by an
object, and `create` and `destroy` take them from and return them to a list that is threaded through
the links.  An `ArenaPoolAllocator` gives each pool what the ones before it left of its buffer.

Addresses and sizes are on 64 bits: the sums and products below wrap.  The checks of the constructor
do not see to it, but it then stores the links, and a store outside of the buffer is a fault: what a
constructor that succeeds checked and stored is `new_eq_ok`.
-/

namespace Ubft.Memory

open Align (alignUp)
open FreeList (word setWord)

/-! ### Chunks -/

/-- `offsetof(Chunk<T>, obj)`: the object comes after a pointer. -/
def offsetOfObj (align : Nat) : Nat := alignUp 8 align

/-- `sizeof(Chunk<T>)`. -/
def sizeofChunk (size align : Nat) : Nat := alignUp (offsetOfObj align + size) (max 8 align)

/-- What the allocator knows of the type of its objects.  No type is larger than half of the address
space. -/
structure ObjectType where
  size : Nat
  align : Nat
  size_pos : 0 < size
  align_pos : 0 < align
  sizeofChunk_lt : sizeofChunk size align < 2 ^ 63

namespace ObjectType

/-- What stands in front of an object: the pointer of the free list, up to its alignment. -/
def headerSize (T : ObjectType) : Nat := offsetOfObj T.align

/-- An object and its header. -/
def chunkSize (T : ObjectType) : Nat := sizeofChunk T.size T.align

/-- A header has place for a pointer. -/
theorem eight_le_headerSize (T : ObjectType) : 8 ≤ T.headerSize := Align.le_alignUp T.align_pos 8

theorem headerSize_add_size_le (T : ObjectType) : T.headerSize + T.size ≤ T.chunkSize :=
  Align.le_alignUp (Nat.lt_of_lt_of_le (by decide) (Nat.le_max_left 8 T.align)) _

theorem chunkSize_pos (T : ObjectType) : 0 < T.chunkSize := by
  have hhead := T.eight_le_headerSize
  have hle := T.headerSize_add_size_le
  omega

end ObjectType

/-- What a constructor throws. -/
inductive PoolError where
  /-- "Not enough space to allocate after accounting for alignment!" -/
  | afterAlignment
  /-- "Not enough space to allocate ⟨max_objects⟩ objects!" -/
  | objects (maxObjects : Nat)
  /-- "Provided alignment is not a power of two!" -/
  | alignment
  /-- Nothing is thrown: a link is stored outside of the buffer. -/
  | fault (address : Nat)
  deriving DecidableEq, Repr

/-- What is in the memory, by address. -/
abbrev Contents := Nat → UInt8

/-- A pool of objects: where it lies, how far apart the objects are, and the head of its free list.
-/
structure PoolAllocator where
  T : ObjectType
  bufStart : Nat
  bufNext : Nat
  maxObjects : Nat
  offsetReference : Nat
  alignment : Nat
  stride : Nat
  next : Nat

namespace PoolAllocator

/-- `v && !(v & (v - 1))`. -/
def isPowerof2 (v : Nat) : Bool := decide (v ≠ 0) && decide (v &&& (v - 1) = 0)

/-- The mask is the alignment negated. -/
def roundUp (numToRound alignment : Nat) : Except PoolError Nat :=
  if isPowerof2 alignment then
    .ok ((numToRound + alignment - 1) % 2 ^ 64 &&& (2 ^ 64 - alignment))
  else .error .alignment

/-- `a - b`. -/
def subtract (a b : Nat) : Nat := if b ≤ a then a - b else a + 2 ^ 64 - b

/-- From an object to the next: the chunk, rounded up to the alignment. -/
def computeStride (T : ObjectType) (alignment : Nat) : Except PoolError Nat :=
  roundUp T.chunkSize alignment

/-- The first chunk starts where its object, not its header, is aligned. -/
def trueStart (T : ObjectType) (start alignment : Nat) : Except PoolError Nat :=
  (roundUp ((start + T.headerSize) % 2 ^ 64) alignment).map fun s => subtract s T.headerSize

/-- The start of the chunk `idx`, on 64 bits. -/
def chunkStart (actualStart idx stride : Nat) : Nat := (actualStart + stride * idx) % 2 ^ 64

/-- The last byte of the last chunk. -/
def trueEnd (T : ObjectType) (actualStart maxObjects stride : Nat) : Nat :=
  if maxObjects = 0 then actualStart
  else (chunkStart actualStart (maxObjects - 1) stride + T.chunkSize - 1) % 2 ^ 64

/-- The link at `a` is stored, in a buffer of `size` bytes. -/
def storeLink (start size a v : Nat) (m : Contents) : Except PoolError Contents :=
  if start ≤ a ∧ a + 8 ≤ start + size then .ok (setWord m a v) else .error (.fault a)

/-- `initialize`: the chunks are linked in order, the last one first. -/
def initializeChunks (start size : Nat) (p : PoolAllocator) (m : Contents) :
    Except PoolError (PoolAllocator × Contents) :=
  if p.maxObjects = 0 then .ok ({ p with next := 0 }, m)
  else do
    let m ← storeLink start size (chunkStart p.bufStart (p.maxObjects - 1) p.stride) 0 m
    let m ← (List.range (p.maxObjects - 1)).foldlM (fun m i =>
      storeLink start size (chunkStart p.bufStart i p.stride)
        (chunkStart p.bufStart (i + 1) p.stride) m) m
    return ({ p with next := p.bufStart }, m)

/-- The constructor, on the memory. -/
def new (T : ObjectType) (bufStart bufSize maxObjects offsetReference alignment : Nat)
    (m : Contents) : Except PoolError (PoolAllocator × Contents) := do
  let stride ← computeStride T alignment
  let actualBufStart ← trueStart T bufStart alignment
  let bufNext := (bufStart + bufSize) % 2 ^ 64
  if bufNext ≤ actualBufStart then throw .afterAlignment
  if bufNext ≤ trueEnd T actualBufStart maxObjects stride then throw (.objects maxObjects)
  initializeChunks bufStart bufSize
    { T, bufStart := actualBufStart, bufNext, maxObjects, offsetReference, alignment, stride,
      next := 0 } m

/-- The address and the size of what is left of the buffer. -/
def remaining (p : PoolAllocator) : Nat × Nat :=
  let start := (trueEnd p.T p.bufStart p.maxObjects p.stride + 1) % 2 ^ 64
  (start, subtract p.bufNext start)

/-- `spaceRequired`, from the null address. -/
def spaceRequired (T : ObjectType) (alignment maxObjects : Nat) : Except PoolError Nat :=
  if maxObjects = 0 then .ok 0
  else (computeStride T alignment).map fun stride => (trueEnd T 0 maxObjects stride + 1) % 2 ^ 64

/-- The memory to ask for when the buffer may start anywhere. -/
def alignedSpaceRequirement (T : ObjectType) (alignment maxObjects : Nat) :
    Except PoolError Nat :=
  (spaceRequired T alignment maxObjects).map fun space =>
    (space + alignment + T.headerSize) % 2 ^ 64

/-- `create`: the constructor of the object leaves `v` in its memory, then the link is read.  No
object is the null pointer. -/
def create (p : PoolAllocator) (m : Contents) (v : Bytes) : Option Nat × PoolAllocator × Contents :=
  if p.next = 0 then (none, p, m)
  else
    let obj := (p.next + p.T.headerSize) % 2 ^ 64
    let m := Mem.store m obj v
    (some obj, { p with next := word m p.next }, m)

theorem create_of_ne_zero {p : PoolAllocator} (h : p.next ≠ 0) (m : Contents) (v : Bytes) :
    p.create m v = (some ((p.next + p.T.headerSize) % 2 ^ 64),
      { p with next := word (Mem.store m ((p.next + p.T.headerSize) % 2 ^ 64) v) p.next },
      Mem.store m ((p.next + p.T.headerSize) % 2 ^ 64) v) := if_neg h

/-- The chunk of an object. -/
def chunkOf (p : PoolAllocator) (obj : Nat) : Nat := subtract obj p.T.headerSize

/-- `destroy`: the destructor leaves `v` in the memory of the object. -/
def destroy (p : PoolAllocator) (m : Contents) (obj : Nat) (v : Bytes) : PoolAllocator × Contents :=
  let m := Mem.store m obj v
  let chunk := p.chunkOf obj
  ({ p with next := chunk }, setWord m chunk p.next)

end PoolAllocator

/-- `ArenaPoolAllocator`. -/
structure Arena where
  bufStart : Nat
  bufNext : Nat
  bufSize : Nat
  offsetReference : Nat
  deriving DecidableEq, Repr

namespace Arena

/-- An arena over a fresh buffer. -/
def new (bufStart bufSize offsetReference : Nat) : Arena :=
  { bufStart, bufNext := bufStart, bufSize, offsetReference }

/-- A pool takes the front of what the arena has left. -/
def createPool (a : Arena) (T : ObjectType) (maxObjects alignment : Nat) (m : Contents) :
    Except PoolError (PoolAllocator × Arena × Contents) :=
  (PoolAllocator.new T a.bufNext a.bufSize maxObjects a.offsetReference alignment m).map
    fun (p, m) => (p, { a with
      bufNext := p.remaining.1
      bufSize := p.remaining.2 }, m)

end Arena

/-! ### The arithmetic -/

namespace PoolAllocator

section

variable {T : ObjectType} {alignment idx maxObjects n start size stride s : Nat}

/-- The test on bits tells the powers of two. -/
theorem isPowerof2_iff {v : Nat} : isPowerof2 v = true ↔ v.isPowerOfTwo := by
  rw [isPowerof2, Bool.and_eq_true, decide_eq_true_eq, decide_eq_true_eq]
  exact Nat.ne_zero_and_sub_one_eq_zero_iff_isPowerOfTwo

/-- The alignments of 64 bits divide the address space. -/
theorem dvd_of_isPowerOfTwo (h : alignment.isPowerOfTwo) (hlt : alignment < 2 ^ 64) :
    alignment ∣ 2 ^ 63 := by
  obtain ⟨k, rfl⟩ := h
  exact Nat.pow_dvd_pow 2 (Nat.le_of_lt_succ ((Nat.pow_lt_pow_iff_right (by decide)).mp hlt))

/-- Rounding up, on 64 bits. -/
theorem roundUp_eq_ok (hlt : alignment < 2 ^ 64) :
    roundUp n alignment = .ok s ↔
      alignment.isPowerOfTwo ∧ s = alignUp n alignment % 2 ^ 64 := by
  unfold roundUp
  split
  · next hpow =>
      rw [isPowerof2_iff] at hpow
      have hdvd := dvd_of_isPowerOfTwo hpow hlt
      have hmask : (n + alignment - 1) % 2 ^ 64 &&& (2 ^ 64 - alignment) =
          alignUp n alignment % 2 ^ 64 := by
        obtain ⟨k, rfl⟩ := hpow
        have hk := (Nat.pow_lt_pow_iff_right (by decide)).mp hlt
        rw [Align.land_neg (Nat.mod_lt _ (Nat.two_pow_pos 64)) hk.le,
          Align.div_mul_mod _ (Nat.pow_dvd_pow 2 hk.le), alignUp]
      rw [hmask]
      exact ⟨fun h => ⟨hpow, (Except.ok.inj h).symm⟩, fun h => congrArg _ h.2.symm⟩
  · next hpow =>
      rw [isPowerof2_iff] at hpow
      exact ⟨by rintro ⟨⟩, fun h => absurd h.1 hpow⟩

theorem subtract_of_le {a b : Nat} (h : b ≤ a) : subtract a b = a - b := if_pos h

/-- A difference that does not wrap, modulo 2 ^ 64. -/
theorem subtract_mod {a b : Nat} (h : b ≤ a) (hb : b < 2 ^ 64) :
    subtract (a % 2 ^ 64) b = (a - b) % 2 ^ 64 := by
  unfold subtract
  split <;> omega

/-! ### The constructor -/

/-- A link is stored in the buffer only. -/
theorem storeLink_eq_ok {a v : Nat} {m m' : Contents} :
    storeLink start size a v m = .ok m' ↔
      (start ≤ a ∧ a + 8 ≤ start + size) ∧ m' = setWord m a v := by
  unfold storeLink
  split
  · next hin => exact ⟨fun h => ⟨hin, (Except.ok.inj h).symm⟩, fun h => congrArg _ h.2.symm⟩
  · next hout => exact ⟨(nomatch ·), fun h => absurd h.1 hout⟩

/-- The links of the chunks `l` are stored when they are in the buffer. -/
theorem foldlM_storeLink_eq_ok {a v : Nat → Nat} {l : List Nat} {m m' : Contents} :
    l.foldlM (fun m i => storeLink start size (a i) (v i) m) m = .ok m' ↔
      (∀ i ∈ l, start ≤ a i ∧ a i + 8 ≤ start + size) ∧
        m' = l.foldl (fun m i => setWord m (a i) (v i)) m := by
  induction l generalizing m with
  | nil => exact ⟨fun h => ⟨nofun, (Except.ok.inj h).symm⟩, fun h => congrArg _ h.2.symm⟩
  | cons i l ih =>
      rw [List.foldlM_cons, bind_eq_ok, List.forall_mem_cons, List.foldl_cons]
      constructor
      · rintro ⟨m₁, h₁, h⟩
        obtain ⟨hin, rfl⟩ := storeLink_eq_ok.mp h₁
        obtain ⟨hrest, hm'⟩ := ih.mp h
        exact ⟨⟨hin, hrest⟩, hm'⟩
      · rintro ⟨⟨hin, hrest⟩, hm'⟩
        exact ⟨_, storeLink_eq_ok.mpr ⟨hin, rfl⟩, ih.mpr ⟨hrest, hm'⟩⟩

/-- The pool and the memory once the chunks are linked. -/
def linked (p : PoolAllocator) (m : Contents) : PoolAllocator × Contents :=
  if p.maxObjects = 0 then ({ p with next := 0 }, m)
  else
    let m := setWord m (chunkStart p.bufStart (p.maxObjects - 1) p.stride) 0
    ({ p with next := p.bufStart }, (List.range (p.maxObjects - 1)).foldl (fun m i =>
      setWord m (chunkStart p.bufStart i p.stride) (chunkStart p.bufStart (i + 1) p.stride)) m)

/-- `initialize` succeeds when all links are in the buffer. -/
theorem initializeChunks_eq_ok {p : PoolAllocator} {m : Contents} {r : PoolAllocator × Contents} :
    initializeChunks start size p m = .ok r ↔
      (∀ i < p.maxObjects, start ≤ chunkStart p.bufStart i p.stride ∧
        chunkStart p.bufStart i p.stride + 8 ≤ start + size) ∧ r = p.linked m := by
  unfold initializeChunks linked
  split
  · next hzero =>
      refine ⟨fun h => ⟨fun i hi => ?_, (Except.ok.inj h).symm⟩, fun h => congrArg _ h.2.symm⟩
      exact absurd hi (by omega)
  · next hne =>
      rw [bind_eq_ok]
      constructor
      · rintro ⟨m₁, h₁, h⟩
        obtain ⟨m₂, h₂, h⟩ := bind_eq_ok.mp h
        obtain ⟨hlast, rfl⟩ := storeLink_eq_ok.mp h₁
        obtain ⟨hrest, rfl⟩ := foldlM_storeLink_eq_ok.mp h₂
        refine ⟨fun i hi => ?_, (Except.ok.inj h).symm⟩
        rcases Nat.eq_or_lt_of_le (Nat.le_sub_one_of_lt hi) with rfl | hlt
        · exact hlast
        · exact hrest i (List.mem_range.mpr hlt)
      · rintro ⟨hin, rfl⟩
        refine ⟨_, storeLink_eq_ok.mpr ⟨hin _ (by omega), rfl⟩, bind_eq_ok.mpr ⟨_, ?_, rfl⟩⟩
        refine foldlM_storeLink_eq_ok.mpr ⟨fun i hi => hin i ?_, rfl⟩
        have hi := List.mem_range.mp hi
        omega

/-- The distance from a chunk to the next one. -/
def strideOf (T : ObjectType) (alignment : Nat) : Nat := alignUp T.chunkSize alignment

/-- Where the first chunk is in an address space without end. -/
def first (T : ObjectType) (start alignment : Nat) : Nat :=
  alignUp (start + T.headerSize) alignment - T.headerSize

theorem chunkSize_le_strideOf (T : ObjectType) (ha : 0 < alignment) :
    T.chunkSize ≤ strideOf T alignment := Align.le_alignUp ha _

/-- The first chunk starts in the buffer, -/
theorem le_first (T : ObjectType) (ha : 0 < alignment) (start : Nat) :
    start ≤ first T start alignment :=
  Nat.le_sub_of_add_le (Align.le_alignUp ha _)

/-- less than an alignment behind its start. -/
theorem first_lt_add (T : ObjectType) (ha : 0 < alignment) (start : Nat) :
    first T start alignment < start + alignment := by
  have hlt := Align.alignUp_lt ha (start + T.headerSize)
  have hle := Align.le_alignUp ha (start + T.headerSize)
  unfold first
  omega

/-- The first object is aligned. -/
theorem first_add_headerSize (T : ObjectType) (ha : 0 < alignment) (start : Nat) :
    first T start alignment + T.headerSize = alignUp (start + T.headerSize) alignment :=
  Nat.sub_add_cancel ((Nat.le_add_left _ _).trans (Align.le_alignUp ha _))

/-- Half of the address space is aligned. -/
theorem strideOf_le (T : ObjectType) (hpow : alignment.isPowerOfTwo) (hlt : alignment < 2 ^ 64) :
    strideOf T alignment ≤ 2 ^ 63 :=
  Align.alignUp_le (Nat.pos_of_isPowerOfTwo hpow) (dvd_of_isPowerOfTwo hpow hlt)
    T.sizeofChunk_lt.le

/-- The stride of a power of two. -/
theorem computeStride_eq_ok (hlt : alignment < 2 ^ 64) :
    computeStride T alignment = .ok s ↔ alignment.isPowerOfTwo ∧ s = strideOf T alignment := by
  rw [computeStride, roundUp_eq_ok hlt]
  refine and_congr_right fun hpow => ?_
  have hle := strideOf_le T hpow hlt
  rw [strideOf] at hle ⊢
  rw [Nat.mod_eq_of_lt (Nat.lt_of_le_of_lt hle (by decide))]

theorem trueStart_eq_ok (hlt : alignment < 2 ^ 64) :
    trueStart T start alignment = .ok s ↔
      alignment.isPowerOfTwo ∧ s = first T start alignment % 2 ^ 64 := by
  have hhead : T.headerSize < 2 ^ 64 := by
    have hle := T.headerSize_add_size_le
    have hlt : T.chunkSize < 2 ^ 63 := T.sizeofChunk_lt
    omega
  have heq (hpow : alignment.isPowerOfTwo) :
      subtract (alignUp ((start + T.headerSize) % 2 ^ 64) alignment % 2 ^ 64) T.headerSize =
        first T start alignment % 2 ^ 64 := by
    have ha := Nat.pos_of_isPowerOfTwo hpow
    have hdvd := Nat.dvd_trans (dvd_of_isPowerOfTwo hpow hlt) (Nat.pow_dvd_pow 2 (Nat.le_succ 63))
    have hle : start + T.headerSize ≤ alignUp (start + T.headerSize) alignment :=
      Align.le_alignUp ha _
    rw [Align.alignUp_mod ha hdvd, subtract_mod ((Nat.le_add_left _ _).trans hle) hhead, first]
  rw [trueStart, map_eq_ok]
  constructor
  · rintro ⟨r, hr, rfl⟩
    obtain ⟨hpow, rfl⟩ := (roundUp_eq_ok hlt).mp hr
    exact ⟨hpow, heq hpow⟩
  · rintro ⟨hpow, rfl⟩
    exact ⟨_, (roundUp_eq_ok hlt).mpr ⟨hpow, rfl⟩, heq hpow⟩

/-- The pool before its chunks are linked. -/
def blank (T : ObjectType) (start size maxObjects offsetReference alignment : Nat) :
    PoolAllocator where
  T := T
  bufStart := first T start alignment % 2 ^ 64
  bufNext := (start + size) % 2 ^ 64
  maxObjects := maxObjects
  offsetReference := offsetReference
  alignment := alignment
  stride := strideOf T alignment
  next := 0

/-- **The constructor** succeeds when the alignment is a power of two, both ends that it computes are
before the end of the buffer, and all links are in the buffer. -/
theorem new_eq_ok {reference : Nat} {m : Contents} {r : PoolAllocator × Contents}
    (hlt : alignment < 2 ^ 64) :
    new T start size maxObjects reference alignment m = .ok r ↔
      alignment.isPowerOfTwo ∧ first T start alignment % 2 ^ 64 < (start + size) % 2 ^ 64 ∧
      trueEnd T (first T start alignment % 2 ^ 64) maxObjects (strideOf T alignment) <
        (start + size) % 2 ^ 64 ∧
      (∀ i < maxObjects,
        start ≤ chunkStart (first T start alignment % 2 ^ 64) i (strideOf T alignment) ∧
        chunkStart (first T start alignment % 2 ^ 64) i (strideOf T alignment) + 8 ≤
          start + size) ∧
      r = (blank T start size maxObjects reference alignment).linked m := by
  constructor
  · intro h
    obtain ⟨stride, hstride, h⟩ := bind_eq_ok.mp h
    obtain ⟨actual, hactual, h⟩ := bind_eq_ok.mp h
    obtain ⟨hpow, rfl⟩ := (computeStride_eq_ok hlt).mp hstride
    obtain ⟨-, rfl⟩ := (trueStart_eq_ok hlt).mp hactual
    dsimp only at h
    split at h
    · cases h
    · next hfirst =>
        split at h
        · cases h
        · next hlast =>
            exact ⟨hpow, Nat.not_le.mp hfirst, Nat.not_le.mp hlast, initializeChunks_eq_ok.mp h⟩
  · rintro ⟨hpow, hfirst, hlast, hlinks⟩
    refine bind_eq_ok.mpr ⟨_, (computeStride_eq_ok hlt).mpr ⟨hpow, rfl⟩, ?_⟩
    refine bind_eq_ok.mpr ⟨_, (trueStart_eq_ok hlt).mpr ⟨hpow, rfl⟩, ?_⟩
    rw [if_neg (Nat.not_le.mpr hfirst), if_neg (Nat.not_le.mpr hlast)]
    exact initializeChunks_eq_ok.mpr hlinks

end

end PoolAllocator

end Ubft.Memory
