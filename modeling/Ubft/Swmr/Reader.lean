import Ubft.Support.Assoc
import Ubft.Swmr.Register

/-!
# Swmr — the buffers of the readers

`swmr/reader.hpp` and `replicated-swmr/reader.hpp`, with the queues and buffers that READs go
through.  A `swmr::Reader` has a pool of local buffers; a READ takes one, waits in a queue, is
outstanding, and is completed; the buffer's address is the handle of the READ.  A `ManagedReader`
gives the READs of a replicated reader to a `swmr::Reader`, and releases them later if they are
abandoned before they complete.

The network decides which READs complete, in which order, and with which subslots; that a READ
took longer than the cooldown comes with its completion.  Posting a READ succeeds: the source ends
the run otherwise.

Two functions of `ManagedReader` read an element that they have just erased: `pushToReader` the
handle at the front of its queue, `release` the job of the handle.  What they find there is an
argument (`stale`, `freed`).
-/

namespace Ubft.Swmr.Readers

/-- The address of a local buffer. -/
abbrev JobHandle := Nat

/-- The index of a register. -/
abbrev Index := Nat

/-- The handle of a READ of the replicated reader. -/
abbrev Handle := Nat

/-- What a reader throws, and the one thing it does without throwing. -/
inductive Error where
  /-- "Error in RDMA READ: {}" -/
  | status
  /-- "Polling returned job_handle: {}, I was expecting job_handle:  {}" -/
  | jobHandle (returned expected : JobHandle)
  /-- "Byzantine behavior detected, we should handle it." -/
  | byzantine
  /-- "Job not found in completed set." -/
  | jobNotFound
  /-- Nothing is thrown: the end of `queued_reads` is erased. -/
  | eraseEnd
  deriving DecidableEq, Repr

/-! ### The reader of one host -/

/-- A work completion, with the two subslots in the buffer, `none` where the hash is wrong. -/
structure Completion where
  wrId : JobHandle
  success : Bool
  subslots : Option Subslot × Option Subslot
  late : Bool
  deriving DecidableEq, Repr

/-- `swmr::Reader`.  The back of the pool is its last element.  `buffers` are those that the
constructor finds in the memory region. -/
structure Reader where
  buffers : List JobHandle
  bufferPool : List JobHandle
  queuedReads : List (JobHandle × Index) := []
  outstandingReads : List (JobHandle × Index) := []
  completedReads : List (JobHandle × Subslot) := []
  deriving DecidableEq, Repr

namespace Reader

/-- No more READs are posted at once. -/
def maxOutstandingReads : Nat := 128

/-- `pushToQp`, over the READs queued. -/
def pushToQp : List (JobHandle × Index) → Reader → Reader
  | [], r => { r with queuedReads := [] }
  | read :: rest, r =>
    if r.outstandingReads.length < maxOutstandingReads then
      pushToQp rest { r with outstandingReads := r.outstandingReads ++ [read] }
    else { r with queuedReads := read :: rest }

/-- A READ takes a buffer of the pool, which is also its handle. -/
def read (r : Reader) (index : Index) : Reader × Option JobHandle :=
  match r.bufferPool.getLast? with
  | none => (r, none)
  | some buffer =>
    (pushToQp (r.queuedReads ++ [(buffer, index)])
      { r with bufferPool := r.bufferPool.dropLast }, some buffer)

/-- The completed READ, as long as it was not released. -/
def poll (r : Reader) (job : JobHandle) : Option Subslot := r.completedReads.lookup job

/-- The buffer goes back to the pool. -/
def release (r : Reader) (job : JobHandle) : Except Error Reader :=
  match r.poll job with
  | none => .error .jobNotFound
  | some _ =>
    .ok { r with
      bufferPool := r.bufferPool ++ [job]
      completedReads := Assoc.erase r.completedReads job }

/-- `pollCompletion`.  There are as many completions as outstanding READs, at most. -/
def pollCompletion : List Completion → Reader → Except Error Reader
  | [], r => .ok r
  | wc :: wcs, r =>
    if wc.success = false then .error .status
    else
      match r.outstandingReads with
      | [] => .ok r
      | (expected, index) :: rest =>
        if wc.wrId ≠ expected then .error (.jobHandle wc.wrId expected)
        else
          match State.bestSubslot none [wc.subslots.1, wc.subslots.2] with
          | some best =>
            pollCompletion wcs { r with
              outstandingReads := rest
              completedReads := Assoc.tryEmplace r.completedReads wc.wrId
                ⟨(best.incarnation + 2 ^ 32 - 2) % 2 ^ 32, best.value⟩ }
          | none =>
            if wc.late then
              pollCompletion wcs { r with
                outstandingReads := rest
                queuedReads := r.queuedReads ++ [(wc.wrId, index)] }
            else .error .byzantine

/-- The completions are taken in, then the queued READs posted. -/
def tick (r : Reader) (wcs : List Completion) : Except Error Reader :=
  if r.outstandingReads.isEmpty then .ok r
  else do
    let r ← pollCompletion wcs r
    return pushToQp r.queuedReads r

end Reader

/-! ### The reader of one host, managed -/

/-- `ManagedReader`.  The last three fields are history: the READs abandoned whose jobs are not
released yet, those whose jobs were released, those abandoned before they had a job. -/
structure ManagedReader where
  reader : Reader
  queuedReads : List (Handle × Index) := []
  scheduledReads : List (Handle × JobHandle) := []
  toRelease : List JobHandle := []
  abandoned : List (JobHandle × Handle) := []
  released : List Handle := []
  cancelled : List Handle := []
  deriving DecidableEq, Repr

namespace ManagedReader

/-- `pushToReader`, over the READs queued.  The handles it schedules are read in `stale`. -/
def pushToReader : List (Handle × Index) → List Handle → ManagedReader → ManagedReader
  | [], _, m => { m with queuedReads := [] }
  | (handle, index) :: rest, stale, m =>
    match m.reader.read index with
    | (_, none) => { m with queuedReads := (handle, index) :: rest }
    | (reader, some job) =>
      pushToReader rest stale.tail { m with
        reader
        scheduledReads := Assoc.tryEmplace m.scheduledReads (stale.headD 0) job }

/-- `tryRelease`, over the jobs to release. -/
def tryRelease : List JobHandle → ManagedReader → Except Error ManagedReader
  | [], m => .ok m
  | job :: jobs, m =>
    match m.reader.poll job with
    | none => tryRelease jobs m
    | some _ =>
      match m.reader.release job with
      | .error e => .error e
      | .ok reader =>
        tryRelease jobs { m with
          reader
          toRelease := m.toRelease.erase job
          abandoned := Assoc.erase m.abandoned job
          released := m.released ++ (m.abandoned.lookup job).toList }

/-- The reader ticks, what was released late is released, the queued READs are tried again. -/
def tick (m : ManagedReader) (wcs : List Completion) (stale : List Handle) :
    Except Error ManagedReader := do
  let reader ← m.reader.tick wcs
  let m ← tryRelease m.toRelease { m with reader }
  return pushToReader m.queuedReads stale m

/-- The READ joins the queue, which is emptied as far as buffers go. -/
def read (m : ManagedReader) (handle : Handle) (index : Index) (stale : List Handle) :
    ManagedReader :=
  pushToReader (m.queuedReads ++ [(handle, index)]) stale m

/-- Through the handle under which the READ was scheduled. -/
def poll (m : ManagedReader) (handle : Handle) : Option Subslot := do
  m.reader.poll (← m.scheduledReads.lookup handle)

/-- `release`.  The job it puts in `to_release` is `freed`. -/
def release (m : ManagedReader) (handle : Handle) (freed : JobHandle) :
    Except Error ManagedReader :=
  match m.scheduledReads.lookup handle with
  | some job =>
    .ok { m with
      scheduledReads := Assoc.erase m.scheduledReads handle
      toRelease := if freed ∈ m.toRelease then m.toRelease else m.toRelease ++ [freed]
      abandoned := m.abandoned ++ [(job, handle)] }
  | none =>
    if handle ∈ m.queuedReads.map Prod.fst then
      .ok { m with
        queuedReads := Assoc.erase m.queuedReads handle
        cancelled := m.cancelled ++ [handle] }
    else .error .eraseEnd

end ManagedReader

/-! ### The replicated reader -/

/-- `replicated_swmr::Reader`.  `results` is the history of the READs that `poll` returned. -/
structure ReplicatedReader where
  readers : List ManagedReader
  nextHandle : Handle := 0
  results : List (Handle × Subslot) := []
  deriving DecidableEq, Repr

namespace ReplicatedReader

/-- Every host is asked. -/
def readAll (handle : Handle) (index : Index) : List ManagedReader → List (List Handle) →
    List ManagedReader
  | [], _ => []
  | m :: ms, stale => m.read handle index (stale.headD []) :: readAll handle index ms stale.tail

/-- `read`.  `stale` is what the hosts' `pushToReader` reads. -/
def read (s : ReplicatedReader) (index : Index) (stale : List (List Handle)) :
    ReplicatedReader × Handle :=
  ({ s with
      readers := readAll s.nextHandle index s.readers stale
      nextHandle := s.nextHandle + 1 }, s.nextHandle)

/-- The first answer with the greatest incarnation, or `best`. -/
def highest (best : Option Subslot) : List Subslot → Option Subslot
  | [] => best
  | x :: xs =>
    highest (if ∀ b ∈ best, b.incarnation < x.incarnation then some x else best) xs

/-- What the hosts answered. -/
def polled (s : ReplicatedReader) (handle : Handle) : List Subslot :=
  s.readers.filterMap fun m => m.poll handle

/-- Every host's READ is released. -/
def releaseAll (handle : Handle) : List ManagedReader → List JobHandle →
    Except Error (List ManagedReader)
  | [], _ => .ok []
  | m :: ms, freed => do
    let m ← m.release handle (freed.headD 0)
    let ms ← releaseAll handle ms freed.tail
    return m :: ms

/-- `poll`.  `freed` are the values that the hosts' `release` reads. -/
def poll (s : ReplicatedReader) (handle : Handle) (freed : List JobHandle) :
    Except Error (ReplicatedReader × Option Subslot) :=
  if (s.polled handle).length < (s.readers.length + 1) / 2 then .ok (s, none)
  else
    match highest none (s.polled handle) with
    | none => .ok (s, none)
    | some x => do
      let readers ← releaseAll handle s.readers freed
      return ({ s with
        readers
        results := s.results ++ [(handle, x)] }, some x)

/-- Every host's reader ticks. -/
def tickAll : List ManagedReader → List (List Completion) → List (List Handle) →
    Except Error (List ManagedReader)
  | [], _, _ => .ok []
  | m :: ms, wcs, stale => do
    let m ← m.tick (wcs.headD []) (stale.headD [])
    let ms ← tickAll ms wcs.tail stale.tail
    return m :: ms

/-- `tick`.  `wcs` are the completions that the hosts' readers poll. -/
def tick (s : ReplicatedReader) (wcs : List (List Completion)) (stale : List (List Handle)) :
    Except Error ReplicatedReader := do
  return { s with readers := ← tickAll s.readers wcs stale }

end ReplicatedReader

/-! ### The machine -/

/-- A caller's call, with what the read list elements and the completions hold. -/
inductive Label where
  | read (index : Index) (stale : List (List Handle))
  | poll (handle : Handle) (freed : List JobHandle)
  | tick (wcs : List (List Completion)) (stale : List (List Handle))
  deriving DecidableEq

namespace ReplicatedReader

/-- One call on the replicated reader. -/
def next (s : ReplicatedReader) : Label → Except Error ReplicatedReader
  | .read index stale => .ok (s.read index stale).1
  | .poll handle freed => (s.poll handle freed).map Prod.fst
  | .tick wcs stale => s.tick wcs stale

/-- What the constructors leave: at least one host, each reader with its own buffers. -/
def Init (s : ReplicatedReader) : Prop :=
  ∃ pools : List (List JobHandle), pools ≠ [] ∧ (∀ pool ∈ pools, pool.Nodup) ∧
    s = { readers := pools.map fun pool =>
      { reader :=
        { buffers := pool
          bufferPool := pool } } }

/-- A call that throws nothing. -/
def Step (s : ReplicatedReader) (l : Label) (s' : ReplicatedReader) : Prop := s.next l = .ok s'

/-- What is read in the elements just erased is what they held. -/
def Intact (s : ReplicatedReader) : Label → Prop
  | .read _ stale => stale =
      s.readers.map fun m => m.queuedReads.map Prod.fst ++ [s.nextHandle]
  | .poll handle freed => freed = s.readers.map fun m => (m.scheduledReads.lookup handle).getD 0
  | .tick _ stale => stale = s.readers.map fun m => m.queuedReads.map Prod.fst

instance (s : ReplicatedReader) : DecidablePred s.Intact
  | .read _ _ | .poll _ _ | .tick _ _ => inferInstanceAs (Decidable (_ = _))

end ReplicatedReader

end Ubft.Swmr.Readers
