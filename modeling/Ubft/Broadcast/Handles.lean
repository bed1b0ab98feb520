import Ubft.Broadcast.Counting
import Ubft.Swmr.Polling

/-!
# Broadcast — the handles of the READs

`pollWriteCompletions` and `pollReadCompletions` of `tail-cb/receiver.hpp` over the readers of
`replicated-swmr/reader.hpp`: for each message whose WRITE completed, `outstandingReads` holds
the handles of the READs of all the other receivers' registers, in the order of these.

`pollReadCompletions` works on a copy of an entry, so that the handles it resets are not reset in
the map.  In `Receiver` the READs under way are a list; here that list is kept as history.

Where the readers read elements just erased, what they find is an argument; `none` is what the
elements held.
-/

namespace Ubft.Broadcast

open Swmr.Readers (ReplicatedReader Handle JobHandle Completion)

/-- What the receiver or one of its readers throws. -/
inductive Fault where
  | receiver (e : Error)
  | reader (e : Swmr.Readers.Error)
  deriving DecidableEq, Repr

/-- A receiver and its readers, one for each of the others.  The last two fields are history:
the values that the READs returned, and the verifications that ended. -/
structure SlowReceiver where
  recv : Receiver
  readers : ProcId → ReplicatedReader
  outstandingReads : OrdMap Index (List (ProcId × Option Handle)) := .empty
  answers : List (Index × ProcId × Register) := []
  finished : List Check := []

/-- The value of a register, which is a hash and a signature. -/
def registerIn (tail : Nat) (i : Index) (x : Swmr.Subslot) : Register :=
  ⟨i % tail, x.incarnation, x.value.take hashLength, x.value.drop hashLength⟩

/-- The READ of the register of `q` for message `i` completes with the value `reg`. -/
def Receiver.readCompleted (r : Receiver) (i : Index) (q : ProcId) (reg : Register) :
    Except Error Receiver :=
  let expected := expectedIncarnation r.tail i
  if expected < reg.incarnation then .error .recycled
  else
    let r := { r with outstandingReads := r.outstandingReads.eraseP (Read.isOf i q) }
    match r.msgTail.find? i with
    | none => .ok r
    | some d =>
      if reg.incarnation < expected ∨ d.signature = some reg.signature then
        .ok { r with msgTail := r.msgTail.modify i (·.checkedAReceiver q) }
      else
        .ok { r with checks := r.checks ++ [⟨i, reg.hash, reg.signature, .receiverRegister q⟩] }

namespace SlowReceiver

/-- The WRITE of a register completes.  The READs of the others' registers begin if the message
is still in the tail. -/
def pollWriteCompletion (s : SlowReceiver) (slot : Nat)
    (stale : Option (ProcId → List (List Handle))) : SlowReceiver :=
  match s.recv.outstandingWrites.find? slot with
  | none => s
  | some i =>
    let recv := s.recv.pollWriteCompletion slot fun _ => 0
    match s.recv.msgTail.find? i with
    | none => { s with recv }
    | some _ =>
      let read q := (s.readers q).read slot ((stale.map (· q)).getD (s.readers q).readKeys)
      { s with
        recv
        readers := fun q => if q ∈ s.recv.others then (read q).1 else s.readers q
        outstandingReads := s.outstandingReads.insert i
          ((s.outstandingReads.find? i).getD [] ++
            s.recv.others.map fun q => (q, some (read q).2)) }

/-- One step of the loop over the readers: whether the READ of `q` for message `i` is counted as
completed. -/
def pollHandle (freed : Option (Index → ProcId → List JobHandle)) (s : SlowReceiver) (i : Index)
    (q : ProcId) (handle : Option Handle) : Except Fault (SlowReceiver × Bool) :=
  match handle with
  | none => .ok (s, true)
  | some handle =>
    match (s.readers q).poll handle ((freed.map (· i q)).getD ((s.readers q).jobs handle)) with
    | .error e => .error (.reader e)
    | .ok (_, none) => .ok (s, false)
    | .ok (reader, some x) =>
      let reg := registerIn s.recv.tail i x
      match s.recv.readCompleted i q reg with
      | .error e => .error (.receiver e)
      | .ok recv =>
        .ok ({ s with
          recv
          readers := Function.update s.readers q reader
          answers := s.answers ++ [(i, q, reg)] }, true)

/-- The loop over the readers, with the handles of message `i`. -/
def pollHandles (freed : Option (Index → ProcId → List JobHandle)) (i : Index)
    (handles : List (ProcId × Option Handle)) :
    List ProcId → SlowReceiver → Except Fault (SlowReceiver × Nat)
  | [], s => .ok (s, 0)
  | q :: qs, s => do
    let (s, completed) ← pollHandle freed s i q (handles.lookup q).join
    let (s, completedReads) ← pollHandles freed i handles qs s
    return (s, completedReads + if completed then 1 else 0)

/-- `pollReadCompletions`, over the entries of the map. -/
def pollReadCompletions (freed : Option (Index → ProcId → List JobHandle)) :
    List (Index × List (ProcId × Option Handle)) → SlowReceiver → Except Fault SlowReceiver
  | [], s => .ok s
  | (i, handles) :: entries, s => do
    let (s, completedReads) ← pollHandles freed i handles s.recv.others s
    if completedReads = s.recv.others.length then
      pollReadCompletions freed entries
        { s with outstandingReads := s.outstandingReads.erase i }
    else pollReadCompletions freed entries s

end SlowReceiver

/-! ### The machine -/

/-- The WRITE of a register or a READ completes. -/
def Input.isCompletion : Input → Bool
  | .writeCompletion _ _ | .readCompletion _ _ => true
  | _ => false

/-- The steps of a tick.  The others of `Receiver` come as they are (`recv`). -/
inductive SlowLabel where
  | recv (inp : Input)
  | writeCompletion (slot : Nat) (stale : Option (ProcId → List (List Handle)))
  | tickReader (q : ProcId) (wcs : List (List Completion)) (stale : Option (List (List Handle)))
  | readCompletions (freed : Option (Index → ProcId → List JobHandle))

namespace SlowReceiver

/-- The verification that `inp` ends. -/
def finishes (s : SlowReceiver) : Input → List Check
  | .finishCheck k => s.recv.checks[k]?.toList
  | _ => []

/-- One step of the receiver, of the network or of a reader. -/
def next (cr : Crypto) (s : SlowReceiver) : SlowLabel → Except Fault SlowReceiver
  | .recv inp =>
    if inp.isCompletion then .ok s
    else
      match s.recv.handle cr inp with
      | .error e => .error (.receiver e)
      | .ok recv => .ok { s with recv, finished := s.finished ++ s.finishes inp }
  | .writeCompletion slot stale => .ok (s.pollWriteCompletion slot stale)
  | .tickReader q wcs stale =>
    match (s.readers q).tick wcs (stale.getD (s.readers q).tickKeys) with
    | .error e => .error (.reader e)
    | .ok reader => .ok { s with readers := Function.update s.readers q reader }
  | .readCompletions freed => pollReadCompletions freed s.outstandingReads.entries s

/-- The step relation of the receiver with its readers. -/
def Step (cr : Crypto) (s : SlowReceiver) (l : SlowLabel) (s' : SlowReceiver) : Prop :=
  s.next cr l = .ok s'

/-- What the constructors leave. -/
def Init (s : SlowReceiver) : Prop :=
  ∃ tail others readers, 0 < tail ∧ others.Nodup ∧ (∀ q, (readers q).Init) ∧
    s = { recv := { tail, others }, readers }

/-- The elements just erased still hold what they held. -/
def Intact (_ : SlowReceiver) : SlowLabel → Prop
  | .recv _ => True
  | .writeCompletion _ stale => stale = none
  | .tickReader _ _ stale => stale = none
  | .readCompletions freed => freed = none

instance (s : SlowReceiver) : DecidablePred s.Intact
  | .recv _ => inferInstanceAs (Decidable True)
  | .writeCompletion _ _ | .tickReader _ _ _ | .readCompletions _ =>
    inferInstanceAs (Decidable (_ = none))

end SlowReceiver

end Ubft.Broadcast
