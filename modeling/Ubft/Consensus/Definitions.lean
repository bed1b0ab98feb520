import Ubft.Consensus.Messages

/-!
# Consensus — definitions

The state of `consensus/consensus.hpp`'s `Consensus` and of `consensus/internal`'s
`ReplicaState` and `InstanceState`, with the handlers that return without waiting.

A replica is known by its rank in `ids`: the peers first, in the order of the CB receivers, the
replica itself last.  A pool that is empty allocates (`AllowDelayedBufferAlloc`), so that taking
a buffer fails only when the size asked for exceeds the pool's.
-/

namespace Ubft

namespace Consensus

open Certifier (Certificate Crypto)

/-- What the constructor is given.  `ndebug` tells which of the two versions of `uat` is
compiled. -/
structure Config where
  /-- The peers' ids, in the order of the CB receivers. -/
  receivers : List ProcId
  localId : ProcId
  window : Nat
  /-- The tail of the CB broadcaster. -/
  tail : Nat
  maxProposalSize : Nat
  ndebug : Bool
  prepareCrypto : Crypto Bytes
  vcStateCrypto : Crypto SerializedState
  checkpointCrypto : Crypto Checkpoint
  cbCheckpointCrypto : Crypto CbCheckpoint
  prepareIdentifier : Certifier.Identifier
  vcStateIdentifier : ProcId → Certifier.Identifier
  checkpointIdentifier : Certifier.Identifier
  cbCheckpointIdentifier : ProcId → Certifier.Identifier

namespace Config

/-- The ids of the replicas, by rank: the local one is the last. -/
def ids (cfg : Config) : List ProcId := cfg.receivers ++ [cfg.localId]

/-- The ids in increasing order, among which the leader of a view is found. -/
def sortedIds (cfg : Config) : List ProcId := cfg.ids.insertionSort (· ≤ ·)

/-- "We're last." -/
def localIndex (cfg : Config) : Nat := cfg.receivers.length

/-- A majority of the replicas, the local one included. -/
def quorum (cfg : Config) : Nat := (cfg.receivers.length + 1) / 2 + 1

/-- The id of a replica. -/
def idOf (cfg : Config) (replica : Nat) : ProcId := cfg.ids.getD replica cfg.localId

/-- `leader(view)`. -/
def leader (cfg : Config) (view : Nat) : ProcId :=
  cfg.sortedIds.getD (view % cfg.ids.length) cfg.localId

end Config

/-- What consensus throws, or what the structures below it throw. -/
inductive Error where
  /-- "Byzantine prepare received from {}." -/
  | byzantinePrepare (sender : Nat)
  /-- "Byzantine behavior: malformed certificate: {}" -/
  | malformedCertificate (sender : Nat)
  /-- "Byzantine commit received from {}." -/
  | byzantineCommit (sender : Nat)
  /-- "Byzantine {} committed twice." -/
  | committedTwice (sender : Nat)
  /-- "Byzantine commit received from {}, invalid prepare certificate." -/
  | invalidPrepareCertificate (sender : Nat)
  /-- "Should have been detected before." -/
  | shouldHaveBeenDetected (sender : Nat)
  /-- "Faulty Fast Commit received." -/
  | faultyFastCommit (sender : Nat)
  /-- "Byzantine behavior, received twice." -/
  | receivedTwice (sender : Nat)
  /-- "Byzantine checkpoint received from {}." -/
  | byzantineCheckpoint (sender : Nat)
  /-- "Byzantine checkpoint received from {}, invalid certificate." -/
  | invalidCheckpoint (sender : Nat)
  /-- "Byzantine new view received from {}." -/
  | byzantineNewView (sender : Nat)
  /-- `at` of a map without the key. -/
  | outOfRange (id : ProcId)
  /-- "Insufficient buffer size: {} vs {}.", or a buffer resized beyond its size. -/
  | insufficientBuffer (size : Nat)
  /-- "Requested size {} > max proposal size {}." -/
  | requestedSize (size : Nat)
  /-- "App digests went backwards." -/
  | digestsBackwards
  /-- "Max capacity violated." -/
  | maxCapacity
  /-- The request log was told that a batch of an unknown client was decided. -/
  | unknownClient
  | emplace (e : EmplaceError)
  | certifier (e : Certifier.Error)
  deriving DecidableEq, Repr

/-! ### The state -/

/-- `DynamicBitset`: the indices that are set, each once. -/
structure DynamicBitset where
  capacity : Nat
  bits : List Nat
  nodup : bits.Nodup

namespace DynamicBitset

/-- `DynamicBitset::MaxCapacity`. -/
def maxCapacity : Nat := 8

/-- A bitset without bits. -/
def empty (capacity : Nat) : DynamicBitset := ⟨capacity, [], .nil⟩

/-- `get`. -/
def get (b : DynamicBitset) (i : Nat) : Bool := decide (i ∈ b.bits)

/-- Sets a bit that is not set. -/
def set (b : DynamicBitset) (i : Nat) : DynamicBitset :=
  if h : i ∈ b.bits then b else ⟨b.capacity, i :: b.bits, List.nodup_cons.mpr ⟨h, b.nodup⟩⟩

/-- `full`: every bit is set. -/
def full (b : DynamicBitset) : Bool := b.bits.length = b.capacity

/-- `majority`: more than half of the bits are set. -/
def majority (b : DynamicBitset) : Bool := b.capacity / 2 + 1 ≤ b.bits.length

theorem get_set (b : DynamicBitset) (i j : Nat) :
    (b.set i).get j = true ↔ j = i ∨ b.get j = true := by
  unfold set get
  split
  · next h =>
      rw [decide_eq_true_iff]
      exact ⟨.inr, fun hj => hj.elim (fun e => e ▸ h) id⟩
  · simp only [decide_eq_true_iff, List.mem_cons]

theorem capacity_set (b : DynamicBitset) (i : Nat) : (b.set i).capacity = b.capacity := by
  unfold set
  split <;> rfl

end DynamicBitset

/-- `InstanceState`: the Prepare of an instance, and the votes for it. -/
structure InstanceState where
  prepareMessage : PrepareMessage
  fastCommitted : DynamicBitset
  committed : DynamicBitset
  decided : Bool := false
  certifiedPrepare : Bool := false

/-- The state of an instance whose Prepare was just stored. -/
def InstanceState.of (m : PrepareMessage) (replicas : Nat) : InstanceState :=
  { prepareMessage := m, fastCommitted := .empty replicas, committed := .empty replicas }

/-- `decidable`: it was not decided, and all fast-committed it or a majority committed it. -/
def InstanceState.decidable (d : InstanceState) : Bool :=
  ¬d.decided ∧ (d.fastCommitted.full ∨ d.committed.majority)

/-- What was deduced from the CB messages of one replica. -/
structure ReplicaState where
  atView : Nat := 0
  commits : OrdMap Nat BroadcastCommit := .empty
  nextPrepare : Nat := 0
  validValues : Option (Nat × TailMap Bytes) := none
  checkpoint : Checkpoint
  nextCb : Nat := 0
  /-- A `size_t`: it wraps around when it is decremented at 0. -/
  outstandingCommitVerifications : Nat := 0
  serializedState : Option SerializedState := none
  cbCheckpoint : Option CbCheckpoint := none

/-- `VerifiedCommit`: what a worker answers. -/
structure VerifiedCommit where
  sender : Nat
  prepareCertificate : Certificate Bytes
  valid : Bool
  deriving DecidableEq, Repr

/-- What the request log answers at a time: whether a batch is valid, and whether it can be told
that a batch is decided. -/
structure RequestLog where
  isValid : Bytes → Bool
  decided : Bytes → Bool

/-- What a replica did; `view` is the view it was in. -/
inductive Event where
  | broadcast (view index : Nat) (m : Message)
  | delivered (sender : Nat) (m : Message)
  | stored (sender : Nat) (m : PrepareMessage)
  | acknowledged (index : Nat) (data : Bytes)
  | fastSent (m : FastCommitMessage)
  | fastPolled (sender : Nat) (m : FastCommitMessage)
  | newViewAccepted (sender : Nat) (m : NewViewMessage)
  | changingView (view : Nat)
  | decided (inst : Nat) (batch : Bytes)
  deriving DecidableEq, Repr

end Consensus

open Consensus Certifier

/-- The state of one replica.  `log` is the history of what it did, the latest event first, and
`adopted` the number of checkpoint certificates it adopted; the source keeps neither. -/
structure Consensus where
  /-- Of the CB broadcaster. -/
  nextIndex : Nat := 0
  prepareCertifier : Certifier Bytes
  vcStateCertifiers : Nat → Certifier SerializedState
  checkpointCertifier : Certifier Checkpoint
  cbCheckpointCertifiers : Nat → Certifier CbCheckpoint
  localCheckpoint : Checkpoint
  checkpointCertificate : Certificate Checkpoint
  sendCheckpointAbove : Nat := 0
  canCbUntil : Nat
  nextProposal : Nat := 0
  proposed : Nat := 0
  nextToDecide : Nat := 0
  toPropose : List PrepareMessage := []
  slowPathEnabled : Bool := false
  states : Nat → ReplicaState
  bufferedCommits : Nat → TailQueue (Certificate Bytes)
  instanceStates : TailMap InstanceState
  ongoingViewChange : Option ViewChangeState := none
  verifiedCommits : List VerifiedCommit := []
  /-- `commit_verification_task_queues`, by rank. -/
  commitVerifications : Nat → List (Certificate Bytes) := fun _ => []
  /-- The verifications a worker has taken out of its queue. -/
  runningVerifications : List (Nat × Certificate Bytes) := []
  requestLog : RequestLog
  adopted : Nat := 0
  log : List Event := []

namespace Consensus

/-- A certifier as its constructor leaves it, with its two paths switched. -/
def freshCertifier {M : Type} (cfg : Config) (tail : Nat) (identifier : Certifier.Identifier)
    (fast slow : Bool) : Certifier M :=
  { tail, identifier, receivers := cfg.receivers, runFastPath := fast, runSlowPath := slow }

/-- The constructor. -/
def start (cfg : Config) (requestLog : RequestLog) : Consensus where
  prepareCertifier := freshCertifier cfg cfg.window cfg.prepareIdentifier true false
  vcStateCertifiers r := freshCertifier cfg 1 (cfg.vcStateIdentifier (cfg.idOf r)) false true
  checkpointCertifier := freshCertifier cfg 1 cfg.checkpointIdentifier false true
  cbCheckpointCertifiers r :=
    freshCertifier cfg 1 (cfg.cbCheckpointIdentifier (cfg.idOf r)) false true
  localCheckpoint := .of 0 cfg.window []
  checkpointCertificate := .of cfg.checkpointIdentifier 0 [] (.of 0 cfg.window [])
  canCbUntil := cfg.tail - 1
  states _ := { checkpoint := .of 0 cfg.window [] }
  bufferedCommits _ := ⟨cfg.window, []⟩
  instanceStates := ⟨cfg.window, .empty, 0⟩
  requestLog := requestLog

/-- The checkpoint that the certificate is of. -/
def certifiedCheckpoint (s : Consensus) : Checkpoint := s.checkpointCertificate.message

/-- What the replica says of itself. -/
def own (cfg : Config) (s : Consensus) : ReplicaState := s.states cfg.localIndex

/-- The state of a replica changes. -/
def modifyState (s : Consensus) (replica : Nat) (f : ReplicaState → ReplicaState) : Consensus :=
  { s with states := Function.update s.states replica (f (s.states replica)) }

@[simp] theorem states_modifyState_self (s : Consensus) (r : Nat)
    (f : ReplicaState → ReplicaState) : (s.modifyState r f).states r = f (s.states r) :=
  Function.update_self ..

@[simp] theorem states_modifyState_of_ne (s : Consensus) {r r' : Nat} (h : r' ≠ r)
    (f : ReplicaState → ReplicaState) : (s.modifyState r f).states r' = s.states r' :=
  Function.update_of_ne h ..

/-- The state of an instance changes, if there is one. -/
def modifyInstance (s : Consensus) (i : Nat) (f : InstanceState → InstanceState) : Consensus :=
  { s with instanceStates := s.instanceStates.modify i f }

/-- An event is added to the history. -/
def record (s : Consensus) (e : Event) : Consensus := { s with log := e :: s.log }

/-- An error of a certifier is not caught. -/
def lift {α : Type} : Except Certifier.Error α → Except Error α
  | .ok a => .ok a
  | .error e => .error (.certifier e)

end Consensus

end Ubft
