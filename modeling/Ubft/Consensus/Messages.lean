import Ubft.Certifier.Definitions

/-!
# Consensus — messages

`consensus/types.hpp` and `consensus/internal`: the messages replicas CB-broadcast, the states
they certify, and what is computed from a message alone.

A view or an instance is a `uint64_t`; they are naturals here, reduced where the source's
arithmetic on them depends on the width (`pack`).  A message is what `Message::tryFrom` makes of
its bytes, and a certificate inside one what `Certificate::tryFrom` makes of its buffer: `none`
is the `std::invalid_argument` of either.
-/

namespace Ubft.Consensus

open Certifier (Certificate)

/-! ### Packing -/

/-- `pack`: 16 bits of view, 48 bits of instance. -/
def pack (view inst : Nat) : Nat := view % 2 ^ 16 * 2 ^ 48 + inst % 2 ^ 48

/-- `unpack`: the view and the instance. -/
def unpack (packed : Nat) : Nat × Nat := (packed / 2 ^ 48, packed % 2 ^ 48)

/-! ### Certified states -/

/-- `Checkpoint`, with its `ProposeRange`. -/
structure Checkpoint where
  low : Nat
  high : Nat
  appDigest : Hash
  deriving DecidableEq, Repr

namespace Checkpoint

/-- The checkpoint that opens `window` instances from `next` on. -/
def of (next window : Nat) (digest : Hash) : Checkpoint := ⟨next, next + window, digest⟩

/-- `ProposeRange::contains`. -/
def contains (c : Checkpoint) (i : Nat) : Prop := c.low ≤ i ∧ i < c.high

instance (c : Checkpoint) (i : Nat) : Decidable (c.contains i) :=
  inferInstanceAs (Decidable (_ ∧ _))

end Checkpoint

/-- What is kept of a Commit: the view, instance and message of its prepare certificate. -/
structure BroadcastCommit where
  view : Nat
  inst : Nat
  proposal : Bytes
  deriving DecidableEq, Repr

/-- The commit that a certificate stands for. -/
def BroadcastCommit.of (c : Certificate Bytes) : BroadcastCommit :=
  ⟨(unpack c.index).1, (unpack c.index).2, c.message⟩

/-- The size of the longest value, `maxSize`. -/
def maxSize (values : List Bytes) : Nat := values.foldl (fun n v => max n v.length) 0

/-- `SerializedState`: what a replica had committed when it sealed a view. -/
structure SerializedState where
  view : Nat
  maxProposalSize : Nat
  commits : List BroadcastCommit
  deriving DecidableEq, Repr

/-- The state that a replica is certified in when it leaves a view. -/
def SerializedState.of (view : Nat) (commits : OrdMap Nat BroadcastCommit) : SerializedState :=
  ⟨view, maxSize (commits.entries.map (·.2.proposal)), commits.entries.map (·.2)⟩

/-- `CbCheckpoint`: what a replica deduced from a prefix of a CB stream. -/
structure CbCheckpoint where
  nextCb : Nat
  view : Nat
  checkpoint : Checkpoint
  nextPrepare : Nat
  validValues : List (Nat × Bytes)
  maxValidValueSize : Nat
  commits : List BroadcastCommit
  maxProposalSize : Nat
  deriving DecidableEq, Repr

/-! ### CB messages -/

/-- `PrepareMessage`. -/
structure PrepareMessage where
  view : Nat
  inst : Nat
  data : Bytes
  deriving DecidableEq, Repr

/-- `VcCertificateEntry`. -/
structure VcCertificateEntry where
  replicaId : ProcId
  certificate : Option (Certificate SerializedState)
  deriving DecidableEq, Repr

/-- `NewViewMessage`, with the entries of the quorum of certificates it has room for. -/
structure NewViewMessage where
  view : Nat
  vcCertificates : List VcCertificateEntry
  deriving DecidableEq, Repr

/-- `Message::Variant`. -/
inductive Message where
  /-- Too short, of an unknown kind, or of a size its kind does not have. -/
  | malformed
  | prepare (m : PrepareMessage)
  | commit (certificate : Option (Certificate Bytes))
  | checkpoint (certificate : Option (Certificate Checkpoint))
  | sealView
  | newView (m : NewViewMessage)
  deriving DecidableEq, Repr

/-- `FastCommitMessage`. -/
structure FastCommitMessage where
  view : Nat
  inst : Nat
  deriving DecidableEq, Repr

/-! ### The values of a new view -/

/-- Keeps the commit of the highest view, the first of them on ties. -/
def bestProposal (best : OrdMap Nat (Nat × Bytes)) (c : BroadcastCommit) :
    OrdMap Nat (Nat × Bytes) :=
  match best.find? c.inst with
  | none => best.insert c.inst (c.view, c.proposal)
  | some (view, _) => if view < c.view then best.insert c.inst (c.view, c.proposal) else best

/-- The proposal of each instance that was committed in the greatest view. -/
def bestProposals (states : List SerializedState) : OrdMap Nat (Nat × Bytes) :=
  states.foldl (fun best s => s.commits.foldl bestProposal best) .empty

/-- Emplaces the values in a tail map, whose keys are any of 64 bits. -/
def emplaceAll : TailMap Bytes → List (Nat × Bytes) → Except EmplaceError (TailMap Bytes)
  | t, [] => .ok t
  | t, (i, v) :: rest => do
    let (t, _) ← t.tryEmplaceWord i v
    emplaceAll t rest

/-- The states its certificates carry, once each of them is known to parse. -/
def NewViewMessage.serializedStates (m : NewViewMessage) (quorum : Nat) : List SerializedState :=
  (m.vcCertificates.take quorum).filterMap fun e => e.certificate.map (·.message)

/-- `validValues`: what the new leader must propose. -/
def NewViewMessage.validValues (m : NewViewMessage) (window quorum : Nat) :
    Except EmplaceError (TailMap Bytes) :=
  emplaceAll ⟨window, .empty, 0⟩
    ((bestProposals (m.serializedStates quorum)).entries.map fun e => (e.1, e.2.2))

/-- `ViewChangeState`: what the next leader collects to leave `view`. -/
structure ViewChangeState where
  view : Nat
  vcStateCertificates : OrdMap ProcId (Certificate SerializedState) := .empty

/-- `try_emplace` of a certificate. -/
def ViewChangeState.tryEmplace (vc : ViewChangeState) (id : ProcId)
    (c : Certificate SerializedState) : ViewChangeState :=
  match vc.vcStateCertificates.find? id with
  | some _ => vc
  | none => { vc with vcStateCertificates := vc.vcStateCertificates.insert id c }

/-- `buildNewView`. -/
def ViewChangeState.buildNewView (vc : ViewChangeState) : NewViewMessage :=
  ⟨vc.view + 1, vc.vcStateCertificates.entries.map fun e => ⟨e.1, some e.2⟩⟩

/-! ### Packing and unpacking -/

theorem unpack_pack {view inst : Nat} (hv : view < 2 ^ 16) (hi : inst < 2 ^ 48) :
    unpack (pack view inst) = (view, inst) := by
  simp only [unpack, pack, Nat.mod_eq_of_lt hv, Nat.mod_eq_of_lt hi, Prod.mk.injEq]
  omega

theorem pack_unpack {k : Nat} (h : k < 2 ^ 64) : pack (unpack k).1 (unpack k).2 = k := by
  simp only [unpack, pack]
  omega

theorem unpack_snd_lt (k : Nat) : (unpack k).2 < 2 ^ 48 := Nat.mod_lt _ (by decide)

end Ubft.Consensus
