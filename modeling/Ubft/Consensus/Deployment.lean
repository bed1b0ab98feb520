import Ubft.Consensus.Machine

/-!
# Consensus — a deployment

Replicas `0, …, n - 1` under a signature scheme in which a signature spells the signer and what
it signs: it verifies for nothing else, and the hash has no collision.  The runs that show where
the replica goes wrong, and those that show that it can go right, are runs of these.
-/

namespace Ubft.Consensus

namespace Machine

/-- The state after a list of labels. -/
def nextOption (cfg : Config) (m : Machine) (l : Label) : Option Machine :=
  (m.next cfg l).toOption

theorem step_of_nextOption {cfg : Config} {m m' : Machine} {l : Label}
    (h : m.nextOption cfg l = some m') : m.Step cfg l m' := by
  unfold nextOption at h
  unfold Step
  cases hn : m.next cfg l with
  | error e => rw [hn] at h; cases h
  | ok m₁ => rw [hn] at h; cases h; rfl

/-- The steps that are good. -/
def goodNext (cfg : Config) (good : Machine → Label → Prop) [∀ m l, Decidable (good m l)]
    (m : Machine) (l : Label) : Option Machine :=
  if good m l then m.nextOption cfg l else none

theorem goodNext_cases {cfg : Config} {good : Machine → Label → Prop}
    [∀ m l, Decidable (good m l)] {m m' : Machine} {l : Label}
    (h : m.goodNext cfg good l = some m') : good m l ∧ m.Step cfg l m' := by
  unfold goodNext at h
  split at h
  · next hg => exact ⟨hg, step_of_nextOption h⟩
  · cases h

theorem reachable_of_goodRun {cfg : Config} {good : Machine → Label → Prop}
    [∀ m l, Decidable (good m l)] {requestLog : RequestLog} {ls : List Label} {m : Machine}
    (h : runs (goodNext cfg good) ⟨.start cfg requestLog, []⟩ ls = some m) :
    Reachable (Init cfg) (Step cfg) good m := by
  exact reachable_of_runs (fun _ _ _ hn => goodNext_cases hn) (.init ⟨requestLog, rfl⟩) h

/-- The state a run ends in, by what can be seen of it. -/
theorem exists_reachable {cfg : Config} {good : Machine → Label → Prop}
    [∀ m l, Decidable (good m l)] {see : Machine → Bool} (requestLog : RequestLog)
    (ls : List Label)
    (h : (runs (goodNext cfg good) ⟨.start cfg requestLog, []⟩ ls).any see = true) :
    ∃ m, Reachable (Init cfg) (Step cfg) good m ∧ see m = true := by
  obtain ⟨m, hm, hs⟩ := (Option.any_eq_true ..).mp h
  exact ⟨m, reachable_of_goodRun hm, hs⟩

end Machine

namespace Deployment

/-! ### Signatures -/

/-- The bytes of a commit. -/
def encodeCommit (c : BroadcastCommit) : Bytes :=
  le 8 c.view ++ le 8 c.inst ++ le 8 c.proposal.length ++ c.proposal

/-- The bytes of a checkpoint. -/
def encodeCheckpoint (c : Checkpoint) : Bytes := le 8 c.low ++ le 8 c.high ++ c.appDigest

/-- The bytes of a serialized state. -/
def encodeState (s : SerializedState) : Bytes :=
  le 8 s.view ++ le 8 s.maxProposalSize ++ s.commits.flatMap encodeCommit

/-- The bytes of a CB checkpoint. -/
def encodeCbCheckpoint (c : CbCheckpoint) : Bytes :=
  le 8 c.nextCb ++ le 8 c.view ++ encodeCheckpoint c.checkpoint ++ le 8 c.nextPrepare ++
    le 8 c.validValues.length ++ c.validValues.flatMap (fun v => le 8 v.1 ++ le 8 v.2.length ++ v.2)
    ++ c.commits.flatMap encodeCommit

/-- What is signed, in place of its hash. -/
def hash {M : Type} (encode : M → Bytes) (identifier index : Nat) (message : M) : Hash :=
  le 8 identifier ++ le 8 index ++ encode message

/-- A signature that tells who signed what. -/
def signature (id : ProcId) (hash : Hash) : Signature := UInt8.ofNat id :: hash

/-- The keys of replica `me` among `n`. -/
def crypto {M : Type} (encode : M → Bytes) (n me : Nat) (h : me < n) : Certifier.Crypto M where
  myId := me
  publicKeys := List.range n
  own := List.mem_range.mpr h
  blake3 := hash encode
  verifyWith sig hash id := sig == signature id hash
  sign := signature me

/-- The certificate that the replicas `signers` sign. -/
def certificate {M : Type} (encode : M → Bytes) (identifier index : Nat) (message : M)
    (signers : List ProcId) : Certifier.Certificate M :=
  .of identifier index
    (signers.map fun id => ⟨id, signature id (hash encode identifier index message)⟩) message

/-! ### Replicas -/

/-- Replica `me` among `n`, compiled for release. -/
def replica (n me window tail : Nat) (h : me < n) : Config where
  receivers := (List.range n).erase me
  localId := me
  window := window
  tail := tail
  maxProposalSize := 64
  ndebug := true
  prepareCrypto := crypto id n me h
  vcStateCrypto := crypto encodeState n me h
  checkpointCrypto := crypto encodeCheckpoint n me h
  cbCheckpointCrypto := crypto encodeCbCheckpoint n me h
  prepareIdentifier := 0
  vcStateIdentifier id := 2 + id
  checkpointIdentifier := 1
  cbCheckpointIdentifier id := 2 + n + id

/-- Every request is known. -/
def allKnown : RequestLog := ⟨fun _ => true, fun _ => true⟩

/-- What replica `id` certifies when it leaves a view without having committed anything. -/
def emptyState (view : Nat) : SerializedState := ⟨view, 0, []⟩

/-- The entry about replica `id`, as the replicas `signers` certify it. -/
def vcEntry (id : ProcId) (index : Nat) (state : SerializedState) (signers : List ProcId) :
    VcCertificateEntry :=
  ⟨id, some (certificate encodeState (2 + id) index state signers)⟩

/-! ### Runs -/

/-- Executes up to `n` commands, the environment having nothing to tell. -/
def drain (n : Nat) : List Label := List.replicate n (.exec {})

/-- A tick of a replica with two peers, the first of which sent a CB message. -/
def tickCb (index : Nat) (m : Message) : List Label :=
  .call .tick :: drain 2 ++ .exec { cb := some (index, m) } :: drain 40

theorem one_lt_three : 1 < 3 := by decide

end Deployment

end Ubft.Consensus
