import Ubft.Consensus.Definitions

/-!
# Consensus — handlers

The functions of `Consensus` that return without polling anything: what they do is one step of
the replica.  Those that may wait for the thread pool or for slack in the CB tail are in
`Consensus.Machine`.
-/

namespace Ubft.Consensus

open Certifier (Certificate)

/-! ### Commits -/

/-- A commit is counted. -/
def receivedCommit (s : Consensus) (sender i : Nat) : Consensus :=
  s.modifyInstance i fun d => { d with committed := d.committed.set sender }

/-- `handleVerifiedCommit`. -/
def handleVerifiedCommit (s : Consensus) (sender : Nat) (c : Certificate Bytes) :
    Except Error Consensus :=
  let s := s.modifyState sender fun r => { r with
    outstandingCommitVerifications := (r.outstandingCommitVerifications + 2 ^ 64 - 1) % 2 ^ 64 }
  match s.instanceStates.find? (unpack c.index).2 with
  | none =>
    .ok { s with
      bufferedCommits := Function.update s.bufferedCommits sender
        ((s.bufferedCommits sender).emplaceBack c) }
  | some d =>
    if d.committed.get sender then .error (.shouldHaveBeenDetected sender)
    else .ok (s.receivedCommit sender (unpack c.index).2)

/-- One round of `pollVerifiedCommits`. -/
def handleVerifiedCommits (s : Consensus) : Except Error Consensus :=
  match s.verifiedCommits with
  | [] => .ok s
  | v :: rest =>
    if v.valid then handleVerifiedCommit { s with verifiedCommits := rest } v.sender
      v.prepareCertificate
    else .error (.invalidPrepareCertificate v.sender)

/-- `isByzantineCommit`; the test on a previous commit of the instance only logs. -/
def IsByzantineCommit (s : Consensus) (sender : Nat) (c : Certificate Bytes) : Prop :=
  (s.states sender).checkpoint.high ≤ (unpack c.index).2 ∨
    (s.states sender).atView ≠ (unpack c.index).1

instance (s : Consensus) (sender : Nat) (c : Certificate Bytes) :
    Decidable (s.IsByzantineCommit sender c) :=
  inferInstanceAs (Decidable (_ ∨ _))

/-- `ReplicaState::committed`; `none` when the commit is not the first one. -/
def ReplicaState.commit (r : ReplicaState) (c : Certificate Bytes) : Option ReplicaState :=
  match r.commits.find? (unpack c.index).2 with
  | none => some { r with commits := r.commits.insert (unpack c.index).2 (.of c) }
  | some previous =>
    if (unpack c.index).1 ≤ previous.view then none
    else some { r with commits := r.commits.insert (unpack c.index).2 (.of c) }

/-- Hands a commit to the thread pool, which drops the oldest one when there are too many, or
takes it as verified when it is the replica's own. -/
def verifyCommit (cfg : Config) (s : Consensus) (sender : Nat) (c : Certificate Bytes) :
    Consensus :=
  if sender = cfg.localIndex then
    { s with verifiedCommits := s.verifiedCommits ++ [⟨sender, c, true⟩] }
  else
    { s with
      commitVerifications := Function.update s.commitVerifications sender
        (Certifier.enqueue cfg.window (s.commitVerifications sender) c) }

/-- `handleCommit`, for a certificate that is well formed. -/
def handleCommitCertificate (cfg : Config) (s : Consensus) (sender : Nat) (c : Certificate Bytes) :
    Except Error Consensus :=
  if s.IsByzantineCommit sender c then .error (.byzantineCommit sender)
  else
    match (s.states sender).commit c with
    | none => .error (.committedTwice sender)
    | some r =>
      if cfg.maxProposalSize < c.message.length then .error (.insufficientBuffer c.message.length)
      else .ok (verifyCommit cfg
        (s.modifyState sender fun _ => { r with
          outstandingCommitVerifications := (r.outstandingCommitVerifications + 1) % 2 ^ 64 })
        sender c)

/-- `handleCommit`, whose certificate may be malformed. -/
def handleCommit (cfg : Config) (s : Consensus) (sender : Nat) :
    Option (Certificate Bytes) → Except Error Consensus
  | none => .error (.malformedCertificate sender)
  | some c => handleCommitCertificate cfg s sender c

/-- A worker takes the oldest commit of a queue. -/
def startVerification (s : Consensus) (replica : Nat) : Consensus :=
  match s.commitVerifications replica with
  | [] => s
  | c :: rest =>
    { s with
      commitVerifications := Function.update s.commitVerifications replica rest
      runningVerifications := s.runningVerifications ++ [(replica, c)] }

/-- A worker ends its `k`-th running verification.  A missing key throws inside the task, which
then never reports.  The check is one step: a worker reads `msg_tail` and `received_shares` without
a lock, and what it would read of them while they change is left out. -/
def finishVerification (cfg : Config) (s : Consensus) (k : Nat) : Consensus :=
  match s.runningVerifications[k]? with
  | none => s
  | some (sender, c) =>
    let s := { s with runningVerifications := s.runningVerifications.eraseIdx k }
    match s.prepareCertifier.check cfg.prepareCrypto c with
    | .error _ => s
    | .ok valid => { s with verifiedCommits := s.verifiedCommits ++ [⟨sender, c, valid⟩] }

/-! ### Prepares -/

/-- The value a NewView left for the instance, when there is one, is not the proposal. -/
def Unfaithful (p : PrepareMessage) : Option (Nat × TailMap Bytes) → Prop
  | none => True
  | some (_, values) => ∃ v ∈ values.find? p.inst, v ≠ p.data

instance (p : PrepareMessage) : DecidablePred (Unfaithful p)
  | none => inferInstanceAs (Decidable True)
  | some _ => inferInstanceAs (Decidable (∃ v ∈ _, _))

/-- `isByzantine(from, prepare)`. -/
def IsByzantinePrepare (cfg : Config) (s : Consensus) (sender : Nat) (p : PrepareMessage) :
    Prop :=
  cfg.leader p.view ≠ cfg.idOf sender ∨
    (s.states sender).atView ≠ p.view ∨
    (s.instanceStates.find? p.inst).isSome ∨
    p.inst < (s.states sender).nextPrepare ∨
    ¬(s.states sender).checkpoint.contains p.inst ∨
    p.view ≠ 0 ∧ Unfaithful p (s.states sender).validValues

instance (cfg : Config) (s : Consensus) (sender : Nat) (p : PrepareMessage) :
    Decidable (IsByzantinePrepare cfg s sender p) :=
  inferInstanceAs (Decidable (_ ∨ _ ∨ _ ∨ _ ∨ _ ∨ _ ∧ _))

/-- The leader needs no promise from itself. -/
def implicitPromise (cfg : Config) (s : Consensus) (c : Certifier Bytes) (p : PrepareMessage) :
    Except Error (Certifier Bytes) :=
  if cfg.leader p.view = cfg.localId then .ok c
  else lift (c.receivedImplicitPromise (cfg.leader (s.own cfg).atView) (pack p.view p.inst))

/-- The second half of `tryCertifyPrepare`: the Prepare is acknowledged. -/
def certifyPrepare (cfg : Config) (s : Consensus) (i : Nat) (p : PrepareMessage) :
    Except Error Consensus := do
  let c ← lift (s.prepareCertifier.acknowledge cfg.prepareCrypto (pack p.view p.inst) p.data)
  let c ← implicitPromise cfg s c p
  return (({ s with prepareCertifier := c }).modifyInstance i
    fun d => { d with certifiedPrepare := true }).record (.acknowledged (pack p.view p.inst) p.data)

/-- `tryCertifyPrepare`, for the instance `i`. -/
def tryCertifyPrepare (cfg : Config) (s : Consensus) (i : Nat) : Except Error Consensus :=
  match s.instanceStates.find? i with
  | none => .ok s
  | some d =>
    if d.certifiedPrepare then .ok s
    else if s.requestLog.isValid d.prepareMessage.data then certifyPrepare cfg s i d.prepareMessage
    else .ok s

/-- `tryCertifyPrepares`, over the instances given. -/
def tryCertifyPrepares (cfg : Config) (s : Consensus) : List Nat → Except Error Consensus
  | [] => .ok s
  | i :: is => do tryCertifyPrepares cfg (← tryCertifyPrepare cfg s i) is

/-- The Prepare is stored in `instance_states`. -/
def storePrepare (cfg : Config) (s : Consensus) (sender : Nat) (p : PrepareMessage) :
    Except Error Consensus :=
  if DynamicBitset.maxCapacity < cfg.ids.length then .error .maxCapacity
  else
    match s.instanceStates.tryEmplace p.inst (.of p cfg.ids.length) with
    | .error e => .error (.emplace e)
    | .ok (instanceStates, _) =>
      .ok ({ s.modifyState sender (fun r => { r with nextPrepare := p.inst }) with
        instanceStates }.record (.stored sender p))

/-- Replays the commit buffered from `replica` for the packed index `useful`. -/
def replayCommit (useful : Nat) (s : Consensus) (replica : Nat) : Except Error Consensus :=
  let buffer := (s.bufferedCommits replica).popWhile fun c => decide (c.index < useful)
  let s := { s with bufferedCommits := Function.update s.bufferedCommits replica buffer }
  match buffer.items.head? with
  | none => .ok s
  | some c =>
    if c.index = useful then do
      let s ← s.handleVerifiedCommit replica c
      return { s with bufferedCommits :=
        Function.update s.bufferedCommits replica (s.bufferedCommits replica).popFront }
    else .ok s

/-- The commits buffered for the instance, replica after replica. -/
def replayCommits (useful : Nat) (s : Consensus) : List Nat → Except Error Consensus
  | [] => .ok s
  | r :: rs => do replayCommits useful (← replayCommit useful s r) rs

/-- Prunes the valid values up to the instance. -/
def pruneValidValues (s : Consensus) (sender i : Nat) : Consensus :=
  s.modifyState sender fun r => { r with
    validValues := r.validValues.map fun vv => (vv.1, vv.2.popBelow (i + 1)) }

/-- The end of `handlePrepare`, for a proposal of the view the replica is in. -/
def acceptPrepare (cfg : Config) (s : Consensus) (sender : Nat) (p : PrepareMessage) :
    Except Error Consensus := do
  let s ← storePrepare cfg s sender p
  let s ← replayCommits (pack p.view p.inst) s (List.range cfg.ids.length)
  tryCertifyPrepare cfg (s.pruneValidValues sender p.inst) p.inst

/-- `handlePrepare`. -/
def handlePrepare (cfg : Config) (s : Consensus) (sender : Nat) (p : PrepareMessage) :
    Except Error Consensus :=
  if IsByzantinePrepare cfg s sender p then .error (.byzantinePrepare sender)
  else if p.view ≠ (s.own cfg).atView then .ok s
  else if p.inst < s.certifiedCheckpoint.low then .ok s
  else acceptPrepare cfg s sender p

/-! ### Checkpoints -/

/-- `handleCheckpointCertificate`: the highest one is adopted. -/
def handleCheckpointCertificate (s : Consensus) (c : Certificate Checkpoint) : Consensus :=
  if c.message.low ≤ s.certifiedCheckpoint.low then s
  else { s with checkpointCertificate := c, adopted := s.adopted + 1 }

/-- A checkpoint of another replica that differs from the certified one is verified. -/
def verifyCheckpoint (cfg : Config) (s : Consensus) (sender : Nat) (c : Certificate Checkpoint) :
    Except Error Bool :=
  if sender ≠ cfg.localIndex ∧ s.certifiedCheckpoint ≠ c.message then
    lift (s.checkpointCertifier.check cfg.checkpointCrypto c)
  else .ok true

/-- The checkpoint of a replica moves to that of a verified certificate. -/
def adoptCheckpoint (s : Consensus) (sender : Nat) (c : Certificate Checkpoint) : Consensus :=
  handleCheckpointCertificate
    (s.modifyState sender fun r => { r with
      checkpoint := c.message
      commits := r.commits.popWhile fun i => decide (i < c.message.low) }) c

/-- `handleCheckpoint`, whose certificate may be malformed. -/
def handleCheckpoint (cfg : Config) (s : Consensus) (sender : Nat) :
    Option (Certificate Checkpoint) → Except Error Consensus
  | none => .error (.malformedCertificate sender)
  | some c =>
    if c.index ≤ (s.states sender).checkpoint.low then .error (.byzantineCheckpoint sender)
    else
      match verifyCheckpoint cfg s sender c with
      | .error e => .error e
      | .ok false => .error (.invalidCheckpoint sender)
      | .ok true => .ok (adoptCheckpoint s sender c)

/-- `pollCheckpointCertificate`. -/
def pollCheckpointCertificate (cfg : Config) (s : Consensus) : Consensus :=
  let (c, certificate) := s.checkpointCertifier.pollCertificate cfg.checkpointCrypto
  let s := { s with checkpointCertifier := c }
  match certificate with
  | none => s
  | some certificate => s.handleCheckpointCertificate certificate

/-! ### View changes -/

/-- The rank of a replica in a NewView.  Compiled for release, `uat` is `operator[]`, which
makes an unknown id the replica of rank 0. -/
def rankOf (cfg : Config) (id : ProcId) : Except Error Nat :=
  match cfg.ids.idxOf? id with
  | some r => .ok r
  | none => if cfg.ndebug then .ok 0 else .error (.outOfRange id)

/-- Whether the certificate of an entry is valid. -/
def checkEntry (cfg : Config) (s : Consensus) (e : VcCertificateEntry) : Except Error Bool :=
  match e.certificate with
  | none => .ok false
  | some c => do
    let r ← rankOf cfg e.replicaId
    lift ((s.vcStateCertifiers r).check cfg.vcStateCrypto c)

/-- `isByzantine(from, new_view)`, over the entries left. -/
def isByzantineNewView (cfg : Config) (s : Consensus) :
    List VcCertificateEntry → Except Error Bool
  | [] => .ok false
  | e :: es =>
    match checkEntry cfg s e with
    | .error err => .error err
    | .ok false => .ok true
    | .ok true => isByzantineNewView cfg s es

/-- The end of `handleNewView`. -/
def acceptNewView (cfg : Config) (s : Consensus) (sender : Nat) (m : NewViewMessage) :
    Except Error Consensus :=
  match m.validValues cfg.window cfg.quorum with
  | .error e => .error (.emplace e)
  | .ok values =>
    .ok ((s.modifyState sender fun r => { r with
      nextPrepare := r.checkpoint.low
      validValues := some (m.view, values) }).record (.newViewAccepted sender m))

/-- The leader of the view begun by sealing `view` collects its certificates. -/
def startViewChange (cfg : Config) (s : Consensus) (view : Nat) : Consensus :=
  if cfg.localId = cfg.leader (view + 1) ∧ ∀ vc ∈ s.ongoingViewChange, vc.view < view then
    { s with ongoingViewChange := some { view } }
  else s

/-- `handleSealView`, once the commits of the sender are verified. -/
def sealView (cfg : Config) (s : Consensus) (sender : Nat) : Except Error Consensus := do
  let sealed := (s.states sender).atView
  let state := SerializedState.of sealed (s.states sender).commits
  let c ← lift (((s.vcStateCertifiers sender).forgetMessages (some sealed)).acknowledge
    cfg.vcStateCrypto sealed state)
  return startViewChange cfg
    { s.modifyState sender (fun r => { r with
        serializedState := some state
        atView := sealed + 1 }) with
      vcStateCertifiers := Function.update s.vcStateCertifiers sender c } sealed

/-- `pollVcStateCertificates` over the replicas left, up to the NewView it broadcasts. -/
def pollVcStates (cfg : Config) (s : Consensus) (vc : ViewChangeState) :
    List Nat → Consensus × Option NewViewMessage
  | [] => ({ s with ongoingViewChange := some vc }, none)
  | r :: rs =>
    let (c, certificate) := (s.vcStateCertifiers r).pollCertificate cfg.vcStateCrypto
    let s := { s with vcStateCertifiers := Function.update s.vcStateCertifiers r c }
    match certificate with
    | none => pollVcStates cfg s vc rs
    | some certificate =>
      if certificate.index ≠ vc.view then pollVcStates cfg s vc rs
      else
        let vc := vc.tryEmplace (cfg.idOf r) certificate
        if vc.vcStateCertificates.size ≠ cfg.quorum then pollVcStates cfg s vc rs
        else ({ s with ongoingViewChange := none }, some vc.buildNewView)

/-! ### Proposals and decisions -/

/-- `getSlot`, with what is then written into the batch. -/
def getSlot (cfg : Config) (s : Consensus) (batch : Bytes) : Except Error Consensus :=
  if cfg.maxProposalSize < batch.length then .error (.requestedSize batch.length)
  else .ok { s with
    toPropose := s.toPropose ++ [⟨(s.own cfg).atView, s.nextProposal, batch⟩]
    nextProposal := s.nextProposal + 1 }

/-- Fills a slot for each instance, an empty one where there is no valid value. -/
def getSlots (cfg : Config) (values : TailMap Bytes) (s : Consensus) :
    List Nat → Except Error Consensus
  | [] => .ok s
  | i :: is => do getSlots cfg values (← getSlot cfg s ((values.find? i).getD [])) is

/-- `propose_range.low` of the certified checkpoint up to the last valid value. -/
def reproposed (s : Consensus) (values : TailMap Bytes) : List Nat :=
  let first := s.certifiedCheckpoint.low
  List.range' first ((values.map.last?.elim first (·.1)) + 1 - first)

/-- `pollDecision`; what it returns is the last event. -/
def pollDecision (s : Consensus) : Except Error Consensus :=
  match s.instanceStates.find? s.nextToDecide with
  | none => .ok s
  | some d =>
    if d.decidable then
      if s.requestLog.decided d.prepareMessage.data then
        .ok ({ s.modifyInstance s.nextToDecide (fun d => { d with decided := true }) with
          nextToDecide := s.nextToDecide + 1 }.record
            (.decided s.nextToDecide d.prepareMessage.data))
      else .error .unknownClient
    else .ok s

/-- `triggerCheckpoint`: the application has a digest for the instances applied. -/
def triggerCheckpoint (cfg : Config) (s : Consensus) (lastApplied : Nat) (digest : Hash) :
    Except Error Consensus :=
  if lastApplied + 1 ≤ s.localCheckpoint.low then .error .digestsBackwards
  else do
    let checkpoint := Checkpoint.of (lastApplied + 1) cfg.window digest
    let c ← lift ((s.checkpointCertifier.forgetMessages (some (lastApplied + 1))).acknowledge
      cfg.checkpointCrypto (lastApplied + 1) checkpoint)
    return { s with localCheckpoint := checkpoint, checkpointCertifier := c }

/-- `toggleSlowPath`, and that of the certifiers. -/
def toggleSlowPath (s : Consensus) (enable : Bool) : Consensus :=
  { s with
    slowPathEnabled := enable
    prepareCertifier := { s.prepareCertifier with runSlowPath := enable }
    vcStateCertifiers := fun r => { s.vcStateCertifiers r with runSlowPath := enable } }

/-! ### Fast commits -/

/-- The state after `pollPrepareCertificatePromises` polled the promise of index `k`. -/
def handlePromise (cfg : Config) (s : Consensus) (k : Nat) : Consensus :=
  match s.instanceStates.find? (unpack k).2 with
  | none => s
  | some _ =>
    (s.modifyInstance (unpack k).2 fun d => { d with
      fastCommitted := d.fastCommitted.set cfg.localIndex }).record (.fastSent ⟨(unpack k).1,
        (unpack k).2⟩)

/-- What `pollFastCommits` does with a message of the size of a FastCommit.  One of another view
is only logged. -/
def handleFastCommit (s : Consensus) (sender : Nat) (m : FastCommitMessage) :
    Except Error Consensus :=
  match s.instanceStates.find? m.inst with
  | none => .ok s
  | some d =>
    if d.fastCommitted.get sender then .error (.receivedTwice sender)
    else .ok (s.modifyInstance m.inst fun d => { d with
      fastCommitted := d.fastCommitted.set sender })

/-! ### CB checkpoints -/

/-- `checkpointCb`. -/
def ReplicaState.checkpointCb (r : ReplicaState) : CbCheckpoint :=
  let values := r.validValues.elim [] (·.2.map.entries)
  { nextCb := r.nextCb
    view := r.atView
    checkpoint := r.checkpoint
    nextPrepare := r.nextPrepare
    validValues := values
    maxValidValueSize := maxSize (values.map (·.2))
    commits := r.commits.entries.map (·.2)
    maxProposalSize := maxSize (r.commits.entries.map (·.2.proposal)) }

/-- `certifyCbCheckpoint`, once the commits of the replica are verified. -/
def certifyCbCheckpoint (cfg : Config) (s : Consensus) (replica : Nat) : Except Error Consensus := do
  let r := s.states replica
  let c ← lift (((s.cbCheckpointCertifiers replica).forgetMessages none).acknowledge
    cfg.cbCheckpointCrypto r.nextCb r.checkpointCb)
  return { s.modifyState replica (fun r => { r with cbCheckpoint := some r.checkpointCb }) with
    cbCheckpointCertifiers := Function.update s.cbCheckpointCertifiers replica c }

/-- `pollCbCheckpointCertificate`. -/
def pollCbCheckpointCertificate (cfg : Config) (s : Consensus) : Consensus :=
  let (c, certificate) :=
    (s.cbCheckpointCertifiers cfg.localIndex).pollCertificate cfg.cbCheckpointCrypto
  let s := { s with
    cbCheckpointCertifiers := Function.update s.cbCheckpointCertifiers cfg.localIndex c }
  match certificate with
  | none => s
  | some certificate => { s with canCbUntil := certificate.index + cfg.tail - 1 }

end Ubft.Consensus
