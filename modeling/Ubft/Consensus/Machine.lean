import Ubft.Support.Runs
import Ubft.Consensus.Handlers

/-!
# Consensus — the machine

The replica as a machine.  `todo` is what the thread still has to execute, the innermost call
first: `waitForCbSlack` polls the CB receivers, whose messages call the handlers again, so that
any amount of work can come before what waits for the slack.  A step executes one command, or the
application calls the replica when it has nothing to do, or a certifier or the thread pool makes
progress.  An exception ends the run.

`broadcastCheckpointCertificate` keeps a reference into the certificate it broadcasts.  When
another certificate is adopted while it waits, the reference dangles, and what it reads is an
input (`freed`).
-/

namespace Ubft.Consensus

open Certifier (Certificate)

/-- What is left to do: a function that waits for others is the commands after it. -/
inductive Cmd where
  | pollCheckpointCertificate
  | broadcastCheckpointCertificate (force : Bool)
  /-- The end of `broadcastCheckpointCertificate`; `adopted` is the certificate referred to. -/
  | pruneInstances (low adopted : Nat)
  | pollCb (replica : Nat)
  | maybeCertifyCbCheckpoint (replica : Nat)
  /-- Waits until `outstanding_commit_verifications` is 0. -/
  | waitVerified (replica : Nat)
  | certifyCbCheckpoint (replica : Nat)
  /-- The end of `handleSealView`. -/
  | sealView (replica : Nat)
  /-- The loop of `handleNewView`, and what follows it. -/
  | catchUp (replica : Nat) (m : NewViewMessage)
  | changeView
  /-- The loop of `changeView`. -/
  | commitAll
  | checkCommitted
  /-- The end of `changeView`. -/
  | forgetView
  | pollPrepareCertificatePromises
  | tryCertifyPrepares
  | pollPrepareCertificates
  /-- The end of a round of `pollPrepareCertificates`. -/
  | commitCertificate (c : Certificate Bytes)
  | pollVerifiedCommits
  | pollVcStateCertificates
  /-- The end of `pollVcStateCertificates`. -/
  | repropose
  | propose
  | proposeLoop
  | proposeNext
  | pollFastCommit (replica : Nat)
  | pollCbCheckpointCertificate
  | waitForCbSlack
  /-- CB-broadcasts a message and delivers it locally. -/
  | broadcast (m : Message)
  /-- "Gap in CB messages, recovery not implemented yet.  Spinning to preserve RDMA accesses." -/
  | spin
  deriving DecidableEq, Repr

/-- What the environment answers to a command: the CB message polled, with its index; the
FastCommit polled, `none` inside when its size is wrong; what a dangling reference reads. -/
structure Input where
  cb : Option (Nat × Message) := none
  fastCommit : Option (Option FastCommitMessage) := none
  freed : Nat := 0
  deriving DecidableEq, Repr

/-! ### Messages -/

/-- `NewViewMessage::tryFrom` refuses a size that is not the one of a quorum of entries; the
certificates are then checked in order. -/
def handleNewView (cfg : Config) (s : Consensus) (sender : Nat) (m : NewViewMessage) :
    Except Error (Consensus × List Cmd) :=
  if m.vcCertificates.length ≠ cfg.quorum then .ok (s, [])
  else
    match isByzantineNewView cfg s m.vcCertificates with
    | .error e => .error e
    | .ok true => .error (.byzantineNewView sender)
    | .ok false => .ok (s, [.catchUp sender m])

/-- The handler of each kind of message. -/
def handleMessage (cfg : Config) (s : Consensus) (sender : Nat) :
    Message → Except Error (Consensus × List Cmd)
  | .malformed => .ok (s, [])
  | .prepare m => do return (← handlePrepare cfg s sender m, [])
  | .commit c => do return (← handleCommit cfg s sender c, [])
  | .checkpoint c => do return (← handleCheckpoint cfg s sender c, [])
  | .sealView => .ok (s, [.waitVerified sender, .sealView sender])
  | .newView m => handleNewView cfg s sender m

/-- `handleCbMessage`. -/
def handleCbMessage (cfg : Config) (s : Consensus) (sender index : Nat) (m : Message) :
    Except Error (Consensus × List Cmd) :=
  let next := (s.states sender).nextCb
  let s := s.modifyState sender fun r => { r with nextCb := r.nextCb + 1 }
  if index ≠ next then .ok (s, [.spin])
  else do
    let (s, cmds) ← handleMessage cfg (s.record (.delivered sender m)) sender m
    return (s, cmds ++ [.maybeCertifyCbCheckpoint sender])

/-- `cb_broadcaster.broadcast`, then `handleCbMessage`. -/
def broadcast (cfg : Config) (s : Consensus) (m : Message) :
    Except Error (Consensus × List Cmd) :=
  handleCbMessage cfg
    ({ s with nextIndex := s.nextIndex + 1 }.record
      (.broadcast (s.own cfg).atView s.nextIndex m))
    cfg.localIndex s.nextIndex m

/-! ### Commands -/

/-- The instances fast committed by the replica are all committed. -/
def CommittedAll (cfg : Config) (s : Consensus) : Prop :=
  ∀ e ∈ s.instanceStates.map.entries, e.2.fastCommitted.get cfg.localIndex = true →
    e.2.committed.get cfg.localIndex = true

instance (cfg : Config) (s : Consensus) : Decidable (CommittedAll cfg s) :=
  inferInstanceAs (Decidable (∀ e ∈ _, _ → _))

/-- `broadcastCheckpointCertificate`, up to the wait for the slack. -/
def broadcastCheckpointCertificate (cfg : Config) (s : Consensus) (force : Bool) :
    Consensus × List Cmd :=
  let low := s.certifiedCheckpoint.low
  if low ≤ s.sendCheckpointAbove then (s, [])
  else if force = false ∧ s.nextToDecide + 10 < (s.own cfg).checkpoint.high then (s, [])
  else
    ({ s with sendCheckpointAbove := low },
      [.waitForCbSlack, .broadcast (.checkpoint (some s.checkpointCertificate)),
        .pruneInstances low s.adopted])

/-- `forgetMessages` below the checkpoint, on `uint64_t`, and the instances below it. -/
def pruneInstances (cfg : Config) (s : Consensus) (low : Nat) : Consensus :=
  { s with
    prepareCertifier := s.prepareCertifier.forgetMessages
      (some (pack (s.own cfg).atView ((low + 2 ^ 64 - 1) % 2 ^ 64)))
    instanceStates := s.instanceStates.popBelow low }

/-- The end of `changeView`. -/
def forgetView (cfg : Config) (s : Consensus) : Consensus :=
  { s with
    prepareCertifier := s.prepareCertifier.forgetMessages (some (pack (s.own cfg).atView 0))
    instanceStates := s.instanceStates.clear }

/-- `pollPrepareCertificatePromises`, a promise at a time. -/
def pollPrepareCertificatePromises (cfg : Config) (s : Consensus) : Consensus × List Cmd :=
  let (c, promise) := s.prepareCertifier.pollPromise
  let s := { s with prepareCertifier := c }
  match promise with
  | none => (s, [])
  | some k => (handlePromise cfg s k, [.pollPrepareCertificatePromises])

/-- What a certificate polled from the prepare certifier leads to. -/
def handlePrepareCertificate (cfg : Config) (s : Consensus) (c : Certificate Bytes) : List Cmd :=
  if (unpack c.index).1 ≠ (s.own cfg).atView then [.pollPrepareCertificates]
  else if (s.own cfg).checkpoint.high ≤ (unpack c.index).2 then
    [.broadcastCheckpointCertificate true, .commitCertificate c, .pollPrepareCertificates]
  else [.commitCertificate c, .pollPrepareCertificates]

/-- `pollPrepareCertificates`. -/
def pollPrepareCertificates (cfg : Config) (s : Consensus) : Consensus × List Cmd :=
  let (c, certificate) := s.prepareCertifier.pollCertificate cfg.prepareCrypto
  let s := { s with prepareCertifier := c }
  match certificate with
  | none => (s, [])
  | some certificate => (s, handlePrepareCertificate cfg s certificate)

/-- A certificate that is still in the window is broadcast as a commit. -/
def commitCertificate (cfg : Config) (s : Consensus) (c : Certificate Bytes) :
    Except Error (List Cmd) :=
  if (unpack c.index).2 < (s.own cfg).checkpoint.low then .ok []
  else if cfg.maxProposalSize < c.message.length then .error (.insufficientBuffer c.message.length)
  else .ok [.waitForCbSlack, .broadcast (.commit (some c))]

/-- `pollVcStateCertificates`: with a quorum of certificates, the NewView is broadcast. -/
def pollVcStateCertificates (cfg : Config) (s : Consensus) : Consensus × List Cmd :=
  match s.ongoingViewChange with
  | none => (s, [])
  | some vc =>
    match pollVcStates cfg s vc (List.range cfg.ids.length) with
    | (s, none) => (s, [])
    | (s, some m) => (s, [.waitForCbSlack, .broadcast (.newView m), .repropose])

/-- The end of `pollVcStateCertificates`.  `valid_values` was set by the replica's own NewView. -/
def repropose (cfg : Config) (s : Consensus) : Except Error (Consensus × List Cmd) := do
  let values := (s.own cfg).validValues.elim ⟨cfg.window, .empty, 0⟩ (·.2)
  let first := s.certifiedCheckpoint.low
  let last := values.map.last?.elim first (·.1)
  let s ← getSlots cfg values { s with toPropose := [], nextProposal := first, proposed := first }
    (s.reproposed values)
  return (s, if first ≠ last then [.propose] else [])

/-- `canPropose`, and the tests of `propose` before its loop. -/
def propose (cfg : Config) (s : Consensus) : List Cmd :=
  if cfg.leader (s.own cfg).atView ≠ cfg.localId ∨ s.ongoingViewChange.isSome ∨ s.toPropose = []
  then [] else [.proposeLoop]

/-- A turn of the loop of `propose`. -/
def proposeLoop (cfg : Config) (s : Consensus) : Consensus × List Cmd :=
  if s.toPropose = [] ∨ (s.own cfg).checkpoint.high ≤ s.proposed then (s, [])
  else ({ s with proposed := s.proposed + 1 }, [.waitForCbSlack, .proposeNext, .proposeLoop])

/-- Broadcasts the first proposal. -/
def proposeNext (cfg : Config) (s : Consensus) : Except Error (Consensus × List Cmd) :=
  match s.toPropose with
  | [] => .ok (s, [])
  | m :: rest => broadcast cfg { s with toPropose := rest } (.prepare m)

/-- `pollFastCommit`: a message polled from a replica may be faulty. -/
def pollFastCommit (s : Consensus) (replica : Nat) :
    Option (Option FastCommitMessage) → Except Error Consensus
  | none => .ok s
  | some none => .error (.faultyFastCommit replica)
  | some (some m) => (s.record (.fastPolled replica m)).handleFastCommit replica m

/-- `pollCb`: a message of the broadcast of a replica, if there is one. -/
def pollCb (cfg : Config) (s : Consensus) (replica : Nat) :
    Option (Nat × Message) → Except Error (Consensus × List Cmd)
  | none => .ok (s, [])
  | some (index, m) => handleCbMessage cfg s replica index m

/-- `pollCbs`. -/
def pollCbs (cfg : Config) : List Cmd := (List.range cfg.receivers.length).map .pollCb

/-- One command: the state it leaves, and what is to be executed next. -/
def exec (cfg : Config) (s : Consensus) (inp : Input) :
    Cmd → Except Error (Consensus × List Cmd)
  | .pollCheckpointCertificate => .ok (pollCheckpointCertificate cfg s, [])
  | .broadcastCheckpointCertificate force => .ok (broadcastCheckpointCertificate cfg s force)
  | .pruneInstances low adopted =>
    .ok (pruneInstances cfg s (if adopted = s.adopted then low else inp.freed), [])
  | .pollCb r => pollCb cfg s r inp.cb
  | .maybeCertifyCbCheckpoint r =>
    .ok (s, if (s.states r).nextCb % (cfg.tail / 2) = 0 then
      [.waitVerified r, .certifyCbCheckpoint r] else [])
  | .waitVerified r =>
    .ok (s, if (s.states r).outstandingCommitVerifications = 0 then []
      else [.pollVerifiedCommits, .waitVerified r])
  | .certifyCbCheckpoint r => do return (← certifyCbCheckpoint cfg s r, [])
  | .sealView r => do return (← sealView cfg s r, [])
  | .catchUp r m =>
    if (s.own cfg).atView < m.view then .ok (s, [.changeView, .catchUp r m])
    else do return (← acceptNewView cfg s r m, [])
  | .changeView => .ok (s.record (.changingView (s.own cfg).atView), [.commitAll])
  | .commitAll => .ok (s, [.pollPrepareCertificates, .pollVerifiedCommits, .checkCommitted])
  | .checkCommitted =>
    .ok (s, if CommittedAll cfg s then [.waitForCbSlack, .broadcast .sealView, .forgetView]
      else [.commitAll])
  | .forgetView => .ok (forgetView cfg s, [])
  | .pollPrepareCertificatePromises => .ok (pollPrepareCertificatePromises cfg s)
  | .tryCertifyPrepares => do
    return (← tryCertifyPrepares cfg s (s.instanceStates.map.entries.map (·.1)), [])
  | .pollPrepareCertificates => .ok (pollPrepareCertificates cfg s)
  | .commitCertificate c => do return (s, ← commitCertificate cfg s c)
  | .pollVerifiedCommits => do
    return (← s.handleVerifiedCommits,
      if s.verifiedCommits = [] then [] else [.pollVerifiedCommits])
  | .pollVcStateCertificates => .ok (pollVcStateCertificates cfg s)
  | .repropose => repropose cfg s
  | .propose => .ok (s, propose cfg s)
  | .proposeLoop => .ok (proposeLoop cfg s)
  | .proposeNext => proposeNext cfg s
  | .pollFastCommit r => do return (← pollFastCommit s r inp.fastCommit, [])
  | .pollCbCheckpointCertificate => .ok (pollCbCheckpointCertificate cfg s, [])
  | .waitForCbSlack =>
    .ok (s, if s.canCbUntil < s.nextIndex then
      .pollCbCheckpointCertificate :: (pollCbs cfg ++ [.waitForCbSlack]) else [])
  | .broadcast m => broadcast cfg s m
  | .spin => .ok (s, [.spin])

/-! ### The application -/

/-- The public interface; `acceptRequest` reaches the request log only. -/
inductive Call where
  | tick
  | getSlot (batch : Bytes)
  | propose
  | pollDecision
  | triggerCheckpoint (lastApplied : Nat) (digest : Hash)
  | toggleSlowPath (enable : Bool)
  | changeView
  deriving DecidableEq, Repr

/-- `tick`, less what the certifiers and the CB receivers do in it. -/
def tick (cfg : Config) (s : Consensus) : List Cmd :=
  [.pollCheckpointCertificate, .broadcastCheckpointCertificate false] ++ pollCbs cfg ++
    [.pollPrepareCertificatePromises] ++
    (if s.slowPathEnabled then
      [.tryCertifyPrepares, .pollPrepareCertificates, .pollVerifiedCommits,
        .pollVcStateCertificates]
    else []) ++
    (List.range cfg.receivers.length).map .pollFastCommit ++ [.pollCbCheckpointCertificate]

/-- What a function of the interface does, or the commands it becomes. -/
def call (cfg : Config) (s : Consensus) : Call → Except Error (Consensus × List Cmd)
  | .tick => .ok (s, tick cfg s)
  | .getSlot batch => do return (← getSlot cfg s batch, [])
  | .propose => .ok (s, [.propose])
  | .pollDecision => do return (← s.pollDecision, [])
  | .triggerCheckpoint i digest => do return (← triggerCheckpoint cfg s i digest, [])
  | .toggleSlowPath b => .ok (s.toggleSlowPath b, [])
  | .changeView => .ok (s, [.changeView])

/-! ### The machine -/

/-- A replica and what it still has to execute. -/
structure Machine where
  core : Consensus
  todo : List Cmd

/-- What happens inside the certifiers' `tick`; the other operations are the replica's. -/
def Internal {M : Type} : Certifier.Op M → Prop
  | .handlePromise _ _ | .handleShare _ _ | .startCheck _ | .finishCheck _ | .pollVerifiedShare
  | .offloadShareComputation | .computeShare _ | .pollComputedShares => True
  | _ => False

instance {M : Type} : DecidablePred (Internal (M := M))
  | .handlePromise _ _ | .handleShare _ _ | .startCheck _ | .finishCheck _ | .pollVerifiedShare
  | .offloadShareComputation | .computeShare _ | .pollComputedShares => .isTrue trivial
  | .acknowledge _ _ | .receivedImplicitPromise _ _ | .pollPromise | .pollCertificate
  | .forgetMessages _ | .toggleFastPath _ | .toggleSlowPath _ => .isFalse id

/-- A step: a call, the next command, a certifier, a worker, or the request log. -/
inductive Label where
  | call (c : Call)
  | exec (inp : Input)
  | prepareCertifier (op : Certifier.Op Bytes)
  | vcStateCertifier (replica : Nat) (op : Certifier.Op SerializedState)
  | checkpointCertifier (op : Certifier.Op Checkpoint)
  | cbCheckpointCertifier (replica : Nat) (op : Certifier.Op CbCheckpoint)
  | startVerification (replica : Nat)
  | finishVerification (k : Nat)
  | requests (log : RequestLog)

namespace Machine

/-- What the replica's own thread does not decide. -/
def background (cfg : Config) (s : Consensus) : Label → Except Error Consensus
  | .prepareCertifier op =>
    if Internal op then do
      let c ← lift (s.prepareCertifier.apply cfg.prepareCrypto op)
      return { s with prepareCertifier := c }
    else .ok s
  | .vcStateCertifier r op =>
    if Internal op then do
      let c ← lift ((s.vcStateCertifiers r).apply cfg.vcStateCrypto op)
      return { s with vcStateCertifiers := Function.update s.vcStateCertifiers r c }
    else .ok s
  | .checkpointCertifier op =>
    if Internal op then do
      let c ← lift (s.checkpointCertifier.apply cfg.checkpointCrypto op)
      return { s with checkpointCertifier := c }
    else .ok s
  | .cbCheckpointCertifier r op =>
    if Internal op then do
      let c ← lift ((s.cbCheckpointCertifiers r).apply cfg.cbCheckpointCrypto op)
      return { s with cbCheckpointCertifiers := Function.update s.cbCheckpointCertifiers r c }
    else .ok s
  | .startVerification r => .ok (s.startVerification r)
  | .finishVerification k => .ok (finishVerification cfg s k)
  | .requests log => .ok { s with requestLog := log }
  | .call _ | .exec _ => .ok s

/-- One step; a call waits for the thread to be done with the previous one. -/
def next (cfg : Config) (m : Machine) : Label → Except Error Machine
  | .call c =>
    match m.todo with
    | [] => do
      let (s, cmds) ← call cfg m.core c
      return ⟨s, cmds⟩
    | _ :: _ => .ok m
  | .exec inp =>
    match m.todo with
    | [] => .ok m
    | cmd :: rest => do
      let (s, cmds) ← exec cfg m.core inp cmd
      return ⟨s, cmds ++ rest⟩
  | l => do return { m with core := ← background cfg m.core l }

/-- A replica that did nothing. -/
def Init (cfg : Config) (m : Machine) : Prop :=
  ∃ requestLog, m = ⟨.start cfg requestLog, []⟩

/-- The step relation of a replica. -/
def Step (cfg : Config) (m : Machine) (l : Label) (m' : Machine) : Prop := m.next cfg l = .ok m'

end Machine

end Ubft.Consensus
