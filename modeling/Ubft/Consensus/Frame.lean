import Ubft.Consensus.Views

/-!
# Consensus — the frame of a command

Most commands leave the checkpoints, the proposals and the progress of the replica alone
(`exec_frame`).  The others are `Cmd.framed = false`: those that adopt or broadcast a checkpoint,
receive a message, seal a view, build a NewView, propose, or certify the CB messages.
-/

namespace Ubft.Consensus

open Certifier (Certificate)

variable {cfg : Config} {s s' s'' : Consensus} {inp : Input}

/-- The checkpoints of a replica. -/
structure Checkpoints where
  certificate : Certificate Checkpoint
  adopted : Nat
  certifier : Certifier Checkpoint
  above : Nat
  received : Nat → Checkpoint

/-- What it proposes. -/
structure Proposals where
  toPropose : List PrepareMessage
  nextProposal : Nat
  proposed : Nat
  viewChange : Option ViewChangeState

/-- The events that tell its progress. -/
def Event.marks : Event → Bool
  | .broadcast .. | .decided .. => true
  | _ => false

/-- How far it broadcast and decided. -/
structure Progress where
  nextIndex : Nat
  canCbUntil : Nat
  certifiers : Nat → Certifier CbCheckpoint
  nextToDecide : Nat
  marks : List Event

/-- What the checkpoints, the proposals and the progress of a replica are. -/
structure Agenda where
  checkpoints : Checkpoints
  proposals : Proposals
  progress : Progress

/-- The checkpoints: the local ones, and those received. -/
def checkpoints (s : Consensus) : Checkpoints where
  certificate := s.checkpointCertificate
  adopted := s.adopted
  certifier := s.checkpointCertifier
  above := s.sendCheckpointAbove
  received r := (s.states r).checkpoint

/-- What is to be proposed, and what was. -/
def proposals (s : Consensus) : Proposals where
  toPropose := s.toPropose
  nextProposal := s.nextProposal
  proposed := s.proposed
  viewChange := s.ongoingViewChange

/-- How far the broadcasts and the decisions are. -/
def progress (s : Consensus) : Progress where
  nextIndex := s.nextIndex
  canCbUntil := s.canCbUntil
  certifiers := s.cbCheckpointCertifiers
  nextToDecide := s.nextToDecide
  marks := s.log.filter Event.marks

/-- What sealing a view and reproposing leave alone. -/
def settled (s : Consensus) : Checkpoints × Progress := (s.checkpoints, s.progress)

/-- The agenda of a replica. -/
def agenda (s : Consensus) : Agenda := ⟨s.checkpoints, s.proposals, s.progress⟩

/-- The checkpoints, the proposals and the progress are those of `s`. -/
def Frame (s s' : Consensus) : Prop := s'.agenda = s.agenda

namespace Frame

theorem trans (h : Frame s s') (h' : Frame s' s'') : Frame s s'' := Eq.trans h' h

/-- A record changes, and not its checkpoint. -/
theorem modifyState (s : Consensus) (r : Nat) {f : ReplicaState → ReplicaState}
    (hf : (f (s.states r)).checkpoint = (s.states r).checkpoint) : Frame s (s.modifyState r f) := by
  refine congrArg (fun c : Nat → Checkpoint =>
    (⟨{ s.checkpoints with received := c }, s.proposals, s.progress⟩ : Agenda))
    (funext fun r' => ?_)
  change (Function.update s.states r _ r').checkpoint = _
  by_cases hr : r' = r
  · rw [hr, Function.update_self, hf]
  · rw [Function.update_of_ne hr]

theorem checkpoints (h : Frame s s') : s'.checkpoints = s.checkpoints :=
  congrArg Agenda.checkpoints h

theorem proposals (h : Frame s s') : s'.proposals = s.proposals := congrArg Agenda.proposals h

theorem progress (h : Frame s s') : s'.progress = s.progress := congrArg Agenda.progress h

theorem settled (h : Frame s s') : s'.settled = s.settled :=
  Prod.ext h.checkpoints h.progress

end Frame

/-! ### The handlers -/

/-- A verified commit sets a bit. -/
theorem frame_handleVerifiedCommit {r : Nat} {c : Certificate Bytes}
    (h : s.handleVerifiedCommit r c = .ok s') : Frame s s' := by
  unfold handleVerifiedCommit at h
  simp only at h
  have hm : Frame s (s.modifyState r fun x => { x with
      outstandingCommitVerifications :=
        (x.outstandingCommitVerifications + 2 ^ 64 - 1) % 2 ^ 64 }) := .modifyState s r rfl
  split at h
  · cases h
    exact hm.trans rfl
  · split at h
    · cases h
    · cases h
      exact hm.trans rfl

theorem frame_handleVerifiedCommits (h : s.handleVerifiedCommits = .ok s') : Frame s s' := by
  unfold handleVerifiedCommits at h
  split at h
  · cases h; exact rfl
  · next rest _ =>
      split at h
      · have hq : Frame s { s with verifiedCommits := rest } := rfl
        exact hq.trans (frame_handleVerifiedCommit h)
      · cases h

theorem frame_replayCommit {useful r : Nat} (h : replayCommit useful s r = .ok s') :
    Frame s s' := by
  unfold replayCommit at h
  simp only at h
  split at h
  · cases h; exact rfl
  · split at h
    · obtain ⟨s₁, h₁, h₂⟩ := bind_eq_ok.mp h
      cases h₂
      have hb : Frame s { s with
          bufferedCommits := Function.update s.bufferedCommits r
            ((s.bufferedCommits r).popWhile fun c => decide (c.index < useful)) } := rfl
      exact hb.trans ((frame_handleVerifiedCommit h₁).trans rfl)
    · cases h; exact rfl

theorem frame_replayCommits {useful : Nat} {rs : List Nat}
    (h : replayCommits useful s rs = .ok s') : Frame s s' := by
  induction rs generalizing s with
  | nil => cases h; exact rfl
  | cons r rs ih =>
      obtain ⟨s₁, h₁, h₂⟩ := bind_eq_ok.mp h
      exact (frame_replayCommit h₁).trans (ih h₂)

theorem frame_handleCommit {r : Nat} {o : Option (Certificate Bytes)}
    (h : handleCommit cfg s r o = .ok s') : Frame s s' := by
  obtain ⟨c, x, -, -, hx, -, rfl⟩ := handleCommit_cases h
  obtain ⟨rfl, -⟩ := ReplicaState.commit_cases hx
  have hm : Frame s (s.modifyState r fun _ => { s.states r with
      commits := (s.states r).commits.insert (unpack c.index).2 (.of c)
      outstandingCommitVerifications :=
        ((s.states r).outstandingCommitVerifications + 1) % 2 ^ 64 }) := .modifyState s r rfl
  refine hm.trans ?_
  unfold verifyCommit
  split <;> exact rfl

theorem frame_tryCertifyPrepare {i : Nat} (h : tryCertifyPrepare cfg s i = .ok s') :
    Frame s s' := by
  unfold tryCertifyPrepare at h
  split at h
  · cases h; exact rfl
  · split at h
    · cases h; exact rfl
    · split at h
      · obtain ⟨c, -, h⟩ := bind_eq_ok.mp h
        obtain ⟨c', -, h⟩ := bind_eq_ok.mp h
        cases h
        exact rfl
      · cases h; exact rfl

theorem frame_tryCertifyPrepares {is : List Nat} (h : tryCertifyPrepares cfg s is = .ok s') :
    Frame s s' := by
  induction is generalizing s with
  | nil => cases h; exact rfl
  | cons i is ih =>
      obtain ⟨s₁, h₁, h₂⟩ := bind_eq_ok.mp h
      exact (frame_tryCertifyPrepare h₁).trans (ih h₂)

theorem frame_stored (t : TailMap InstanceState) (r : Nat) (p : PrepareMessage) :
    Frame s (stored s r p t) :=
  (Frame.modifyState s r (f := fun x => { x with nextPrepare := p.inst }) rfl).trans rfl

/-- A Prepare is stored in the window. -/
theorem frame_acceptPrepare {r : Nat} {p : PrepareMessage}
    (h : acceptPrepare cfg s r p = .ok s') : Frame s s' := by
  obtain ⟨t, b, s₂, -, hr, hc⟩ := acceptPrepare_cases h
  have h₁ : Frame s s₂ := (frame_stored t r p).trans (frame_replayCommits hr)
  exact (h₁.trans (.modifyState s₂ r rfl)).trans (frame_tryCertifyPrepare hc)

theorem frame_handlePrepare {r : Nat} {p : PrepareMessage}
    (h : handlePrepare cfg s r p = .ok s') : Frame s s' := by
  rcases handlePrepare_cases h with rfl | ⟨-, h⟩
  · exact rfl
  · exact frame_acceptPrepare h

/-- A message that is no Checkpoint leaves the checkpoints alone. -/
theorem frame_handleMessage {r : Nat} {m : Message} {cs : List Cmd}
    (h : handleMessage cfg s r m = .ok (s', cs)) (hm : ∀ c, m ≠ .checkpoint c) : Frame s s' := by
  cases m with
  | malformed => cases h; exact rfl
  | prepare p => exact frame_handlePrepare (pure_eq_ok h).1
  | commit c => exact frame_handleCommit (pure_eq_ok h).1
  | checkpoint c => exact absurd rfl (hm c)
  | sealView => cases h; exact rfl
  | newView nv =>
      obtain ⟨rfl, -⟩ := handleNewView_cases h
      exact rfl

theorem frame_handlePromise (s : Consensus) (k : Nat) : Frame s (handlePromise cfg s k) := by
  unfold handlePromise
  split <;> exact rfl

/-- A NewView is kept for its view. -/
theorem frame_acceptNewView {r : Nat} {m : NewViewMessage}
    (h : acceptNewView cfg s r m = .ok s') : Frame s s' := by
  obtain ⟨values, -, rfl⟩ := acceptNewView_cases h
  exact (Frame.modifyState s r (f := fun x => { x with
    nextPrepare := x.checkpoint.low
    validValues := some (m.view, values) }) rfl).trans rfl

/-! ### The commands -/

/-- The commands that leave the checkpoints, the proposals and the progress alone. -/
def Cmd.framed : Cmd → Bool
  | .pollCheckpointCertificate | .broadcastCheckpointCertificate _ | .pollCb _ | .sealView _
  | .pollVcStateCertificates | .repropose | .proposeLoop | .proposeNext | .broadcast _
  | .certifyCbCheckpoint _ | .pollCbCheckpointCertificate => false
  | _ => true

/-- **The frame.** -/
theorem exec_frame {c : Cmd} {cs : List Cmd} (h : exec cfg s inp c = .ok (s', cs))
    (hc : c.framed = true) : Frame s s' := by
  cases c with
  | pruneInstances low n => cases h; exact rfl
  | maybeCertifyCbCheckpoint r => cases h; exact rfl
  | waitVerified r => cases h; exact rfl
  | catchUp r m =>
      simp only [exec] at h
      split at h
      · cases h; exact rfl
      · exact frame_acceptNewView (pure_eq_ok h).1
  | changeView => cases h; exact rfl
  | commitAll => cases h; exact rfl
  | checkCommitted => cases h; exact rfl
  | forgetView => cases h; exact rfl
  | pollPrepareCertificatePromises =>
      simp only [exec, pollPrepareCertificatePromises] at h
      split at h
      · cases h; exact rfl
      · cases h; exact frame_handlePromise { s with prepareCertifier := _ } _
  | tryCertifyPrepares => exact frame_tryCertifyPrepares (pure_eq_ok h).1
  | pollPrepareCertificates =>
      simp only [exec, pollPrepareCertificates] at h
      split at h
      · cases h; exact rfl
      · cases h; exact rfl
  | commitCertificate c =>
      obtain ⟨cs', -, h⟩ := bind_eq_ok.mp h
      cases h
      exact rfl
  | pollVerifiedCommits => exact frame_handleVerifiedCommits (pure_eq_ok h).1
  | propose => cases h; exact rfl
  | pollFastCommit r =>
      have h := (pure_eq_ok h).1
      cases hi : inp.fastCommit with
      | none => rw [hi] at h; cases h; exact rfl
      | some o =>
          rw [hi] at h
          cases o with
          | none => cases h
          | some m =>
              rcases handleFastCommit_cases h with ⟨rfl, -⟩ | rfl
              · exact rfl
              · exact rfl
  | waitForCbSlack => cases h; exact rfl
  | spin => cases h; exact rfl
  | _ => cases hc

theorem frame_delivering (s : Consensus) (r : Nat) (m : Message) : Frame s (delivering s r m) :=
  (Frame.modifyState s r (f := fun x => { x with nextCb := x.nextCb + 1 }) rfl).trans rfl

theorem Drops.checkpoints {c : Cmd} (h : Drops cfg s c s') : s'.checkpoints = s.checkpoints := by
  have hd : ∀ (s : Consensus) (r : Nat), (skipping s r).checkpoints = s.checkpoints :=
    fun s r => (Frame.modifyState s r rfl).checkpoints
  cases h with
  | nothing => rfl
  | poll r => exact hd s r
  | broadcast m => exact hd _ _
  | propose hp => exact hd _ _

/-- Receiving comes before handling. -/
theorem Receives.checkpoints {c : Cmd} {r : Nat} {m : Message} {s₁ : Consensus}
    (h : Receives cfg s inp c r m s₁) : s₁.checkpoints = s.checkpoints := by
  cases h with
  | poll hi => exact (frame_delivering s r m).checkpoints
  | broadcast m => exact (frame_delivering (broadcasting cfg s m) _ m).checkpoints
  | @propose p rest hp =>
      exact (frame_delivering (broadcasting cfg { s with toPropose := rest } _) _ _).checkpoints

end Ubft.Consensus
