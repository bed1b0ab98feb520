import Ubft.Consensus.Frame

/-!
# Consensus — the certified checkpoint

The certified checkpoint only moves up (`low_le_exec`), so that what
`broadcastCheckpointCertificate` is still to prune lies below it
(`Machine.pending_of_reachable`).
-/

namespace Ubft.Consensus

open Certifier (Certificate)

variable {cfg : Config} {s s' : Consensus} {inp : Input}

theorem certified_of_checkpoints (h : s'.checkpoints = s.checkpoints) :
    s'.certifiedCheckpoint = s.certifiedCheckpoint :=
  congrArg (fun c : Checkpoints => c.certificate.message) h

/-- An older certificate is not adopted. -/
theorem low_le_handleCheckpointCertificate (s : Consensus) (c : Certificate Checkpoint) :
    s.certifiedCheckpoint.low ≤ (s.handleCheckpointCertificate c).certifiedCheckpoint.low := by
  unfold handleCheckpointCertificate
  split
  · exact Nat.le_refl _
  · next h => exact Nat.le_of_lt (Nat.not_le.mp h)

theorem settled_sealView {r : Nat} (h : sealView cfg s r = .ok s') :
    s'.settled = s.settled := by
  obtain ⟨c, -, rfl⟩ := sealView_cases h
  have hm : Frame s (s.modifyState r fun x => { x with
      serializedState := some (.of (s.states r).atView (s.states r).commits)
      atView := (s.states r).atView + 1 }) := .modifyState s r rfl
  unfold startViewChange
  split <;> exact hm.settled

theorem checkpoints_certifyCbCheckpoint {r : Nat} (h : certifyCbCheckpoint cfg s r = .ok s') :
    s'.checkpoints = s.checkpoints := by
  obtain ⟨c, -, h⟩ := bind_eq_ok.mp h
  cases h
  have hm : Frame s (s.modifyState r fun x => { x with cbCheckpoint := some x.checkpointCb }) :=
    .modifyState s r rfl
  exact hm.checkpoints

/-- The checkpoint certifier was polled. -/
def polledCheckpoint (cfg : Config) (s : Consensus) : Consensus :=
  { s with
    checkpointCertifier := (s.checkpointCertifier.pollCertificate cfg.checkpointCrypto).1 }

/-- A certificate is handled if there is one. -/
theorem pollCheckpointCertificate_eq (cfg : Config) (s : Consensus) :
    pollCheckpointCertificate cfg s = polledCheckpoint cfg s ∨
      ∃ c, (s.checkpointCertifier.pollCertificate cfg.checkpointCrypto).2 = some c ∧
        pollCheckpointCertificate cfg s = (polledCheckpoint cfg s).handleCheckpointCertificate c := by
  unfold pollCheckpointCertificate
  simp only
  split
  · exact .inl rfl
  · next c hc => exact .inr ⟨c, hc, rfl⟩

/-- What a command does to the checkpoints. -/
inductive Adopts (cfg : Config) (s : Consensus) (inp : Input) : Cmd → Consensus → Prop where
  | same {c : Cmd} {s' : Consensus} (above : Nat)
      (h : s'.checkpoints = { s.checkpoints with above }) : Adopts cfg s inp c s'
  | poll : Adopts cfg s inp .pollCheckpointCertificate (pollCheckpointCertificate cfg s)
  | receive {c : Cmd} {r : Nat} {o : Option (Certificate Checkpoint)} {s₁ s' : Consensus}
      (hr : Receives cfg s inp c r (.checkpoint o) s₁) (h : handleCheckpoint cfg s₁ r o = .ok s') :
      Adopts cfg s inp c s'

/-- **What a command does to the checkpoints.** -/
theorem exec_adopts {c : Cmd} {cs : List Cmd} (h : exec cfg s inp c = .ok (s', cs)) :
    Adopts cfg s inp c s' := by
  have hreceive : (∃ r, c = .pollCb r) ∨ c = .proposeNext ∨ (∃ m, c = .broadcast m) →
      Adopts cfg s inp c s' := by
    intro hc
    rcases exec_receives h hc with ⟨hd, -⟩ | ⟨r, m, s₁, cs₀, hr, hm, -⟩
    · exact .same _ hd.checkpoints
    · by_cases hx : ∃ o, m = .checkpoint o
      · obtain ⟨o, rfl⟩ := hx
        exact .receive hr (pure_eq_ok hm).1
      · exact .same _ ((frame_handleMessage hm fun o ho => hx ⟨o, ho⟩).checkpoints.trans hr.checkpoints)
  cases c with
  | pollCheckpointCertificate => cases h; exact .poll
  | broadcastCheckpointCertificate force =>
      obtain ⟨n, he⟩ := broadcastCheckpointCertificate_cases cfg s force
      rw [Except.ok.inj h] at he
      obtain rfl : s' = _ := he
      exact .same n rfl
  | pollCb r => exact hreceive (.inl ⟨r, rfl⟩)
  | proposeNext => exact hreceive (.inr (.inl rfl))
  | broadcast m => exact hreceive (.inr (.inr ⟨m, rfl⟩))
  | sealView r => exact .same _ (congrArg Prod.fst (settled_sealView (pure_eq_ok h).1))
  | pollVcStateCertificates =>
      obtain ⟨vcs, o, he⟩ := pollVcStateCertificates_cases cfg s
      rw [Except.ok.inj h] at he
      obtain rfl : s' = _ := he
      exact .same _ rfl
  | repropose => obtain ⟨ps, n, k, rfl⟩ := repropose_cases h; exact .same _ rfl
  | certifyCbCheckpoint r => exact .same _ (checkpoints_certifyCbCheckpoint (pure_eq_ok h).1)
  | pollCbCheckpointCertificate =>
      cases h
      obtain ⟨ccs, n, he⟩ := pollCbCheckpointCertificate_cases cfg s
      rw [he]
      exact .same _ rfl
  | proposeLoop =>
      obtain ⟨n, he⟩ := proposeLoop_cases cfg s
      rw [Except.ok.inj h] at he
      obtain rfl : s' = _ := he
      exact .same _ rfl
  | _ => exact .same _ (exec_frame h rfl).checkpoints

/-- **The checkpoint certified moves up.** -/
theorem low_le_exec {c : Cmd} {cs : List Cmd} (h : exec cfg s inp c = .ok (s', cs)) :
    s.certifiedCheckpoint.low ≤ s'.certifiedCheckpoint.low := by
  cases exec_adopts h with
  | same above h => exact Nat.le_of_eq (congrArg (·.certificate.message.low) h).symm
  | poll =>
      rcases pollCheckpointCertificate_eq cfg s with he | ⟨c, -, he⟩
      · rw [he]
        exact Nat.le_refl _
      · rw [he]
        exact low_le_handleCheckpointCertificate (polledCheckpoint cfg s) c
  | receive hr h =>
      rw [← certified_of_checkpoints hr.checkpoints]
      obtain ⟨c, -, -, -, rfl⟩ := handleCheckpoint_cases h
      exact low_le_handleCheckpointCertificate (Consensus.modifyState _ _ fun x => { x with
        checkpoint := c.message
        commits := x.commits.popWhile fun i => decide (i < c.message.low) }) c

/-- Only `triggerCheckpoint` changes what is to be certified. -/
theorem checkpoints_call {c : Call} {cs : List Cmd} (h : call cfg s c = .ok (s', cs)) :
    s'.checkpoints = s.checkpoints ∨ ∃ i d, triggerCheckpoint cfg s i d = .ok s' := by
  cases c with
  | tick => cases h; exact .inl rfl
  | propose => cases h; exact .inl rfl
  | changeView => cases h; exact .inl rfl
  | toggleSlowPath b => cases h; exact .inl rfl
  | getSlot b => obtain ⟨ps, n, rfl⟩ := getSlot_cases (pure_eq_ok h).1; exact .inl rfl
  | pollDecision =>
      refine .inl ?_
      have h := (pure_eq_ok h).1
      unfold pollDecision at h
      split at h
      · cases h; rfl
      · split at h
        · split at h
          · cases h; rfl
          · cases h
        · cases h; rfl
  | triggerCheckpoint i d => exact .inr ⟨i, d, (pure_eq_ok h).1⟩

theorem certified_call {c : Call} {cs : List Cmd} (h : call cfg s c = .ok (s', cs)) :
    s'.certifiedCheckpoint = s.certifiedCheckpoint := by
  rcases checkpoints_call h with hc | ⟨i, d, ht⟩
  · exact certified_of_checkpoints hc
  · obtain ⟨c, cc, rfl⟩ := triggerCheckpoint_cases ht
    rfl

theorem certified_background {l : Label} (h : Machine.background cfg s l = .ok s') :
    s'.certifiedCheckpoint = s.certifiedCheckpoint := by
  obtain ⟨_, _, _, _, _, _, _, _, rfl, -⟩ := background_cases h
  rfl

/-! ### What is pending -/

/-- What a command that is still to be executed refers to: the checkpoint pruned was certified,
the NewView accepted was received. -/
def Pending (s : Consensus) : Cmd → Prop
  | .pruneInstances low _ => low ≤ s.certifiedCheckpoint.low
  | .catchUp r m => .delivered r (.newView m) ∈ s.log
  | _ => True

/-- What was delivered and adopted stays so. -/
theorem Pending.mono {c : Cmd} (h : Pending s c) (hl : s.log ⊆ s'.log)
    (hc : s.certifiedCheckpoint.low ≤ s'.certifiedCheckpoint.low) : Pending s' c := by
  cases c with
  | pruneInstances low n => exact Nat.le_trans h hc
  | catchUp r m => exact hl h
  | _ => trivial

/-- What a command leads to refers to what it left. -/
theorem pending_spawned {c : Cmd} {cs : List Cmd} (h : exec cfg s inp c = .ok (s', cs))
    (hp : Pending s c) : ∀ c' ∈ cs, Pending s' c' := by
  intro c' hc'
  cases leads_of_spawns (exec_spawns h) hc' with
  | prune b low n =>
      simp only [exec, broadcastCheckpointCertificate] at h
      split at h
      · cases h; cases hc'
      · split at h
        · cases h; cases hc'
        · cases h
          simp only [List.mem_cons, reduceCtorEq, Cmd.pruneInstances.injEq, List.not_mem_nil,
            or_false, false_or] at hc'
          exact Nat.le_of_eq hc'.1
  | catchUpAgain r m => exact hp.mono (suffix_exec h).subset (low_le_exec h)
  | delivers hc _ _ =>
      have hc : (∃ r, c = .pollCb r) ∨ c = .proposeNext ∨ ∃ m, c = .broadcast m := by
        rcases hc with rfl | ⟨-, rfl | rfl⟩
        · exact .inl ⟨_, rfl⟩
        · exact .inr (.inr ⟨_, rfl⟩)
        · exact .inr (.inl rfl)
      rcases exec_receives h hc with ⟨-, ⟨-, rfl⟩ | rfl⟩ | ⟨r, m, s₁, cs₀, hr, hm, rfl⟩
      · cases hc'
      · rw [List.mem_singleton.mp hc']
        trivial
      · cases (handleMessage_delivers hm).delivered hc' with
        | catchUp nv =>
            obtain ⟨rfl, -⟩ := handleNewView_cases hm
            exact hr.mem_delivered
        | _ => trivial
  | _ => trivial

theorem pending_call {c : Call} {cs : List Cmd} (h : call cfg s c = .ok (s', cs)) :
    ∀ c' ∈ cs, Pending s' c' := by
  intro c' hc'
  cases called_of_call h hc' <;> trivial

/-- Every command left has been called for. -/
theorem Machine.pending_of_reachable {good : Machine → Label → Prop} {m : Machine}
    (h : Reachable (Init cfg) (Step cfg) good m) : ∀ c ∈ m.todo, Pending m.core c := by
  refine h.induct (P := fun m => ∀ c ∈ m.todo, Pending m.core c) (fun m hm => ?_)
    fun m l m' _ hp _ hs => ?_
  · obtain ⟨requestLog, rfl⟩ := hm
    exact fun _ hc => (nomatch hc)
  · rcases step_cases hs with ⟨c, s, cs, -, ht, hc, rfl⟩ | ⟨inp, c, rest, s, cs, -, ht, he, rfl⟩ |
      ⟨s, hb, rfl⟩
    · exact pending_call hc
    · rw [ht] at hp
      intro c' hc'
      rcases List.mem_append.mp hc' with hc' | hc'
      · exact pending_spawned he (hp c List.mem_cons_self) c' hc'
      · exact (hp c' (List.mem_cons_of_mem c hc')).mono (suffix_exec he).subset (low_le_exec he)
    · intro c hc
      exact (hp c hc).mono (keeps_background hb).log.suffix.subset
        (by rw [certified_background hb])

end Ubft.Consensus
