import Ubft.Consensus.Machine

/-!
# Consensus — what waits for what

The shape of `todo` in every run: which commands a command puts before the others (`Spawns`), and
what therefore stands behind a command (`Fits`).  Between the SealView of the replica and the end
of `changeView` nothing is executed but the verification of its commits and the certification of
a CB checkpoint: the `Phase` of `todo` says whether the replica is there.
-/

namespace Ubft.Consensus

open Certifier (Certificate)

variable {cfg : Config} {s s' : Consensus} {inp : Input}

/-! ### Phases -/

/-- What a command does of the view of the replica. -/
inductive Cmd.Kind where
  /-- Runs also while the replica seals a view. -/
  | quiet
  | seal (replica : Nat)
  | forget
  | loud
  deriving DecidableEq

/-- The kind of a command. -/
def Cmd.kind : Cmd → Cmd.Kind
  | .maybeCertifyCbCheckpoint _ | .waitVerified _ | .certifyCbCheckpoint _
  | .pollVerifiedCommits => .quiet
  | .sealView r => .seal r
  | .forgetView => .forget
  | _ => .loud

/-- How far the replica is in the change of its view. -/
inductive Phase where
  | working
  /-- The SealView is broadcast, the view is the same. -/
  | sealing
  /-- The view is the next one, the instances are those of the view before. -/
  | sealed
  deriving DecidableEq

/-- The phase that the commands left to do tell. -/
def phase (cfg : Config) : List Cmd → Phase
  | [] => .working
  | c :: cs =>
    match c.kind with
    | .quiet => phase cfg cs
    | .seal r => if r = cfg.localIndex ∧ phase cfg cs = .sealed then .sealing else .working
    | .forget => .sealed
    | .loud => .working

/-- A quiet command is in the phase of what follows it. -/
theorem phase_quiet {c : Cmd} (h : c.kind = .quiet) (cs : List Cmd) :
    phase cfg (c :: cs) = phase cfg cs := by
  rw [phase, h]

theorem phase_loud {c : Cmd} (h : c.kind = .loud) (cs : List Cmd) :
    phase cfg (c :: cs) = .working := by
  rw [phase, h]

theorem phase_forget (cs : List Cmd) : phase cfg (.forgetView :: cs) = .sealed := rfl

/-- Sealing the own view ends the work. -/
theorem phase_seal_own {cs : List Cmd} (h : phase cfg cs = .sealed) :
    phase cfg (.sealView cfg.localIndex :: cs) = .sealing := by
  rw [phase, Cmd.kind]
  exact if_pos ⟨rfl, h⟩

theorem phase_seal_of_ne {r : Nat} (h : r ≠ cfg.localIndex) (cs : List Cmd) :
    phase cfg (.sealView r :: cs) = .working := by
  rw [phase, Cmd.kind]
  exact if_neg fun hr => h hr.1

/-! ### What a command leads to -/

/-- What the delivery of a message leads to. -/
def Delivers (r : Nat) (m : Message) (cs : List Cmd) : Prop :=
  cs = [.spin] ∨ m ≠ .sealView ∧ cs = [.maybeCertifyCbCheckpoint r] ∨
    m = .sealView ∧ cs = [.waitVerified r, .sealView r, .maybeCertifyCbCheckpoint r] ∨
    ∃ nv, m = .newView nv ∧ cs = [.catchUp r nv, .maybeCertifyCbCheckpoint r]

/-- The commands it leads to, one by one. -/
inductive Delivered (r : Nat) : Message → Cmd → Prop where
  | spin (m : Message) : Delivered r m .spin
  | certify (m : Message) : Delivered r m (.maybeCertifyCbCheckpoint r)
  | wait : Delivered r .sealView (.waitVerified r)
  | seals : Delivered r .sealView (.sealView r)
  | catchUp (nv : NewViewMessage) : Delivered r (.newView nv) (.catchUp r nv)

theorem Delivers.delivered {r : Nat} {m : Message} {cs : List Cmd} (h : Delivers r m cs)
    {c : Cmd} (hc : c ∈ cs) : Delivered r m c := by
  rcases h with rfl | ⟨-, rfl⟩ | ⟨rfl, rfl⟩ | ⟨nv, rfl, rfl⟩
  all_goals
    simp only [List.mem_cons, List.not_mem_nil, or_false] at hc
  · subst hc
    exact .spin m
  · subst hc
    exact .certify m
  · rcases hc with rfl | rfl | rfl
    exacts [.wait, .seals, .certify _]
  · rcases hc with rfl | rfl
    exacts [.catchUp nv, .certify _]

/-- What a command leads to. -/
def Spawns (cfg : Config) : Cmd → List Cmd → Prop
  | .broadcastCheckpointCertificate _, cs => cs = [] ∨ ∃ c low n,
      cs = [.waitForCbSlack, .broadcast (.checkpoint (some c)), .pruneInstances low n]
  | .pollCb r, cs => cs = [] ∨ ∃ m, Delivers r m cs
  | .maybeCertifyCbCheckpoint r, cs => cs = [] ∨ cs = [.waitVerified r, .certifyCbCheckpoint r]
  | .waitVerified r, cs => cs = [] ∨ cs = [.pollVerifiedCommits, .waitVerified r]
  | .catchUp r m, cs => cs = [] ∨ cs = [.changeView, .catchUp r m]
  | .changeView, cs => cs = [.commitAll]
  | .commitAll, cs => cs = [.pollPrepareCertificates, .pollVerifiedCommits, .checkCommitted]
  | .checkCommitted, cs =>
      cs = [.waitForCbSlack, .broadcast .sealView, .forgetView] ∨ cs = [.commitAll]
  | .pollPrepareCertificatePromises, cs => cs = [] ∨ cs = [.pollPrepareCertificatePromises]
  | .pollPrepareCertificates, cs => cs = [] ∨ cs = [.pollPrepareCertificates] ∨
      (∃ c, cs = [.commitCertificate c, .pollPrepareCertificates]) ∨
      ∃ c, cs = [.broadcastCheckpointCertificate true, .commitCertificate c,
        .pollPrepareCertificates]
  | .commitCertificate c, cs => cs = [] ∨ cs = [.waitForCbSlack, .broadcast (.commit (some c))]
  | .pollVerifiedCommits, cs => cs = [] ∨ cs = [.pollVerifiedCommits]
  | .pollVcStateCertificates, cs => cs = [] ∨
      ∃ m, cs = [.waitForCbSlack, .broadcast (.newView m), .repropose]
  | .repropose, cs => cs = [] ∨ cs = [.propose]
  | .propose, cs => cs = [] ∨ cs = [.proposeLoop]
  | .proposeLoop, cs => cs = [] ∨ cs = [.waitForCbSlack, .proposeNext, .proposeLoop]
  | .proposeNext, cs => cs = [] ∨ ∃ p, Delivers cfg.localIndex (.prepare p) cs
  | .waitForCbSlack, cs => cs = [] ∨
      cs = .pollCbCheckpointCertificate :: (pollCbs cfg ++ [.waitForCbSlack])
  | .broadcast m, cs => Delivers cfg.localIndex m cs
  | .spin, cs => cs = [.spin]
  | _, cs => cs = []

/-- A computation followed by nothing. -/
theorem pure_eq_ok {ε α β : Type} {x : Except ε α} {a : α} {b b' : β}
    (h : (x >>= fun a => pure (a, b)) = .ok (a, b')) : x = .ok a ∧ b' = b := by
  obtain ⟨a', ha, hp⟩ := bind_eq_ok.mp h
  cases hp
  exact ⟨ha, rfl⟩

/-- A message is delivered, and what its handler leads to comes before the CB checkpoint. -/
theorem handleCbMessage_cases {r index : Nat} {m : Message} {cs : List Cmd}
    (h : handleCbMessage cfg s r index m = .ok (s', cs)) :
    (s' = s.modifyState r (fun x => { x with nextCb := x.nextCb + 1 }) ∧ cs = [.spin]) ∨
    index = (s.states r).nextCb ∧ ∃ cs₀,
      handleMessage cfg ((s.modifyState r fun x => { x with nextCb := x.nextCb + 1 }).record
        (.delivered r m)) r m = .ok (s', cs₀) ∧ cs = cs₀ ++ [.maybeCertifyCbCheckpoint r] := by
  unfold handleCbMessage at h
  simp only at h
  split at h
  · cases h; exact .inl ⟨rfl, rfl⟩
  · next hi =>
      obtain ⟨⟨s₁, cs₀⟩, h₁, h₂⟩ := bind_eq_ok.mp h
      cases h₂
      exact .inr ⟨not_not.mp hi, cs₀, h₁, rfl⟩

/-- What handling a message leaves to be done. -/
theorem handleMessage_delivers {r : Nat} {m : Message} {cs : List Cmd}
    (h : handleMessage cfg s r m = .ok (s', cs)) :
    Delivers r m (cs ++ [.maybeCertifyCbCheckpoint r]) := by
  cases m with
  | malformed => cases h; exact .inr (.inl ⟨nofun, rfl⟩)
  | prepare p => obtain ⟨-, rfl⟩ := pure_eq_ok h; exact .inr (.inl ⟨nofun, rfl⟩)
  | commit c => obtain ⟨-, rfl⟩ := pure_eq_ok h; exact .inr (.inl ⟨nofun, rfl⟩)
  | checkpoint c => obtain ⟨-, rfl⟩ := pure_eq_ok h; exact .inr (.inl ⟨nofun, rfl⟩)
  | sealView => cases h; exact .inr (.inr (.inl ⟨rfl, rfl⟩))
  | newView nv =>
      simp only [handleMessage, handleNewView] at h
      split at h
      · cases h; exact .inr (.inl ⟨nofun, rfl⟩)
      · split at h
        · cases h
        · cases h
        · cases h; exact .inr (.inr (.inr ⟨nv, rfl, rfl⟩))

/-- What receiving a message leaves to be done. -/
theorem handleCbMessage_delivers {r index : Nat} {m : Message} {cs : List Cmd}
    (h : handleCbMessage cfg s r index m = .ok (s', cs)) : Delivers r m cs := by
  rcases handleCbMessage_cases h with ⟨-, rfl⟩ | ⟨-, cs₀, h₁, rfl⟩
  · exact .inl rfl
  · exact handleMessage_delivers h₁

/-- What a command leaves to be done. -/
theorem exec_spawns {c : Cmd} {cs : List Cmd} (h : exec cfg s inp c = .ok (s', cs)) :
    Spawns cfg c cs := by
  cases c with
  | pollCheckpointCertificate => cases h; rfl
  | broadcastCheckpointCertificate force =>
      simp only [exec, broadcastCheckpointCertificate] at h
      split at h
      · cases h; exact .inl rfl
      · split at h
        · cases h; exact .inl rfl
        · cases h; exact .inr ⟨_, _, _, rfl⟩
  | pruneInstances low n => cases h; rfl
  | pollCb r =>
      simp only [exec, pollCb] at h
      split at h
      · cases h; exact .inl rfl
      · exact .inr ⟨_, handleCbMessage_delivers h⟩
  | maybeCertifyCbCheckpoint r =>
      cases h
      simp only [Spawns]
      split
      · exact .inr rfl
      · exact .inl rfl
  | waitVerified r =>
      cases h
      simp only [Spawns]
      split
      · exact .inl rfl
      · exact .inr rfl
  | certifyCbCheckpoint r => exact (pure_eq_ok h).2
  | sealView r => exact (pure_eq_ok h).2
  | catchUp r m =>
      simp only [exec] at h
      split at h
      · cases h; exact .inr rfl
      · exact .inl (pure_eq_ok h).2
  | changeView => cases h; rfl
  | commitAll => cases h; rfl
  | checkCommitted =>
      cases h
      simp only [Spawns]
      split
      · exact .inl rfl
      · exact .inr rfl
  | forgetView => cases h; rfl
  | pollPrepareCertificatePromises =>
      simp only [exec, pollPrepareCertificatePromises] at h
      split at h
      · cases h; exact .inl rfl
      · cases h; exact .inr rfl
  | tryCertifyPrepares => exact (pure_eq_ok h).2
  | pollPrepareCertificates =>
      simp only [exec, pollPrepareCertificates] at h
      split at h
      · cases h; exact .inl rfl
      · next c _ =>
          cases h
          simp only [handlePrepareCertificate]
          split
          · exact .inr (.inl rfl)
          · split
            · exact .inr (.inr (.inr ⟨c, rfl⟩))
            · exact .inr (.inr (.inl ⟨c, rfl⟩))
  | commitCertificate c =>
      obtain ⟨cs', h₁, h₂⟩ := bind_eq_ok.mp h
      cases h₂
      unfold commitCertificate at h₁
      split at h₁
      · cases h₁; exact .inl rfl
      · split at h₁
        · cases h₁
        · cases h₁; exact .inr rfl
  | pollVerifiedCommits =>
      obtain ⟨-, rfl⟩ := pure_eq_ok h
      simp only [Spawns]
      split
      · exact .inl rfl
      · exact .inr rfl
  | pollVcStateCertificates =>
      simp only [exec, pollVcStateCertificates] at h
      split at h
      · cases h; exact .inl rfl
      · split at h
        · cases h; exact .inl rfl
        · cases h; exact .inr ⟨_, rfl⟩
  | repropose =>
      simp only [exec, repropose] at h
      obtain ⟨-, rfl⟩ := pure_eq_ok h
      simp only [Spawns]
      split
      · exact .inr rfl
      · exact .inl rfl
  | propose =>
      cases h
      simp only [Spawns, propose]
      split
      · exact .inl rfl
      · exact .inr rfl
  | proposeLoop =>
      simp only [exec, proposeLoop] at h
      split at h
      · cases h; exact .inl rfl
      · cases h; exact .inr rfl
  | proposeNext =>
      simp only [exec, proposeNext] at h
      split at h
      · cases h; exact .inl rfl
      · exact .inr ⟨_, handleCbMessage_delivers h⟩
  | pollFastCommit r => exact (pure_eq_ok h).2
  | pollCbCheckpointCertificate => cases h; rfl
  | waitForCbSlack =>
      cases h
      simp only [Spawns]
      split
      · exact .inr rfl
      · exact .inl rfl
  | broadcast m => exact handleCbMessage_delivers h
  | spin => cases h; rfl

/-- The commands that a command may lead to. -/
inductive Leads (cfg : Config) : Cmd → Cmd → Prop where
  | checkpointSlack (b : Bool) : Leads cfg (.broadcastCheckpointCertificate b) .waitForCbSlack
  | checkpoint (b : Bool) (c : Certificate Checkpoint) :
      Leads cfg (.broadcastCheckpointCertificate b) (.broadcast (.checkpoint (some c)))
  | prune (b : Bool) (low n : Nat) :
      Leads cfg (.broadcastCheckpointCertificate b) (.pruneInstances low n)
  | delivers {c c' : Cmd} {r : Nat} {m : Message} {cs : List Cmd}
      (hc : c = .pollCb r ∨ r = cfg.localIndex ∧ (c = .broadcast m ∨ c = .proposeNext))
      (hd : Delivers r m cs) (h : c' ∈ cs) : Leads cfg c c'
  | cbWait (r : Nat) : Leads cfg (.maybeCertifyCbCheckpoint r) (.waitVerified r)
  | cbCertify (r : Nat) : Leads cfg (.maybeCertifyCbCheckpoint r) (.certifyCbCheckpoint r)
  | verify (r : Nat) : Leads cfg (.waitVerified r) .pollVerifiedCommits
  | verifyAgain (r : Nat) : Leads cfg (.waitVerified r) (.waitVerified r)
  | catchUp (r : Nat) (m : NewViewMessage) : Leads cfg (.catchUp r m) .changeView
  | catchUpAgain (r : Nat) (m : NewViewMessage) : Leads cfg (.catchUp r m) (.catchUp r m)
  | changeView : Leads cfg .changeView .commitAll
  | commitPoll : Leads cfg .commitAll .pollPrepareCertificates
  | commitVerify : Leads cfg .commitAll .pollVerifiedCommits
  | commitCheck : Leads cfg .commitAll .checkCommitted
  | sealSlack : Leads cfg .checkCommitted .waitForCbSlack
  | sealBroadcast : Leads cfg .checkCommitted (.broadcast .sealView)
  | forget : Leads cfg .checkCommitted .forgetView
  | commitAgain : Leads cfg .checkCommitted .commitAll
  | promises : Leads cfg .pollPrepareCertificatePromises .pollPrepareCertificatePromises
  | certificates : Leads cfg .pollPrepareCertificates .pollPrepareCertificates
  | certificate (c : Certificate Bytes) :
      Leads cfg .pollPrepareCertificates (.commitCertificate c)
  | certificateCheckpoint :
      Leads cfg .pollPrepareCertificates (.broadcastCheckpointCertificate true)
  | commitSlack (c : Certificate Bytes) : Leads cfg (.commitCertificate c) .waitForCbSlack
  | commit (c : Certificate Bytes) :
      Leads cfg (.commitCertificate c) (.broadcast (.commit (some c)))
  | verified : Leads cfg .pollVerifiedCommits .pollVerifiedCommits
  | newViewSlack : Leads cfg .pollVcStateCertificates .waitForCbSlack
  | newView (m : NewViewMessage) : Leads cfg .pollVcStateCertificates (.broadcast (.newView m))
  | repropose : Leads cfg .pollVcStateCertificates .repropose
  | propose : Leads cfg .repropose .propose
  | proposals : Leads cfg .propose .proposeLoop
  | proposeSlack : Leads cfg .proposeLoop .waitForCbSlack
  | proposeNext : Leads cfg .proposeLoop .proposeNext
  | proposeAgain : Leads cfg .proposeLoop .proposeLoop
  | slackCheckpoint : Leads cfg .waitForCbSlack .pollCbCheckpointCertificate
  | slackCb (r : Nat) (h : r < cfg.receivers.length) : Leads cfg .waitForCbSlack (.pollCb r)
  | slackAgain : Leads cfg .waitForCbSlack .waitForCbSlack
  | spin : Leads cfg .spin .spin

theorem leads_of_spawns {c c' : Cmd} {cs : List Cmd} (h : Spawns cfg c cs) (hc : c' ∈ cs) :
    Leads cfg c c' := by
  cases c with
  | broadcastCheckpointCertificate b =>
      rcases h with rfl | ⟨c, low, n, rfl⟩
      · cases hc
      · simp only [List.mem_cons, List.not_mem_nil, or_false] at hc
        rcases hc with rfl | rfl | rfl
        exacts [.checkpointSlack b, .checkpoint b c, .prune b low n]
  | pollCb r =>
      rcases h with rfl | ⟨m, hd⟩
      · cases hc
      · exact .delivers (.inl rfl) hd hc
  | maybeCertifyCbCheckpoint r =>
      rcases h with rfl | rfl
      · cases hc
      · simp only [List.mem_cons, List.not_mem_nil, or_false] at hc
        rcases hc with rfl | rfl
        exacts [.cbWait r, .cbCertify r]
  | waitVerified r =>
      rcases h with rfl | rfl
      · cases hc
      · simp only [List.mem_cons, List.not_mem_nil, or_false] at hc
        rcases hc with rfl | rfl
        exacts [.verify r, .verifyAgain r]
  | catchUp r m =>
      rcases h with rfl | rfl
      · cases hc
      · simp only [List.mem_cons, List.not_mem_nil, or_false] at hc
        rcases hc with rfl | rfl
        exacts [.catchUp r m, .catchUpAgain r m]
  | changeView =>
      subst h
      rw [List.mem_singleton.mp hc]
      exact .changeView
  | commitAll =>
      subst h
      simp only [List.mem_cons, List.not_mem_nil, or_false] at hc
      rcases hc with rfl | rfl | rfl
      exacts [.commitPoll, .commitVerify, .commitCheck]
  | checkCommitted =>
      rcases h with rfl | rfl
      · simp only [List.mem_cons, List.not_mem_nil, or_false] at hc
        rcases hc with rfl | rfl | rfl
        exacts [.sealSlack, .sealBroadcast, .forget]
      · rw [List.mem_singleton.mp hc]
        exact .commitAgain
  | pollPrepareCertificatePromises =>
      rcases h with rfl | rfl
      · cases hc
      · rw [List.mem_singleton.mp hc]
        exact .promises
  | pollPrepareCertificates =>
      rcases h with rfl | rfl | ⟨c, rfl⟩ | ⟨c, rfl⟩
      · cases hc
      · rw [List.mem_singleton.mp hc]
        exact .certificates
      · simp only [List.mem_cons, List.not_mem_nil, or_false] at hc
        rcases hc with rfl | rfl
        exacts [.certificate c, .certificates]
      · simp only [List.mem_cons, List.not_mem_nil, or_false] at hc
        rcases hc with rfl | rfl | rfl
        exacts [.certificateCheckpoint, .certificate c, .certificates]
  | commitCertificate c =>
      rcases h with rfl | rfl
      · cases hc
      · simp only [List.mem_cons, List.not_mem_nil, or_false] at hc
        rcases hc with rfl | rfl
        exacts [.commitSlack c, .commit c]
  | pollVerifiedCommits =>
      rcases h with rfl | rfl
      · cases hc
      · rw [List.mem_singleton.mp hc]
        exact .verified
  | pollVcStateCertificates =>
      rcases h with rfl | ⟨m, rfl⟩
      · cases hc
      · simp only [List.mem_cons, List.not_mem_nil, or_false] at hc
        rcases hc with rfl | rfl | rfl
        exacts [.newViewSlack, .newView m, .repropose]
  | repropose =>
      rcases h with rfl | rfl
      · cases hc
      · rw [List.mem_singleton.mp hc]
        exact .propose
  | propose =>
      rcases h with rfl | rfl
      · cases hc
      · rw [List.mem_singleton.mp hc]
        exact .proposals
  | proposeLoop =>
      rcases h with rfl | rfl
      · cases hc
      · simp only [List.mem_cons, List.not_mem_nil, or_false] at hc
        rcases hc with rfl | rfl | rfl
        exacts [.proposeSlack, .proposeNext, .proposeAgain]
  | proposeNext =>
      rcases h with rfl | ⟨p, hd⟩
      · cases hc
      · exact .delivers (.inr ⟨rfl, .inr rfl⟩) hd hc
  | waitForCbSlack =>
      rcases h with rfl | rfl
      · cases hc
      · simp only [pollCbs, List.mem_cons, List.mem_append, List.mem_map, List.mem_range,
          List.not_mem_nil, or_false] at hc
        rcases hc with rfl | ⟨r, hr, rfl⟩ | rfl
        exacts [.slackCheckpoint, .slackCb r hr, .slackAgain]
  | broadcast m => exact .delivers (.inr ⟨rfl, .inl rfl⟩) h hc
  | spin =>
      subst h
      rw [List.mem_singleton.mp hc]
      exact .spin
  | _ =>
      subst h
      cases hc

/-! ### What stands behind a command -/

/-- What stands behind a command.  Behind a loud one that ends the phase is `working`, unless it
broadcasts the SealView; a SealView is handled once the commits of its sender are verified. -/
def Fits (cfg : Config) (c : Cmd) (cs : List Cmd) : Prop :=
  (∀ r, cs.head? = some (.sealView r) → c = .waitVerified r) ∧
  match c with
  | .maybeCertifyCbCheckpoint _ | .waitVerified _ | .certifyCbCheckpoint _
  | .pollVerifiedCommits | .spin => True
  | .sealView r => phase cfg cs = if r = cfg.localIndex then .sealed else .working
  | .broadcast .sealView => cs.head? = some .forgetView
  | .pollCb r | .pollFastCommit r => r < cfg.receivers.length ∧ phase cfg cs = .working
  | _ => phase cfg cs = .working

/-- The commands left to do fit in one another. -/
def Nested (cfg : Config) : List Cmd → Prop
  | [] => True
  | c :: cs => Fits cfg c cs ∧ Nested cfg cs

/-- A loud command is only executed while working. -/
theorem Fits.working {c : Cmd} {cs : List Cmd} (h : Fits cfg c cs) (hk : c.kind = .loud)
    (hc : c ≠ .broadcast .sealView) (hs : c ≠ .spin) : phase cfg cs = .working := by
  obtain ⟨-, h⟩ := h
  cases c with
  | spin => exact absurd rfl hs
  | broadcast m =>
      cases m with
      | sealView => exact absurd rfl hc
      | _ => exact h
  | pollCb r => exact h.2
  | pollFastCommit r => exact h.2
  | maybeCertifyCbCheckpoint r => cases hk
  | waitVerified r => cases hk
  | certifyCbCheckpoint r => cases hk
  | pollVerifiedCommits => cases hk
  | sealView r => cases hk
  | _ => exact h

/-- What stands behind a command that is not a wait stands behind any. -/
theorem Fits.head {c : Cmd} {cs : List Cmd} (h : Fits cfg c cs) (hc : ∀ r, c ≠ .waitVerified r)
    (r : Nat) : cs.head? ≠ some (.sealView r) :=
  fun hh => hc r (h.1 r hh)

/-- A loud command of no particular kind. -/
theorem fits_of_working {c : Cmd} {cs : List Cmd} (hh : ∀ r, cs.head? ≠ some (.sealView r))
    (hw : phase cfg cs = .working)
    (hp : ∀ r, c = .pollCb r ∨ c = .pollFastCommit r → r < cfg.receivers.length)
    (hs : ∀ r, c ≠ .sealView r) (hb : c ≠ .broadcast .sealView) : Fits cfg c cs := by
  refine ⟨fun r hr => absurd hr (hh r), ?_⟩
  cases c with
  | broadcast m =>
      cases m with
      | sealView => exact absurd rfl hb
      | _ => exact hw
  | pollCb r => exact ⟨hp r (.inl rfl), hw⟩
  | pollFastCommit r => exact ⟨hp r (.inr rfl), hw⟩
  | sealView r => exact absurd rfl (hs r)
  | maybeCertifyCbCheckpoint r => trivial
  | waitVerified r => trivial
  | certifyCbCheckpoint r => trivial
  | pollVerifiedCommits => trivial
  | spin => trivial
  | _ => exact hw

/-- A quiet command. -/
theorem fits_quiet {c : Cmd} {cs : List Cmd} (hk : c.kind = .quiet)
    (hh : ∀ r, cs.head? = some (.sealView r) → c = .waitVerified r) : Fits cfg c cs := by
  refine ⟨hh, ?_⟩
  cases c with
  | maybeCertifyCbCheckpoint r => trivial
  | waitVerified r => trivial
  | certifyCbCheckpoint r => trivial
  | pollVerifiedCommits => trivial
  | _ => cases hk

/-- What a delivery leaves to be done is nested in what was. -/
theorem nested_delivers {r : Nat} {m : Message} {cs rest : List Cmd} (hd : Delivers r m cs)
    (hn : Nested cfg rest) (hh : ∀ r, rest.head? ≠ some (.sealView r))
    (hs : m = .sealView → phase cfg rest = if r = cfg.localIndex then .sealed else .working)
    (hw : m ≠ .sealView → phase cfg rest = .working) : Nested cfg (cs ++ rest) := by
  have hq : Fits cfg (.maybeCertifyCbCheckpoint r) rest := fits_quiet rfl fun r' h => absurd h (hh r')
  rcases hd with rfl | ⟨-, rfl⟩ | ⟨rfl, rfl⟩ | ⟨nv, rfl, rfl⟩
  · exact ⟨⟨fun r' h => absurd h (hh r'), trivial⟩, hn⟩
  · exact ⟨hq, hn⟩
  · refine ⟨fits_quiet rfl fun r' h => ?_, ⟨fun r' => nofun, ?_⟩, hq, hn⟩
    · cases h; rfl
    · exact (phase_quiet rfl rest).trans (hs rfl)
  · have hp : phase cfg (.maybeCertifyCbCheckpoint r :: rest) = .working :=
      (phase_quiet rfl rest).trans (hw nofun)
    exact ⟨fits_of_working (fun _ => nofun) hp (fun _ => nofun) (fun _ => nofun) nofun, hq, hn⟩

/-- The loud commands that ask nothing of their replica. -/
def Cmd.plain : Cmd → Bool
  | .broadcast .sealView | .pollCb _ | .pollFastCommit _ => false
  | c => decide (c.kind = .loud)

/-- A plain command delivers nothing. -/
theorem Cmd.plain_cases {c : Cmd} (h : c.plain = true) :
    c.kind = .loud ∧ c ≠ .broadcast .sealView ∧ (∀ r, c ≠ .pollCb r) ∧
      ∀ r, c ≠ .pollFastCommit r := by
  refine ⟨?_, ?_, ?_, ?_⟩
  · cases c with
    | broadcast m =>
        cases m with
        | sealView => cases h
        | _ => rfl
    | pollCb r => cases h
    | pollFastCommit r => cases h
    | _ => exact of_decide_eq_true h
  · rintro rfl
    cases h
  · rintro r rfl
    cases h
  · rintro r rfl
    cases h

/-- What may stand at the front of `todo` whatever comes before it. -/
structure Base (cfg : Config) (cs : List Cmd) : Prop where
  nested : Nested cfg cs
  working : phase cfg cs = .working
  head : ∀ r, cs.head? ≠ some (.sealView r)

/-- Plain commands may come first. -/
theorem Base.plain {rest : List Cmd} (h : Base cfg rest) (cs : List Cmd)
    (hc : cs.all Cmd.plain = true) : Base cfg (cs ++ rest) := by
  induction cs with
  | nil => exact h
  | cons c cs ih =>
      rw [List.all_cons, Bool.and_eq_true] at hc
      have ih := ih hc.2
      obtain ⟨hk, hb, hp, hf⟩ := Cmd.plain_cases hc.1
      refine ⟨⟨fits_of_working ih.head ih.working ?_ ?_ hb, ih.nested⟩, phase_loud hk _,
        fun r hr => ?_⟩
      · rintro r (h | h)
        · exact absurd h (hp r)
        · exact absurd h (hf r)
      · rintro r rfl
        cases hk
      · cases hr
        cases hk

theorem Base.quiet {c : Cmd} {cs : List Cmd} (h : Base cfg cs) (hk : c.kind = .quiet) :
    Base cfg (c :: cs) := by
  refine ⟨⟨fits_quiet hk fun r hr => absurd hr (h.head r), h.nested⟩,
    (phase_quiet hk cs).trans h.working, fun r hr => ?_⟩
  cases hr
  cases hk

/-- Polling the peers. -/
theorem Base.poll {f : Nat → Cmd} (hf : f = .pollCb ∨ f = .pollFastCommit) (rs : List Nat)
    {cs : List Cmd} (h : Base cfg cs) (hr : ∀ r ∈ rs, r < cfg.receivers.length) :
    Base cfg (rs.map f ++ cs) := by
  induction rs with
  | nil => exact h
  | cons r rs ih =>
      have ih := ih fun r' h => hr r' (List.mem_cons_of_mem r h)
      have hlt := hr r List.mem_cons_self
      rcases hf with rfl | rfl
      · exact ⟨⟨⟨fun r' h => absurd h (ih.head r'), hlt, ih.working⟩, ih.nested⟩, rfl,
          fun _ => nofun⟩
      · exact ⟨⟨⟨fun r' h => absurd h (ih.head r'), hlt, ih.working⟩, ih.nested⟩, rfl,
          fun _ => nofun⟩

/-- A loud command leaves a base, unless it broadcasts the SealView or never ends. -/
theorem Fits.base {c : Cmd} {cs : List Cmd} (h : Fits cfg c cs) (hn : Nested cfg cs)
    (hk : c.kind = .loud) (hb : c ≠ .broadcast .sealView) (hs : c ≠ .spin) : Base cfg cs := by
  refine ⟨hn, h.working hk hb hs, h.head fun r hr => ?_⟩
  rw [hr] at hk
  cases hk

/-- **Nesting.**  A command keeps the shape of what is to be executed. -/
theorem nested_exec {c : Cmd} {cs rest : List Cmd} (h : exec cfg s inp c = .ok (s', cs))
    (hn : Nested cfg (c :: rest)) : Nested cfg (cs ++ rest) := by
  obtain ⟨hf, hn⟩ := hn
  have hs := exec_spawns h
  cases c with
  | broadcastCheckpointCertificate force =>
      have hb := hf.base hn rfl nofun nofun
      rcases hs with rfl | ⟨c, low, n, rfl⟩
      · exact hn
      · exact (hb.plain _ rfl).nested
  | pollCb r =>
      have hb := hf.base hn rfl nofun nofun
      have hr : r ≠ cfg.localIndex := Nat.ne_of_lt hf.2.1
      rcases hs with rfl | ⟨m, hd⟩
      · exact hn
      · refine nested_delivers hd hn hb.head (fun _ => ?_) fun _ => hb.working
        rw [if_neg hr]
        exact hb.working
  | maybeCertifyCbCheckpoint r =>
      rcases hs with rfl | rfl
      · exact hn
      · refine ⟨fits_quiet rfl fun _ => nofun, fits_quiet rfl fun r' hr' => ?_, hn⟩
        exact absurd hr' (hf.head (fun _ => nofun) r')
  | waitVerified r =>
      rcases hs with rfl | rfl
      · exact hn
      · exact ⟨fits_quiet rfl fun _ => nofun, hf, hn⟩
  | catchUp r m =>
      have hb := hf.base hn rfl nofun nofun
      rcases hs with rfl | rfl
      · exact hn
      · exact (hb.plain _ rfl).nested
  | changeView =>
      have hb := hf.base hn rfl nofun nofun
      subst hs
      exact (hb.plain _ rfl).nested
  | commitAll =>
      have hb := hf.base hn rfl nofun nofun
      subst hs
      have hc : Base cfg (.checkCommitted :: rest) := hb.plain [_] rfl
      exact ((hc.quiet (c := .pollVerifiedCommits) rfl).plain [_] rfl).nested
  | checkCommitted =>
      have hb := hf.base hn rfl nofun nofun
      rcases hs with rfl | rfl
      · -- the SealView is broadcast right before the end of `changeView`
        have hg : Nested cfg (.broadcast .sealView :: .forgetView :: rest) :=
          ⟨⟨fun _ => nofun, rfl⟩, ⟨fun r hr => absurd hr (hb.head r), hb.working⟩, hn⟩
        exact ⟨⟨fun _ => nofun, rfl⟩, hg⟩
      · exact (hb.plain _ rfl).nested
  | pollPrepareCertificatePromises =>
      have hb := hf.base hn rfl nofun nofun
      rcases hs with rfl | rfl
      · exact hn
      · exact (hb.plain _ rfl).nested
  | pollPrepareCertificates =>
      have hb := hf.base hn rfl nofun nofun
      rcases hs with rfl | rfl | ⟨c, rfl⟩ | ⟨c, rfl⟩
      · exact hn
      · exact (hb.plain _ rfl).nested
      · exact (hb.plain _ rfl).nested
      · exact (hb.plain _ rfl).nested
  | commitCertificate c =>
      have hb := hf.base hn rfl nofun nofun
      rcases hs with rfl | rfl
      · exact hn
      · exact (hb.plain _ rfl).nested
  | pollVerifiedCommits =>
      rcases hs with rfl | rfl
      · exact hn
      · refine ⟨fits_quiet rfl fun r hr => ?_, hn⟩
        exact absurd hr (hf.head (fun _ => nofun) r)
  | pollVcStateCertificates =>
      have hb := hf.base hn rfl nofun nofun
      rcases hs with rfl | ⟨m, rfl⟩
      · exact hn
      · exact (hb.plain _ rfl).nested
  | repropose =>
      have hb := hf.base hn rfl nofun nofun
      rcases hs with rfl | rfl
      · exact hn
      · exact (hb.plain _ rfl).nested
  | propose =>
      have hb := hf.base hn rfl nofun nofun
      rcases hs with rfl | rfl
      · exact hn
      · exact (hb.plain _ rfl).nested
  | proposeLoop =>
      have hb := hf.base hn rfl nofun nofun
      rcases hs with rfl | rfl
      · exact hn
      · exact (hb.plain _ rfl).nested
  | proposeNext =>
      have hb := hf.base hn rfl nofun nofun
      rcases hs with rfl | ⟨p, hd⟩
      · exact hn
      · exact nested_delivers hd hn hb.head nofun fun _ => hb.working
  | waitForCbSlack =>
      have hb := hf.base hn rfl nofun nofun
      rcases hs with rfl | rfl
      · exact hn
      · have hw : Base cfg (.waitForCbSlack :: rest) := hb.plain [_] rfl
        have hp := hw.poll (.inl rfl) (List.range cfg.receivers.length)
          fun r hr => List.mem_range.mp hr
        have := (hp.plain [.pollCbCheckpointCertificate] rfl).nested
        simpa [pollCbs] using this
  | broadcast m =>
      cases m with
      | sealView =>
          have hh : rest.head? = some .forgetView := hf.2
          refine nested_delivers hs hn (fun r hr => ?_) (fun _ => ?_) nofun
          · rw [hh] at hr
            cases hr
          · rw [if_pos rfl]
            cases rest with
            | nil => cases hh
            | cons c rest => cases hh; rfl
      | _ =>
          have hb := hf.base hn rfl nofun nofun
          exact nested_delivers hs hn hb.head nofun fun _ => hb.working
  | spin =>
      subst hs
      exact ⟨hf, hn⟩
  | _ =>
      subst hs
      exact hn

/-- A delivery is not in a sealed view. -/
theorem not_sealed_of_delivers {r : Nat} {m : Message} {cs rest : List Cmd}
    (hd : Delivers r m cs) (hw : m ≠ .sealView → phase cfg rest = .working) :
    phase cfg (cs ++ rest) ≠ .sealed := by
  rcases hd with rfl | ⟨hne, rfl⟩ | ⟨rfl, rfl⟩ | ⟨nv, rfl, rfl⟩
  · exact nofun
  · rw [List.singleton_append, phase_quiet rfl, hw hne]
    exact nofun
  · change phase cfg (.waitVerified r :: .sealView r :: _) ≠ .sealed
    rw [phase_quiet rfl, phase, Cmd.kind]
    simp only
    split <;> exact nofun
  · exact nofun

/-- A loud command does not lead to the end of a view change. -/
theorem not_sealed_of_loud {c : Cmd} {cs rest : List Cmd} (hk : c.kind = .loud)
    (hf : Fits cfg c rest) (hs : Spawns cfg c cs) : phase cfg (cs ++ rest) ≠ .sealed := by
  have hnil : c ≠ .broadcast .sealView → c ≠ .spin → phase cfg ([] ++ rest) ≠ .sealed := by
    intro hb hsp
    rw [List.nil_append, hf.working hk hb hsp]
    exact nofun
  cases c with
  | broadcast m =>
      refine not_sealed_of_delivers hs fun hm => hf.working rfl (fun hc => ?_) nofun
      cases hc
      exact hm rfl
  | pollCb r =>
      rcases hs with rfl | ⟨m, hd⟩
      · exact hnil nofun nofun
      · exact not_sealed_of_delivers hd fun _ => hf.working rfl nofun nofun
  | proposeNext =>
      rcases hs with rfl | ⟨p, hd⟩
      · exact hnil nofun nofun
      · exact not_sealed_of_delivers hd fun _ => hf.working rfl nofun nofun
  | broadcastCheckpointCertificate force =>
      rcases hs with rfl | ⟨c, low, n, rfl⟩
      · exact hnil nofun nofun
      · exact nofun
  | pollPrepareCertificates =>
      rcases hs with rfl | rfl | ⟨c, rfl⟩ | ⟨c, rfl⟩
      · exact hnil nofun nofun
      · exact nofun
      · exact nofun
      · exact nofun
  | pollVcStateCertificates =>
      rcases hs with rfl | ⟨m, rfl⟩
      · exact hnil nofun nofun
      · exact nofun
  | catchUp r m => rcases hs with rfl | rfl; exacts [hnil nofun nofun, nofun]
  | pollPrepareCertificatePromises => rcases hs with rfl | rfl; exacts [hnil nofun nofun, nofun]
  | commitCertificate c => rcases hs with rfl | rfl; exacts [hnil nofun nofun, nofun]
  | repropose => rcases hs with rfl | rfl; exacts [hnil nofun nofun, nofun]
  | propose => rcases hs with rfl | rfl; exacts [hnil nofun nofun, nofun]
  | proposeLoop => rcases hs with rfl | rfl; exacts [hnil nofun nofun, nofun]
  | waitForCbSlack => rcases hs with rfl | rfl; exacts [hnil nofun nofun, nofun]
  | checkCommitted => rcases hs with rfl | rfl; exacts [nofun, nofun]
  | changeView => subst hs; exact nofun
  | commitAll => subst hs; exact nofun
  | spin => subst hs; exact nofun
  | maybeCertifyCbCheckpoint r => cases hk
  | waitVerified r => cases hk
  | certifyCbCheckpoint r => cases hk
  | pollVerifiedCommits => cases hk
  | sealView r => cases hk
  | forgetView => cases hk
  | _ => subst hs; exact hnil nofun nofun

/-- The phase before and after a command. -/
theorem phase_exec {c : Cmd} {cs rest : List Cmd} (h : exec cfg s inp c = .ok (s', cs))
    (hn : Nested cfg (c :: rest)) :
    c.kind = .quiet ∧ phase cfg (cs ++ rest) = phase cfg (c :: rest) ∨
    (∃ r, c = .sealView r ∧ r ≠ cfg.localIndex ∧ phase cfg (c :: rest) = .working ∧
      phase cfg (cs ++ rest) = .working) ∨
    (c = .sealView cfg.localIndex ∧ phase cfg (c :: rest) = .sealing ∧
      phase cfg (cs ++ rest) = .sealed) ∨
    (c = .forgetView ∧ phase cfg (c :: rest) = .sealed ∧ phase cfg (cs ++ rest) = .working) ∨
    c.kind = .loud ∧ phase cfg (c :: rest) = .working ∧ phase cfg (cs ++ rest) ≠ .sealed := by
  obtain ⟨hf, hn⟩ := hn
  have hs := exec_spawns h
  by_cases hk : c.kind = .loud
  · exact .inr (.inr (.inr (.inr ⟨hk, phase_loud hk rest, not_sealed_of_loud hk hf hs⟩)))
  · cases c with
    | maybeCertifyCbCheckpoint r =>
        rcases hs with rfl | rfl
        · exact .inl ⟨rfl, rfl⟩
        · exact .inl ⟨rfl, rfl⟩
    | waitVerified r =>
        rcases hs with rfl | rfl
        · exact .inl ⟨rfl, rfl⟩
        · exact .inl ⟨rfl, rfl⟩
    | certifyCbCheckpoint r => subst hs; exact .inl ⟨rfl, rfl⟩
    | pollVerifiedCommits =>
        rcases hs with rfl | rfl
        · exact .inl ⟨rfl, rfl⟩
        · exact .inl ⟨rfl, rfl⟩
    | sealView r =>
        subst hs
        have hp := hf.2
        by_cases hr : r = cfg.localIndex
        · simp only [if_pos hr] at hp
          subst hr
          exact .inr (.inr (.inl ⟨rfl, phase_seal_own hp, hp⟩))
        · simp only [if_neg hr] at hp
          exact .inr (.inl ⟨r, rfl, hr, phase_seal_of_ne hr rest, hp⟩)
    | forgetView => subst hs; exact .inr (.inr (.inr (.inl ⟨rfl, rfl, hf.2⟩)))
    | _ => exact absurd rfl hk

/-- Only the end of a view and of its change matter. -/
theorem sealed_iff {c : Cmd} {cs rest : List Cmd} (h : exec cfg s inp c = .ok (s', cs))
    (hn : Nested cfg (c :: rest)) (hf : c ≠ .forgetView) (hs : c ≠ .sealView cfg.localIndex) :
    phase cfg (cs ++ rest) = .sealed ↔ phase cfg (c :: rest) = .sealed := by
  rcases phase_exec h hn with ⟨-, hp⟩ | ⟨r, -, -, hp, hp'⟩ | ⟨hc, -⟩ | ⟨hc, -⟩ | ⟨-, hp, hp'⟩
  · rw [hp]
  · rw [hp, hp']
  · exact absurd hc hs
  · exact absurd hc hf
  · rw [hp]
    exact ⟨fun h => absurd h hp', fun h => nomatch h⟩

/-- Where a view ends. -/
theorem phase_seal {cs rest : List Cmd} (h : exec cfg s inp (.sealView cfg.localIndex) = .ok (s', cs))
    (hn : Nested cfg (.sealView cfg.localIndex :: rest)) :
    phase cfg (.sealView cfg.localIndex :: rest) = .sealing ∧
      phase cfg (cs ++ rest) = .sealed := by
  rcases phase_exec h hn with ⟨hc, -⟩ | ⟨r, hc, hr, -⟩ | ⟨-, hp⟩ | ⟨hc, -⟩ | ⟨hc, -⟩
  · cases hc
  · exact absurd (Cmd.sealView.inj hc).symm hr
  · exact hp
  · cases hc
  · cases hc

/-- The commands that a call of the application leads to. -/
inductive Called : Cmd → Prop where
  | pollCheckpointCertificate : Called .pollCheckpointCertificate
  | broadcastCheckpointCertificate : Called (.broadcastCheckpointCertificate false)
  | pollCb (r : Nat) : Called (.pollCb r)
  | pollPrepareCertificatePromises : Called .pollPrepareCertificatePromises
  | tryCertifyPrepares : Called .tryCertifyPrepares
  | pollPrepareCertificates : Called .pollPrepareCertificates
  | pollVerifiedCommits : Called .pollVerifiedCommits
  | pollVcStateCertificates : Called .pollVcStateCertificates
  | pollFastCommit (r : Nat) : Called (.pollFastCommit r)
  | pollCbCheckpointCertificate : Called .pollCbCheckpointCertificate
  | propose : Called .propose
  | changeView : Called .changeView

/-- What a call leaves to be done. -/
theorem called_of_call {c : Call} {cs : List Cmd} (h : call cfg s c = .ok (s', cs)) {a : Cmd}
    (ha : a ∈ cs) : Called a := by
  cases c with
  | tick =>
      cases h
      simp only [tick, pollCbs, List.mem_append, List.mem_cons, List.mem_map, List.not_mem_nil,
        or_false] at ha
      rcases ha with (((((rfl | rfl) | ⟨r, -, rfl⟩) | rfl) | ha) | ⟨r, -, rfl⟩) | rfl
      · exact .pollCheckpointCertificate
      · exact .broadcastCheckpointCertificate
      · exact .pollCb r
      · exact .pollPrepareCertificatePromises
      · split at ha
        · simp only [List.mem_cons, List.not_mem_nil, or_false] at ha
          rcases ha with rfl | rfl | rfl | rfl
          · exact .tryCertifyPrepares
          · exact .pollPrepareCertificates
          · exact .pollVerifiedCommits
          · exact .pollVcStateCertificates
        · cases ha
      · exact .pollFastCommit r
      · exact .pollCbCheckpointCertificate
  | propose => cases h; rw [List.mem_singleton.mp ha]; exact .propose
  | changeView => cases h; rw [List.mem_singleton.mp ha]; exact .changeView
  | toggleSlowPath b => cases h; cases ha
  | getSlot b => obtain ⟨-, rfl⟩ := pure_eq_ok h; cases ha
  | pollDecision => obtain ⟨-, rfl⟩ := pure_eq_ok h; cases ha
  | triggerCheckpoint i d => obtain ⟨-, rfl⟩ := pure_eq_ok h; cases ha

theorem base_nil : Base cfg [] := ⟨trivial, rfl, fun _ => nofun⟩

/-- What a call of the application leads to. -/
theorem nested_call {c : Call} {cs : List Cmd} (h : call cfg s c = .ok (s', cs)) :
    Nested cfg cs := by
  have hlt : ∀ r ∈ List.range cfg.receivers.length, r < cfg.receivers.length :=
    fun r hr => List.mem_range.mp hr
  cases c with
  | tick =>
      cases h
      have h₁ : Base cfg [.pollCbCheckpointCertificate] := base_nil.plain [_] rfl
      have h₂ := h₁.poll (.inr rfl) _ hlt
      have h₃ : Base cfg ((if s.slowPathEnabled then
          [.tryCertifyPrepares, .pollPrepareCertificates, .pollVerifiedCommits,
            .pollVcStateCertificates] else []) ++
          ((List.range cfg.receivers.length).map .pollFastCommit ++
            [.pollCbCheckpointCertificate])) := by
        split
        · have hq := (h₂.plain [.pollVcStateCertificates] rfl).quiet
            (c := .pollVerifiedCommits) rfl
          exact hq.plain [.tryCertifyPrepares, .pollPrepareCertificates] rfl
        · exact h₂
      have h₄ := (h₃.plain [.pollPrepareCertificatePromises] rfl).poll (.inl rfl) _ hlt
      have h₅ := (h₄.plain [.pollCheckpointCertificate,
        .broadcastCheckpointCertificate false] rfl).nested
      simpa [tick, pollCbs] using h₅
  | propose => cases h; exact (base_nil.plain [.propose] rfl).nested
  | toggleSlowPath b => cases h; trivial
  | changeView => cases h; exact (base_nil.plain [.changeView] rfl).nested
  | getSlot b => obtain ⟨-, rfl⟩ := pure_eq_ok h; trivial
  | pollDecision => obtain ⟨-, rfl⟩ := pure_eq_ok h; trivial
  | triggerCheckpoint i d => obtain ⟨-, rfl⟩ := pure_eq_ok h; trivial

namespace Machine

variable {m m' : Machine} {l : Label}

/-- A step: the application calls, the thread executes a command, or the background changes the
state behind the thread's back. -/
theorem step_cases (h : m.Step cfg l m') :
    (∃ c s cs, l = .call c ∧ m.todo = [] ∧ call cfg m.core c = .ok (s, cs) ∧ m' = ⟨s, cs⟩) ∨
    (∃ inp c rest s cs, l = .exec inp ∧ m.todo = c :: rest ∧
      exec cfg m.core inp c = .ok (s, cs) ∧ m' = ⟨s, cs ++ rest⟩) ∨
    ∃ s, background cfg m.core l = .ok s ∧ m' = ⟨s, m.todo⟩ := by
  unfold Step at h
  cases l with
  | call c =>
      simp only [next] at h
      split at h
      · next ht =>
          obtain ⟨⟨s, cs⟩, h₁, h₂⟩ := bind_eq_ok.mp h
          cases h₂
          exact .inl ⟨c, s, cs, rfl, ht, h₁, rfl⟩
      · cases h; exact .inr (.inr ⟨_, rfl, rfl⟩)
  | exec inp =>
      simp only [next] at h
      split at h
      · cases h; exact .inr (.inr ⟨_, rfl, rfl⟩)
      · next c rest ht =>
          obtain ⟨⟨s, cs⟩, h₁, h₂⟩ := bind_eq_ok.mp h
          cases h₂
          exact .inr (.inl ⟨inp, c, rest, s, cs, rfl, ht, h₁, rfl⟩)
  | _ =>
      obtain ⟨s, h₁, h₂⟩ := bind_eq_ok.mp h
      cases h₂
      exact .inr (.inr ⟨s, h₁, rfl⟩)

/-- A step of the thread, when it has something to execute. -/
theorem step_exec {inp : Input} {c : Cmd} {rest : List Cmd} (h : m.Step cfg (.exec inp) m')
    (ht : m.todo = c :: rest) :
    ∃ s cs, exec cfg m.core inp c = .ok (s, cs) ∧ m' = ⟨s, cs ++ rest⟩ := by
  unfold Step at h
  simp only [next, ht] at h
  obtain ⟨⟨s, cs⟩, h₁, h₂⟩ := bind_eq_ok.mp h
  cases h₂
  exact ⟨s, cs, h₁, rfl⟩

theorem step_of_exec {inp : Input} {c : Cmd} {s : Consensus} {cs rest : List Cmd}
    (ht : m.todo = c :: rest) (h : exec cfg m.core inp c = .ok (s, cs)) :
    m.Step cfg (.exec inp) ⟨s, cs ++ rest⟩ := by
  unfold Step
  simp only [next, ht]
  exact bind_eq_ok.mpr ⟨_, h, rfl⟩

theorem nested_of_reachable {good : Machine → Label → Prop}
    (h : Reachable (Init cfg) (Step cfg) good m) : Nested cfg m.todo := by
  refine h.induct (P := fun m => Nested cfg m.todo) (fun m hm => ?_)
    fun m l m' _ hn _ hs => ?_
  · obtain ⟨requestLog, rfl⟩ := hm
    trivial
  · rcases step_cases hs with ⟨c, s, cs, -, -, hc, rfl⟩ | ⟨inp, c, rest, s, cs, -, ht, he, rfl⟩ |
      ⟨s, -, rfl⟩
    · exact nested_call hc
    · rw [ht] at hn
      exact nested_exec he hn
    · exact hn

end Machine

end Ubft.Consensus
