import Ubft.Consensus.Views

/-!
# Consensus — the ledger of the slow path

What the slow path keeps: the commits that are to be verified, run, were verified or wait for their
Prepare, how many of each replica are outstanding, and for each instance its Prepare, the commits
counted and whether it came under certification.  Most commands leave it alone (`Idle`); the
others are listed by `exec_books`.
-/

namespace Ubft.Consensus

open Certifier (Certificate)

variable {cfg : Config} {s s' s'' : Consensus} {inp : Input}

/-- What the slow path reads of an instance. -/
structure Account where
  prepareMessage : PrepareMessage
  committed : DynamicBitset
  certifiedPrepare : Bool

/-- What an instance tells of the commits counted. -/
def InstanceState.account (d : InstanceState) : Account :=
  ⟨d.prepareMessage, d.committed, d.certifiedPrepare⟩

/-- The indices handed to the prepare certifier, the latest first. -/
def acknowledged (log : List Event) : List Nat :=
  log.filterMap fun
    | .acknowledged k _ => some k
    | _ => none

/-- The commits of `r` handed to verification, the latest first. -/
def handed (log : List Event) (r : Nat) : List (Certificate Bytes) :=
  log.filterMap fun
    | .delivered r' (.commit (some c)) => if r' = r then some c else none
    | _ => none

/-- What the life of a commit is in. -/
structure Ledger where
  handed : Nat → List (Certificate Bytes)
  outstanding : Nat → Nat
  buffered : Nat → TailQueue (Certificate Bytes)
  verified : List VerifiedCommit
  queued : Nat → List (Certificate Bytes)
  running : List (Nat × Certificate Bytes)
  instances : Nat → Option Account
  min : Nat
  tail : Nat
  acknowledged : List Nat

/-- The account of an instance. -/
def account (s : Consensus) (i : Nat) : Option Account :=
  (s.instanceStates.find? i).map InstanceState.account

/-- The ledger of a replica. -/
def ledger (s : Consensus) : Ledger where
  handed := handed s.log
  outstanding r := (s.states r).outstandingCommitVerifications
  buffered := s.bufferedCommits
  verified := s.verifiedCommits
  queued := s.commitVerifications
  running := s.runningVerifications
  instances := s.account
  min := s.instanceStates.min
  tail := s.instanceStates.tail
  acknowledged := acknowledged s.log

/-- The ledger is the one of `s`. -/
def Idle (s s' : Consensus) : Prop := s'.ledger = s.ledger

namespace Idle

theorem trans (h : Idle s s') (h' : Idle s' s'') : Idle s s'' := Eq.trans h' h

/-- A replica's record changes, and not the count of its verifications. -/
theorem modifyState (s : Consensus) (r : Nat) {f : ReplicaState → ReplicaState}
    (hf : (f (s.states r)).outstandingCommitVerifications =
      (s.states r).outstandingCommitVerifications) : Idle s (s.modifyState r f) := by
  refine congrArg (fun o : Nat → Nat => { s.ledger with outstanding := o }) (funext fun r' => ?_)
  change (Function.update s.states r _ r').outstandingCommitVerifications = _
  by_cases hr : r' = r
  · rw [hr, Function.update_self, hf]
  · rw [Function.update_of_ne hr]

/-- An instance changes, and not its account. -/
theorem modifyInstance (s : Consensus) (i : Nat) {f : InstanceState → InstanceState}
    (hf : ∀ d, (f d).account = d.account) : Idle s (s.modifyInstance i f) := by
  refine congrArg (fun a : Nat → Option Account => { s.ledger with instances := a })
    (funext fun k => ?_)
  change ((s.instanceStates.modify i f).find? k).map _ = _
  rw [TailMap.find?_modify, account]
  by_cases hk : k = i
  · rw [if_pos hk, Option.map_map, hk]
    exact congrArg (fun g => Option.map g _) (funext hf)
  · rw [if_neg hk]

theorem handed (h : Idle s s') : handed s'.log = Consensus.handed s.log :=
  congrArg Ledger.handed h

theorem buffered (h : Idle s s') : s'.bufferedCommits = s.bufferedCommits :=
  congrArg Ledger.buffered h

theorem verified (h : Idle s s') : s'.verifiedCommits = s.verifiedCommits :=
  congrArg Ledger.verified h

theorem queued (h : Idle s s') : s'.commitVerifications = s.commitVerifications :=
  congrArg Ledger.queued h

theorem running (h : Idle s s') : s'.runningVerifications = s.runningVerifications :=
  congrArg Ledger.running h

theorem account (h : Idle s s') (i : Nat) : s'.account i = s.account i :=
  congrFun (congrArg Ledger.instances h) i

theorem min (h : Idle s s') : s'.instanceStates.min = s.instanceStates.min :=
  congrArg Ledger.min h

theorem tail (h : Idle s s') : s'.instanceStates.tail = s.instanceStates.tail :=
  congrArg Ledger.tail h

theorem acknowledged (h : Idle s s') : acknowledged s'.log = Consensus.acknowledged s.log :=
  congrArg Ledger.acknowledged h

end Idle

/-! ### What leaves the ledger alone -/

/-- A certificate of the replica itself. -/
theorem idle_handleCheckpointCertificate (s : Consensus) (c : Certificate Checkpoint) :
    Idle s (s.handleCheckpointCertificate c) := by
  unfold handleCheckpointCertificate
  split <;> exact rfl

/-- Another replica's checkpoint is noted. -/
theorem idle_adoptCheckpoint (s : Consensus) (r : Nat) (c : Certificate Checkpoint) :
    Idle s (s.adoptCheckpoint r c) :=
  (Idle.modifyState s r rfl).trans (idle_handleCheckpointCertificate _ c)

theorem idle_handlePromise (s : Consensus) (k : Nat) : Idle s (handlePromise cfg s k) := by
  rcases handlePromise_cases cfg s k with he | he
  · rw [he]
    exact rfl
  · rw [he]
    exact (Idle.modifyInstance s (unpack k).2 (f := fun d => { d with
      fastCommitted := d.fastCommitted.set cfg.localIndex }) fun _ => rfl).trans rfl

/-- A fast commit counts in another ledger. -/
theorem idle_pollFastCommit {r : Nat} {o : Option (Option FastCommitMessage)}
    (h : pollFastCommit s r o = .ok s') : Idle s s' := by
  match o, h with
  | none, h => cases h; exact rfl
  | some (some m), h =>
      have hr : Idle s (s.record (.fastPolled r m)) := rfl
      rcases handleFastCommit_cases h with ⟨rfl, -⟩ | rfl
      · exact hr
      · exact hr.trans (.modifyInstance _ _ fun _ => rfl)

/-- A sealed view has its commits frozen elsewhere. -/
theorem idle_sealView {r : Nat} (h : sealView cfg s r = .ok s') : Idle s s' := by
  obtain ⟨c, -, rfl⟩ := sealView_cases h
  have hm : Idle s (s.modifyState r fun x => { x with
      serializedState := some (.of (s.states r).atView (s.states r).commits)
      atView := (s.states r).atView + 1 }) := .modifyState s r rfl
  obtain ⟨vc, he⟩ := startViewChange_cases cfg
    { s.modifyState r (fun x => { x with
        serializedState := some (.of (s.states r).atView (s.states r).commits)
        atView := (s.states r).atView + 1 }) with
      vcStateCertifiers := Function.update s.vcStateCertifiers r c } (s.states r).atView
  rw [he]
  exact hm.trans rfl

theorem idle_certifyCbCheckpoint {r : Nat} (h : certifyCbCheckpoint cfg s r = .ok s') :
    Idle s s' := by
  obtain ⟨c, -, h⟩ := bind_eq_ok.mp h
  cases h
  have hm : Idle s (s.modifyState r fun x => { x with cbCheckpoint := some x.checkpointCb }) :=
    .modifyState s r rfl
  exact hm.trans rfl

/-- A NewView fills what is to be proposed. -/
theorem idle_acceptNewView {r : Nat} {m : NewViewMessage} (h : acceptNewView cfg s r m = .ok s') :
    Idle s s' := by
  obtain ⟨values, -, rfl⟩ := acceptNewView_cases h
  exact (Idle.modifyState s r (f := fun x => { x with
    nextPrepare := x.checkpoint.low
    validValues := some (m.view, values) }) rfl).trans rfl

/-- A commit that is received is handed to verification. -/
theorem idle_delivering (s : Consensus) (r : Nat) {m : Message} (hm : ∀ c, m ≠ .commit (some c)) :
    Idle s (delivering s r m) := by
  refine (Idle.modifyState s r (f := fun x => { x with nextCb := x.nextCb + 1 }) rfl).trans ?_
  match m, hm with
  | .commit none, _ | .malformed, _ | .prepare _, _ | .checkpoint _, _ | .sealView, _
  | .newView _, _ => exact rfl
  | .commit (some c), hm => exact absurd rfl (hm c)

theorem Drops.idle {c : Cmd} (h : Drops cfg s c s') : Idle s s' := by
  have hd : ∀ (s : Consensus) (r : Nat), Idle s (skipping s r) :=
    fun s r => .modifyState s r rfl
  cases h with
  | nothing => exact rfl
  | poll r => exact hd s r
  | broadcast m => exact hd (broadcasting cfg s m) _
  | propose hp => exact hd (broadcasting cfg { s with toPropose := _ } _) _

/-- Only a Commit enters the ledger. -/
theorem Receives.idle {c : Cmd} {r : Nat} {m : Message} {s₁ : Consensus}
    (h : Receives cfg s inp c r m s₁) (hm : ∀ c, m ≠ .commit (some c)) : Idle s s₁ := by
  cases h with
  | poll hi => exact idle_delivering s r hm
  | broadcast => exact idle_delivering (broadcasting cfg s m) _ hm
  | @propose p rest hp => exact idle_delivering (broadcasting cfg { s with toPropose := rest } _) _ hm

theorem idle_call {c : Call} {cs : List Cmd} (h : call cfg s c = .ok (s', cs)) : Idle s s' := by
  cases c with
  | tick => cases h; exact rfl
  | propose => cases h; exact rfl
  | changeView => cases h; exact rfl
  | toggleSlowPath b => cases h; exact rfl
  | getSlot b => obtain ⟨ps, n, rfl⟩ := getSlot_cases (pure_eq_ok h).1; exact rfl
  | pollDecision =>
      have h := (pure_eq_ok h).1
      unfold pollDecision at h
      split at h
      · cases h; exact rfl
      · split at h
        · split at h
          · cases h
            exact (Idle.modifyInstance s s.nextToDecide
              (f := fun d => { d with decided := true }) fun _ => rfl).trans rfl
          · cases h
        · cases h; exact rfl
  | triggerCheckpoint i d =>
      obtain ⟨c, cc, rfl⟩ := triggerCheckpoint_cases (pure_eq_ok h).1
      exact rfl

/-! ### What counts a commit, what certifies a Prepare -/

/-- One commit of `r` less is outstanding. -/
def discharge (s : Consensus) (r : Nat) : Consensus :=
  s.modifyState r fun x => { x with
    outstandingCommitVerifications := (x.outstandingCommitVerifications + 2 ^ 64 - 1) % 2 ^ 64 }

/-- The verified commit `c` of `r` waits for its Prepare, or it is counted. -/
inductive Settles (s : Consensus) (r : Nat) (c : Certificate Bytes) : Consensus → Prop where
  | buffer (hn : s.instanceStates.find? (unpack c.index).2 = none) :
      Settles s r c { s.discharge r with
        bufferedCommits :=
          Function.update s.bufferedCommits r ((s.bufferedCommits r).emplaceBack c) }
  | count {d : InstanceState} (hd : s.instanceStates.find? (unpack c.index).2 = some d)
      (hb : d.committed.get r = false) :
      Settles s r c ((s.discharge r).receivedCommit r (unpack c.index).2)

/-- **A verified commit is settled**: counted, buffered, or dropped as outdated. -/
theorem settles_of_handleVerifiedCommit {r : Nat} {c : Certificate Bytes}
    (h : s.handleVerifiedCommit r c = .ok s') : Settles s r c s' := by
  unfold handleVerifiedCommit at h
  simp only at h
  split at h
  · next hn => cases h; exact .buffer hn
  · next d hd =>
      split at h
      · cases h
      · next hb => cases h; exact .count hd (Bool.eq_false_iff.mpr hb)

/-- The commits of `r` below the packed index `useful` are not kept any longer. -/
def outdate (useful : Nat) (s : Consensus) (r : Nat) : Consensus :=
  { s with
    bufferedCommits := Function.update s.bufferedCommits r
      ((s.bufferedCommits r).popWhile fun c => decide (c.index < useful)) }

/-- The first commit of `r` that is kept is replayed, or it is not for `useful`. -/
inductive Replays (useful : Nat) (s : Consensus) (r : Nat) : Consensus → Prop where
  | skip (h : ∀ c ∈ ((outdate useful s r).bufferedCommits r).items.head?, c.index ≠ useful) :
      Replays useful s r (outdate useful s r)
  | replay {c : Certificate Bytes} {s₁ : Consensus}
      (hc : ((outdate useful s r).bufferedCommits r).items.head? = some c)
      (hi : c.index = useful) (h : Settles (outdate useful s r) r c s₁) :
      Replays useful s r { s₁ with
        bufferedCommits := Function.update s₁.bufferedCommits r (s₁.bufferedCommits r).popFront }

/-- The outdated commits go first. -/
theorem bufferedCommits_outdate (useful : Nat) (s : Consensus) (r : Nat) :
    (outdate useful s r).bufferedCommits r =
      (s.bufferedCommits r).popWhile fun c => decide (c.index < useful) :=
  Function.update_self ..

/-- **A replay takes the front of the buffer**, if it is the useful one. -/
theorem replays_of_replayCommit {useful r : Nat} (h : replayCommit useful s r = .ok s') :
    Replays useful s r s' := by
  have hb := bufferedCommits_outdate useful s r
  unfold replayCommit at h
  simp only at h
  split at h
  · next hn =>
      cases h
      refine .skip fun c hc => ?_
      rw [hb, hn] at hc
      cases hc
  · next c hc =>
      split at h
      · next hi =>
          obtain ⟨s₁, h₁, h₂⟩ := bind_eq_ok.mp h
          cases h₂
          exact .replay (by rw [hb]; exact hc) hi (settles_of_handleVerifiedCommit h₁)
      · next hi =>
          cases h
          refine .skip fun c' hc' => ?_
          rw [hb, hc] at hc'
          exact Option.some.inj hc' ▸ hi

/-- The Prepare of the instance, and whether it came under certification. -/
def entry (s : Consensus) (i : Nat) : Option (PrepareMessage × Bool) :=
  (s.instanceStates.find? i).map fun d => (d.prepareMessage, d.certifiedPrepare)

/-- Nothing but the commits counted changed in the instances, and nothing was acknowledged. -/
structure Counts (s s' : Consensus) : Prop where
  entry : ∀ i, s'.entry i = s.entry i
  min : s'.instanceStates.min = s.instanceStates.min
  tail : s'.instanceStates.tail = s.instanceStates.tail
  acknowledged : acknowledged s'.log = acknowledged s.log

namespace Counts

theorem refl (s : Consensus) : Counts s s := ⟨fun _ => rfl, rfl, rfl, rfl⟩

theorem trans (h : Counts s s') (h' : Counts s' s'') : Counts s s'' :=
  ⟨fun i => (h'.entry i).trans (h.entry i), h'.min.trans h.min, h'.tail.trans h.tail,
    h'.acknowledged.trans h.acknowledged⟩

theorem of_eq (hi : s'.instanceStates = s.instanceStates) (hl : s'.log = s.log) : Counts s s' :=
  ⟨fun i => by rw [Consensus.entry, hi, Consensus.entry], by rw [hi], by rw [hi], by rw [hl]⟩

/-- A commit is counted in the instance it is for. -/
theorem receivedCommit (s : Consensus) (r i : Nat) : Counts s (s.receivedCommit r i) := by
  refine ⟨fun k => ?_, rfl, rfl, rfl⟩
  change ((s.instanceStates.modify i _).find? k).map _ = _
  rw [TailMap.find?_modify, Consensus.entry]
  by_cases hk : k = i
  · rw [if_pos hk, Option.map_map, hk]
    rfl
  · rw [if_neg hk]

end Counts

/-- An account without its bit set is what the others see of an instance. -/
theorem account_entry {i : Nat} (s : Consensus) :
    s.entry i = (s.account i).map fun a => (a.prepareMessage, a.certifiedPrepare) := by
  rw [entry, account, Option.map_map]
  rfl

theorem Idle.counts (h : Idle s s') : Counts s s' :=
  ⟨fun i => by rw [account_entry, account_entry, h.account i], h.min, h.tail, h.acknowledged⟩

theorem Receives.counts {c : Cmd} {r : Nat} {m : Message} {s₁ : Consensus}
    (h : Receives cfg s inp c r m s₁) : Counts s s₁ := by
  cases h with
  | poll hi => exact ⟨fun _ => rfl, rfl, rfl, rfl⟩
  | broadcast => exact ⟨fun _ => rfl, rfl, rfl, rfl⟩
  | propose hp => exact ⟨fun _ => rfl, rfl, rfl, rfl⟩

/-- A settled commit changes no Prepare. -/
theorem Settles.counts {r : Nat} {c : Certificate Bytes} (h : Settles s r c s') : Counts s s' := by
  cases h with
  | buffer hn => exact .of_eq rfl rfl
  | count hd hb =>
      have hd : Counts s (s.discharge r) := .of_eq rfl rfl
      exact hd.trans (.receivedCommit (s.discharge r) r _)

/-- A replayed commit changes no Prepare. -/
theorem Replays.counts {useful r : Nat} (h : Replays useful s r s') : Counts s s' := by
  have ho : Counts s (outdate useful s r) := .of_eq rfl rfl
  cases h with
  | skip h => exact ho
  | replay hc hi h => exact ho.trans (h.counts.trans (.of_eq rfl rfl))

theorem counts_replayCommits {useful : Nat} {rs : List Nat}
    (h : replayCommits useful s rs = .ok s') : Counts s s' := by
  induction rs generalizing s with
  | nil => cases h; exact .refl _
  | cons r rs ih =>
      obtain ⟨s₁, h₁, h₂⟩ := bind_eq_ok.mp h
      exact (replays_of_replayCommit h₁).counts.trans (ih h₂)

theorem counts_handleVerifiedCommits (h : s.handleVerifiedCommits = .ok s') : Counts s s' := by
  unfold handleVerifiedCommits at h
  split at h
  · cases h; exact .refl _
  · next v rest _ =>
      split at h
      · have hq : Counts s { s with verifiedCommits := rest } := .of_eq rfl rfl
        exact hq.trans (settles_of_handleVerifiedCommit h).counts
      · cases h

/-- `tryCertifyPrepare` acknowledges the Prepare of the instance `i`, whose state is `d`. -/
structure Certifying (s : Consensus) (i : Nat) (d : InstanceState) : Prop where
  found : s.instanceStates.find? i = some d
  uncertified : d.certifiedPrepare = false
  known : s.requestLog.isValid d.prepareMessage.data = true

/-- The Prepare of the instance came under certification; the certifier is now `c`. -/
def certified (s : Consensus) (i : Nat) (p : PrepareMessage) (c : Certifier Bytes) : Consensus :=
  (({ s with prepareCertifier := c }).modifyInstance i fun d => { d with
    certifiedPrepare := true }).record (.acknowledged (pack p.view p.inst) p.data)

/-- **What `tryCertifyPrepare` does.** -/
theorem tryCertifyPrepare_cases {i : Nat} (h : tryCertifyPrepare cfg s i = .ok s') :
    s' = s ∧ (∀ d, ¬ Certifying s i d) ∨
      ∃ d c c', Certifying s i d ∧
        s.prepareCertifier.acknowledge cfg.prepareCrypto
          (pack d.prepareMessage.view d.prepareMessage.inst) d.prepareMessage.data = .ok c ∧
        implicitPromise cfg s c d.prepareMessage = .ok c' ∧
        s' = s.certified i d.prepareMessage c' := by
  unfold tryCertifyPrepare at h
  split at h
  · next hn =>
      cases h
      exact .inl ⟨rfl, fun d hd => nomatch hn.symm.trans hd.found⟩
  · next d hd =>
      split at h
      · next hf =>
          cases h
          refine .inl ⟨rfl, fun d' hd' => ?_⟩
          cases hd.symm.trans hd'.found
          exact absurd hf (Bool.eq_false_iff.mp hd'.uncertified)
      · next hf =>
          split at h
          · next hk =>
              obtain ⟨c, hc, h⟩ := bind_eq_ok.mp h
              obtain ⟨c', hc', h⟩ := bind_eq_ok.mp h
              cases h
              exact .inr ⟨d, c, c', ⟨hd, Bool.eq_false_iff.mpr hf, hk⟩, lift_cases hc, hc', rfl⟩
          · next hk =>
              cases h
              refine .inl ⟨rfl, fun d' hd' => ?_⟩
              cases hd.symm.trans hd'.found
              exact hk hd'.known

/-! ### What a command does to the ledger -/

/-- What a command does to the ledger. -/
inductive Books (cfg : Config) (s : Consensus) (inp : Input) : Cmd → Consensus → Prop where
  | idle {c : Cmd} {s' : Consensus} (h : Idle s s') : Books cfg s inp c s'
  | prepare {c : Cmd} {r : Nat} {p : PrepareMessage} {s₁ s' : Consensus}
      (hr : Receives cfg s inp c r (.prepare p) s₁) (ha : Admissible cfg s₁ r p)
      (h : acceptPrepare cfg s₁ r p = .ok s') : Books cfg s inp c s'
  | commit {c : Cmd} {r : Nat} {certificate : Certificate Bytes} {s₁ s' : Consensus}
      (hr : Receives cfg s inp c r (.commit (some certificate)) s₁)
      (h : handleCommit cfg s₁ r (some certificate) = .ok s') : Books cfg s inp c s'
  | verified {s' : Consensus} (h : s.handleVerifiedCommits = .ok s') :
      Books cfg s inp .pollVerifiedCommits s'
  | certify {s' : Consensus}
      (h : tryCertifyPrepares cfg s (s.instanceStates.map.entries.map (·.1)) = .ok s') :
      Books cfg s inp .tryCertifyPrepares s'
  | prune (low n : Nat) : Books cfg s inp (.pruneInstances low n)
      (pruneInstances cfg s (if n = s.adopted then low else inp.freed))
  | forget : Books cfg s inp .forgetView (forgetView cfg s)

theorem books_of_receives {c : Cmd} {cs : List Cmd} (h : exec cfg s inp c = .ok (s', cs))
    (hc : (∃ r, c = .pollCb r) ∨ c = .proposeNext ∨ ∃ m, c = .broadcast m) :
    Books cfg s inp c s' := by
  rcases exec_receives h hc with ⟨hd, -⟩ | ⟨r, m, s₁, cs₀, hr, hm, -⟩
  · exact .idle hd.idle
  · cases m with
    | prepare p =>
        rcases handlePrepare_cases (pure_eq_ok hm).1 with rfl | ⟨ha, hp⟩
        · exact .idle (hr.idle nofun)
        · exact .prepare hr ha hp
    | commit o =>
        have h := (pure_eq_ok hm).1
        cases o with
        | none => cases h
        | some c => exact .commit hr h
    | checkpoint o =>
        obtain ⟨c, -, -, -, rfl⟩ := handleCheckpoint_cases (pure_eq_ok hm).1
        exact .idle ((hr.idle nofun).trans (idle_adoptCheckpoint s₁ r c))
    | malformed => cases hm; exact .idle (hr.idle nofun)
    | sealView => cases hm; exact .idle (hr.idle nofun)
    | newView nv =>
        obtain ⟨rfl, -⟩ := handleNewView_cases hm
        exact .idle (hr.idle nofun)

/-- **What a command does to the ledger.** -/
theorem exec_books {c : Cmd} {cs : List Cmd} (h : exec cfg s inp c = .ok (s', cs)) :
    Books cfg s inp c s' := by
  cases c with
  | pollCb r => exact books_of_receives h (.inl ⟨r, rfl⟩)
  | proposeNext => exact books_of_receives h (.inr (.inl rfl))
  | broadcast m => exact books_of_receives h (.inr (.inr ⟨m, rfl⟩))
  | pruneInstances low n => cases h; exact .prune low n
  | forgetView => cases h; exact .forget
  | tryCertifyPrepares => exact .certify (pure_eq_ok h).1
  | pollVerifiedCommits => exact .verified (pure_eq_ok h).1
  | certifyCbCheckpoint r => exact .idle (idle_certifyCbCheckpoint (pure_eq_ok h).1)
  | sealView r => exact .idle (idle_sealView (pure_eq_ok h).1)
  | catchUp r m =>
      simp only [exec] at h
      split at h
      · cases h; exact .idle rfl
      · exact .idle (idle_acceptNewView (pure_eq_ok h).1)
  | changeView => cases h; exact .idle rfl
  | pollPrepareCertificatePromises =>
      simp only [exec, pollPrepareCertificatePromises] at h
      split at h
      · cases h; exact .idle rfl
      · cases h
        exact .idle (idle_handlePromise { s with prepareCertifier := _ } _)
  | pollPrepareCertificates =>
      simp only [exec, pollPrepareCertificates] at h
      split at h
      · cases h; exact .idle rfl
      · cases h; exact .idle rfl
  | pollFastCommit r => exact .idle (idle_pollFastCommit (pure_eq_ok h).1)
  | _ =>
      obtain ⟨x, rfl⟩ := exec_peripheral h rfl
      exact .idle rfl

/-- What runs in the background verifies commits, or it leaves the ledger alone. -/
theorem background_books {l : Label} (h : Machine.background cfg s l = .ok s') :
    (∃ r, l = .startVerification r ∧ s' = s.startVerification r) ∨
      (∃ k, l = .finishVerification k ∧ s' = finishVerification cfg s k) ∨ Idle s s' := by
  cases l with
  | startVerification r => cases h; exact .inl ⟨r, rfl, rfl⟩
  | finishVerification k => cases h; exact .inr (.inl ⟨k, rfl, rfl⟩)
  | call c => cases h; exact .inr (.inr rfl)
  | exec inp => cases h; exact .inr (.inr rfl)
  | requests log => cases h; exact .inr (.inr rfl)
  | _ =>
      simp only [Machine.background] at h
      split at h
      · obtain ⟨c, -, h⟩ := bind_eq_ok.mp h
        cases h
        exact .inr (.inr rfl)
      · cases h; exact .inr (.inr rfl)

end Ubft.Consensus
