import Ubft.Certifier.Tail
import Ubft.Consensus.NewViews
import Ubft.Consensus.Nesting

/-!
# Consensus — what a command does

Most commands leave alone what the replica prepared and which votes of the fast path it counted
(`Keeps`).  The others are listed once, by `exec_effect`: a Prepare accepted or certified, a
promise or a FastCommit counted, the two prunings, the end of a view and a NewView accepted.
-/

namespace Ubft.Consensus

open Certifier (Certificate)

variable {cfg : Config} {s s' s'' : Consensus} {inp : Input}

/-- The events of commands that keep the prepares and the fast votes. -/
def Event.plain : Event → Bool
  | .stored _ _ | .newViewAccepted _ _ | .fastSent _ => false
  | _ => true

/-- Only plain events are added to the history. -/
def Extends (log log' : List Event) : Prop := ∃ l, log' = l ++ log ∧ ∀ e ∈ l, e.plain = true

theorem extends_of_eq {log log' : List Event} (h : log' = log) : Extends log log' :=
  ⟨[], h, fun _ he => (nomatch he)⟩

/-- What is held for an instance: its Prepare and its votes of the fast path. -/
def held (s : Consensus) (i : Nat) : Option (PrepareMessage × DynamicBitset) :=
  (s.instanceStates.find? i).map fun d => (d.prepareMessage, d.fastCommitted)

/-- The prepares and the votes of the fast path are those of `s`, and so are the valid values. -/
structure Stays (cfg : Config) (s s' : Consensus) : Prop where
  atView : (s'.own cfg).atView = (s.own cfg).atView
  held : ∀ i, s'.held i = s.held i
  min : s'.instanceStates.min = s.instanceStates.min
  tail : s'.instanceStates.tail = s.instanceStates.tail
  certifierTail : s'.prepareCertifier.msgTail.tail = s.prepareCertifier.msgTail.tail
  log : Extends s.log s'.log
  values : ∀ r, (s'.states r).validValues = (s.states r).validValues

/-- So are the messages under certification. -/
structure Keeps (cfg : Config) (s s' : Consensus) : Prop extends Stays cfg s s' where
  keys : ∀ k d', s'.prepareCertifier.msgTail.find? k = some d' →
    ∃ d, s.prepareCertifier.msgTail.find? k = some d ∧ d'.message = d.message

/-- Prepares that are held may have come under certification. -/
structure Certifies (cfg : Config) (s s' : Consensus) : Prop extends Stays cfg s s' where
  keys : ∀ k d', s'.prepareCertifier.msgTail.find? k = some d' →
    (∃ d, s.prepareCertifier.msgTail.find? k = some d ∧ d'.message = d.message) ∨
      ∃ i p f, s.held i = some (p, f) ∧ k = pack p.view p.inst ∧ d'.message = p.data

theorem Extends.trans {l₁ l₂ l₃ : List Event} (h₁ : Extends l₁ l₂) (h₂ : Extends l₂ l₃) :
    Extends l₁ l₃ := by
  obtain ⟨l, hl, hp⟩ := h₁
  obtain ⟨l', hl', hp'⟩ := h₂
  refine ⟨l' ++ l, by rw [hl', hl, List.append_assoc], fun e he => ?_⟩
  rcases List.mem_append.mp he with he | he
  · exact hp' e he
  · exact hp e he

/-- What was logged stays logged. -/
theorem Extends.mem {l l' : List Event} (h : Extends l l') {e : Event} (he : e ∈ l) : e ∈ l' := by
  obtain ⟨l₀, rfl, -⟩ := h
  exact List.mem_append_right _ he

/-- An event that is not plain is not added. -/
theorem Extends.mem_of_mem {l l' : List Event} (h : Extends l l') {e : Event} (he : e ∈ l')
    (hp : e.plain = false) : e ∈ l := by
  obtain ⟨l₀, rfl, hl₀⟩ := h
  rcases List.mem_append.mp he with he | he
  · rw [hl₀ e he] at hp
    cases hp
  · exact he

theorem Stays.trans (h₁ : Stays cfg s s') (h₂ : Stays cfg s' s'') : Stays cfg s s'' :=
  ⟨h₂.atView.trans h₁.atView, fun i => (h₂.held i).trans (h₁.held i), h₂.min.trans h₁.min,
    h₂.tail.trans h₁.tail, h₂.certifierTail.trans h₁.certifierTail, h₁.log.trans h₂.log,
    fun r => (h₂.values r).trans (h₁.values r)⟩

namespace Keeps

theorem refl (s : Consensus) : Keeps cfg s s :=
  ⟨⟨rfl, fun _ => rfl, rfl, rfl, rfl, extends_of_eq rfl, fun _ => rfl⟩, fun _ d h => ⟨d, h, rfl⟩⟩

theorem trans (h₁ : Keeps cfg s s') (h₂ : Keeps cfg s' s'') : Keeps cfg s s'' := by
  refine ⟨h₁.toStays.trans h₂.toStays, fun k d h => ?_⟩
  obtain ⟨d', h', e⟩ := h₂.keys k d h
  obtain ⟨d₀, h₀, e₀⟩ := h₁.keys k d' h'
  exact ⟨d₀, h₀, e.trans e₀⟩

/-- A step that changes other fields. -/
theorem of_eq (hs : s'.states = s.states) (hi : s'.instanceStates = s.instanceStates)
    (hp : s'.prepareCertifier.msgTail = s.prepareCertifier.msgTail) (hl : s'.log = s.log) :
    Keeps cfg s s' := by
  refine ⟨⟨?_, fun i => ?_, ?_, ?_, ?_, extends_of_eq hl, fun r => ?_⟩,
    fun k d h => ⟨d, hp ▸ h, rfl⟩⟩
  · rw [own, own, hs]
  · rw [Consensus.held, Consensus.held, hi]
  · rw [hi]
  · rw [hi]
  · rw [hp]
  · rw [hs]

/-- An event that is neither a delivery nor a broadcast. -/
theorem record (s : Consensus) {e : Event} (he : e.plain = true) : Keeps cfg s (s.record e) :=
  ⟨⟨rfl, fun _ => rfl, rfl, rfl, rfl, ⟨[e], rfl, fun _ h => List.mem_singleton.mp h ▸ he⟩,
    fun _ => rfl⟩, fun _ d h => ⟨d, h, rfl⟩⟩

/-- A replica's record changes, and none of the fields that count. -/
theorem modifyState_of (s : Consensus) (r : Nat) {f : ReplicaState → ReplicaState}
    (ha : r = cfg.localIndex → (f (s.states r)).atView = (s.states r).atView)
    (hv : (f (s.states r)).validValues = (s.states r).validValues) :
    Keeps cfg s (s.modifyState r f) := by
  refine ⟨⟨?_, fun _ => rfl, rfl, rfl, rfl, extends_of_eq rfl, fun r' => ?_⟩,
    fun _ d h => ⟨d, h, rfl⟩⟩
  · change (Function.update s.states r _ cfg.localIndex).atView = _
    by_cases hr : cfg.localIndex = r
    · rw [hr, Function.update_self, own, hr, ha hr.symm]
    · rw [Function.update_of_ne hr, own]
  · change (Function.update s.states r _ r').validValues = _
    by_cases hr : r' = r
    · rw [hr, Function.update_self, hv]
    · rw [Function.update_of_ne hr]

theorem modifyState (s : Consensus) (r : Nat) {f : ReplicaState → ReplicaState}
    (ha : (f (s.states r)).atView = (s.states r).atView)
    (hv : (f (s.states r)).validValues = (s.states r).validValues) :
    Keeps cfg s (s.modifyState r f) := modifyState_of s r (fun _ => ha) hv

/-- An instance changes, and none of the fields that count. -/
theorem modifyInstance (s : Consensus) (i : Nat) {f : InstanceState → InstanceState}
    (hp : ∀ d, (f d).prepareMessage = d.prepareMessage)
    (hf : ∀ d, (f d).fastCommitted = d.fastCommitted) : Keeps cfg s (s.modifyInstance i f) := by
  refine ⟨⟨rfl, fun k => ?_, rfl, rfl, rfl, extends_of_eq rfl, fun _ => rfl⟩,
    fun _ d h => ⟨d, h, rfl⟩⟩
  change ((s.instanceStates.modify i f).find? k).map _ = _
  rw [TailMap.find?_modify, Consensus.held]
  by_cases hk : k = i
  · subst hk
    rw [if_pos rfl, Option.map_map]
    refine congrArg (fun g => Option.map g _) (funext fun d => ?_)
    simp only [Function.comp, hp, hf]
  · rw [if_neg hk]

/-- What the prepare certifier does by itself. -/
theorem prepareCertifier (s : Consensus) {c : Certifier Bytes}
    (ht : c.msgTail.tail = s.prepareCertifier.msgTail.tail)
    (h : ∀ k d', c.msgTail.find? k = some d' →
      ∃ d, s.prepareCertifier.msgTail.find? k = some d ∧ d'.message = d.message) :
    Keeps cfg s { s with prepareCertifier := c } :=
  ⟨⟨rfl, fun _ => rfl, rfl, rfl, ht, extends_of_eq rfl, fun _ => rfl⟩, h⟩

end Keeps

/-! ### What the handlers touch -/

/-- Only the certificate, and how many were adopted. -/
theorem handleCheckpointCertificate_cases (s : Consensus) (c : Certificate Checkpoint) :
    ∃ c' n, s.handleCheckpointCertificate c =
      { s with checkpointCertificate := c', adopted := n } := by
  unfold handleCheckpointCertificate
  split
  · exact ⟨s.checkpointCertificate, s.adopted, rfl⟩
  · exact ⟨_, _, rfl⟩

theorem pollCheckpointCertificate_cases (cfg : Config) (s : Consensus) :
    ∃ cc c' n, pollCheckpointCertificate cfg s =
      { s with checkpointCertifier := cc, checkpointCertificate := c', adopted := n } := by
  unfold pollCheckpointCertificate
  simp only
  split
  · exact ⟨_, s.checkpointCertificate, s.adopted, rfl⟩
  · obtain ⟨c', n, h⟩ := handleCheckpointCertificate_cases { s with checkpointCertifier := _ } _
    exact ⟨_, c', n, h⟩

/-- Only from where on the next one is due. -/
theorem broadcastCheckpointCertificate_cases (cfg : Config) (s : Consensus) (force : Bool) :
    ∃ n, (broadcastCheckpointCertificate cfg s force).1 = { s with sendCheckpointAbove := n } := by
  unfold broadcastCheckpointCertificate
  simp only
  split
  · exact ⟨s.sendCheckpointAbove, rfl⟩
  · split
    · exact ⟨s.sendCheckpointAbove, rfl⟩
    · exact ⟨_, rfl⟩

theorem startViewChange_cases (cfg : Config) (s : Consensus) (v : Nat) :
    ∃ vc, startViewChange cfg s v = { s with ongoingViewChange := vc } := by
  unfold startViewChange
  split
  · exact ⟨_, rfl⟩
  · exact ⟨s.ongoingViewChange, rfl⟩

/-- A certificate does not move the view change. -/
theorem tryEmplace_view (vc : ViewChangeState) (id : ProcId) (c : Certificate SerializedState) :
    (vc.tryEmplace id c).view = vc.view := by
  unfold ViewChangeState.tryEmplace
  split <;> rfl

/-- The certificates of the view change are collected, or a quorum of them makes the NewView. -/
theorem pollVcStates_cases (cfg : Config) (s : Consensus) (vc : ViewChangeState) (rs : List Nat) :
    ∃ cs, (∃ vc' : ViewChangeState, vc'.view = vc.view ∧ pollVcStates cfg s vc rs =
        ({ s with vcStateCertifiers := cs, ongoingViewChange := some vc' }, none)) ∨
      ∃ nv : NewViewMessage, nv.view = vc.view + 1 ∧ nv.vcCertificates.length = cfg.quorum ∧
        pollVcStates cfg s vc rs =
          ({ s with vcStateCertifiers := cs, ongoingViewChange := none }, some nv) := by
  induction rs generalizing s vc with
  | nil => exact ⟨s.vcStateCertifiers, .inl ⟨vc, rfl, rfl⟩⟩
  | cons r rs ih =>
      rw [pollVcStates]
      simp only
      split
      · exact ih _ vc
      · next c _ =>
          split
          · exact ih _ vc
          · have hv := tryEmplace_view vc (cfg.idOf r) c
            split
            · obtain ⟨cs, h⟩ := ih { s with vcStateCertifiers := _ } (vc.tryEmplace (cfg.idOf r) c)
              rw [hv] at h
              exact ⟨cs, h⟩
            · next hq =>
                refine ⟨_, .inr ⟨_, congrArg (· + 1) hv, ?_, rfl⟩⟩
                exact (List.length_map _).trans (not_not.mp hq)

/-- Only the certifiers and the view change. -/
theorem pollVcStateCertificates_cases (cfg : Config) (s : Consensus) :
    ∃ cs o, (pollVcStateCertificates cfg s).1 =
      { s with vcStateCertifiers := cs, ongoingViewChange := o } := by
  unfold pollVcStateCertificates
  split
  · exact ⟨s.vcStateCertifiers, s.ongoingViewChange, rfl⟩
  · next vc _ =>
      obtain ⟨cs, ⟨vc', -, h⟩ | ⟨nv, -, -, h⟩⟩ :=
        pollVcStates_cases cfg s vc (List.range cfg.ids.length)
      · rw [h]; exact ⟨cs, some vc', rfl⟩
      · rw [h]; exact ⟨cs, none, rfl⟩

/-- Only what is to be proposed. -/
theorem getSlot_cases {b : Bytes} (h : getSlot cfg s b = .ok s') :
    ∃ ps n, s' = { s with toPropose := ps, nextProposal := n } := by
  unfold getSlot at h
  split at h
  · cases h
  · cases h; exact ⟨_, _, rfl⟩

theorem getSlots_cases {values : TailMap Bytes} {is : List Nat}
    (h : getSlots cfg values s is = .ok s') :
    ∃ ps n, s' = { s with toPropose := ps, nextProposal := n } := by
  induction is generalizing s with
  | nil => cases h; exact ⟨_, _, rfl⟩
  | cons i is ih =>
      obtain ⟨s₁, h₁, h₂⟩ := bind_eq_ok.mp h
      obtain ⟨ps, n, rfl⟩ := getSlot_cases h₁
      obtain ⟨ps', n', rfl⟩ := ih h₂
      exact ⟨ps', n', rfl⟩

/-- Only what is to be proposed, and how much of it was. -/
theorem repropose_cases {cs : List Cmd} (h : repropose cfg s = .ok (s', cs)) :
    ∃ ps n k, s' = { s with toPropose := ps, nextProposal := n, proposed := k } := by
  obtain ⟨ps, n, rfl⟩ := getSlots_cases (pure_eq_ok h).1
  exact ⟨ps, n, _, rfl⟩

theorem proposeLoop_cases (cfg : Config) (s : Consensus) :
    ∃ n, (proposeLoop cfg s).1 = { s with proposed := n } := by
  unfold proposeLoop
  split
  · exact ⟨s.proposed, rfl⟩
  · exact ⟨_, rfl⟩

/-- Only the certifiers, and until where may be broadcast. -/
theorem pollCbCheckpointCertificate_cases (cfg : Config) (s : Consensus) :
    ∃ cs n, pollCbCheckpointCertificate cfg s =
      { s with cbCheckpointCertifiers := cs, canCbUntil := n } := by
  unfold pollCbCheckpointCertificate
  simp only
  split
  · exact ⟨_, s.canCbUntil, rfl⟩
  · exact ⟨_, _, rfl⟩

/-- Only the local checkpoint and its certifier. -/
theorem triggerCheckpoint_cases {i : Nat} {digest : Hash}
    (h : triggerCheckpoint cfg s i digest = .ok s') :
    ∃ c cc, s' = { s with localCheckpoint := c, checkpointCertifier := cc } := by
  unfold triggerCheckpoint at h
  split at h
  · cases h
  · obtain ⟨c, -, h⟩ := bind_eq_ok.mp h
    cases h
    exact ⟨_, c, rfl⟩

/-- What neither the prepares nor the commits depend on. -/
structure Periphery where
  checkpointCertifier : Certifier Checkpoint
  checkpointCertificate : Certificate Checkpoint
  adopted : Nat
  sendCheckpointAbove : Nat
  vcStateCertifiers : Nat → Certifier SerializedState
  ongoingViewChange : Option ViewChangeState
  toPropose : List PrepareMessage
  nextProposal : Nat
  proposed : Nat
  cbCheckpointCertifiers : Nat → Certifier CbCheckpoint
  canCbUntil : Nat

/-- The periphery is replaced. -/
def withPeriphery (s : Consensus) (x : Periphery) : Consensus :=
  { s with
    checkpointCertifier := x.checkpointCertifier
    checkpointCertificate := x.checkpointCertificate
    adopted := x.adopted
    sendCheckpointAbove := x.sendCheckpointAbove
    vcStateCertifiers := x.vcStateCertifiers
    ongoingViewChange := x.ongoingViewChange
    toPropose := x.toPropose
    nextProposal := x.nextProposal
    proposed := x.proposed
    cbCheckpointCertifiers := x.cbCheckpointCertifiers
    canCbUntil := x.canCbUntil }

/-- What a handler of messages leaves alone. -/
def periphery (s : Consensus) : Periphery where
  checkpointCertifier := s.checkpointCertifier
  checkpointCertificate := s.checkpointCertificate
  adopted := s.adopted
  sendCheckpointAbove := s.sendCheckpointAbove
  vcStateCertifiers := s.vcStateCertifiers
  ongoingViewChange := s.ongoingViewChange
  toPropose := s.toPropose
  nextProposal := s.nextProposal
  proposed := s.proposed
  cbCheckpointCertifiers := s.cbCheckpointCertifiers
  canCbUntil := s.canCbUntil

/-- The commands that touch nothing but the periphery. -/
def Cmd.peripheral : Cmd → Bool
  | .pollCheckpointCertificate | .broadcastCheckpointCertificate _ | .maybeCertifyCbCheckpoint _
  | .waitVerified _ | .commitAll | .checkCommitted | .commitCertificate _ | .pollVcStateCertificates
  | .repropose | .propose | .proposeLoop | .pollCbCheckpointCertificate | .waitForCbSlack
  | .spin => true
  | _ => false

/-- **The periphery.** -/
theorem exec_peripheral {c : Cmd} {cs : List Cmd} (h : exec cfg s inp c = .ok (s', cs))
    (hc : c.peripheral = true) : ∃ x, s' = s.withPeriphery x := by
  cases c with
  | pollCheckpointCertificate =>
      cases h
      obtain ⟨cc, c', n, he⟩ := pollCheckpointCertificate_cases cfg s
      exact ⟨{ s.periphery with
        checkpointCertifier := cc
        checkpointCertificate := c'
        adopted := n }, he⟩
  | broadcastCheckpointCertificate force =>
      obtain ⟨n, he⟩ := broadcastCheckpointCertificate_cases cfg s force
      rw [Except.ok.inj h] at he
      exact ⟨{ s.periphery with sendCheckpointAbove := n }, he⟩
  | commitCertificate c =>
      obtain ⟨cs', -, h⟩ := bind_eq_ok.mp h
      cases h
      exact ⟨s.periphery, rfl⟩
  | pollVcStateCertificates =>
      obtain ⟨vcs, o, he⟩ := pollVcStateCertificates_cases cfg s
      rw [Except.ok.inj h] at he
      exact ⟨{ s.periphery with
        vcStateCertifiers := vcs
        ongoingViewChange := o }, he⟩
  | repropose =>
      obtain ⟨ps, n, k, rfl⟩ := repropose_cases h
      exact ⟨{ s.periphery with
        toPropose := ps
        nextProposal := n
        proposed := k }, rfl⟩
  | proposeLoop =>
      obtain ⟨n, he⟩ := proposeLoop_cases cfg s
      rw [Except.ok.inj h] at he
      exact ⟨{ s.periphery with proposed := n }, he⟩
  | pollCbCheckpointCertificate =>
      cases h
      obtain ⟨ccs, n, he⟩ := pollCbCheckpointCertificate_cases cfg s
      exact ⟨{ s.periphery with
        cbCheckpointCertifiers := ccs
        canCbUntil := n }, he⟩
  | maybeCertifyCbCheckpoint r => cases h; exact ⟨s.periphery, rfl⟩
  | waitVerified r => cases h; exact ⟨s.periphery, rfl⟩
  | commitAll => cases h; exact ⟨s.periphery, rfl⟩
  | checkCommitted => cases h; exact ⟨s.periphery, rfl⟩
  | propose => cases h; exact ⟨s.periphery, rfl⟩
  | waitForCbSlack => cases h; exact ⟨s.periphery, rfl⟩
  | spin => cases h; exact ⟨s.periphery, rfl⟩
  | _ => cases hc

/-! ### Commits -/

/-- A verified commit is counted or buffered. -/
theorem keeps_handleVerifiedCommit {r : Nat} {c : Certificate Bytes}
    (h : s.handleVerifiedCommit r c = .ok s') : Keeps cfg s s' := by
  unfold handleVerifiedCommit at h
  simp only at h
  have hm : Keeps cfg s (s.modifyState r fun x => { x with
      outstandingCommitVerifications :=
        (x.outstandingCommitVerifications + 2 ^ 64 - 1) % 2 ^ 64 }) := .modifyState s r rfl rfl
  split at h
  · cases h
    exact hm.trans (.of_eq rfl rfl rfl rfl)
  · split at h
    · cases h
    · cases h
      exact hm.trans (.modifyInstance _ _ (fun _ => rfl) fun _ => rfl)

theorem keeps_handleVerifiedCommits (h : s.handleVerifiedCommits = .ok s') : Keeps cfg s s' := by
  unfold handleVerifiedCommits at h
  split at h
  · cases h; exact .refl s
  · next rest _ =>
      split at h
      · have hq : Keeps cfg s { s with verifiedCommits := rest } := .of_eq rfl rfl rfl rfl
        exact hq.trans (keeps_handleVerifiedCommit h)
      · cases h

/-- A buffered commit is counted or stays. -/
theorem keeps_replayCommit {useful r : Nat} (h : replayCommit useful s r = .ok s') :
    Keeps cfg s s' := by
  unfold replayCommit at h
  simp only at h
  split at h
  · cases h; exact .of_eq rfl rfl rfl rfl
  · split at h
    · obtain ⟨s₁, h₁, h₂⟩ := bind_eq_ok.mp h
      cases h₂
      have hb : Keeps cfg s { s with
          bufferedCommits := Function.update s.bufferedCommits r
            ((s.bufferedCommits r).popWhile fun c => decide (c.index < useful)) } :=
        .of_eq rfl rfl rfl rfl
      exact hb.trans ((keeps_handleVerifiedCommit h₁).trans (.of_eq rfl rfl rfl rfl))
    · cases h; exact .of_eq rfl rfl rfl rfl

theorem keeps_replayCommits {useful : Nat} {rs : List Nat}
    (h : replayCommits useful s rs = .ok s') : Keeps cfg s s' := by
  induction rs generalizing s with
  | nil => cases h; exact .refl _
  | cons r rs ih =>
      obtain ⟨s₁, h₁, h₂⟩ := bind_eq_ok.mp h
      exact (keeps_replayCommit h₁).trans (ih h₂)

/-- The commit joins those of the replica. -/
theorem ReplicaState.commit_cases {r r' : ReplicaState} {c : Certificate Bytes}
    (h : r.commit c = some r') :
    r' = { r with commits := r.commits.insert (unpack c.index).2 (.of c) } ∧
      ∀ b ∈ r.commits.find? (unpack c.index).2, b.view < (unpack c.index).1 := by
  unfold ReplicaState.commit at h
  split at h
  · next hn => cases h; exact ⟨rfl, fun b hb => by rw [hn] at hb; cases hb⟩
  · next b hb =>
      split at h
      · cases h
      · next hlt =>
          cases h
          refine ⟨rfl, fun b' hb' => ?_⟩
          rw [hb] at hb'
          exact Option.some.inj hb' ▸ Nat.not_le.mp hlt

theorem keeps_verifyCommit (s : Consensus) (r : Nat) (c : Certificate Bytes) :
    Keeps cfg s (verifyCommit cfg s r c) := by
  unfold verifyCommit
  split <;> exact .of_eq rfl rfl rfl rfl

/-- **What a Commit does.** -/
theorem handleCommit_cases {r : Nat} {o : Option (Certificate Bytes)}
    (h : handleCommit cfg s r o = .ok s') :
    ∃ c x, o = some c ∧ ¬ s.IsByzantineCommit r c ∧ (s.states r).commit c = some x ∧
      c.message.length ≤ cfg.maxProposalSize ∧
      s' = verifyCommit cfg (s.modifyState r fun _ => { x with
        outstandingCommitVerifications := (x.outstandingCommitVerifications + 1) % 2 ^ 64 }) r c := by
  unfold handleCommit at h
  split at h
  · cases h
  · next c =>
      unfold handleCommitCertificate at h
      split at h
      · cases h
      · next hb =>
          split at h
          · cases h
          · next x hx =>
              split at h
              · cases h
              · next hlen =>
                  cases h
                  exact ⟨c, x, rfl, hb, hx, Nat.not_lt.mp hlen, rfl⟩

theorem keeps_handleCommit {r : Nat} {o : Option (Certificate Bytes)}
    (h : handleCommit cfg s r o = .ok s') : Keeps cfg s s' := by
  obtain ⟨c, x, -, -, hx, -, rfl⟩ := handleCommit_cases h
  obtain ⟨rfl, -⟩ := ReplicaState.commit_cases hx
  exact (Keeps.modifyState s r rfl rfl).trans (keeps_verifyCommit _ r c)

/-! ### Checkpoints -/

theorem keeps_handleCheckpointCertificate (s : Consensus) (c : Certificate Checkpoint) :
    Keeps cfg s (s.handleCheckpointCertificate c) := by
  obtain ⟨c', n, h⟩ := handleCheckpointCertificate_cases s c
  rw [h]
  exact .of_eq rfl rfl rfl rfl

/-- **What a Checkpoint does**: it is newer than the replica's, verifies, and is adopted. -/
theorem handleCheckpoint_cases {r : Nat} {o : Option (Certificate Checkpoint)}
    (h : handleCheckpoint cfg s r o = .ok s') :
    ∃ c, o = some c ∧ (s.states r).checkpoint.low < c.index ∧
      verifyCheckpoint cfg s r c = .ok true ∧ s' = adoptCheckpoint s r c := by
  unfold handleCheckpoint at h
  split at h
  · cases h
  · next c =>
      split at h
      · cases h
      · next hi =>
          split at h
          · cases h
          · cases h
          · next hv => cases h; exact ⟨c, rfl, Nat.not_le.mp hi, hv, rfl⟩

theorem keeps_adoptCheckpoint (s : Consensus) (r : Nat) (c : Certificate Checkpoint) :
    Keeps cfg s (adoptCheckpoint s r c) := by
  unfold adoptCheckpoint
  exact (Keeps.modifyState s r rfl rfl).trans (keeps_handleCheckpointCertificate _ c)

/-! ### Prepares -/

/-- The tests a Prepare passes to be stored. -/
structure Admissible (cfg : Config) (s : Consensus) (r : Nat) (p : PrepareMessage) : Prop where
  leader : cfg.leader p.view = cfg.idOf r
  atView : (s.states r).atView = p.view
  absent : s.instanceStates.find? p.inst = none
  next : (s.states r).nextPrepare ≤ p.inst
  range : (s.states r).checkpoint.contains p.inst
  faithful : p.view ≠ 0 → ¬ Unfaithful p (s.states r).validValues
  own : p.view = (s.own cfg).atView
  low : s.certifiedCheckpoint.low ≤ p.inst

/-- **What a Prepare does**: nothing, or it is admissible and accepted. -/
theorem handlePrepare_cases {r : Nat} {p : PrepareMessage}
    (h : handlePrepare cfg s r p = .ok s') :
    s' = s ∨ Admissible cfg s r p ∧ acceptPrepare cfg s r p = .ok s' := by
  unfold handlePrepare at h
  split at h
  · cases h
  · next hb =>
      split at h
      · cases h; exact .inl rfl
      · next hv =>
          split at h
          · cases h; exact .inl rfl
          · next hl =>
              obtain ⟨h₁, hb⟩ := not_or.mp hb
              obtain ⟨h₂, hb⟩ := not_or.mp hb
              obtain ⟨h₃, hb⟩ := not_or.mp hb
              obtain ⟨h₄, hb⟩ := not_or.mp hb
              obtain ⟨h₅, h₆⟩ := not_or.mp hb
              refine .inr ⟨⟨not_not.mp h₁, not_not.mp h₂, ?_, Nat.not_lt.mp h₄, not_not.mp h₅,
                fun hn hu => h₆ ⟨hn, hu⟩, not_not.mp hv, Nat.not_lt.mp hl⟩, h⟩
              exact Option.not_isSome_iff_eq_none.mp h₃

/-- The state once the Prepare is in the tail map `t`. -/
def stored (s : Consensus) (r : Nat) (p : PrepareMessage) (t : TailMap InstanceState) :
    Consensus :=
  { s.modifyState r (fun x => { x with nextPrepare := p.inst }) with
    instanceStates := t }.record (.stored r p)

theorem lift_cases {α : Type} {x : Except Certifier.Error α} {a : α} (h : lift x = .ok a) :
    x = .ok a := lift_eq_ok.mp h

/-- A Prepare counts as the promise of the leader. -/
theorem within_implicitPromise {c c' : Certifier Bytes} {p : PrepareMessage}
    (h : implicitPromise cfg s c p = .ok c') : Certifier.Within c c' := by
  unfold implicitPromise at h
  split at h
  · cases h; exact .refl c
  · exact Certifier.within_receivedImplicitPromise (lift_cases h)

/-- A prepare that is held comes under certification. -/
theorem certifies_tryCertifyPrepare {i : Nat} (h : tryCertifyPrepare cfg s i = .ok s') :
    Certifies cfg s s' := by
  unfold tryCertifyPrepare at h
  have hr : Certifies cfg s s := ⟨(Keeps.refl s).toStays, fun _ d h => .inl ⟨d, h, rfl⟩⟩
  split at h
  · cases h; exact hr
  · next d hd =>
      split at h
      · cases h; exact hr
      · split at h
        · obtain ⟨c, hc, h⟩ := bind_eq_ok.mp h
          obtain ⟨c', hc', h⟩ := bind_eq_ok.mp h
          cases h
          have hm : Keeps cfg s (s.modifyInstance i fun d => { d with certifiedPrepare := true }) :=
            .modifyInstance s i (fun _ => rfl) fun _ => rfl
          refine ⟨⟨rfl, hm.held, rfl, rfl, ?_, ⟨[_], rfl, fun e he => ?_⟩, fun _ => rfl⟩,
            fun k d' hk => ?_⟩
          · exact (within_implicitPromise hc').tail.trans (Certifier.acknowledge_tail (lift_cases hc))
          · rw [List.mem_singleton.mp he]; rfl
          · -- the promise of the leader adds no message
            obtain ⟨d₁, hd₁, hm₁⟩ := (within_implicitPromise hc').messages k d' hk
            rcases Certifier.acknowledge_messages (lift_cases hc) hd₁ with ⟨rfl, hm₂⟩ | ⟨d₀, hd₀, hm₂⟩
            · refine .inr ⟨i, d.prepareMessage, d.fastCommitted, ?_, rfl, hm₁.trans hm₂⟩
              rw [held, hd]
              rfl
            · exact .inl ⟨d₀, hd₀, hm₁.trans hm₂⟩
        · cases h; exact hr

theorem Certifies.trans (h₁ : Certifies cfg s s') (h₂ : Certifies cfg s' s'') :
    Certifies cfg s s'' := by
  refine ⟨h₁.toStays.trans h₂.toStays, fun k d h => ?_⟩
  rcases h₂.keys k d h with ⟨d', h', e⟩ | ⟨i, p, f, hp, hk, e⟩
  · rcases h₁.keys k d' h' with ⟨d₀, h₀, e₀⟩ | ⟨i, p, f, hp, hk, e₀⟩
    · exact .inl ⟨d₀, h₀, e.trans e₀⟩
    · exact .inr ⟨i, p, f, hp, hk, e.trans e₀⟩
  · exact .inr ⟨i, p, f, h₁.held i ▸ hp, hk, e⟩

theorem certifies_tryCertifyPrepares {is : List Nat} (h : tryCertifyPrepares cfg s is = .ok s') :
    Certifies cfg s s' := by
  induction is generalizing s with
  | nil =>
      cases h
      exact ⟨(Keeps.refl _).toStays, fun _ d h => .inl ⟨d, h, rfl⟩⟩
  | cons i is ih =>
      obtain ⟨s₁, h₁, h₂⟩ := bind_eq_ok.mp h
      exact (certifies_tryCertifyPrepare h₁).trans (ih h₂)

/-- The Prepare's instance is emplaced in the window. -/
theorem storePrepare_cases {r : Nat} {p : PrepareMessage} (h : storePrepare cfg s r p = .ok s') :
    ∃ t b, s.instanceStates.tryEmplace p.inst (.of p cfg.ids.length) = .ok (t, b) ∧
      s' = stored s r p t := by
  unfold storePrepare at h
  split at h
  · cases h
  · split at h
    · cases h
    · next t b ht => cases h; exact ⟨t, b, ht, rfl⟩

/-- **What an accepted Prepare does**: it is stored, the commits buffered for it are counted, the
valid values up to it are pruned, and it may come under certification. -/
theorem acceptPrepare_cases {r : Nat} {p : PrepareMessage}
    (h : acceptPrepare cfg s r p = .ok s') :
    ∃ t b s₂, s.instanceStates.tryEmplace p.inst (.of p cfg.ids.length) = .ok (t, b) ∧
      replayCommits (pack p.view p.inst) (stored s r p t) (List.range cfg.ids.length) = .ok s₂ ∧
      tryCertifyPrepare cfg (s₂.pruneValidValues r p.inst) p.inst = .ok s' := by
  obtain ⟨s₁, h₁, h⟩ := bind_eq_ok.mp h
  obtain ⟨s₂, h₂, h₃⟩ := bind_eq_ok.mp h
  obtain ⟨t, b, ht, rfl⟩ := storePrepare_cases h₁
  exact ⟨t, b, s₂, ht, h₂, h₃⟩

/-! ### CB messages -/

/-- The state in which the handler of a CB message starts. -/
def delivering (s : Consensus) (r : Nat) (m : Message) : Consensus :=
  (s.modifyState r fun x => { x with nextCb := x.nextCb + 1 }).record (.delivered r m)

/-- The state once a message is CB-broadcast. -/
def broadcasting (cfg : Config) (s : Consensus) (m : Message) : Consensus :=
  { s with nextIndex := s.nextIndex + 1 }.record (.broadcast (s.own cfg).atView s.nextIndex m)

/-- The command hands the message `m` of `r` to its handler, which starts in `s₁`. -/
inductive Receives (cfg : Config) (s : Consensus) (inp : Input) :
    Cmd → Nat → Message → Consensus → Prop where
  | poll {r i : Nat} {m : Message} (hi : inp.cb = some (i, m)) :
      Receives cfg s inp (.pollCb r) r m (delivering s r m)
  | broadcast (m : Message) :
      Receives cfg s inp (.broadcast m) cfg.localIndex m
        (delivering (broadcasting cfg s m) cfg.localIndex m)
  | propose {p : PrepareMessage} {rest : List PrepareMessage} (hp : s.toPropose = p :: rest) :
      Receives cfg s inp .proposeNext cfg.localIndex (.prepare p)
        (delivering (broadcasting cfg { s with toPropose := rest } (.prepare p)) cfg.localIndex
          (.prepare p))

/-- A message of `r` was skipped. -/
def skipping (s : Consensus) (r : Nat) : Consensus :=
  s.modifyState r fun x => { x with nextCb := x.nextCb + 1 }

/-- The command has no message to hand over, or one that follows a gap. -/
inductive Drops (cfg : Config) (s : Consensus) : Cmd → Consensus → Prop where
  | nothing (c : Cmd) : Drops cfg s c s
  | poll (r : Nat) : Drops cfg s (.pollCb r) (skipping s r)
  | broadcast (m : Message) :
      Drops cfg s (.broadcast m) (skipping (broadcasting cfg s m) cfg.localIndex)
  | propose {p : PrepareMessage} {rest : List PrepareMessage} (hp : s.toPropose = p :: rest) :
      Drops cfg s .proposeNext
        (skipping (broadcasting cfg { s with toPropose := rest } (.prepare p)) cfg.localIndex)

theorem keeps_delivering (s : Consensus) (r : Nat) (m : Message) :
    Keeps cfg s (delivering s r m) :=
  (Keeps.modifyState s r rfl rfl).trans (.record _ rfl)

theorem keeps_broadcasting (s : Consensus) (m : Message) : Keeps cfg s (broadcasting cfg s m) := by
  have h : Keeps cfg s { s with nextIndex := s.nextIndex + 1 } := .of_eq rfl rfl rfl rfl
  exact h.trans (.record _ rfl)

theorem Drops.keeps {c : Cmd} (h : Drops cfg s c s') : Keeps cfg s s' := by
  have hd : ∀ (s : Consensus) (r : Nat), Keeps cfg s (skipping s r) :=
    fun s r => .modifyState s r rfl rfl
  cases h with
  | nothing => exact .refl s
  | poll r => exact hd s r
  | broadcast m => exact (keeps_broadcasting s m).trans (hd _ _)
  | @propose p rest hp =>
      have h : Keeps cfg s { s with toPropose := rest } := .of_eq rfl rfl rfl rfl
      exact h.trans ((keeps_broadcasting _ _).trans (hd _ _))

namespace Receives

variable {c : Cmd} {r : Nat} {m : Message} {s₁ : Consensus}

/-- What comes before the handler changes none of it. -/
theorem keeps (h : Receives cfg s inp c r m s₁) : Keeps cfg s s₁ := by
  cases h with
  | poll hi => exact keeps_delivering s r m
  | broadcast m => exact (keeps_broadcasting s m).trans (keeps_delivering _ _ m)
  | @propose p rest hp =>
      have h : Keeps cfg s { s with toPropose := rest } := .of_eq rfl rfl rfl rfl
      exact h.trans ((keeps_broadcasting _ _).trans (keeps_delivering _ _ _))

/-- No view ends, and none is forgotten. -/
theorem ne (h : Receives cfg s inp c r m s₁) : c ≠ .forgetView ∧ c ≠ .sealView cfg.localIndex := by
  cases h <;> exact ⟨nofun, nofun⟩

/-- What the handler finds of a replica. -/
theorem states (h : Receives cfg s inp c r m s₁) (r' : Nat) :
    ∃ n, s₁.states r' = { s.states r' with nextCb := n } := by
  have hd : ∀ (s : Consensus) (r : Nat) (m : Message),
      ∃ n, (delivering s r m).states r' = { s.states r' with nextCb := n } := by
    intro s r m
    change ∃ n, Function.update s.states r _ r' = _
    by_cases hr : r' = r
    · subst hr
      exact ⟨_, Function.update_self ..⟩
    · exact ⟨_, Function.update_of_ne hr ..⟩
  cases h with
  | poll hi => exact hd s r m
  | broadcast m => exact hd (broadcasting cfg s m) _ m
  | @propose p rest hp => exact hd (broadcasting cfg { s with toPropose := rest } _) _ _

theorem instanceStates (h : Receives cfg s inp c r m s₁) : s₁.instanceStates = s.instanceStates := by
  cases h <;> rfl

theorem checkpointCertificate (h : Receives cfg s inp c r m s₁) :
    s₁.checkpointCertificate = s.checkpointCertificate := by
  cases h <;> rfl

/-- What is handled was delivered. -/
theorem mem_delivered (h : Receives cfg s inp c r m s₁) : .delivered r m ∈ s₁.log := by
  cases h <;> exact List.mem_cons_self

end Receives

/-! ### The other handlers -/

/-- The checkpoint of a broadcaster is certified or not. -/
theorem keeps_certifyCbCheckpoint {r : Nat} (h : certifyCbCheckpoint cfg s r = .ok s') :
    Keeps cfg s s' := by
  obtain ⟨c, -, h⟩ := bind_eq_ok.mp h
  cases h
  have hm : Keeps cfg s (s.modifyState r fun x => { x with cbCheckpoint := some x.checkpointCb }) :=
    .modifyState s r rfl rfl
  exact hm.trans (.of_eq rfl rfl rfl rfl)

/-- What sealing a view does. -/
theorem sealView_cases {r : Nat} (h : sealView cfg s r = .ok s') :
    ∃ c, ((s.vcStateCertifiers r).forgetMessages (some (s.states r).atView)).acknowledge
        cfg.vcStateCrypto (s.states r).atView
        (.of (s.states r).atView (s.states r).commits) = .ok c ∧
      s' = startViewChange cfg
        { s.modifyState r (fun x => { x with
            serializedState := some (.of (s.states r).atView (s.states r).commits)
            atView := (s.states r).atView + 1 }) with
          vcStateCertifiers := Function.update s.vcStateCertifiers r c } (s.states r).atView := by
  obtain ⟨c, hc, h⟩ := bind_eq_ok.mp h
  cases h
  exact ⟨c, lift_cases hc, rfl⟩

/-- The view of another replica is sealed. -/
theorem keeps_sealView {r : Nat} (hr : r ≠ cfg.localIndex) (h : sealView cfg s r = .ok s') :
    Keeps cfg s s' := by
  obtain ⟨c, -, rfl⟩ := sealView_cases h
  have hm : Keeps cfg s (s.modifyState r fun x => { x with
      serializedState := some (.of (s.states r).atView (s.states r).commits)
      atView := (s.states r).atView + 1 }) := .modifyState_of s r (fun h => absurd h hr) rfl
  obtain ⟨vc, h⟩ := startViewChange_cases cfg
    { s.modifyState r (fun x => { x with
        serializedState := some (.of (s.states r).atView (s.states r).commits)
        atView := (s.states r).atView + 1 }) with
      vcStateCertifiers := Function.update s.vcStateCertifiers r c } (s.states r).atView
  rw [h]
  exact hm.trans (.of_eq rfl rfl rfl rfl)

theorem keeps_pollPrepareCertificates (s : Consensus) :
    Keeps cfg s (pollPrepareCertificates cfg s).1 := by
  have hp := (Certifier.pollCertificate_cases cfg.prepareCrypto s.prepareCertifier).1
  have hk : Keeps cfg s { s with
      prepareCertifier := (s.prepareCertifier.pollCertificate cfg.prepareCrypto).1 } :=
    .prepareCertifier s (by rw [hp]) fun k d h => ⟨d, by rw [hp] at h; exact h, rfl⟩
  unfold pollPrepareCertificates
  simp only
  split <;> exact hk

theorem keeps_pollDecision (h : s.pollDecision = .ok s') : Keeps cfg s s' := by
  unfold pollDecision at h
  split at h
  · cases h; exact .refl s
  · next d _ =>
      split at h
      · split at h
        · cases h
          have hm : Keeps cfg s (s.modifyInstance s.nextToDecide fun d => { d with
              decided := true }) := .modifyInstance s _ (fun _ => rfl) fun _ => rfl
          have hn : Keeps cfg (s.modifyInstance s.nextToDecide fun d => { d with decided := true })
              { s.modifyInstance s.nextToDecide (fun d => { d with decided := true }) with
                nextToDecide := s.nextToDecide + 1 } := .of_eq rfl rfl rfl rfl
          exact hm.trans (hn.trans (.record _ rfl))
        · cases h
      · cases h; exact .refl s

theorem keeps_call {c : Call} {cs : List Cmd} (h : call cfg s c = .ok (s', cs)) :
    Keeps cfg s s' := by
  cases c with
  | tick => cases h; exact .refl s
  | propose => cases h; exact .refl s
  | changeView => cases h; exact .refl s
  | toggleSlowPath b => cases h; exact .of_eq rfl rfl rfl rfl
  | getSlot b =>
      obtain ⟨ps, n, rfl⟩ := getSlot_cases (pure_eq_ok h).1
      exact .of_eq rfl rfl rfl rfl
  | pollDecision => exact keeps_pollDecision (pure_eq_ok h).1
  | triggerCheckpoint i d =>
      obtain ⟨c, cc, rfl⟩ := triggerCheckpoint_cases (pure_eq_ok h).1
      exact .of_eq rfl rfl rfl rfl

/-- What a certifier does on its own promises nothing new. -/
theorem within_internal {M : Type} {cr : Certifier.Crypto M} {c c' : Certifier M}
    {op : Certifier.Op M} (hop : Internal op) (h : c.apply cr op = .ok c') :
    Certifier.Within c c' := by
  refine Certifier.within_apply ?_ ?_ ?_ h
  · rintro i m rfl
    exact hop
  · rintro rfl
    exact hop
  · rintro rfl
    exact hop

/-- **What runs in the background**: the certifiers' own work, the verifications of commits, the
requests that arrive. -/
theorem background_cases {l : Label} (h : Machine.background cfg s l = .ok s') :
    ∃ pc vcs cc cbs qs vs ver log,
      s' = { s with
        prepareCertifier := pc
        vcStateCertifiers := vcs
        checkpointCertifier := cc
        cbCheckpointCertifiers := cbs
        commitVerifications := qs
        runningVerifications := vs
        verifiedCommits := ver
        requestLog := log } ∧
      Certifier.Within s.prepareCertifier pc ∧
      (∀ r, Certifier.Within (s.cbCheckpointCertifiers r) (cbs r)) ∧
      Certifier.Within s.checkpointCertifier cc := by
  cases l with
  | call c => cases h; exact ⟨_, _, _, _, _, _, _, _, rfl, .refl _, fun _ => .refl _, .refl _⟩
  | exec inp => cases h; exact ⟨_, _, _, _, _, _, _, _, rfl, .refl _, fun _ => .refl _, .refl _⟩
  | requests log => cases h; exact ⟨_, _, _, _, _, _, _, _, rfl, .refl _, fun _ => .refl _, .refl _⟩
  | startVerification r =>
      cases h
      unfold startVerification
      split <;> exact ⟨_, _, _, _, _, _, _, _, rfl, .refl _, fun _ => .refl _, .refl _⟩
  | finishVerification k =>
      cases h
      unfold finishVerification
      split
      · exact ⟨_, _, _, _, _, _, _, _, rfl, .refl _, fun _ => .refl _, .refl _⟩
      · simp only
        split <;> exact ⟨_, _, _, _, _, _, _, _, rfl, .refl _, fun _ => .refl _, .refl _⟩
  | prepareCertifier op =>
      simp only [Machine.background] at h
      split at h
      · next hop =>
          obtain ⟨c, hc, h⟩ := bind_eq_ok.mp h
          cases h
          exact ⟨_, _, _, _, _, _, _, _, rfl, within_internal hop (lift_cases hc),
            fun _ => .refl _, .refl _⟩
      · cases h; exact ⟨_, _, _, _, _, _, _, _, rfl, .refl _, fun _ => .refl _, .refl _⟩
  | cbCheckpointCertifier r op =>
      simp only [Machine.background] at h
      split at h
      · next hop =>
          obtain ⟨c, hc, h⟩ := bind_eq_ok.mp h
          cases h
          refine ⟨_, _, _, _, _, _, _, _, rfl, .refl _, fun r' => ?_, .refl _⟩
          by_cases hr : r' = r
          · subst hr
            rw [Function.update_self]
            exact within_internal hop (lift_cases hc)
          · rw [Function.update_of_ne hr]
            exact .refl _
      · cases h; exact ⟨_, _, _, _, _, _, _, _, rfl, .refl _, fun _ => .refl _, .refl _⟩
  | checkpointCertifier op =>
      simp only [Machine.background] at h
      split at h
      · next hop =>
          obtain ⟨c, hc, h⟩ := bind_eq_ok.mp h
          cases h
          exact ⟨_, _, _, _, _, _, _, _, rfl, .refl _, fun _ => .refl _,
            within_internal hop (lift_cases hc)⟩
      · cases h; exact ⟨_, _, _, _, _, _, _, _, rfl, .refl _, fun _ => .refl _, .refl _⟩
  | _ =>
      simp only [Machine.background] at h
      split at h
      · obtain ⟨c, -, h⟩ := bind_eq_ok.mp h
        cases h
        exact ⟨_, _, _, _, _, _, _, _, rfl, .refl _, fun _ => .refl _, .refl _⟩
      · cases h; exact ⟨_, _, _, _, _, _, _, _, rfl, .refl _, fun _ => .refl _, .refl _⟩

theorem keeps_background {l : Label} (h : Machine.background cfg s l = .ok s') :
    Keeps cfg s s' := by
  obtain ⟨pc, _, _, _, _, _, _, _, rfl, hw, -⟩ := background_cases h
  have hp : Keeps cfg s { s with prepareCertifier := pc } := .prepareCertifier s hw.tail hw.messages
  exact hp.trans (.of_eq rfl rfl rfl rfl)

/-! ### Commands -/

/-- A command that receives a message either does nothing with it or runs its handler. -/
theorem exec_receives {c : Cmd} {cs : List Cmd} (h : exec cfg s inp c = .ok (s', cs))
    (hc : (∃ r, c = .pollCb r) ∨ c = .proposeNext ∨ ∃ m, c = .broadcast m) :
    Drops cfg s c s' ∧ (s' = s ∧ cs = [] ∨ cs = [.spin]) ∨
      ∃ r m s₁ cs₀, Receives cfg s inp c r m s₁ ∧ handleMessage cfg s₁ r m = .ok (s', cs₀) ∧
        cs = cs₀ ++ [.maybeCertifyCbCheckpoint r] := by
  rcases hc with ⟨r, rfl⟩ | rfl | ⟨m, rfl⟩
  · simp only [exec, pollCb] at h
    split at h
    · cases h; exact .inl ⟨.nothing _, .inl ⟨rfl, rfl⟩⟩
    · next i m hi =>
        rcases handleCbMessage_cases h with ⟨rfl, rfl⟩ | ⟨-, cs₀, h₁, rfl⟩
        · exact .inl ⟨.poll r, .inr rfl⟩
        · exact .inr ⟨r, m, _, cs₀, .poll hi, h₁, rfl⟩
  · simp only [exec, proposeNext] at h
    split at h
    · cases h; exact .inl ⟨.nothing _, .inl ⟨rfl, rfl⟩⟩
    · next p rest hp =>
        rcases handleCbMessage_cases h with ⟨rfl, rfl⟩ | ⟨-, cs₀, h₁, rfl⟩
        · exact .inl ⟨.propose hp, .inr rfl⟩
        · exact .inr ⟨_, _, _, cs₀, .propose hp, h₁, rfl⟩
  · rcases handleCbMessage_cases h with ⟨rfl, rfl⟩ | ⟨-, cs₀, h₁, rfl⟩
    · exact .inl ⟨.broadcast m, .inr rfl⟩
    · exact .inr ⟨_, m, _, cs₀, .broadcast m, h₁, rfl⟩

/-- What a command does to the prepares, the votes of the fast path and the valid values. -/
inductive Effect (cfg : Config) (s : Consensus) (inp : Input) : Cmd → Consensus → Prop where
  | keeps {c : Cmd} {s' : Consensus} (h : Keeps cfg s s') (hf : c ≠ .forgetView)
      (hs : c ≠ .sealView cfg.localIndex) : Effect cfg s inp c s'
  | prepare {c : Cmd} {r : Nat} {p : PrepareMessage} {s₁ s' : Consensus}
      (hr : Receives cfg s inp c r (.prepare p) s₁) (ha : Admissible cfg s₁ r p)
      (h : acceptPrepare cfg s₁ r p = .ok s') : Effect cfg s inp c s'
  | certify {s' : Consensus} (h : Certifies cfg s s') : Effect cfg s inp .tryCertifyPrepares s'
  | prune (low n : Nat) : Effect cfg s inp (.pruneInstances low n)
      (pruneInstances cfg s (if n = s.adopted then low else inp.freed))
  | forget : Effect cfg s inp .forgetView (forgetView cfg s)
  | promise {c : Certifier Bytes} {k : Nat} (h : s.prepareCertifier.pollPromise = (c, some k)) :
      Effect cfg s inp .pollPrepareCertificatePromises
        (handlePromise cfg { s with prepareCertifier := c } k)
  | fastCommit {r : Nat} {m : FastCommitMessage} {s' : Consensus}
      (hi : inp.fastCommit = some (some m))
      (h : (s.record (.fastPolled r m)).handleFastCommit r m = .ok s') :
      Effect cfg s inp (.pollFastCommit r) s'
  | seal {s' : Consensus} (h : sealView cfg s cfg.localIndex = .ok s') :
      Effect cfg s inp (.sealView cfg.localIndex) s'
  | accept {r : Nat} {m : NewViewMessage} {s' : Consensus} (hv : m.view ≤ (s.own cfg).atView)
      (h : acceptNewView cfg s r m = .ok s') : Effect cfg s inp (.catchUp r m) s'

/-- Every message but a Prepare. -/
theorem keeps_handleMessage {r : Nat} {m : Message} {cs : List Cmd}
    (h : handleMessage cfg s r m = .ok (s', cs)) (hm : ∀ p, m ≠ .prepare p) : Keeps cfg s s' := by
  cases m with
  | malformed => cases h; exact .refl s
  | prepare p => exact absurd rfl (hm p)
  | commit c => exact keeps_handleCommit (pure_eq_ok h).1
  | checkpoint c =>
      obtain ⟨c, -, -, -, h⟩ := handleCheckpoint_cases (pure_eq_ok h).1
      rw [h]
      exact keeps_adoptCheckpoint s r c
  | sealView => cases h; exact .refl s
  | newView nv =>
      obtain ⟨rfl, -⟩ := handleNewView_cases h
      exact .refl _

theorem effect_of_receives {c : Cmd} {cs : List Cmd} (h : exec cfg s inp c = .ok (s', cs))
    (hc : (∃ r, c = .pollCb r) ∨ c = .proposeNext ∨ ∃ m, c = .broadcast m) :
    Effect cfg s inp c s' := by
  have hf : c ≠ .forgetView ∧ c ≠ .sealView cfg.localIndex := by
    rcases hc with ⟨r, rfl⟩ | rfl | ⟨m, rfl⟩
    · exact ⟨nofun, nofun⟩
    · exact ⟨nofun, nofun⟩
    · exact ⟨nofun, nofun⟩
  rcases exec_receives h hc with ⟨hd, -⟩ | ⟨r, m, s₁, cs₀, hr, hm, -⟩
  · exact .keeps hd.keeps hf.1 hf.2
  · cases m with
    | prepare p =>
        rcases handlePrepare_cases (pure_eq_ok hm).1 with rfl | ⟨ha, hp⟩
        · exact .keeps hr.keeps hf.1 hf.2
        · exact .prepare hr ha hp
    | _ => exact .keeps (hr.keeps.trans (keeps_handleMessage hm fun _ => nofun)) hf.1 hf.2

/-- **What a command does.** -/
theorem exec_effect {c : Cmd} {cs : List Cmd} (h : exec cfg s inp c = .ok (s', cs)) :
    Effect cfg s inp c s' := by
  have hperipheral : c.peripheral = true → Effect cfg s inp c s' := by
    intro hc
    obtain ⟨x, rfl⟩ := exec_peripheral h hc
    refine .keeps (.of_eq rfl rfl rfl rfl) ?_ ?_
    · rintro rfl
      cases hc
    · rintro rfl
      cases hc
  cases c with
  | pruneInstances low n => cases h; exact .prune low n
  | pollCb r => exact effect_of_receives h (.inl ⟨r, rfl⟩)
  | certifyCbCheckpoint r =>
      exact .keeps (keeps_certifyCbCheckpoint (pure_eq_ok h).1) (by rintro ⟨⟩) (by rintro ⟨⟩)
  | sealView r =>
      have h := (pure_eq_ok h).1
      by_cases hr : r = cfg.localIndex
      · subst hr
        exact .seal h
      · exact .keeps (keeps_sealView hr h) (by rintro ⟨⟩) fun hc => hr (Cmd.sealView.inj hc)
  | catchUp r m =>
      simp only [exec] at h
      split at h
      · cases h; exact .keeps (.refl s) (by rintro ⟨⟩) (by rintro ⟨⟩)
      · next hv => exact .accept (Nat.not_lt.mp hv) (pure_eq_ok h).1
  | changeView => cases h; exact .keeps (.record s rfl) (by rintro ⟨⟩) (by rintro ⟨⟩)
  | forgetView => cases h; exact .forget
  | pollPrepareCertificatePromises =>
      simp only [exec, pollPrepareCertificatePromises] at h
      cases hp : s.prepareCertifier.pollPromise with
      | mk c o =>
          rw [hp] at h
          cases o with
          | none =>
              cases h
              have ht := (Certifier.pollPromise_cases s.prepareCertifier).1
              rw [hp] at ht
              refine .keeps (.prepareCertifier s (by rw [ht]) fun k d hd => ⟨d, ?_, rfl⟩)
                (by rintro ⟨⟩) (by rintro ⟨⟩)
              rw [← ht]
              exact hd
          | some k => cases h; exact .promise hp
  | tryCertifyPrepares => exact .certify (certifies_tryCertifyPrepares (pure_eq_ok h).1)
  | pollPrepareCertificates =>
      have hk : Keeps cfg s _ := keeps_pollPrepareCertificates s
      rw [Except.ok.inj h] at hk
      exact .keeps hk (by rintro ⟨⟩) (by rintro ⟨⟩)
  | pollVerifiedCommits =>
      exact .keeps (keeps_handleVerifiedCommits (pure_eq_ok h).1) (by rintro ⟨⟩) (by rintro ⟨⟩)
  | proposeNext => exact effect_of_receives h (.inr (.inl rfl))
  | pollFastCommit r =>
      have h := (pure_eq_ok h).1
      cases hi : inp.fastCommit with
      | none => rw [hi] at h; cases h; exact .keeps (.refl _) (by rintro ⟨⟩) (by rintro ⟨⟩)
      | some o =>
          rw [hi] at h
          cases o with
          | none => cases h
          | some m => exact .fastCommit hi h
  | broadcast m => exact effect_of_receives h (.inr (.inr ⟨m, rfl⟩))
  | _ => exact hperipheral rfl

end Ubft.Consensus
