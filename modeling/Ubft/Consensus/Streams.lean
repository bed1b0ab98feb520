import Ubft.Consensus.Frame

/-!
# Consensus — CB streams

What a replica deduces from the CB messages of another one, apart from everything else it knows.
A `Stream` is what `checkpointCb` reads; `Stream.handle` says what a message makes of it, and is
a function of the message but for one bit, whether the handler of a Prepare is left early.
`deduced` are the streams of all replicas with the messages handed over, and `Same` the steps
that leave them alone.
-/

namespace Ubft.Consensus

open Certifier (Certificate)

variable {cfg : Config} {s s' s'' : Consensus} {inp : Input}

/-! ### A stream -/

/-- What `checkpointCb` reads of a replica. -/
structure Stream where
  nextCb : Nat
  atView : Nat
  checkpoint : Checkpoint
  nextPrepare : Nat
  validValues : Option (Nat × TailMap Bytes)
  commits : OrdMap Nat BroadcastCommit

/-- What is deduced of a replica from its broadcast. -/
def ReplicaState.stream (x : ReplicaState) : Stream where
  nextCb := x.nextCb
  atView := x.atView
  checkpoint := x.checkpoint
  nextPrepare := x.nextPrepare
  validValues := x.validValues
  commits := x.commits

/-- The verifications in progress are not part of a stream. -/
theorem stream_outstanding (x : ReplicaState) (n : Nat) :
    { x with outstandingCommitVerifications := n }.stream = x.stream := rfl

/-- The checkpoint of a broadcaster is made of its stream. -/
theorem checkpointCb_eq {x y : ReplicaState} (h : x.stream = y.stream) :
    x.checkpointCb = y.checkpointCb := by
  simp only [ReplicaState.stream, Stream.mk.injEq] at h
  obtain ⟨hn, hv, hc, hp, hvv, hcs⟩ := h
  simp only [ReplicaState.checkpointCb, hn, hv, hc, hp, hvv, hcs]

namespace Stream

/-- A replica that broadcast nothing. -/
def start (window : Nat) : Stream := ⟨0, 0, .of 0 window [], 0, none, .empty⟩

/-- A message was delivered. -/
def delivered (x : Stream) : Stream := { x with nextCb := x.nextCb + 1 }

/-- The valid values are pruned up to the instance. -/
def prune (x : Stream) (i : Nat) : Stream :=
  { x with validValues := x.validValues.map fun vv => (vv.1, vv.2.popBelow (i + 1)) }

/-- A Prepare, whose handler may be left early. -/
def prepare (x : Stream) (early : Bool) (p : PrepareMessage) : Stream :=
  if early then x else { x with nextPrepare := p.inst }.prune p.inst

/-- The replica committed. -/
def commit (x : Stream) (c : Certificate Bytes) : Stream :=
  { x with commits := x.commits.insert (unpack c.index).2 (.of c) }

/-- The replica has the checkpoint. -/
def adopt (x : Stream) (c : Certificate Checkpoint) : Stream :=
  { x with
    checkpoint := c.message
    commits := x.commits.popWhile fun i => decide (i < c.message.low) }

/-- The replica leaves its view. -/
def sealView (x : Stream) : Stream := { x with atView := x.atView + 1 }

/-- A NewView, when its values fit. -/
def newView (cfg : Config) (x : Stream) (m : NewViewMessage) : Stream :=
  match m.validValues cfg.window cfg.quorum with
  | .error _ => x
  | .ok values => { x with
      nextPrepare := x.checkpoint.low
      validValues := some (m.view, values) }

/-- What the handler of a message makes of the stream. -/
def handle (cfg : Config) (x : Stream) (early : Bool) : Message → Stream
  | .malformed | .commit none | .checkpoint none => x
  | .prepare p => x.prepare early p
  | .commit (some c) => x.commit c
  | .checkpoint (some c) => x.adopt c
  | .sealView => x.sealView
  | .newView m => if m.vcCertificates.length ≠ cfg.quorum then x else x.newView cfg m

/-- The stream after some messages, the latest first; `early` tells by its index which Prepare
is left early. -/
def after (cfg : Config) (early : Nat → Bool) : List Message → Stream
  | [] => start cfg.window
  | m :: ms =>
    (after cfg early ms).delivered.handle cfg (early (after cfg early ms).nextCb) m

/-- Replicas of one deployment agree on what a stream is. -/
theorem after_congr {cfg₁ cfg₂ : Config} (hw : cfg₁.window = cfg₂.window)
    (hq : cfg₁.quorum = cfg₂.quorum) (early : Nat → Bool) (ms : List Message) :
    after cfg₁ early ms = after cfg₂ early ms := by
  have hn : newView cfg₁ = newView cfg₂ := by
    funext x m
    rw [newView, newView, hw, hq]
  induction ms with
  | nil => rw [after, after, hw]
  | cons m ms ih =>
      rw [after, after, ih]
      cases m with
      | newView m => rw [handle, handle, hn, hq]
      | commit c => cases c <;> rfl
      | checkpoint c => cases c <;> rfl
      | _ => rfl

end Stream

/-! ### The streams of a replica -/

/-- The message of `r` that was handed over. -/
def Event.messageOf (r : Nat) : Event → Option Message
  | .delivered r' m => if r' = r then some m else none
  | _ => none

/-- The messages of `r` handed over, the latest first. -/
def received (log : List Event) (r : Nat) : List Message := log.filterMap (Event.messageOf r)

/-- The streams, and the messages they were deduced from. -/
structure Deduced where
  streams : Nat → Stream
  received : Nat → List Message

/-- What is deduced of each replica, and what was received of it. -/
def deduced (s : Consensus) : Deduced := ⟨fun r => (s.states r).stream, received s.log⟩

/-- The stream of `r` is `x`. -/
def Deduced.set (d : Deduced) (r : Nat) (x : Stream) : Deduced :=
  { d with streams := Function.update d.streams r x }

@[simp] theorem Deduced.set_streams (d : Deduced) (r : Nat) (x : Stream) :
    (d.set r x).streams = Function.update d.streams r x := rfl

theorem Deduced.set_self (d : Deduced) (r : Nat) : d.set r (d.streams r) = d := by
  rw [set, Function.update_eq_self]

/-- Only the last write to a stream counts. -/
theorem Deduced.set_set (d : Deduced) (r : Nat) (x y : Stream) :
    (d.set r x).set r y = d.set r y := by
  rw [set, set, Function.update_idem]
  rfl

/-- One replica's stream changes. -/
theorem deduced_modifyState (s : Consensus) (r : Nat) (f : ReplicaState → ReplicaState) :
    (s.modifyState r f).deduced = s.deduced.set r (f (s.states r)).stream := by
  refine congrArg (Deduced.mk · (received s.log)) (funext fun r' => ?_)
  change (Function.update s.states r _ r').stream =
    Function.update (fun r => (s.states r).stream) r _ r'
  by_cases hr : r' = r
  · rw [hr, Function.update_self, Function.update_self]
  · rw [Function.update_of_ne hr, Function.update_of_ne hr]

/-- The streams and what was received of them are those of `s`. -/
def Same (s s' : Consensus) : Prop := s'.deduced = s.deduced

theorem Same.trans (h : Same s s') (h' : Same s' s'') : Same s s'' := Eq.trans h' h

/-- A record changes, and not its stream. -/
theorem Same.modifyState (s : Consensus) (r : Nat) {f : ReplicaState → ReplicaState}
    (hf : (f (s.states r)).stream = (s.states r).stream) : Same s (s.modifyState r f) := by
  refine (deduced_modifyState s r f).trans ?_
  rw [hf]
  exact s.deduced.set_self r

/-- The stream of `r` after a step that changes one. -/
theorem stream_of_deduced {d : Deduced} (h : s'.deduced = d) (r : Nat) :
    (s'.states r).stream = d.streams r := congrFun (congrArg Deduced.streams h) r

theorem received_of_deduced {d : Deduced} (h : s'.deduced = d) (r : Nat) :
    received s'.log r = d.received r := congrFun (congrArg Deduced.received h) r

/-! ### What leaves the streams alone -/

/-- A verified commit is not news. -/
theorem same_handleVerifiedCommit {r : Nat} {c : Certificate Bytes}
    (h : s.handleVerifiedCommit r c = .ok s') : Same s s' := by
  unfold handleVerifiedCommit at h
  simp only at h
  have hm : Same s (s.modifyState r fun x => { x with
      outstandingCommitVerifications :=
        (x.outstandingCommitVerifications + 2 ^ 64 - 1) % 2 ^ 64 }) :=
    .modifyState s r (stream_outstanding _ _)
  split at h
  · cases h
    exact hm.trans rfl
  · split at h
    · cases h
    · cases h
      exact hm.trans rfl

theorem same_handleVerifiedCommits (h : s.handleVerifiedCommits = .ok s') : Same s s' := by
  unfold handleVerifiedCommits at h
  split at h
  · cases h; exact rfl
  · next rest _ =>
      split at h
      · have hq : Same s { s with verifiedCommits := rest } := rfl
        exact hq.trans (same_handleVerifiedCommit h)
      · cases h

/-- Nor is one that is replayed. -/
theorem same_replayCommit {useful r : Nat} (h : replayCommit useful s r = .ok s') :
    Same s s' := by
  unfold replayCommit at h
  simp only at h
  split at h
  · cases h; exact rfl
  · split at h
    · obtain ⟨s₁, h₁, h₂⟩ := bind_eq_ok.mp h
      cases h₂
      have hb : Same s { s with
          bufferedCommits := Function.update s.bufferedCommits r
            ((s.bufferedCommits r).popWhile fun c => decide (c.index < useful)) } := rfl
      exact hb.trans ((same_handleVerifiedCommit h₁).trans rfl)
    · cases h; exact rfl

theorem same_replayCommits {useful : Nat} {rs : List Nat}
    (h : replayCommits useful s rs = .ok s') : Same s s' := by
  induction rs generalizing s with
  | nil => cases h; exact rfl
  | cons r rs ih =>
      obtain ⟨s₁, h₁, h₂⟩ := bind_eq_ok.mp h
      exact (same_replayCommit h₁).trans (ih h₂)

/-- Nor is a certificate in progress. -/
theorem same_tryCertifyPrepare {i : Nat} (h : tryCertifyPrepare cfg s i = .ok s') :
    Same s s' := by
  unfold tryCertifyPrepare at h
  split at h
  · cases h; exact rfl
  · split at h
    · cases h; exact rfl
    · split at h
      · obtain ⟨c, -, h⟩ := bind_eq_ok.mp h
        obtain ⟨c', -, h⟩ := bind_eq_ok.mp h
        cases h
        exact rfl
      · cases h; exact rfl

theorem same_tryCertifyPrepares {is : List Nat} (h : tryCertifyPrepares cfg s is = .ok s') :
    Same s s' := by
  induction is generalizing s with
  | nil => cases h; exact rfl
  | cons i is ih =>
      obtain ⟨s₁, h₁, h₂⟩ := bind_eq_ok.mp h
      exact (same_tryCertifyPrepare h₁).trans (ih h₂)

theorem same_handleCheckpointCertificate (s : Consensus) (c : Certificate Checkpoint) :
    Same s (s.handleCheckpointCertificate c) := by
  unfold handleCheckpointCertificate
  split <;> exact rfl

theorem same_handlePromise (s : Consensus) (k : Nat) : Same s (handlePromise cfg s k) := by
  unfold handlePromise
  split <;> exact rfl

theorem same_certifyCbCheckpoint {r : Nat} (h : certifyCbCheckpoint cfg s r = .ok s') :
    Same s s' := by
  obtain ⟨c, -, h⟩ := bind_eq_ok.mp h
  cases h
  have hm : Same s (s.modifyState r fun x => { x with cbCheckpoint := some x.checkpointCb }) :=
    .modifyState s r rfl
  exact hm.trans rfl

theorem same_pollFastCommit {r : Nat} {o : Option (Option FastCommitMessage)}
    (h : pollFastCommit s r o = .ok s') : Same s s' := by
  match o, h with
  | none, h => cases h; exact rfl
  | some (some m), h =>
      rcases handleFastCommit_cases h with ⟨rfl, -⟩ | rfl
      · exact rfl
      · exact rfl

/-- Nor is what the server asks for. -/
theorem same_call {c : Call} {cs : List Cmd} (h : call cfg s c = .ok (s', cs)) : Same s s' := by
  cases c with
  | tick => cases h; exact rfl
  | propose => cases h; exact rfl
  | changeView => cases h; exact rfl
  | toggleSlowPath b => cases h; exact rfl
  | getSlot b => obtain ⟨ps, n, rfl⟩ := getSlot_cases (pure_eq_ok h).1; exact rfl
  | pollDecision =>
      have h := (pure_eq_ok h).1
      unfold pollDecision at h
      split at h
      · cases h; exact rfl
      · split at h
        · split at h
          · cases h; exact rfl
          · cases h
        · cases h; exact rfl
  | triggerCheckpoint i d =>
      obtain ⟨c, cc, rfl⟩ := triggerCheckpoint_cases (pure_eq_ok h).1
      exact rfl

/-- Nor is what goes on between the calls. -/
theorem same_background {l : Label} (h : Machine.background cfg s l = .ok s') : Same s s' := by
  obtain ⟨_, _, _, _, _, _, _, _, rfl, -⟩ := background_cases h
  exact rfl

/-! ### What changes a stream -/

/-- The handler of a Prepare is left before anything is deduced from it. -/
def LeftEarly (cfg : Config) (s : Consensus) (p : PrepareMessage) : Prop :=
  p.view ≠ (s.own cfg).atView ∨ p.inst < s.certifiedCheckpoint.low

instance (s : Consensus) (p : PrepareMessage) : Decidable (LeftEarly cfg s p) :=
  inferInstanceAs (Decidable (_ ∨ _))

/-- Either the Prepare is left, or it is accepted. -/
theorem handlePrepare_early {r : Nat} {p : PrepareMessage}
    (h : handlePrepare cfg s r p = .ok s') :
    LeftEarly cfg s p ∧ s' = s ∨ ¬ LeftEarly cfg s p ∧ acceptPrepare cfg s r p = .ok s' := by
  unfold handlePrepare at h
  split at h
  · cases h
  · split at h
    · next hv => cases h; exact .inl ⟨.inl hv, rfl⟩
    · next hv =>
        split at h
        · next hl => cases h; exact .inl ⟨.inr hl, rfl⟩
        · next hl => exact .inr ⟨fun he => he.elim hv hl, h⟩

/-- What an accepted Prepare adds to its stream. -/
theorem deduced_acceptPrepare {r : Nat} {p : PrepareMessage}
    (h : acceptPrepare cfg s r p = .ok s') :
    s'.deduced = s.deduced.set r ((s.states r).stream.prepare false p) := by
  obtain ⟨t, b, s₂, -, hr, hc⟩ := acceptPrepare_cases h
  obtain ⟨x, hx⟩ : ∃ x, (s.states r).stream = x := ⟨_, rfl⟩
  have h₁ : (stored s r p t).deduced = s.deduced.set r { x with nextPrepare := p.inst } :=
    hx ▸ deduced_modifyState s r fun x => { x with nextPrepare := p.inst }
  -- what is replayed are commits that were deduced before
  have h₂ : s₂.deduced = s.deduced.set r { x with nextPrepare := p.inst } :=
    Eq.trans (same_replayCommits hr) h₁
  have hx₂ : (s₂.states r).stream = { x with nextPrepare := p.inst } :=
    (stream_of_deduced h₂ r).trans (Function.update_self ..)
  have h₃ : (s₂.pruneValidValues r p.inst).deduced =
      s₂.deduced.set r ((s₂.states r).stream.prune p.inst) := deduced_modifyState ..
  rw [same_tryCertifyPrepare hc, h₃, h₂, Deduced.set_set, hx₂, hx]
  rfl

/-- What a Prepare adds, accepted or not. -/
theorem deduced_handlePrepare {r : Nat} {p : PrepareMessage}
    (h : handlePrepare cfg s r p = .ok s') :
    s'.deduced = s.deduced.set r ((s.states r).stream.prepare (decide (LeftEarly cfg s p)) p) := by
  rcases handlePrepare_early h with ⟨he, rfl⟩ | ⟨he, h⟩
  · -- the Prepare was left early, and nothing is deduced from it
    rw [decide_eq_true he]
    exact (s'.deduced.set_self r).symm
  · rw [decide_eq_false he]
    exact deduced_acceptPrepare h

theorem deduced_handleCommit {r : Nat} {o : Option (Certificate Bytes)}
    (h : handleCommit cfg s r o = .ok s') :
    ∃ c, o = some c ∧ s'.deduced = s.deduced.set r ((s.states r).stream.commit c) := by
  obtain ⟨c, x, rfl, -, hx, -, rfl⟩ := handleCommit_cases h
  obtain ⟨rfl, -⟩ := ReplicaState.commit_cases hx
  refine ⟨c, rfl, ?_⟩
  have hv : ∀ s, Same s (verifyCommit cfg s r c) := by
    intro s
    unfold verifyCommit
    split <;> exact rfl
  rw [hv]
  exact (deduced_modifyState ..).trans (congrArg (s.deduced.set r) (stream_outstanding _ _))

theorem deduced_handleCheckpoint {r : Nat} {o : Option (Certificate Checkpoint)}
    (h : handleCheckpoint cfg s r o = .ok s') :
    ∃ c, o = some c ∧ s'.deduced = s.deduced.set r ((s.states r).stream.adopt c) := by
  obtain ⟨c, rfl, -, -, rfl⟩ := handleCheckpoint_cases h
  refine ⟨c, rfl, ?_⟩
  rw [adoptCheckpoint, same_handleCheckpointCertificate]
  exact deduced_modifyState ..

theorem deduced_sealView {r : Nat} (h : sealView cfg s r = .ok s') :
    s'.deduced = s.deduced.set r (s.states r).stream.sealView := by
  obtain ⟨c, -, rfl⟩ := sealView_cases h
  obtain ⟨vc, he⟩ := startViewChange_cases cfg
    { s.modifyState r (fun x => { x with
        serializedState := some (.of (s.states r).atView (s.states r).commits)
        atView := (s.states r).atView + 1 }) with
      vcStateCertifiers := Function.update s.vcStateCertifiers r c } (s.states r).atView
  rw [he]
  exact deduced_modifyState s r fun x => { x with
    serializedState := some (.of (s.states r).atView (s.states r).commits)
    atView := (s.states r).atView + 1 }

theorem deduced_acceptNewView {r : Nat} {m : NewViewMessage}
    (h : acceptNewView cfg s r m = .ok s') :
    s'.deduced = s.deduced.set r ((s.states r).stream.newView cfg m) := by
  obtain ⟨values, hv, rfl⟩ := acceptNewView_cases h
  rw [Stream.newView, hv]
  exact deduced_modifyState s r fun x => { x with
    nextPrepare := x.checkpoint.low
    validValues := some (m.view, values) }

/-- What is deduced once the message `m` of `r` is about to be handled. -/
def Deduced.deliver (d : Deduced) (r : Nat) (m : Message) : Deduced where
  streams := Function.update d.streams r (d.streams r).delivered
  received := Function.update d.received r (m :: d.received r)

theorem received_delivered (log : List Event) (r : Nat) (m : Message) :
    received (.delivered r m :: log) =
      Function.update (received log) r (m :: received log r) := by
  funext r'
  by_cases hr : r' = r
  · subst hr
    have hm : Event.messageOf r' (.delivered r' m) = some m := if_pos rfl
    rw [Function.update_self, received, List.filterMap_cons_some hm, received]
  · have hm : Event.messageOf r' (.delivered r m) = none := if_neg (Ne.symm hr)
    rw [Function.update_of_ne hr, received, List.filterMap_cons_none hm, received]

/-- A delivered message is in the stream of its sender. -/
theorem deduced_delivering (s : Consensus) (r : Nat) (m : Message) :
    (delivering s r m).deduced = s.deduced.deliver r m := by
  have hs := congrArg Deduced.streams
    (deduced_modifyState s r fun x => { x with nextCb := x.nextCb + 1 })
  have hr := received_delivered s.log r m
  exact congrArg₂ Deduced.mk hs hr

/-- The message is received before it is handled. -/
theorem Receives.deduced {c : Cmd} {r : Nat} {m : Message} {s₁ : Consensus}
    (h : Receives cfg s inp c r m s₁) : s₁.deduced = s.deduced.deliver r m := by
  cases h with
  | poll hi => exact deduced_delivering s r m
  | broadcast m => exact deduced_delivering (broadcasting cfg s m) _ m
  | @propose p rest hp =>
      exact deduced_delivering (broadcasting cfg { s with toPropose := rest } _) _ _

end Ubft.Consensus
