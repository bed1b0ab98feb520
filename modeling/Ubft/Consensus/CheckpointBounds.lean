import Ubft.Consensus.CbCheckpoints
import Ubft.Consensus.Checkpoints

/-!
# Consensus — the checkpoints received

`isByzantineCheckpoint` compares the index of a certificate with the checkpoint of its sender, and
what is adopted is the checkpoint in the certificate.  The certificate is not verified when it is
the replica's own, nor when it carries the checkpoint that is already certified.

`Shape` is what is known of a valid certificate, at least that its checkpoint begins at its index.
What the replicas' checkpoints are then follows from where the certificates come from
(`Machine.certified_of_reachable`): none is above the certified one, and none moves down
(`checkpoints_monotone`).
-/

namespace Ubft.Consensus

open Certifier (Certificate MessageData)

variable {cfg : Config} {s s' : Consensus} {inp : Input}

/-- What a certificate of an index carries. -/
structure Shape (cfg : Config) where
  carries : Nat → Checkpoint → Prop
  low : ∀ k c, carries k c → c.low = k
  opened : ∀ n digest, carries n (.of n cfg.window digest)

/-- A checkpoint that begins at the index. -/
def Shape.begins (cfg : Config) : Shape cfg where
  carries k c := c.low = k
  low _ _ h := h
  opened _ _ := rfl

instance (k : Nat) (c : Checkpoint) : Decidable ((Shape.begins cfg).carries k c) :=
  inferInstanceAs (Decidable (_ = _))

/-- The certificate is valid. -/
def Verifies (cfg : Config) (s : Consensus) (c : Certificate Checkpoint) : Prop :=
  (s.checkpointCertifier.check cfg.checkpointCrypto c).toOption = some true

instance (s : Consensus) (c : Certificate Checkpoint) : Decidable (Verifies cfg s c) :=
  inferInstanceAs (Decidable (_ = _))

/-- A certificate that is valid has the shape. -/
def Vouched (p : Shape cfg) (s : Consensus) : Message → Prop
  | .checkpoint (some c) => Verifies cfg s c → p.carries c.index c.message
  | _ => True

instance (p : Shape cfg) [∀ k c, Decidable (p.carries k c)] (s : Consensus) (m : Message) :
    Decidable (Vouched p s m) := by
  unfold Vouched
  split <;> infer_instance

/-- So has one that a step hands over. -/
def Vouches (p : Shape cfg) (m : Machine) (l : Label) : Prop :=
  ∀ rm ∈ handing cfg m l, Vouched p m.core rm.2

instance (p : Shape cfg) [∀ k c, Decidable (p.carries k c)] (m : Machine) (l : Label) :
    Decidable (Vouches p m l) :=
  inferInstanceAs (Decidable (∀ rm ∈ handing cfg m l, _))

/-! ### What was certified -/

/-- What was certified has the shape, and no checkpoint received is above it. -/
structure Certified (p : Shape cfg) (x : Checkpoints) : Prop where
  certificate : p.carries x.certificate.index x.certificate.message
  certifier : ∀ k d, x.certifier.msgTail.find? k = some d → p.carries k d.message
  below : ∀ r, (x.received r).low ≤ x.certificate.message.low
  received : ∀ r, p.carries (x.received r).low (x.received r)

/-- So has the certificate that is still to be broadcast. -/
def Announces (p : Shape cfg) : Cmd → Prop
  | .broadcast (.checkpoint (some c)) => p.carries c.index c.message
  | _ => True

/-- A checkpoint that may be adopted after that of `r`. -/
structure Succeeds (p : Shape cfg) (x : Checkpoints) (r : Nat) (c : Certificate Checkpoint) :
    Prop where
  low : (x.received r).low ≤ c.message.low
  carried : p.carries c.message.low c.message
  certified : x.certificate.message.low < c.message.low → p.carries c.index c.message

variable {p : Shape cfg}

theorem Shape.carries_low (p : Shape cfg) {k : Nat} {c : Checkpoint} (h : p.carries k c) :
    p.carries c.low c := by
  rw [p.low k c h]
  exact h

namespace Certified

variable {x : Checkpoints}

theorem above (h : Certified p x) (n : Nat) : Certified p { x with above := n } :=
  ⟨h.certificate, h.certifier, h.below, h.received⟩

/-- A certificate is adopted when it is above the certified one. -/
theorem handleCertificate {c : Certificate Checkpoint}
    (hs : p.carries s.checkpointCertificate.index s.checkpointCertificate.message)
    (hk : ∀ k d, s.checkpointCertifier.msgTail.find? k = some d → p.carries k d.message)
    (hb : ∀ r, (s.states r).checkpoint.low ≤ s.certifiedCheckpoint.low ∨
      (s.states r).checkpoint.low ≤ c.message.low)
    (hr : ∀ r, p.carries (s.states r).checkpoint.low (s.states r).checkpoint)
    (hc : s.certifiedCheckpoint.low < c.message.low → p.carries c.index c.message) :
    Certified p (s.handleCheckpointCertificate c).checkpoints := by
  unfold handleCheckpointCertificate
  split
  · next hle => exact ⟨hs, hk, fun r => (hb r).elim id fun hl => hl.trans hle, hr⟩
  · next hlt =>
      have hlt := Nat.not_le.mp hlt
      exact ⟨hc hlt, hk, fun r => (hb r).elim (fun hl => hl.trans hlt.le) id, hr⟩

/-- An adopted checkpoint is certified for its index. -/
theorem adopt {r : Nat} {c : Certificate Checkpoint} (h : Certified p s.checkpoints)
    (hf : Succeeds p s.checkpoints r c) : Certified p (adoptCheckpoint s r c).checkpoints := by
  refine handleCertificate h.certificate h.certifier (fun r' => ?_) (fun r' => ?_) hf.certified
  all_goals by_cases hr : r' = r
  · rw [hr, states_modifyState_self]
    exact .inr le_rfl
  · rw [states_modifyState_of_ne s hr]
    exact .inl (h.below r')
  · rw [hr, states_modifyState_self]
    exact hf.carried
  · rw [states_modifyState_of_ne s hr]
    exact h.received r'

/-- What the certifier makes of its messages. -/
theorem poll (h : Certified p s.checkpoints) :
    Certified p (pollCheckpointCertificate cfg s).checkpoints := by
  obtain ⟨ht, hp⟩ := Certifier.pollCertificate_cases cfg.checkpointCrypto s.checkpointCertifier
  have hk : ∀ k d, (polledCheckpoint cfg s).checkpointCertifier.msgTail.find? k = some d →
      p.carries k d.message := fun k d hd => h.certifier k d (ht ▸ hd)
  rcases pollCheckpointCertificate_eq cfg s with he | ⟨c, hc, he⟩
  · rw [he]
    exact ⟨h.certificate, hk, h.below, h.received⟩
  · rw [he]
    refine handleCertificate h.certificate hk (fun r => .inl (h.below r)) h.received fun _ => ?_
    obtain ⟨-, d, hd, -, hb⟩ := hp c hc
    have hm : c.message = d.message := by rw [hb]; rfl
    rw [hm]
    exact h.certifier c.index d hd

end Certified

/-- **A checkpoint that is adopted** is at or above the one of its sender. -/
theorem succeeds_of_handleCheckpoint {r : Nat} {o : Option (Certificate Checkpoint)}
    (h : handleCheckpoint cfg s r o = .ok s') (hs : Certified p s.checkpoints)
    (hv : ∀ c, o = some c → Verifies cfg s c → p.carries c.index c.message)
    (ho : ∀ c, o = some c → r = cfg.localIndex → p.carries c.index c.message) :
    ∃ c, o = some c ∧ Succeeds p s.checkpoints r c ∧ s' = adoptCheckpoint s r c := by
  obtain ⟨c, rfl, hi, hok, rfl⟩ := handleCheckpoint_cases h
  refine ⟨c, rfl, ?_, rfl⟩
  have of_carries : p.carries c.index c.message → Succeeds p s.checkpoints r c := fun hc =>
    ⟨((p.low _ _ hc).symm ▸ hi.le : _ ≤ c.message.low), p.carries_low hc, fun _ => hc⟩
  unfold verifyCheckpoint at hok
  split at hok
  · -- another replica's, and not the certified one
    refine of_carries (hv c rfl ?_)
    rw [Verifies, lift_cases hok]
    rfl
  · next hne =>
      by_cases hr : r = cfg.localIndex
      · exact of_carries (ho c rfl hr)
      · have he : s.certifiedCheckpoint = c.message := not_not.mp fun hc => hne ⟨hr, hc⟩
        refine ⟨he ▸ hs.below r, he ▸ p.carries_low hs.certificate, fun hlt => ?_⟩
        exact absurd (he ▸ hlt : c.message.low < c.message.low) (Nat.lt_irrefl _)

/-! ### The steps -/

/-- **What is adopted is a later certified checkpoint.** -/
theorem Receives.succeeds {c : Cmd} {rest : List Cmd} {r : Nat}
    {o : Option (Certificate Checkpoint)} {s₁ : Consensus}
    (hr : Receives cfg s inp c r (.checkpoint o) s₁)
    (h : handleCheckpoint cfg s₁ r o = .ok s') (hn : Nested cfg (c :: rest)) (ha : Announces p c)
    (hg : Vouches p ⟨s, c :: rest⟩ (.exec inp)) (hs : Certified p s.checkpoints) :
    ∃ c', o = some c' ∧ Succeeds p s.checkpoints r c' ∧ s' = adoptCheckpoint s₁ r c' := by
  rw [← hr.checkpoints] at hs ⊢
  refine succeeds_of_handleCheckpoint h hs ?_ ?_
  · rintro c' rfl hv
    have hk : s₁.checkpointCertifier = s.checkpointCertifier :=
      congrArg Checkpoints.certifier hr.checkpoints
    rw [Verifies, hk] at hv
    exact hg (r, .checkpoint (some c')) (handing_of_receives hr rest) hv
  · -- what the replica broadcasts was certified before
    rintro c' rfl hl
    cases hr with
    | poll hi => exact absurd hl (Nat.ne_of_lt hn.1.2.1)
    | broadcast => exact ha

/-- Every checkpoint that is kept is certified. -/
theorem certified_exec {c : Cmd} {cs rest : List Cmd} (h : exec cfg s inp c = .ok (s', cs))
    (hn : Nested cfg (c :: rest)) (ha : Announces p c)
    (hg : Vouches p ⟨s, c :: rest⟩ (.exec inp)) (hs : Certified p s.checkpoints) :
    Certified p s'.checkpoints := by
  cases exec_adopts h with
  | same above h => exact h ▸ hs.above above
  | poll => exact hs.poll
  | receive hr h =>
      obtain ⟨c', -, hf, rfl⟩ := hr.succeeds h hn ha hg hs
      rw [← hr.checkpoints] at hs hf
      exact hs.adopt hf

/-- What is to be broadcast is the certificate. -/
theorem announces_spawned {c : Cmd} {cs : List Cmd} (h : exec cfg s inp c = .ok (s', cs))
    (hs : p.carries s.checkpointCertificate.index s.checkpointCertificate.message) :
    ∀ c' ∈ cs, Announces p c' := by
  intro c' hc'
  cases leads_of_spawns (exec_spawns h) hc' with
  | checkpoint b c =>
      simp only [exec, broadcastCheckpointCertificate] at h
      split at h
      · cases h; cases hc'
      · split at h
        · cases h; cases hc'
        · cases h
          simp only [List.mem_cons, reduceCtorEq, Cmd.broadcast.injEq, Message.checkpoint.injEq,
            Option.some.injEq, List.not_mem_nil, or_false, false_or] at hc'
          exact hc' ▸ hs
  | delivers _ hd hm => cases hd.delivered hm <;> trivial
  | _ => trivial

/-- What is acknowledged opens a window. -/
theorem certified_of_call {c : Call} {cs : List Cmd} (h : call cfg s c = .ok (s', cs))
    (hs : Certified p s.checkpoints) : Certified p s'.checkpoints := by
  rcases checkpoints_call h with hc | ⟨i, d, ht⟩
  · exact hc ▸ hs
  · unfold triggerCheckpoint at ht
    split at ht
    · cases ht
    · obtain ⟨c, hc, ht⟩ := bind_eq_ok.mp ht
      cases ht
      refine ⟨hs.certificate, fun k d' hk => ?_, hs.below, hs.received⟩
      rcases Certifier.acknowledge_messages (lift_cases hc) hk with ⟨rfl, hm⟩ | ⟨d₀, hd₀, hm⟩
      · rw [hm]
        exact p.opened _ _
      · obtain ⟨-, hd₀⟩ := Certifier.forgetMessages_messages hd₀
        rw [hm]
        exact hs.certifier k d₀ hd₀

theorem certified_of_background {l : Label} (h : Machine.background cfg s l = .ok s')
    (hs : Certified p s.checkpoints) : Certified p s'.checkpoints := by
  obtain ⟨_, _, cc, _, _, _, _, _, rfl, -, -, hw⟩ := background_cases h
  refine ⟨hs.certificate, fun k d hd => ?_, hs.below, hs.received⟩
  obtain ⟨d₀, hd₀, hm⟩ := hw.messages k d hd
  rw [hm]
  exact hs.certifier k d₀ hd₀

theorem Machine.certified_of_reachable {m : Machine}
    (h : Reachable (Init cfg) (Step cfg) (Vouches p) m) :
    Certified p m.core.checkpoints ∧ ∀ c ∈ m.todo, Announces p c := by
  refine h.induct (P := fun m => Certified p m.core.checkpoints ∧ ∀ c ∈ m.todo, Announces p c)
    (fun m hm => ?_) fun m l m' hr ho hg hs => ?_
  · obtain ⟨requestLog, rfl⟩ := hm
    exact ⟨⟨p.opened 0 [], fun _ _ hd => (nomatch hd), fun _ => le_rfl, fun _ => p.opened 0 []⟩,
      fun _ hc => (nomatch hc)⟩
  · obtain ⟨ho, ht⟩ := ho
    rcases step_cases hs with ⟨c, s, cs, -, -, hc, rfl⟩ | ⟨inp, c, rest, s, cs, rfl, hm, he, rfl⟩ |
      ⟨s, hb, rfl⟩
    · refine ⟨certified_of_call hc ho, fun a ha => ?_⟩
      cases called_of_call hc ha <;> trivial
    · have hn := nested_of_reachable hr
      obtain ⟨core, todo⟩ := m
      subst hm
      refine ⟨certified_exec he hn (ht c List.mem_cons_self) hg ho, fun a ha => ?_⟩
      rcases List.mem_append.mp ha with ha | ha
      · exact announces_spawned he ho.certificate a ha
      · exact ht a (List.mem_cons_of_mem c ha)
    · exact ⟨certified_of_background hb ho, ht⟩

/-! ### Monotonicity -/

/-- No checkpoint moved down. -/
structure Rises (s s' : Consensus) : Prop where
  certified : s.certifiedCheckpoint.low ≤ s'.certifiedCheckpoint.low
  received : ∀ r, (s.states r).checkpoint.low ≤ (s'.states r).checkpoint.low

namespace Rises

theorem refl (s : Consensus) : Rises s s := ⟨le_rfl, fun _ => le_rfl⟩

theorem trans {s'' : Consensus} (h : Rises s s') (h' : Rises s' s'') : Rises s s'' :=
  ⟨h.certified.trans h'.certified, fun r => (h.received r).trans (h'.received r)⟩

theorem of_received (hc : s.certifiedCheckpoint.low ≤ s'.certifiedCheckpoint.low)
    (hr : s'.checkpoints.received = s.checkpoints.received) : Rises s s' :=
  ⟨hc, fun r => (congrArg Checkpoint.low (congrFun hr r)).ge⟩

end Rises

/-- One replica's checkpoint changes. -/
theorem checkpoint_adoptCheckpoint (s : Consensus) (r : Nat) (c : Certificate Checkpoint)
    (r' : Nat) : ((adoptCheckpoint s r c).states r').checkpoint =
      if r' = r then c.message else (s.states r').checkpoint := by
  have hs : (adoptCheckpoint s r c).states = (s.modifyState r fun x => { x with
      checkpoint := c.message
      commits := x.commits.popWhile fun i => decide (i < c.message.low) }).states := by
    unfold adoptCheckpoint handleCheckpointCertificate
    split <;> rfl
  rw [hs]
  split
  · next hr => rw [hr, states_modifyState_self]
  · next hr => rw [states_modifyState_of_ne s hr]

/-- No checkpoint falls back. -/
theorem rises_exec {c : Cmd} {cs rest : List Cmd} (h : exec cfg s inp c = .ok (s', cs))
    (hn : Nested cfg (c :: rest)) (ha : Announces p c)
    (hg : Vouches p ⟨s, c :: rest⟩ (.exec inp)) (hs : Certified p s.checkpoints) : Rises s s' := by
  have hc := low_le_exec h
  cases exec_adopts h with
  | same above h =>
      refine .of_received hc ?_
      rw [h]
  | poll =>
      refine .of_received hc ?_
      rcases pollCheckpointCertificate_eq cfg s with he | ⟨c, -, he⟩
      · rw [he]
        rfl
      · rw [he]
        unfold handleCheckpointCertificate
        split <;> rfl
  | @receive _ r _ s₁ _ hr h =>
      obtain ⟨c', -, hf, rfl⟩ := hr.succeeds h hn ha hg hs
      refine ⟨hc, fun r' => ?_⟩
      have hr' : (s₁.states r').checkpoint = (s.states r').checkpoint :=
        congrFun (congrArg Checkpoints.received hr.checkpoints) r'
      rw [checkpoint_adoptCheckpoint]
      split
      · next he => exact he ▸ hf.low
      · exact Nat.le_of_eq (congrArg Checkpoint.low hr'.symm)

/-- From any reachable state. -/
theorem rises_of_step {m m' : Machine} {l : Label}
    (h : Reachable (Machine.Init cfg) (Machine.Step cfg) (Vouches p) m) (hg : Vouches p m l)
    (hs : Machine.Step cfg m l m') : Rises m.core m'.core := by
  rcases Machine.step_cases hs with ⟨c, s, cs, -, -, hc, rfl⟩ |
    ⟨inp, c, rest, s, cs, rfl, hm, he, rfl⟩ | ⟨s, hb, rfl⟩
  · refine .of_received (Nat.le_of_eq (congrArg Checkpoint.low (certified_call hc).symm)) ?_
    rcases checkpoints_call hc with he | ⟨i, d, ht⟩
    · rw [he]
    · obtain ⟨_, _, rfl⟩ := triggerCheckpoint_cases ht
      rfl
  · obtain ⟨hcert, ha⟩ := Machine.certified_of_reachable h
    have hn := Machine.nested_of_reachable h
    obtain ⟨core, todo⟩ := m
    subst hm
    exact rises_exec he hn (ha c List.mem_cons_self) hg hcert
  · refine .of_received (Nat.le_of_eq (congrArg Checkpoint.low (certified_background hb).symm)) ?_
    obtain ⟨_, _, _, _, _, _, _, _, rfl, -⟩ := background_cases hb
    rfl

/-- **Checkpoints.**  As long as a valid certificate is one of a checkpoint that begins at its
index, the checkpoint of a replica is not above the certified one, and neither moves down. -/
theorem checkpoints_monotone {m m' : Machine}
    (h : Reachable (Machine.Init cfg) (Machine.Step cfg) (Vouches (.begins cfg)) m)
    (h' : Reachable (fun m₀ => m₀ = m) (Machine.Step cfg) (Vouches (.begins cfg)) m') :
    (∀ r, (m'.core.states r).checkpoint.low ≤ m'.core.certifiedCheckpoint.low) ∧
      Rises m.core m'.core := by
  have hrun : Reachable (Machine.Init cfg) (Machine.Step cfg) (Vouches (.begins cfg)) m' ∧
      Rises m.core m'.core := by
    refine h'.induct (P := fun m' => Reachable (Machine.Init cfg) (Machine.Step cfg)
      (Vouches (.begins cfg)) m' ∧ Rises m.core m'.core) ?_ fun m₁ l m₂ _ hi hg hs => ?_
    · rintro m' rfl
      exact ⟨h, .refl _⟩
    · exact ⟨.step hi.1 hg hs, hi.2.trans (rises_of_step hi.1 hg hs)⟩
  exact ⟨(Machine.certified_of_reachable hrun.1).1.below, hrun.2⟩

namespace Example

open Deployment

/-- Replica 1 broadcasts a checkpoint that the replicas 1 and 2 signed. -/
def checkpointing : List Label :=
  tickCb 0 (.checkpoint (some (certificate encodeCheckpoint 1 2 (.of 2 4 []) [1, 2])))

end Example

/-- The checkpoint of replica 1 goes from 0 to 2. -/
theorem checkpoints_monotone_two : ∃ m m' : Machine, (m.core.states 0).checkpoint.low = 0 ∧
    (m'.core.states 0).checkpoint.low = 2 ∧
      (∀ r, (m'.core.states r).checkpoint.low ≤ m'.core.certifiedCheckpoint.low) ∧
        Rises m.core m'.core := by
  have hm : Reachable (Machine.Init Example.three) (Machine.Step Example.three)
      (Vouches (.begins Example.three)) ⟨.start Example.three Deployment.allKnown, []⟩ :=
    .init ⟨_, rfl⟩
  have hrun : (runs (Machine.goodNext Example.three (Vouches (.begins Example.three)))
      ⟨.start Example.three Deployment.allKnown, []⟩ Example.checkpointing).any
        (fun m => (m.core.states 0).checkpoint.low = 2) = true := by decide +kernel
  obtain ⟨m', hm', hs⟩ := (Option.any_eq_true ..).mp hrun
  have hreach : Reachable (fun m₀ => m₀ = ⟨.start Example.three Deployment.allKnown, []⟩)
      (Machine.Step Example.three) (Vouches (.begins Example.three)) m' :=
    reachable_of_runs (fun m l m' hn => Machine.goodNext_cases hn) (.init rfl) hm'
  exact ⟨_, m', rfl, of_decide_eq_true hs, checkpoints_monotone hm hreach⟩

end Ubft.Consensus
