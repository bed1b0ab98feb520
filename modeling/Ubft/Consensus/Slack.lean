import Ubft.Consensus.Checkpoints
import Ubft.Consensus.Deployment

/-!
# Consensus — the slack of the CB tail

What a command does to the progress of the replica is one of four things (`Advances`).  Every CB
broadcast comes right after `waitForCbSlack`, whatever was handled while it waited (`Waiting`),
so that it never outruns the certified CB checkpoint (`broadcast_within_slack`).
-/

namespace Ubft.Consensus

open Certifier (Certificate)

variable {cfg : Config} {s s' : Consensus} {inp : Input}

/-! ### The progress of a replica -/

/-- What a command does to the progress. -/
inductive Advances (cfg : Config) (s : Consensus) : Cmd → Progress → Prop where
  | stays (c : Cmd) : Advances cfg s c s.progress
  | broadcast {c : Cmd} (m : Message) (hc : c = .broadcast m ∨ c = .proposeNext) :
      Advances cfg s c { s.progress with
        nextIndex := s.nextIndex + 1
        marks := .broadcast (s.own cfg).atView s.nextIndex m :: s.progress.marks }
  | certify {r : Nat} {c : Certifier CbCheckpoint}
      (h : ((s.cbCheckpointCertifiers r).forgetMessages none).acknowledge cfg.cbCheckpointCrypto
        (s.states r).nextCb (s.states r).checkpointCb = .ok c) :
      Advances cfg s (.certifyCbCheckpoint r) { s.progress with
        certifiers := Function.update s.cbCheckpointCertifiers r c }
  | poll : Advances cfg s .pollCbCheckpointCertificate (pollCbCheckpointCertificate cfg s).progress

theorem progress_handleCheckpointCertificate (s : Consensus) (c : Certificate Checkpoint) :
    (s.handleCheckpointCertificate c).progress = s.progress := by
  unfold handleCheckpointCertificate
  split <;> rfl

theorem progress_adoptCheckpoint (s : Consensus) (r : Nat) (c : Certificate Checkpoint) :
    (s.adoptCheckpoint r c).progress = s.progress :=
  progress_handleCheckpointCertificate _ c

theorem progress_handleMessage {r : Nat} {m : Message} {cs : List Cmd}
    (h : handleMessage cfg s r m = .ok (s', cs)) : s'.progress = s.progress := by
  cases m with
  | checkpoint o =>
      obtain ⟨c, -, -, -, rfl⟩ := handleCheckpoint_cases (pure_eq_ok h).1
      exact progress_adoptCheckpoint s r c
  | _ => exact (frame_handleMessage h fun _ => nofun).progress

theorem progress_handleCbMessage {r i : Nat} {m : Message} {cs : List Cmd}
    (h : handleCbMessage cfg s r i m = .ok (s', cs)) : s'.progress = s.progress := by
  rcases handleCbMessage_cases h with ⟨rfl, -⟩ | ⟨-, cs₀, hm, -⟩
  · rfl
  · rw [progress_handleMessage hm]
    rfl

/-- A broadcast advances by one, as the window allows. -/
theorem advances_of_receives {c : Cmd} {cs : List Cmd} (h : exec cfg s inp c = .ok (s', cs))
    (hc : (∃ r, c = .pollCb r) ∨ c = .proposeNext ∨ ∃ m, c = .broadcast m) :
    Advances cfg s c s'.progress := by
  rcases exec_receives h hc with ⟨hd, -⟩ | ⟨r, m, s₁, cs₀, hr, hm, -⟩
  · cases hd with
    | nothing => exact .stays c
    | poll r => exact .stays _
    | broadcast m => exact .broadcast m (.inl rfl)
    | @propose p rest hp => exact .broadcast (.prepare p) (.inr rfl)
  · rw [progress_handleMessage hm]
    cases hr with
    | poll hi => exact .stays _
    | broadcast m => exact .broadcast m (.inl rfl)
    | @propose p rest hp => exact .broadcast (.prepare p) (.inr rfl)

/-- **What a command does to the progress.** -/
theorem exec_advances {c : Cmd} {cs : List Cmd} (h : exec cfg s inp c = .ok (s', cs)) :
    Advances cfg s c s'.progress := by
  have heq : s'.progress = s.progress → Advances cfg s c s'.progress :=
    fun hp => by rw [hp]; exact .stays c
  cases c with
  | pollCheckpointCertificate =>
      cases h
      refine heq ?_
      unfold pollCheckpointCertificate
      simp only
      split
      · rfl
      · exact progress_handleCheckpointCertificate { s with checkpointCertifier := _ } _
  | broadcastCheckpointCertificate force =>
      simp only [exec, broadcastCheckpointCertificate] at h
      split at h
      · cases h; exact .stays _
      · split at h
        · cases h; exact .stays _
        · cases h; exact .stays _
  | pollCb r => exact advances_of_receives h (.inl ⟨r, rfl⟩)
  | proposeNext => exact advances_of_receives h (.inr (.inl rfl))
  | broadcast m => exact advances_of_receives h (.inr (.inr ⟨m, rfl⟩))
  | certifyCbCheckpoint r =>
      obtain ⟨c, hc, h⟩ := bind_eq_ok.mp (pure_eq_ok h).1
      cases h
      exact .certify (lift_cases hc)
  | pollCbCheckpointCertificate => cases h; exact .poll
  | sealView r => exact heq (congrArg Prod.snd (settled_sealView (pure_eq_ok h).1))
  | pollVcStateCertificates =>
      obtain ⟨vcs, o, he⟩ := pollVcStateCertificates_cases cfg s
      rw [Except.ok.inj h] at he
      obtain rfl : s' = _ := he
      exact heq rfl
  | repropose => obtain ⟨ps, n, k, rfl⟩ := repropose_cases h; exact heq rfl
  | proposeLoop =>
      simp only [exec, proposeLoop] at h
      split at h
      · cases h; exact .stays _
      · cases h; exact .stays _
  | _ => exact heq (exec_frame h rfl).progress

/-- A command that does not CB-broadcast makes no mark. -/
theorem Advances.marks {c : Cmd} {p : Progress} (h : Advances cfg s c p)
    (hb : ∀ m, c ≠ .broadcast m) (hn : c ≠ .proposeNext) : p.marks = s.progress.marks := by
  cases h with
  | stays => rfl
  | broadcast m hc => exact hc.elim (fun hc => absurd hc (hb m)) fun hc => absurd hc hn
  | certify _ => rfl
  | poll =>
      obtain ⟨cs, n, he⟩ := pollCbCheckpointCertificate_cases cfg s
      rw [he]
      rfl

/-- The application only makes progress by polling a decision. -/
theorem progress_call {c : Call} {cs : List Cmd} (h : call cfg s c = .ok (s', cs)) :
    s'.progress = s.progress ∨ ∃ d, c = .pollDecision ∧
      s.instanceStates.find? s.nextToDecide = some d ∧ d.decidable = true ∧
      s'.progress = { s.progress with
        nextToDecide := s.nextToDecide + 1
        marks := .decided s.nextToDecide d.prepareMessage.data :: s.progress.marks } := by
  cases c with
  | tick => cases h; exact .inl rfl
  | propose => cases h; exact .inl rfl
  | changeView => cases h; exact .inl rfl
  | toggleSlowPath b => cases h; exact .inl rfl
  | getSlot b => obtain ⟨ps, n, rfl⟩ := getSlot_cases (pure_eq_ok h).1; exact .inl rfl
  | pollDecision =>
      have h := (pure_eq_ok h).1
      unfold pollDecision at h
      split at h
      · cases h; exact .inl rfl
      · next d hd =>
          split at h
          · next hdec =>
              split at h
              · cases h; exact .inr ⟨d, rfl, hd, hdec, rfl⟩
              · cases h
          · cases h; exact .inl rfl
  | triggerCheckpoint i d =>
      obtain ⟨c, cc, rfl⟩ := triggerCheckpoint_cases (pure_eq_ok h).1
      exact .inl rfl

/-- In the background a certifier may make progress, but no certificate is polled. -/
theorem progress_background {l : Label} (h : Machine.background cfg s l = .ok s') :
    s'.progress = { s.progress with certifiers := s'.cbCheckpointCertifiers } ∧
      ∀ r, Certifier.Within (s.cbCheckpointCertifiers r) (s'.cbCheckpointCertifiers r) := by
  obtain ⟨_, _, _, _, _, _, _, _, rfl, -, hw, -⟩ := background_cases h
  exact ⟨rfl, hw⟩

/-! ### Waiting for the slack -/

/-- The commands that CB-broadcast. -/
def Cmd.sends : Cmd → Bool
  | .broadcast _ | .proposeNext => true
  | _ => false

/-- A broadcast comes after `waitForCbSlack`. -/
def Precedes (c c' : Cmd) : Prop := c'.sends = true → c = .waitForCbSlack

/-- Every broadcast that is to be executed comes right after `waitForCbSlack`, but the next one,
for which there is slack. -/
structure Waiting (s : Consensus) (todo : List Cmd) : Prop where
  chain : todo.IsChain Precedes
  next : ∀ c ∈ todo.head?, c.sends = true → s.nextIndex ≤ s.canCbUntil

/-- Commands that send nothing are in any order. -/
theorem chain_of_silent {cs : List Cmd} (h : ∀ c ∈ cs, c.sends = false) :
    cs.IsChain Precedes := by
  induction cs with
  | nil => exact .nil
  | cons c cs ih =>
      have ht := ih fun c' hc => h c' (List.mem_cons_of_mem c hc)
      refine List.isChain_cons.mpr ⟨fun c' hc' hs => ?_, ht⟩
      rw [h c' (List.mem_cons_of_mem c (List.mem_of_mem_head? hc'))] at hs
      cases hs

theorem silent_delivers {r : Nat} {m : Message} {cs : List Cmd} (h : Delivers r m cs) :
    ∀ c ∈ cs, c.sends = false := by
  intro c hc
  cases h.delivered hc <;> rfl

/-- What a command leads to does not start with a broadcast, and each comes after a wait. -/
theorem chain_spawned {c : Cmd} {cs : List Cmd} (h : Spawns cfg c cs) :
    cs.IsChain Precedes ∧ ∀ c' ∈ cs.head?, c'.sends = false := by
  have silent : ∀ {l : List Cmd}, (∀ c ∈ l, c.sends = false) →
      l.IsChain Precedes ∧ ∀ c' ∈ l.head?, c'.sends = false :=
    fun hl => ⟨chain_of_silent hl, fun c' hc => hl c' (List.mem_of_mem_head? hc)⟩
  have waits : ∀ {c c' : Cmd}, c'.sends = false →
      [.waitForCbSlack, c, c'].IsChain Precedes ∧
        ∀ d ∈ [Cmd.waitForCbSlack, c, c'].head?, d.sends = false := by
    intro c c' hc'
    refine ⟨List.isChain_cons.mpr ⟨fun _ _ _ => rfl, List.isChain_cons.mpr ⟨fun d hd hs => ?_,
      .singleton c'⟩⟩, fun d hd => ?_⟩
    · cases hd; rw [hc'] at hs; cases hs
    · cases hd; rfl
  cases c with
  | broadcastCheckpointCertificate b =>
      rcases h with rfl | ⟨c, low, n, rfl⟩
      · exact silent nofun
      · exact waits rfl
  | pollCb r =>
      rcases h with rfl | ⟨m, hd⟩
      · exact silent nofun
      · exact silent (silent_delivers hd)
  | proposeNext =>
      rcases h with rfl | ⟨p, hd⟩
      · exact silent nofun
      · exact silent (silent_delivers hd)
  | broadcast m => exact silent (silent_delivers h)
  | checkCommitted =>
      rcases h with rfl | rfl
      · exact waits rfl
      · exact silent fun c hc => by rw [List.mem_singleton.mp hc]; rfl
  | commitCertificate c =>
      rcases h with rfl | rfl
      · exact silent nofun
      · refine ⟨List.isChain_cons.mpr ⟨fun _ _ _ => rfl, .singleton _⟩, fun d hd => ?_⟩
        cases hd; rfl
  | pollVcStateCertificates =>
      rcases h with rfl | ⟨m, rfl⟩
      · exact silent nofun
      · exact waits rfl
  | proposeLoop =>
      rcases h with rfl | rfl
      · exact silent nofun
      · exact waits rfl
  | waitForCbSlack =>
      refine silent fun c hc => ?_
      rcases h with rfl | rfl
      · cases hc
      · simp only [pollCbs, List.mem_cons, List.mem_append, List.mem_map, List.not_mem_nil,
          or_false] at hc
        rcases hc with rfl | ⟨r, -, rfl⟩ | rfl <;> rfl
  | _ =>
      -- The other commands lead to none that broadcasts.
      refine silent fun c' hc' => ?_
      cases leads_of_spawns h hc' with
      | delivers _ hd hm => exact silent_delivers hd c' hm
      | _ => rfl

/-- The wait comes again after what was polled while it waited. -/
theorem getLast_slack {cs : List Cmd} (h : Spawns cfg .waitForCbSlack cs) :
    ∀ c ∈ cs.getLast?, c = .waitForCbSlack := by
  rcases h with rfl | rfl
  · nofun
  · intro c hc
    rw [← List.cons_append, List.getLast?_append] at hc
    exact (Option.some.inj hc).symm

/-- What is still to be sent was counted. -/
theorem Waiting.exec {c : Cmd} {cs rest : List Cmd} (hw : Waiting s (c :: rest))
    (h : exec cfg s inp c = .ok (s', cs)) : Waiting s' (cs ++ rest) := by
  have hsp := exec_spawns h
  obtain ⟨hc, hh⟩ := chain_spawned hsp
  obtain ⟨hn, hr⟩ := List.isChain_cons.mp hw.chain
  refine ⟨List.isChain_append.mpr ⟨hc, hr, fun x hx y hy hs => ?_⟩, fun c' hc' hs => ?_⟩
  · obtain rfl := hn y hy hs
    exact getLast_slack hsp x hx
  · cases cs with
    | cons d cs =>
        cases hc'
        rw [hh _ rfl] at hs
        cases hs
    | nil =>
        -- The wait is over: there is slack.
        obtain rfl := hn c' hc' hs
        simp only [Consensus.exec, Except.ok.injEq, Prod.mk.injEq] at h
        obtain ⟨rfl, h⟩ := h
        split at h
        · cases h
        · next hlt => exact Nat.not_lt.mp hlt

/-! ### What was obtained -/

/-- The certifier has one message at most, the newest, and its index is at least `k`. -/
structure Newest (c : Certifier CbCheckpoint) (k : Nat) : Prop where
  le : k ≤ c.msgTail.min
  only : ∀ i d, c.msgTail.find? i = some d → i = c.msgTail.min

section Newest

variable {c c' : Certifier CbCheckpoint} {k : Nat}

theorem Newest.within (h : Newest c k) (hw : Certifier.Within c c') : Newest c' k := by
  refine ⟨hw.min ▸ h.le, fun i d' hd => ?_⟩
  obtain ⟨d, hd, -⟩ := hw.messages i d' hd
  exact (h.only i d hd).trans hw.min.symm

/-- The message acknowledged replaces the one before. -/
theorem Newest.acknowledge {cr : Certifier.Crypto CbCheckpoint} {i : Nat} {m : CbCheckpoint}
    (h : Newest c k) (ha : (c.forgetMessages none).acknowledge cr i m = .ok c') :
    Newest c' k := by
  obtain ⟨t, ht, hw⟩ := Certifier.acknowledge_cases ha
  have hnew : Newest { c.forgetMessages none with msgTail := t } k := by
    obtain ⟨hb, -⟩ | ⟨-, hle, hmin, -⟩ := TailMap.tryEmplaceWord_cases ht
    · cases hb
    refine ⟨?_, fun j d hd => ?_⟩
    · change k ≤ t.min
      rw [hmin]
      exact h.le.trans hle
    · rcases TailMap.find?_tryEmplaceWord_cases ht hd with ⟨hj, -⟩ | hno
      · exact hj.trans hmin.symm
      · cases hno
  exact hnew.within hw

/-- A certificate polled is for the newest message. -/
theorem Newest.poll (h : Newest c k) (cr : Certifier.Crypto CbCheckpoint) :
    Newest (c.pollCertificate cr).1 k ∧ ∀ certificate,
      (c.pollCertificate cr).2 = some certificate →
        k ≤ certificate.index ∧ Newest (c.pollCertificate cr).1 certificate.index := by
  obtain ⟨ht, hpoll⟩ := Certifier.pollCertificate_cases cr c
  have hsame : ∀ {j}, Newest c j → Newest (c.pollCertificate cr).1 j := by
    intro j hj
    refine ⟨?_, fun i d hd => ?_⟩
    · rw [ht]
      exact hj.le
    · rw [ht] at hd ⊢
      exact hj.only i d hd
  refine ⟨hsame h, fun certificate hc => ?_⟩
  obtain ⟨-, d, hd, -⟩ := hpoll certificate hc
  have hmin := h.only certificate.index d hd
  exact ⟨hmin ▸ h.le, hsame ⟨hmin.le, h.only⟩⟩

end Newest

/-- A replica, with the index of the latest certificate it obtained for its own CB checkpoint. -/
structure Observed where
  machine : Machine
  certified : Nat := 0

namespace Observed

/-- The index of the certificate that a step obtains. -/
def obtained (cfg : Config) (m : Machine) : Label → Option Nat
  | .exec _ =>
    match m.todo with
    | .pollCbCheckpointCertificate :: _ =>
      ((m.core.cbCheckpointCertifiers cfg.localIndex).pollCertificate
        cfg.cbCheckpointCrypto).2.map (·.index)
    | _ => none
  | _ => none

/-- A replica that did nothing. -/
def Init (cfg : Config) (o : Observed) : Prop := o.machine.Init cfg ∧ o.certified = 0

/-- The step relation, with the certificate obtained last. -/
def Step (cfg : Config) (o : Observed) (l : Label) (o' : Observed) : Prop :=
  o.machine.Step cfg l o'.machine ∧ o'.certified = (obtained cfg o.machine l).getD o.certified

/-- Every run of a replica is observed. -/
theorem exists_certified {m : Machine} (h : Reachable (Machine.Init cfg) (Machine.Step cfg)
    Always m) : ∃ k, Reachable (Init cfg) (Step cfg) Always ⟨m, k⟩ := by
  refine h.induct (P := fun m => ∃ k, Reachable (Init cfg) (Step cfg) Always ⟨m, k⟩)
    (fun m hm => ⟨0, .init ⟨hm, rfl⟩⟩) fun m l m' _ hk _ hs => ?_
  obtain ⟨k, hk⟩ := hk
  exact ⟨_, .step hk trivial ⟨hs, rfl⟩⟩

/-- The slack comes from the latest certificate, and the next one is not below it. -/
structure Slack (cfg : Config) (o : Observed) : Prop where
  canCbUntil : o.machine.core.canCbUntil = o.certified + cfg.tail - 1
  certified : Newest (o.machine.core.cbCheckpointCertifiers cfg.localIndex) o.certified
  waiting : Waiting o.machine.core o.machine.todo

theorem obtained_of_ne {m : Machine} {c : Cmd} {rest : List Cmd} (ht : m.todo = c :: rest)
    (hc : c ≠ .pollCbCheckpointCertificate) (l : Label) : obtained cfg m l = none := by
  unfold obtained
  split
  · split
    · next heq => rw [ht] at heq; exact absurd (List.cons.inj heq).1 hc
    · rfl
  · rfl

/-- **A certificate for the broadcaster's checkpoint opens the next window.** -/
theorem slack_poll {rest : List Cmd} {k k' : Nat}
    (h : Slack cfg ⟨⟨s, .pollCbCheckpointCertificate :: rest⟩, k⟩)
    (hk : k' = (obtained cfg ⟨s, .pollCbCheckpointCertificate :: rest⟩ (.exec inp)).getD k)
    (hw : Waiting (pollCbCheckpointCertificate cfg s) rest) :
    Slack cfg ⟨⟨pollCbCheckpointCertificate cfg s, rest⟩, k'⟩ ∧
      s.canCbUntil ≤ (pollCbCheckpointCertificate cfg s).canCbUntil := by
  obtain ⟨hcan, hcert, -⟩ := h
  change s.canCbUntil = k + cfg.tail - 1 at hcan
  obtain ⟨hsame, hobt⟩ := Newest.poll hcert cfg.cbCheckpointCrypto
  change k' = (((s.cbCheckpointCertifiers cfg.localIndex).pollCertificate
    cfg.cbCheckpointCrypto).2.map (·.index)).getD k at hk
  change Newest ((s.cbCheckpointCertifiers cfg.localIndex).pollCertificate
    cfg.cbCheckpointCrypto).1 k at hsame
  change ∀ certificate, ((s.cbCheckpointCertifiers cfg.localIndex).pollCertificate
    cfg.cbCheckpointCrypto).2 = some certificate → _ at hobt
  unfold pollCbCheckpointCertificate at hw ⊢
  cases hp : (s.cbCheckpointCertifiers cfg.localIndex).pollCertificate cfg.cbCheckpointCrypto with
  | mk c certificate =>
      rw [hp] at hw hk hobt hsame
      cases certificate with
      | none =>
          obtain rfl : k' = k := hk
          refine ⟨⟨hcan, ?_, hw⟩, Nat.le_refl _⟩
          change Newest (Function.update s.cbCheckpointCertifiers cfg.localIndex c
            cfg.localIndex) k'
          rw [Function.update_self]
          exact hsame
      | some certificate =>
          obtain rfl : k' = certificate.index := hk
          -- the certificates come in order, so that the slack only grows
          obtain ⟨hki, hnew⟩ := hobt certificate rfl
          refine ⟨⟨rfl, ?_, hw⟩, ?_⟩
          · change Newest (Function.update s.cbCheckpointCertifiers cfg.localIndex c
              cfg.localIndex) certificate.index
            rw [Function.update_self]
            exact hnew
          · change s.canCbUntil ≤ certificate.index + cfg.tail - 1
            rw [hcan]
            exact Nat.sub_le_sub_right (Nat.add_le_add_right hki _) 1

/-- Whatever is not the poll leaves the slack as it is. -/
theorem slack_advances {c : Cmd} {cs rest : List Cmd} {k : Nat}
    (h : Slack cfg ⟨⟨s, c :: rest⟩, k⟩) (he : exec cfg s inp c = .ok (s', cs))
    (hc : c ≠ .pollCbCheckpointCertificate) :
    Slack cfg ⟨⟨s', cs ++ rest⟩, k⟩ ∧ s.canCbUntil ≤ s'.canCbUntil := by
  obtain ⟨hcan, hcert, hw⟩ := h
  have key : s'.progress.canCbUntil = s.canCbUntil ∧
      Newest (s'.progress.certifiers cfg.localIndex) k := by
    have ha := exec_advances he
    generalize s'.progress = p at ha ⊢
    cases ha with
    | stays => exact ⟨rfl, hcert⟩
    | broadcast m hm => exact ⟨rfl, hcert⟩
    | @certify r c hack =>
        refine ⟨rfl, ?_⟩
        change Newest (Function.update s.cbCheckpointCertifiers r c cfg.localIndex) k
        by_cases hr : cfg.localIndex = r
        · subst hr
          rw [Function.update_self]
          exact Newest.acknowledge hcert hack
        · rw [Function.update_of_ne hr]
          exact hcert
    | poll => exact absurd rfl hc
  obtain ⟨hcan', hcert'⟩ := key
  exact ⟨⟨hcan'.trans hcan, hcert', hw.exec he⟩, Nat.le_of_eq hcan'.symm⟩

end Observed

theorem silent_call {c : Call} {cs : List Cmd} (h : call cfg s c = .ok (s', cs)) :
    ∀ c' ∈ cs, c'.sends = false := by
  intro c' hc'
  cases called_of_call h hc' <;> rfl

namespace Observed

/-- Only the thread obtains certificates. -/
theorem obtained_eq_none {m : Machine} {l : Label}
    (h : ¬∃ inp c rest, l = .exec inp ∧ m.todo = c :: rest) : obtained cfg m l = none := by
  unfold obtained
  split
  · next inp =>
      split
      · next rest ht => exact absurd ⟨inp, _, rest, rfl, ht⟩ h
      · rfl
  · rfl

/-- **One step.** -/
theorem slack_step {o o' : Observed} {l : Label} (h : Slack cfg o) (hs : Step cfg o l o') :
    Slack cfg o' ∧ o.machine.core.canCbUntil ≤ o'.machine.core.canCbUntil := by
  obtain ⟨⟨s, todo⟩, k⟩ := o
  obtain ⟨m', k'⟩ := o'
  obtain ⟨hm, hk⟩ := hs
  -- a certificate is only obtained where a command is executed
  by_cases hl : ∃ inp c rest, l = .exec inp ∧ todo = c :: rest
  · obtain ⟨inp, c, rest, rfl, rfl⟩ := hl
    obtain ⟨s', cs, he, rfl⟩ := Machine.step_exec hm rfl
    by_cases hc : c = .pollCbCheckpointCertificate
    · subst hc
      have hw := h.waiting.exec he
      cases he
      exact slack_poll h hk hw
    · have hk : k' = (obtained cfg ⟨s, c :: rest⟩ (.exec inp)).getD k := hk
      rw [obtained_of_ne rfl hc] at hk
      obtain rfl : k' = k := hk
      exact slack_advances h he hc
  · have hk : k' = (obtained cfg ⟨s, todo⟩ l).getD k := hk
    rw [obtained_eq_none hl] at hk
    obtain rfl : k' = k := hk
    rcases Machine.step_cases hm with ⟨c, s', cs, rfl, -, hc, rfl⟩ |
      ⟨inp, c, rest, s', cs, rfl, ht, -, -⟩ | ⟨s', hb, rfl⟩
    · have hp : s'.progress.canCbUntil = s.canCbUntil ∧
          s'.progress.certifiers = s.cbCheckpointCertifiers := by
        rcases progress_call hc with hp | ⟨d, -, -, -, hp⟩
        · rw [hp]; exact ⟨rfl, rfl⟩
        · rw [hp]; exact ⟨rfl, rfl⟩
      have hn : Newest (s'.progress.certifiers cfg.localIndex) k' := by
        rw [hp.2]; exact h.certified
      refine ⟨⟨hp.1.trans h.canCbUntil, hn, chain_of_silent (silent_call hc), fun c' hc' hs => ?_⟩,
        Nat.le_of_eq hp.1.symm⟩
      rw [silent_call hc c' (List.mem_of_mem_head? hc')] at hs
      cases hs
    · exact absurd ⟨inp, c, rest, rfl, ht⟩ hl
    · -- in the background the certifiers make progress and hand out nothing
      obtain ⟨hp, hn⟩ := progress_background hb
      have hcan : s'.canCbUntil = s.canCbUntil := congrArg Progress.canCbUntil hp
      have hnext : s'.nextIndex = s.nextIndex := congrArg Progress.nextIndex hp
      refine ⟨⟨hcan.trans h.canCbUntil, ?_, h.waiting.chain, fun c' hc' hs => ?_⟩,
        Nat.le_of_eq hcan.symm⟩
      · exact Newest.within h.certified (hn cfg.localIndex)
      · change s'.nextIndex ≤ s'.canCbUntil
        rw [hcan, hnext]
        exact h.waiting.next c' hc' hs

theorem slack_of_reachable {good : Observed → Label → Prop} {o : Observed}
    (h : Reachable (Init cfg) (Step cfg) good o) : Slack cfg o := by
  refine h.induct (P := Slack cfg) (fun o ho => ?_) fun o l o' _ hi _ hs => (slack_step hi hs).1
  obtain ⟨⟨m, k⟩, rfl⟩ : ∃ p : Machine × Nat, o = ⟨p.1, p.2⟩ := ⟨(o.machine, o.certified), rfl⟩
  obtain ⟨⟨requestLog, hm⟩, hk⟩ := ho
  obtain rfl : m = ⟨.start cfg requestLog, []⟩ := hm
  obtain rfl : k = 0 := hk
  refine ⟨?_, ⟨Nat.zero_le _, fun _ _ h => nomatch h⟩, .nil, nofun⟩
  change cfg.tail - 1 = 0 + cfg.tail - 1
  rw [Nat.zero_add]

end Observed

/-- The marks that a step adds to the log are those it adds to the progress. -/
theorem marks_of_append {l es log : List Event} (es' : List Event) (hl : l = es ++ log)
    (hf : l.filter Event.marks = es' ++ log.filter Event.marks) : es.filter Event.marks = es' := by
  rw [hl, List.filter_append] at hf
  exact List.append_cancel_right hf

/-- **A broadcast stays below the slack that there was.** -/
theorem Waiting.broadcast_le {m m' : Machine} {l : Label} (hw : Waiting m.core m.todo)
    (h : m.Step cfg l m') :
    ∃ es, m'.core.log = es ++ m.core.log ∧
      ∀ view k msg, .broadcast view k msg ∈ es → k ≤ m.core.canCbUntil := by
  have none : ∀ {s' : Consensus} {es : List Event}, s'.log = es ++ m.core.log →
      s'.progress.marks = m.core.progress.marks → ∀ view k msg, .broadcast view k msg ∈ es →
        k ≤ m.core.canCbUntil := by
    intro s' es hl hp view k msg hb
    have he := marks_of_append [] hl hp
    exact absurd (List.filter_eq_nil_iff.mp he _ hb) (by simp [Event.marks])
  rcases Machine.step_cases h with ⟨c, s', cs, -, -, hc, rfl⟩ |
    ⟨inp, c, rest, s', cs, -, ht, he, rfl⟩ | ⟨s', hb, rfl⟩
  · obtain ⟨es, hl⟩ := (keeps_call hc).log.suffix
    refine ⟨es, hl.symm, ?_⟩
    rcases progress_call hc with hp | ⟨d, -, -, -, hp⟩
    · exact none hl.symm (congrArg Progress.marks hp)
    · intro view k msg hb
      have he := marks_of_append [_] hl.symm (congrArg Progress.marks hp)
      have hmem := List.mem_filter.mpr ⟨hb, (rfl : Event.marks (.broadcast view k msg) = true)⟩
      rw [he] at hmem
      cases List.mem_singleton.mp hmem
  · obtain ⟨es, hl⟩ := suffix_exec he
    refine ⟨es, hl.symm, ?_⟩
    have ha := exec_advances he
    have hm : s'.progress.marks = s'.log.filter Event.marks := rfl
    generalize s'.progress = p at ha hm
    cases ha with
    | stays => exact none hl.symm hm.symm
    | certify hack => exact none hl.symm hm.symm
    | poll =>
        refine none hl.symm (hm.symm.trans ?_)
        unfold pollCbCheckpointCertificate
        simp only
        split <;> rfl
    | broadcast msg' hc =>
        intro view k msg hb
        have he' := marks_of_append [_] hl.symm hm.symm
        have hmem := List.mem_filter.mpr ⟨hb, (rfl : Event.marks (.broadcast view k msg) = true)⟩
        rw [he'] at hmem
        obtain ⟨-, rfl, -⟩ := Event.broadcast.inj (List.mem_singleton.mp hmem)
        -- what broadcasts stands behind `waitForCbSlack`, which let it pass
        refine hw.next c (by rw [ht]; rfl) ?_
        rcases hc with rfl | rfl <;> rfl
  · obtain ⟨es, hl⟩ := (keeps_background hb).log.suffix
    have hp : s'.progress.marks = m.core.progress.marks :=
      (congrArg Progress.marks (progress_background hb).1).trans rfl
    exact ⟨es, hl.symm, none hl.symm hp⟩

/-- **The broadcaster never outruns its certified CB checkpoint.** -/
theorem broadcast_within_slack {o o' : Observed} {l : Label}
    (h : Reachable (Observed.Init cfg) (Observed.Step cfg) Always o) (hs : o.Step cfg l o') :
    (∃ es, o'.machine.core.log = es ++ o.machine.core.log ∧
      ∀ view k m, .broadcast view k m ∈ es → k ≤ o.certified + cfg.tail - 1) ∧
    o.machine.core.canCbUntil ≤ o'.machine.core.canCbUntil := by
  have hi := Observed.slack_of_reachable h
  refine ⟨?_, (Observed.slack_step hi hs).2⟩
  obtain ⟨es, hl, hk⟩ := hi.waiting.broadcast_le hs.1
  exact ⟨es, hl, fun view k m hb => Nat.le_trans (hk view k m hb) (Nat.le_of_eq hi.canCbUntil)⟩

namespace Example

/-- The leader broadcasts its first proposal. -/
def proposing (cfg : Config) (m : Machine) : Bool :=
  (m.nextOption cfg (.exec {})).any fun m' => m.core.log.length < m'.core.log.length

end Example

/-- The leader of view 0 broadcasts its first proposal, before any certificate. -/
theorem proposal_within_slack : ∃ o o' : Observed,
    o.machine.core.log.length < o'.machine.core.log.length ∧
    (∃ es, o'.machine.core.log = es ++ o.machine.core.log ∧
      ∀ view k m, .broadcast view k m ∈ es → k ≤ o.certified + 2 - 1) ∧
    o.machine.core.canCbUntil ≤ o'.machine.core.canCbUntil := by
  let cfg := Deployment.replica 3 0 4 2 (by decide)
  obtain ⟨m, hm, hs⟩ : ∃ m, Reachable (Machine.Init cfg) (Machine.Step cfg) (fun _ _ => True) m ∧
      Example.proposing cfg m = true :=
    Machine.exists_reachable Deployment.allKnown
      (.call (.getSlot [7]) :: .call .propose :: Deployment.drain 3) (by decide +kernel)
  obtain ⟨k, ho⟩ := Observed.exists_certified hm.always
  obtain ⟨m', hm', hlt⟩ := (Option.any_eq_true ..).mp hs
  have hstep : Observed.Step cfg ⟨m, k⟩ (.exec {})
      ⟨m', (Observed.obtained cfg m (.exec {})).getD k⟩ :=
    ⟨Machine.step_of_nextOption hm', rfl⟩
  exact ⟨_, _, of_decide_eq_true hlt, broadcast_within_slack ho hstep⟩

end Ubft.Consensus
