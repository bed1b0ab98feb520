import Ubft.Consensus.Acknowledgments
import Ubft.Consensus.Reordering

/-!
# Consensus — the votes of the slow path

`handleVerifiedCommit` counts a commit for the instance it names, whatever the view of the Prepare
stored there; `handlePrepare`, which replays the commits that came first, compares the packed
indices.  As long as no commit meets an instance prepared in another view (`Unmistaken`), a vote
counted for an instance is a commit of its sender, verified, for that very Prepare.

The messages are followed first (`Titled`): a Prepare stored, what is under certification and what
the replica commits carry the message of their index.  Then the commits, from the delivery through
the verification and the buffers to the votes (`Votes`).
-/

namespace Ubft.Consensus

open Certifier (Certificate)

variable {cfg : Config} {s s' : Consensus} {inp : Input} {message : Nat → Bytes}

/-! ### Messages and their indices -/

/-- The Prepares stored and the messages under certification are those of their indices. -/
structure Titled (message : Nat → Bytes) (s : Consensus) : Prop where
  held : ∀ i p f, s.held i = some (p, f) → p.data = message (pack p.view p.inst)
  keys : ∀ k d, s.prepareCertifier.msgTail.find? k = some d → d.message = message k

namespace Titled

/-- A step that stores no Prepare, and certifies none. -/
theorem shrink (h : Titled message s)
    (hh : ∀ i p f, s'.held i = some (p, f) → ∃ f', s.held i = some (p, f'))
    (hk : ∀ k d', s'.prepareCertifier.msgTail.find? k = some d' →
      ∃ d, s.prepareCertifier.msgTail.find? k = some d ∧ d'.message = d.message) :
    Titled message s' := by
  refine ⟨fun i p f hi => ?_, fun k d' hd' => ?_⟩
  · obtain ⟨f', hi⟩ := hh i p f hi
    exact h.held i p f' hi
  · obtain ⟨d, hd, hm⟩ := hk k d' hd'
    exact hm.trans (h.keys k d hd)

theorem keeps (h : Titled message s) (hk : Keeps cfg s s') : Titled message s' :=
  h.shrink (fun i _ f hi => ⟨f, hk.held i ▸ hi⟩) hk.keys

/-- What comes under certification is a Prepare stored. -/
theorem certifies (h : Titled message s) (hk : Certifies cfg s s') : Titled message s' := by
  refine ⟨fun i p f hi => h.held i p f (hk.held i ▸ hi), fun k d' hd' => ?_⟩
  rcases hk.keys k d' hd' with ⟨d, hd, hm⟩ | ⟨i, p, f, hi, rfl, hm⟩
  · exact hm.trans (h.keys k d hd)
  · exact hm.trans (h.held i p f hi)

/-- A Prepare of the message that its index stands for. -/
theorem accepted {r : Nat} {p : PrepareMessage} (h : Titled message s)
    (hp : p.data = message (pack p.view p.inst)) (hx : acceptPrepare cfg s r p = .ok s') :
    Titled message s' := by
  obtain ⟨t, b, s₂, ht, hr, hc⟩ := acceptPrepare_cases hx
  have h₁ : Titled message (stored s r p t) := by
    refine ⟨fun i q f hi => ?_, h.keys⟩
    rcases held_stored (r := r) ht i with he | he | ⟨-, he⟩
    · exact h.held i q f (he ▸ hi)
    · rw [he] at hi
      cases hi
    · rw [he] at hi
      cases hi
      exact hp
  have hk : Keeps cfg (stored s r p t) s₂ := keeps_replayCommits hr
  have h₂ : Titled message (s₂.pruneValidValues r p.inst) :=
    (h₁.keeps hk).shrink (fun _ _ f hi => ⟨f, hi⟩) fun _ d hd => ⟨d, hd, rfl⟩
  exact h₂.certifies (certifies_tryCertifyPrepare hc)

/-- Votes of the fast path are counted. -/
theorem modifyFast {k : Nat} {g : DynamicBitset → DynamicBitset} (h : Titled message s)
    (hh : s'.held = (s.modifyInstance k fun d => { d with
      fastCommitted := g d.fastCommitted }).held)
    (hc : s'.prepareCertifier = s.prepareCertifier) : Titled message s' := by
  refine h.shrink (fun i p f hi => ?_) fun _ d hd => ⟨d, hc ▸ hd, rfl⟩
  rw [hh] at hi
  obtain ⟨f', hi, -⟩ := held_modifyFast hi
  exact ⟨f', hi⟩

end Titled

/-- A Prepare that is handed over is about the message of its index. -/
def PrepareTitled (cfg : Config) (message : Nat → Bytes) (m : Machine) (l : Label) : Prop :=
  ∀ rp ∈ preparing cfg m l, rp.2.data = message (pack rp.2.view rp.2.inst)

instance (m : Machine) (l : Label) : Decidable (PrepareTitled cfg message m l) :=
  inferInstanceAs (Decidable (∀ rp ∈ preparing cfg m l, _))

theorem titled_exec {c : Cmd} {cs rest : List Cmd} (h : exec cfg s inp c = .ok (s', cs))
    (hg : PrepareTitled cfg message ⟨s, c :: rest⟩ (.exec inp)) (ht : Titled message s) :
    Titled message s' := by
  cases exec_effect h with
  | keeps hk _ _ => exact ht.keeps hk
  | @prepare _ r p s₁ _ hr _ hx =>
      exact (ht.keeps hr.keeps).accepted (hg (r, p) (preparing_of_receives hr rest)) hx
  | certify hk => exact ht.certifies hk
  | prune low n =>
      generalize (if n = s.adopted then low else inp.freed) = low'
      refine ht.shrink (fun i p f hi => ?_) fun k d hd => ?_
      · rw [held_pruneInstances] at hi
        split at hi
        · cases hi
        · exact ⟨f, hi⟩
      · exact ⟨d, (Certifier.forgetMessages_messages hd).2, rfl⟩
  | forget =>
      exact ht.shrink (fun _ _ _ hi => nomatch hi)
        fun k d hd => ⟨d, (Certifier.forgetMessages_messages hd).2, rfl⟩
  | @promise pc k hp =>
      have hpc : Titled message { s with prepareCertifier := pc } := by
        have ht' := (Certifier.pollPromise_cases s.prepareCertifier).1
        rw [hp] at ht'
        exact ht.shrink (fun _ _ f hi => ⟨f, hi⟩) fun k d hd => ⟨d, ht' ▸ hd, rfl⟩
      rcases handlePromise_cases cfg { s with prepareCertifier := pc } k with he | he
      · rw [he]
        exact hpc
      · rw [he]
        exact hpc.modifyFast (g := fun b => b.set cfg.localIndex) rfl rfl
  | @fastCommit r m _ _ hx =>
      have hr : Titled message (s.record (.fastPolled r m)) := ⟨ht.held, ht.keys⟩
      rcases handleFastCommit_cases hx with ⟨rfl, -⟩ | rfl
      · exact hr
      · exact hr.modifyFast (g := fun b => b.set r) rfl rfl
  | «seal» hx =>
      have hs := seals_sealView hx
      refine ht.shrink (fun i p f hi => ⟨f, ?_⟩) fun k d hd => ⟨d, hs.certifier ▸ hd, rfl⟩
      rwa [held, hs.instances] at hi
  | accept _ hx =>
      obtain ⟨values, -, rfl⟩ := acceptNewView_cases hx
      exact ⟨ht.held, ht.keys⟩

/-! ### What the replica commits -/

/-- A certificate the replica is about to commit is about the message of its index, and only the
streams of the peers are polled. -/
def Cmd.titled (cfg : Config) (message : Nat → Bytes) : Cmd → Prop
  | .commitCertificate c | .broadcast (.commit (some c)) => c.message = message c.index
  | .pollCb r => r ≠ cfg.localIndex
  | _ => True

/-- What is certified is the message of its index. -/
theorem titled_polled {c : Certificate Bytes} (h : Titled message s)
    (hp : (s.prepareCertifier.pollCertificate cfg.prepareCrypto).2 = some c) :
    c.message = message c.index := by
  obtain ⟨-, d, hd, -, he⟩ :=
    (Certifier.pollCertificate_cases cfg.prepareCrypto s.prepareCertifier).2 c hp
  have hm : c.message = d.message := congrArg Certificate.message he
  exact hm.trans (h.keys _ d hd)

/-- What is still to be done is about the messages too. -/
theorem titled_spawned {c : Cmd} {cs : List Cmd} (h : exec cfg s inp c = .ok (s', cs))
    (ht : Titled message s) (hc : c.titled cfg message) :
    ∀ c' ∈ cs, c'.titled cfg message := by
  intro c' hc'
  cases leads_of_spawns (exec_spawns h) hc' with
  | delivers _ hd hm => cases hd.delivered hm <;> trivial
  | certificate c =>
      simp only [exec, pollPrepareCertificates] at h
      split at h
      · cases h
        cases hc'
      · next certificate hp =>
          have hm := titled_polled ht hp
          cases h
          unfold handlePrepareCertificate at hc'
          split at hc'
          · cases List.mem_singleton.mp hc'
          · split at hc'
            all_goals
              simp only [List.mem_cons, reduceCtorEq, Cmd.commitCertificate.injEq, List.not_mem_nil,
                or_false, false_or] at hc'
              exact hc' ▸ hm
  | commit c => exact hc
  | slackCb r hr => exact Nat.ne_of_lt hr
  | _ => trivial

/-- The application has the streams of the peers polled. -/
theorem pollCb_of_call {c : Call} {cs : List Cmd} (h : call cfg s c = .ok (s', cs)) {r : Nat}
    (hr : .pollCb r ∈ cs) : r < cfg.receivers.length := by
  cases c with
  | tick =>
      cases h
      unfold tick pollCbs at hr
      split at hr
      · simpa using hr
      · simpa using hr
  | propose => cases h; cases List.mem_singleton.mp hr
  | changeView => cases h; cases List.mem_singleton.mp hr
  | toggleSlowPath b => cases h; cases hr
  | getSlot b => obtain ⟨-, rfl⟩ := pure_eq_ok h; cases hr
  | pollDecision => obtain ⟨-, rfl⟩ := pure_eq_ok h; cases hr
  | triggerCheckpoint i d => obtain ⟨-, rfl⟩ := pure_eq_ok h; cases hr

theorem titled_call {c : Call} {cs : List Cmd} (h : call cfg s c = .ok (s', cs)) :
    ∀ c' ∈ cs, c'.titled cfg message := by
  intro c' hc'
  cases called_of_call h hc' with
  | pollCb r => exact Nat.ne_of_lt (pollCb_of_call h hc')
  | _ => trivial

theorem Machine.titled_of_reachable {good : Machine → Label → Prop} {m : Machine}
    (hg : ∀ m l, good m l → PrepareTitled cfg message m l)
    (h : Reachable (Init cfg) (Step cfg) good m) :
    Titled message m.core ∧ ∀ c ∈ m.todo, c.titled cfg message := by
  refine h.induct (P := fun m => Titled message m.core ∧ ∀ c ∈ m.todo, c.titled cfg message)
    (fun m hm => ?_) fun m l m' _ ht hl hs => ?_
  · obtain ⟨requestLog, rfl⟩ := hm
    exact ⟨⟨fun _ _ _ hi => (nomatch hi), fun _ _ hd => nomatch hd⟩, fun _ hc => nomatch hc⟩
  · obtain ⟨ht, htodo⟩ := ht
    rcases step_cases hs with ⟨c, s, cs, -, -, hc, rfl⟩ | ⟨inp, c, rest, s, cs, rfl, he, hx, rfl⟩ |
      ⟨s, hb, rfl⟩
    · exact ⟨ht.keeps (keeps_call hc), titled_call hc⟩
    · obtain ⟨core, todo⟩ := m
      subst he
      obtain ⟨hc, hrest⟩ := List.forall_mem_cons.mp htodo
      refine ⟨titled_exec hx (hg _ _ hl) ht, fun c' hc' => ?_⟩
      rcases List.mem_append.mp hc' with hc' | hc'
      · exact titled_spawned hx ht hc c' hc'
      · exact hrest c' hc'
    · exact ⟨ht.keeps (keeps_background hb), htodo⟩

/-! ### Commits on their way to the votes -/

/-- The commit of a peer that a worker finds valid, with its sender. -/
def vetting (cfg : Config) (m : Machine) : Label → Option (Nat × Certificate Bytes)
  | .finishVerification k =>
    match m.core.runningVerifications[k]? with
    | some (r, c) =>
      if m.core.prepareCertifier.check cfg.prepareCrypto c = .ok true then some (r, c) else none
    | none => none
  | _ => none

/-- A replica, and the commits found valid, each with its sender. -/
structure Vetted where
  machine : Machine
  vetted : List (Nat × Certificate Bytes)

namespace Vetted

/-- One step, with the certificate that is checked. -/
def next (cfg : Config) (o : Vetted) (l : Label) : Except Error Vetted := do
  return ⟨← o.machine.next cfg l, (vetting cfg o.machine l).toList ++ o.vetted⟩

/-- A replica that checked nothing. -/
def Init (cfg : Config) (o : Vetted) : Prop := o.machine.Init cfg ∧ o.vetted = []

/-- The step relation of a vetted replica. -/
def Step (cfg : Config) (o : Vetted) (l : Label) (o' : Vetted) : Prop :=
  o.next cfg l = .ok o'

/-- Vetting leaves the machine as it is. -/
theorem step_machine {o o' : Vetted} {l : Label} (h : o.Step cfg l o') :
    o.machine.Step cfg l o'.machine ∧ o'.vetted = (vetting cfg o.machine l).toList ++ o.vetted := by
  obtain ⟨m, hm, h⟩ := bind_eq_ok.mp h
  cases h
  exact ⟨hm, rfl⟩

theorem machine_reachable {good : Machine → Label → Prop} {o : Vetted}
    (h : Reachable (Init cfg) (Step cfg) (fun o l => good o.machine l) o) :
    Reachable (Machine.Init cfg) (Machine.Step cfg) good o.machine := by
  induction h with
  | init h => exact .init h.1
  | step _ hg hs ih => exact .step ih hg (step_machine hs).1

end Vetted

/-- The commit `c` of `r`, handed over, found valid unless it is the replica's own, and about the
message of its index. -/
structure Shown (cfg : Config) (message : Nat → Bytes) (vetted : List (Nat × Certificate Bytes))
    (handed : Nat → List (Certificate Bytes)) (r : Nat) (c : Certificate Bytes) : Prop where
  handed : c ∈ handed r
  valid : r ≠ cfg.localIndex → (r, c) ∈ vetted
  message : c.message = message c.index

/-- The Prepare stored for an instance, with the votes counted for it. -/
def ballot (s : Consensus) (i : Nat) : Option (PrepareMessage × DynamicBitset) :=
  (s.instanceStates.find? i).map fun d => (d.prepareMessage, d.committed)

/-- Each commit on its way was handed over by its sender, those past the verification are shown,
and a vote is a commit for the Prepare it is counted for. -/
structure Votes (cfg : Config) (message : Nat → Bytes) (vetted : List (Nat × Certificate Bytes))
    (s : Consensus) : Prop where
  queued : ∀ r, ∀ c ∈ s.commitVerifications r, r ≠ cfg.localIndex ∧ c ∈ handed s.log r
  running : ∀ rc ∈ s.runningVerifications, rc.1 ≠ cfg.localIndex ∧ rc.2 ∈ handed s.log rc.1
  verified : ∀ x ∈ s.verifiedCommits, x.valid = true →
    Shown cfg message vetted (handed s.log) x.sender x.prepareCertificate
  buffered : ∀ r, ∀ c ∈ (s.bufferedCommits r).items, Shown cfg message vetted (handed s.log) r c
  counted : ∀ i p b, s.ballot i = some (p, b) → ∀ r, b.get r = true →
    ∃ c, Shown cfg message vetted (handed s.log) r c ∧ c.index = pack p.view p.inst

theorem ballot_account (s : Consensus) (i : Nat) :
    s.ballot i = (s.account i).map fun a => (a.prepareMessage, a.committed) := by
  rw [ballot, account, Option.map_map]
  rfl

/-- The votes once one of `r` is counted. -/
theorem ballot_receivedCommit {r k i : Nat} {p : PrepareMessage} {b : DynamicBitset}
    (h : (s.receivedCommit r k).ballot i = some (p, b)) :
    ∃ b₀, s.ballot i = some (p, b₀) ∧ (i = k ∧ b = b₀.set r ∨ i ≠ k ∧ b = b₀) := by
  change ((s.instanceStates.modify k _).find? i).map _ = _ at h
  rw [TailMap.find?_modify] at h
  by_cases hi : i = k
  · subst hi
    rw [if_pos rfl] at h
    cases hd : s.instanceStates.find? i with
    | none => rw [hd] at h; cases h
    | some d =>
        rw [hd] at h
        cases h
        exact ⟨d.committed, by rw [ballot, hd]; rfl, .inl ⟨rfl, rfl⟩⟩
  · rw [if_neg hi] at h
    exact ⟨b, h, .inr ⟨hi, rfl⟩⟩

/-- An instance changes, and not its ballot. -/
theorem ballot_modifyInstance (s : Consensus) (k : Nat) {f : InstanceState → InstanceState}
    (hf : ∀ d, ((f d).prepareMessage, (f d).committed) = (d.prepareMessage, d.committed)) (i : Nat) :
    (s.modifyInstance k f).ballot i = s.ballot i := by
  change ((s.instanceStates.modify k f).find? i).map _ = _
  rw [TailMap.find?_modify, ballot]
  split
  · next hi =>
      rw [hi, Option.map_map]
      exact congrArg (fun g => Option.map g _) (funext hf)
  · rfl

variable {vetted vetted' : List (Nat × Certificate Bytes)}

/-- More may be handed and vetted. -/
theorem Shown.mono {h h' : Nat → List (Certificate Bytes)} {r : Nat} {c : Certificate Bytes}
    (hs : Shown cfg message vetted h r c) (hh : h r ⊆ h' r) (hv : vetted ⊆ vetted') :
    Shown cfg message vetted' h' r c :=
  ⟨hh hs.handed, fun hr => hv (hs.valid hr), hs.message⟩

namespace Votes

theorem mono (h : Votes cfg message vetted s) (hv : vetted ⊆ vetted') :
    Votes cfg message vetted' s where
  queued := h.queued
  running := h.running
  verified x hx hb := (h.verified x hx hb).mono (List.Subset.refl _) hv
  buffered r c hc := (h.buffered r c hc).mono (List.Subset.refl _) hv
  counted i p b hi r hr := by
    obtain ⟨c, hc, hk⟩ := h.counted i p b hi r hr
    exact ⟨c, hc.mono (List.Subset.refl _) hv, hk⟩

/-- A step that hands no commit over and counts none. -/
theorem shrink (h : Votes cfg message vetted s) (hh : handed s'.log = handed s.log)
    (hq : s'.commitVerifications = s.commitVerifications)
    (hr : s'.runningVerifications = s.runningVerifications)
    (hw : s'.verifiedCommits ⊆ s.verifiedCommits)
    (hb : ∀ r, (s'.bufferedCommits r).items ⊆ (s.bufferedCommits r).items)
    (hc : ∀ i p b, s'.ballot i = some (p, b) → s.ballot i = some (p, b) ∨ b.bits = []) :
    Votes cfg message vetted s' := by
  refine ⟨?_, ?_, ?_, fun r c hm => ?_, fun i p b hi r hr => ?_⟩
  · rw [hq, hh]; exact h.queued
  · rw [hr, hh]; exact h.running
  · rw [hh]; exact fun x hx => h.verified x (hw hx)
  · rw [hh]; exact h.buffered r c (hb r hm)
  · rw [hh]
    rcases hc i p b hi with hi | hbits
    · exact h.counted i p b hi r hr
    · rw [DynamicBitset.get, hbits] at hr
      cases hr

theorem idle (h : Votes cfg message vetted s) (hi : Idle s s') : Votes cfg message vetted s' := by
  refine h.shrink hi.handed hi.queued hi.running ?_ (fun r => ?_) fun i p b hb => .inl ?_
  · rw [hi.verified]; exact List.Subset.refl _
  · rw [hi.buffered]; exact List.Subset.refl _
  · rwa [ballot_account, hi.account i, ← ballot_account] at hb

/-- A commit that is shown is counted for the Prepare of its index, or waits for it. -/
theorem settles {r : Nat} {c : Certificate Bytes} (h : Votes cfg message vetted s)
    (hc : Shown cfg message vetted (handed s.log) r c)
    (hm : ∀ d, s.instanceStates.find? (unpack c.index).2 = some d →
      c.index = pack d.prepareMessage.view d.prepareMessage.inst)
    (hx : Settles s r c s') : Votes cfg message vetted s' := by
  cases hx with
  | buffer hn =>
      refine ⟨h.queued, h.running, h.verified, fun r' c' hc' => ?_, h.counted⟩
      change c' ∈ (Function.update s.bufferedCommits r _ r' : TailQueue _).items at hc'
      by_cases hr : r' = r
      · subst hr
        rw [Function.update_self] at hc'
        rcases TailQueue.mem_emplaceBack hc' with hc' | rfl
        · exact h.buffered r' c' hc'
        · exact hc
      · rw [Function.update_of_ne hr] at hc'
        exact h.buffered r' c' hc'
  | count hd hget =>
      refine ⟨h.queued, h.running, h.verified, h.buffered, fun i p b hi r' hr' => ?_⟩
      obtain ⟨b₀, hi₀, ⟨rfl, rfl⟩ | ⟨-, rfl⟩⟩ := ballot_receivedCommit hi
      · rcases (DynamicBitset.get_set b₀ r r').mp hr' with rfl | hr'
        · obtain ⟨d, hd, he⟩ := Option.map_eq_some_iff.mp hi₀
          cases he
          exact ⟨c, hc, hm d hd⟩
        · exact h.counted _ p b₀ hi₀ r' hr'
      · exact h.counted i p _ hi₀ r' hr'

/-- The front of a buffer is counted for the Prepare of its index. -/
theorem replays {useful r : Nat} (h : Votes cfg message vetted s)
    (hm : ∀ p b, s.entry (unpack useful).2 = some (p, b) → useful = pack p.view p.inst)
    (hx : Replays useful s r s') : Votes cfg message vetted s' := by
  have hpop : ∀ r', ((outdate useful s r).bufferedCommits r').items ⊆
      (s.bufferedCommits r').items := by
    intro r'
    change (Function.update s.bufferedCommits r _ r' : TailQueue _).items ⊆ _
    by_cases hr : r' = r
    · subst hr
      rw [Function.update_self]
      exact (List.dropWhile_sublist _).subset
    · rw [Function.update_of_ne hr]
      exact List.Subset.refl _
  have ho : Votes cfg message vetted (outdate useful s r) :=
    h.shrink rfl rfl rfl (List.Subset.refl _) hpop fun _ _ _ hi => .inl hi
  cases hx with
  | skip _ => exact ho
  | @replay c s₁ hc hi hset =>
      have hshown := ho.buffered r c (List.mem_of_mem_head? hc)
      have h₁ : Votes cfg message vetted s₁ := by
        refine ho.settles hshown (fun d hd => ?_) hset
        rw [hi] at hd ⊢
        exact hm d.prepareMessage d.certifiedPrepare (entry_of_find? hd)
      refine h₁.shrink rfl rfl rfl (List.Subset.refl _) (fun r' => ?_) fun _ _ _ hi => .inl hi
      change (Function.update s₁.bufferedCommits r _ r' : TailQueue _).items ⊆ _
      by_cases hr : r' = r
      · subst hr
        rw [Function.update_self]
        exact List.drop_subset 1 _
      · rw [Function.update_of_ne hr]
        exact List.Subset.refl _

/-- Buffered commits were vetted. -/
theorem replayCommits {useful : Nat} {rs : List Nat} (h : Votes cfg message vetted s)
    (hm : ∀ p b, s.entry (unpack useful).2 = some (p, b) → useful = pack p.view p.inst)
    (hx : replayCommits useful s rs = .ok s') : Votes cfg message vetted s' := by
  induction rs generalizing s with
  | nil => cases hx; exact h
  | cons r rs ih =>
      obtain ⟨s₁, h₁, h₂⟩ := bind_eq_ok.mp hx
      have hr := replays_of_replayCommit h₁
      refine ih (h.replays hm hr) (fun p b he => hm p b ?_) h₂
      rwa [hr.counts.entry] at he

theorem tryCertifyPrepare {i : Nat} (h : Votes cfg message vetted s)
    (hx : tryCertifyPrepare cfg s i = .ok s') : Votes cfg message vetted s' := by
  rcases tryCertifyPrepare_cases hx with ⟨rfl, -⟩ | ⟨d, -, c, -, -, -, rfl⟩
  · exact h
  · refine h.shrink rfl rfl rfl (List.Subset.refl _) (fun _ => List.Subset.refl _)
      fun k p b hi => .inl ?_
    have hb := ballot_modifyInstance { s with prepareCertifier := c } i
      (f := fun d => { d with certifiedPrepare := true }) (fun _ => rfl) k
    exact hb.symm.trans hi

theorem tryCertifyPrepares {is : List Nat} (h : Votes cfg message vetted s)
    (hx : tryCertifyPrepares cfg s is = .ok s') : Votes cfg message vetted s' := by
  induction is generalizing s with
  | nil => cases hx; exact h
  | cons i is ih =>
      obtain ⟨s₁, h₁, h₂⟩ := bind_eq_ok.mp hx
      exact ih (h.tryCertifyPrepare h₁) h₂

/-- A Prepare is stored without votes, and the commits buffered for it are counted. -/
theorem accepted {r : Nat} {p : PrepareMessage} {ph : Phase} (h : Votes cfg message vetted s)
    (hv : Views cfg s ph) (hp : ph ≠ .sealed) (ha : p.view = (s.own cfg).atView)
    (hx : acceptPrepare cfg s r p = .ok s') : Votes cfg message vetted s' := by
  obtain ⟨t, b, s₂, ht, hr, hc⟩ := acceptPrepare_cases hx
  have h₁ : Votes cfg message vetted (stored s r p t) := by
    refine h.shrink rfl rfl rfl (List.Subset.refl _) (fun _ => List.Subset.refl _)
      fun i q b hi => ?_
    change (t.find? i).map _ = _ at hi
    rcases TailMap.tryEmplace_cases ht with ⟨-, rfl, -⟩ | ⟨-, -, -, -, hf, -⟩
    · exact .inl hi
    · rw [hf] at hi
      split at hi
      · cases hi; exact .inr rfl
      · split at hi
        · cases hi
        · exact .inl hi
  have hv₁ : Views cfg (stored s r p t) ph := hv.stored hp ha ht
  have h₂ : Votes cfg message vetted s₂ := by
    refine h₁.replayCommits (fun q b he => ?_) hr
    obtain ⟨d, hd, rfl, -⟩ := entry_cases he
    have hheld : (stored s r p t).held (unpack (pack p.view p.inst)).2 =
        some (d.prepareMessage, d.fastCommitted) := by rw [held, hd]; rfl
    have hview := (hv₁.view _ _ _ hheld).eq hp
    rw [own_stored] at hview
    rw [hv₁.inst _ _ _ hheld, hview, ← ha]
    simp only [unpack, pack]
    omega
  have h₃ : Votes cfg message vetted (s₂.pruneValidValues r p.inst) :=
    h₂.shrink rfl rfl rfl (List.Subset.refl _) (fun _ => List.Subset.refl _) fun _ _ _ hi => .inl hi
  exact h₃.tryCertifyPrepare hc

/-- A commit is handed over, and it is on no way yet. -/
theorem hand (h : Votes cfg message vetted s) (hh : ∀ r, handed s.log r ⊆ handed s'.log r)
    (hq : s'.commitVerifications = s.commitVerifications)
    (hr : s'.runningVerifications = s.runningVerifications)
    (hw : s'.verifiedCommits = s.verifiedCommits) (hb : s'.bufferedCommits = s.bufferedCommits)
    (hc : s'.instanceStates = s.instanceStates) : Votes cfg message vetted s' := by
  have hv := List.Subset.refl vetted
  refine ⟨fun r c hm => ?_, fun rc hm => ?_, fun x hx hx' => ?_, fun r c hm => ?_,
    fun i p b hi r hg => ?_⟩
  · obtain ⟨hl, hm⟩ := h.queued r c (hq ▸ hm)
    exact ⟨hl, hh r hm⟩
  · obtain ⟨hl, hm⟩ := h.running rc (hr ▸ hm)
    exact ⟨hl, hh rc.1 hm⟩
  · exact (h.verified x (hw ▸ hx) hx').mono (hh _) hv
  · exact (h.buffered r c (hb ▸ hm)).mono (hh r) hv
  · rw [ballot, hc] at hi
    obtain ⟨c, hs, hk⟩ := h.counted i p b hi r hg
    exact ⟨c, hs.mono (hh r) hv, hk⟩

/-- A commit that is received: the replica trusts its own, and has those of its peers verified. -/
theorem commit {c : Cmd} {r : Nat} {certificate : Certificate Bytes} {s₁ : Consensus}
    (h : Votes cfg message vetted s) (ht : c.titled cfg message)
    (hr : Receives cfg s inp c r (.commit (some certificate)) s₁)
    (hx : handleCommit cfg s₁ r (some certificate) = .ok s') :
    Votes cfg message vetted s' := by
  have hown : r = cfg.localIndex → certificate.message = message certificate.index := by
    cases hr with
    | poll hi => exact fun hl => absurd hl ht
    | broadcast => exact fun _ => ht
  obtain ⟨s₂, rfl, hv, hi, hb⟩ := verifications_handleCommit hr hx
  have hh : handed s₂.log = Function.update (handed s.log) r (certificate :: handed s.log r) :=
    congrArg Verifications.handed hv
  have hnew : certificate ∈ handed s₂.log r := by
    rw [hh, Function.update_self]
    exact List.mem_cons_self
  have hold : ∀ r', handed s.log r' ⊆ handed s₂.log r' := by
    intro r'
    rw [hh]
    by_cases hr' : r' = r
    · subst hr'
      rw [Function.update_self]
      exact List.subset_cons_self ..
    · rw [Function.update_of_ne hr']
      exact List.Subset.refl _
  have h₂ : Votes cfg message vetted s₂ := h.hand hold (congrArg Verifications.queued hv)
    (congrArg Verifications.running hv) (congrArg Verifications.verified hv) hb hi
  unfold verifyCommit
  split
  · next hl =>
      refine ⟨h₂.queued, h₂.running, fun x hx hx' => ?_, h₂.buffered, h₂.counted⟩
      rcases List.mem_append.mp hx with hx | hx
      · exact h₂.verified x hx hx'
      · cases List.mem_singleton.mp hx
        exact ⟨hnew, fun hne => absurd hl hne, hown hl⟩
  · next hl =>
      refine ⟨fun r' c' hc' => ?_, h₂.running, h₂.verified, h₂.buffered, h₂.counted⟩
      change c' ∈ Function.update s₂.commitVerifications r _ r' at hc'
      by_cases hr' : r' = r
      · subst hr'
        rw [Function.update_self] at hc'
        rcases Certifier.mem_enqueue hc' with rfl | hc'
        · exact ⟨hl, hnew⟩
        · exact h₂.queued r' c' hc'
      · rw [Function.update_of_ne hr'] at hc'
        exact h₂.queued r' c' hc'

theorem start (h : Votes cfg message vetted s) (r : Nat) :
    Votes cfg message vetted (s.startVerification r) := by
  unfold startVerification
  split
  · exact h
  · next c rest hq =>
      refine ⟨fun r' c' hc' => ?_, fun rc hrc => ?_, h.verified, h.buffered, h.counted⟩
      · change c' ∈ Function.update s.commitVerifications r rest r' at hc'
        by_cases hr : r' = r
        · subst hr
          rw [Function.update_self] at hc'
          exact h.queued r' c' (hq ▸ List.mem_cons_of_mem c hc')
        · rw [Function.update_of_ne hr] at hc'
          exact h.queued r' c' hc'
      · rcases List.mem_append.mp hrc with hrc | hrc
        · exact h.running rc hrc
        · cases List.mem_singleton.mp hrc
          exact h.queued r c (hq ▸ List.mem_cons_self)

/-- A commit that is found valid is about the message of its index. -/
theorem finish {k : Nat} {todo : List Cmd} (h : Votes cfg message vetted s)
    (hg : ∀ rc ∈ vetting cfg ⟨s, todo⟩ (.finishVerification k), rc.2.message = message rc.2.index) :
    Votes cfg message ((vetting cfg ⟨s, todo⟩ (.finishVerification k)).toList ++ vetted)
      (finishVerification cfg s k) := by
  have h' := h.mono (List.subset_append_right
    (vetting cfg ⟨s, todo⟩ (.finishVerification k)).toList vetted)
  unfold finishVerification
  split
  · exact h'
  · next r c hrc =>
      obtain ⟨hl, hm⟩ := h.running (r, c) (List.mem_of_getElem? hrc)
      have hrun : ∀ rc ∈ s.runningVerifications.eraseIdx k,
          rc.1 ≠ cfg.localIndex ∧ rc.2 ∈ handed s.log rc.1 :=
        fun rc hrc => h.running rc (List.eraseIdx_subset hrc)
      simp only
      split
      · exact ⟨h'.queued, hrun, h'.verified, h'.buffered, h'.counted⟩
      · next valid hcheck =>
          refine ⟨h'.queued, hrun, fun x hx hx' => ?_, h'.buffered, h'.counted⟩
          rcases List.mem_append.mp hx with hx | hx
          · exact h'.verified x hx hx'
          · cases List.mem_singleton.mp hx
            have hvalid : valid = true := hx'
            subst hvalid
            have hvet : vetting cfg ⟨s, todo⟩ (.finishVerification k) = some (r, c) := by
              simp only [vetting, hrc, hcheck, if_true]
            refine ⟨hm, fun _ => ?_, hg (r, c) hvet⟩
            rw [hvet]
            exact List.mem_cons_self

end Votes

/-! ### Runs -/

/-- A commit that is polled is for the view of the Prepare stored for its instance. -/
def CommitMatches (m : Machine) (l : Label) : Prop :=
  ∀ x ∈ polling m l, ∀ d ∈ m.core.instanceStates.find? (unpack x.prepareCertificate.index).2,
    d.prepareMessage.view = (unpack x.prepareCertificate.index).1

instance (m : Machine) (l : Label) : Decidable (CommitMatches m l) :=
  inferInstanceAs (Decidable (∀ x ∈ _, ∀ d ∈ _, _))

/-- The view fits an index, the Prepares and the certificates of an index are about one message,
and commits are counted for the view they are of. -/
def Unmistaken (cfg : Config) (message : Nat → Bytes) (m : Machine) (l : Label) : Prop :=
  (m.core.own cfg).atView < 2 ^ 16 ∧ PrepareTitled cfg message m l ∧
    (∀ rc ∈ vetting cfg m l, rc.2.message = message rc.2.index) ∧ CommitMatches m l

instance (m : Machine) (l : Label) : Decidable (Unmistaken cfg message m l) :=
  inferInstanceAs (Decidable (_ ∧ _ ∧ (∀ rc ∈ vetting cfg m l, _) ∧ _))

/-- **Votes.**  A command counts commits for what they certify. -/
theorem votes_exec {c : Cmd} {cs rest : List Cmd} (h : exec cfg s inp c = .ok (s', cs))
    (hview : Views cfg s (phase cfg (c :: rest))) (ht : c.titled cfg message)
    (hg : Unmistaken cfg message ⟨s, c :: rest⟩ (.exec inp)) (hs : Votes cfg message vetted s) :
    Votes cfg message vetted s' := by
  obtain ⟨hb, -, -, hpoll⟩ := hg
  cases exec_books h with
  | idle hi => exact hs.idle hi
  | @prepare _ r p s₁ _ hr ha hx =>
      have hp : phase cfg (c :: rest) ≠ .sealed := by
        rw [phase_loud hr.kind]
        rintro ⟨⟩
      exact (hs.idle (hr.idle (by rintro _ ⟨⟩))).accepted (hview.keeps hr.keeps) hp ha.own hx
  | commit hr hx => exact hs.commit ht hr hx
  | verified hx =>
      cases hvc : s.verifiedCommits with
      | nil =>
          unfold handleVerifiedCommits at hx
          rw [hvc] at hx
          cases hx
          exact hs
      | cons x l =>
          obtain ⟨hvalid, hset⟩ := handleVerifiedCommits_cases hvc hx
          have hshown := hs.verified x (hvc ▸ List.mem_cons_self) hvalid
          have hq : Votes cfg message vetted { s with verifiedCommits := l } :=
            hs.shrink rfl rfl rfl (hvc ▸ List.subset_cons_self ..) (fun _ => List.Subset.refl _)
              fun _ _ _ hi => .inl hi
          refine hq.settles hshown (fun d hd => ?_) hset
          have hd : s.instanceStates.find? (unpack x.prepareCertificate.index).2 = some d := hd
          have hv := hpoll x (by simp only [polling, hvc]; rfl) d hd
          have hheld : s.held (unpack x.prepareCertificate.index).2 =
              some (d.prepareMessage, d.fastCommitted) := by rw [held, hd]; rfl
          have hle := (hview.view _ _ _ hheld).le
          exact eq_pack hv.symm (hview.inst _ _ _ hheld).symm (Nat.lt_of_le_of_lt hle hb)
  | certify hx => exact hs.tryCertifyPrepares hx
  | prune low n =>
      generalize (if n = s.adopted then low else inp.freed) = low'
      refine hs.shrink rfl rfl rfl (List.Subset.refl _) (fun _ => List.Subset.refl _)
        fun i p b hi => ?_
      change ((s.instanceStates.popBelow low').find? i).map _ = _ at hi
      rw [TailMap.find?_popBelow] at hi
      split at hi
      · cases hi
      · exact .inl hi
  | forget =>
      exact hs.shrink rfl rfl rfl (List.Subset.refl _) (fun _ => List.Subset.refl _)
        fun _ _ _ hi => by cases hi

theorem Votes.background {l : Label} {todo : List Cmd} (h : Votes cfg message vetted s)
    (hb : Machine.background cfg s l = .ok s')
    (hg : ∀ rc ∈ vetting cfg ⟨s, todo⟩ l, rc.2.message = message rc.2.index) :
    Votes cfg message ((vetting cfg ⟨s, todo⟩ l).toList ++ vetted) s' := by
  rcases background_books hb with ⟨r, rfl, rfl⟩ | ⟨k, rfl, rfl⟩ | hi
  · exact h.start r
  · exact h.finish hg
  · exact (h.idle hi).mono (List.subset_append_right ..)

/-- In every run in which no certificate is mistaken for another. -/
theorem votes_of_reachable {o : Vetted}
    (h : Reachable (Vetted.Init cfg) (Vetted.Step cfg)
      (fun o l => Unmistaken cfg message o.machine l) o) :
    Votes cfg message o.vetted o.machine.core := by
  refine h.induct (P := fun o => Votes cfg message o.vetted o.machine.core) (fun o ho => ?_)
    fun o l o' hreach hs hg hstep => ?_
  · obtain ⟨⟨requestLog, hm⟩, -⟩ := ho
    rw [hm]
    exact ⟨fun _ _ hc => (nomatch hc), fun _ hc => (nomatch hc), fun _ hx => (nomatch hx),
      fun _ _ hc => (nomatch hc), fun _ _ _ hi => nomatch hi⟩
  · obtain ⟨hstep, hv⟩ := Vetted.step_machine hstep
    have hmach := Vetted.machine_reachable hreach
    have hview := Machine.views_of_reachable (fun _ _ hg => hg.1) hmach
    have ht := (Machine.titled_of_reachable (fun _ _ hg => hg.2.1) hmach).2
    obtain ⟨⟨core, todo⟩, vetted⟩ := o
    obtain ⟨m', vetted'⟩ := o'
    cases hv
    rcases Machine.step_cases hstep with ⟨c, s, cs, rfl, -, hc, rfl⟩ |
      ⟨inp, c, rest, s, cs, rfl, he, hx, rfl⟩ | ⟨s, hb, rfl⟩
    · exact hs.idle (idle_call hc)
    · cases he
      exact votes_exec hx hview (ht c List.mem_cons_self) hg hs
    · exact hs.background hb hg.2.2.1

/-- What was handed over was delivered. -/
theorem mem_handed {log : List Event} {r : Nat} {c : Certificate Bytes} (h : c ∈ handed log r) :
    .delivered r (.commit (some c)) ∈ log := by
  obtain ⟨e, he, hc⟩ := List.mem_filterMap.mp h
  split at hc
  · split at hc
    · next hr =>
        cases hc
        exact hr ▸ he
    · cases hc
  · cases hc

/-- The replica `r` committed the Prepare `p` of the instance `i`: a commit of `r` was handed over,
which is found valid unless it is the replica's own. -/
def Cast (cfg : Config) (o : Vetted) (r i : Nat) (p : PrepareMessage) : Prop :=
  ∃ c, .delivered r (.commit (some c)) ∈ o.machine.core.log ∧
    (r ≠ cfg.localIndex → (r, c) ∈ o.vetted) ∧ c.index = pack p.view i ∧ c.message = p.data

/-- **Slow votes.**  In a run in which the Prepares and the certificates of an index are about one
message, and no commit is counted for a Prepare of another view, a vote counted for an instance is
a commit of its sender for that Prepare. -/
theorem slowVotes_sound {o : Vetted}
    (h : Reachable (Vetted.Init cfg) (Vetted.Step cfg)
      (fun o l => Unmistaken cfg message o.machine l) o) {i r : Nat} {d : InstanceState}
    (hd : o.machine.core.instanceStates.find? i = some d) (hr : d.committed.get r = true) :
    Cast cfg o r i d.prepareMessage := by
  have hmach := Vetted.machine_reachable h
  have hview := Machine.views_of_reachable (fun _ _ hg => hg.1) hmach
  obtain ⟨ht, -⟩ := Machine.titled_of_reachable (fun _ _ hg => hg.2.1) hmach
  have hheld : o.machine.core.held i = some (d.prepareMessage, d.fastCommitted) := by
    rw [held, hd]
    rfl
  have hinst : d.prepareMessage.inst = i := hview.inst i _ _ hheld
  obtain ⟨c, hc, hk⟩ := (votes_of_reachable h).counted i d.prepareMessage d.committed
    (by rw [ballot, hd]; rfl) r hr
  refine ⟨c, mem_handed hc.handed, hc.valid, by rw [hk, hinst], ?_⟩
  rw [hc.message, hk]
  exact (ht.held i _ _ hheld).symm

/-! ### A commit that outlives its view -/

namespace Example

open Deployment

/-- Replica 0 follows replica 1 into view 1 and stores its proposal for instance 0; then the commit
of replica 2 for instance 0 of view 0 arrives, is verified and polled. -/
def lateCommit : List Label :=
  tickCb 0 .sealView ++ tickCb 1 (.newView sound) ++ tickCb 2 (.prepare ⟨1, 0, [7]⟩) ++
    tickPeer 0 (.commit (some sevenPrepared)) 40 ++
    [.startVerification 1, .finishVerification 0, .call (.toggleSlowPath true), .call .tick] ++
    drain 40

/-- The vote of replica 2 is counted for the proposal of instance 0 of view `view`. -/
def countsCommit (view : Nat) (o : Vetted) : Bool :=
  (o.machine.core.instanceStates.find? 0).any fun d =>
    d.prepareMessage = ⟨view, 0, [7]⟩ && d.committed.get 1

theorem countsCommit_cases {view : Nat} {o : Vetted} (h : countsCommit view o = true) :
    ∃ d, o.machine.core.instanceStates.find? 0 = some d ∧ d.prepareMessage = ⟨view, 0, [7]⟩ ∧
      d.committed.get 1 = true := by
  obtain ⟨d, hd, he⟩ := (Option.any_eq_true ..).mp h
  obtain ⟨hp, hr⟩ := Bool.and_eq_true_iff.mp he
  exact ⟨d, hd, of_decide_eq_true hp, hr⟩

end Example

/-- The commit of view 0 is counted in view 1. -/
theorem slowVotes_unsound :
    ¬ ∀ (cfg : Config) (o : Vetted), Reachable (Vetted.Init cfg) (Vetted.Step cfg) Always o →
        ∀ i d, o.machine.core.instanceStates.find? i = some d → ∀ r, d.committed.get r = true →
          Cast cfg o r i d.prepareMessage := by
  intro h
  obtain ⟨o, ho, hs⟩ : ∃ o, Reachable (Vetted.Init Example.three) (Vetted.Step Example.three)
      (fun _ _ => True) o ∧ (Example.countsCommit 1 o &&
        o.vetted.all fun rc => rc.2.index != pack 1 0) = true :=
    exists_reachable ⟨⟨.start Example.three Deployment.allKnown, []⟩, []⟩
      ⟨⟨_, rfl⟩, rfl⟩ Example.lateCommit (by decide +kernel)
  obtain ⟨hc, hv⟩ := Bool.and_eq_true_iff.mp hs
  obtain ⟨d, hd, hp, hr⟩ := Example.countsCommit_cases hc
  obtain ⟨c, -, hvet, hi, -⟩ := h _ o ho.always 0 d hd 1 hr
  -- the only commit of replica 2 that was found valid is of view 0
  have hne := List.all_eq_true.mp hv _ (hvet (by decide))
  rw [hi, hp] at hne
  exact absurd rfl (bne_iff_ne.mp hne)

/-- The commit of replica 2 comes before the Prepare, of the same view. -/
theorem slowVotes_sound_buffered : ∃ (o : Vetted) (d : InstanceState),
    o.machine.core.instanceStates.find? 0 = some d ∧ d.committed.get 1 = true ∧
      Cast Example.second o 1 0 d.prepareMessage := by
  obtain ⟨o, ho, hs⟩ : ∃ o, Reachable (Vetted.Init Example.second) (Vetted.Step Example.second)
      (fun o l => Unmistaken Example.second (fun _ => [7]) o.machine l) o ∧
        Example.countsCommit 0 o = true :=
    exists_reachable ⟨⟨.start Example.second Deployment.allKnown, []⟩, []⟩
      ⟨⟨_, rfl⟩, rfl⟩ Example.replaysCommit (by decide +kernel)
  obtain ⟨d, hd, -, hr⟩ := Example.countsCommit_cases hs
  exact ⟨o, d, hd, hr, slowVotes_sound ho hd hr⟩

end Ubft.Consensus
