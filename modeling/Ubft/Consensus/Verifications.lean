import Ubft.Consensus.CbCheckpoints
import Ubft.Consensus.Ledger
import Ubft.Support.Counting

/-!
# Consensus — outstanding verifications

`outstanding_commit_verifications` counts the commits of a replica that are in the thread pool or
verified and not yet polled (`Balanced`): `handleSealView` and `certifyCbCheckpoint` wait for it
to be 0.

A commit is lost for the counter when its queue is full or when its verification throws, and
`handleVerifiedCommit` decrements it a second time when a commit that was buffered is replayed.
The runs considered are those in which none of this happens (`Countable`).
-/

namespace Ubft.Consensus

open Certifier (Certificate)

variable {cfg : Config} {s s' : Consensus} {inp : Input}

/-! ### The verifications -/

/-- Where the commits of the replicas are on their way to `handleVerifiedCommit`. -/
structure Verifications where
  handed : Nat → List (Certificate Bytes)
  outstanding : Nat → Nat
  queued : Nat → List (Certificate Bytes)
  running : List (Nat × Certificate Bytes)
  verified : List VerifiedCommit

/-- The commits of `r` in the thread pool, or verified and not yet polled. -/
def Verifications.pending (v : Verifications) (r : Nat) : Nat :=
  (v.queued r).length + v.running.countP (·.1 = r) + v.verified.countP (·.sender = r)

/-- Where the commits to verify are. -/
def verifications (s : Consensus) : Verifications where
  handed := handed s.log
  outstanding r := (s.states r).outstandingCommitVerifications
  queued := s.commitVerifications
  running := s.runningVerifications
  verified := s.verifiedCommits

theorem Idle.verifications (h : Idle s s') : s'.verifications = s.verifications :=
  congrArg (fun l : Ledger => Verifications.mk l.handed l.outstanding l.queued l.running l.verified)
    h

/-- All verifications have completed. -/
def AllVerified (s : Consensus) : Prop :=
  (∀ r, s.commitVerifications r = []) ∧ s.runningVerifications = []

/-- The counter of each replica is the number of its commits that are pending: those that were
handed to verification, less those processed. -/
structure Balanced (v : Verifications) (processed : Nat → Nat) : Prop where
  pending : ∀ r, v.outstanding r = v.pending r
  bound : ∀ r, v.outstanding r < 2 ^ 64
  handed : ∀ r, v.outstanding r + processed r = (v.handed r).length

/-! ### The steps -/

namespace Verifications

/-- A commit of `r` is handed over. -/
def hand (v : Verifications) (r : Nat) (c : Certificate Bytes) : Verifications :=
  { v with
    handed := Function.update v.handed r (c :: v.handed r)
    outstanding := Function.update v.outstanding r ((v.outstanding r + 1) % 2 ^ 64) }

/-- The first commit of `r` that is verified is processed, and the others are left. -/
def process (v : Verifications) (r : Nat) (rest : List VerifiedCommit) : Verifications :=
  { v with
    outstanding := Function.update v.outstanding r ((v.outstanding r + 2 ^ 64 - 1) % 2 ^ 64)
    verified := rest }

end Verifications

namespace Balanced

variable {v : Verifications} {processed : Nat → Nat}

/-- A commit that is handed over is pending, wherever it goes. -/
theorem hand (h : Balanced v processed) {r : Nat} (c : Certificate Bytes)
    (hb : v.outstanding r + 1 < 2 ^ 64) {v' : Verifications}
    (hv : v'.handed = (v.hand r c).handed ∧ v'.outstanding = (v.hand r c).outstanding)
    (hp : ∀ r', v'.pending r' = v.pending r' + if r' = r then 1 else 0) :
    Balanced v' processed := by
  have ho : ∀ r', v'.outstanding r' = v.outstanding r' + if r' = r then 1 else 0 := by
    intro r'
    rw [hv.2]
    change Function.update v.outstanding r _ r' = _
    by_cases hr : r' = r
    · rw [hr, Function.update_self, if_pos rfl, Nat.mod_eq_of_lt hb]
    · rw [Function.update_of_ne hr, if_neg hr, Nat.add_zero]
  refine ⟨fun r' => ?_, fun r' => ?_, fun r' => ?_⟩
  · rw [ho, hp, h.pending]
  · rw [ho]
    split
    · next hr => exact hr ▸ hb
    · exact h.bound r'
  · rw [ho, hv.1]
    change _ = (Function.update v.handed r _ r').length
    have hh := h.handed r'
    by_cases hr : r' = r
    · subst hr
      rw [Function.update_self, if_pos rfl, List.length_cons]
      omega
    · rw [Function.update_of_ne hr, if_neg hr, Nat.add_zero]
      exact hh

/-- A certificate moves from one stage to the next. -/
theorem moves (h : Balanced v processed) {v' : Verifications} (hh : v'.handed = v.handed)
    (ho : v'.outstanding = v.outstanding) (hp : ∀ r, v'.pending r = v.pending r) :
    Balanced v' processed :=
  ⟨fun r => by rw [ho, hp, h.pending], fun r => by rw [ho]; exact h.bound r,
    fun r => by rw [ho, hh]; exact h.handed r⟩

/-- A commit that is verified is counted. -/
theorem positive (h : Balanced v processed) {x : VerifiedCommit} {rest : List VerifiedCommit}
    (hv : v.verified = x :: rest) : 0 < v.outstanding x.sender := by
  rw [h.pending, Verifications.pending, hv, List.countP_cons_of_pos (by simp)]
  omega

/-- The oldest verified commit is processed. -/
theorem process (h : Balanced v processed) {x : VerifiedCommit} {rest : List VerifiedCommit}
    (hv : v.verified = x :: rest) :
    Balanced (v.process x.sender rest)
      (Function.update processed x.sender (processed x.sender + 1)) := by
  have hpos := h.positive hv
  have hlt := h.bound x.sender
  have ho : ∀ r, (v.process x.sender rest).outstanding r + (if x.sender = r then 1 else 0) =
      v.outstanding r := by
    intro r
    change Function.update v.outstanding x.sender _ r + _ = _
    by_cases hr : r = x.sender
    · subst hr
      rw [Function.update_self, if_pos rfl]
      omega
    · rw [Function.update_of_ne hr, if_neg (Ne.symm hr), Nat.add_zero]
  have hp : ∀ r, (v.process x.sender rest).pending r + (if x.sender = r then 1 else 0) =
      v.pending r := by
    intro r
    change (v.queued r).length + v.running.countP _ + rest.countP _ + _ = _
    rw [Verifications.pending, hv, List.countP_cons]
    simp only [decide_eq_true_eq]
    omega
  refine ⟨fun r => ?_, fun r => ?_, fun r => ?_⟩
  · have := h.pending r
    have := ho r
    have := hp r
    omega
  · have := h.bound r
    have := ho r
    omega
  · have hh := h.handed r
    have hor := ho r
    change _ + Function.update processed x.sender _ r = (v.handed r).length
    by_cases hr : r = x.sender
    · subst hr
      rw [Function.update_self]
      rw [if_pos rfl] at hor
      omega
    · rw [Function.update_of_ne hr]
      rw [if_neg (Ne.symm hr)] at hor
      omega

end Balanced

/-! ### What the replica does to the verifications -/

/-- A delivered commit is handed over. -/
theorem handed_delivering (s : Consensus) (r : Nat) (c : Certificate Bytes) :
    handed (delivering s r (.commit (some c))).log =
      Function.update (handed s.log) r (c :: handed s.log r) := by
  funext r'
  by_cases hr : r' = r
  · subst hr
    rw [Function.update_self]
    exact List.filterMap_cons_some (if_pos rfl)
  · rw [Function.update_of_ne hr]
    exact List.filterMap_cons_none (if_neg (Ne.symm hr))

/-- What the handler of a commit starts with. -/
theorem Receives.verifications {c : Cmd} {r : Nat} {certificate : Certificate Bytes}
    {s₁ : Consensus} (h : Receives cfg s inp c r (.commit (some certificate)) s₁) :
    s₁.verifications = { s.verifications with
      handed := Function.update (handed s.log) r (certificate :: handed s.log r) } := by
  have hd : ∀ s r, (delivering s r (.commit (some certificate))).verifications =
      { s.verifications with
        handed := Function.update (handed s.log) r (certificate :: handed s.log r) } := by
    intro s r
    have ho : (delivering s r (.commit (some certificate))).verifications.outstanding =
        s.verifications.outstanding := by
      funext r'
      change (Function.update s.states r _ r').outstandingCommitVerifications = _
      by_cases hr : r' = r
      · rw [hr, Function.update_self]
        rfl
      · rw [Function.update_of_ne hr]
        rfl
    exact congrArg₂ (fun l o => Verifications.mk l o s.commitVerifications s.runningVerifications
      s.verifiedCommits) (handed_delivering s r certificate) ho
  cases h with
  | poll hi => exact hd s r
  | broadcast => exact hd (broadcasting cfg s _) _

theorem verifications_modifyState (s : Consensus) (r : Nat) (f : ReplicaState → ReplicaState) :
    (s.modifyState r f).verifications = { s.verifications with
      outstanding := Function.update s.verifications.outstanding r
        (f (s.states r)).outstandingCommitVerifications } := by
  refine congrArg (fun o => { s.verifications with outstanding := o }) (funext fun r' => ?_)
  change (Function.update s.states r _ r').outstandingCommitVerifications = _
  by_cases hr : r' = r
  · rw [hr, Function.update_self, Function.update_self]
  · rw [Function.update_of_ne hr, Function.update_of_ne hr]
    rfl

/-- A commit goes to the verified ones or to its queue. -/
theorem verifications_verifyCommit (s : Consensus) (r : Nat) (c : Certificate Bytes) :
    (verifyCommit cfg s r c).verifications = if r = cfg.localIndex then
      { s.verifications with verified := s.verifiedCommits ++ [⟨r, c, true⟩] }
    else
      { s.verifications with
        queued := Function.update s.commitVerifications r
          (Certifier.enqueue cfg.window (s.commitVerifications r) c) } := by
  unfold verifyCommit
  split
  · rfl
  · rfl

/-- **What a Commit adds**: it is queued, and counted. -/
theorem verifications_handleCommit {c : Cmd} {r : Nat} {certificate : Certificate Bytes}
    {s₁ : Consensus} (hr : Receives cfg s inp c r (.commit (some certificate)) s₁)
    (hx : handleCommit cfg s₁ r (some certificate) = .ok s') :
    ∃ s₂, s' = verifyCommit cfg s₂ r certificate ∧
      s₂.verifications = s.verifications.hand r certificate ∧
        s₂.instanceStates = s.instanceStates ∧ s₂.bufferedCommits = s.bufferedCommits := by
  have hv := hr.verifications
  have hs₁ : s₁.instanceStates = s.instanceStates ∧ s₁.bufferedCommits = s.bufferedCommits := by
    cases hr <;> exact ⟨rfl, rfl⟩
  obtain ⟨_, x, hc, -, hcommit, -, rfl⟩ := handleCommit_cases hx
  cases hc
  obtain ⟨rfl, -⟩ := ReplicaState.commit_cases hcommit
  refine ⟨_, rfl, ?_, hs₁⟩
  rw [verifications_modifyState, hv]
  have ho : (s₁.states r).outstandingCommitVerifications = s.verifications.outstanding r :=
    congrFun (congrArg Verifications.outstanding hv) r
  rw [ho]
  rfl

/-- As long as neither queue nor counter overflows. -/
theorem Balanced.commit {processed : Nat → Nat} {c : Cmd} {r : Nat}
    {certificate : Certificate Bytes} {s₁ : Consensus}
    (h : Balanced s.verifications processed)
    (hr : Receives cfg s inp c r (.commit (some certificate)) s₁)
    (hx : handleCommit cfg s₁ r (some certificate) = .ok s')
    (hq : r ≠ cfg.localIndex → (s.commitVerifications r).length < cfg.window)
    (hb : (s.states r).outstandingCommitVerifications + 1 < 2 ^ 64) :
    Balanced s'.verifications processed := by
  obtain ⟨s₂, rfl, hv, -⟩ := verifications_handleCommit hr hx
  have hqueued : s₂.commitVerifications = s.commitVerifications :=
    congrArg Verifications.queued hv
  have hverified : s₂.verifiedCommits = s.verifiedCommits := congrArg Verifications.verified hv
  rw [verifications_verifyCommit, hqueued, hverified, hv]
  split
  · -- its own commits are trusted
    refine h.hand certificate hb ⟨rfl, rfl⟩ fun r' => ?_
    change (s.commitVerifications r').length + s.runningVerifications.countP _ +
      (s.verifiedCommits ++ [_]).countP _ = (s.commitVerifications r').length +
        s.runningVerifications.countP _ + s.verifiedCommits.countP _ + _
    rw [List.countP_append, List.countP_singleton]
    simp only [decide_eq_true_eq, eq_comm (a := r)]
    omega
  · next hl =>
    refine h.hand certificate hb ⟨rfl, rfl⟩ fun r' => ?_
    change (Function.update s.commitVerifications r _ r').length +
      s.runningVerifications.countP _ + s.verifiedCommits.countP _ =
        (s.commitVerifications r').length + s.runningVerifications.countP _ +
          s.verifiedCommits.countP _ + _
    rw [Certifier.enqueue, if_neg (Nat.not_lt.mpr (hq hl))]
    by_cases hr' : r' = r
    · subst hr'
      rw [Function.update_self, if_pos rfl, List.length_append, List.length_singleton]
      omega
    · rw [Function.update_of_ne hr', if_neg hr', Nat.add_zero]

/-- A settled commit is not outstanding. -/
theorem Settles.verifications {r : Nat} {c : Certificate Bytes} (h : Settles s r c s') :
    s'.verifications = { s.verifications with
      outstanding := Function.update s.verifications.outstanding r
        ((s.verifications.outstanding r + 2 ^ 64 - 1) % 2 ^ 64) } := by
  have hd := verifications_modifyState s r fun x => { x with
    outstandingCommitVerifications := (x.outstandingCommitVerifications + 2 ^ 64 - 1) % 2 ^ 64 }
  cases h with
  | buffer hn => exact hd
  | count _ hb => exact hd

theorem Balanced.poll {processed : Nat → Nat} {x : VerifiedCommit} {rest : List VerifiedCommit}
    (h : Balanced s.verifications processed) (hv : s.verifiedCommits = x :: rest)
    (hx : s.handleVerifiedCommits = .ok s') :
    s'.verifications = s.verifications.process x.sender rest ∧
      Balanced s'.verifications
        (Function.update processed x.sender (processed x.sender + 1)) := by
  have he : s'.verifications = s.verifications.process x.sender rest := by
    unfold handleVerifiedCommits at hx
    rw [hv] at hx
    simp only at hx
    split at hx
    · exact (settles_of_handleVerifiedCommit hx).verifications
    · cases hx
  refine ⟨he, ?_⟩
  rw [he]
  exact h.process hv

/-- A worker takes the next one. -/
theorem Balanced.start {processed : Nat → Nat} (h : Balanced s.verifications processed) (r : Nat) :
    Balanced (s.startVerification r).verifications processed := by
  unfold startVerification
  split
  · exact h
  · next c rest hq =>
      refine h.moves rfl rfl fun r' => ?_
      change (Function.update s.commitVerifications r rest r').length +
        (s.runningVerifications ++ [(r, c)]).countP _ + s.verifiedCommits.countP _ =
          (s.commitVerifications r').length + s.runningVerifications.countP _ +
            s.verifiedCommits.countP _
      rw [List.countP_append, List.countP_singleton]
      by_cases hr : r' = r
      · subst hr
        rw [Function.update_self, hq, if_pos (by simp), List.length_cons]
        omega
      · rw [Function.update_of_ne hr, if_neg (by simpa using Ne.symm hr), Nat.add_zero]

/-- A verification that ends without throwing. -/
theorem Balanced.finish {processed : Nat → Nat} (h : Balanced s.verifications processed) {k : Nat}
    (hk : ∀ rc ∈ s.runningVerifications[k]?,
      (s.prepareCertifier.check cfg.prepareCrypto rc.2).toOption.isSome) :
    Balanced (finishVerification cfg s k).verifications processed := by
  unfold finishVerification
  split
  · exact h
  · next r c hrc =>
      have hk := hk (r, c) hrc
      simp only
      split
      · next he => rw [he] at hk; cases hk
      · refine h.moves rfl rfl fun r' => ?_
        change (s.commitVerifications r').length + (s.runningVerifications.eraseIdx k).countP _ +
          (s.verifiedCommits ++ [_]).countP _ =
            (s.commitVerifications r').length + s.runningVerifications.countP _ +
              s.verifiedCommits.countP _
        rw [List.countP_append, List.countP_singleton,
          ← countP_eraseIdx hrc fun x => decide (x.1 = r')]
        simp only [decide_eq_true_eq]
        omega

/-! ### Commits that are not replayed -/

/-- No commit buffered from `r` is for the packed index `useful`. -/
def Unbuffered (useful : Nat) (s : Consensus) (r : Nat) : Prop :=
  ∀ c ∈ ((outdate useful s r).bufferedCommits r).items.head?, c.index ≠ useful

instance (useful : Nat) (s : Consensus) (r : Nat) : Decidable (Unbuffered useful s r) :=
  inferInstanceAs (Decidable (∀ c ∈ _, _))

/-- Nothing is there to be replayed. -/
theorem replayCommits_unbuffered {useful : Nat} {rs : List Nat} (hn : rs.Nodup)
    (hu : ∀ r ∈ rs, Unbuffered useful s r) (h : replayCommits useful s rs = .ok s') :
    ∃ b, s' = { s with bufferedCommits := b } := by
  induction rs generalizing s with
  | nil => cases h; exact ⟨_, rfl⟩
  | cons r rs ih =>
      obtain ⟨s₁, h₁, h₂⟩ := bind_eq_ok.mp h
      obtain ⟨hr, hn⟩ := List.nodup_cons.mp hn
      cases replays_of_replayCommit h₁ with
      | skip _ =>
          -- the buffers of the others are as they were
          have hu' : ∀ r' ∈ rs, Unbuffered useful (outdate useful s r) r' := by
            intro r' hr' c hc
            have hne : r' ≠ r := fun heq => hr (heq ▸ hr')
            refine hu r' (List.mem_cons_of_mem r hr') c ?_
            rw [bufferedCommits_outdate] at hc ⊢
            rwa [show (outdate useful s r).bufferedCommits r' = s.bufferedCommits r' from
              Function.update_of_ne hne ..] at hc
          obtain ⟨b, rfl⟩ := ih hn hu' h₂
          exact ⟨b, rfl⟩
      | replay hc hi _ => exact absurd hi (hu r List.mem_cons_self _ hc)

/-- Certifying verifies nothing. -/
theorem verifications_tryCertifyPrepare {i : Nat} (h : tryCertifyPrepare cfg s i = .ok s') :
    s'.verifications = s.verifications := by
  rcases tryCertifyPrepare_cases h with ⟨rfl, -⟩ | ⟨d, -, c, -, -, -, rfl⟩
  · rfl
  · rfl

theorem verifications_tryCertifyPrepares {is : List Nat}
    (h : tryCertifyPrepares cfg s is = .ok s') : s'.verifications = s.verifications := by
  induction is generalizing s with
  | nil => cases h; rfl
  | cons i is ih =>
      obtain ⟨s₁, h₁, h₂⟩ := bind_eq_ok.mp h
      exact (ih h₂).trans (verifications_tryCertifyPrepare h₁)

/-- Nor does a Prepare for which nothing is buffered. -/
theorem verifications_acceptPrepare {r : Nat} {p : PrepareMessage}
    (h : acceptPrepare cfg s r p = .ok s')
    (hu : ∀ r' ∈ List.range cfg.ids.length, Unbuffered (pack p.view p.inst) s r') :
    s'.verifications = s.verifications := by
  obtain ⟨t, b, s₂, -, hr, hc⟩ := acceptPrepare_cases h
  have hu : ∀ r' ∈ List.range cfg.ids.length, Unbuffered (pack p.view p.inst) (stored s r p t) r' :=
    hu
  obtain ⟨b, rfl⟩ := replayCommits_unbuffered List.nodup_range hu hr
  have hi : Idle s (s.modifyState r fun x => { x with nextPrepare := p.inst }) :=
    .modifyState s r rfl
  have hp : Idle { stored s r p t with bufferedCommits := b }
      (pruneValidValues { stored s r p t with bufferedCommits := b } r p.inst) :=
    .modifyState _ r rfl
  calc s'.verifications
      = (pruneValidValues { stored s r p t with bufferedCommits := b } r p.inst).verifications :=
        verifications_tryCertifyPrepare hc
    _ = (stored s r p t).verifications := hp.verifications
    _ = s.verifications := hi.verifications

/-! ### Runs -/

/-- What a message must find for the counters to stay right: a commit finds room in its queue,
and a Prepare that is stored finds no commit to replay. -/
def Finds (cfg : Config) (s : Consensus) (r : Nat) : Message → Prop
  | .commit _ => (r ≠ cfg.localIndex → (s.commitVerifications r).length < cfg.window) ∧
      (s.states r).outstandingCommitVerifications + 1 < 2 ^ 64
  | .prepare p => p.view = (s.own cfg).atView →
      ∀ r' ∈ List.range cfg.ids.length, Unbuffered (pack p.view p.inst) s r'
  | _ => True

instance (cfg : Config) (s : Consensus) (r : Nat) : DecidablePred (Finds cfg s r)
  | .commit _ => inferInstanceAs (Decidable ((_ → _) ∧ _))
  | .prepare _ => inferInstanceAs (Decidable (_ → ∀ r' ∈ List.range _, _))
  | .malformed | .checkpoint _ | .sealView | .newView _ => .isTrue trivial

/-- A verification that ends does not throw. -/
def Reports (cfg : Config) (s : Consensus) : Label → Prop
  | .finishVerification k => ∀ rc ∈ s.runningVerifications[k]?,
      (s.prepareCertifier.check cfg.prepareCrypto rc.2).toOption.isSome = true
  | _ => True

instance (cfg : Config) (s : Consensus) (l : Label) : Decidable (Reports cfg s l) := by
  unfold Reports
  split <;> infer_instance

/-- No verification is dropped, none is lost in a worker, and no commit is replayed. -/
def Countable (cfg : Config) (m : Machine) (l : Label) : Prop :=
  (∀ rm ∈ handing cfg m l, Finds cfg m.core rm.1 rm.2) ∧ Reports cfg m.core l

instance (m : Machine) (l : Label) : Decidable (Countable cfg m l) :=
  inferInstanceAs (Decidable ((∀ rm ∈ _, _) ∧ _))

/-- The replica whose verified commit a step processes in `pollVerifiedCommits`. -/
def processing (m : Machine) : Label → Option Nat
  | .exec _ =>
    match m.todo, m.core.verifiedCommits with
    | .pollVerifiedCommits :: _, v :: _ => some v.sender
    | _, _ => none
  | _ => none

/-- The commits of each replica that were processed, after a step. -/
def Machine.processed (processed : Nat → Nat) (m : Machine) (l : Label) : Nat → Nat :=
  match processing m l with
  | none => processed
  | some r => Function.update processed r (processed r + 1)

/-- A replica, and how many commits of each replica it processed in `pollVerifiedCommits`. -/
structure Audited where
  machine : Machine
  processed : Nat → Nat

namespace Audited

/-- A replica that processed nothing. -/
def Init (cfg : Config) (o : Audited) : Prop := o.machine.Init cfg ∧ o.processed = fun _ => 0

/-- The step relation, with the commits processed. -/
def Step (cfg : Config) (o : Audited) (l : Label) (o' : Audited) : Prop :=
  o.machine.Step cfg l o'.machine ∧ o'.processed = o.machine.processed o.processed l

/-- Every run of a replica is audited. -/
theorem exists_processed {good : Machine → Label → Prop} {m : Machine}
    (h : Reachable (Machine.Init cfg) (Machine.Step cfg) good m) :
    ∃ n, Reachable (Init cfg) (Step cfg) (fun o l => good o.machine l) ⟨m, n⟩ := by
  refine h.induct (P := fun m => ∃ n, Reachable (Init cfg) (Step cfg)
    (fun o l => good o.machine l) ⟨m, n⟩) (fun m hm => ⟨_, .init ⟨hm, rfl⟩⟩)
    fun m l m' _ hk hg hs => ?_
  obtain ⟨k, hk⟩ := hk
  exact ⟨_, .step hk hg ⟨hs, rfl⟩⟩

end Audited

theorem processed_of_ne {c : Cmd} {rest : List Cmd} (hc : c ≠ .pollVerifiedCommits)
    (processed : Nat → Nat) (l : Label) :
    Machine.processed processed ⟨s, c :: rest⟩ l = processed := by
  have hn : processing ⟨s, c :: rest⟩ l = none := by
    unfold processing
    split
    · split
      · next heq _ => exact absurd (List.cons.inj heq).1 hc
      · rfl
    · rfl
  unfold Machine.processed
  rw [hn]

/-- **Verifications.**  A command keeps the counters right. -/
theorem balanced_exec {c : Cmd} {cs rest : List Cmd} {processed : Nat → Nat}
    (h : exec cfg s inp c = .ok (s', cs)) (hg : Countable cfg ⟨s, c :: rest⟩ (.exec inp))
    (hb : Balanced s.verifications processed) :
    Balanced s'.verifications (Machine.processed processed ⟨s, c :: rest⟩ (.exec inp)) := by
  by_cases hc : c = .pollVerifiedCommits
  · subst hc
    have hx := (pure_eq_ok h).1
    cases hv : s.verifiedCommits with
    | nil =>
        unfold handleVerifiedCommits at hx
        rw [hv] at hx
        cases hx
        unfold Machine.processed processing
        simp only [hv]
        exact hb
    | cons x rest' =>
        unfold Machine.processed processing
        simp only [hv]
        exact (hb.poll hv hx).2
  · rw [processed_of_ne hc]
    cases exec_books h with
    | idle hi => rw [hi.verifications]; exact hb
    | @prepare _ r p s₁ _ hr ha hx =>
        have hi := hr.idle nofun
        have hu := hg.1 (r, .prepare p) (handing_of_receives hr rest)
          (ha.own.trans hr.keeps.atView)
        rw [verifications_acceptPrepare hx fun r' hr' c hc => hu r' hr' c ?_, hi.verifications]
        · exact hb
        · rw [bufferedCommits_outdate] at hc ⊢
          rwa [hi.buffered] at hc
    | @commit _ r certificate s₁ _ hr hx =>
        have hf := hg.1 (r, .commit (some certificate)) (handing_of_receives hr rest)
        exact hb.commit hr hx hf.1 hf.2
    | verified hx => exact absurd rfl hc
    | certify hx => rw [verifications_tryCertifyPrepares hx]; exact hb
    | prune low n => exact hb
    | forget => exact hb

theorem balanced_background {l : Label} {processed : Nat → Nat}
    (h : Machine.background cfg s l = .ok s') (hg : Reports cfg s l)
    (hb : Balanced s.verifications processed) : Balanced s'.verifications processed := by
  rcases background_books h with ⟨r, rfl, rfl⟩ | ⟨k, rfl, rfl⟩ | hi
  · exact hb.start r
  · exact hb.finish hg
  · rw [hi.verifications]
    exact hb

theorem balanced_of_reachable {o : Audited}
    (h : Reachable (Audited.Init cfg) (Audited.Step cfg) (fun o l => Countable cfg o.machine l) o) :
    Balanced o.machine.core.verifications o.processed := by
  refine h.induct (P := fun o => Balanced o.machine.core.verifications o.processed)
    (fun o ho => ?_) fun o l o' _ hb hg hs => ?_
  · obtain ⟨⟨requestLog, hm⟩, hp⟩ := ho
    rw [hm, hp]
    exact ⟨fun _ => rfl, fun _ => Nat.two_pow_pos 64, fun _ => rfl⟩
  · obtain ⟨hs, hp⟩ := hs
    obtain ⟨⟨core, todo⟩, processed⟩ := o
    obtain ⟨m', processed'⟩ := o'
    rw [hp]
    cases l with
    | exec inp =>
        cases todo with
        | nil => cases hs; exact hb
        | cons c rest =>
            obtain ⟨s, cs, he, rfl⟩ := Machine.step_exec hs rfl
            exact balanced_exec he hg hb
    | call c =>
        rcases Machine.step_cases hs with ⟨_, s, cs, hl, -, hc, rfl⟩ | ⟨_, _, _, _, _, hl, -⟩ |
          ⟨s, hbg, rfl⟩
        · cases hl
          change Balanced s.verifications processed
          rw [(idle_call hc).verifications]
          exact hb
        · cases hl
        · cases hbg
          exact hb
    | _ =>
        obtain ⟨s, hbg, h⟩ := bind_eq_ok.mp hs
        cases h
        exact balanced_background hbg hg.2 hb

/-! ### Waiting -/

/-- The step is that of a command. -/
def Label.isExec : Label → Bool
  | .exec _ => true
  | _ => false

/-- The thread gets to `rest`, however its commands are interleaved with what runs in the
background, unless a command throws before. -/
def Ends (cfg : Config) (rest : List Cmd) (m : Machine) : Prop :=
  ∃ n, ∀ ls m', runs (Machine.nextOption cfg) m ls = some m' → n < ls.countP Label.isExec →
    ∃ ls₁ ls₂ m₁, ls = ls₁ ++ ls₂ ∧ runs (Machine.nextOption cfg) m ls₁ = some m₁ ∧ m₁.todo = rest

/-- The loop that waits for the commits of `r` has `n` more commands at most to execute. -/
structure Looping (r : Nat) (rest : List Cmd) (n : Nat) (m : Machine) : Prop where
  balanced : ∃ processed, Balanced m.core.verifications processed
  done : AllVerified m.core
  todo : m.todo = .waitVerified r :: rest ∧
      (m.core.verifiedCommits = [] ∧ n = 1 ∨ n = m.core.verifiedCommits.length + 3) ∨
    m.todo = .pollVerifiedCommits :: .waitVerified r :: rest ∧
      n = m.core.verifiedCommits.length + 2

theorem AllVerified.of_eq (h : AllVerified s) (he : s'.verifications = s.verifications) :
    AllVerified s' := by
  refine ⟨fun r => ?_, ?_⟩
  · exact (congrFun (congrArg Verifications.queued he) r).trans (h.1 r)
  · exact (congrArg Verifications.running he).trans h.2

/-- Nothing is left to do for the thread pool. -/
theorem AllVerified.background {l : Label} (h : AllVerified s)
    (hb : Machine.background cfg s l = .ok s') : s'.verifications = s.verifications := by
  rcases background_books hb with ⟨r, -, rfl⟩ | ⟨k, -, rfl⟩ | hi
  · unfold startVerification
    rw [h.1 r]
  · unfold finishVerification
    rw [h.2]
    rfl
  · exact hi.verifications

/-- When every stage is empty nothing is outstanding. -/
theorem Balanced.outstanding_eq_zero {v : Verifications} {processed : Nat → Nat}
    (h : Balanced v processed) {r : Nat} (hq : v.queued r = []) (hr : v.running = [])
    (hv : v.verified = []) : v.outstanding r = 0 := by
  rw [h.pending, Verifications.pending, hq, hr, hv]
  rfl

/-- The loop of SealView goes on or ends. -/
theorem looping_exec {r n : Nat} {rest : List Cmd} {m m' : Machine} (h : Looping r rest n m)
    (hs : m.Step cfg (.exec inp) m') : m'.todo = rest ∨ ∃ n' < n, Looping r rest n' m' := by
  obtain ⟨⟨processed, hb⟩, hd, ⟨ht, hn⟩ | ⟨ht, rfl⟩⟩ := h
  · obtain ⟨s, cs, he, rfl⟩ := Machine.step_exec hs ht
    cases he
    simp only
    split
    · exact .inl rfl
    · next ho =>
        rcases hn with ⟨hv, -⟩ | rfl
        · -- no commit of `r` is pending
          exact absurd (hb.outstanding_eq_zero (hd.1 r) hd.2 hv) ho
        · exact .inr ⟨_, Nat.lt_succ_self _, ⟨_, hb⟩, hd, .inr ⟨rfl, rfl⟩⟩
  · obtain ⟨s, cs, he, rfl⟩ := Machine.step_exec hs ht
    obtain ⟨hx, hcs⟩ := pure_eq_ok he
    cases hv : m.core.verifiedCommits with
    | nil =>
        unfold handleVerifiedCommits at hx
        rw [hv] at hx hcs
        cases hx
        rw [if_pos rfl] at hcs
        subst hcs
        exact .inr ⟨1, Nat.lt_succ_self 1, ⟨_, hb⟩, hd, .inl ⟨rfl, .inl ⟨hv, rfl⟩⟩⟩
    | cons x l =>
        obtain ⟨hp, hb'⟩ := hb.poll hv hx
        rw [hv, if_neg (List.cons_ne_nil x l)] at hcs
        subst hcs
        have hd' : AllVerified s :=
          ⟨fun r => (congrFun (congrArg Verifications.queued hp) r).trans (hd.1 r),
            (congrArg Verifications.running hp).trans hd.2⟩
        have hv' : s.verifiedCommits = l := congrArg Verifications.verified hp
        exact .inr ⟨l.length + 2, by rw [List.length_cons]; omega, ⟨_, hb'⟩, hd',
          .inr ⟨rfl, by rw [hv']⟩⟩

/-- Only the thread gets on with the loop. -/
theorem Looping.idle {r n : Nat} {rest : List Cmd} {m m' : Machine} {l : Label}
    (h : Looping r rest n m) (hs : m.Step cfg l m') (hl : l.isExec = false) :
    Looping r rest n m' := by
  rcases Machine.step_cases hs with ⟨c, s, cs, -, ht, -⟩ | ⟨inp, c, rest', s, cs, rfl, -⟩ |
    ⟨s, hb, rfl⟩
  · rcases h.todo with ⟨ht', -⟩ | ⟨ht', -⟩
    · rw [ht] at ht'; cases ht'
    · rw [ht] at ht'; cases ht'
  · cases hl
  · have he := h.done.background hb
    have hv : s.verifiedCommits = m.core.verifiedCommits := congrArg Verifications.verified he
    refine ⟨?_, h.done.of_eq he, ?_⟩
    · rw [he]
      exact h.balanced
    · rw [hv]
      exact h.todo

/-- **Waiting.**  Once all verifications have completed, the loop ends. -/
theorem ends_waitVerified {m : Machine} {processed : Nat → Nat} {r : Nat} {rest : List Cmd}
    (hb : Balanced m.core.verifications processed) (ht : m.todo = .waitVerified r :: rest)
    (hd : AllVerified m.core) : Ends cfg rest m := by
  refine ⟨m.core.verifiedCommits.length + 3, fun ls m' hr hn => ?_⟩
  have hi : Looping r rest (m.core.verifiedCommits.length + 3) m :=
    ⟨⟨_, hb⟩, hd, .inl ⟨ht, .inr rfl⟩⟩
  refine exists_prefix_of_rank (P := fun n m => m.todo = rest ∨ Looping r rest n m)
    (fun n m l m' hi hs => ?_) (.inr hi) hr hn
  have hs := Machine.step_of_nextOption hs
  rcases hi with hg | hi
  · exact .inl hg
  · cases hl : l.isExec with
    | false => exact .inr ⟨n, nofun, Nat.le_refl n, .inr (hi.idle hs hl)⟩
    | true =>
        cases l with
        | exec inp =>
            rcases looping_exec hi hs with hg | ⟨n', hlt, hi'⟩
            · have hn : 0 < n := by
                rcases hi.todo with ⟨-, ⟨-, rfl⟩ | rfl⟩ | ⟨-, rfl⟩
                · exact Nat.one_pos
                · exact Nat.succ_pos _
                · exact Nat.succ_pos _
              exact .inr ⟨0, fun _ => hn, Nat.zero_le n, .inl hg⟩
            · exact .inr ⟨n', fun _ => hlt, Nat.le_of_lt hlt, .inr hi'⟩
        | _ => cases hl

/-! ### The accounting -/

/-- The counters are right, and nothing waits for a commit that does not come. -/
structure Accounted (cfg : Config) (o : Audited) : Prop where
  /-- What was handed to verification and not processed yet. -/
  count : ∀ r, (o.machine.core.states r).outstandingCommitVerifications + o.processed r =
    (handed o.machine.core.log r).length
  /-- What is processed was counted. -/
  positive : ∀ v rest, o.machine.core.verifiedCommits = v :: rest →
    0 < (o.machine.core.states v.sender).outstandingCommitVerifications
  /-- What is counted was not dropped. -/
  pending : ∀ r, (o.machine.core.states r).outstandingCommitVerifications =
    o.machine.core.verifications.pending r
  waits : ∀ r rest, o.machine.todo = .waitVerified r :: rest → AllVerified o.machine.core →
    Ends cfg rest o.machine

/-- **Verifications.**  As long as no verification is dropped or lost and no commit is replayed,
the counters are right. -/
theorem verifications_accounted {o : Audited}
    (h : Reachable (Audited.Init cfg) (Audited.Step cfg) (fun o l => Countable cfg o.machine l) o) :
    Accounted cfg o := by
  have hb := balanced_of_reachable h
  exact ⟨hb.handed, fun v rest hv => hb.positive hv, hb.pending,
    fun r rest ht hd => ends_waitVerified hb ht hd⟩

/-! ### A commit that is replayed -/

namespace Example

open Deployment

/-- Replica 1 of three, which replica 0 leads in view 0. -/
def second : Config := replica 3 1 4 8 one_lt_three

/-- The prepare certificate of the proposal `[7]` for the instance 0 of view 0. -/
def sevenPrepared : Certificate Bytes := certificate id 0 (pack 0 0) [7] [0, 2]

/-- A tick in which replica 2 sent a CB message. -/
def tickPeer (index : Nat) (m : Message) (n : Nat) : List Label :=
  .call .tick :: drain 3 ++ .exec { cb := some (index, m) } :: drain n

/-- The commit of replica 2 arrives before the Prepare, and a worker verifies it. -/
def commitFirst : List Label :=
  tickPeer 0 (.commit (some sevenPrepared)) 40 ++ [.startVerification 1, .finishVerification 0]

/-- The verified commit is buffered, and the Prepare replays it. -/
def replaysCommit : List Label :=
  commitFirst ++ .call (.toggleSlowPath true) :: .call .tick :: drain 40 ++
    tickCb 0 (.prepare ⟨0, 0, [7]⟩)

/-- Replica 2 seals its view. -/
def sealsView : List Label := commitFirst ++ tickPeer 1 .sealView 0

end Example

/-- The counter is decremented below 0. -/
theorem verifications_not_accounted :
    ¬ ∀ (cfg : Config) (o : Audited), Reachable (Audited.Init cfg) (Audited.Step cfg) Always o →
        Accounted cfg o := by
  intro h
  obtain ⟨m, hm, hs⟩ : ∃ m, Reachable (Machine.Init Example.second) (Machine.Step Example.second)
      (fun _ _ => True) m ∧ ((m.core.states 1).outstandingCommitVerifications == 2 ^ 64 - 1 &&
        (handed m.core.log 1).length == 1) = true :=
    Machine.exists_reachable Deployment.allKnown Example.replaysCommit (by decide +kernel)
  obtain ⟨n, hn⟩ := Audited.exists_processed hm
  have hc := (h _ _ hn.always).count 1
  rw [Bool.and_eq_true_iff, beq_iff_eq, beq_iff_eq] at hs
  change (m.core.states 1).outstandingCommitVerifications + n 1 = (handed m.core.log 1).length at hc
  rw [hs.1, hs.2] at hc
  omega

/-- While replica 2 seals its view, its commit is counted. -/
theorem verifications_accounted_sealing : ∃ (o : Audited) (rest : List Cmd),
    o.machine.todo = .waitVerified 1 :: rest ∧
      (o.machine.core.states 1).outstandingCommitVerifications = 1 ∧ Accounted Example.second o := by
  obtain ⟨m, hm, hs⟩ : ∃ m, Reachable (Machine.Init Example.second) (Machine.Step Example.second)
      (Countable Example.second) m ∧ (decide (m.todo.head? = some (.waitVerified 1)) &&
        (m.core.states 1).outstandingCommitVerifications == 1) = true :=
    Machine.exists_reachable Deployment.allKnown Example.sealsView (by decide +kernel)
  obtain ⟨ht, ho⟩ := Bool.and_eq_true_iff.mp hs
  obtain ⟨rest, ht⟩ := List.head?_eq_some_iff.mp (of_decide_eq_true ht)
  obtain ⟨n, hn⟩ := Audited.exists_processed hm
  exact ⟨⟨m, n⟩, rest, ht, beq_iff_eq.mp ho, verifications_accounted hn⟩

end Ubft.Consensus
