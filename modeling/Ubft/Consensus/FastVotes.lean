import Ubft.Consensus.Views

/-!
# Consensus — the votes of the fast path

`pollFastCommits` warns of a FastCommit of another view, "received in wrong view", and counts it
for the instance it names all the same.  As long as none meets an instance prepared in another
view (`VotesMatch`), the votes counted for an instance were sent in the view of its Prepare.
-/

namespace Ubft.Consensus

variable {cfg : Config} {s s' : Consensus} {inp : Input}

/-- The replica `r` sent the FastCommit; those of the peers are polled from their channels. -/
def Sent (cfg : Config) (log : List Event) (r : Nat) (m : FastCommitMessage) : Prop :=
  r = cfg.localIndex ∧ .fastSent m ∈ log ∨ .fastPolled r m ∈ log

theorem Sent.mono {log log' : List Event} {r : Nat} {m : FastCommitMessage}
    (h : Sent cfg log r m) (hl : log ⊆ log') : Sent cfg log' r m := by
  rcases h with ⟨hr, h⟩ | h
  · exact .inl ⟨hr, hl h⟩
  · exact .inr (hl h)

/-- The votes counted for an instance were sent in the view of its Prepare. -/
def Voted (cfg : Config) (s : Consensus) : Prop :=
  ∀ i p f, s.held i = some (p, f) → ∀ r, f.get r = true → Sent cfg s.log r ⟨p.view, i⟩

/-- The FastCommit polled is of the view of the Prepare it is counted for. -/
def FastCommitMatches (m : Machine) : Label → Prop
  | .exec inp =>
    match m.todo, inp.fastCommit with
    | .pollFastCommit _ :: _, some (some fc) =>
      ∀ d ∈ m.core.instanceStates.find? fc.inst, d.prepareMessage.view = fc.view
    | _, _ => True
  | _ => True

instance (m : Machine) (l : Label) : Decidable (FastCommitMatches m l) := by
  unfold FastCommitMatches
  split
  · split <;> infer_instance
  · infer_instance

/-- The view fits an index, and FastCommits are counted for the view they are of. -/
def VotesMatch (cfg : Config) (m : Machine) (l : Label) : Prop :=
  (m.core.own cfg).atView < 2 ^ 16 ∧ FastCommitMatches m l

instance (m : Machine) (l : Label) : Decidable (VotesMatch cfg m l) :=
  inferInstanceAs (Decidable (_ ∧ _))

/-- A step that counts no vote. -/
theorem Voted.shrink (h : Voted cfg s) (hl : s.log ⊆ s'.log)
    (hh : ∀ i p f, s'.held i = some (p, f) → s.held i = some (p, f) ∨ f.bits = []) :
    Voted cfg s' := by
  intro i p f hi r hr
  rcases hh i p f hi with hi | hf
  · exact (h i p f hi r hr).mono hl
  · rw [DynamicBitset.get, hf] at hr
    cases hr

theorem Extends.subset {l l' : List Event} (h : Extends l l') : l ⊆ l' := fun _ he => h.mem he

theorem Voted.stays (h : Voted cfg s) (hk : Stays cfg s s') : Voted cfg s' :=
  h.shrink hk.log.subset fun i _ _ hi => .inl (hk.held i ▸ hi)

/-- No vote is counted for a Prepare that is stored. -/
theorem Voted.accepted {r : Nat} {p : PrepareMessage} (h : Voted cfg s)
    (hx : acceptPrepare cfg s r p = .ok s') : Voted cfg s' := by
  obtain ⟨t, b, s₂, ht, hr, hc⟩ := acceptPrepare_cases hx
  have h₁ : Voted cfg (stored s r p t) := by
    refine h.shrink (List.subset_cons_self ..) fun i q f hi => ?_
    rcases held_stored (r := r) ht i with he | he | ⟨-, he⟩
    · exact .inl (he ▸ hi)
    · rw [he] at hi
      cases hi
    · rw [he] at hi
      cases hi
      exact .inr rfl
  have hk : Keeps cfg (stored s r p t) s₂ := keeps_replayCommits hr
  have h₃ : Voted cfg (s₂.pruneValidValues r p.inst) :=
    (h₁.stays hk.toStays).shrink (List.Subset.refl _) fun _ _ _ hi => .inl hi
  exact h₃.stays (certifies_tryCertifyPrepare hc).toStays

/-- A vote sent in the view of the Prepare is counted. -/
theorem Voted.vote {i r : Nat} (h : Voted cfg s) (hl : s.log ⊆ s'.log)
    (hh : s'.held = (s.modifyInstance i fun d => { d with
      fastCommitted := d.fastCommitted.set r }).held)
    (hs : ∀ p f, s.held i = some (p, f) → Sent cfg s'.log r ⟨p.view, i⟩) : Voted cfg s' := by
  intro j p f hj r' hr'
  rw [hh] at hj
  obtain ⟨f₀, h₀, ⟨rfl, rfl⟩ | ⟨-, rfl⟩⟩ := held_modifyFast (g := fun b => b.set r) hj
  · rcases (DynamicBitset.get_set f₀ r r').mp hr' with rfl | hr'
    · exact hs p f₀ h₀
    · exact (h j p f₀ h₀ r' hr').mono hl
  · exact (h j p f h₀ r' hr').mono hl

theorem held_instanceStates {i : Nat} {p : PrepareMessage} {f : DynamicBitset}
    (h : s.held i = some (p, f)) : ∃ d, s.instanceStates.find? i = some d ∧ d.prepareMessage = p := by
  obtain ⟨d, hd, hp⟩ := Option.map_eq_some_iff.mp h
  cases hp
  exact ⟨d, hd, rfl⟩

/-- **Votes.**  A command counts votes for the view they were sent in. -/
theorem voted_exec {c : Cmd} {cs rest : List Cmd} (h : exec cfg s inp c = .ok (s', cs))
    (hv : Views cfg s (phase cfg (c :: rest)))
    (hg : FastCommitMatches ⟨s, c :: rest⟩ (.exec inp)) (hs : Voted cfg s) : Voted cfg s' := by
  -- only counting a vote adds one
  cases exec_effect h with
  | keeps hk _ _ => exact hs.stays hk.toStays
  | prepare hr _ hx => exact (hs.stays hr.keeps.toStays).accepted hx
  | certify hk => exact hs.stays hk.toStays
  | prune low n =>
      generalize (if n = s.adopted then low else inp.freed) = low'
      refine hs.shrink (List.Subset.refl _) fun i p f hi => ?_
      rw [held_pruneInstances] at hi
      split at hi
      · cases hi
      · exact .inl hi
  | forget => exact fun _ _ _ hi => (nomatch hi)
  | @promise pc k hp =>
      -- the promise is about a message under certification, of the view the replica is in
      obtain ⟨d, hd⟩ := (Certifier.pollPromise_cases s.prepareCertifier).2.2 k (by rw [hp])
      have hk := (hv.keys k d hd).eq nofun
      rcases handlePromise_cases cfg { s with prepareCertifier := pc } k with he | he
      · rw [he]
        exact hs
      · rw [he]
        refine Voted.vote (s := s) hs (List.subset_cons_self ..) rfl fun p f hi => ?_
        have hp := (hv.view _ p f hi).eq nofun
        rw [hp, ← hk]
        exact .inl ⟨rfl, List.mem_cons_self⟩
  | @fastCommit r m _ hi hx =>
      have hs₁ : Voted cfg (s.record (.fastPolled r m)) :=
        hs.shrink (List.subset_cons_self ..) fun _ _ _ hi => .inl hi
      rcases handleFastCommit_cases hx with ⟨rfl, -⟩ | rfl
      · exact hs₁
      · refine hs₁.vote (List.Subset.refl _) rfl fun p f hp => ?_
        obtain ⟨d, hd, rfl⟩ := held_instanceStates hp
        have hm : d.prepareMessage.view = m.view := by
          unfold FastCommitMatches at hg
          simp only [hi] at hg
          exact hg d hd
        rw [hm]
        exact .inr List.mem_cons_self
  | «seal» hx =>
      have hx := seals_sealView hx
      refine hs.shrink (hx.log ▸ List.Subset.refl _) fun i p f hi => .inl ?_
      rwa [held, hx.instances] at hi
  | accept _ hx =>
      obtain ⟨values, -, rfl⟩ := acceptNewView_cases hx
      exact hs.shrink (List.subset_cons_self ..) fun _ _ _ hi => .inl hi

/-- **Fast votes.**  In a run that counts no FastCommit for a Prepare of another view, the votes
of an instance were sent in the view of its Prepare. -/
theorem fastVotes_sound {m : Machine}
    (h : Reachable (Machine.Init cfg) (Machine.Step cfg) (VotesMatch cfg) m) {i : Nat}
    {d : InstanceState} (hd : m.core.instanceStates.find? i = some d) {r : Nat}
    (hr : d.fastCommitted.get r = true) :
    Sent cfg m.core.log r ⟨d.prepareMessage.view, i⟩ := by
  have hs : Voted cfg m.core := by
    refine h.induct (P := fun m => Voted cfg m.core) (fun m hm => ?_)
      fun m l m' hr hs hg hstep => ?_
    · obtain ⟨requestLog, rfl⟩ := hm
      exact fun _ _ _ hi => (nomatch hi)
    · rcases Machine.step_cases hstep with ⟨c, s, cs, -, ht, hc, rfl⟩ |
        ⟨inp, c, rest, s, cs, rfl, ht, he, rfl⟩ | ⟨s, hb, rfl⟩
      · exact hs.stays (keeps_call hc).toStays
      · have hv := Machine.views_of_reachable (fun _ _ hg => hg.1) hr
        obtain ⟨core, todo⟩ := m
        subst ht
        exact voted_exec he hv hg.2 hs
      · exact hs.stays (keeps_background hb).toStays
  exact hs i d.prepareMessage d.fastCommitted (by rw [held, hd]; rfl) r hr

/-! ### A FastCommit that outlives its view -/

namespace Example

open Deployment

/-- Replica 0 follows replica 1 into view 1 and stores its proposal for instance 0; then the
FastCommit of replica 2 for instance 0 of view `view` arrives. -/
def late (view : Nat) : List Label :=
  tickCb 0 .sealView ++ tickCb 1 (.newView sound) ++ tickCb 2 (.prepare ⟨1, 0, [7]⟩) ++
    .call .tick :: drain 6 ++ [.exec { fastCommit := some (some ⟨view, 0⟩) }]

/-- The vote of replica 2 is counted for the proposal of view 1. -/
def counted (m : Machine) : Bool :=
  (m.core.instanceStates.find? 0).any fun d =>
    d.prepareMessage.view = 1 ∧ d.fastCommitted.get 1

theorem counted_cases {m : Machine} (h : counted m = true) :
    ∃ d, m.core.instanceStates.find? 0 = some d ∧ d.prepareMessage.view = 1 ∧
      d.fastCommitted.get 1 = true := by
  obtain ⟨d, hd, hc⟩ := (Option.any_eq_true ..).mp h
  exact ⟨d, hd, of_decide_eq_true hc⟩

/-- Replica 2 is known to have sent a FastCommit for instance 0 of view 1. -/
def promised (m : Machine) : Bool := decide (.fastPolled 1 ⟨1, 0⟩ ∈ m.core.log)

end Example

/-- The FastCommit of view 0 is counted in view 1. -/
theorem fastVotes_unsound :
    ¬ ∀ (cfg : Config) (m : Machine), Reachable (Machine.Init cfg) (Machine.Step cfg) Always m →
        ∀ i d, m.core.instanceStates.find? i = some d → ∀ r, d.fastCommitted.get r = true →
          Sent cfg m.core.log r ⟨d.prepareMessage.view, i⟩ := by
  intro h
  obtain ⟨m, hm, hs⟩ : ∃ m, Reachable (Machine.Init Example.three) (Machine.Step Example.three)
      (fun _ _ => True) m ∧ (Example.counted m && !Example.promised m) = true :=
    Machine.exists_reachable Deployment.allKnown (Example.late 0)
      (by decide +kernel)
  obtain ⟨hc, hp⟩ := Bool.and_eq_true_iff.mp hs
  obtain ⟨d, hd, hv, hr⟩ := Example.counted_cases hc
  rcases h _ m hm.always 0 d hd 1 hr with ⟨hl, -⟩ | hl
  · exact absurd hl (by decide)
  · rw [hv] at hl
    rw [Example.promised, decide_eq_true hl] at hp
    cases hp

/-- The FastCommit of view 1 may be counted. -/
theorem fastVotes_sound_late : ∃ m : Machine, Example.counted m = true ∧
    Sent Example.three m.core.log 1 ⟨1, 0⟩ := by
  obtain ⟨m, hm, hs⟩ : ∃ m, Reachable (Machine.Init Example.three) (Machine.Step Example.three)
      (VotesMatch Example.three) m ∧ Example.counted m = true :=
    Machine.exists_reachable Deployment.allKnown (Example.late 1)
      (by decide +kernel)
  obtain ⟨d, hd, hv, hr⟩ := Example.counted_cases hs
  have h := fastVotes_sound hm hd hr
  rw [hv] at h
  exact ⟨m, hs, h⟩

end Ubft.Consensus
