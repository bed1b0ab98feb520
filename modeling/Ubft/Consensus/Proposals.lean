import Ubft.Consensus.Checkpoints

/-!
# Consensus — the proposals of a replica

What a command does to the proposals and to the view change of a replica (`exec_proposes`).  At
most one of the commands that propose is pending at a time, with what it has just led to
(`proposing_of_reachable`), so that nothing else touches the queue while it is emptied.
-/

namespace Ubft.Consensus

open Certifier (Certificate)

variable {cfg : Config} {s s' : Consensus} {inp : Input}

/-! ### What a command does to the proposals -/

/-- The test of `handleSealView`: the replica leads the view after `view`, and is not changing
views from `view` or from a later one. -/
def Starts (cfg : Config) (ongoing : Option ViewChangeState) (view : Nat) : Prop :=
  cfg.localId = cfg.leader (view + 1) ∧ ∀ vc ∈ ongoing, vc.view < view

instance (ongoing : Option ViewChangeState) (view : Nat) : Decidable (Starts cfg ongoing view) :=
  inferInstanceAs (Decidable (_ ∧ ∀ vc ∈ ongoing, _))

/-- The commands that fill the queue of proposals or empty it. -/
def Cmd.proposing : Cmd → Bool
  | .pollVcStateCertificates | .repropose | .propose | .proposeLoop | .proposeNext => true
  | _ => false

/-- What a command does to the proposals, and what it leads to. -/
inductive Proposes (cfg : Config) (s : Consensus) : Cmd → Proposals → List Cmd → Prop where
  | stays {c : Cmd} {cs : List Cmd} (hl : c = .proposeLoop → cs = [])
      (hv : c = .pollVcStateCertificates → cs = []) (hn : c = .proposeNext → s.toPropose = [])
      (hr : c ≠ .repropose) : Proposes cfg s c s.proposals cs
  | starts {r : Nat} (cs : List Cmd) (h : Starts cfg s.ongoingViewChange (s.states r).atView) :
      Proposes cfg s (.sealView r)
        { s.proposals with viewChange := some { view := (s.states r).atView } } cs
  | collects {vc vc' : ViewChangeState} (h : s.ongoingViewChange = some vc)
      (hv : vc'.view = vc.view) : Proposes cfg s .pollVcStateCertificates
        { s.proposals with viewChange := some vc' } []
  | builds {vc : ViewChangeState} {nv : NewViewMessage} (h : s.ongoingViewChange = some vc)
      (hv : nv.view = vc.view + 1) (hq : nv.vcCertificates.length = cfg.quorum) :
      Proposes cfg s .pollVcStateCertificates { s.proposals with viewChange := none }
        [.waitForCbSlack, .broadcast (.newView nv), .repropose]
  | reproposes {s' : Consensus} {cs : List Cmd} (h : repropose cfg s = .ok (s', cs)) :
      Proposes cfg s .repropose s'.proposals cs
  | loop (hp : s.toPropose ≠ []) : Proposes cfg s .proposeLoop
      { s.proposals with proposed := s.proposed + 1 } [.waitForCbSlack, .proposeNext, .proposeLoop]
  | next {p : PrepareMessage} {rest : List PrepareMessage} (cs : List Cmd)
      (hp : s.toPropose = p :: rest) :
      Proposes cfg s .proposeNext { s.proposals with toPropose := rest } cs

/-- A view change starts unless a later one is going on. -/
theorem proposals_startViewChange (s : Consensus) (v : Nat) :
    (startViewChange cfg s v).proposals =
      if Starts cfg s.ongoingViewChange v then
        { s.proposals with viewChange := some { view := v } } else s.proposals := by
  by_cases h : Starts cfg s.ongoingViewChange v
  · rw [if_pos h]
    exact congrArg proposals (if_pos h)
  · rw [if_neg h]
    exact congrArg proposals (if_neg h)

theorem proposals_handleCheckpointCertificate (s : Consensus) (c : Certificate Checkpoint) :
    (s.handleCheckpointCertificate c).proposals = s.proposals := by
  unfold handleCheckpointCertificate
  split <;> rfl

theorem proposals_handleMessage {r : Nat} {m : Message} {cs : List Cmd}
    (h : handleMessage cfg s r m = .ok (s', cs)) : s'.proposals = s.proposals := by
  cases m with
  | checkpoint o =>
      obtain ⟨c, -, -, -, rfl⟩ := handleCheckpoint_cases (pure_eq_ok h).1
      exact proposals_handleCheckpointCertificate _ c
  | _ => exact (frame_handleMessage h fun _ => nofun).proposals

theorem proposals_handleCbMessage {r i : Nat} {m : Message} {cs : List Cmd}
    (h : handleCbMessage cfg s r i m = .ok (s', cs)) : s'.proposals = s.proposals := by
  rcases handleCbMessage_cases h with ⟨rfl, -⟩ | ⟨-, cs₀, hm, -⟩
  · rfl
  · rw [proposals_handleMessage hm]
    rfl

/-- Sealing may start a view change, and proposes nothing. -/
theorem proposals_sealView {r : Nat} (h : sealView cfg s r = .ok s') :
    s'.proposals = if Starts cfg s.ongoingViewChange (s.states r).atView then
      { s.proposals with viewChange := some { view := (s.states r).atView } }
    else s.proposals := by
  obtain ⟨c, -, rfl⟩ := sealView_cases h
  exact proposals_startViewChange _ _

/-- **What a command does to the proposals.** -/
theorem exec_proposes {c : Cmd} {cs : List Cmd} (h : exec cfg s inp c = .ok (s', cs)) :
    Proposes cfg s c s'.proposals cs := by
  have heq : s'.proposals = s.proposals → c.proposing = false →
      Proposes cfg s c s'.proposals cs := by
    intro he hc
    rw [he]
    refine .stays ?_ ?_ ?_ ?_
    all_goals
      rintro rfl
      cases hc
  cases c with
  | pollCheckpointCertificate =>
      cases h
      refine heq ?_ rfl
      rcases pollCheckpointCertificate_eq cfg s with he | ⟨c, -, he⟩
      · rw [he]; rfl
      · rw [he, proposals_handleCheckpointCertificate]; rfl
  | broadcastCheckpointCertificate force =>
      simp only [exec, broadcastCheckpointCertificate] at h
      split at h
      · cases h; exact heq rfl rfl
      · split at h
        · cases h; exact heq rfl rfl
        · cases h; exact heq rfl rfl
  | pollCb r =>
      simp only [exec, pollCb] at h
      split at h
      · cases h; exact heq rfl rfl
      · exact heq (proposals_handleCbMessage h) rfl
  | broadcast m =>
      have hp := proposals_handleCbMessage h
      exact heq hp rfl
  | certifyCbCheckpoint r =>
      obtain ⟨c, -, h⟩ := bind_eq_ok.mp (pure_eq_ok h).1
      cases h
      exact heq rfl rfl
  | pollCbCheckpointCertificate =>
      cases h
      obtain ⟨cs, n, he⟩ := pollCbCheckpointCertificate_cases cfg s
      exact heq ((congrArg proposals he).trans rfl) rfl
  | sealView r =>
      rw [proposals_sealView (pure_eq_ok h).1]
      split
      · next hv => exact .starts cs hv
      · exact .stays (by rintro ⟨⟩) (by rintro ⟨⟩) (by rintro ⟨⟩) (by rintro ⟨⟩)
  | pollVcStateCertificates =>
      simp only [exec, pollVcStateCertificates] at h
      split at h
      · cases h; exact .stays (by rintro ⟨⟩) (fun _ => rfl) (by rintro ⟨⟩) (by rintro ⟨⟩)
      · next vc hvc =>
          obtain ⟨cs', ⟨vc', hv, he⟩ | ⟨nv, hv, hq, he⟩⟩ :=
            pollVcStates_cases cfg s vc (List.range cfg.ids.length)
          · rw [he] at h
            cases h
            exact .collects hvc hv
          · rw [he] at h
            cases h
            exact .builds hvc hv hq
  | repropose => exact .reproposes h
  | proposeLoop =>
      simp only [exec, proposeLoop] at h
      split at h
      · cases h; exact .stays (fun _ => rfl) (by rintro ⟨⟩) (by rintro ⟨⟩) (by rintro ⟨⟩)
      · next hp => cases h; exact .loop fun he => hp (.inl he)
  | proposeNext =>
      simp only [exec, proposeNext] at h
      split at h
      · next hp => cases h; exact .stays (by rintro ⟨⟩) (by rintro ⟨⟩) (fun _ => hp) (by rintro ⟨⟩)
      · next p rest hp =>
          have he : s'.proposals = { s.proposals with toPropose := rest } :=
            proposals_handleCbMessage h
          rw [he]
          exact .next cs hp
  | propose =>
      cases h
      exact .stays (by rintro ⟨⟩) (by rintro ⟨⟩) (by rintro ⟨⟩) (by rintro ⟨⟩)
  | _ => exact heq (exec_frame h rfl).proposals rfl

/-- A view change is started by a SealView, and ends when its certificates are polled. -/
theorem Proposes.viewChange {c : Cmd} {x : Proposals} {cs : List Cmd}
    (h : Proposes cfg s c x cs) (hs : ∀ r, c ≠ .sealView r) (hv : c ≠ .pollVcStateCertificates) :
    x.viewChange = s.ongoingViewChange := by
  cases h with
  | stays => rfl
  | starts _ _ => exact absurd rfl (hs _)
  | collects _ _ => exact absurd rfl hv
  | builds _ _ _ => exact absurd rfl hv
  | reproposes hx => obtain ⟨ps, n, k, rfl⟩ := repropose_cases hx; rfl
  | loop _ => rfl
  | next _ _ => rfl

/-- The application only fills slots. -/
theorem proposals_call {c : Call} {cs : List Cmd} (h : call cfg s c = .ok (s', cs)) :
    s'.proposals = s.proposals ∨ ∃ b, c = .getSlot b ∧ s'.proposals = { s.proposals with
      toPropose := s.toPropose ++ [⟨(s.own cfg).atView, s.nextProposal, b⟩]
      nextProposal := s.nextProposal + 1 } := by
  cases c with
  | tick => cases h; exact .inl rfl
  | propose => cases h; exact .inl rfl
  | changeView => cases h; exact .inl rfl
  | toggleSlowPath b => cases h; exact .inl rfl
  | getSlot b =>
      have hs := (pure_eq_ok h).1
      unfold getSlot at hs
      split at hs
      · cases hs
      · cases hs; exact .inr ⟨b, rfl, rfl⟩
  | pollDecision =>
      have hs := (pure_eq_ok h).1
      unfold pollDecision at hs
      split at hs
      · cases hs; exact .inl rfl
      · split at hs
        · split at hs
          · cases hs; exact .inl rfl
          · cases hs
        · cases hs; exact .inl rfl
  | triggerCheckpoint i d =>
      obtain ⟨c, cc, rfl⟩ := triggerCheckpoint_cases (pure_eq_ok h).1
      exact .inl rfl

/-! ### The commands that propose -/

/-- What is pending of them: one of them at most, `propose` in two parts. -/
inductive Proposing : List Cmd → Prop where
  | none : Proposing []
  | poll : Proposing [.pollVcStateCertificates]
  | refill : Proposing [.repropose]
  | propose : Proposing [.propose]
  | loop : Proposing [.proposeLoop]
  | next : Proposing [.proposeNext, .proposeLoop]

/-- Only those that propose lead to one that does. -/
theorem Leads.proposing {c c' : Cmd} (h : Leads cfg c c') (hc : c.proposing = false) :
    c'.proposing = false := by
  cases h with
  | delivers _ hd h => cases hd.delivered h <;> rfl
  | _ => first | rfl | cases hc

/-- Only a proposing command leads to another. -/
theorem filter_proposing_spawned {c : Cmd} {cs : List Cmd} (h : exec cfg s inp c = .ok (s', cs))
    (hc : c.proposing = false) : cs.filter Cmd.proposing = [] := by
  refine List.filter_eq_nil_iff.mpr fun c' hc' => ?_
  rw [(leads_of_spawns (exec_spawns h) hc').proposing hc]
  exact Bool.false_ne_true

/-- There is one loop of proposals at a time. -/
theorem proposing_exec {c : Cmd} {cs rest : List Cmd} (h : exec cfg s inp c = .ok (s', cs))
    (hq : Proposing ((c :: rest).filter Cmd.proposing)) :
    Proposing ((cs ++ rest).filter Cmd.proposing) := by
  rw [List.filter_append]
  cases hc : c.proposing with
  | false =>
      rw [List.filter_cons_of_neg (Bool.eq_false_iff.mp hc)] at hq
      rw [filter_proposing_spawned h hc]
      exact hq
  | true =>
      rw [List.filter_cons_of_pos hc] at hq
      generalize hr : rest.filter Cmd.proposing = pending at hq ⊢
      have hs := exec_spawns h
      cases hq with
      | poll =>
          rcases hs with rfl | ⟨nv, rfl⟩
          exacts [.none, .refill]
      | refill =>
          rcases hs with rfl | rfl
          exacts [.none, .propose]
      | propose =>
          rcases hs with rfl | rfl
          exacts [.none, .loop]
      | loop =>
          rcases hs with rfl | rfl
          exacts [.none, .next]
      | next =>
          rcases hs with rfl | ⟨p, hd⟩
          · exact .loop
          · have hcs : cs.filter Cmd.proposing = [] := by
              rcases hd with rfl | ⟨-, rfl⟩ | ⟨-, rfl⟩ | ⟨nv, -, rfl⟩ <;> rfl
            rw [hcs]
            exact .loop

theorem proposing_call {c : Call} {cs : List Cmd} (h : call cfg s c = .ok (s', cs)) :
    Proposing (cs.filter Cmd.proposing) := by
  cases c with
  | tick =>
      cases h
      have hp : ∀ rs : List Nat, (rs.map Cmd.pollCb).filter Cmd.proposing = [] := fun rs =>
        List.filter_eq_nil_iff.mpr (by simp [Cmd.proposing])
      have hf : ∀ rs : List Nat, (rs.map Cmd.pollFastCommit).filter Cmd.proposing = [] := fun rs =>
        List.filter_eq_nil_iff.mpr (by simp [Cmd.proposing])
      simp only [tick, pollCbs, List.filter_append, hp, hf]
      split
      · exact .poll
      · exact .none
  | propose => cases h; exact .propose
  | changeView => cases h; exact .none
  | toggleSlowPath b => cases h; exact .none
  | getSlot b => obtain ⟨-, rfl⟩ := pure_eq_ok h; exact .none
  | pollDecision => obtain ⟨-, rfl⟩ := pure_eq_ok h; exact .none
  | triggerCheckpoint i d => obtain ⟨-, rfl⟩ := pure_eq_ok h; exact .none

theorem Machine.proposing_of_reachable {good : Machine → Label → Prop} {m : Machine}
    (h : Reachable (Init cfg) (Step cfg) good m) : Proposing (m.todo.filter Cmd.proposing) := by
  refine h.induct (P := fun m => Proposing (m.todo.filter Cmd.proposing)) (fun m hm => ?_)
    fun m l m' _ hq _ hs => ?_
  · obtain ⟨requestLog, rfl⟩ := hm
    exact .none
  · rcases step_cases hs with ⟨c, s, cs, -, -, hc, rfl⟩ | ⟨inp, c, rest, s, cs, -, ht, he, rfl⟩ |
      ⟨s, -, rfl⟩
    · exact proposing_call hc
    · rw [ht] at hq
      exact proposing_exec he hq
    · exact hq

end Ubft.Consensus
