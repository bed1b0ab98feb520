import Ubft.Consensus.Proposals
import Ubft.Consensus.Slack
import Ubft.Consensus.Verifications

/-!
# Consensus — the view changes of a leader

`pollVcStateCertificates` forgets the view change it finishes, and `handleSealView` starts one
whenever none is ongoing from the same view or a later one.  A SealView handled after the NewView
starts the view change again (`finished_reopens`), and no quorum of certificates is left to finish
it.  In a run without such a SealView, what is finished stays so (`finished_stays`).
-/

namespace Ubft.Consensus

open Certifier (Certificate)

variable {cfg : Config} {s s' : Consensus} {inp : Input}

/-- `canPropose`. -/
def CanPropose (cfg : Config) (s : Consensus) : Prop :=
  cfg.leader (s.own cfg).atView = cfg.localId ∧ s.ongoingViewChange = none

/-! ### The NewViews of a replica -/

/-- The NewView that the event tells was broadcast. -/
def Event.newView? : Event → Option NewViewMessage
  | .broadcast _ _ (.newView nv) => some nv
  | _ => none

/-- The NewView that the command will broadcast. -/
def Cmd.newView? : Cmd → Option NewViewMessage
  | .broadcast (.newView nv) => some nv
  | _ => none

/-- The NewViews that the replica broadcast, the latest first. -/
def newViews (s : Consensus) : List NewViewMessage := s.log.filterMap Event.newView?

/-- With those that wait for the slack. -/
def issued (m : Machine) : List NewViewMessage :=
  m.todo.filterMap Cmd.newView? ++ newViews m.core

theorem newViews_eq (s : Consensus) : newViews s = s.progress.marks.filterMap Event.newView? := by
  refine Eq.symm ((List.filterMap_filter ..).trans (List.filterMap_congr fun e _ => ?_))
  cases e with
  | broadcast v i m => rfl
  | decided i b => rfl
  | _ => rfl

theorem newViews_of_progress (h : s'.progress = s.progress) : newViews s' = newViews s := by
  rw [newViews_eq, newViews_eq, h]

theorem newViews_broadcast {m : Message} {cs : List Cmd} (h : broadcast cfg s m = .ok (s', cs)) :
    newViews s' = (Cmd.broadcast m).newView?.toList ++ newViews s := by
  rw [newViews_of_progress (progress_handleCbMessage h)]
  cases m with
  | newView nv => rfl
  | _ => rfl

/-- A NewView is broadcast by the command that says so. -/
theorem newViews_exec {c : Cmd} {cs : List Cmd} (h : exec cfg s inp c = .ok (s', cs)) :
    newViews s' = c.newView?.toList ++ newViews s := by
  have heq : s'.progress.marks = s.progress.marks → newViews s' = newViews s := by
    intro hm
    rw [newViews_eq, newViews_eq, hm]
  cases c with
  | broadcast m => exact newViews_broadcast h
  | proposeNext =>
      simp only [exec, proposeNext] at h
      split at h
      · cases h; rfl
      · exact newViews_broadcast h
  | _ => exact heq ((exec_advances h).marks (by rintro _ ⟨⟩) (by rintro ⟨⟩))

/-- Only `pollVcStateCertificates` builds a NewView. -/
theorem Leads.newView?_eq_none {c c' : Cmd} (h : Leads cfg c c') (hc : c ≠ .pollVcStateCertificates) :
    c'.newView? = none := by
  cases h with
  | delivers _ hd h => cases hd.delivered h <;> rfl
  | newView nv => exact absurd rfl hc
  | _ => rfl

theorem issued_exec {c : Cmd} {cs rest : List Cmd} (h : exec cfg s inp c = .ok (s', cs))
    (hc : c ≠ .pollVcStateCertificates) :
    issued ⟨s', cs ++ rest⟩ ⊆ issued ⟨s, c :: rest⟩ := by
  have hcs : cs.filterMap Cmd.newView? = [] :=
    List.filterMap_eq_nil_iff.mpr fun c' hc' =>
      (leads_of_spawns (exec_spawns h) hc').newView?_eq_none hc
  intro nv hn
  simp only [issued, List.filterMap_append, hcs, List.nil_append, newViews_exec h,
    List.mem_append] at hn
  rw [issued, List.filterMap_cons]
  cases hv : c.newView? with
  | none =>
      rw [hv] at hn
      rcases hn with hn | hn | hn
      · exact List.mem_append_left _ hn
      · cases hn
      · exact List.mem_append_right _ hn
  | some nv' =>
      rw [hv] at hn
      rcases hn with hn | hn | hn
      · exact List.mem_append_left _ (List.mem_cons_of_mem _ hn)
      · exact List.mem_append_left _ (List.mem_singleton.mp hn ▸ List.mem_cons_self)
      · exact List.mem_append_right _ hn

/-! ### What is finished -/

/-- The SealView of `r` comes in time for the NewView: the view change it starts, if any, is not
from before the view of the NewView, and the replica is not in that view, nor enters it. -/
def InTime (cfg : Config) (s : Consensus) (r : Nat) (nv : NewViewMessage) : Prop :=
  (r = cfg.localIndex → (s.own cfg).atView + 1 ≠ nv.view) ∧
    (Starts cfg s.ongoingViewChange (s.states r).atView →
      nv.view ≤ (s.states r).atView ∧ (r ≠ cfg.localIndex → (s.own cfg).atView ≠ nv.view))

instance (s : Consensus) (r : Nat) (nv : NewViewMessage) : Decidable (InTime cfg s r nv) :=
  inferInstanceAs (Decidable (_ ∧ _))

/-- The SealViews handled come in time for the NewViews issued. -/
def Timely (cfg : Config) (m : Machine) : Label → Prop
  | .exec _ =>
    match m.todo with
    | .sealView r :: _ => ∀ nv ∈ issued m, InTime cfg m.core r nv
    | _ => True
  | _ => True

/-- The replica whose SealView a step handles. -/
def sealing (m : Machine) : Label → Option Nat
  | .exec _ =>
    match m.todo with
    | .sealView r :: _ => some r
    | _ => none
  | _ => none

theorem timely_iff (cfg : Config) (m : Machine) (l : Label) :
    (∀ r ∈ sealing m l, ∀ nv ∈ issued m, InTime cfg m.core r nv) ↔ Timely cfg m l := by
  unfold Timely sealing
  split
  · split
    · exact ⟨fun h => h _ rfl, fun h r hr => Option.some.inj hr ▸ h⟩
    · exact ⟨fun _ => trivial, by rintro _ r ⟨⟩⟩
  · exact ⟨fun _ => trivial, by rintro _ r ⟨⟩⟩

instance (m : Machine) (l : Label) : Decidable (Timely cfg m l) :=
  decidable_of_iff _ (timely_iff cfg m l)

/-- What the replica knows of its view change and of the NewViews it issued. -/
structure Finished (cfg : Config) (s : Consensus) (nvs : List NewViewMessage) : Prop where
  leads : ∀ vc ∈ s.ongoingViewChange, cfg.localId = cfg.leader (vc.view + 1)
  leader : ∀ nv ∈ nvs, cfg.localId = cfg.leader nv.view
  newer : ∀ nv ∈ nvs, ∀ vc ∈ s.ongoingViewChange, nv.view ≤ vc.view
  idle : ∀ nv ∈ nvs, (s.own cfg).atView = nv.view → s.ongoingViewChange = none

namespace Finished

variable {nvs nvs' : List NewViewMessage}

theorem of_eq (h : Finished cfg s nvs) (ho : s'.ongoingViewChange = s.ongoingViewChange)
    (ha : (s'.own cfg).atView = (s.own cfg).atView) (hn : nvs' ⊆ nvs) : Finished cfg s' nvs' := by
  refine ⟨fun vc hvc => ?_, fun nv hv => h.leader nv (hn hv), fun nv hv vc hvc => ?_,
    fun nv hv he => ?_⟩
  · exact h.leads vc (ho ▸ hvc)
  · exact h.newer nv (hn hv) vc (ho ▸ hvc)
  · rw [ho]
    exact h.idle nv (hn hv) (ha ▸ he)

/-- The certificates collected do not change the view that is left. -/
theorem collects (h : Finished cfg s nvs) {vc vc' : ViewChangeState}
    (hvc : s.ongoingViewChange = some vc) (hv : vc'.view = vc.view)
    (ho : s'.ongoingViewChange = some vc') (ha : (s'.own cfg).atView = (s.own cfg).atView)
    (hn : nvs' ⊆ nvs) : Finished cfg s' nvs' := by
  refine ⟨fun x hx => ?_, fun nv hnv => h.leader nv (hn hnv), fun nv hnv x hx => ?_,
    fun nv hnv he => ?_⟩
  · obtain rfl : vc' = x := Option.some.inj (ho.symm.trans hx)
    rw [hv]
    exact h.leads vc hvc
  · obtain rfl : vc' = x := Option.some.inj (ho.symm.trans hx)
    rw [hv]
    exact h.newer nv (hn hnv) vc hvc
  · have hnone := h.idle nv (hn hnv) (ha ▸ he)
    rw [hvc] at hnone
    cases hnone

/-- The view change that makes the NewView is over. -/
theorem builds (h : Finished cfg s nvs) {vc : ViewChangeState} {nv : NewViewMessage}
    (hvc : s.ongoingViewChange = some vc) (hv : nv.view = vc.view + 1)
    (ho : s'.ongoingViewChange = none) (hn : ∀ nv' ∈ nvs', nv' = nv ∨ nv' ∈ nvs) :
    Finished cfg s' nvs' := by
  refine ⟨fun x hx => ?_, fun nv' hnv' => ?_, fun nv' _ x hx => ?_, fun _ _ _ => ho⟩
  · rw [ho] at hx; cases hx
  · rcases hn nv' hnv' with rfl | hnv'
    · rw [hv]
      exact h.leads vc hvc
    · exact h.leader nv' hnv'
  · rw [ho] at hx; cases hx

/-- A SealView in time leaves what is finished alone. -/
theorem seals (h : Finished cfg s nvs) {r : Nat} (hx : sealView cfg s r = .ok s')
    (ht : ∀ nv ∈ nvs, InTime cfg s r nv) (hn : nvs' ⊆ nvs) : Finished cfg s' nvs' := by
  have ho := congrArg Proposals.viewChange (proposals_sealView hx)
  by_cases hs : Starts cfg s.ongoingViewChange (s.states r).atView
  · rw [if_pos hs] at ho
    change s'.ongoingViewChange = some _ at ho
    refine ⟨fun vc hvc => ?_, fun nv hv => h.leader nv (hn hv), fun nv hv vc hvc => ?_,
      fun nv hv he => ?_⟩
    · rw [ho] at hvc
      cases hvc
      exact hs.1
    · rw [ho] at hvc
      cases hvc
      exact ((ht nv (hn hv)).2 hs).1
    · obtain ⟨hown, hstart⟩ := ht nv (hn hv)
      by_cases hr : r = cfg.localIndex
      · subst hr
        exact absurd ((seals_sealView hx).atView.symm.trans he) (hown rfl)
      · exact absurd ((keeps_sealView hr hx).atView.symm.trans he) ((hstart hs).2 hr)
  · rw [if_neg hs] at ho
    change s'.ongoingViewChange = s.ongoingViewChange at ho
    by_cases hr : r = cfg.localIndex
    · subst hr
      refine ⟨fun vc hvc => h.leads vc (ho ▸ hvc), fun nv hv => h.leader nv (hn hv),
        fun nv hv vc hvc => h.newer nv (hn hv) vc (ho ▸ hvc), fun nv hv he => ?_⟩
      exact absurd ((seals_sealView hx).atView.symm.trans he) ((ht nv (hn hv)).1 rfl)
    · exact h.of_eq ho (keeps_sealView hr hx).atView hn

end Finished

theorem finished_exec {c : Cmd} {cs rest : List Cmd} (h : exec cfg s inp c = .ok (s', cs))
    (hf : Finished cfg s (issued ⟨s, c :: rest⟩))
    (ht : Timely cfg ⟨s, c :: rest⟩ (.exec inp)) :
    Finished cfg s' (issued ⟨s', cs ++ rest⟩) := by
  by_cases hc : ∃ r, c = .sealView r
  · obtain ⟨r, rfl⟩ := hc
    exact hf.seals (pure_eq_ok h).1 ht (issued_exec h nofun)
  have ha := atView_exec h fun he => hc ⟨_, he⟩
  have hp := exec_proposes h
  generalize hx : s'.proposals = x at hp
  have ho := congrArg Proposals.viewChange hx
  change s'.ongoingViewChange = x.viewChange at ho
  by_cases hb : c = .pollVcStateCertificates
  · subst hb
    have hn : newViews s' = newViews s := newViews_exec h
    cases hp with
    | stays _ hv _ _ =>
        obtain rfl := hv rfl
        refine hf.of_eq ho ha ?_
        rw [issued, hn]
        exact fun _ h => h
    | collects hvc hv =>
        refine hf.collects hvc hv ho ha ?_
        rw [issued, hn]
        exact fun _ h => h
    | @builds vc nv hvc hv _ =>
        refine hf.builds hvc hv ho fun nv' hnv' => ?_
        rw [issued, hn] at hnv'
        exact List.mem_cons.mp hnv'
  · refine hf.of_eq (ho.trans (hp.viewChange (fun r he => hc ⟨r, he⟩) hb)) ha ?_
    exact issued_exec h hb

/-- A call of the application issues no NewView, and leaves the view change alone. -/
theorem finished_call {c : Call} {cs : List Cmd} (h : call cfg s c = .ok (s', cs))
    (hf : Finished cfg s (issued ⟨s, []⟩)) : Finished cfg s' (issued ⟨s', cs⟩) := by
  have ho : s'.ongoingViewChange = s.ongoingViewChange := by
    rcases proposals_call h with hp | ⟨b, -, hp⟩
    · exact congrArg Proposals.viewChange hp
    · exact congrArg Proposals.viewChange hp
  have hv : newViews s' = newViews s := by
    rcases progress_call h with hp | ⟨d, -, -, -, hp⟩
    · exact newViews_of_progress hp
    · rw [newViews_eq, newViews_eq, hp]
      rfl
  have hcs : cs.filterMap Cmd.newView? = [] := by
    refine List.filterMap_eq_nil_iff.mpr fun a ha => ?_
    cases called_of_call h ha <;> rfl
  refine hf.of_eq ho (keeps_call h).atView fun nv hn => ?_
  rw [issued, hcs, hv] at hn
  exact hn

/-- **A finished view change.**  In a run in which the SealViews come in time for the NewViews,
the replica does not change views from before a view whose NewView it broadcast, and may propose
while it is in that view. -/
theorem finished_stays {m : Machine}
    (h : Reachable (Machine.Init cfg) (Machine.Step cfg) (Timely cfg) m) {nv : NewViewMessage}
    (hn : nv ∈ newViews m.core) :
    (∀ vc ∈ m.core.ongoingViewChange, nv.view ≤ vc.view) ∧
      ((m.core.own cfg).atView = nv.view → CanPropose cfg m.core) := by
  have hf : Finished cfg m.core (issued m) := by
    refine h.induct (P := fun m => Finished cfg m.core (issued m)) (fun m hm => ?_)
      fun m l m' _ hf ht hs => ?_
    · obtain ⟨requestLog, rfl⟩ := hm
      exact ⟨nofun, nofun, nofun, nofun⟩
    · obtain ⟨core, todo⟩ := m
      rcases Machine.step_cases hs with ⟨c, s, cs, -, rfl, hc, rfl⟩ |
        ⟨inp, c, rest, s, cs, rfl, rfl, he, rfl⟩ | ⟨s, hb, rfl⟩
      · exact finished_call hc hf
      · exact finished_exec he hf ht
      · obtain ⟨_, _, _, _, _, _, _, _, rfl, -⟩ := background_cases hb
        exact hf.of_eq rfl rfl fun _ h => h
  have hi : nv ∈ issued m := List.mem_append_right _ hn
  refine ⟨hf.newer nv hi, fun ha => ⟨?_, hf.idle nv hi ha⟩⟩
  rw [ha]
  exact (hf.leader nv hi).symm

/-! ### A SealView that comes late -/

namespace Example

open Deployment

/-- The peer of rank `p` certifies the state in which the replica of rank `r` left view 0. -/
def certifyState (r : Nat) (state : SerializedState) (p : Nat) : List Label :=
  [.handleShare ⟨0, signature (second.idOf p)
      (hash encodeState (second.vcStateIdentifier (second.idOf r)) 0 state)⟩ p,
    .startCheck p, .finishCheck 0, .pollVerifiedShare].map (.vcStateCertifier r)

/-- Replica 1, which leads view 1, and replica 0 leave view 0; both peers certify the two states,
and up to `n` commands of a tick are executed. -/
def finishes (n : Nat) : List Label :=
  .call (.toggleSlowPath true) :: .call .changeView :: drain 30 ++ tickCb 0 .sealView ++
    [2, 0].flatMap (fun r => [0, 1].flatMap (certifyState r (emptyState 0))) ++
    .call .tick :: drain n

/-- Then replica 2 leaves view 0 too. -/
def restarts : List Label := finishes 60 ++ tickPeer 0 .sealView 40

/-- Replica 1 broadcast the NewView of view 1, and is in that view. -/
def led (m : Machine) : Bool :=
  (newViews m.core).any (fun nv => nv.view == 1) && (m.core.own second).atView == 1

theorem led_cases {m : Machine} (h : led m = true) :
    ∃ nv ∈ newViews m.core, nv.view = 1 ∧ (m.core.own second).atView = 1 := by
  obtain ⟨hn, ha⟩ := Bool.and_eq_true_iff.mp h
  obtain ⟨nv, hnv, hv⟩ := List.any_eq_true.mp hn
  exact ⟨nv, hnv, beq_iff_eq.mp hv, beq_iff_eq.mp ha⟩

end Example

/-- The last replica to leave view 0 makes the leader change views again, in view 1. -/
theorem finished_reopens :
    ¬ ∀ (cfg : Config) (m : Machine), Reachable (Machine.Init cfg) (Machine.Step cfg) Always m →
        ∀ nv ∈ newViews m.core, (∀ vc ∈ m.core.ongoingViewChange, nv.view ≤ vc.view) ∧
          ((m.core.own cfg).atView = nv.view → CanPropose cfg m.core) := by
  intro h
  obtain ⟨m, hm, hs⟩ : ∃ m, Reachable (Machine.Init Example.second) (Machine.Step Example.second)
      (fun _ _ => True) m ∧ (Example.led m &&
        m.core.ongoingViewChange.any (fun vc => vc.view == 0)) = true :=
    Machine.exists_reachable Deployment.allKnown Example.restarts (by decide +kernel)
  obtain ⟨hl, ho⟩ := Bool.and_eq_true_iff.mp hs
  obtain ⟨nv, hn, hv, -⟩ := Example.led_cases hl
  obtain ⟨vc, hvc, hz⟩ := (Option.any_eq_true ..).mp ho
  have hle := (h _ m hm.always nv hn).1 vc hvc
  rw [hv, beq_iff_eq.mp hz] at hle
  exact absurd hle (by decide)

/-- Before, it may propose. -/
theorem finished_stays_led : ∃ (m : Machine) (nv : NewViewMessage), nv ∈ newViews m.core ∧
    nv.view = 1 ∧ CanPropose Example.second m.core := by
  obtain ⟨m, hm, hs⟩ : ∃ m, Reachable (Machine.Init Example.second) (Machine.Step Example.second)
      (Timely Example.second) m ∧ Example.led m = true :=
    Machine.exists_reachable Deployment.allKnown (Example.finishes 60) (by decide +kernel)
  obtain ⟨nv, hn, hv, ha⟩ := Example.led_cases hs
  exact ⟨m, nv, hn, hv, (finished_stays hm hn).2 (ha.trans hv.symm)⟩

end Ubft.Consensus
