import Ubft.Consensus.Prepares
import Ubft.Consensus.Slack

/-!
# Consensus — the instances decided and forgotten

Instances are decided in order, each once.  "Having sent a new checkpoint, we forget about decided
instances": what is forgotten is what lies below the checkpoint, which others may certify while
the replica still has to decide.  As long as no checkpoint above `next_to_decide` is pruned, and
no Prepare is stored a window above it (`Retains`), nothing is forgotten that is not decided
(`forgotten_decided`).
-/

namespace Ubft.Consensus

variable {cfg : Config} {s s' : Consensus} {inp : Input} {ph ph' : Phase}

/-! ### The condition -/

/-- The bound below which a step prunes the instances. -/
def pruning (m : Machine) : Label → Option Nat
  | .exec inp =>
    match m.todo with
    | .pruneInstances low n :: _ => some (if n = m.core.adopted then low else inp.freed)
    | _ => none
  | _ => none

/-- What is pruned is decided, and a Prepare stored is less than a window ahead. -/
def Retains (cfg : Config) (m : Machine) (l : Label) : Prop :=
  (∀ low ∈ pruning m l, low ≤ m.core.nextToDecide) ∧
    ∀ rp ∈ preparing cfg m l, rp.2.view = (m.core.own cfg).atView →
      rp.2.inst < m.core.nextToDecide + cfg.window

instance (m : Machine) (l : Label) : Decidable (Retains cfg m l) :=
  inferInstanceAs (Decidable ((∀ low ∈ pruning m l, _) ∧ ∀ rp ∈ preparing cfg m l, _))

/-- A step removes an instance, and is not the one in which a view that ended is forgotten. -/
def Forgets (m m' : Machine) (i : Nat) : Prop :=
  (m.core.instanceStates.find? i).isSome ∧ m'.core.instanceStates.find? i = none ∧
    m.todo.head? ≠ some .forgetView

/-- The instances decided, the latest first. -/
def decisions (log : List Event) : List Nat :=
  log.filterMap fun
    | .decided i _ => some i
    | _ => none

/-- Instances are decided in order, each once; those removed within a view are decided, and so
are those stored in the view that are not held any more. -/
def Remembers (cfg : Config) (good : Machine → Label → Prop) (m : Machine) : Prop :=
  (decisions m.core.log).reverse = List.range m.core.nextToDecide ∧
  (∀ l m' i, good m l → m.Step cfg l m' → Forgets m m' i → i < m.core.nextToDecide) ∧
  ∀ r p, .stored r p ∈ m.core.log → p.view = (m.core.own cfg).atView →
    m.core.nextToDecide ≤ p.inst → (m.core.instanceStates.find? p.inst).isSome

theorem isSome_held (s : Consensus) (i : Nat) :
    (s.held i).isSome = (s.instanceStates.find? i).isSome := Option.isSome_map

/-! ### Decisions -/

/-- What `pollDecision` returns: the instance and its batch. -/
def decision (s : Consensus) : Option (Nat × Bytes) :=
  match s.instanceStates.find? s.nextToDecide with
  | none => none
  | some d => if d.decidable then some (s.nextToDecide, d.prepareMessage.data) else none

/-- The decisions with their batches, the first one first. -/
def decided (log : List Event) : List (Nat × Bytes) :=
  (log.filterMap fun
    | .decided i batch => some (i, batch)
    | _ => none).reverse

theorem decided_cons (i : Nat) (batch : Bytes) (log : List Event) :
    decided (.decided i batch :: log) = decided log ++ [(i, batch)] := List.reverse_cons

/-- The instances decided, in order. -/
theorem map_fst_decided (log : List Event) :
    (decided log).map Prod.fst = (decisions log).reverse := by
  rw [decided, List.map_reverse, List.map_filterMap]
  refine congrArg (fun f => (log.filterMap f).reverse) (funext fun e => ?_)
  cases e <;> rfl

/-- The decisions are among the marks of the progress. -/
theorem decided_eq (s : Consensus) : decided s.log = decided s.progress.marks := by
  change _ = List.reverse (List.filterMap _ (s.log.filter Event.marks))
  rw [List.filterMap_filter]
  refine congrArg (fun f => (s.log.filterMap f).reverse) (funext fun e => ?_)
  cases e <;> rfl

/-- A command decides nothing. -/
theorem decided_exec {c : Cmd} {cs : List Cmd} (h : exec cfg s inp c = .ok (s', cs)) :
    decided s'.log = decided s.log ∧ s'.nextToDecide = s.nextToDecide := by
  have ha := exec_advances h
  rw [decided_eq, decided_eq s]
  change _ ∧ s'.progress.nextToDecide = _
  generalize s'.progress = p at ha ⊢
  cases ha with
  | stays => exact ⟨rfl, rfl⟩
  | broadcast msg _ => exact ⟨rfl, rfl⟩
  | certify _ => exact ⟨rfl, rfl⟩
  | poll =>
      unfold pollCbCheckpointCertificate
      simp only
      split <;> exact ⟨rfl, rfl⟩

/-- A polled decision joins those that were. -/
theorem decided_pollDecision {d : Nat × Bytes} (h : s.pollDecision = .ok s')
    (hd : s.decision = some d) : decided s'.log = decided s.log ++ [d] := by
  unfold pollDecision at h
  unfold decision at hd
  split at h
  · next hf => rw [hf] at hd; cases hd
  · next x hf =>
      rw [hf] at hd
      split at h
      · next hx =>
          split at h
          · cases h
            cases (if_pos hx).symm.trans hd
            exact decided_cons _ _ _
          · cases h
      · next hx => cases (if_neg hx).symm.trans hd

/-- **What a step decides**: nothing, or what the application polls. -/
theorem Machine.decided_step {m m' : Machine} {l : Label} (h : m.Step cfg l m') :
    decided m'.core.log = decided m.core.log ∧ m'.core.nextToDecide = m.core.nextToDecide ∨
      l = .call .pollDecision ∧ ∃ d, m.core.decision = some d ∧
        d.1 = m.core.nextToDecide ∧ decided m'.core.log = decided m.core.log ++ [d] ∧
        m'.core.nextToDecide = m.core.nextToDecide + 1 := by
  have same : ∀ {s' : Consensus}, s'.progress.marks = m.core.progress.marks →
      decided s'.log = decided m.core.log := by
    intro s' hm
    rw [decided_eq, hm, ← decided_eq]
  rcases step_cases h with ⟨c, s', cs, rfl, -, hc, rfl⟩ | ⟨inp, c, rest, s', cs, -, -, he, rfl⟩ |
    ⟨s', hb, rfl⟩
  · rcases progress_call hc with hp | ⟨d, rfl, hd, hdec, hp⟩
    · exact .inl ⟨same (congrArg Progress.marks hp), congrArg Progress.nextToDecide hp⟩
    · have hx : m.core.decision = some (m.core.nextToDecide, d.prepareMessage.data) := by
        rw [decision, hd]
        exact if_pos hdec
      refine .inr ⟨rfl, _, hx, rfl, ?_, congrArg Progress.nextToDecide hp⟩
      change decided s'.log = _
      rw [decided_eq, hp, decided_cons, ← decided_eq]
  · exact .inl (decided_exec he)
  · have hp := (progress_background hb).1
    exact .inl ⟨same ((congrArg Progress.marks hp).trans rfl),
      (congrArg Progress.nextToDecide hp).trans rfl⟩

/-- **Decisions.**  They are taken in order, each once. -/
theorem Machine.decided_of_reachable {good : Machine → Label → Prop} {m : Machine}
    (h : Reachable (Init cfg) (Step cfg) good m) :
    (decisions m.core.log).reverse = List.range m.core.nextToDecide := by
  rw [← map_fst_decided]
  refine h.induct (P := fun m => (decided m.core.log).map Prod.fst = List.range m.core.nextToDecide)
    (fun m hm => ?_) fun m l m' _ hd _ hs => ?_
  · obtain ⟨requestLog, rfl⟩ := hm
    rfl
  · rcases decided_step hs with ⟨hl, hn⟩ | ⟨-, d, -, hi, hl, hn⟩
    · rw [hl, hn]
      exact hd
    · rw [hl, hn, List.map_append, hd, List.range_succ]
      exact congrArg (fun i => _ ++ [i]) hi

/-! ### What a command does to the instances -/

/-- What is undecided and held stays held, and the Prepares that are stored are held. -/
structure Retaining (cfg : Config) (s : Consensus) (c : Cmd) (s' : Consensus) : Prop where
  atView : (s'.own cfg).atView = (s.own cfg).atView
  tail : s'.instanceStates.tail = s.instanceStates.tail
  held : ∀ i, s.nextToDecide ≤ i → (s.held i).isSome → (s'.held i).isSome
  stored : ∀ r p, .stored r p ∈ s'.log → .stored r p ∈ s.log ∨
    c.kind = .loud ∧ p.view = (s.own cfg).atView ∧ (s'.held p.inst).isSome

theorem Stays.retaining (h : Stays cfg s s') (c : Cmd) : Retaining cfg s c s' :=
  ⟨h.atView, h.tail, fun i _ hi => h.held i ▸ hi, fun _ _ hp => .inl (h.log.mem_of_mem hp rfl)⟩

/-- What follows a step and only adds plain events. -/
theorem Retaining.followed {c : Cmd} {s₁ : Consensus} (h : Retaining cfg s c s₁)
    (ha : (s'.own cfg).atView = (s₁.own cfg).atView)
    (ht : s'.instanceStates.tail = s₁.instanceStates.tail) (hh : ∀ i, s'.held i = s₁.held i)
    (hl : Extends s₁.log s'.log) : Retaining cfg s c s' := by
  refine ⟨ha.trans h.atView, ht.trans h.tail, fun i hi hs => ?_, fun r p hp => ?_⟩
  · rw [hh]
    exact h.held i hi hs
  · rw [hh]
    exact h.stored r p (hl.mem_of_mem hp rfl)

/-- What comes before a step and only adds plain events. -/
theorem Retaining.preceded {c : Cmd} {s₁ : Consensus} (h : Retaining cfg s₁ c s')
    (hk : Stays cfg s s₁) (hn : s₁.nextToDecide = s.nextToDecide) : Retaining cfg s c s' := by
  refine ⟨h.atView.trans hk.atView, h.tail.trans hk.tail, fun i hi hs => ?_, fun r p hp => ?_⟩
  · exact h.held i (hn ▸ hi) (hk.held i ▸ hs)
  · rcases h.stored r p hp with hp | ⟨hc, hv, hh⟩
    · exact .inl (hk.log.mem_of_mem hp rfl)
    · exact .inr ⟨hc, hv.trans hk.atView, hh⟩

/-- An admissible Prepare less than a window ahead evicts nothing that is undecided. -/
theorem retaining_acceptPrepare {c : Cmd} {r : Nat} {p : PrepareMessage} (hc : c.kind = .loud)
    (ha : Admissible cfg s r p) (ht : s.instanceStates.tail = cfg.window)
    (hw : p.inst < s.nextToDecide + cfg.window) (h : acceptPrepare cfg s r p = .ok s') :
    Retaining cfg s c s' := by
  obtain ⟨t, b, s₂, hemp, hr, hcert⟩ := acceptPrepare_cases h
  have hs : Retaining cfg s c (Consensus.stored s r p t) := by
    have hd : ∀ i, ((Consensus.stored s r p t).held i).isSome = (t.find? i).isSome :=
      fun i => isSome_held _ i
    rcases TailMap.tryEmplace_cases hemp with ⟨-, -, -, w, hw'⟩ | ⟨-, -, -, htail, hf, -⟩
    · rw [ha.absent] at hw'
      cases hw'
    · refine ⟨own_stored t r p, htail, fun i hi hh => ?_, fun r' q hq => ?_⟩
      · rw [hd, hf]
        split
        · rfl
        · rw [if_neg]
          · rwa [isSome_held] at hh
          · rw [ht]
            exact Nat.not_le.mpr (Nat.lt_of_lt_of_le hw (Nat.add_le_add_right hi _))
      · rcases List.mem_cons.mp hq with he | hq
        · cases he
          exact .inr ⟨hc, ha.own, by rw [hd, hf, if_pos rfl]; rfl⟩
        · exact .inl hq
  have hk : Keeps cfg (Consensus.stored s r p t) s₂ := keeps_replayCommits hr
  have h₂ := hs.followed hk.atView hk.tail hk.held hk.log
  have h₃ : Retaining cfg s c (s₂.pruneValidValues r p.inst) :=
    h₂.followed (atView_pruneValidValues s₂ r p.inst) rfl (fun _ => rfl) (extends_of_eq rfl)
  have hx := certifies_tryCertifyPrepare hcert
  exact h₃.followed hx.atView hx.tail hx.held hx.log

/-- **What a command does to the instances**: it forgets those of the view that ended, it ends the
view, or it retains what is undecided. -/
theorem exec_instances {c : Cmd} {cs rest : List Cmd} (h : exec cfg s inp c = .ok (s', cs))
    (ht : s.instanceStates.tail = cfg.window)
    (hg : Retains cfg ⟨s, c :: rest⟩ (.exec inp)) :
    c = .forgetView ∧ s' = forgetView cfg s ∨
      c = .sealView cfg.localIndex ∧ Seals cfg s s' ∨
      (c ≠ .forgetView ∧ c ≠ .sealView cfg.localIndex) ∧ Retaining cfg s c s' := by
  cases exec_effect h with
  | keeps hk hf hs => exact .inr (.inr ⟨⟨hf, hs⟩, hk.toStays.retaining c⟩)
  | @prepare _ r p s₁ _ hr ha hx =>
      have hk : Stays cfg s s₁ := hr.keeps.toStays
      have hd : s₁.nextToDecide = s.nextToDecide := by cases hr <;> rfl
      have hlt := hg.2 (r, p) (preparing_of_receives hr rest) (ha.own.trans hk.atView)
      refine .inr (.inr ⟨hr.ne, Retaining.preceded ?_ hk hd⟩)
      exact retaining_acceptPrepare hr.kind ha (hk.tail.trans ht) (hd ▸ hlt) hx
  | certify hk => exact .inr (.inr ⟨⟨nofun, nofun⟩, hk.toStays.retaining _⟩)
  | prune low n =>
      have hlow := hg.1 _ rfl
      generalize (if n = s.adopted then low else inp.freed) = low' at hlow ⊢
      refine .inr (.inr ⟨⟨nofun, nofun⟩, rfl, rfl, fun i hi hh => ?_, fun _ _ hp => .inl hp⟩)
      -- what is pruned is below what is to be decided
      rw [held_pruneInstances, if_neg (Nat.not_lt.mpr (Nat.le_trans hlow hi))]
      exact hh
  | forget => exact .inl ⟨rfl, rfl⟩
  | @promise pc k hp =>
      rcases handlePromise_cases cfg { s with prepareCertifier := pc } k with he | he
      · rw [he]
        exact .inr (.inr ⟨⟨nofun, nofun⟩, rfl, rfl, fun _ _ hh => hh, fun _ _ hq => .inl hq⟩)
      · rw [he]
        refine .inr (.inr ⟨⟨nofun, nofun⟩, rfl, rfl, fun i _ hh => ?_, fun _ _ hq => .inl ?_⟩)
        · exact (isSome_held_modifyInstance _ _ _ i).mpr hh
        · exact (List.mem_cons.mp hq).resolve_left nofun
  | @fastCommit r m _ hi hx =>
      have hr : Stays cfg s (s.record (.fastPolled r m)) := (Keeps.record s rfl).toStays
      rcases handleFastCommit_cases hx with ⟨rfl, -⟩ | rfl
      · exact .inr (.inr ⟨⟨nofun, nofun⟩, hr.retaining _⟩)
      · refine .inr (.inr ⟨⟨nofun, nofun⟩, rfl, rfl, fun i _ hh => ?_, fun _ _ hq => .inl ?_⟩)
        · exact (isSome_held_modifyInstance _ _ _ i).mpr hh
        · exact hr.log.mem_of_mem hq rfl
  | «seal» hx => exact .inr (.inl ⟨rfl, seals_sealView hx⟩)
  | @accept r m _ _ hx =>
      obtain ⟨values, -, rfl⟩ := acceptNewView_cases hx
      refine .inr (.inr ⟨⟨nofun, nofun⟩, ?_, rfl, fun _ _ hh => hh, fun _ _ hq => .inl ?_⟩)
      · exact atView_modifyState (f := fun x => { x with
          nextPrepare := x.checkpoint.low
          validValues := some (m.view, values) }) rfl
      · exact (List.mem_cons.mp hq).resolve_left nofun

/-! ### The invariant -/

/-- What was stored in the view of the replica and is undecided is held. -/
structure Retained (cfg : Config) (s : Consensus) (ph : Phase) : Prop where
  tail : s.instanceStates.tail = cfg.window
  view : ∀ r p, .stored r p ∈ s.log → p.view ≤ (s.own cfg).atView ∧
    (ph = .sealed → p.view < (s.own cfg).atView)
  kept : ∀ r p, .stored r p ∈ s.log → p.view = (s.own cfg).atView → s.nextToDecide ≤ p.inst →
    (s.held p.inst).isSome

namespace Retained

theorem of_iff (h : Retained cfg s ph) (hp : ph' = .sealed ↔ ph = .sealed) : Retained cfg s ph' :=
  ⟨h.tail, fun r p hs => ⟨(h.view r p hs).1, fun hx => (h.view r p hs).2 (hp.mp hx)⟩, h.kept⟩

theorem stays (h : Retained cfg s ph) (hk : Stays cfg s s')
    (hn : s.nextToDecide ≤ s'.nextToDecide) : Retained cfg s' ph := by
  have hl : ∀ {r p}, .stored r p ∈ s'.log → .stored r p ∈ s.log :=
    fun hp => hk.log.mem_of_mem hp rfl
  refine ⟨hk.tail.trans h.tail, fun r p hp => ?_, fun r p hp hv hi => ?_⟩
  · rw [hk.atView]
    exact h.view r p (hl hp)
  · rw [hk.held]
    exact h.kept r p (hl hp) (hv.trans hk.atView) (Nat.le_trans hn hi)

/-- A step that prunes nothing retains what is undecided. -/
theorem retaining {c : Cmd} (h : Retained cfg s ph) (hr : Retaining cfg s c s')
    (hn : s'.nextToDecide = s.nextToDecide) (hc : c.kind = .loud → ph ≠ .sealed) :
    Retained cfg s' ph := by
  refine ⟨hr.tail.trans h.tail, fun r p hp => ?_, fun r p hp hv hi => ?_⟩
  · rw [hr.atView]
    rcases hr.stored r p hp with hp | ⟨hl, hv, -⟩
    · exact h.view r p hp
    · exact ⟨Nat.le_of_eq hv, fun hx => absurd hx (hc hl)⟩
  · rcases hr.stored r p hp with hp | ⟨-, -, hh⟩
    · rw [hn] at hi
      exact hr.held p.inst hi (h.kept r p hp (hv.trans hr.atView) hi)
    · exact hh

/-- Nothing of the next view is stored. -/
theorem sealed (h : Retained cfg s ph) (hs : Seals cfg s s') : Retained cfg s' ph' := by
  have hlt : ∀ r p, .stored r p ∈ s'.log → p.view < (s'.own cfg).atView := by
    intro r p hp
    rw [hs.log] at hp
    rw [hs.atView]
    exact Nat.lt_succ_of_le (h.view r p hp).1
  refine ⟨?_, fun r p hp => ⟨Nat.le_of_lt (hlt r p hp), fun _ => hlt r p hp⟩,
    fun r p hp hv _ => absurd hv (Nat.ne_of_lt (hlt r p hp))⟩
  rw [hs.instances]
  exact h.tail

theorem forgotten (h : Retained cfg s .sealed) : Retained cfg (forgetView cfg s) ph' :=
  ⟨h.tail, fun r p hp => ⟨(h.view r p hp).1, fun _ => (h.view r p hp).2 rfl⟩,
    fun r p hp hv _ => absurd hv (Nat.ne_of_lt ((h.view r p hp).2 rfl))⟩

end Retained

/-- Only sealing lets go of undecided instances. -/
theorem retained_exec {c : Cmd} {cs rest : List Cmd} (h : exec cfg s inp c = .ok (s', cs))
    (hn : Nested cfg (c :: rest)) (hg : Retains cfg ⟨s, c :: rest⟩ (.exec inp))
    (hi : Retained cfg s (phase cfg (c :: rest))) : Retained cfg s' (phase cfg (cs ++ rest)) := by
  rcases exec_instances h hi.tail hg with ⟨rfl, rfl⟩ | ⟨rfl, hs⟩ | hr
  · rw [phase_forget] at hi
    exact hi.forgotten
  · exact hi.sealed hs
  · obtain ⟨⟨hf, hs⟩, hr⟩ := hr
    refine (hi.retaining hr (decided_exec h).2 fun hl => ?_).of_iff (sealed_iff h hn hf hs)
    rw [phase_loud hl]
    exact nofun

theorem nextToDecide_call {c : Call} {cs : List Cmd} (h : call cfg s c = .ok (s', cs)) :
    s.nextToDecide ≤ s'.nextToDecide := by
  rcases progress_call h with hp | ⟨d, -, -, -, hp⟩
  · exact Nat.le_of_eq (congrArg Progress.nextToDecide hp).symm
  · exact Nat.le_trans (Nat.le_succ _) (Nat.le_of_eq (congrArg Progress.nextToDecide hp).symm)

theorem Machine.retained_of_reachable {m : Machine}
    (h : Reachable (Init cfg) (Step cfg) (Retains cfg) m) :
    Retained cfg m.core (phase cfg m.todo) := by
  refine h.induct (P := fun m => Retained cfg m.core (phase cfg m.todo)) (fun m hm => ?_)
    fun m l m' hr hi hg hs => ?_
  · obtain ⟨requestLog, rfl⟩ := hm
    exact ⟨rfl, fun _ _ hp => (nomatch hp), fun _ _ hp => (nomatch hp)⟩
  · rcases step_cases hs with ⟨c, s, cs, -, ht, hc, rfl⟩ | ⟨inp, c, rest, s, cs, rfl, ht, he, rfl⟩ |
      ⟨s, hb, rfl⟩
    · have hk := hi.stays (keeps_call hc).toStays (nextToDecide_call hc)
      rw [ht] at hk
      exact (phase_call hc).symm ▸ hk
    · have hn := nested_of_reachable hr
      obtain ⟨core, todo⟩ := m
      subst ht
      exact retained_exec he hn hg hi
    · exact hi.stays (keeps_background hb).toStays
        (Nat.le_of_eq (congrArg Progress.nextToDecide (progress_background hb).1).symm)

/-- A step that removes an instance removes one that is decided. -/
theorem Retained.forgets {m m' : Machine} {l : Label} (h : Retained cfg m.core (phase cfg m.todo))
    (hg : Retains cfg m l) (hs : m.Step cfg l m') {i : Nat} (hf : Forgets m m' i) :
    i < m.core.nextToDecide := by
  obtain ⟨hheld, hnone, hhead⟩ := hf
  have absurd_of : (m'.core.held i).isSome → i < m.core.nextToDecide := by
    intro hh
    rw [isSome_held, hnone] at hh
    cases hh
  rw [← isSome_held] at hheld
  refine Nat.lt_of_not_le fun hle => Nat.not_lt.mpr hle (absurd_of ?_)
  rcases Machine.step_cases hs with ⟨c, s, cs, -, -, hc, rfl⟩ |
    ⟨inp, c, rest, s, cs, rfl, ht, he, rfl⟩ | ⟨s, hb, rfl⟩
  · exact (keeps_call hc).held i ▸ hheld
  · obtain ⟨core, todo⟩ := m
    subst ht
    rcases exec_instances he h.tail hg with ⟨rfl, -⟩ | ⟨-, hsl⟩ | ⟨-, hr⟩
    · exact absurd rfl hhead
    · change (s.held i).isSome
      rw [held, hsl.instances]
      exact hheld
    · exact hr.held i hle hheld
  · exact (keeps_background hb).held i ▸ hheld

/-- **Instances are forgotten only once decided**, as long as what is pruned is decided and the
Prepares stored are less than a window ahead. -/
theorem forgotten_decided {m : Machine}
    (h : Reachable (Machine.Init cfg) (Machine.Step cfg) (Retains cfg) m) :
    Remembers cfg (Retains cfg) m := by
  have hi := Machine.retained_of_reachable h
  refine ⟨Machine.decided_of_reachable h, fun l m' i hg hs hf => hi.forgets hg hs hf,
    fun r p hp hv hn => ?_⟩
  rw [← isSome_held]
  exact hi.kept r p hp hv hn

/-! ### A replica that lags -/

namespace Example

open Deployment

/-- The leader proposes `[7]`. -/
def proposed : List Label := .call (.getSlot [7]) :: .call .propose :: drain 20

/-- Before the leader decides instance 0, replica 1 sends it the checkpoint of the others, who
decided instances 0 and 1. -/
def lagging : List Label :=
  proposed ++ tickCb 0 (.checkpoint (some (certificate encodeCheckpoint 1 2 (.of 2 4 []) [1, 2])))
    ++ .call .tick :: drain 40

/-- Instance 0 is stored, undecided and not held. -/
def forgotten (m : Machine) : Bool :=
  m.core.log.contains (.stored 2 ⟨0, 0, [7]⟩) && (m.core.own three).atView == 0 &&
    m.core.nextToDecide == 0 && (m.core.instanceStates.find? 0).isNone

/-- The others promise and FastCommit instance 0, which is polled. -/
def deciding : List Label :=
  proposed ++ [.prepareCertifier (.handlePromise 0 0), .prepareCertifier (.handlePromise 0 1),
    .call .tick] ++ List.replicate 20 (.exec { fastCommit := some (some ⟨0, 0⟩) }) ++
    [.call .pollDecision]

end Example

/-- A replica that lags forgets an instance that it has not decided. -/
theorem forgotten_undecided :
    ¬ ∀ (cfg : Config) (m : Machine), Reachable (Machine.Init cfg) (Machine.Step cfg) Always m →
        Remembers cfg Always m := by
  intro h
  obtain ⟨m, hm, hs⟩ : ∃ m, Reachable (Machine.Init Example.three) (Machine.Step Example.three)
      (fun _ _ => True) m ∧ Example.forgotten m = true :=
    Machine.exists_reachable Deployment.allKnown Example.lagging (by decide +kernel)
  simp only [Example.forgotten, Bool.and_eq_true, List.contains_iff_mem, beq_iff_eq] at hs
  obtain ⟨⟨⟨hst, hv⟩, hn⟩, hnone⟩ := hs
  obtain ⟨-, -, hk⟩ := h _ m hm.always
  have hh := hk _ _ hst hv.symm (Nat.le_of_eq hn)
  rw [Option.isNone_iff_eq_none.mp hnone] at hh
  cases hh

/-- Instance 0 is decided. -/
theorem forgotten_decided_first : ∃ m : Machine, m.core.nextToDecide = 1 ∧
    Remembers Example.three (Retains Example.three) m := by
  obtain ⟨m, hm, hs⟩ : ∃ m, Reachable (Machine.Init Example.three) (Machine.Step Example.three)
      (Retains Example.three) m ∧ (m.core.nextToDecide == 1) = true :=
    Machine.exists_reachable Deployment.allKnown Example.deciding (by decide +kernel)
  exact ⟨m, beq_iff_eq.mp hs, forgotten_decided hm⟩

end Ubft.Consensus
