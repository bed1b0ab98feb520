import Ubft.Consensus.Streams
import Ubft.Consensus.ViewChanges

/-!
# Consensus — what a new leader proposes again

The queue of proposals is numbered from `proposed` on, in every state (`numbered_of_reachable`).
Once it broadcast a NewView, the leader refills it: from the instance where the certified
checkpoint begins to the last one that has a valid value.  Where there is no valid value at all, the
loop of `pollVcStateCertificates` still fills one slot (`reproposes_iff`).
-/

namespace Ubft.Consensus

open Certifier (Certificate)

variable {cfg : Config} {s s' : Consensus} {inp : Input}

/-! ### The numbers of the proposals -/

/-- The proposals queued have the instances from `proposed` on; `pending` of them were counted as
proposed and wait for the slack. -/
structure Numbered (p : Proposals) (pending : Nat) : Prop where
  inst : ∀ k m, p.toPropose[k]? = some m → m.inst + pending = p.proposed + k
  next : p.nextProposal + pending = p.proposed + p.toPropose.length
  room : pending ≤ p.toPropose.length

namespace Numbered

variable {p : Proposals} {n : Nat}

theorem viewChange (h : Numbered p n) (vc : Option ViewChangeState) :
    Numbered { p with viewChange := vc } n := ⟨h.inst, h.next, h.room⟩

/-- A slot is filled. -/
theorem getSlot (h : Numbered p n) (view : Nat) (batch : Bytes) : Numbered { p with
    toPropose := p.toPropose ++ [⟨view, p.nextProposal, batch⟩]
    nextProposal := p.nextProposal + 1 } n := by
  refine ⟨fun k m hk => ?_, ?_, ?_⟩
  · rcases Nat.lt_or_ge k p.toPropose.length with hlt | hge
    · exact h.inst k m (List.getElem?_append_left hlt ▸ hk)
    · change (p.toPropose ++ _)[k]? = some m at hk
      rw [List.getElem?_append_right hge] at hk
      have hz : k - p.toPropose.length = 0 :=
        Nat.lt_one_iff.mp (List.getElem?_eq_some_iff.mp hk).1
      rw [hz] at hk
      cases hk
      have hn := h.next
      have he : k = p.toPropose.length := Nat.le_antisymm (Nat.sub_eq_zero_iff_le.mp hz) hge
      rw [he]
      exact hn
  · have hn := h.next
    simp only [List.length_append, List.length_singleton]
    omega
  · have hr := h.room
    simp only [List.length_append, List.length_singleton]
    omega

/-- The first of them is about to be broadcast. -/
theorem loop (h : Numbered p 0) (hp : p.toPropose ≠ []) :
    Numbered { p with proposed := p.proposed + 1 } 1 := by
  refine ⟨fun k m hk => ?_, ?_, List.length_pos_of_ne_nil hp⟩
  · have hi := h.inst k m hk
    change m.inst + 1 = p.proposed + 1 + k
    omega
  · have hn := h.next
    change p.nextProposal + 1 = p.proposed + 1 + p.toPropose.length
    omega

/-- It is broadcast. -/
theorem broadcast (h : Numbered p 1) {m : PrepareMessage} {rest : List PrepareMessage}
    (hp : p.toPropose = m :: rest) : Numbered { p with toPropose := rest } 0 := by
  refine ⟨fun k m' hk => ?_, ?_, Nat.zero_le _⟩
  · have hi := h.inst (k + 1) m' (by rw [hp]; exact hk)
    change m'.inst + 0 = p.proposed + k
    omega
  · have hn := h.next
    rw [hp, List.length_cons] at hn
    change p.nextProposal + 0 = p.proposed + rest.length
    omega

end Numbered

/-! ### The queue is refilled -/

/-- What is written in the slot of the instance `i`. -/
def slot (view : Nat) (values : TailMap Bytes) (i : Nat) : PrepareMessage :=
  ⟨view, i, (values.find? i).getD []⟩

/-- **What `getSlot` does**: a proposal of the current view is queued. -/
theorem getSlot_eq_ok {b : Bytes} : getSlot cfg s b = .ok s' ↔
    b.length ≤ cfg.maxProposalSize ∧ s' = { s with
      toPropose := s.toPropose ++ [⟨(s.own cfg).atView, s.nextProposal, b⟩]
      nextProposal := s.nextProposal + 1 } := by
  unfold getSlot
  split
  · next hb => exact ⟨nofun, fun h => absurd h.1 (Nat.not_le.mpr hb)⟩
  · next hb => exact ⟨fun h => ⟨Nat.not_lt.mp hb, (Except.ok.inj h).symm⟩, fun h => h.2 ▸ rfl⟩

/-- The slots filled have the instances that `next_proposal` counts. -/
theorem getSlots_range' (values : TailMap Bytes) (n : Nat) :
    getSlots cfg values s (List.range' s.nextProposal n) = .ok s' ↔
      (∀ i ∈ List.range' s.nextProposal n,
        (slot (s.own cfg).atView values i).data.length ≤ cfg.maxProposalSize) ∧
      s' = { s with
        toPropose := s.toPropose ++
          (List.range' s.nextProposal n).map (slot (s.own cfg).atView values)
        nextProposal := s.nextProposal + n } := by
  induction n generalizing s with
  | zero =>
      simp only [List.range'_zero, getSlots, List.map_nil, List.append_nil, Nat.add_zero]
      exact ⟨fun h => ⟨nofun, (Except.ok.inj h).symm⟩, fun h => congrArg _ h.2.symm⟩
  | succ n ih =>
      rw [List.range'_succ, getSlots, bind_eq_ok, List.forall_mem_cons, List.map_cons]
      constructor
      · rintro ⟨s₁, h₁, h₂⟩
        obtain ⟨hb, rfl⟩ := getSlot_eq_ok.mp h₁
        obtain ⟨hs, rfl⟩ := ih.mp h₂
        refine ⟨⟨hb, hs⟩, ?_⟩
        simp only [List.append_assoc, Nat.add_assoc, Nat.add_comm 1]
        rfl
      · rintro ⟨⟨hb, hs⟩, rfl⟩
        refine ⟨_, getSlot_eq_ok.mpr ⟨hb, rfl⟩, ih.mpr ⟨hs, ?_⟩⟩
        simp only [List.append_assoc, Nat.add_assoc, Nat.add_comm 1]
        rfl

/-- The certified checkpoint begins where the queue does. -/
theorem repropose_eq_ok {values : TailMap Bytes} {view : Nat} {cs : List Cmd}
    (hv : (s.own cfg).validValues = some (view, values)) :
    repropose cfg s = .ok (s', cs) ↔
      (∀ i ∈ s.reproposed values,
        (slot (s.own cfg).atView values i).data.length ≤ cfg.maxProposalSize) ∧
      s' = { s with
        toPropose := (s.reproposed values).map (slot (s.own cfg).atView values)
        nextProposal := s.certifiedCheckpoint.low + (s.reproposed values).length
        proposed := s.certifiedCheckpoint.low } ∧
      cs = if s.certifiedCheckpoint.low ≠ values.map.last?.elim s.certifiedCheckpoint.low (·.1)
        then [.propose] else [] := by
  obtain ⟨n, hn⟩ : ∃ n, s.reproposed values = List.range' s.certifiedCheckpoint.low n := ⟨_, rfl⟩
  unfold repropose
  rw [hv, bind_eq_ok]
  simp only [Option.elim_some, hn, List.length_range']
  constructor
  · rintro ⟨s₁, h₁, h₂⟩
    cases h₂
    obtain ⟨hs, rfl⟩ := (getSlots_range' values _).mp h₁
    exact ⟨hs, rfl, rfl⟩
  · rintro ⟨hs, rfl, rfl⟩
    exact ⟨_, (getSlots_range' values _).mpr ⟨hs, rfl⟩, rfl⟩

/-- The proposals of a new view start at its checkpoint. -/
theorem numbered_repropose {cs : List Cmd} (h : repropose cfg s = .ok (s', cs)) :
    Numbered s'.proposals 0 := by
  obtain ⟨-, rfl⟩ := (getSlots_range' _ _).mp (pure_eq_ok h).1
  refine ⟨fun k m hk => ?_, ?_, Nat.zero_le _⟩
  · change (List.map _ (List.range' _ _))[k]? = some m at hk
    rw [List.getElem?_map, Option.map_eq_some_iff] at hk
    obtain ⟨i, hi, rfl⟩ := hk
    obtain ⟨hlt, rfl⟩ := List.getElem?_eq_some_iff.mp hi
    rw [List.getElem_range', Nat.one_mul]
    rfl
  · change _ + 0 = _ + (List.map _ (List.range' _ _)).length
    rw [List.length_map, List.length_range']
    rfl

/-! ### The queue is numbered -/

/-- Only the loop of `propose` leads to a broadcast of the first proposal. -/
theorem count_proposeNext {c : Cmd} {cs : List Cmd} (h : exec cfg s inp c = .ok (s', cs))
    (hc : c = .proposeLoop → cs = []) : cs.count .proposeNext = 0 := by
  refine List.count_eq_zero.mpr fun hm => ?_
  have hl := leads_of_spawns (exec_spawns h) hm
  generalize hn : Cmd.proposeNext = c' at hl
  cases hl with
  | delivers _ hd hm =>
      subst hn
      cases hd.delivered hm
  | proposeNext => rw [hc rfl] at hm; cases hm
  | _ => cases hn

/-- One proposal at most waits for the slack. -/
theorem Proposing.count_rest {c : Cmd} {rest : List Cmd}
    (hq : Proposing ((c :: rest).filter Cmd.proposing)) (hc : c.proposing = true) :
    rest.count .proposeNext = 0 := by
  have hf : (rest.filter Cmd.proposing).count .proposeNext = rest.count .proposeNext :=
    List.count_filter rfl
  rw [List.filter_cons_of_pos hc] at hq
  rw [← hf]
  generalize rest.filter Cmd.proposing = pending at hq
  cases hq <;> rfl

/-- The proposals stay numbered without a gap. -/
theorem numbered_exec {c : Cmd} {cs rest : List Cmd} (h : exec cfg s inp c = .ok (s', cs))
    (hq : Proposing ((c :: rest).filter Cmd.proposing))
    (hn : Numbered s.proposals ((c :: rest).count .proposeNext)) :
    Numbered s'.proposals ((cs ++ rest).count .proposeNext) := by
  have hspawned := count_proposeNext h
  have hp := exec_proposes h
  generalize s'.proposals = x at hp
  rw [List.count_append]
  cases hp with
  | stays hl hv hx hr =>
      rw [hspawned hl, Nat.zero_add]
      by_cases hc : c = .proposeNext
      · -- something is queued while a proposal waits
        have hroom := hn.room
        have hz : s.proposals.toPropose = [] := hx hc
        rw [hz, hc, List.count_cons_self] at hroom
        exact absurd hroom (Nat.not_succ_le_zero _)
      · rwa [List.count_cons_of_ne hc] at hn
  | starts _ hs =>
      rw [hspawned nofun, Nat.zero_add]
      exact hn.viewChange _
  | collects hvc hv => exact (Nat.zero_add _).symm ▸ hn.viewChange _
  | builds hvc hv _ => exact (Nat.zero_add _).symm ▸ hn.viewChange _
  | reproposes hx =>
      rw [hspawned nofun, hq.count_rest rfl]
      exact numbered_repropose hx
  | loop hp =>
      rw [hq.count_rest rfl]
      have hne : Cmd.proposeLoop ≠ .proposeNext := nofun
      rw [List.count_cons_of_ne hne, hq.count_rest rfl] at hn
      exact hn.loop hp
  | next _ hp =>
      rw [hspawned nofun, hq.count_rest rfl]
      rw [List.count_cons_self, hq.count_rest rfl] at hn
      exact hn.broadcast hp

theorem Machine.numbered_of_reachable {good : Machine → Label → Prop} {m : Machine}
    (h : Reachable (Init cfg) (Step cfg) good m) :
    Numbered m.core.proposals (m.todo.count .proposeNext) := by
  refine h.induct (P := fun m => Numbered m.core.proposals (m.todo.count .proposeNext))
    (fun m hm => ?_) fun m l m' hr hn _ hs => ?_
  · obtain ⟨requestLog, rfl⟩ := hm
    exact ⟨nofun, rfl, Nat.le_refl _⟩
  · have hq := proposing_of_reachable hr
    obtain ⟨core, todo⟩ := m
    rcases step_cases hs with ⟨c, s, cs, -, rfl, hc, rfl⟩ |
      ⟨inp, c, rest, s, cs, -, rfl, he, rfl⟩ | ⟨s, hb, rfl⟩
    · have hcs : cs.count .proposeNext = 0 :=
        List.count_eq_zero.mpr fun hm => nomatch called_of_call hc hm
      change Numbered s.proposals (cs.count .proposeNext)
      rw [hcs]
      rcases proposals_call hc with hp | ⟨b, -, hp⟩
      · rw [hp]
        exact hn
      · rw [hp]
        exact hn.getSlot _ b
    · exact numbered_exec he hq hn
    · obtain ⟨_, _, _, _, _, _, _, _, rfl, -⟩ := background_cases hb
      exact hn

/-! ### The NewView of the leader -/

/-- The commands that leave alone the NewViews of the replica and what it made of the last one,
whatever they lead to. -/
def Cmd.steady (cfg : Config) : Cmd → Prop
  | .pollCb r | .catchUp r _ => r ≠ cfg.localIndex
  | .broadcast (.newView _) | .broadcast (.prepare _) => False
  | c => c.proposing = false

theorem Leads.steady {c c' : Cmd} (h : Leads cfg c c') (hc : c.steady cfg) : c'.steady cfg := by
  cases h with
  | delivers hcs hd h =>
      cases hd.delivered h with
      | catchUp nv =>
          rcases hcs with rfl | ⟨-, rfl | rfl⟩
          · exact hc
          · exact hc.elim
          · cases hc
      | _ => rfl
  | slackCb r h => exact Nat.ne_of_lt h
  | catchUpAgain r m => exact hc
  | newView m => cases hc
  | repropose => cases hc
  | propose => cases hc
  | proposals => cases hc
  | proposeNext => cases hc
  | proposeAgain => cases hc
  | _ => rfl

/-- The stream of the others after a step that changes one. -/
theorem stream_of_set {r r' : Nat} {x : Stream} (h : s'.deduced = s.deduced.set r x)
    (hr : r' ≠ r) : (s'.states r').stream = (s.states r').stream :=
  (stream_of_deduced h r').trans (Function.update_of_ne hr ..)

/-- A steady command keeps the valid values. -/
theorem values_steady {c : Cmd} {cs : List Cmd} (h : exec cfg s inp c = .ok (s', cs))
    (hc : c.steady cfg) : (s'.own cfg).validValues = (s.own cfg).validValues := by
  cases exec_effect h with
  | keeps hk _ _ => exact hk.values _
  | @prepare _ r p s₁ _ hr _ hx =>
      have hne : cfg.localIndex ≠ r := by
        cases hr with
        | poll hi => exact Ne.symm hc
        | broadcast m => exact hc.elim
        | propose hp => cases hc
      have hs := stream_of_set (deduced_acceptPrepare hx) hne
      exact (congrArg Stream.validValues hs).trans (hr.keeps.values _)
  | certify hk => exact hk.values _
  | prune low n => rfl
  | forget => rfl
  | @promise pc k hp =>
      rcases handlePromise_cases cfg { s with prepareCertifier := pc } k with he | he
      · rw [he]; rfl
      · rw [he]; rfl
  | fastCommit hi hx =>
      rcases handleFastCommit_cases hx with ⟨rfl, -⟩ | rfl
      · rfl
      · rfl
  | «seal» hx => exact (seals_sealView hx).values _
  | @accept r m _ hv hx =>
      have hs := stream_of_set (deduced_acceptNewView hx) (Ne.symm hc)
      exact congrArg Stream.validValues hs

/-- A steady command announces no new view. -/
theorem newViews_steady {c : Cmd} {cs : List Cmd} (h : exec cfg s inp c = .ok (s', cs))
    (hc : c.steady cfg) : newViews s' = newViews s := by
  have hv : c.newView? = none := by
    cases c with
    | broadcast m =>
        cases m with
        | newView nv => exact hc.elim
        | _ => rfl
    | _ => rfl
  rw [newViews_exec h, hv]
  rfl

/-- What is to be done of a NewView that was built, until its values are proposed. -/
inductive Renews (cfg : Config) (s : Consensus) (todo : List Cmd) : Prop where
  | idle (h : .repropose ∉ todo)
  | waits {nv : NewViewMessage} {rest : List Cmd} (pre : List Cmd)
      (ht : todo = pre ++ .broadcast (.newView nv) :: .repropose :: rest)
      (hp : ∀ c ∈ pre, c.steady cfg) (hq : nv.vcCertificates.length = cfg.quorum)
  | catchesUp {nv : NewViewMessage} {rest : List Cmd} (pre : List Cmd)
      (ht : todo = pre ++ .catchUp cfg.localIndex nv ::
        .maybeCertifyCbCheckpoint cfg.localIndex :: .repropose :: rest)
      (hp : ∀ c ∈ pre, c.steady cfg) (hn : (newViews s).head? = some nv)
  | renewed {nv : NewViewMessage} {values : TailMap Bytes} {rest : List Cmd} (pre : List Cmd)
      (ht : todo = pre ++ .repropose :: rest) (hp : ∀ c ∈ pre, c.steady cfg)
      (hn : (newViews s).head? = some nv)
      (hv : nv.validValues cfg.window cfg.quorum = .ok values)
      (ho : (s.own cfg).validValues = some (nv.view, values))
  | spins {rest : List Cmd} (ht : todo = .spin :: rest)

/-- What comes before leaves the NewView to what comes after. -/
theorem steady_append {c : Cmd} {cs pre : List Cmd} (h : exec cfg s inp c = .ok (s', cs))
    (hc : c.steady cfg) (hp : ∀ c ∈ pre, c.steady cfg) : ∀ c ∈ cs ++ pre, c.steady cfg := by
  intro a ha
  rcases List.mem_append.mp ha with ha | ha
  · exact (leads_of_spawns (exec_spawns h) ha).steady hc
  · exact hp a ha

/-- Nothing is about to be proposed again where a command that proposes is executed. -/
theorem Proposing.repropose_not_mem {c : Cmd} {rest : List Cmd}
    (hq : Proposing ((c :: rest).filter Cmd.proposing)) (hc : c.proposing = true) :
    .repropose ∉ rest := by
  intro hm
  have hm : Cmd.repropose ∈ rest.filter Cmd.proposing := List.mem_filter.mpr ⟨hm, rfl⟩
  rw [List.filter_cons_of_pos hc] at hq
  generalize rest.filter Cmd.proposing = pending at hq hm
  cases hq with
  | next => cases hm with | tail _ hm => cases hm
  | _ => cases hm

/-- Only `pollVcStateCertificates` leads to a new proposal. -/
theorem Leads.ne_repropose {c c' : Cmd} (h : Leads cfg c c') (hc : c ≠ .pollVcStateCertificates) :
    c' ≠ .repropose := by
  cases h with
  | delivers _ hd h => cases hd.delivered h <;> nofun
  | repropose => exact absurd rfl hc
  | _ => nofun

/-- Until it reproposes, a leader's values are those of its NewView. -/
theorem renews_exec {c : Cmd} {cs rest : List Cmd} (h : exec cfg s inp c = .ok (s', cs))
    (hq : Proposing ((c :: rest).filter Cmd.proposing)) (hr : Renews cfg s (c :: rest)) :
    Renews cfg s' (cs ++ rest) := by
  cases hr with
  | idle hi =>
      by_cases hb : c = .pollVcStateCertificates
      · subst hb
        have hrest := hq.repropose_not_mem rfl
        have hp := exec_proposes h
        generalize s'.proposals = x at hp
        cases hp with
        | stays _ hv _ _ =>
            obtain rfl := hv rfl
            exact .idle hrest
        | collects _ _ => exact .idle hrest
        | @builds _ nv _ _ hlen =>
            exact .waits [.waitForCbSlack] rfl (List.forall_mem_singleton.mpr rfl) hlen
      · refine .idle fun hm => ?_
        rcases List.mem_append.mp hm with hm | hm
        · exact (leads_of_spawns (exec_spawns h) hm).ne_repropose hb rfl
        · exact hi (List.mem_cons_of_mem _ hm)
  | @waits nv rest' pre ht hp hlen =>
      cases pre with
      | nil =>
          obtain ⟨rfl, rfl⟩ := List.cons.inj ht
          have hn := newViews_exec h
          rcases handleCbMessage_cases h with ⟨-, rfl⟩ | ⟨-, cs₀, hm, rfl⟩
          · exact .spins rfl
          · obtain ⟨-, ⟨hne, -⟩ | ⟨-, rfl, -⟩⟩ := handleNewView_cases hm
            · exact absurd hlen hne
            · exact .catchesUp [] rfl (by rintro _ ⟨⟩) (congrArg List.head? hn)
      | cons a pre =>
          obtain ⟨rfl, rfl⟩ := List.cons.inj ht
          obtain ⟨ha, hp⟩ := List.forall_mem_cons.mp hp
          exact .waits (cs ++ pre) (List.append_assoc ..).symm (steady_append h ha hp) hlen
  | @catchesUp nv rest' pre ht hp hn =>
      cases pre with
      | nil =>
          obtain ⟨rfl, rfl⟩ := List.cons.inj ht
          have hn' : newViews s' = newViews s := newViews_exec h
          simp only [exec] at h
          split at h
          · cases h
            exact .catchesUp [.changeView] rfl (List.forall_mem_singleton.mpr rfl) hn
          · obtain ⟨hx, rfl⟩ := pure_eq_ok h
            obtain ⟨values, hv, rfl⟩ := acceptNewView_cases hx
            refine .renewed [.maybeCertifyCbCheckpoint _] rfl (List.forall_mem_singleton.mpr rfl)
              (hn' ▸ hn) hv ?_
            change (Function.update s.states cfg.localIndex _ cfg.localIndex).validValues = _
            rw [Function.update_self]
      | cons a pre =>
          obtain ⟨rfl, rfl⟩ := List.cons.inj ht
          obtain ⟨ha, hp⟩ := List.forall_mem_cons.mp hp
          exact .catchesUp (cs ++ pre) (List.append_assoc ..).symm (steady_append h ha hp)
            (newViews_steady h ha ▸ hn)
  | @renewed nv values rest' pre ht hp hn hv ho =>
      cases pre with
      | nil =>
          obtain ⟨rfl, rfl⟩ := List.cons.inj ht
          refine .idle fun hm => ?_
          rcases List.mem_append.mp hm with hm | hm
          · exact (leads_of_spawns (exec_spawns h) hm).ne_repropose (by rintro ⟨⟩) rfl
          · exact hq.repropose_not_mem rfl hm
      | cons a pre =>
          obtain ⟨rfl, rfl⟩ := List.cons.inj ht
          obtain ⟨ha, hp⟩ := List.forall_mem_cons.mp hp
          exact .renewed (cs ++ pre) (List.append_assoc ..).symm (steady_append h ha hp)
            (newViews_steady h ha ▸ hn) hv ((values_steady h ha).trans ho)
  | spins ht =>
      obtain ⟨rfl, -⟩ := List.cons.inj ht
      cases h
      exact .spins rfl

theorem Renews.of_eq {todo : List Cmd} (h : Renews cfg s todo) (hn : newViews s' = newViews s)
    (ho : (s'.own cfg).validValues = (s.own cfg).validValues) : Renews cfg s' todo := by
  cases h with
  | idle h => exact .idle h
  | waits pre ht hp hq => exact .waits pre ht hp hq
  | catchesUp pre ht hp h => exact .catchesUp pre ht hp (hn ▸ h)
  | renewed pre ht hp h hv hvv => exact .renewed pre ht hp (hn ▸ h) hv (ho.trans hvv)
  | spins ht => exact .spins ht

theorem Machine.renews_of_reachable {good : Machine → Label → Prop} {m : Machine}
    (h : Reachable (Init cfg) (Step cfg) good m) : Renews cfg m.core m.todo := by
  refine h.induct (P := fun m => Renews cfg m.core m.todo) (fun m hm => ?_)
    fun m l m' hr hn _ hs => ?_
  · obtain ⟨requestLog, rfl⟩ := hm
    exact .idle nofun
  · have hq := proposing_of_reachable hr
    obtain ⟨core, todo⟩ := m
    rcases step_cases hs with ⟨c, s, cs, -, rfl, hc, rfl⟩ |
      ⟨inp, c, rest, s, cs, -, rfl, he, rfl⟩ | ⟨s, hb, rfl⟩
    · exact .idle fun hm => nomatch called_of_call hc hm
    · exact renews_exec he hq hn
    · obtain ⟨_, _, _, _, _, _, _, _, rfl, -⟩ := background_cases hb
      exact hn.of_eq rfl rfl

/-- The valid values that are proposed again are those of the last NewView broadcast. -/
theorem Machine.renewed_of_reachable {good : Machine → Label → Prop} {m : Machine}
    {rest : List Cmd} (h : Reachable (Init cfg) (Step cfg) good m)
    (ht : m.todo = .repropose :: rest) :
    ∃ nv values, (newViews m.core).head? = some nv ∧
      nv.validValues cfg.window cfg.quorum = .ok values ∧
      (m.core.own cfg).validValues = some (nv.view, values) := by
  have hr := renews_of_reachable h
  rw [ht] at hr
  cases hr with
  | idle hi => exact absurd List.mem_cons_self hi
  | waits pre hp hs _ =>
      cases pre with
      | nil => cases hp
      | cons a pre =>
          obtain ⟨rfl, -⟩ := List.cons.inj hp
          cases (List.forall_mem_cons.mp hs).1
  | catchesUp pre hp hs _ =>
      cases pre with
      | nil => cases hp
      | cons a pre =>
          obtain ⟨rfl, -⟩ := List.cons.inj hp
          cases (List.forall_mem_cons.mp hs).1
  | renewed pre hp hs hn hv ho => exact ⟨_, _, hn, hv, ho⟩
  | spins hp => cases hp

/-! ### What is proposed again -/

/-- What a NewView asks the leader of `view` to propose: from `low` to the last instance with a
valid value, that value or an empty batch. -/
def required (view low : Nat) (values : TailMap Bytes) : List PrepareMessage :=
  match values.map.last? with
  | none => []
  | some (last, _) => (List.range' low (last + 1 - low)).map (slot view values)

/-- There is a valid value; and when it is not for an instance before the certified checkpoint, the
leader is still in the view of the NewView and no batch is larger than a slot. -/
def Reproposable (cfg : Config) (s : Consensus) (view : Nat) (values : TailMap Bytes) : Prop :=
  ∃ e ∈ values.map.last?, e.1 < s.certifiedCheckpoint.low ∨
    (s.own cfg).atView = view ∧
      ∀ m ∈ required view s.certifiedCheckpoint.low values, m.data.length ≤ cfg.maxProposalSize

/-- Without a value there is one empty proposal. -/
theorem reproposed_none {values : TailMap Bytes} (h : values.map.last? = none) :
    s.reproposed values = [s.certifiedCheckpoint.low] := by
  simp only [reproposed, h, Option.elim_none, Nat.add_sub_cancel_left]
  rfl

/-- What is reproposed is what is required. -/
theorem map_slot_reproposed {values : TailMap Bytes} {e : Nat × Bytes} (view : Nat)
    (h : values.map.last? = some e) :
    (s.reproposed values).map (slot view values) =
      required view s.certifiedCheckpoint.low values := by
  rw [reproposed, required, h]
  rfl

/-- Nothing is required when every value is below the checkpoint. -/
theorem required_eq_nil {values : TailMap Bytes} {e : Nat × Bytes} {low : Nat} (view : Nat)
    (h : values.map.last? = some e) (hlt : e.1 < low) : required view low values = [] := by
  rw [required, h]
  change List.map _ (List.range' low (e.1 + 1 - low)) = []
  rw [Nat.sub_eq_zero_of_le hlt]
  rfl

/-- The view of what is proposed. -/
theorem required_view {values : TailMap Bytes} {e : Nat × Bytes} {low view view' : Nat}
    (h : values.map.last? = some e) (hle : low ≤ e.1)
    (he : required view low values = required view' low values) : view = view' := by
  simp only [required, h] at he
  obtain ⟨n, hn⟩ : ∃ n, e.1 + 1 - low = n + 1 := ⟨e.1 - low, Nat.succ_sub hle⟩
  rw [hn, List.range'_succ, List.map_cons, List.map_cons] at he
  exact congrArg PrepareMessage.view (List.cons.inj he).1

/-- **What a new leader proposes again.**  The queue is always numbered; where it is refilled, it
holds what the NewView asks for if and only if that can be proposed and there is a valid value. -/
theorem reproposes_iff {m : Machine}
    (h : Reachable (Machine.Init cfg) (Machine.Step cfg) Always m) :
    Numbered m.core.proposals (m.todo.count .proposeNext) ∧
      ∀ rest, m.todo = .repropose :: rest → ∃ nv values, (newViews m.core).head? = some nv ∧
        nv.validValues cfg.window cfg.quorum = .ok values ∧ ∀ inp,
          ((∃ m', m.Step cfg (.exec inp) m' ∧
            m'.core.toPropose = required nv.view m.core.certifiedCheckpoint.low values) ↔
              Reproposable cfg m.core nv.view values) := by
  refine ⟨Machine.numbered_of_reachable h, fun rest ht => ?_⟩
  obtain ⟨nv, values, hn, hv, ho⟩ := Machine.renewed_of_reachable h ht
  refine ⟨nv, values, hn, hv, fun inp => ⟨?_, ?_⟩⟩
  · rintro ⟨m', hs, hp⟩
    obtain ⟨s, cs, hx, rfl⟩ := Machine.step_exec hs ht
    obtain ⟨hlen, rfl, -⟩ := (repropose_eq_ok ho).mp hx
    change List.map _ (m.core.reproposed values) = _ at hp
    cases he : values.map.last? with
    | none =>
        rw [reproposed_none he, required, he] at hp
        cases hp
    | some e =>
        rw [map_slot_reproposed _ he] at hp
        refine ⟨e, he, ?_⟩
        rcases Nat.lt_or_ge e.1 m.core.certifiedCheckpoint.low with hlt | hge
        · exact .inl hlt
        · have hview := required_view he hge hp
          refine .inr ⟨hview, fun p hp' => ?_⟩
          rw [← hp, ← map_slot_reproposed _ he] at hp'
          obtain ⟨i, hi, rfl⟩ := List.mem_map.mp hp'
          exact hlen i hi
  · rintro ⟨e, he, hc⟩
    have hmap := map_slot_reproposed (s := m.core) (m.core.own cfg).atView he
    have hsizes : ∀ i ∈ m.core.reproposed values,
        (slot (m.core.own cfg).atView values i).data.length ≤ cfg.maxProposalSize := by
      intro i hi
      have hm := hmap ▸ List.mem_map_of_mem hi
      rcases hc with hlt | ⟨hview, hsz⟩
      · rw [required_eq_nil _ he hlt] at hm
        cases hm
      · exact hsz _ (hview ▸ hm)
    obtain ⟨s', cs, hs', hx⟩ : ∃ s' cs, s'.toPropose =
        (m.core.reproposed values).map (slot (m.core.own cfg).atView values) ∧
          repropose cfg m.core = .ok (s', cs) :=
      ⟨_, _, rfl, (repropose_eq_ok ho).mpr ⟨hsizes, rfl, rfl⟩⟩
    refine ⟨⟨s', cs ++ rest⟩, Machine.step_of_exec ht hx, hs'.trans (hmap.trans ?_)⟩
    rcases hc with hlt | ⟨hview, -⟩
    · rw [required_eq_nil _ he hlt, required_eq_nil _ he hlt]
    · rw [hview]

/-! ### A NewView without values, and a leader that went on -/

namespace Example

open Deployment

/-- The state in which replica 2, which committed `[7]`, left view 0. -/
def sevenState : SerializedState := ⟨0, 1, [⟨0, 0, [7]⟩]⟩

/-- Replica 1 leaves `n` views and its peers leave view 0, replica 2 having committed `[7]`; both
peers certify what they left, and the NewView of view 1 is broadcast. -/
def refills (n : Nat) : List Label :=
  .call (.toggleSlowPath true) :: (List.replicate n (.call .changeView :: drain 30)).flatten ++
    commitFirst ++ .call .tick :: drain 40 ++ tickCb 0 .sealView ++ tickPeer 1 .sealView 40 ++
    [0, 1].flatMap (certifyState 0 (emptyState 0)) ++ [0, 1].flatMap (certifyState 1 sevenState) ++
    .call .tick :: drain 13

/-- The replica refills the queue with `ps`, in the view `view`. -/
def refilling (view : Nat) (values : Bool) (ps : List PrepareMessage) (m : Machine) : Bool :=
  decide (m.todo.head? = some .repropose) && (m.core.own second).atView == view &&
    (m.core.own second).validValues.any (fun vv => vv.1 == 1 && vv.2.map.last?.isSome == values) &&
    (m.nextOption second (.exec {})).any fun m' => m'.core.toPropose == ps

theorem refilling_cases {view : Nat} {values : Bool} {ps : List PrepareMessage} {m : Machine}
    (h : refilling view values ps m = true) :
    (∃ rest, m.todo = .repropose :: rest) ∧ (m.core.own second).atView = view ∧
      (∃ vv, (m.core.own second).validValues = some vv ∧ vv.1 = 1 ∧
        vv.2.map.last?.isSome = values) ∧
      ∃ m', m.Step second (.exec {}) m' ∧ m'.core.toPropose = ps := by
  simp only [refilling, Bool.and_eq_true, decide_eq_true_eq, beq_iff_eq, Option.any_eq_true] at h
  obtain ⟨⟨⟨ht, ha⟩, vv, hvv, hv, hs⟩, m', hm', hp⟩ := h
  obtain ⟨rest, ht⟩ := List.head?_eq_some_iff.mp ht
  exact ⟨⟨rest, ht⟩, ha, ⟨vv, hvv, hv, hs⟩, m', Machine.step_of_nextOption hm', hp⟩

end Example

/-- What a new leader proposes again, of the NewViews that are `good`. -/
def Reproposes (cfg : Config) (m : Machine) (good : Nat → TailMap Bytes → Prop) : Prop :=
  ∀ rest nv values inp m', m.todo = .repropose :: rest → (newViews m.core).head? = some nv →
    nv.validValues cfg.window cfg.quorum = .ok values → good nv.view values →
    m.Step cfg (.exec inp) m' →
    m'.core.toPropose = required nv.view m.core.certifiedCheckpoint.low values

/-- Where nothing was committed an empty batch is proposed, and a leader that left the view proposes
in another one. -/
theorem not_reproposes :
    (¬ ∀ cfg m, Reachable (Machine.Init cfg) (Machine.Step cfg) Always m →
      Reproposes cfg m fun view _ => (m.core.own cfg).atView = view) ∧
    ¬ ∀ cfg m, Reachable (Machine.Init cfg) (Machine.Step cfg) Always m →
      Reproposes cfg m fun _ values => values.map.last?.isSome := by
  constructor
  · intro h
    obtain ⟨m, hm, hs⟩ : ∃ m, Reachable (Machine.Init Example.second)
        (Machine.Step Example.second) (fun _ _ => True) m ∧
        Example.refilling 1 false [⟨1, 0, []⟩] m = true :=
      Machine.exists_reachable Deployment.allKnown (Example.finishes 13) (by decide +kernel)
    obtain ⟨⟨rest, ht⟩, ha, ⟨vv, hvv, hv, hnone⟩, m', hstep, hp⟩ := Example.refilling_cases hs
    obtain ⟨nv, values, hn, hval, ho⟩ := Machine.renewed_of_reachable hm ht
    obtain rfl := Option.some.inj (hvv.symm.trans ho)
    have hq := h _ m hm.always rest nv values _ m' ht hn hval (ha.trans hv.symm) hstep
    have hlast := Option.isNone_iff_eq_none.mp (Option.isSome_eq_false_iff.mp hnone)
    rw [hp, required, hlast] at hq
    cases hq
  · intro h
    obtain ⟨m, hm, hs⟩ : ∃ m, Reachable (Machine.Init Example.second)
        (Machine.Step Example.second) (fun _ _ => True) m ∧
        Example.refilling 2 true [⟨2, 0, [7]⟩] m = true :=
      Machine.exists_reachable Deployment.allKnown (Example.refills 2) (by decide +kernel)
    obtain ⟨⟨rest, ht⟩, ha, ⟨vv, hvv, hv, hsome⟩, m', hstep, hp⟩ := Example.refilling_cases hs
    obtain ⟨nv, values, hn, hval, ho⟩ := Machine.renewed_of_reachable hm ht
    obtain rfl := Option.some.inj (hvv.symm.trans ho)
    have hq := h _ m hm.always rest nv values _ m' ht hn hval hsome hstep
    obtain ⟨e, he⟩ := Option.isSome_iff_exists.mp hsome
    have hmem : (⟨2, 0, [7]⟩ : PrepareMessage) ∈
        required nv.view m.core.certifiedCheckpoint.low values := by
      rw [← hq, hp]
      exact List.mem_singleton_self _
    rw [required, he] at hmem
    obtain ⟨i, -, hi⟩ := List.mem_map.mp hmem
    have hview : nv.view = 2 := congrArg PrepareMessage.view hi
    exact absurd (hv.symm.trans hview) (by decide)

/-- The leader proposes `[7]` again. -/
theorem reproposes_iff_seven : ∃ (m m' : Machine) (nv : NewViewMessage) (values : TailMap Bytes),
    (newViews m.core).head? = some nv ∧ m.Step Example.second (.exec {}) m' ∧
      m'.core.toPropose = [⟨1, 0, [7]⟩] ∧
      ((∃ m', m.Step Example.second (.exec {}) m' ∧ m'.core.toPropose =
          required nv.view m.core.certifiedCheckpoint.low values) ↔
        Reproposable Example.second m.core nv.view values) := by
  obtain ⟨m, hm, hs⟩ : ∃ m, Reachable (Machine.Init Example.second)
      (Machine.Step Example.second) (fun _ _ => True) m ∧
      Example.refilling 1 true [⟨1, 0, [7]⟩] m = true :=
    Machine.exists_reachable Deployment.allKnown (Example.refills 1) (by decide +kernel)
  obtain ⟨⟨rest, ht⟩, -, -, m', hstep, hp⟩ := Example.refilling_cases hs
  obtain ⟨nv, values, hn, -, hiff⟩ := (reproposes_iff hm.always).2 rest ht
  exact ⟨m, m', nv, values, hn, hstep, hp, hiff {}⟩

end Ubft.Consensus
