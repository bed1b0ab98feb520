import Ubft.Consensus.Effects

/-!
# Consensus — the view of what is held

What is held for an instance, and what is under certification, is of the view the replica is in;
between the SealView and the end of `changeView`, of an earlier one.  The view has to fit the 16
bits that `pack` gives it.
-/

namespace Ubft.Consensus

variable {cfg : Config} {s s' : Consensus} {inp : Input} {ph ph' : Phase}

/-- The views of the prepares held in a phase. -/
def Current (ph : Phase) (view atView : Nat) : Prop :=
  if ph = .sealed then view < atView else view = atView

/-- A view is never ahead of the replica's own. -/
theorem Current.le {v w : Nat} (h : Current ph v w) : v ≤ w := by
  unfold Current at h
  split at h
  · exact Nat.le_of_lt h
  · exact Nat.le_of_eq h

/-- Outside of sealing, both are the same. -/
theorem Current.eq {v w : Nat} (h : Current ph v w) (hp : ph ≠ .sealed) : v = w := by
  unfold Current at h
  rwa [if_neg hp] at h

theorem current_of_eq {v w : Nat} (hp : ph ≠ .sealed) (h : v = w) : Current ph v w := by
  unfold Current
  rwa [if_neg hp]

theorem Current.of_iff {v w : Nat} (h : Current ph v w) (hp : ph' = .sealed ↔ ph = .sealed) :
    Current ph' v w := by
  unfold Current at h ⊢
  simp only [hp]
  exact h

/-- What is kept is of the current view, or of the one before while the replica seals it. -/
structure Views (cfg : Config) (s : Consensus) (ph : Phase) : Prop where
  inst : ∀ i p f, s.held i = some (p, f) → p.inst = i
  view : ∀ i p f, s.held i = some (p, f) → Current ph p.view (s.own cfg).atView
  keys : ∀ k d, s.prepareCertifier.msgTail.find? k = some d →
    Current ph (unpack k).1 (s.own cfg).atView

/-- The view a packed index spells, when it fits. -/
theorem unpack_pack_fst {v : Nat} (h : v < 2 ^ 16) (i : Nat) : (unpack (pack v i)).1 = v := by
  simp only [unpack, pack, Nat.mod_eq_of_lt h]
  omega

/-- The indices of earlier views are below those of a view. -/
theorem lt_pack_of_view_lt {k v : Nat} (h : (unpack k).1 < v) (hv : v < 2 ^ 16) :
    k < pack v 0 := by
  simp only [unpack, pack, Nat.mod_eq_of_lt hv] at h ⊢
  omega

namespace Views

theorem of_iff (h : Views cfg s ph) (hp : ph' = .sealed ↔ ph = .sealed) : Views cfg s ph' :=
  ⟨h.inst, fun i p f hi => (h.view i p f hi).of_iff hp, fun k d hk => (h.keys k d hk).of_iff hp⟩

/-- A step that holds no more prepares, and certifies none. -/
theorem shrink (h : Views cfg s ph) (ha : (s'.own cfg).atView = (s.own cfg).atView)
    (hh : ∀ i p f, s'.held i = some (p, f) → ∃ f', s.held i = some (p, f'))
    (hk : ∀ k d', s'.prepareCertifier.msgTail.find? k = some d' →
      ∃ d, s.prepareCertifier.msgTail.find? k = some d) : Views cfg s' ph := by
  refine ⟨fun i p f hi => ?_, fun i p f hi => ?_, fun k d hd => ?_⟩
  · obtain ⟨f', hi⟩ := hh i p f hi
    exact h.inst i p f' hi
  · obtain ⟨f', hi⟩ := hh i p f hi
    rw [ha]
    exact h.view i p f' hi
  · obtain ⟨d₀, h₀⟩ := hk k d hd
    rw [ha]
    exact h.keys k d₀ h₀

/-- A step that keeps the view and the Prepares. -/
theorem keeps (h : Views cfg s ph) (hk : Keeps cfg s s') : Views cfg s' ph := by
  refine h.shrink hk.atView (fun i p f hi => ⟨f, hk.held i ▸ hi⟩) fun k d hd => ?_
  obtain ⟨d₀, h₀, -⟩ := hk.keys k d hd
  exact ⟨d₀, h₀⟩

/-- A certificate is for the view the replica is in. -/
theorem certifies (h : Views cfg s ph) (hb : (s.own cfg).atView < 2 ^ 16)
    (hk : Certifies cfg s s') : Views cfg s' ph := by
  refine ⟨fun i p f hi => h.inst i p f (hk.held i ▸ hi), fun i p f hi => ?_, fun k d hd => ?_⟩
  · rw [hk.atView]
    exact h.view i p f (hk.held i ▸ hi)
  · rw [hk.atView]
    rcases hk.keys k d hd with ⟨d₀, h₀, -⟩ | ⟨i, p, f, hi, rfl, -⟩
    · exact h.keys k d₀ h₀
    · have hv := h.view i p f hi
      rw [unpack_pack_fst (Nat.lt_of_le_of_lt hv.le hb)]
      exact hv

end Views

/-- What is held once a Prepare is emplaced. -/
theorem held_stored {t : TailMap InstanceState} {r : Nat} {p : PrepareMessage} {b : Bool}
    (h : s.instanceStates.tryEmplace p.inst (.of p cfg.ids.length) = .ok (t, b)) (i : Nat) :
    (stored s r p t).held i = s.held i ∨ (stored s r p t).held i = none ∨
      i = p.inst ∧ (stored s r p t).held i = some (p, .empty cfg.ids.length) := by
  have hd : (stored s r p t).held i = (t.find? i).map fun d => (d.prepareMessage, d.fastCommitted) :=
    rfl
  rcases TailMap.tryEmplace_cases h with ⟨-, rfl, -, -⟩ | ⟨-, -, -, -, hf, -⟩
  · exact .inl hd
  · rw [hf] at hd
    split at hd
    · next hi => exact .inr (.inr ⟨hi, hd⟩)
    · split at hd
      · exact .inr (.inl hd)
      · exact .inl hd

/-- A record changes, and not its view. -/
theorem atView_modifyState {r : Nat} {f : ReplicaState → ReplicaState}
    (hf : (f (s.states r)).atView = (s.states r).atView) :
    ((s.modifyState r f).own cfg).atView = (s.own cfg).atView := by
  change (Function.update s.states r _ cfg.localIndex).atView = _
  by_cases hr : cfg.localIndex = r
  · rw [hr, Function.update_self, own, hr, hf]
  · rw [Function.update_of_ne hr, own]

theorem own_stored (t : TailMap InstanceState) (r : Nat) (p : PrepareMessage) :
    ((stored s r p t).own cfg).atView = (s.own cfg).atView :=
  atView_modifyState (f := fun x => { x with nextPrepare := p.inst }) rfl

/-- A stored Prepare is of the replica's own view. -/
theorem Views.stored {t : TailMap InstanceState} {r : Nat} {p : PrepareMessage} {b : Bool}
    (h : Views cfg s ph) (hp : ph ≠ .sealed) (ha : p.view = (s.own cfg).atView)
    (ht : s.instanceStates.tryEmplace p.inst (.of p cfg.ids.length) = .ok (t, b)) :
    Views cfg (stored s r p t) ph := by
  refine ⟨fun i q f hi => ?_, fun i q f hi => ?_, fun k d hk => ?_⟩
  · rcases held_stored (r := r) ht i with he | he | ⟨rfl, he⟩
    · exact h.inst i q f (he ▸ hi)
    · rw [he] at hi; cases hi
    · rw [he] at hi; cases hi; rfl
  · rw [own_stored]
    rcases held_stored (r := r) ht i with he | he | ⟨rfl, he⟩
    · exact h.view i q f (he ▸ hi)
    · rw [he] at hi; cases hi
    · rw [he] at hi; cases hi; exact current_of_eq hp ha
  · rw [own_stored]
    exact h.keys k d hk

/-! ### The commands -/

/-- Votes of the fast path counted for an instance. -/
theorem held_modifyFast {i k : Nat} {g : DynamicBitset → DynamicBitset} {p : PrepareMessage}
    {f : DynamicBitset}
    (h : (s.modifyInstance k fun d => { d with fastCommitted := g d.fastCommitted }).held i =
      some (p, f)) :
    ∃ f₀, s.held i = some (p, f₀) ∧ (i = k ∧ f = g f₀ ∨ i ≠ k ∧ f = f₀) := by
  change ((s.instanceStates.modify k _).find? i).map _ = _ at h
  rw [TailMap.find?_modify] at h
  by_cases hi : i = k
  · subst hi
    rw [if_pos rfl] at h
    cases hd : s.instanceStates.find? i with
    | none => rw [hd] at h; cases h
    | some d =>
        rw [hd] at h
        cases h
        exact ⟨d.fastCommitted, by rw [held, hd]; rfl, .inl ⟨rfl, rfl⟩⟩
  · rw [if_neg hi] at h
    exact ⟨f, h, .inr ⟨hi, rfl⟩⟩

/-- The same instances are held. -/
theorem isSome_held_modifyInstance (s : Consensus) (k : Nat) (f : InstanceState → InstanceState)
    (i : Nat) : ((s.modifyInstance k f).held i).isSome ↔ (s.held i).isSome := by
  change ((((s.instanceStates.modify k f).find? i).map _).isSome = true) ↔ _
  rw [TailMap.find?_modify, Option.isSome_map, held, Option.isSome_map]
  by_cases hi : i = k
  · rw [if_pos hi, Option.isSome_map, hi]
  · rw [if_neg hi]

theorem held_pruneInstances {low i : Nat} :
    (pruneInstances cfg s low).held i = if i < low then none else s.held i := by
  change ((s.instanceStates.popBelow low).find? i).map _ = _
  rw [TailMap.find?_popBelow]
  split <;> rfl

theorem atView_pruneValidValues (s : Consensus) (r i : Nat) :
    ((s.pruneValidValues r i).own cfg).atView = (s.own cfg).atView := atView_modifyState rfl

theorem Receives.kind {c : Cmd} {r : Nat} {m : Message} {s₁ : Consensus}
    (h : Receives cfg s inp c r m s₁) : c.kind = .loud := by
  cases h <;> rfl

/-- A fast commit sets a bit, if the instance is there. -/
theorem handleFastCommit_cases {r : Nat} {m : FastCommitMessage}
    (h : s.handleFastCommit r m = .ok s') :
    s' = s ∧ s.instanceStates.find? m.inst = none ∨
      s' = s.modifyInstance m.inst fun d => { d with
        fastCommitted := d.fastCommitted.set r } := by
  unfold handleFastCommit at h
  split at h
  · next hn => cases h; exact .inl ⟨rfl, hn⟩
  · split at h
    · cases h
    · cases h; exact .inr rfl

/-- A promise sets the replica's own bit, if it is for the Prepare that is held. -/
theorem handlePromise_cases (cfg : Config) (s : Consensus) (k : Nat) :
    handlePromise cfg s k = s ∨
      handlePromise cfg s k = (s.modifyInstance (unpack k).2 fun d => { d with
        fastCommitted := d.fastCommitted.set cfg.localIndex }).record
          (.fastSent ⟨(unpack k).1, (unpack k).2⟩) := by
  unfold handlePromise
  split
  · exact .inl rfl
  · exact .inr rfl

/-- **What a NewView does**: its valid values are kept for the view. -/
theorem acceptNewView_cases {r : Nat} {m : NewViewMessage}
    (h : acceptNewView cfg s r m = .ok s') :
    ∃ values, m.validValues cfg.window cfg.quorum = .ok values ∧
      s' = (s.modifyState r fun x => { x with
        nextPrepare := x.checkpoint.low
        validValues := some (m.view, values) }).record (.newViewAccepted r m) := by
  unfold acceptNewView at h
  split at h
  · cases h
  · next values hv => cases h; exact ⟨values, hv, rfl⟩

/-- An accepted Prepare, and the replays after it. -/
theorem Views.accepted {r : Nat} {p : PrepareMessage} (h : Views cfg s ph) (hp : ph ≠ .sealed)
    (hb : (s.own cfg).atView < 2 ^ 16) (ha : p.view = (s.own cfg).atView)
    (hx : acceptPrepare cfg s r p = .ok s') : Views cfg s' ph := by
  obtain ⟨t, b, s₂, ht, hr, hc⟩ := acceptPrepare_cases hx
  have h₁ : Views cfg (Consensus.stored s r p t) ph := h.stored hp ha ht
  have hk : Keeps cfg (Consensus.stored s r p t) s₂ := keeps_replayCommits hr
  have h₂ := h₁.keeps hk
  have hv : ((s₂.pruneValidValues r p.inst).own cfg).atView = (s.own cfg).atView :=
    (atView_pruneValidValues s₂ r p.inst).trans (hk.atView.trans (own_stored t r p))
  have h₃ : Views cfg (s₂.pruneValidValues r p.inst) ph :=
    h₂.shrink (atView_pruneValidValues s₂ r p.inst) (fun _ _ f hi => ⟨f, hi⟩)
      fun _ d hd => ⟨d, hd⟩
  exact h₃.certifies (by rw [hv]; exact hb) (certifies_tryCertifyPrepare hc)

/-- The replica has sealed its view; its prepares and its history are those of `s`. -/
structure Seals (cfg : Config) (s s' : Consensus) : Prop where
  atView : (s'.own cfg).atView = (s.own cfg).atView + 1
  instances : s'.instanceStates = s.instanceStates
  certifier : s'.prepareCertifier = s.prepareCertifier
  log : s'.log = s.log
  values : ∀ r, (s'.states r).validValues = (s.states r).validValues

/-- The replica seals its own view. -/
theorem seals_sealView (h : sealView cfg s cfg.localIndex = .ok s') : Seals cfg s s' := by
  obtain ⟨c, -, rfl⟩ := sealView_cases h
  obtain ⟨vc, he⟩ := startViewChange_cases cfg
    { s.modifyState cfg.localIndex (fun x => { x with
        serializedState := some (.of (s.own cfg).atView (s.own cfg).commits)
        atView := (s.own cfg).atView + 1 }) with
      vcStateCertifiers := Function.update s.vcStateCertifiers cfg.localIndex c }
    (s.own cfg).atView
  refine he ▸ ⟨?_, rfl, rfl, rfl, fun r => ?_⟩
  · change (Function.update s.states cfg.localIndex _ cfg.localIndex).atView = _
    rw [Function.update_self]
  · change (Function.update s.states cfg.localIndex _ r).validValues = _
    by_cases hr : r = cfg.localIndex
    · rw [hr, Function.update_self]
    · rw [Function.update_of_ne hr]

/-- The view ends: what was of it is now of an earlier one. -/
theorem Views.sealed (h : Views cfg s .sealing) (hx : sealView cfg s cfg.localIndex = .ok s') :
    Views cfg s' .sealed := by
  have hs := seals_sealView hx
  refine ⟨fun i p f hi => h.inst i p f ?_, fun i p f hi => ?_, fun k d hk => ?_⟩
  · rwa [held, hs.instances] at hi
  · rw [held, hs.instances] at hi
    rw [hs.atView]
    exact Nat.lt_succ_of_le (h.view i p f hi).le
  · rw [hs.certifier] at hk
    rw [hs.atView]
    exact Nat.lt_succ_of_le (h.keys k d hk).le

/-- **Views.**  A command keeps the prepares held to the view of the replica. -/
theorem views_exec {c : Cmd} {cs rest : List Cmd} (h : exec cfg s inp c = .ok (s', cs))
    (hn : Nested cfg (c :: rest)) (hb : (s.own cfg).atView < 2 ^ 16)
    (hv : Views cfg s (phase cfg (c :: rest))) : Views cfg s' (phase cfg (cs ++ rest)) := by
  have hiff := sealed_iff h hn
  cases exec_effect h with
  | keeps hk hf hs => exact (hv.keeps hk).of_iff (hiff hf hs)
  | @prepare _ r p s₁ _ hr ha hx =>
      have hw : phase cfg (c :: rest) = .working := phase_loud hr.kind rest
      have hb₁ : (s₁.own cfg).atView < 2 ^ 16 := by rw [hr.keeps.atView]; exact hb
      exact ((hv.keeps hr.keeps).accepted (by rw [hw]; exact nofun) hb₁ ha.own hx).of_iff
        (hiff hr.ne.1 hr.ne.2)
  | certify hk => exact (hv.certifies hb hk).of_iff (hiff nofun nofun)
  | prune low n =>
      refine Views.of_iff ?_ (hiff nofun nofun)
      generalize (if n = s.adopted then low else inp.freed) = low'
      refine hv.shrink rfl (fun i p f hi => ?_) fun k d hk => ?_
      · rw [held_pruneInstances] at hi
        split at hi
        · cases hi
        · exact ⟨f, hi⟩
      · exact ⟨d, (Certifier.forgetMessages_messages hk).2⟩
  | forget =>
      refine ⟨fun _ _ _ hi => (nomatch hi), fun _ _ _ hi => (nomatch hi), fun k d hk => ?_⟩
      have hk : (s.prepareCertifier.forgetMessages
          (some (pack (s.own cfg).atView 0))).msgTail.find? k = some d := hk
      obtain ⟨hlt, hk⟩ := Certifier.forgetMessages_messages hk
      -- what is left under certification would be of an earlier view
      have hk := hv.keys k d hk
      rw [phase_forget] at hk
      exact absurd hlt (Nat.lt_asymm (lt_pack_of_view_lt hk hb))
  | @promise c k hp =>
      have hc : Views cfg { s with prepareCertifier := c }
          (phase cfg (.pollPrepareCertificatePromises :: rest)) := by
        refine hv.shrink rfl (fun _ _ f hi => ⟨f, hi⟩) fun k d hk => ⟨d, ?_⟩
        have ht := (Certifier.pollPromise_cases s.prepareCertifier).1
        rw [hp] at ht
        exact ht ▸ hk
      refine Views.of_iff ?_ (hiff nofun nofun)
      rcases handlePromise_cases cfg { s with prepareCertifier := c } k with he | he
      · rw [he]
        exact hc
      · rw [he]
        refine hc.shrink rfl (fun i p f hi => ?_) fun _ d hd => ⟨d, hd⟩
        obtain ⟨f₀, h₀, -⟩ := held_modifyFast (g := fun b => b.set cfg.localIndex) hi
        exact ⟨f₀, h₀⟩
  | @fastCommit r m _ hi hx =>
      have hc : Views cfg (s.record (.fastPolled r m)) (phase cfg (.pollFastCommit r :: rest)) :=
        hv.keeps (.record s rfl)
      refine Views.of_iff ?_ (hiff nofun nofun)
      rcases handleFastCommit_cases hx with ⟨rfl, -⟩ | rfl
      · exact hc
      · refine hc.shrink rfl (fun i p f hi => ?_) fun _ d hd => ⟨d, hd⟩
        obtain ⟨f₀, h₀, -⟩ := held_modifyFast (g := fun b => b.set r) hi
        exact ⟨f₀, h₀⟩
  | «seal» hx =>
      have hp := phase_seal h hn
      rw [hp.2]
      exact (hp.1 ▸ hv).sealed hx
  | @accept r m _ hle hx =>
      obtain ⟨values, -, rfl⟩ := acceptNewView_cases hx
      refine Views.of_iff ?_ (hiff nofun nofun)
      refine hv.shrink ?_ (fun _ _ f hi => ⟨f, hi⟩) fun _ d hd => ⟨d, hd⟩
      exact atView_modifyState (f := fun x => { x with
        nextPrepare := x.checkpoint.low
        validValues := some (m.view, values) }) rfl

/-- Only the end of its view moves a replica. -/
theorem atView_exec {c : Cmd} {cs : List Cmd} (h : exec cfg s inp c = .ok (s', cs))
    (hs : c ≠ .sealView cfg.localIndex) : (s'.own cfg).atView = (s.own cfg).atView := by
  cases exec_effect h with
  | keeps hk _ _ => exact hk.atView
  | @prepare _ r p s₁ _ hr _ hx =>
      obtain ⟨t, b, s₂, -, hc, hx⟩ := acceptPrepare_cases hx
      have hk : Keeps cfg (stored s₁ r p t) s₂ := keeps_replayCommits hc
      calc (s'.own cfg).atView
          = ((s₂.pruneValidValues r p.inst).own cfg).atView := (certifies_tryCertifyPrepare hx).atView
        _ = (s₂.own cfg).atView := atView_pruneValidValues s₂ r p.inst
        _ = (s₁.own cfg).atView := hk.atView.trans (own_stored t r p)
        _ = (s.own cfg).atView := hr.keeps.atView
  | certify hk => exact hk.atView
  | prune low n => rfl
  | forget => rfl
  | @promise pc k hp =>
      rcases handlePromise_cases cfg { s with prepareCertifier := pc } k with he | he
      · rw [he]; rfl
      · rw [he]; rfl
  | fastCommit hi hx =>
      rcases handleFastCommit_cases hx with ⟨rfl, -⟩ | rfl
      · rfl
      · rfl
  | «seal» hx => exact absurd rfl hs
  | @accept r m _ hv hx =>
      obtain ⟨values, -, rfl⟩ := acceptNewView_cases hx
      exact atView_modifyState (f := fun x => { x with
        nextPrepare := x.checkpoint.low
        validValues := some (m.view, values) }) rfl

/-! ### The history -/

theorem Extends.suffix {l l' : List Event} (h : Extends l l') : l <:+ l' := by
  obtain ⟨l₀, rfl, -⟩ := h
  exact List.suffix_append l₀ l

/-- The Prepare is stored before anything else is logged. -/
theorem suffix_acceptPrepare {r : Nat} {p : PrepareMessage}
    (h : acceptPrepare cfg s r p = .ok s') : .stored r p :: s.log <:+ s'.log := by
  obtain ⟨t, b, s₂, -, hr, hc⟩ := acceptPrepare_cases h
  have hk : Keeps cfg (stored s r p t) s₂ := keeps_replayCommits hr
  exact hk.log.suffix.trans (certifies_tryCertifyPrepare hc).log.suffix

/-- The history only grows. -/
theorem suffix_exec {c : Cmd} {cs : List Cmd} (h : exec cfg s inp c = .ok (s', cs)) :
    s.log <:+ s'.log := by
  cases exec_effect h with
  | keeps hk _ _ => exact hk.log.suffix
  | prepare hr _ hx =>
      exact hr.keeps.log.suffix.trans ((List.suffix_cons _ _).trans (suffix_acceptPrepare hx))
  | certify hk => exact hk.log.suffix
  | prune low n => exact List.suffix_refl _
  | forget => exact List.suffix_refl _
  | @promise pc k hp =>
      rcases handlePromise_cases cfg { s with prepareCertifier := pc } k with he | he
      · exact he.symm ▸ List.suffix_refl _
      · exact he.symm ▸ List.suffix_cons _ _
  | @fastCommit r m _ hi hx =>
      rcases handleFastCommit_cases hx with ⟨rfl, -⟩ | rfl
      · exact List.suffix_cons _ _
      · exact List.suffix_cons _ _
  | «seal» hx => exact (seals_sealView hx).log ▸ List.suffix_refl _
  | accept _ hx =>
      obtain ⟨values, -, rfl⟩ := acceptNewView_cases hx
      exact List.suffix_cons _ _

/-! ### Runs -/

theorem phase_call {c : Call} {cs : List Cmd} (h : call cfg s c = .ok (s', cs)) :
    phase cfg cs = .working := by
  cases c with
  | tick => cases h; rfl
  | propose => cases h; rfl
  | toggleSlowPath b => cases h; rfl
  | changeView => cases h; rfl
  | getSlot b => obtain ⟨-, rfl⟩ := pure_eq_ok h; rfl
  | pollDecision => obtain ⟨-, rfl⟩ := pure_eq_ok h; rfl
  | triggerCheckpoint i d => obtain ⟨-, rfl⟩ := pure_eq_ok h; rfl

/-- In every run in which the views fit in their field. -/
theorem Machine.views_of_reachable {good : Machine → Label → Prop} {m : Machine}
    (hg : ∀ m l, good m l → (m.core.own cfg).atView < 2 ^ 16)
    (h : Reachable (Init cfg) (Step cfg) good m) : Views cfg m.core (phase cfg m.todo) := by
  refine h.induct (P := fun m => Views cfg m.core (phase cfg m.todo)) (fun m hm => ?_)
    fun m l m' hr hv hgood hs => ?_
  · obtain ⟨requestLog, rfl⟩ := hm
    exact ⟨fun _ _ _ hi => (nomatch hi), fun _ _ _ hi => (nomatch hi), fun _ _ hk => (nomatch hk)⟩
  · rcases step_cases hs with ⟨c, s, cs, -, ht, hc, rfl⟩ | ⟨inp, c, rest, s, cs, -, ht, he, rfl⟩ |
      ⟨s, hb, rfl⟩
    · have hk := hv.keeps (keeps_call hc)
      rw [ht] at hk
      exact (phase_call hc).symm ▸ hk
    · have hn := nested_of_reachable hr
      rw [ht] at hn hv
      exact views_exec he hn (hg m l hgood) hv
    · exact hv.keeps (keeps_background hb)

end Ubft.Consensus
