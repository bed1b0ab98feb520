import Ubft.Consensus.Checkpoints

/-!
# Consensus — the Prepares stored

What the history says of every Prepare that was stored: its leader's NewView for exactly its view
was accepted before, its proposal is that NewView's, and no Prepare of the view stored before
is of its instance or of a later one (`prepare_justified`).

`isByzantine(Prepare)` looks for valid values without looking at the view they are for, and
neither `handleSealView` drops those of a view that ends nor `handleNewView` refuses those of
another view: the runs considered are the ones in which the values found are of the view of the
Prepare (`ValuesMatch`).
-/

namespace Ubft.Consensus

variable {cfg : Config} {s s' : Consensus} {inp : Input} {ph ph' : Phase}

/-! ### The conditions -/

/-- No other certificate is adopted while `broadcastCheckpointCertificate` waits for slack, so
that its reference does not dangle. -/
def PruneIntact (m : Machine) : Label → Prop
  | .exec _ =>
    match m.todo with
    | .pruneInstances _ n :: _ => n = m.core.adopted
    | _ => True
  | _ => True

/-- The adopted certificate to which a step prunes. -/
def prunesTo (m : Machine) : Label → Option Nat
  | .exec _ =>
    match m.todo with
    | .pruneInstances _ n :: _ => some n
    | _ => none
  | _ => none

/-- Pruning below the adopted checkpoint only. -/
theorem pruneIntact_iff (m : Machine) (l : Label) :
    (∀ n ∈ prunesTo m l, n = m.core.adopted) ↔ PruneIntact m l := by
  unfold PruneIntact prunesTo
  split
  · split
    · exact ⟨fun h => h _ rfl, fun h n hn => Option.some.inj hn ▸ h⟩
    · exact ⟨fun _ => trivial, by rintro _ n ⟨⟩⟩
  · exact ⟨fun _ => trivial, by rintro _ n ⟨⟩⟩

instance (m : Machine) (l : Label) : Decidable (PruneIntact m l) :=
  decidable_of_iff _ (pruneIntact_iff m l)

/-- The Prepare a step hands to its handler, with its sender. -/
def preparing (cfg : Config) (m : Machine) : Label → Option (Nat × PrepareMessage)
  | .exec inp =>
    match m.todo, inp.cb, m.core.toPropose with
    | .pollCb r :: _, some (_, .prepare p), _ => some (r, p)
    | .broadcast (.prepare p) :: _, _, _ => some (cfg.localIndex, p)
    | .proposeNext :: _, _, p :: _ => some (cfg.localIndex, p)
    | _, _, _ => none
  | _ => none

/-- The valid values kept for the sender of a Prepare of a view other than 0 are for that view. -/
def ValuesMatch (cfg : Config) (m : Machine) (l : Label) : Prop :=
  ∀ rp ∈ preparing cfg m l, rp.2.view ≠ 0 →
    ∀ vv ∈ (m.core.states rp.1).validValues, vv.1 = rp.2.view

instance (m : Machine) (l : Label) : Decidable (ValuesMatch cfg m l) :=
  inferInstanceAs (Decidable (∀ rp ∈ preparing cfg m l, _ → ∀ vv ∈ _, _))

theorem preparing_of_receives {c : Cmd} {r : Nat} {p : PrepareMessage} {s₁ : Consensus}
    (h : Receives cfg s inp c r (.prepare p) s₁) (rest : List Cmd) :
    preparing cfg ⟨s, c :: rest⟩ (.exec inp) = some (r, p) := by
  cases h with
  | poll hi => simp only [preparing, hi]
  | broadcast => rfl
  | propose hp => simp only [preparing, hp]

/-! ### The invariant -/

/-- What came before the Prepare `p` of `r` was stored. -/
structure Justified (cfg : Config) (pre : List Event) (r : Nat) (p : PrepareMessage) : Prop where
  leader : cfg.leader p.view = cfg.idOf r
  newView : ∃ nv values, .delivered r (.newView nv) ∈ pre ∧ .newViewAccepted r nv ∈ pre ∧
    nv.view = p.view ∧ nv.validValues cfg.window cfg.quorum = .ok values ∧
      ∀ v ∈ values.find? p.inst, v = p.data
  first : ∀ r' q, .stored r' q ∈ pre → q.view = p.view → q.inst < p.inst

/-- The valid values are what the Prepares stored have left of those of a NewView accepted for
the view `v`. -/
def Left (cfg : Config) (s : Consensus) (r v : Nat) (t : TailMap Bytes) : Prop :=
  ∃ nv values, .delivered r (.newView nv) ∈ s.log ∧ .newViewAccepted r nv ∈ s.log ∧
    nv.view = v ∧ nv.validValues cfg.window cfg.quorum = .ok values ∧
      ∀ i, (∀ q, .stored r q ∈ s.log → q.view = v → q.inst < i) → t.find? i = values.find? i

/-- The Prepares stored are justified, and the valid values are those of the NewView received. -/
structure Enforced (cfg : Config) (s : Consensus) (ph : Phase) : Prop where
  kept : ∀ i p f, s.held i = some (p, f) → p.inst = i ∧ ∃ r, .stored r p ∈ s.log
  justified : ∀ r p pre, .stored r p :: pre <:+ s.log → p.view ≠ 0 → Justified cfg pre r p
  view : ∀ r p, .stored r p ∈ s.log → p.view ≤ (s.own cfg).atView ∧
    (ph = .sealed → p.view < (s.own cfg).atView)
  /-- Those of the view are below the last one that was emplaced, or it is below the checkpoint. -/
  last : ∀ r p, .stored r p ∈ s.log → p.view = (s.own cfg).atView →
    p.inst < s.instanceStates.min ∨ p.inst = s.instanceStates.min ∧
      ((s.held p.inst).isSome ∨ p.inst < s.certifiedCheckpoint.low)
  values : ∀ r v t, (s.states r).validValues = some (v, t) →
    v ≤ (s.own cfg).atView ∧ Left cfg s r v t

/-- The history before an event that was not just added. -/
theorem suffix_of_suffix_append {l log pre : List Event} {e : Event} (he : e ∉ l)
    (h : e :: pre <:+ l ++ log) : e :: pre <:+ log := by
  induction l with
  | nil => exact h
  | cons a l ih =>
      rcases List.suffix_cons_iff.mp h with heq | h
      · exact absurd (List.cons.inj heq).1 fun h => he (h ▸ List.mem_cons_self)
      · exact ih (fun hl => he (List.mem_cons_of_mem a hl)) h

theorem Left.extends {r v : Nat} {t : TailMap Bytes} (h : Left cfg s r v t)
    (hl : s.log ⊆ s'.log) : Left cfg s' r v t := by
  obtain ⟨nv, values, hd, ha, hv, hok, ht⟩ := h
  exact ⟨nv, values, hl hd, hl ha, hv, hok, fun i hi => ht i fun q hq => hi q (hl hq)⟩

namespace Enforced

theorem of_iff (h : Enforced cfg s ph) (hp : ph' = .sealed ↔ ph = .sealed) :
    Enforced cfg s ph' :=
  ⟨h.kept, h.justified, fun r p hs => ⟨(h.view r p hs).1, fun hx => (h.view r p hs).2 (hp.mp hx)⟩,
    h.last, h.values⟩

/-- A step that stores no Prepare, accepts no NewView and drops what is below the checkpoint. -/
theorem shrink (h : Enforced cfg s ph) (ha : (s'.own cfg).atView = (s.own cfg).atView)
    (hh : ∀ i p f, s'.held i = some (p, f) → ∃ f', s.held i = some (p, f'))
    (hd : ∀ i, (s.held i).isSome → (s'.held i).isSome ∨ i < s'.certifiedCheckpoint.low)
    (hmin : s'.instanceStates.min = s.instanceStates.min)
    (hlog : ∃ l, s'.log = l ++ s.log ∧ ∀ r p, .stored r p ∉ l)
    (hvv : ∀ r, (s'.states r).validValues = (s.states r).validValues)
    (hl : s.certifiedCheckpoint.low ≤ s'.certifiedCheckpoint.low) : Enforced cfg s' ph := by
  obtain ⟨l, hlog, hno⟩ := hlog
  have hsub : s.log ⊆ s'.log := hlog ▸ List.subset_append_right l s.log
  have hs : ∀ {r p}, .stored r p ∈ s'.log → .stored r p ∈ s.log :=
    fun {r p} he => (List.mem_append.mp (hlog ▸ he)).resolve_left (hno r p)
  refine ⟨fun i p f hi => ?_, fun r p pre hp => ?_, fun r p hp => ?_, fun r p hp hv => ?_,
    fun r v t hv => ?_⟩
  · obtain ⟨f', hi⟩ := hh i p f hi
    obtain ⟨hpi, r, hr⟩ := h.kept i p f' hi
    exact ⟨hpi, r, hsub hr⟩
  · exact h.justified r p pre (suffix_of_suffix_append (hno r p) (hlog ▸ hp))
  · rw [ha]
    exact h.view r p (hs hp)
  · rw [ha] at hv
    rw [hmin]
    rcases h.last r p (hs hp) hv with hlt | ⟨he, hh | hc⟩
    · exact .inl hlt
    · exact .inr ⟨he, hd p.inst hh⟩
    · exact .inr ⟨he, .inr (Nat.lt_of_lt_of_le hc hl)⟩
  · rw [hvv] at hv
    rw [ha]
    obtain ⟨hle, hl⟩ := h.values r v t hv
    exact ⟨hle, hl.extends hsub⟩

theorem stays (h : Enforced cfg s ph) (hk : Stays cfg s s')
    (hl : s.certifiedCheckpoint.low ≤ s'.certifiedCheckpoint.low) : Enforced cfg s' ph := by
  refine h.shrink hk.atView (fun i p f hi => ⟨f, hk.held i ▸ hi⟩)
    (fun i hi => .inl (hk.held i ▸ hi)) hk.min ?_ hk.values hl
  obtain ⟨l, hlog, hplain⟩ := hk.log
  exact ⟨l, hlog, fun r p he => nomatch hplain _ he⟩

/-- An admissible Prepare is above those of its view that were stored before. -/
theorem above (h : Enforced cfg s ph) {r : Nat} {p : PrepareMessage} {t : TailMap InstanceState}
    {b : Bool} (ha : Admissible cfg s r p)
    (ht : s.instanceStates.tryEmplace p.inst (.of p cfg.ids.length) = .ok (t, b)) {r' : Nat}
    {q : PrepareMessage} (hq : .stored r' q ∈ s.log) (hv : q.view = p.view) :
    q.inst < p.inst := by
  rcases TailMap.tryEmplace_cases ht with ⟨-, -, -, w, hw⟩ | ⟨-, hmin, -, -, -, -⟩
  · rw [ha.absent] at hw
    cases hw
  · rcases h.last r' q hq (hv.trans ha.own) with hlt | ⟨he, hh | hc⟩
    · exact Nat.lt_of_lt_of_le hlt hmin
    · refine Nat.lt_of_le_of_ne (he ▸ hmin) fun heq => ?_
      rw [heq, held, ha.absent] at hh
      cases hh
    · exact Nat.lt_of_lt_of_le hc ha.low

/-- An admissible Prepare is enforced by the values kept for its view. -/
theorem stored {r : Nat} {p : PrepareMessage} {t : TailMap InstanceState} {b : Bool}
    (h : Enforced cfg s ph) (hph : ph ≠ .sealed) (ha : Admissible cfg s r p)
    (hm : p.view ≠ 0 → ∀ vv ∈ (s.states r).validValues, vv.1 = p.view)
    (ht : s.instanceStates.tryEmplace p.inst (.of p cfg.ids.length) = .ok (t, b)) :
    Enforced cfg (Consensus.stored s r p t) ph := by
  have hlog : (Consensus.stored s r p t).log = .stored r p :: s.log := rfl
  have hsub : s.log ⊆ (Consensus.stored s r p t).log := List.subset_cons_self ..
  have hvalues : ∀ r', ((Consensus.stored s r p t).states r').validValues =
      (s.states r').validValues := by
    intro r'
    change (Function.update s.states r _ r').validValues = _
    by_cases hr : r' = r
    · rw [hr, Function.update_self]
    · rw [Function.update_of_ne hr]
  refine ⟨fun i q f hi => ?_, fun r' q pre hq hv => ?_, fun r' q hq => ?_, fun r' q hq hv => ?_,
    fun r' v t' hv => ?_⟩
  · rcases held_stored (r := r) ht i with he | he | ⟨rfl, he⟩
    · obtain ⟨hqi, r', hr'⟩ := h.kept i q f (he ▸ hi)
      exact ⟨hqi, r', hsub hr'⟩
    · rw [he] at hi
      cases hi
    · rw [he] at hi
      cases hi
      exact ⟨rfl, r, List.mem_cons_self⟩
  · rcases List.suffix_cons_iff.mp (hlog ▸ hq) with he | hq
    · cases he
      have hfirst : ∀ r' q, .stored r' q ∈ s.log → q.view = p.view → q.inst < p.inst :=
        fun r' q hq hv => h.above ha ht hq hv
      refine ⟨ha.leader, ?_, hfirst⟩
      -- without valid values the Prepare would have been refused
      cases hvv : (s.states r).validValues with
      | none => exact absurd (by rw [hvv]; trivial) (ha.faithful hv)
      | some vv =>
          obtain ⟨v, t'⟩ := vv
          obtain rfl : v = p.view := hm hv (v, t') hvv
          obtain ⟨-, nv, values, hd, hna, hnv, hok, hleft⟩ := h.values r p.view t' hvv
          refine ⟨nv, values, hd, hna, hnv, hok, fun x hx => ?_⟩
          -- the value has not been pruned, as no Prepare of the view reaches the instance
          rw [← hleft p.inst fun q hq hqv => hfirst r q hq hqv] at hx
          by_contra hne
          exact ha.faithful hv (by rw [hvv]; exact ⟨x, hx, hne⟩)
    · exact h.justified r' q pre hq hv
  · rw [own_stored]
    rcases List.mem_cons.mp (hlog ▸ hq) with he | hq
    · cases he
      exact ⟨Nat.le_of_eq ha.own, fun hx => absurd hx hph⟩
    · exact h.view r' q hq
  · rw [own_stored] at hv
    rcases TailMap.tryEmplace_cases ht with ⟨-, -, -, w, hw⟩ | ⟨-, hmin, hmin', -, hf, -⟩
    · rw [ha.absent] at hw
      cases hw
    · change q.inst < t.min ∨ q.inst = t.min ∧ _
      rw [hmin']
      rcases List.mem_cons.mp (hlog ▸ hq) with he | hq
      · cases he
        refine .inr ⟨rfl, .inl ?_⟩
        change ((t.find? p.inst).map _).isSome = true
        rw [hf, if_pos rfl]
        rfl
      · exact .inl (h.above ha ht hq (hv.trans ha.own.symm))
  · rw [hvalues] at hv
    rw [own_stored]
    obtain ⟨hle, hl⟩ := h.values r' v t' hv
    exact ⟨hle, hl.extends hsub⟩

/-- The valid values up to a Prepare of their view are pruned once it is stored. -/
theorem pruned {r : Nat} {p : PrepareMessage} (h : Enforced cfg s ph)
    (hp : .stored r p ∈ s.log) (hm : ∀ vv ∈ (s.states r).validValues, vv.1 = p.view) :
    Enforced cfg (s.pruneValidValues r p.inst) ph := by
  refine ⟨h.kept, h.justified, fun r' q hq => ?_, fun r' q hq hv => ?_, fun r' v t hv => ?_⟩
  · rw [atView_pruneValidValues]
    exact h.view r' q hq
  · rw [atView_pruneValidValues] at hv
    exact h.last r' q hq hv
  · rw [atView_pruneValidValues]
    change (Function.update s.states r _ r').validValues = _ at hv
    by_cases hr : r' = r
    · subst hr
      rw [Function.update_self] at hv
      obtain ⟨⟨v', t'⟩, hvv, he⟩ := Option.map_eq_some_iff.mp hv
      cases he
      obtain ⟨hle, nv, values, hd, ha, hnv, hok, hleft⟩ := h.values r' v' t' hvv
      refine ⟨hle, nv, values, hd, ha, hnv, hok, fun i hi => ?_⟩
      rw [TailMap.find?_popBelow, if_neg]
      · exact hleft i hi
      · exact Nat.not_lt.mpr (hi p hp (hm _ hvv).symm)
    · rw [Function.update_of_ne hr] at hv
      exact h.values r' v t hv

theorem accepted {r : Nat} {p : PrepareMessage} (h : Enforced cfg s ph) (hph : ph ≠ .sealed)
    (ha : Admissible cfg s r p)
    (hm : p.view ≠ 0 → ∀ vv ∈ (s.states r).validValues, vv.1 = p.view)
    (hx : acceptPrepare cfg s r p = .ok s') : Enforced cfg s' ph := by
  obtain ⟨t, b, s₂, ht, hr, hc⟩ := acceptPrepare_cases hx
  have h₁ : Enforced cfg (Consensus.stored s r p t) ph := h.stored hph ha hm ht
  have hk : Keeps cfg (Consensus.stored s r p t) s₂ := keeps_replayCommits hr
  have hl₂ : (Consensus.stored s r p t).certifiedCheckpoint.low ≤ s₂.certifiedCheckpoint.low := by
    rw [certified_of_checkpoints (frame_replayCommits hr).checkpoints]
  -- replaying commits changes no Prepare
  have h₂ := h₁.stays hk.toStays hl₂
  -- in view 0 the valid values can only be of view 0
  have hm₂ : ∀ vv ∈ (s₂.states r).validValues, vv.1 = p.view := by
    intro vv hvv
    have hs : (s₂.states r).validValues = (s.states r).validValues := by
      rw [hk.values]
      change (Function.update s.states r _ r).validValues = _
      rw [Function.update_self]
    rw [hs] at hvv
    by_cases hv : p.view = 0
    · have hle := (h.values r vv.1 vv.2 hvv).1
      rw [← ha.own, hv] at hle
      rw [hv]
      exact Nat.le_zero.mp hle
    · exact hm hv vv hvv
  have h₃ := h₂.pruned (hk.log.mem List.mem_cons_self) hm₂
  refine h₃.stays (certifies_tryCertifyPrepare hc).toStays ?_
  rw [certified_of_checkpoints (frame_tryCertifyPrepare hc).checkpoints]

/-- The values of an accepted NewView are kept. -/
theorem accept {r : Nat} {m : NewViewMessage} (h : Enforced cfg s ph)
    (hv : m.view ≤ (s.own cfg).atView) (hd : .delivered r (.newView m) ∈ s.log)
    (hx : acceptNewView cfg s r m = .ok s') : Enforced cfg s' ph := by
  obtain ⟨values, hok, rfl⟩ := acceptNewView_cases hx
  have hw : ((s.modifyState r fun x => { x with
      nextPrepare := x.checkpoint.low
      validValues := some (m.view, values) }).own cfg).atView = (s.own cfg).atView :=
    atView_modifyState rfl
  have hs : ∀ {r' q}, .stored r' q ∈ (.newViewAccepted r m :: s.log) → .stored r' q ∈ s.log :=
    fun he => (List.mem_cons.mp he).resolve_left nofun
  refine ⟨fun i p f hi => ?_, fun r' q pre hq => ?_, fun r' q hq => ?_, fun r' q hq hqv => ?_,
    fun r' v t hvv => ?_⟩
  · obtain ⟨hpi, r', hr'⟩ := h.kept i p f hi
    exact ⟨hpi, r', List.mem_cons_of_mem _ hr'⟩
  · rcases List.suffix_cons_iff.mp hq with he | hq
    · cases he
    · exact h.justified r' q pre hq
  · exact hw ▸ h.view r' q (hs hq)
  · exact h.last r' q (hs hq) (hqv.trans hw)
  · change (Function.update s.states r _ r').validValues = _ at hvv
    by_cases hr : r' = r
    · subst hr
      rw [Function.update_self] at hvv
      cases hvv
      exact ⟨hw ▸ hv, m, values, List.mem_cons_of_mem _ hd, List.mem_cons_self, rfl, hok,
        fun _ _ => rfl⟩
    · rw [Function.update_of_ne hr] at hvv
      obtain ⟨hle, hl⟩ := h.values r' v t hvv
      exact ⟨hw ▸ hle, hl.extends (List.subset_cons_self ..)⟩

theorem sealed (h : Enforced cfg s .sealing) (hx : sealView cfg s cfg.localIndex = .ok s') :
    Enforced cfg s' .sealed := by
  have hs := seals_sealView hx
  refine ⟨fun i p f hi => ?_, fun r p pre hp => ?_, fun r p hp => ?_, fun r p hp hv => ?_,
    fun r v t hv => ?_⟩
  · rw [held, hs.instances] at hi
    rw [hs.log]
    exact h.kept i p f hi
  · rw [hs.log] at hp
    exact h.justified r p pre hp
  · rw [hs.log] at hp
    rw [hs.atView]
    have hle := (h.view r p hp).1
    exact ⟨Nat.le_succ_of_le hle, fun _ => Nat.lt_succ_of_le hle⟩
  · -- nothing of the next view is stored
    rw [hs.log] at hp
    rw [hs.atView] at hv
    exact absurd hv (Nat.ne_of_lt (Nat.lt_succ_of_le (h.view r p hp).1))
  · rw [hs.values] at hv
    rw [hs.atView]
    obtain ⟨hle, hl⟩ := h.values r v t hv
    exact ⟨Nat.le_succ_of_le hle, hl.extends (hs.log ▸ List.Subset.refl _)⟩

end Enforced

/-- **Prepares.**  A command stores what is justified. -/
theorem enforced_exec {c : Cmd} {cs rest : List Cmd} (h : exec cfg s inp c = .ok (s', cs))
    (hn : Nested cfg (c :: rest)) (hp : Pending s c)
    (hi : PruneIntact ⟨s, c :: rest⟩ (.exec inp)) (hm : ValuesMatch cfg ⟨s, c :: rest⟩ (.exec inp))
    (he : Enforced cfg s (phase cfg (c :: rest))) : Enforced cfg s' (phase cfg (cs ++ rest)) := by
  have hiff := sealed_iff h hn
  have hphase := phase_exec h hn
  have hlow := low_le_exec h
  cases exec_effect h with
  | keeps hk hf hs => exact (he.stays hk.toStays hlow).of_iff (hiff hf hs)
  | @prepare _ r p s₁ _ hr ha hx =>
      have he₁ : Enforced cfg s₁ (phase cfg (c :: rest)) := by
        refine he.stays hr.keeps.toStays ?_
        rw [certified_of_checkpoints hr.checkpoints]
      refine (he₁.accepted ?_ ha (fun hv vv hvv => ?_) hx).of_iff (hiff hr.ne.1 hr.ne.2)
      · rw [phase_loud hr.kind]
        exact nofun
      · rw [hr.keeps.values] at hvv
        exact hm (r, p) (preparing_of_receives hr rest) hv vv hvv
  | certify hk => exact (he.stays hk.toStays hlow).of_iff (hiff nofun nofun)
  | prune low n =>
      have hn : n = s.adopted := hi
      rw [if_pos hn] at hlow ⊢
      refine Enforced.of_iff ?_ (hiff nofun nofun)
      refine he.shrink rfl (fun i p f hi => ?_) (fun i hh => ?_) rfl ⟨[], rfl, fun _ _ => nofun⟩
        (fun _ => rfl) hlow
      · rw [held_pruneInstances] at hi
        split at hi
        · cases hi
        · exact ⟨f, hi⟩
      · rw [held_pruneInstances]
        split
        · next hlt => exact .inr (Nat.lt_of_lt_of_le hlt hp)
        · exact .inl hh
  | forget =>
      rw [phase_forget] at he
      refine ⟨fun _ _ _ hi => (nomatch hi), he.justified, fun r p hs => ?_, fun r p hs hv => ?_,
        he.values⟩
      · refine ⟨(he.view r p hs).1, fun hx => ?_⟩
        rcases hphase with ⟨hc, -⟩ | ⟨_, hc, -⟩ | ⟨hc, -⟩ | ⟨-, -, hw⟩ | ⟨hc, -⟩
        · cases hc
        · cases hc
        · cases hc
        · rw [hw] at hx
          cases hx
        · cases hc
      · exact absurd hv (Nat.ne_of_lt ((he.view r p hs).2 rfl))
  | @promise pc k hp =>
      refine Enforced.of_iff ?_ (hiff nofun nofun)
      rcases handlePromise_cases cfg { s with prepareCertifier := pc } k with heq | heq
      · rw [heq]
        exact he.shrink rfl (fun _ _ f hi => ⟨f, hi⟩) (fun _ hh => .inl hh) rfl
          ⟨[], rfl, fun _ _ => nofun⟩ (fun _ => rfl) (Nat.le_refl _)
      · rw [heq]
        refine he.shrink rfl (fun i p f hi => ?_) (fun i hh => .inl ?_) rfl
          ⟨[_], rfl, fun _ _ => by simp⟩ (fun _ => rfl) (Nat.le_refl _)
        · obtain ⟨f₀, h₀, -⟩ := held_modifyFast (g := fun b => b.set cfg.localIndex) hi
          exact ⟨f₀, h₀⟩
        · exact (isSome_held_modifyInstance _ _ _ i).mpr hh
  | @fastCommit r m _ hi hx =>
      refine Enforced.of_iff ?_ (hiff nofun nofun)
      rcases handleFastCommit_cases hx with ⟨rfl, -⟩ | rfl
      · exact he.shrink rfl (fun _ _ f hi => ⟨f, hi⟩) (fun _ hh => .inl hh) rfl
          ⟨[_], rfl, fun _ _ => by simp⟩ (fun _ => rfl) (Nat.le_refl _)
      · refine he.shrink rfl (fun i p f hi => ?_) (fun i hh => .inl ?_) rfl
          ⟨[_], rfl, fun _ _ => by simp⟩ (fun _ => rfl) (Nat.le_refl _)
        · obtain ⟨f₀, h₀, -⟩ := held_modifyFast (g := fun b => b.set r) hi
          exact ⟨f₀, h₀⟩
        · exact (isSome_held_modifyInstance _ _ _ i).mpr hh
  | «seal» hx =>
      have hph := phase_seal h hn
      rw [hph.2]
      exact (hph.1 ▸ he).sealed hx
  | accept hv hx => exact (he.accept hv hp hx).of_iff (hiff nofun nofun)

/-- The Prepares stored follow the NewViews as long as the valid values kept are those of the
view, and what is pruned is the checkpoint that was broadcast. -/
def Enforces (cfg : Config) (m : Machine) (l : Label) : Prop :=
  PruneIntact m l ∧ ValuesMatch cfg m l

instance (m : Machine) (l : Label) : Decidable (Enforces cfg m l) :=
  inferInstanceAs (Decidable (_ ∧ _))

/-- In every run that prunes and prepares by the adopted values. -/
theorem Machine.enforced_of_reachable {m : Machine}
    (h : Reachable (Init cfg) (Step cfg) (Enforces cfg) m) :
    Enforced cfg m.core (phase cfg m.todo) := by
  refine h.induct (P := fun m => Enforced cfg m.core (phase cfg m.todo)) (fun m hm => ?_)
    fun m l m' hr he hg hs => ?_
  · obtain ⟨requestLog, rfl⟩ := hm
    exact ⟨fun _ _ _ hi => (nomatch hi), fun _ _ _ hp => absurd (hp.subset List.mem_cons_self) nofun,
      fun _ _ hp => (nomatch hp), fun _ _ hp => (nomatch hp), fun _ _ _ hv => (nomatch hv)⟩
  · rcases step_cases hs with ⟨c, s, cs, -, ht, hc, rfl⟩ | ⟨inp, c, rest, s, cs, rfl, ht, hx, rfl⟩ |
      ⟨s, hb, rfl⟩
    · have hk := he.stays (keeps_call hc).toStays (by rw [certified_call hc])
      rw [ht] at hk
      exact (phase_call hc).symm ▸ hk
    · have hn := nested_of_reachable hr
      have hp := pending_of_reachable hr
      obtain ⟨core, todo⟩ := m
      subst ht
      exact enforced_exec hx hn (hp c List.mem_cons_self) hg.1 hg.2 he
    · exact he.stays (keeps_background hb).toStays (by rw [certified_background hb])

/-- **Prepares.**  A Prepare of a view other than 0 that is in `instance_states` was stored after
a NewView of its leader for exactly its view was accepted, with that NewView's value, and after
no Prepare of its view for its instance or a later one. -/
theorem prepare_justified {m : Machine}
    (h : Reachable (Machine.Init cfg) (Machine.Step cfg) (Enforces cfg) m) {i : Nat}
    {d : InstanceState} (hd : m.core.instanceStates.find? i = some d)
    (hv : d.prepareMessage.view ≠ 0) :
    d.prepareMessage.inst = i ∧ ∃ r pre, .stored r d.prepareMessage :: pre <:+ m.core.log ∧
      Justified cfg pre r d.prepareMessage := by
  have he := Machine.enforced_of_reachable h
  obtain ⟨hpi, r, hr⟩ := he.kept i d.prepareMessage d.fastCommitted (by rw [held, hd]; rfl)
  obtain ⟨post, pre, hlog⟩ := List.append_of_mem hr
  have hsuf : .stored r d.prepareMessage :: pre <:+ m.core.log := ⟨post, hlog.symm⟩
  exact ⟨hpi, r, pre, hsuf, he.justified r _ pre hsuf hv⟩

/-! ### A Prepare after a NewView of another view -/

namespace Example

open Deployment

/-- Replica 1 seals view 0, its NewView of view `view` is accepted, replica 0 seals view 0 too,
on its own if it has not yet, and the first Prepare of replica 1 in view 1 arrives. -/
def afterNewView (view : Nat) (change : List Label) : List Label :=
  tickCb 0 .sealView ++ tickCb 1 (.newView { sound with view }) ++ change ++
    tickCb 2 (.prepare ⟨1, 0, [7]⟩)

/-- The Prepare of view 1 is in `instance_states`. -/
def prepared (m : Machine) : Bool :=
  (m.core.instanceStates.find? 0).any fun d => d.prepareMessage = ⟨1, 0, [7]⟩

/-- No NewView of view 1 was accepted. -/
def noNewView (m : Machine) : Bool :=
  m.core.log.all fun
    | .newViewAccepted _ nv => nv.view ≠ 1
    | _ => true

theorem prepared_cases {m : Machine} (h : prepared m = true) :
    ∃ d, m.core.instanceStates.find? 0 = some d ∧ d.prepareMessage = ⟨1, 0, [7]⟩ := by
  obtain ⟨d, hd, hp⟩ := (Option.any_eq_true ..).mp h
  exact ⟨d, hd, of_decide_eq_true hp⟩

end Example

/-- The Prepare of view 1 is stored after a NewView of view 0. -/
theorem prepare_not_justified :
    ¬ ∀ (cfg : Config) (m : Machine), Reachable (Machine.Init cfg) (Machine.Step cfg) Always m →
        ∀ i d, m.core.instanceStates.find? i = some d → d.prepareMessage.view ≠ 0 →
          d.prepareMessage.inst = i ∧ ∃ r pre, .stored r d.prepareMessage :: pre <:+ m.core.log ∧
            Justified cfg pre r d.prepareMessage := by
  intro h
  obtain ⟨m, hm, hs⟩ : ∃ m, Reachable (Machine.Init Example.three) (Machine.Step Example.three)
      (fun _ _ => True) m ∧ (Example.prepared m && Example.noNewView m) = true :=
    Machine.exists_reachable Deployment.allKnown
      (Example.afterNewView 0 (.call .changeView :: Deployment.drain 40)) (by decide +kernel)
  obtain ⟨hp, hn⟩ := Bool.and_eq_true_iff.mp hs
  obtain ⟨d, hd, he⟩ := Example.prepared_cases hp
  obtain ⟨-, r, pre, hsuf, hj⟩ := h _ m hm.always 0 d hd (by rw [he]; exact nofun)
  obtain ⟨nv, values, -, ha, hv, -⟩ := hj.newView
  have hna := List.all_eq_true.mp hn _ (hsuf.subset (List.mem_cons_of_mem _ ha))
  rw [he] at hv
  exact of_decide_eq_true hna hv

/-- The Prepare of view 1 is stored after the NewView of view 1. -/
theorem prepare_justified_first : ∃ (m : Machine) (d : InstanceState),
    m.core.instanceStates.find? 0 = some d ∧ ∃ r pre,
      .stored r ⟨1, 0, [7]⟩ :: pre <:+ m.core.log ∧ Justified Example.three pre r ⟨1, 0, [7]⟩ := by
  obtain ⟨m, hm, hs⟩ : ∃ m, Reachable (Machine.Init Example.three) (Machine.Step Example.three)
      (Enforces Example.three) m ∧ Example.prepared m = true :=
    Machine.exists_reachable Deployment.allKnown (Example.afterNewView 1 []) (by decide +kernel)
  obtain ⟨d, hd, he⟩ := Example.prepared_cases hs
  have h := prepare_justified hm hd (by rw [he]; exact nofun)
  rw [he] at h
  exact ⟨m, d, hd, h.2⟩

end Ubft.Consensus
