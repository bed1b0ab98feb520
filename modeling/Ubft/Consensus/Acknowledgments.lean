import Ubft.Consensus.Ledger
import Ubft.Consensus.Prepares

/-!
# Consensus — the order of acknowledgments

The tail map of the prepare certifier takes its keys in increasing order and throws on a past one.
`tryCertifyPrepares` goes over the instances in order, but it acknowledges each of them as soon as
its own requests are known: an instance whose requests come late is acknowledged after the
instances that follow it.  As long as none is left behind one that is certified (`NoneLeft`),
the indices acknowledged increase (`acknowledged_increasing`).
-/

namespace Ubft.Consensus

variable {cfg : Config} {s s' : Consensus} {inp : Input} {ph ph' : Phase}

/-! ### The calls -/

/-- The CB message that the command handles follows the last one of its sender. -/
def InOrder (cfg : Config) (s : Consensus) (inp : Input) : Cmd → Prop
  | .pollCb r => ∀ im ∈ inp.cb, im.1 = (s.states r).nextCb
  | _ => s.nextIndex = (s.own cfg).nextCb

/-- The command calls `prepare_certifier.acknowledge` in the state `s₁`, with the index `k`. -/
inductive Acknowledges (cfg : Config) (s : Consensus) (inp : Input) :
    Cmd → Consensus → Nat → Prop where
  /-- At the end of `handlePrepare`. -/
  | prepare {c : Cmd} {r : Nat} {p : PrepareMessage} {s₁ s₂ s₃ : Consensus} {d : InstanceState}
      (ho : InOrder cfg s inp c) (hr : Receives cfg s inp c r (.prepare p) s₁)
      (ha : Admissible cfg s₁ r p) (hs : storePrepare cfg s₁ r p = .ok s₂)
      (hc : replayCommits (pack p.view p.inst) s₂ (List.range cfg.ids.length) = .ok s₃)
      (hd : Certifying (s₃.pruneValidValues r p.inst) p.inst d) :
      Acknowledges cfg s inp c (s₃.pruneValidValues r p.inst)
        (pack d.prepareMessage.view d.prepareMessage.inst)
  /-- In `tryCertifyPrepares`, after the instances `is`. -/
  | certify {is is' : List Nat} {i : Nat} {s₁ : Consensus} {d : InstanceState}
      (hi : s.instanceStates.map.entries.map (·.1) = is ++ i :: is')
      (hs : tryCertifyPrepares cfg s is = .ok s₁) (hd : Certifying s₁ i d) :
      Acknowledges cfg s inp .tryCertifyPrepares s₁
        (pack d.prepareMessage.view d.prepareMessage.inst)

/-! ### The condition -/

/-- No instance that could come under certification is below one that did. -/
def NoneLeft (s : Consensus) : Prop :=
  ∀ e ∈ s.instanceStates.map.entries, e.2.certifiedPrepare = false →
    s.requestLog.isValid e.2.prepareMessage.data = true →
      ∀ e' ∈ s.instanceStates.map.entries, e'.2.certifiedPrepare = true → e'.1 ≤ e.1

instance (s : Consensus) : Decidable (NoneLeft s) :=
  inferInstanceAs (Decidable (∀ e ∈ _, _ → _ → ∀ e' ∈ _, _ → _))

/-- The replica goes over its instances. -/
def certifying (m : Machine) : Label → Bool
  | .exec _ =>
    match m.todo with
    | .tryCertifyPrepares :: _ => true
    | _ => false
  | _ => false

/-- The views and the instances fit what `pack` gives them, and no instance is left behind. -/
def Orderly (cfg : Config) (m : Machine) (l : Label) : Prop :=
  (m.core.own cfg).atView < 2 ^ 16 ∧
    (∀ rp ∈ preparing cfg m l, rp.2.view = (m.core.own cfg).atView → rp.2.inst < 2 ^ 48) ∧
    (certifying m l = true → NoneLeft m.core)

instance (m : Machine) (l : Label) : Decidable (Orderly cfg m l) :=
  inferInstanceAs (Decidable (_ ∧ (∀ rp ∈ preparing cfg m l, _ → _) ∧ (_ → _)))

/-! ### The invariant -/

/-- What was acknowledged is of an earlier view or up to the last instance stored, and an
instance that is not certified is behind none, or behind one that is still stored. -/
structure Ascending (cfg : Config) (s : Consensus) (ph : Phase) : Prop where
  below : ∀ k ∈ acknowledged s.log, (unpack k).1 < (s.own cfg).atView ∨
    ph ≠ .sealed ∧ (unpack k).1 = (s.own cfg).atView ∧ (unpack k).2 ≤ s.instanceStates.min
  kept : ∀ i p b, s.entry i = some (p, b) →
    p.inst = i ∧ i < 2 ^ 48 ∧ i ≤ s.instanceStates.min ∧ Current ph p.view (s.own cfg).atView
  left : ∀ j p, s.entry j = some (p, false) → ∀ k ∈ acknowledged s.log,
    (unpack k).1 = (s.own cfg).atView →
      (unpack k).2 ≤ j ∨ ∃ i q, j < i ∧ s.entry i = some (q, true)

/-- Indices are in the order of views, then of instances. -/
theorem le_pack {k v i : Nat} (hv : v < 2 ^ 16) (hi : i < 2 ^ 48)
    (h : (unpack k).1 < v ∨ (unpack k).1 = v ∧ (unpack k).2 ≤ i) : k ≤ pack v i := by
  simp only [unpack, pack, Nat.mod_eq_of_lt hv, Nat.mod_eq_of_lt hi] at h ⊢
  omega

theorem entry_of_find? {i : Nat} {d : InstanceState} (h : s.instanceStates.find? i = some d) :
    s.entry i = some (d.prepareMessage, d.certifiedPrepare) := by
  rw [entry, h]
  rfl

/-- An entry is that of an instance. -/
theorem entry_cases {i : Nat} {p : PrepareMessage} {b : Bool} (h : s.entry i = some (p, b)) :
    ∃ d, s.instanceStates.find? i = some d ∧ d.prepareMessage = p ∧ d.certifiedPrepare = b := by
  obtain ⟨d, hd, he⟩ := Option.map_eq_some_iff.mp h
  cases he
  exact ⟨d, hd, rfl, rfl⟩

/-- Only the instance that came under certification changed. -/
theorem entry_certified {i : Nat} {d : InstanceState} (h : s.instanceStates.find? i = some d)
    (c : Certifier Bytes) (k : Nat) :
    (s.certified i d.prepareMessage c).entry k =
      if k = i then some (d.prepareMessage, true) else s.entry k := by
  change ((s.instanceStates.modify i _).find? k).map _ = _
  rw [TailMap.find?_modify]
  by_cases hk : k = i
  · rw [if_pos hk, if_pos hk, h]
    rfl
  · rw [if_neg hk, if_neg hk]
    rfl

/-- A Prepare that is stored pushes out what is below the tail. -/
theorem entry_stored {r : Nat} {p : PrepareMessage} {t : TailMap InstanceState} {b : Bool}
    (hn : s.instanceStates.find? p.inst = none)
    (ht : s.instanceStates.tryEmplace p.inst (.of p cfg.ids.length) = .ok (t, b)) :
    s.instanceStates.min ≤ p.inst ∧ (stored s r p t).instanceStates.min = p.inst ∧
      ∀ i, (stored s r p t).entry i = if i = p.inst then some (p, false)
        else if i + s.instanceStates.tail ≤ p.inst then none else s.entry i := by
  rcases TailMap.tryEmplace_cases ht with ⟨-, -, -, w, hw⟩ | ⟨-, hle, hmin, -, hf, -⟩
  · rw [hn] at hw
    cases hw
  · refine ⟨hle, hmin, fun i => ?_⟩
    change (t.find? i).map _ = _
    rw [hf]
    split
    · rfl
    · split
      · rfl
      · rfl

namespace Ascending

theorem of_iff (h : Ascending cfg s ph) (hp : ph' = .sealed ↔ ph = .sealed) :
    Ascending cfg s ph' := by
  refine ⟨fun k hk => ?_, fun i p b hi => ?_, h.left⟩
  · rw [Ne, hp]
    exact h.below k hk
  · obtain ⟨hpi, hlt, hle, hv⟩ := h.kept i p b hi
    exact ⟨hpi, hlt, hle, hv.of_iff hp⟩

/-- A step that acknowledges nothing. -/
theorem counts (h : Ascending cfg s ph) (hc : Counts s s')
    (ha : (s'.own cfg).atView = (s.own cfg).atView) : Ascending cfg s' ph := by
  refine ⟨fun k hk => ?_, fun i p b hi => ?_, fun j p hj k hk hv => ?_⟩
  · rw [ha, hc.min]
    exact h.below k (hc.acknowledged ▸ hk)
  · rw [ha, hc.min]
    exact h.kept i p b (hc.entry i ▸ hi)
  · simp only [hc.entry] at hj ⊢
    exact h.left j p hj k (hc.acknowledged ▸ hk) (hv.trans ha)

/-- A Prepare of the current view is stored. -/
theorem stored {r : Nat} {p : PrepareMessage} {t : TailMap InstanceState} {b : Bool}
    (h : Ascending cfg s ph) (hp : ph ≠ .sealed) (ha : p.view = (s.own cfg).atView)
    (hi : p.inst < 2 ^ 48) (hn : s.instanceStates.find? p.inst = none)
    (ht : s.instanceStates.tryEmplace p.inst (.of p cfg.ids.length) = .ok (t, b)) :
    Ascending cfg (Consensus.stored s r p t) ph := by
  obtain ⟨hle, hmin, he⟩ := entry_stored (r := r) hn ht
  have hacked : acknowledged (Consensus.stored s r p t).log = acknowledged s.log := rfl
  refine ⟨fun k hk => ?_, fun i q c hq => ?_, fun j q hj k hk hv => ?_⟩
  · rw [own_stored, hmin]
    rcases h.below k (hacked ▸ hk) with hlt | ⟨hph, hv, hki⟩
    · exact .inl hlt
    · exact .inr ⟨hph, hv, Nat.le_trans hki hle⟩
  · rw [own_stored, hmin]
    rw [he] at hq
    split at hq
    · next hip => cases hq; exact ⟨hip.symm, hip ▸ hi, Nat.le_of_eq hip, current_of_eq hp ha⟩
    · split at hq
      · cases hq
      · obtain ⟨hqi, hlt, him, hv⟩ := h.kept i q c hq
        exact ⟨hqi, hlt, Nat.le_trans him hle, hv⟩
  · rw [own_stored] at hv
    rw [he] at hj
    split at hj
    · -- nothing acknowledged is above the new instance
      next hjp =>
      rcases h.below k (hacked ▸ hk) with hlt | ⟨-, -, hki⟩
      · exact absurd hv (Nat.ne_of_lt hlt)
      · exact .inl (hjp ▸ Nat.le_trans hki hle)
    · split at hj
      · cases hj
      · next hjt =>
          rcases h.left j q hj k (hacked ▸ hk) hv with hkj | ⟨i, q', hji, hq'⟩
          · exact .inl hkj
          · refine .inr ⟨i, q', hji, ?_⟩
            -- what is above an instance that stays, stays
            have hip : i ≠ p.inst := by
              rintro rfl
              rw [entry, hn] at hq'
              cases hq'
            rw [he, if_neg hip, if_neg (by omega)]
            exact hq'

/-- The next Prepare is acknowledged. -/
theorem certified {i : Nat} {d : InstanceState} {c : Certifier Bytes} (h : Ascending cfg s ph)
    (hp : ph ≠ .sealed) (hb : (s.own cfg).atView < 2 ^ 16) (hd : Certifying s i d) :
    Ascending cfg (s.certified i d.prepareMessage c) ph := by
  have he := entry_certified hd.found c
  obtain ⟨hdi, hlt, him, hv⟩ := h.kept i _ _ (entry_of_find? hd.found)
  have hv := hv.eq hp
  have hk₀ : unpack (pack d.prepareMessage.view d.prepareMessage.inst) =
      ((s.own cfg).atView, i) := by
    rw [hv, hdi]
    exact unpack_pack hb hlt
  have hacked : acknowledged (s.certified i d.prepareMessage c).log =
    pack d.prepareMessage.view d.prepareMessage.inst :: acknowledged s.log := rfl
  refine ⟨fun k hk => ?_, fun j q b hq => ?_, fun j q hj k hk hkv => ?_⟩
  · rcases List.mem_cons.mp (hacked ▸ hk) with rfl | hk
    · rw [hk₀]
      exact .inr ⟨hp, rfl, him⟩
    · exact h.below k hk
  · rw [he] at hq
    split at hq
    · next hji =>
        cases hq
        subst hji
        exact ⟨hdi, hlt, him, current_of_eq hp hv⟩
    · exact h.kept j q b hq
  · rw [he] at hj
    split at hj
    · cases hj
    · next hji =>
        have hup : ∀ i' q', s.entry i' = some (q', true) →
            (s.certified i d.prepareMessage c).entry i' = some (q', true) := by
          intro i' q' hq'
          rw [he, if_neg]
          · exact hq'
          · rintro rfl
            rw [entry_of_find? hd.found, hd.uncertified] at hq'
            cases hq'
        rcases List.mem_cons.mp (hacked ▸ hk) with rfl | hk
        · rw [hk₀]
          rcases Nat.lt_or_ge j i with hlt | hge
          · exact .inr ⟨i, _, hlt, by rw [he, if_pos rfl]⟩
          · exact .inl hge
        · rcases h.left j q hj k hk hkv with hkj | ⟨i', q', hji', hq'⟩
          · exact .inl hkj
          · exact .inr ⟨i', q', hji', hup i' q' hq'⟩

theorem tryCertify {i : Nat} (h : Ascending cfg s ph) (hp : ph ≠ .sealed)
    (hb : (s.own cfg).atView < 2 ^ 16) (hx : tryCertifyPrepare cfg s i = .ok s') :
    Ascending cfg s' ph := by
  rcases tryCertifyPrepare_cases hx with ⟨rfl, -⟩ | ⟨d, -, c, hd, -, -, rfl⟩
  · exact h
  · exact h.certified hp hb hd

/-- Over the instances, in order. -/
theorem tryCertifyAll {is : List Nat} (h : Ascending cfg s ph) (hp : ph ≠ .sealed)
    (hb : (s.own cfg).atView < 2 ^ 16) (hx : tryCertifyPrepares cfg s is = .ok s') :
    Ascending cfg s' ph := by
  induction is generalizing s with
  | nil => cases hx; exact h
  | cons i is ih =>
      obtain ⟨s₁, h₁, h₂⟩ := bind_eq_ok.mp hx
      refine ih (h.tryCertify hp hb h₁) ?_ h₂
      rw [(certifies_tryCertifyPrepare h₁).atView]
      exact hb

/-- Until the Prepare comes under certification. -/
theorem replayed {r : Nat} {p : PrepareMessage} {s₂ s₃ : Consensus} (h : Ascending cfg s ph)
    (hp : ph ≠ .sealed) (ha : Admissible cfg s r p) (hi : p.inst < 2 ^ 48)
    (hs : storePrepare cfg s r p = .ok s₂)
    (hc : replayCommits (pack p.view p.inst) s₂ (List.range cfg.ids.length) = .ok s₃) :
    Ascending cfg (s₃.pruneValidValues r p.inst) ph ∧
      ((s₃.pruneValidValues r p.inst).own cfg).atView = (s.own cfg).atView ∧
      (s₃.pruneValidValues r p.inst).instanceStates.min = p.inst := by
  obtain ⟨t, b, ht, rfl⟩ := storePrepare_cases hs
  have h₂ : Ascending cfg (Consensus.stored s r p t) ph := h.stored hp ha.own hi ha.absent ht
  have hk : Keeps cfg (Consensus.stored s r p t) s₃ := keeps_replayCommits hc
  have hcs := counts_replayCommits hc
  have hv : ((s₃.pruneValidValues r p.inst).own cfg).atView = (s₃.own cfg).atView :=
    atView_pruneValidValues s₃ r p.inst
  refine ⟨(h₂.counts hcs hk.atView).counts (.of_eq rfl rfl) hv,
    hv.trans (hk.atView.trans (own_stored t r p)), ?_⟩
  exact hcs.min.trans (entry_stored (r := r) ha.absent ht).2.1

/-- Instances below are forgotten. -/
theorem pruned (h : Ascending cfg s ph) (low : Nat) :
    Ascending cfg (pruneInstances cfg s low) ph := by
  have he : ∀ i, (pruneInstances cfg s low).entry i = if i < low then none else s.entry i := by
    intro i
    change ((s.instanceStates.popBelow low).find? i).map _ = _
    rw [TailMap.find?_popBelow]
    split <;> rfl
  refine ⟨h.below, fun i p b hi => ?_, fun j p hj k hk hv => ?_⟩
  · rw [he] at hi
    split at hi
    · cases hi
    · exact h.kept i p b hi
  · rw [he] at hj
    split at hj
    · cases hj
    · rcases h.left j p hj k hk hv with hkj | ⟨i, q, hji, hq⟩
      · exact .inl hkj
      · refine .inr ⟨i, q, hji, ?_⟩
        rw [he, if_neg (by omega)]
        exact hq

theorem forgotten (h : Ascending cfg s .sealed) : Ascending cfg (forgetView cfg s) ph' :=
  ⟨fun k hk => .inl ((h.below k hk).resolve_right fun hs => hs.1 rfl),
    fun _ _ _ hi => (nomatch hi), fun _ _ hj => (nomatch hj)⟩

/-- What was left is acknowledged. -/
theorem sealed (h : Ascending cfg s .sealing) (hx : sealView cfg s cfg.localIndex = .ok s') :
    Ascending cfg s' .sealed := by
  have hs := seals_sealView hx
  have hc := (idle_sealView hx).counts
  have hlt : ∀ k ∈ acknowledged s'.log, (unpack k).1 < (s'.own cfg).atView := by
    intro k hk
    rw [hs.atView]
    rcases h.below k (hc.acknowledged ▸ hk) with hlt | ⟨-, hv, -⟩
    · exact Nat.lt_succ_of_lt hlt
    · exact Nat.lt_succ_of_le (Nat.le_of_eq hv)
  refine ⟨fun k hk => .inl (hlt k hk), fun i p b hi => ?_,
    fun _ _ _ k hk hv => absurd hv (Nat.ne_of_lt (hlt k hk))⟩
  rw [hc.entry] at hi
  rw [hc.min, hs.atView]
  obtain ⟨hpi, hib, him, hv⟩ := h.kept i p b hi
  exact ⟨hpi, hib, him, Nat.lt_succ_of_le hv.le⟩

end Ascending

/-! ### The commands -/

/-- A commit acknowledges nothing. -/
theorem counts_handleCommit {r : Nat} {o : Option (Certifier.Certificate Bytes)}
    (h : handleCommit cfg s r o = .ok s') : Counts s s' := by
  obtain ⟨c, x, -, -, -, -, rfl⟩ := handleCommit_cases h
  unfold verifyCommit
  split <;> exact .of_eq rfl rfl

/-- **Acknowledgments.**  A command keeps the instances in the order of what was acknowledged. -/
theorem ascending_exec {c : Cmd} {cs rest : List Cmd} (h : exec cfg s inp c = .ok (s', cs))
    (hn : Nested cfg (c :: rest)) (hg : Orderly cfg ⟨s, c :: rest⟩ (.exec inp))
    (ha : Ascending cfg s (phase cfg (c :: rest))) :
    Ascending cfg s' (phase cfg (cs ++ rest)) := by
  by_cases hf : c = .forgetView
  · subst hf
    cases h
    exact (phase_forget rest ▸ ha).forgotten
  by_cases hs : c = .sealView cfg.localIndex
  · subst hs
    obtain ⟨hp, hp'⟩ := phase_seal h hn
    rw [hp] at ha
    rw [hp']
    exact ha.sealed (pure_eq_ok h).1
  refine Ascending.of_iff ?_ (sealed_iff h hn hf hs)
  have hv := atView_exec h hs
  cases exec_books h with
  | idle hi => exact ha.counts hi.counts hv
  | @prepare _ r p s₁ _ hr hadm hx =>
      have hp : phase cfg (c :: rest) ≠ .sealed := by
        rw [phase_loud hr.kind]
        exact nofun
      have hv₁ := hr.keeps.atView
      have hi : p.inst < 2 ^ 48 :=
        hg.2.1 (r, p) (preparing_of_receives hr rest) (hadm.own.trans hv₁)
      obtain ⟨s₂, h₂, hx⟩ := bind_eq_ok.mp hx
      obtain ⟨s₃, h₃, hx⟩ := bind_eq_ok.mp hx
      obtain ⟨ha₃, hv₃, -⟩ := (ha.counts hr.counts hv₁).replayed hp hadm hi h₂ h₃
      exact ha₃.tryCertify hp (by rw [hv₃, hv₁]; exact hg.1) hx
  | commit hr hx =>
      exact (ha.counts hr.counts hr.keeps.atView).counts (counts_handleCommit hx)
        (keeps_handleCommit hx).atView
  | verified hx => exact ha.counts (counts_handleVerifiedCommits hx) hv
  | certify hx => exact ha.tryCertifyAll (by rw [phase_loud rfl]; exact nofun) hg.1 hx
  | prune low n => exact ha.pruned _
  | forget => exact absurd rfl hf

theorem Machine.ascending_of_reachable {m : Machine}
    (h : Reachable (Init cfg) (Step cfg) (Orderly cfg) m) :
    Ascending cfg m.core (phase cfg m.todo) := by
  refine h.induct (P := fun m => Ascending cfg m.core (phase cfg m.todo)) (fun m hm => ?_)
    fun m l m' hr ha hg hs => ?_
  · obtain ⟨requestLog, rfl⟩ := hm
    exact ⟨fun _ hk => (nomatch hk), fun _ _ _ hi => (nomatch hi), fun _ _ hj => (nomatch hj)⟩
  · rcases step_cases hs with ⟨c, s, cs, -, ht, hc, rfl⟩ | ⟨inp, c, rest, s, cs, rfl, ht, he, rfl⟩ |
      ⟨s, hb, rfl⟩
    · have hk := ha.counts (idle_call hc).counts (keeps_call hc).atView
      rw [ht] at hk
      exact (phase_call hc).symm ▸ hk
    · have hn := nested_of_reachable hr
      obtain ⟨core, todo⟩ := m
      subst ht
      exact ascending_exec he hn hg ha
    · have hk : Keeps cfg m.core s := keeps_background hb
      have hv := hk.atView
      obtain ⟨_, _, _, _, _, _, _, _, rfl, -⟩ := background_cases hb
      exact ha.counts (.of_eq rfl rfl) hv

/-! ### The order -/

/-- What is to be certified is above what was acknowledged, of the view as of earlier ones. -/
theorem Ascending.le (h : Ascending cfg s ph) (hp : ph ≠ .sealed)
    (hb : (s.own cfg).atView < 2 ^ 16) {i : Nat} {d : InstanceState} (hd : Certifying s i d)
    (hi : ∀ k ∈ acknowledged s.log, (unpack k).1 = (s.own cfg).atView → (unpack k).2 ≤ i) :
    ∀ k ∈ acknowledged s.log, k ≤ pack d.prepareMessage.view d.prepareMessage.inst := by
  intro k hk
  obtain ⟨hdi, hlt, -, hv⟩ := h.kept i _ _ (entry_of_find? hd.found)
  rw [hdi, hv.eq hp]
  refine le_pack hb hlt ?_
  rcases h.below k hk with hl | ⟨-, hv, -⟩
  · exact .inl hl
  · exact .inr ⟨hv, hi k hk hv⟩

/-- No instance left to go over is behind what was acknowledged in the view. -/
def Ahead (cfg : Config) (s : Consensus) (is : List Nat) : Prop :=
  ∀ i ∈ is, ∀ d, Certifying s i d →
    ∀ k ∈ acknowledged s.log, (unpack k).1 = (s.own cfg).atView → (unpack k).2 ≤ i

/-- When none was left behind, all are ahead. -/
theorem ahead_of_noneLeft (h : Ascending cfg s ph) (hn : NoneLeft s) (is : List Nat) :
    Ahead cfg s is := by
  intro i _ d hd k hk hv
  have he : s.entry i = some (d.prepareMessage, false) := hd.uncertified ▸ entry_of_find? hd.found
  refine (h.left i d.prepareMessage he k hk hv).resolve_right ?_
  rintro ⟨j, q, hij, hq⟩
  obtain ⟨d', hd', -, hc⟩ := entry_cases hq
  exact absurd (hn (i, d) (OrdMap.mem_entries.mpr hd.found) hd.uncertified hd.known (j, d')
    (OrdMap.mem_entries.mpr hd') hc) (Nat.not_le.mpr hij)

theorem Ahead.tryCertify {i : Nat} {is : List Nat} (h : Ahead cfg s (i :: is))
    (hi : ∀ j ∈ is, i < j) (ha : Ascending cfg s ph) (hp : ph ≠ .sealed)
    (hb : (s.own cfg).atView < 2 ^ 16) (hx : tryCertifyPrepare cfg s i = .ok s') :
    Ahead cfg s' is := by
  rcases tryCertifyPrepare_cases hx with ⟨rfl, -⟩ | ⟨d, -, c, hd, -, -, rfl⟩
  · exact fun j hj => h j (List.mem_cons_of_mem i hj)
  · intro j hj d' hd' k hk hv
    obtain ⟨hdi, hlt, -, hdv⟩ := ha.kept i _ _ (entry_of_find? hd.found)
    have hji : j ≠ i := Nat.ne_of_gt (hi j hj)
    rcases List.mem_cons.mp hk with rfl | hk
    · rw [hdi, hdv.eq hp, unpack_pack hb hlt]
      exact Nat.le_of_lt (hi j hj)
    · refine h j (List.mem_cons_of_mem i hj) d' ⟨?_, hd'.uncertified, hd'.known⟩ k hk hv
      have hf : (s.instanceStates.modify i _).find? j = some d' := hd'.found
      rwa [TailMap.find?_modify, if_neg hji] at hf

/-- **Acknowledgments.**  The loop of `tryCertifyPrepares`. -/
theorem le_of_tryCertifyPrepares {is is' : List Nat} {i : Nat} {d : InstanceState}
    (h : Ascending cfg s ph) (hp : ph ≠ .sealed) (hb : (s.own cfg).atView < 2 ^ 16)
    (ho : (is ++ i :: is').Pairwise (· < ·)) (hn : Ahead cfg s (is ++ i :: is'))
    (hx : tryCertifyPrepares cfg s is = .ok s') (hd : Certifying s' i d) :
    ∀ k ∈ acknowledged s'.log, k ≤ pack d.prepareMessage.view d.prepareMessage.inst := by
  induction is generalizing s with
  | nil =>
      cases hx
      exact h.le hp hb hd (hn i (List.mem_cons_self ..) d hd)
  | cons j is ih =>
      obtain ⟨s₁, h₁, h₂⟩ := bind_eq_ok.mp hx
      obtain ⟨hj, ho⟩ := List.pairwise_cons.mp ho
      have hb₁ : (s₁.own cfg).atView < 2 ^ 16 := by
        rw [(certifies_tryCertifyPrepare h₁).atView]
        exact hb
      exact ih (h.tryCertify hp hb h₁) hb₁ ho (hn.tryCertify hj h hp hb h₁) h₂

/-- **Acknowledgments.**  As long as no instance that could come under certification is left
behind one that did, no call of `prepare_certifier.acknowledge` has an index below one that was
acknowledged before. -/
theorem acknowledged_increasing {m : Machine}
    (h : Reachable (Machine.Init cfg) (Machine.Step cfg) (Orderly cfg) m) {c : Cmd}
    {rest : List Cmd} (ht : m.todo = c :: rest) {inp : Input} (hg : Orderly cfg m (.exec inp))
    {s₁ : Consensus} {k : Nat} (ha : Acknowledges cfg m.core inp c s₁ k) :
    ∀ k' ∈ acknowledged s₁.log, k' ≤ k := by
  have hi := Machine.ascending_of_reachable h
  obtain ⟨s, todo⟩ := m
  subst ht
  have hb : (s.own cfg).atView < 2 ^ 16 := hg.1
  cases ha with
  | @prepare _ r p s₁ s₂ s₃ d ho hr hadm hs hc hd =>
      have hp : phase cfg (c :: rest) ≠ .sealed := by
        rw [phase_loud hr.kind]
        exact nofun
      have hv₁ := hr.keeps.atView
      have hpi : p.inst < 2 ^ 48 :=
        hg.2.1 (r, p) (preparing_of_receives hr rest) (hadm.own.trans hv₁)
      obtain ⟨ha₃, hv₃, hmin⟩ := (hi.counts hr.counts hv₁).replayed hp hadm hpi hs hc
      refine ha₃.le hp (by rw [hv₃, hv₁]; exact hb) hd fun k hk hv => ?_
      rcases ha₃.below k hk with hlt | ⟨-, -, hle⟩
      · exact absurd hv (Nat.ne_of_lt hlt)
      · exact hmin ▸ hle
  | @certify is is' i _ d hk hs hd =>
      have hp : phase cfg (.tryCertifyPrepares :: rest) ≠ .sealed := by
        rw [phase_loud rfl]
        exact nofun
      have ho : (is ++ i :: is').Pairwise (· < ·) := by
        rw [← hk]
        exact List.pairwise_map.mpr s.instanceStates.map.sorted
      exact le_of_tryCertifyPrepares hi hp hb ho (ahead_of_noneLeft hi (hg.2.2 rfl) _) hs hd

/-! ### Requests that come late -/

namespace Example

open Deployment

/-- Replica 1 of three, which follows replica 0 in view 0. -/
def follower : Config := replica 3 1 4 8 one_lt_three

/-- The requests of the batch `[7]` are not known. -/
def sevenUnknown : RequestLog := ⟨fun b => b ≠ [7], fun _ => true⟩

/-- Two Prepares arrive, the first of which has requests that come only before the slow path
starts, and the replica is to go over its instances. -/
def lateRequests (batch : Bytes) : List Label :=
  tickCb 0 (.prepare ⟨0, 0, [7]⟩) ++ tickCb 1 (.prepare ⟨0, 1, batch⟩) ++
    .requests allKnown :: .call (.toggleSlowPath true) :: .call .tick :: drain 5

/-- The instances are 0 and 1, and `i` is to be acknowledged after `is`. -/
def toAcknowledge (is : List Nat) (i : Nat) (acked : List Nat) (m : Machine) : Bool :=
  m.todo.head? = some .tryCertifyPrepares && m.core.instanceStates.map.entries.map (·.1) = [0, 1] &&
    match tryCertifyPrepares follower m.core is with
    | .error _ => false
    | .ok s => acknowledged s.log = acked && (s.instanceStates.find? i).any fun d =>
        !d.certifiedPrepare && s.requestLog.isValid d.prepareMessage.data &&
          pack d.prepareMessage.view d.prepareMessage.inst = i

theorem toAcknowledge_cases {is is' : List Nat} {i : Nat} {acked : List Nat} {m : Machine}
    (h : toAcknowledge is i acked m = true) (hi : [0, 1] = is ++ i :: is') (inp : Input) :
    ∃ rest s, m.todo = .tryCertifyPrepares :: rest ∧ acknowledged s.log = acked ∧
      Acknowledges follower m.core inp .tryCertifyPrepares s i := by
  unfold toAcknowledge at h
  simp only [Bool.and_eq_true, decide_eq_true_eq] at h
  obtain ⟨⟨ht, hk⟩, h⟩ := h
  split at h
  · cases h
  · next s hs =>
      simp only [Bool.and_eq_true, decide_eq_true_eq, Option.any_eq_true, Bool.not_eq_true'] at h
      obtain ⟨ha, d, hd, ⟨hc, hv⟩, hp⟩ := h
      obtain ⟨rest, ht⟩ := List.head?_eq_some_iff.mp ht
      exact ⟨rest, s, ht, ha, hp ▸ .certify (hk.trans hi) hs ⟨hd, hc, hv⟩⟩

end Example

/-- The index 0 is acknowledged after the index 1. -/
theorem acknowledged_not_increasing :
    ¬ ∀ (cfg : Config) (m : Machine), Reachable (Machine.Init cfg) (Machine.Step cfg) Always m →
        ∀ c rest, m.todo = c :: rest → ∀ inp s₁ k, Acknowledges cfg m.core inp c s₁ k →
          ∀ k' ∈ acknowledged s₁.log, k' ≤ k := by
  intro h
  obtain ⟨m, hm, hs⟩ : ∃ m, Reachable (Machine.Init Example.follower) (Machine.Step Example.follower)
      (fun _ _ => True) m ∧ Example.toAcknowledge [] 0 [1] m = true :=
    Machine.exists_reachable Example.sevenUnknown (Example.lateRequests [8]) (by decide +kernel)
  obtain ⟨rest, s, ht, hl, ha⟩ := Example.toAcknowledge_cases hs (show [0, 1] = [] ++ 0 :: [1] from rfl) {}
  exact absurd (h _ m hm.always _ rest ht {} s 0 ha 1 (hl ▸ List.mem_singleton_self 1)) (by decide)

/-- When the requests of both come late, the index 1 is acknowledged after the index 0. -/
theorem acknowledged_increasing_late : ∃ (m : Machine) (s : Consensus), acknowledged s.log = [0] ∧
    Acknowledges Example.follower m.core {} .tryCertifyPrepares s 1 ∧
      ∀ k ∈ acknowledged s.log, k ≤ 1 := by
  obtain ⟨m, hm, hs⟩ : ∃ m, Reachable (Machine.Init Example.follower) (Machine.Step Example.follower)
      (Orderly Example.follower) m ∧
      (Example.toAcknowledge [0] 1 [0] m && Orderly Example.follower m (.exec {})) = true :=
    Machine.exists_reachable Example.sevenUnknown (Example.lateRequests [7]) (by decide +kernel)
  obtain ⟨hs, hg⟩ := Bool.and_eq_true_iff.mp hs
  obtain ⟨rest, s, ht, hl, ha⟩ := Example.toAcknowledge_cases hs (show [0, 1] = [0] ++ 1 :: [] from rfl) {}
  exact ⟨m, s, hl, ha, acknowledged_increasing hm ht (of_decide_eq_true hg) ha⟩

end Ubft.Consensus
