import Ubft.Consensus.Acknowledgments
import Ubft.Consensus.Instances
import Ubft.Consensus.Reordering

/-!
# Consensus — what is under certification is stored

`prepare_certifier` keeps pointers into the Prepares of `instance_states`.  Each of the two tail
maps evicts by its own keys: a Prepare whose requests are not known is stored but not
acknowledged, and it can push out an instance whose message is still under certification.
`broadcastCheckpointCertificate` and `changeView` drop the messages before the instances, and as
long as no Prepare is stored that would leave one behind (`Backable`), every message of the view
is that of a Prepare stored (`certification_backed`).
-/

namespace Ubft.Consensus

open Certifier (Certificate MessageData)

variable {cfg : Config} {s s' : Consensus} {inp : Input} {ph : Phase}

/-! ### The condition -/

instance (cfg : Config) (s : Consensus) (r : Nat) (p : PrepareMessage) :
    Decidable (Admissible cfg s r p) :=
  decidable_of_iff (¬ IsByzantinePrepare cfg s r p ∧ p.view = (s.own cfg).atView ∧
    s.certifiedCheckpoint.low ≤ p.inst) <| by
  simp only [IsByzantinePrepare, not_or, not_not, Option.not_isSome_iff_eq_none, Nat.not_lt]
  constructor
  · rintro ⟨⟨h₁, h₂, h₃, h₄, h₅, h₆⟩, h₇, h₈⟩
    exact ⟨h₁, h₂, h₃, h₄, h₅, fun hv hu => h₆ ⟨hv, hu⟩, h₇, h₈⟩
  · intro h
    exact ⟨⟨h.leader, h.atView, h.absent, h.next, h.range, fun hu => h.faithful hu.1 hu.2⟩,
      h.own, h.low⟩

/-- A Prepare of the instance `i` pushes out an instance whose message is under certification. -/
def Displaces (cfg : Config) (s : Consensus) (i : Nat) : Prop :=
  ∃ e ∈ s.prepareCertifier.msgTail.map.entries,
    (unpack e.1).1 = (s.own cfg).atView ∧ (unpack e.1).2 + cfg.window ≤ i

instance (cfg : Config) (s : Consensus) (i : Nat) : Decidable (Displaces cfg s i) :=
  inferInstanceAs (Decidable (∃ e ∈ _, _ ∧ _))

/-- The views and instances fit what `pack` gives them, and the requests of a Prepare that pushes
out an instance under certification are known. -/
def Backable (cfg : Config) (m : Machine) (l : Label) : Prop :=
  (m.core.own cfg).atView < 2 ^ 16 ∧ (∀ low ∈ pruning m l, low ≤ 2 ^ 48) ∧
    ∀ rp ∈ preparing cfg m l, Admissible cfg m.core rp.1 rp.2 → rp.2.inst < 2 ^ 48 ∧
      (Displaces cfg m.core rp.2.inst → m.core.requestLog.isValid rp.2.data = true)

instance (m : Machine) (l : Label) : Decidable (Backable cfg m l) :=
  inferInstanceAs (Decidable (_ ∧ (∀ low ∈ pruning m l, _) ∧ ∀ rp ∈ preparing cfg m l, _ → _ ∧ _))

/-- Receiving makes no Prepare admissible. -/
theorem Receives.admissible {c : Cmd} {r : Nat} {m : Message} {p : PrepareMessage}
    {s₁ : Consensus} (h : Receives cfg s inp c r m s₁) (ha : Admissible cfg s₁ r p) :
    Admissible cfg s r p := by
  obtain ⟨n, hr⟩ := h.states r
  have hat := ha.atView
  have hnext := ha.next
  have hrange := ha.range
  have hfaith := ha.faithful
  rw [hr] at hat hnext hrange hfaith
  refine ⟨ha.leader, hat, h.instanceStates ▸ ha.absent, hnext, hrange, hfaith,
    ha.own.trans h.keeps.atView, ?_⟩
  have hlow := ha.low
  rwa [certifiedCheckpoint, h.checkpointCertificate] at hlow

/-! ### The invariant -/

/-- The Prepare stored for an instance. -/
def prepareAt (s : Consensus) (i : Nat) : Option PrepareMessage :=
  (s.instanceStates.find? i).map (·.prepareMessage)

theorem prepareAt_eq (s : Consensus) (i : Nat) : s.prepareAt i = (s.held i).map Prod.fst := by
  rw [prepareAt, held, Option.map_map]
  rfl

theorem prepareAt_modifyInstance (s : Consensus) (k : Nat) {f : InstanceState → InstanceState}
    (hf : ∀ d, (f d).prepareMessage = d.prepareMessage) (i : Nat) :
    (s.modifyInstance k f).prepareAt i = s.prepareAt i := by
  change ((s.instanceStates.modify k f).find? i).map _ = _
  rw [TailMap.find?_modify, prepareAt]
  split
  · next hi =>
      rw [hi, Option.map_map]
      exact congrArg (fun g => Option.map g _) (funext hf)
  · rfl

theorem Stays.prepareAt (h : Stays cfg s s') (i : Nat) : s'.prepareAt i = s.prepareAt i := by
  rw [prepareAt_eq, h.held, ← prepareAt_eq]

/-- The bytes `b` under certification with the index `k` are those of a Prepare stored. -/
def Backs (s : Consensus) (k : Nat) (b : Bytes) : Prop :=
  ∃ p, s.prepareAt (unpack k).2 = some p ∧ p.view = (unpack k).1 ∧ p.data = b

/-- The acknowledged messages of the view are backed by the Prepares stored. -/
structure Backed (cfg : Config) (s : Consensus) : Prop where
  certifierTail : s.prepareCertifier.msgTail.tail = cfg.window
  tail : s.instanceStates.tail = cfg.window
  fits : ∀ i p, s.prepareAt i = some p → i < 2 ^ 48
  keys : ∀ k d, s.prepareCertifier.msgTail.find? k = some d →
    (unpack k).1 = (s.own cfg).atView → s.Backs k d.message

namespace Backed

/-- A step that leaves the Prepares alone. -/
theorem of_prepareAt (h : Backed cfg s) (ha : (s'.own cfg).atView = (s.own cfg).atView)
    (hc : s'.prepareCertifier.msgTail.tail = s.prepareCertifier.msgTail.tail)
    (ht : s'.instanceStates.tail = s.instanceStates.tail)
    (hp : ∀ i, s'.prepareAt i = s.prepareAt i)
    (hk : ∀ k d', s'.prepareCertifier.msgTail.find? k = some d' →
      (∃ d, s.prepareCertifier.msgTail.find? k = some d ∧ d'.message = d.message) ∨
        s.Backs k d'.message) : Backed cfg s' := by
  refine ⟨hc.trans h.certifierTail, ht.trans h.tail, fun i p hi => h.fits i p (hp i ▸ hi),
    fun k d' hd' hv => ?_⟩
  have hb : s.Backs k d'.message := by
    rcases hk k d' hd' with ⟨d, hd, hm⟩ | hb
    · rw [hm]
      exact h.keys k d hd (hv.trans ha)
    · exact hb
  obtain ⟨p, hi, hb⟩ := hb
  exact ⟨p, (hp _).trans hi, hb⟩

/-- Prepares that are stored may come under certification. -/
theorem certifies (h : Backed cfg s) (hv : Views cfg s ph) (hb : (s.own cfg).atView < 2 ^ 16)
    (hc : Certifies cfg s s') : Backed cfg s' := by
  refine h.of_prepareAt hc.atView hc.certifierTail hc.tail hc.prepareAt fun k d' hd' => ?_
  rcases hc.keys k d' hd' with hd | ⟨i, p, f, hi, rfl, hm⟩
  · exact .inl hd
  · have hpi := hv.inst i p f hi
    have hp : s.prepareAt i = some p := by rw [prepareAt_eq, hi]; rfl
    have hview : p.view < 2 ^ 16 := Nat.lt_of_le_of_lt (hv.view i p f hi).le hb
    refine .inr ⟨p, ?_, ?_, hm.symm⟩
    · rw [unpack_pack hview (hpi ▸ h.fits i p hp), hpi]
      exact hp
    · rw [unpack_pack_fst hview]

theorem keeps (h : Backed cfg s) (hk : Keeps cfg s s') : Backed cfg s' :=
  h.of_prepareAt hk.atView hk.certifierTail hk.tail hk.prepareAt fun k d' hd' =>
    .inl (hk.keys k d' hd')

/-- When its view ends, nothing of the view that begins is under certification. -/
theorem viewOver (h : Backed cfg s) (hc : s'.prepareCertifier.msgTail.tail = cfg.window)
    (ht : s'.instanceStates.tail = cfg.window)
    (hp : ∀ i p, s'.prepareAt i = some p → s.prepareAt i = some p)
    (hk : ∀ k d, s'.prepareCertifier.msgTail.find? k = some d →
      (unpack k).1 < (s'.own cfg).atView) : Backed cfg s' :=
  ⟨hc, ht, fun i p hi => h.fits i p (hp i p hi),
    fun k d hd hv => absurd hv (Nat.ne_of_lt (hk k d hd))⟩

end Backed

/-! ### Prepares -/

/-- The Prepares once one is stored that was not. -/
theorem prepareAt_stored {r : Nat} {p : PrepareMessage} {t : TailMap InstanceState} {b : Bool}
    (hn : s.instanceStates.find? p.inst = none)
    (ht : s.instanceStates.tryEmplace p.inst (.of p cfg.ids.length) = .ok (t, b)) (i : Nat) :
    (stored s r p t).prepareAt i = if i = p.inst then some p
      else if i + s.instanceStates.tail ≤ p.inst then none else s.prepareAt i := by
  obtain ⟨-, -, hf⟩ := find?_stored (r := r) hn ht
  rw [prepareAt, hf]
  split
  · rfl
  · split
    · rfl
    · rfl

/-- A message that is acknowledged leaves less than a tail of them behind it. -/
theorem keys_tryCertifyPrepare {i : Nat} {d : InstanceState}
    (h : tryCertifyPrepare cfg s i = .ok s') (hd : Certifying s i d) {k : Nat}
    {d' : MessageData Bytes} (hk : s'.prepareCertifier.msgTail.find? k = some d') :
    k = pack d.prepareMessage.view d.prepareMessage.inst ∧ d'.message = d.prepareMessage.data ∨
      pack d.prepareMessage.view d.prepareMessage.inst < k + s.prepareCertifier.msgTail.tail ∧
        ∃ d₀, s.prepareCertifier.msgTail.find? k = some d₀ ∧ d'.message = d₀.message := by
  rcases tryCertifyPrepare_cases h with ⟨-, hno⟩ | ⟨d₁, c, c', hd₁, hc, hc', rfl⟩
  · exact absurd hd (hno d)
  · cases hd.found.symm.trans hd₁.found
    obtain ⟨d₂, hd₂, hm₂⟩ := (within_implicitPromise hc').messages k d' hk
    obtain ⟨t, ht, hw⟩ := Certifier.acknowledge_cases hc
    obtain ⟨d₃, hd₃, hm₃⟩ := hw.messages k d₂ hd₂
    change t.find? k = some d₃ at hd₃
    rw [TailMap.find?_tryEmplaceWord ht] at hd₃
    split at hd₃
    · next hki =>
        cases hd₃
        exact .inl ⟨hki, hm₂.trans hm₃⟩
    · exact .inr ⟨TailMap.lt_add_of_skipWord hd₃, d₃, TailMap.find?_of_skipWord hd₃,
        hm₂.trans hm₃⟩

theorem Settles.requestLog {r : Nat} {c : Certificate Bytes} (h : Settles s r c s') :
    s'.requestLog = s.requestLog := by
  cases h <;> rfl

theorem Replays.requestLog {useful r : Nat} (h : Replays useful s r s') :
    s'.requestLog = s.requestLog := by
  cases h with
  | skip _ => rfl
  | replay _ _ hs => exact hs.requestLog

theorem requestLog_replayCommits {useful : Nat} {rs : List Nat}
    (h : replayCommits useful s rs = .ok s') : s'.requestLog = s.requestLog := by
  induction rs generalizing s with
  | nil => cases h; rfl
  | cons r rs ih =>
      obtain ⟨s₁, h₁, h₂⟩ := bind_eq_ok.mp h
      exact (ih h₂).trans (replays_of_replayCommit h₁).requestLog

/-- The Prepare stored, once the commits for it are replayed, is not yet under certification. -/
theorem new_replayCommits {r useful : Nat} {rs : List Nat} {p : PrepareMessage}
    {t : TailMap InstanceState} {b : Bool} (hn : s.instanceStates.find? p.inst = none)
    (ht : s.instanceStates.tryEmplace p.inst (.of p cfg.ids.length) = .ok (t, b))
    (h : replayCommits useful (stored s r p t) rs = .ok s') :
    ∃ d, s'.instanceStates.find? p.inst = some d ∧ d.prepareMessage = p ∧
      d.certifiedPrepare = false := by
  obtain ⟨-, -, hf⟩ := find?_stored (r := r) hn ht
  refine entry_cases (((counts_replayCommits h).entry p.inst).trans ?_)
  rw [entry, hf, if_pos rfl]
  rfl

/-- Indices in a tail are instances in a tail, or of an earlier view. -/
theorem lt_add_of_pack_lt {k v i w : Nat} (hv : (unpack k).1 = v) (hb : v < 2 ^ 16)
    (hi : i < 2 ^ 48) (h : pack v i < k + w) : i < (unpack k).2 + w := by
  simp only [unpack, pack, Nat.mod_eq_of_lt hb, Nat.mod_eq_of_lt hi] at hv h ⊢
  omega

namespace Backed

variable {r : Nat} {p : PrepareMessage} {t : TailMap InstanceState} {b : Bool}

/-- Every stored instance fits the field of an index. -/
theorem fits_stored (h : Backed cfg s) (hi : p.inst < 2 ^ 48)
    (hn : s.instanceStates.find? p.inst = none)
    (ht : s.instanceStates.tryEmplace p.inst (.of p cfg.ids.length) = .ok (t, b)) (i : Nat)
    (q : PrepareMessage) (hq : (Consensus.stored s r p t).prepareAt i = some q) : i < 2 ^ 48 := by
  rw [prepareAt_stored hn ht] at hq
  split at hq
  · next heq => exact heq ▸ hi
  · split at hq
    · cases hq
    · exact h.fits i q hq

/-- A message stays backed by an instance that is not pushed out. -/
theorem backs_stored (h : Backed cfg s) (hn : s.instanceStates.find? p.inst = none)
    (ht : s.instanceStates.tryEmplace p.inst (.of p cfg.ids.length) = .ok (t, b)) {k : Nat}
    {d : MessageData Bytes} (hd : s.prepareCertifier.msgTail.find? k = some d)
    (hv : (unpack k).1 = (s.own cfg).atView) (hk : p.inst < (unpack k).2 + cfg.window) :
    (Consensus.stored s r p t).Backs k d.message := by
  obtain ⟨q, hq, hview, hm⟩ := h.keys k d hd hv
  refine ⟨q, ?_, hview, hm⟩
  rw [prepareAt_stored hn ht, if_neg, if_neg, hq]
  · rw [h.tail]
    exact Nat.not_le.mpr hk
  · intro heq
    rw [heq, prepareAt, hn] at hq
    cases hq

/-- **A Prepare that displaces another one is backed by the request log.** -/
theorem accepted (h : Backed cfg s) (ha : Admissible cfg s r p) (hb : (s.own cfg).atView < 2 ^ 16)
    (hi : p.inst < 2 ^ 48) (hd : Displaces cfg s p.inst → s.requestLog.isValid p.data = true)
    (hx : acceptPrepare cfg s r p = .ok s') : Backed cfg s' := by
  obtain ⟨t, b, s₂, ht, hr, hc⟩ := acceptPrepare_cases hx
  have hk : Keeps cfg (Consensus.stored s r p t) s₂ := keeps_replayCommits hr
  have hcert := certifies_tryCertifyPrepare hc
  have hp : ∀ i, s'.prepareAt i = (Consensus.stored s r p t).prepareAt i :=
    fun i => (hcert.prepareAt i).trans (hk.prepareAt i)
  have hv : (s'.own cfg).atView = (s.own cfg).atView := hcert.atView.trans
    ((atView_pruneValidValues s₂ r p.inst).trans (hk.atView.trans (own_stored t r p)))
  have htail : s₂.prepareCertifier.msgTail.tail = cfg.window :=
    hk.certifierTail.trans h.certifierTail
  have hpack : unpack (pack p.view p.inst) = (p.view, p.inst) := unpack_pack (ha.own ▸ hb) hi
  refine ⟨hcert.certifierTail.trans htail, hcert.tail.trans (hk.tail.trans
    ((TailMap.tail_tryEmplace ht).trans h.tail)), fun i q hq => ?_, fun k d' hd' hkv => ?_⟩
  · exact h.fits_stored hi ha.absent ht i q (hp i ▸ hq)
  · have backs : ∀ {m : Bytes}, (Consensus.stored s r p t).Backs k m → s'.Backs k m := by
      rintro m ⟨q, hq, hqv⟩
      exact ⟨q, (hp _).trans hq, hqv⟩
    -- a message that was there before is less than a window behind the Prepare
    have old : ∀ {d : MessageData Bytes}, s₂.prepareCertifier.msgTail.find? k = some d →
        d'.message = d.message → p.inst < (unpack k).2 + cfg.window → s'.Backs k d'.message := by
      intro d hd hm hlt
      obtain ⟨d₀, hd₀, hm₀⟩ := hk.keys k d hd
      rw [hm, hm₀]
      exact backs (h.backs_stored ha.absent ht hd₀ (hkv.trans hv) hlt)
    obtain ⟨x, hfind, hxp, hxc⟩ := new_replayCommits ha.absent ht hr
    by_cases hknown : s.requestLog.isValid p.data = true
    · have hc' : Certifying (s₂.pruneValidValues r p.inst) p.inst x :=
        ⟨hfind, hxc, by rw [hxp]; exact requestLog_replayCommits hr ▸ hknown⟩
      rcases keys_tryCertifyPrepare hc hc' hd' with ⟨hkx, hm⟩ | ⟨hlt, d, hd, hm⟩
      · rw [hxp] at hkx hm
        rw [← hkx] at hpack
        refine backs ⟨p, ?_, ?_, hm.symm⟩
        · rw [hpack, prepareAt_stored ha.absent ht, if_pos rfl]
        · rw [hpack]
      · rw [hxp] at hlt
        have htail' : (s₂.pruneValidValues r p.inst).prepareCertifier.msgTail.tail = cfg.window :=
          htail
        rw [htail'] at hlt
        exact old hd hm (lt_add_of_pack_lt (hkv.trans (hv.trans ha.own.symm)) (ha.own ▸ hb) hi hlt)
    · rcases tryCertifyPrepare_cases hc with ⟨rfl, -⟩ | ⟨x', -, -, hx', -⟩
      · refine old hd' rfl (Nat.not_le.mp fun hle => hknown (hd ?_))
        obtain ⟨d₀, hd₀, -⟩ := hk.keys k d' hd'
        exact ⟨(k, d₀), OrdMap.mem_entries.mpr hd₀, hkv.trans hv, hle⟩
      · cases hfind.symm.trans hx'.found
        have hval := hx'.known
        rw [hxp] at hval
        exact absurd (requestLog_replayCommits hr ▸ hval) hknown

end Backed

/-! ### The commands -/

/-- What is left of the messages once those below `low` are dropped. -/
theorem le_of_pack_lt {k v low : Nat} (hv : (unpack k).1 = v) (hb : v < 2 ^ 16)
    (hl : low ≤ 2 ^ 48) (h : pack v ((low + 2 ^ 64 - 1) % 2 ^ 64) < k) : low ≤ (unpack k).2 := by
  simp only [unpack, pack, Nat.mod_eq_of_lt hb] at hv h ⊢
  omega

theorem Backed.prune (h : Backed cfg s) (hb : (s.own cfg).atView < 2 ^ 16) {low : Nat}
    (hl : low ≤ 2 ^ 48) : Backed cfg (pruneInstances cfg s low) := by
  have hp : ∀ i, (pruneInstances cfg s low).prepareAt i =
      if i < low then none else s.prepareAt i := by
    intro i
    rw [prepareAt_eq, held_pruneInstances, prepareAt_eq]
    split <;> rfl
  refine ⟨h.certifierTail, h.tail, fun i p hi => ?_, fun k d hk hv => ?_⟩
  · rw [hp] at hi
    split at hi
    · cases hi
    · exact h.fits i p hi
  · obtain ⟨hlt, hk⟩ := Certifier.forgetMessages_messages hk
    obtain ⟨p, hi, hb'⟩ := h.keys k d hk hv
    refine ⟨p, ?_, hb'⟩
    rw [hp, if_neg]
    · exact hi
    · -- the messages below the checkpoint are dropped with the instances
      exact Nat.not_lt.mpr (le_of_pack_lt hv hb hl hlt)

/-- **Backing.**  A command keeps what is under certification backed. -/
theorem backed_exec {c : Cmd} {cs rest : List Cmd} (h : exec cfg s inp c = .ok (s', cs))
    (hn : Nested cfg (c :: rest)) (hv : Views cfg s (phase cfg (c :: rest)))
    (hg : Backable cfg ⟨s, c :: rest⟩ (.exec inp)) (hk : Backed cfg s) : Backed cfg s' := by
  obtain ⟨hb, hlow, hprep⟩ := hg
  cases exec_effect h with
  | keeps he _ _ => exact hk.keeps he
  | @prepare _ r p s₁ _ hr ha hx =>
      obtain ⟨hi, hd⟩ := hprep (r, p) (preparing_of_receives hr rest) (hr.admissible ha)
      have hv₁ := hr.keeps.atView
      have hc : s₁.prepareCertifier = s.prepareCertifier := by cases hr <;> rfl
      have hl : s₁.requestLog = s.requestLog := by cases hr <;> rfl
      refine (hk.keeps hr.keeps).accepted ha (hv₁ ▸ hb) hi (fun hd₁ => ?_) hx
      rw [hl]
      rw [Displaces, hc, hv₁] at hd₁
      exact hd hd₁
  | certify he => exact hk.certifies hv hb he
  | prune low n => exact hk.prune hb (hlow _ rfl)
  | forget =>
      refine hk.viewOver hk.certifierTail hk.tail (fun i p hi => (nomatch hi)) fun k d hd => ?_
      have hd := (Certifier.forgetMessages_messages hd).2
      rw [phase_forget] at hv
      exact hv.keys k d hd
  | @promise pc k hp =>
      have ht : pc.msgTail = s.prepareCertifier.msgTail := by
        have ht := (Certifier.pollPromise_cases s.prepareCertifier).1
        rwa [hp] at ht
      have hpc : Backed cfg { s with prepareCertifier := pc } :=
        hk.of_prepareAt rfl (congrArg TailMap.tail ht) rfl (fun _ => rfl)
          fun k d hd => .inl ⟨d, ht ▸ hd, rfl⟩
      rcases handlePromise_cases cfg { s with prepareCertifier := pc } k with he | he
      · rw [he]
        exact hpc
      · rw [he]
        exact hpc.of_prepareAt rfl rfl rfl (prepareAt_modifyInstance _ _ fun _ => rfl)
          fun k d hd => .inl ⟨d, hd, rfl⟩
  | @fastCommit r m _ hi hx =>
      have hr : Backed cfg (s.record (.fastPolled r m)) := hk.keeps (.record s rfl)
      rcases handleFastCommit_cases hx with ⟨rfl, -⟩ | rfl
      · exact hr
      · exact hr.of_prepareAt rfl rfl rfl (prepareAt_modifyInstance _ _ fun _ => rfl)
          fun k d hd => .inl ⟨d, hd, rfl⟩
  | «seal» hx =>
      have hs := seals_sealView hx
      rw [(phase_seal h hn).1] at hv
      refine hk.viewOver (by rw [hs.certifier, hk.certifierTail]) (by rw [hs.instances, hk.tail])
        (fun i p hi => ?_) fun k d hd => ?_
      · rwa [prepareAt, hs.instances] at hi
      · rw [hs.certifier] at hd
        rw [hs.atView]
        exact Nat.lt_succ_of_le (hv.keys k d hd).le
  | @accept r m _ _ hx =>
      obtain ⟨values, -, rfl⟩ := acceptNewView_cases hx
      refine hk.of_prepareAt ?_ rfl rfl (fun _ => rfl) fun k d hd => .inl ⟨d, hd, rfl⟩
      exact atView_modifyState (f := fun x => { x with
        nextPrepare := x.checkpoint.low
        validValues := some (m.view, values) }) rfl

/-- In every run whose displacing Prepares are valid. -/
theorem Machine.backed_of_reachable {m : Machine}
    (h : Reachable (Init cfg) (Step cfg) (Backable cfg) m) : Backed cfg m.core := by
  refine h.induct (P := fun m => Backed cfg m.core) (fun m hm => ?_) fun m l m' hr hk hg hs => ?_
  · obtain ⟨requestLog, rfl⟩ := hm
    exact ⟨rfl, rfl, fun _ _ hi => (nomatch hi), fun _ _ hd => (nomatch hd)⟩
  · rcases step_cases hs with ⟨c, s, cs, -, -, hc, rfl⟩ | ⟨inp, c, rest, s, cs, rfl, ht, he, rfl⟩ |
      ⟨s, hb, rfl⟩
    · exact hk.keeps (keeps_call hc)
    · have hn := nested_of_reachable hr
      have hv := views_of_reachable (fun _ _ hg => hg.1) hr
      obtain ⟨core, todo⟩ := m
      subst ht
      exact backed_exec he hn hv hg hk
    · exact hk.keeps (keeps_background hb)

/-- **What is under certification is stored**, as long as the requests of a Prepare that pushes
out an instance under certification are known: a message of the view of the replica is that of
the Prepare stored for its instance. -/
theorem certification_backed {m : Machine}
    (h : Reachable (Machine.Init cfg) (Machine.Step cfg) (Backable cfg) m) {k : Nat}
    {d : MessageData Bytes} (hd : m.core.prepareCertifier.msgTail.find? k = some d)
    (hv : (unpack k).1 = (m.core.own cfg).atView) :
    ∃ x, m.core.instanceStates.find? (unpack k).2 = some x ∧
      x.prepareMessage.view = (m.core.own cfg).atView ∧ x.prepareMessage.data = d.message := by
  obtain ⟨p, hp, hpv, hm⟩ := (Machine.backed_of_reachable h).keys k d hd hv
  obtain ⟨x, hx, rfl⟩ := Option.map_eq_some_iff.mp hp
  exact ⟨x, hx, hpv.trans hv, hm⟩

/-! ### A Prepare a window ahead -/

namespace Example

open Deployment

/-- Replica 1 of three, with a window of eleven instances. -/
def wide : Config := replica 3 1 11 8 one_lt_three

/-- The requests of the batch `[8]` are not known. -/
def eightUnknown : RequestLog := ⟨fun b => b ≠ [8], fun _ => true⟩

/-- The leader prepares instance 0, broadcasts the checkpoint of the others, which the replica
does not broadcast yet, and prepares instance 11. -/
def windowAhead : List Label :=
  tickCb 0 (.prepare ⟨0, 0, [7]⟩) ++
    tickCb 1 (.checkpoint (some (certificate encodeCheckpoint 1 11 (.of 11 11 []) [0, 2]))) ++
    tickCb 2 (.prepare ⟨0, 11, [8]⟩)

/-- In view 0, the message of the instance `k` is under certification. -/
def underway (k : Nat) (m : Machine) : Bool :=
  (m.core.own wide).atView = 0 && (m.core.prepareCertifier.msgTail.find? k).isSome

end Example

/-- Instance 0 is under certification and not stored any more. -/
theorem certification_not_backed :
    ¬ ∀ (cfg : Config) (m : Machine), Reachable (Machine.Init cfg) (Machine.Step cfg) Always m →
        ∀ k d, m.core.prepareCertifier.msgTail.find? k = some d →
          (unpack k).1 = (m.core.own cfg).atView →
          ∃ x, m.core.instanceStates.find? (unpack k).2 = some x ∧
            x.prepareMessage.view = (m.core.own cfg).atView ∧ x.prepareMessage.data = d.message := by
  intro h
  obtain ⟨m, hm, hs⟩ : ∃ m, Reachable (Machine.Init Example.wide) (Machine.Step Example.wide)
      (fun _ _ => True) m ∧
      (Example.underway 0 m && (m.core.instanceStates.find? 0).isNone) = true :=
    Machine.exists_reachable Example.eightUnknown Example.windowAhead (by decide +kernel)
  simp only [Example.underway, Bool.and_eq_true, decide_eq_true_eq] at hs
  obtain ⟨⟨hv, hk⟩, hn⟩ := hs
  obtain ⟨d, hd⟩ := Option.isSome_iff_exists.mp hk
  obtain ⟨x, hx, -⟩ := h _ m hm.always 0 d hd hv.symm
  have hx : m.core.instanceStates.find? 0 = some x := hx
  rw [Option.isNone_iff_eq_none.mp hn] at hx
  cases hx

/-- When the requests are known, instance 11 takes the place of instance 0 in both. -/
theorem certification_backed_known : ∃ (m : Machine) (d : MessageData Bytes),
    m.core.prepareCertifier.msgTail.find? 0 = none ∧
      m.core.prepareCertifier.msgTail.find? 11 = some d ∧
        ∃ x, m.core.instanceStates.find? 11 = some x ∧ x.prepareMessage.data = d.message := by
  obtain ⟨m, hm, hs⟩ : ∃ m, Reachable (Machine.Init Example.wide) (Machine.Step Example.wide)
      (Backable Example.wide) m ∧ (Example.underway 11 m &&
        (m.core.prepareCertifier.msgTail.find? 0).isNone) = true :=
    Machine.exists_reachable Deployment.allKnown Example.windowAhead (by decide +kernel)
  simp only [Example.underway, Bool.and_eq_true, decide_eq_true_eq] at hs
  obtain ⟨⟨hv, hk⟩, hn⟩ := hs
  obtain ⟨d, hd⟩ := Option.isSome_iff_exists.mp hk
  obtain ⟨x, hx, -, hxd⟩ := certification_backed hm hd hv.symm
  exact ⟨m, d, Option.isNone_iff_eq_none.mp hn, hd, x, hx, hxd⟩

end Ubft.Consensus
