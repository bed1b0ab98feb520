import Ubft.Consensus.FastVotes
import Ubft.Consensus.Prepares
import Ubft.Consensus.Verifications

/-!
# Consensus — commits and Prepares in any order

A commit that is verified before its Prepare is stored waits in a queue of its sender, which
`handlePrepare` goes through from the front: it drops the indices below the one of the Prepare
and replays the front if it is for the Prepare.  When the verifications end in another order than
the one of the instances, the commit of a Prepare is behind a later one and is not found.

As long as it is found (`Sequenced`), a commit that was polled in its view is counted, waits for
its Prepare, or its Prepare can no longer be stored (`Kept`).
-/

namespace Ubft.Consensus

open Certifier (Certificate)

variable {cfg : Config} {s s' s'' : Consensus} {inp : Input} {ph ph' : Phase}

/-! ### What is counted -/

/-- The Prepare stored for the instance `i` is of view `v`. -/
def Holds (s : Consensus) (v i : Nat) : Prop :=
  ∃ d, s.instanceStates.find? i = some d ∧ d.prepareMessage.view = v

/-- The commit of `r` for the Prepare of view `v` and instance `i` is counted. -/
def Committed (s : Consensus) (r v i : Nat) : Prop :=
  ∃ d, s.instanceStates.find? i = some d ∧ d.prepareMessage.view = v ∧ d.committed.get r = true

/-- A commit with the index `k` is kept for `r` until its Prepare is stored. -/
def Buffered (s : Consensus) (r k : Nat) : Prop :=
  ∃ c ∈ (s.bufferedCommits r).items, c.index = k

/-- The Prepares stored are the same, and no commit is discounted. -/
structure Gains (s s' : Consensus) : Prop where
  holds : ∀ v i, s'.Holds v i ↔ s.Holds v i
  committed : ∀ r v i, s.Committed r v i → s'.Committed r v i
  isSome : ∀ i, (s.instanceStates.find? i).isSome → (s'.instanceStates.find? i).isSome
  min : s'.instanceStates.min = s.instanceStates.min

namespace Gains

theorem of_eq (h : s'.instanceStates = s.instanceStates) : Gains s s' :=
  ⟨fun v i => by rw [Holds, h, Holds], fun r v i hc => by rwa [Committed, h],
    fun i hi => by rwa [h], by rw [h]⟩

theorem trans (h : Gains s s') (h' : Gains s' s'') : Gains s s'' :=
  ⟨fun v i => (h'.holds v i).trans (h.holds v i),
    fun r v i hc => h'.committed r v i (h.committed r v i hc),
    fun i hi => h'.isSome i (h.isSome i hi), h'.min.trans h.min⟩

/-- A bit that is set stays set. -/
theorem modifyInstance (s : Consensus) (i : Nat) {f : InstanceState → InstanceState}
    (hp : ∀ d, (f d).prepareMessage = d.prepareMessage)
    (hc : ∀ d r, d.committed.get r = true → (f d).committed.get r = true) :
    Gains s (s.modifyInstance i f) := by
  have hf : ∀ k, (s.modifyInstance i f).instanceStates.find? k =
      if k = i then (s.instanceStates.find? i).map f else s.instanceStates.find? k :=
    fun k => TailMap.find?_modify ..
  refine ⟨fun v k => ?_, fun r v k hh => ?_, fun k hk => ?_, rfl⟩
  · rw [Holds, hf, Holds]
    split
    · next hki =>
        subst hki
        constructor
        · rintro ⟨d, hd, hv⟩
          obtain ⟨d₀, hd₀, rfl⟩ := Option.map_eq_some_iff.mp hd
          exact ⟨d₀, hd₀, (congrArg PrepareMessage.view (hp d₀)).symm.trans hv⟩
        · rintro ⟨d, hd, hv⟩
          exact ⟨f d, by rw [hd]; rfl, (congrArg PrepareMessage.view (hp d)).trans hv⟩
    · exact Iff.rfl
  · obtain ⟨d, hd, hv, hg⟩ := hh
    rw [Committed, hf]
    split
    · next hki =>
        subst hki
        exact ⟨f d, by rw [hd]; rfl, (congrArg PrepareMessage.view (hp d)).trans hv, hc d r hg⟩
    · exact ⟨d, hd, hv, hg⟩
  · rw [hf]
    split
    · next hki =>
        rw [Option.isSome_map, ← hki]
        exact hk
    · exact hk

/-- A step that leaves the ledger alone. -/
theorem of_idle (h : Idle s s') : Gains s s' := by
  have hto : ∀ {s₁ s₂ : Consensus} {i d}, s₂.account i = s₁.account i →
      s₁.instanceStates.find? i = some d →
        ∃ d', s₂.instanceStates.find? i = some d' ∧ d'.account = d.account := by
    intro s₁ s₂ i d he hd
    have hd₂ : s₂.account i = some d.account := by
      rw [he, account, hd]
      rfl
    exact Option.map_eq_some_iff.mp hd₂
  have hholds : ∀ {s₁ s₂ : Consensus} {v i}, s₂.account i = s₁.account i →
      s₁.Holds v i → s₂.Holds v i := by
    rintro s₁ s₂ v i he ⟨d, hd, hv⟩
    obtain ⟨d', hd', ha⟩ := hto he hd
    exact ⟨d', hd', (congrArg (·.prepareMessage.view) ha).trans hv⟩
  refine ⟨fun v i => ⟨hholds (h.account i).symm, hholds (h.account i)⟩, fun r v i hc => ?_,
    fun i hi => ?_, h.min⟩
  · obtain ⟨d, hd, hv, hg⟩ := hc
    obtain ⟨d', hd', ha⟩ := hto (h.account i) hd
    refine ⟨d', hd', (congrArg (·.prepareMessage.view) ha).trans hv, ?_⟩
    rw [show d'.committed = d.committed from congrArg (·.committed) ha]
    exact hg
  · obtain ⟨d, hd⟩ := Option.isSome_iff_exists.mp hi
    obtain ⟨d', hd', -⟩ := hto (h.account i) hd
    rw [hd']
    rfl

/-- A commit that is counted is gained. -/
theorem receivedCommit (s : Consensus) (r i : Nat) : Gains s (s.receivedCommit r i) :=
  modifyInstance s i (fun _ => rfl) fun d r' h =>
    (DynamicBitset.get_set d.committed r r').mpr (.inr h)

end Gains

/-- A verified commit takes none away. -/
theorem Settles.gains {r : Nat} {c : Certificate Bytes} (h : Settles s r c s') : Gains s s' := by
  cases h with
  | buffer hn => exact .of_eq rfl
  | count hd hb =>
      have hd : Gains s (s.discharge r) := .of_eq rfl
      exact hd.trans (.receivedCommit (s.discharge r) r _)

/-- A commit that is counted. -/
theorem committed_receivedCommit {r v i : Nat} (h : s.Holds v i) :
    (s.receivedCommit r i).Committed r v i := by
  obtain ⟨d, hd, hv⟩ := h
  refine ⟨{ d with committed := d.committed.set r }, ?_, hv,
    (DynamicBitset.get_set d.committed r r).mpr (.inl rfl)⟩
  change (s.instanceStates.modify i _).find? i = _
  rw [TailMap.find?_modify, if_pos rfl, hd]
  rfl

/-- Certifying a Prepare takes no commit away. -/
theorem gains_tryCertifyPrepares {is : List Nat} (h : tryCertifyPrepares cfg s is = .ok s') :
    Gains s s' ∧ s'.bufferedCommits = s.bufferedCommits := by
  induction is generalizing s with
  | nil => cases h; exact ⟨.of_eq rfl, rfl⟩
  | cons i is ih =>
      obtain ⟨s₁, h₁, h₂⟩ := bind_eq_ok.mp h
      obtain ⟨hg, hb⟩ := ih h₂
      rcases tryCertifyPrepare_cases h₁ with ⟨rfl, -⟩ | ⟨d, -, c, -, -, -, rfl⟩
      · exact ⟨hg, hb⟩
      · have hp : Gains s { s with prepareCertifier := c } := .of_eq rfl
        have hc : Gains { s with prepareCertifier := c } (s.certified i d.prepareMessage c) :=
          (Gains.modifyInstance _ i (f := fun d => { d with certifiedPrepare := true })
            (fun _ => rfl) fun _ _ h => h).trans (.of_eq rfl)
        exact ⟨hp.trans (hc.trans hg), hb⟩

/-! ### Replays -/

theorem mem_dropWhile_of_neg {α : Type} {p : α → Bool} {l : List α} {a : α} (h : a ∈ l)
    (hp : p a = false) : a ∈ l.dropWhile p := by
  rw [← List.takeWhile_append_dropWhile (p := p) (l := l)] at h
  rcases List.mem_append.mp h with h | h
  · rw [List.mem_takeWhile_imp h] at hp
    cases hp
  · exact h

/-- What going through the commits of `r` does: those of later indices stay, and the front is
counted when it is for the Prepare. -/
structure Replayed (useful r : Nat) (s s' : Consensus) : Prop where
  gains : Gains s s'
  others : ∀ r' ≠ r, s'.bufferedCommits r' = s.bufferedCommits r'
  later : ∀ k, useful < k → s.Buffered r k → s'.Buffered r k
  counted : ∀ v, s.Holds v (unpack useful).2 → ¬ Unbuffered useful s r →
    s'.Committed r v (unpack useful).2

/-- The useful commit at the front of the buffer is counted. -/
theorem Replays.replayed {useful r : Nat} (h : Replays useful s r s')
    (hi : (s.instanceStates.find? (unpack useful).2).isSome) : Replayed useful r s s' := by
  have ho : Gains s (outdate useful s r) := .of_eq rfl
  have hlater : ∀ k, useful < k → s.Buffered r k → (outdate useful s r).Buffered r k := by
    rintro k hk ⟨c, hc, rfl⟩
    refine ⟨c, ?_, rfl⟩
    rw [bufferedCommits_outdate]
    exact mem_dropWhile_of_neg hc (decide_eq_false (Nat.lt_asymm hk))
  cases h with
  | skip hu =>
      exact ⟨ho, fun r' hr => Function.update_of_ne hr .., hlater,
        fun _ _ hf => absurd hu hf⟩
  | @replay c s₁ hc hcu hs =>
      cases hs with
      | buffer hn =>
          -- the Prepare is stored
          rw [hcu] at hn
          change s.instanceStates.find? _ = none at hn
          rw [hn] at hi
          cases hi
      | count hd hb =>
          rw [hcu]
          refine ⟨ho.trans ?_, fun r' hr => ?_, fun k hk hbk => ?_, fun v hv _ => ?_⟩
          · have hd : Gains (outdate useful s r) ((outdate useful s r).discharge r) := .of_eq rfl
            exact hd.trans ((Gains.receivedCommit _ r _).trans (.of_eq rfl))
          · exact (Function.update_of_ne hr ..).trans (Function.update_of_ne hr ..)
          · obtain ⟨c', hc', rfl⟩ := hlater k hk hbk
            refine ⟨c', ?_, rfl⟩
            obtain ⟨l, hl⟩ := List.head?_eq_some_iff.mp hc
            have hp : (Function.update (outdate useful s r).bufferedCommits r
                ((outdate useful s r).bufferedCommits r).popFront r).items = l := by
              rw [Function.update_self]
              exact congrArg (List.drop 1) hl
            rw [hl] at hc'
            refine hp ▸ ?_
            rcases List.mem_cons.mp hc' with rfl | hc'
            · exact absurd hcu (Nat.ne_of_gt hk)
            · exact hc'
          · exact committed_receivedCommit hv

theorem replayed_all {useful : Nat} {rs : List Nat} (h : replayCommits useful s rs = .ok s')
    (hn : rs.Nodup) (hi : (s.instanceStates.find? (unpack useful).2).isSome) :
    Gains s s' ∧ (∀ r k, useful < k → s.Buffered r k → s'.Buffered r k) ∧
      ∀ r ∈ rs, ∀ v, s.Holds v (unpack useful).2 → ¬ Unbuffered useful s r →
        s'.Committed r v (unpack useful).2 := by
  induction rs generalizing s with
  | nil => cases h; exact ⟨.of_eq rfl, fun _ _ _ hb => hb, fun _ hr => (nomatch hr)⟩
  | cons q rs ih =>
      obtain ⟨s₁, h₁, h₂⟩ := bind_eq_ok.mp h
      obtain ⟨hq, hn⟩ := List.nodup_cons.mp hn
      have hr₁ := (replays_of_replayCommit h₁).replayed hi
      obtain ⟨hg, hl, hc⟩ := ih h₂ hn (hr₁.gains.isSome _ hi)
      have hbuf : ∀ r k, useful < k → s.Buffered r k → s₁.Buffered r k := by
        intro r k hk hb
        by_cases hrq : r = q
        · exact hrq ▸ hr₁.later k hk (hrq ▸ hb)
        · rwa [Buffered, hr₁.others r hrq]
      refine ⟨hr₁.gains.trans hg, fun r k hk hb => hl r k hk (hbuf r k hk hb),
        fun r hr v hv hu => ?_⟩
      rcases List.mem_cons.mp hr with rfl | hr
      · exact hg.committed _ _ _ (hr₁.counted v hv hu)
      · have hrq : r ≠ q := fun heq => hq (heq ▸ hr)
        refine hc r hr v ((hr₁.gains.holds _ _).mpr hv) fun hu₁ => hu fun c hc => hu₁ c ?_
        rw [bufferedCommits_outdate] at hc ⊢
        rwa [hr₁.others r hrq]

/-! ### The conditions -/

/-- Every replica that has a commit buffered for the Prepare has it at the front, once the earlier
ones are dropped. -/
def Replayable (cfg : Config) (s : Consensus) (p : PrepareMessage) : Prop :=
  ∀ r ∈ List.range cfg.ids.length, (∃ c ∈ (s.bufferedCommits r).items,
    c.index = pack p.view p.inst) → ¬ Unbuffered (pack p.view p.inst) s r

instance (cfg : Config) (s : Consensus) (p : PrepareMessage) : Decidable (Replayable cfg s p) :=
  inferInstanceAs (Decidable (∀ r ∈ List.range _, (∃ c ∈ _, _) → ¬ _))

/-- A commit that is polled finds room in the buffer when its Prepare is not stored, and, when it
is of the view of the replica, no Prepare of another view in its place. -/
def Bufferable (cfg : Config) (s : Consensus) (x : VerifiedCommit) : Prop :=
  match s.instanceStates.find? (unpack x.prepareCertificate.index).2 with
  | none => (s.bufferedCommits x.sender).items.length < (s.bufferedCommits x.sender).tail
  | some d => (unpack x.prepareCertificate.index).1 = (s.own cfg).atView →
      d.prepareMessage.view = (s.own cfg).atView

instance (cfg : Config) (s : Consensus) : DecidablePred (Bufferable cfg s) := fun x => by
  unfold Bufferable
  split <;> infer_instance

/-- The commit a step polls. -/
def polling (m : Machine) : Label → Option VerifiedCommit
  | .exec _ =>
    match m.todo, m.core.verifiedCommits with
    | .pollVerifiedCommits :: _, x :: _ => some x
    | _, _ => none
  | _ => none

/-- The views and instances fit what `pack` gives them, what is pruned is the checkpoint that was
broadcast, no commit is dropped from a buffer, and a Prepare finds the commits buffered for it. -/
def Sequenced (cfg : Config) (m : Machine) (l : Label) : Prop :=
  (m.core.own cfg).atView < 2 ^ 16 ∧ PruneIntact m l ∧
    (∀ rp ∈ preparing cfg m l, rp.2.view = (m.core.own cfg).atView →
      rp.2.inst < 2 ^ 48 ∧ Replayable cfg m.core rp.2) ∧
    ∀ x ∈ polling m l, Bufferable cfg m.core x

instance (m : Machine) (l : Label) : Decidable (Sequenced cfg m l) :=
  inferInstanceAs (Decidable (_ ∧ _ ∧ (∀ rp ∈ preparing cfg m l, _ → _ ∧ _) ∧ ∀ x ∈ _, _))

/-! ### The invariant -/

/-- What became of a commit of `r` with the index `k` that was polled in its view. -/
inductive Kept (cfg : Config) (s : Consensus) (ph : Phase) (r k : Nat) : Prop where
  | committed (h : s.Committed r (unpack k).1 (unpack k).2)
  | buffered (hn : ¬ s.Holds (unpack k).1 (unpack k).2) (hv : (unpack k).1 = (s.own cfg).atView)
      (hb : s.Buffered r k)
  /-- Its view is over. -/
  | past (hn : ¬ s.Holds (unpack k).1 (unpack k).2) (hv : (unpack k).1 < (s.own cfg).atView)
  /-- Its instance is checkpointed, or behind the last one stored. -/
  | closed (hn : ¬ s.Holds (unpack k).1 (unpack k).2) (hv : (unpack k).1 = (s.own cfg).atView)
      (hp : ph ≠ .sealed)
      (hi : (unpack k).2 < s.certifiedCheckpoint.low ∨ (unpack k).2 < s.instanceStates.min)

namespace Kept

variable {r k : Nat}

theorem of_iff (h : Kept cfg s ph r k) (hp : ph' = .sealed ↔ ph = .sealed) :
    Kept cfg s ph' r k := by
  cases h with
  | committed h => exact .committed h
  | buffered hn hv hb => exact .buffered hn hv hb
  | past hn hv => exact .past hn hv
  | closed hn hv hph hi => exact .closed hn hv (fun h => hph (hp.mp h)) hi

/-- A step that takes no commit away. -/
theorem gains (h : Kept cfg s ph r k) (hg : Gains s s') (hb : s.Buffered r k → s'.Buffered r k)
    (ha : (s'.own cfg).atView = (s.own cfg).atView)
    (hl : s.certifiedCheckpoint.low ≤ s'.certifiedCheckpoint.low) : Kept cfg s' ph r k := by
  have hn' : ¬ s.Holds (unpack k).1 (unpack k).2 → ¬ s'.Holds (unpack k).1 (unpack k).2 :=
    fun hn hh => hn ((hg.holds _ _).mp hh)
  cases h with
  | committed h => exact .committed (hg.committed _ _ _ h)
  | buffered hn hv hbuf => exact .buffered (hn' hn) (hv.trans ha.symm) (hb hbuf)
  | past hn hv => exact .past (hn' hn) (ha ▸ hv)
  | closed hn hv hp hi =>
      refine .closed (hn' hn) (hv.trans ha.symm) hp ?_
      rw [hg.min]
      exact hi.imp_left fun hlt => Nat.lt_of_lt_of_le hlt hl

/-- A step that does nothing to the ledger. -/
theorem idle (h : Kept cfg s ph r k) (hi : Idle s s')
    (ha : (s'.own cfg).atView = (s.own cfg).atView)
    (hl : s.certifiedCheckpoint.low ≤ s'.certifiedCheckpoint.low) : Kept cfg s' ph r k :=
  h.gains (.of_idle hi) (fun hb => by rwa [Buffered, hi.buffered]) ha hl

end Kept

/-! ### Prepares -/

/-- What is held once a Prepare is stored: it, and what was held and stays in the tail. -/
theorem find?_stored {r : Nat} {p : PrepareMessage} {t : TailMap InstanceState} {b : Bool}
    (hn : s.instanceStates.find? p.inst = none)
    (ht : s.instanceStates.tryEmplace p.inst (.of p cfg.ids.length) = .ok (t, b)) :
    s.instanceStates.min ≤ p.inst ∧ (stored s r p t).instanceStates.min = p.inst ∧
      ∀ i, (stored s r p t).instanceStates.find? i = if i = p.inst then some (.of p cfg.ids.length)
        else if i + s.instanceStates.tail ≤ p.inst then none else s.instanceStates.find? i := by
  rcases TailMap.tryEmplace_cases ht with ⟨-, -, -, w, hw⟩ | ⟨-, hle, hmin, -, hf, -⟩
  · rw [hn] at hw
    cases hw
  · exact ⟨hle, hmin, hf⟩

/-- An index is its view and its instance. -/
theorem eq_pack {k v i : Nat} (hv : (unpack k).1 = v) (hi : (unpack k).2 = i) (hb : v < 2 ^ 16) :
    k = pack v i := by
  subst hv hi
  refine (pack_unpack ?_).symm
  simp only [unpack] at hb
  omega

/-- In one view, the indices are in the order of the instances. -/
theorem pack_lt {k v i : Nat} (hv : (unpack k).1 = v) (hi : i < (unpack k).2) (hb : v < 2 ^ 16) :
    pack v i < k := by
  have hk := eq_pack hv rfl hb
  have hlt := unpack_snd_lt k
  rw [hk]
  simp only [pack, Nat.mod_eq_of_lt hb, Nat.mod_eq_of_lt hlt]
  omega

/-- **A Prepare replays what was buffered for it**, when the useful commit is at the front. -/
theorem Kept.accepted {r k r₀ : Nat} {p : PrepareMessage} (h : Kept cfg s ph r k)
    (hph : ph ≠ .sealed) (hview : Views cfg s ph) (hb : (s.own cfg).atView < 2 ^ 16)
    (hi : p.inst < 2 ^ 48) (ha : Admissible cfg s r₀ p) (hr : r < cfg.ids.length)
    (hf : Replayable cfg s p) (hx : acceptPrepare cfg s r₀ p = .ok s') : Kept cfg s' ph r k := by
  obtain ⟨t, b, s₂, ht, hrep, hc⟩ := acceptPrepare_cases hx
  obtain ⟨hle, hmin, hfind⟩ := find?_stored (r := r₀) ha.absent ht
  have hunpack : unpack (pack p.view p.inst) = (p.view, p.inst) :=
    unpack_pack (ha.own ▸ hb) hi
  have hnew : (stored s r₀ p t).instanceStates.find? p.inst = some (.of p cfg.ids.length) := by
    rw [hfind, if_pos rfl]
  -- from the moment it is stored, commits are only gained
  obtain ⟨hg, hlater, hcounted⟩ := replayed_all hrep List.nodup_range
    (by rw [hunpack, hnew]; rfl)
  have htry : tryCertifyPrepares cfg (s₂.pruneValidValues r₀ p.inst) [p.inst] = .ok s' :=
    bind_eq_ok.mpr ⟨s', hc, rfl⟩
  obtain ⟨hg', hbuf'⟩ := gains_tryCertifyPrepares htry
  have hprune : Gains s₂ (s₂.pruneValidValues r₀ p.inst) := .of_eq rfl
  have hend : Gains s₂ s' := hprune.trans hg'
  have hgain : Gains (stored s r₀ p t) s' := hg.trans hend
  have hbuffered : ∀ r k, s₂.Buffered r k → s'.Buffered r k := fun r k hbk => by
    rwa [Buffered, hbuf']
  have hown : (s'.own cfg).atView = (s.own cfg).atView := by
    have hk : Keeps cfg (stored s r₀ p t) s₂ := keeps_replayCommits hrep
    rw [(certifies_tryCertifyPrepare hc).atView, atView_pruneValidValues, hk.atView, own_stored]
  have hlow : s'.certifiedCheckpoint = s.certifiedCheckpoint := by
    have htc := certified_of_checkpoints (frame_tryCertifyPrepare hc).checkpoints
    have hrc := certified_of_checkpoints (frame_replayCommits hrep).checkpoints
    exact htc.trans hrc
  have hmin' : s'.instanceStates.min = p.inst := hgain.min.trans hmin
  have hnot : ∀ {v i}, ¬ s.Holds v i → ¬ (i = p.inst ∧ v = p.view) → ¬ s'.Holds v i := by
    intro v i hn hne hh
    obtain ⟨d, hd, hv⟩ := (hgain.holds v i).mp hh
    rw [hfind] at hd
    split at hd
    · next hip => cases hd; exact hne ⟨hip, hv.symm⟩
    · split at hd
      · cases hd
      · exact hn ⟨d, hd, hv⟩
  cases h with
  | committed hcm =>
      obtain ⟨d, hd, hv, hget⟩ := hcm
      have hne : (unpack k).2 ≠ p.inst := by
        intro he
        rw [he, ha.absent] at hd
        cases hd
      by_cases htail : (unpack k).2 + s.instanceStates.tail ≤ p.inst
      · -- it is pushed out of the tail
        have hcur : Current ph d.prepareMessage.view (s.own cfg).atView :=
          hview.view _ d.prepareMessage d.fastCommitted (by rw [held, hd]; rfl)
        refine .closed (fun hh => ?_) (hv.symm.trans ((hcur.eq hph).trans hown.symm)) hph (.inr ?_)
        · obtain ⟨d', hd', -⟩ := (hgain.holds _ _).mp hh
          rw [hfind, if_neg hne, if_pos htail] at hd'
          cases hd'
        · rw [hmin']
          exact Nat.lt_of_le_of_ne (Nat.le_trans (Nat.le_add_right ..) htail) hne
      · refine .committed (hgain.committed _ _ _ ⟨d, ?_, hv, hget⟩)
        rw [hfind, if_neg hne, if_neg htail]
        exact hd
  | buffered hn hv hbk =>
      rcases Nat.lt_trichotomy (unpack k).2 p.inst with hlt | heq | hgt
      · exact .closed (hnot hn fun he => Nat.ne_of_lt hlt he.1) (hv.trans hown.symm) hph
          (.inr (hmin' ▸ hlt))
      · -- the commit is the one that is replayed
        have hk : k = pack p.view p.inst := eq_pack (hv.trans ha.own.symm) heq (ha.own ▸ hb)
        subst hk
        refine .committed (hend.committed _ _ _ ?_)
        rw [hunpack]
        have hco := hcounted r (List.mem_range.mpr hr) p.view
          (by rw [hunpack]; exact ⟨_, hnew, rfl⟩) (hf r (List.mem_range.mpr hr) hbk)
        rwa [hunpack] at hco
      · refine .buffered (hnot hn fun he => Nat.ne_of_gt hgt he.1) (hv.trans hown.symm)
          (hbuffered r k (hlater r k ?_ hbk))
        exact pack_lt (hv.trans ha.own.symm) hgt (ha.own ▸ hb)
  | past hn hv =>
      refine .past (hnot hn fun he => ?_) (hown.symm ▸ hv)
      exact Nat.ne_of_lt hv (he.2.trans ha.own)
  | closed hn hv hp hcl =>
      refine .closed (hnot hn fun he => ?_) (hv.trans hown.symm) hp ?_
      · rcases hcl with hlt | hlt
        · exact absurd (he.1 ▸ hlt) (Nat.not_lt.mpr ha.low)
        · exact absurd (he.1 ▸ hlt) (Nat.not_lt.mpr hle)
      · rw [hlow, hmin']
        exact hcl.imp_right fun hlt => Nat.lt_of_lt_of_le hlt hle

/-! ### The other commands -/

namespace Kept

variable {r k : Nat}

/-- An instance below the checkpoint is not waited for. -/
theorem pruned (h : Kept cfg s ph r k) (hph : ph ≠ .sealed) (hview : Views cfg s ph) {low : Nat}
    (hl : low ≤ s.certifiedCheckpoint.low) : Kept cfg (pruneInstances cfg s low) ph r k := by
  have hf : ∀ i, (pruneInstances cfg s low).instanceStates.find? i =
      if i < low then none else s.instanceStates.find? i := fun i => TailMap.find?_popBelow ..
  have hnot : ∀ {v i}, ¬ s.Holds v i → ¬ (pruneInstances cfg s low).Holds v i := by
    rintro v i hn ⟨d, hd, hv⟩
    rw [hf] at hd
    split at hd
    · cases hd
    · exact hn ⟨d, hd, hv⟩
  cases h with
  | committed hcm =>
      obtain ⟨d, hd, hv, hget⟩ := hcm
      by_cases hlow : (unpack k).2 < low
      · have hcur : Current ph d.prepareMessage.view (s.own cfg).atView :=
          hview.view _ d.prepareMessage d.fastCommitted (by rw [held, hd]; rfl)
        refine .closed ?_ (hv.symm.trans (hcur.eq hph)) hph (.inl (Nat.lt_of_lt_of_le hlow hl))
        rintro ⟨d', hd', -⟩
        rw [hf, if_pos hlow] at hd'
        cases hd'
      · exact .committed ⟨d, by rw [hf, if_neg hlow]; exact hd, hv, hget⟩
  | buffered hn hv hb => exact .buffered (hnot hn) hv hb
  | past hn hv => exact .past (hnot hn) hv
  | closed hn hv hp hi => exact .closed (hnot hn) hv hp hi

/-- A commit of a view that is over is not waited for. -/
theorem forgotten (h : Kept cfg s .sealed r k) (hview : Views cfg s .sealed) :
    Kept cfg (forgetView cfg s) ph' r k := by
  have hn : ∀ v i, ¬ (forgetView cfg s).Holds v i := fun _ _ ⟨_, hd, _⟩ => nomatch hd
  cases h with
  | committed hcm =>
      obtain ⟨d, hd, hv, -⟩ := hcm
      have hcur : Current .sealed d.prepareMessage.view (s.own cfg).atView :=
        hview.view _ d.prepareMessage d.fastCommitted (by rw [held, hd]; rfl)
      exact .past (hn _ _) (hv ▸ hcur)
  | buffered _ hv hb => exact .buffered (hn _ _) hv hb
  | past _ hv => exact .past (hn _ _) hv
  | closed _ _ hp _ => exact absurd rfl hp

/-- A sealed view ends the wait. -/
theorem sealed (h : Kept cfg s ph r k) (hx : sealView cfg s cfg.localIndex = .ok s') :
    Kept cfg s' ph' r k := by
  have hs := seals_sealView hx
  have hg : Gains s s' := .of_eq hs.instances
  have hn : ¬ s.Holds (unpack k).1 (unpack k).2 → ¬ s'.Holds (unpack k).1 (unpack k).2 :=
    fun hn hh => hn ((hg.holds _ _).mp hh)
  cases h with
  | committed hcm => exact .committed (hg.committed _ _ _ hcm)
  | buffered hno hv _ => exact .past (hn hno) (by rw [hs.atView, hv]; exact Nat.lt_succ_self _)
  | past hno hv => exact .past (hn hno) (by rw [hs.atView]; exact Nat.lt_succ_of_lt hv)
  | closed hno hv _ _ => exact .past (hn hno) (by rw [hs.atView, hv]; exact Nat.lt_succ_self _)

end Kept

/-- A verified commit that is polled joins those that are buffered, or it is counted. -/
theorem Settles.buffered {r r' k : Nat} {c : Certificate Bytes} (h : Settles s r c s')
    (hroom : s.instanceStates.find? (unpack c.index).2 = none →
      (s.bufferedCommits r).items.length < (s.bufferedCommits r).tail)
    (hb : s.Buffered r' k) : s'.Buffered r' k := by
  cases h with
  | buffer hn =>
      obtain ⟨c', hc', hk⟩ := hb
      refine ⟨c', ?_, hk⟩
      by_cases hr : r' = r
      · subst hr
        change c' ∈ (Function.update s.bufferedCommits r' _ r' : TailQueue _).items
        rw [Function.update_self, TailQueue.emplaceBack, if_neg (Nat.ne_of_lt (hroom hn))]
        exact List.mem_append_left _ hc'
      · change c' ∈ (Function.update s.bufferedCommits r _ r' : TailQueue _).items
        rw [Function.update_of_ne hr]
        exact hc'
  | count hd hget => exact hb

/-- A commit that was just verified. -/
theorem kept_of_settles {r : Nat} {c : Certificate Bytes} (h : Settles s r c s')
    (hv : (unpack c.index).1 = (s.own cfg).atView)
    (hview : ∀ d ∈ s.instanceStates.find? (unpack c.index).2,
      d.prepareMessage.view = (s.own cfg).atView)
    (ha : (s'.own cfg).atView = (s.own cfg).atView) : Kept cfg s' ph r c.index := by
  cases h with
  | buffer hn =>
      refine .buffered ?_ (hv.trans ha.symm) ⟨c, ?_, rfl⟩
      · rintro ⟨d, hd, -⟩
        rw [show s.instanceStates.find? _ = some d from hd] at hn
        cases hn
      · change c ∈ (Function.update s.bufferedCommits r _ r : TailQueue _).items
        rw [Function.update_self]
        exact List.mem_append_right _ (List.mem_singleton_self c)
  | count hd hget =>
      exact .committed (committed_receivedCommit ⟨_, hd, (hview _ hd).trans hv.symm⟩)

/-! ### Runs -/

theorem handleVerifiedCommits_cases {x : VerifiedCommit} {rest : List VerifiedCommit}
    (hv : s.verifiedCommits = x :: rest) (h : s.handleVerifiedCommits = .ok s') :
    x.valid = true ∧
      Settles { s with verifiedCommits := rest } x.sender x.prepareCertificate s' := by
  unfold handleVerifiedCommits at h
  rw [hv] at h
  simp only at h
  split at h
  · next hvalid => exact ⟨hvalid, settles_of_handleVerifiedCommit h⟩
  · cases h

/-- **Commits.**  A command loses none. -/
theorem kept_exec {c : Cmd} {cs rest : List Cmd} {r k : Nat} (h : exec cfg s inp c = .ok (s', cs))
    (hn : Nested cfg (c :: rest)) (hpend : Pending s c)
    (hview : Views cfg s (phase cfg (c :: rest)))
    (hg : Sequenced cfg ⟨s, c :: rest⟩ (.exec inp)) (hr : r < cfg.ids.length)
    (hk : Kept cfg s (phase cfg (c :: rest)) r k) : Kept cfg s' (phase cfg (cs ++ rest)) r k := by
  obtain ⟨hb, hprune, hprep, hpoll⟩ := hg
  by_cases hf : c = .forgetView
  · subst hf
    cases h
    exact (phase_forget rest ▸ hk).forgotten (phase_forget rest ▸ hview)
  by_cases hs : c = .sealView cfg.localIndex
  · subst hs
    exact hk.sealed (pure_eq_ok h).1
  refine Kept.of_iff ?_ (sealed_iff h hn hf hs)
  have hv := atView_exec h hs
  have hl := low_le_exec h
  cases exec_books h with
  | idle hi => exact hk.idle hi hv hl
  | @prepare _ q p s₁ _ hrec hadm hx =>
      have hp : phase cfg (c :: rest) ≠ .sealed := by
        rw [phase_loud hrec.kind]
        exact nofun
      have hv₁ := hrec.keeps.atView
      have hidle := hrec.idle nofun
      obtain ⟨hi, hrep⟩ := hprep (q, p) (preparing_of_receives hrec rest) (hadm.own.trans hv₁)
      have hk₁ := hk.idle hidle hv₁
        (Nat.le_of_eq (congrArg (·.low) (certified_of_checkpoints hrec.checkpoints)).symm)
      have hrep₁ : Replayable cfg s₁ p := by
        intro r' hr' hbuf
        rw [hidle.buffered] at hbuf
        intro hu
        refine hrep r' hr' hbuf fun c hc => hu c ?_
        rw [bufferedCommits_outdate] at hc ⊢
        rwa [hidle.buffered]
      exact hk₁.accepted hp (hview.keeps hrec.keeps) (by rw [hv₁]; exact hb) hi hadm hr hrep₁ hx
  | @commit _ q certificate s₁ _ hrec hx =>
      have hsame : s'.instanceStates = s.instanceStates ∧
          s'.bufferedCommits = s.bufferedCommits := by
        obtain ⟨s₂, rfl, -, hs₂⟩ := verifications_handleCommit hrec hx
        unfold verifyCommit
        split <;> exact hs₂
      exact hk.gains (.of_eq hsame.1) (fun hbuf => by rwa [Buffered, hsame.2]) hv hl
  | verified hx =>
      cases hvc : s.verifiedCommits with
      | nil =>
          unfold handleVerifiedCommits at hx
          rw [hvc] at hx
          cases hx
          exact hk
      | cons x l =>
          have hset := (handleVerifiedCommits_cases hvc hx).2
          have hbuf := hpoll x (by simp only [polling, hvc]; rfl)
          have hq : Gains s { s with verifiedCommits := l } := .of_eq rfl
          refine hk.gains (hq.trans hset.gains) (hset.buffered fun hno => ?_) hv hl
          unfold Bufferable at hbuf
          rw [show s.instanceStates.find? _ = none from hno] at hbuf
          exact hbuf
  | certify hx =>
      obtain ⟨hgain, hbuf⟩ := gains_tryCertifyPrepares hx
      exact hk.gains hgain (fun hb => by rwa [Buffered, hbuf]) hv hl
  | prune low n =>
      have hn : n = s.adopted := hprune
      rw [if_pos hn]
      exact hk.pruned (by rw [phase_loud rfl]; exact nofun) hview hpend
  | forget => exact absurd rfl hf

/-- The commit a step polls, when it is of the view of the replica: its sender and its index. -/
def polledLocally (cfg : Config) (m : Machine) (l : Label) : Option (Nat × Nat) :=
  (polling m l).bind fun x =>
    if (unpack x.prepareCertificate.index).1 = (m.core.own cfg).atView then
      some (x.sender, x.prepareCertificate.index)
    else none

/-- A replica, and the commits it polled in their view. -/
structure Recorded where
  machine : Machine
  polled : List (Nat × Nat)

namespace Recorded

/-- One step, with the commit that is polled locally. -/
def next (cfg : Config) (o : Recorded) (l : Label) : Except Error Recorded := do
  return ⟨← o.machine.next cfg l, (polledLocally cfg o.machine l).toList ++ o.polled⟩

/-- A replica that polled nothing. -/
def Init (cfg : Config) (o : Recorded) : Prop := o.machine.Init cfg ∧ o.polled = []

/-- The step relation of a recorded replica. -/
def Step (cfg : Config) (o : Recorded) (l : Label) (o' : Recorded) : Prop :=
  o.next cfg l = .ok o'

/-- Recording leaves the machine as it is. -/
theorem step_machine {o o' : Recorded} {l : Label} (h : o.Step cfg l o') :
    o.machine.Step cfg l o'.machine ∧
      o'.polled = (polledLocally cfg o.machine l).toList ++ o.polled := by
  obtain ⟨m, hm, h⟩ := bind_eq_ok.mp h
  cases h
  exact ⟨hm, rfl⟩

theorem machine_reachable {good : Machine → Label → Prop} {o : Recorded}
    (h : Reachable (Init cfg) (Step cfg) (fun o l => good o.machine l) o) :
    Reachable (Machine.Init cfg) (Machine.Step cfg) good o.machine := by
  induction h with
  | init h => exact .init h.1
  | step _ hg hs ih => exact .step ih hg (step_machine hs).1

end Recorded

/-- What is recorded: a commit of the replica's own view. -/
theorem polledLocally_cases {m : Machine} {l : Label} {r k : Nat}
    (h : polledLocally cfg m l = some (r, k)) :
    ∃ inp rest x vs, l = .exec inp ∧ m.todo = .pollVerifiedCommits :: rest ∧
      m.core.verifiedCommits = x :: vs ∧ polling m l = some x ∧ x.sender = r ∧
        x.prepareCertificate.index = k ∧ (unpack k).1 = (m.core.own cfg).atView := by
  obtain ⟨x, hx, h⟩ := Option.bind_eq_some_iff.mp h
  split at h
  · next hv =>
      cases h
      have hp := hx
      unfold polling at hp
      split at hp
      · split at hp
        · next rest x' vs ht hvc =>
            cases hp
            exact ⟨_, rest, x, vs, rfl, ht, hvc, hx, rfl, rfl, hv⟩
        · cases hp
      · cases hp
  · cases h

/-- The commit that is polled is kept. -/
theorem kept_polled {m m' : Machine} {l : Label} {r k : Nat}
    (h : polledLocally cfg m l = some (r, k)) (hg : Sequenced cfg m l) (hs : m.Step cfg l m') :
    Kept cfg m'.core ph r k := by
  obtain ⟨inp, rest, x, vs, rfl, ht, hvc, hp, rfl, rfl, hv⟩ := polledLocally_cases h
  obtain ⟨s, cs, he, rfl⟩ := Machine.step_exec hs ht
  have hx := (pure_eq_ok he).1
  have hset := (handleVerifiedCommits_cases hvc hx).2
  have hk : Keeps cfg m.core s := keeps_handleVerifiedCommits hx
  refine kept_of_settles hset hv (fun d hd => ?_) hk.atView
  have hbuf := hg.2.2.2 x hp
  unfold Bufferable at hbuf
  rw [show m.core.instanceStates.find? _ = some d from hd] at hbuf
  exact hbuf hv

/-- In every run whose steps replay in sequence. -/
theorem kept_of_reachable {o : Recorded}
    (h : Reachable (Recorded.Init cfg) (Recorded.Step cfg)
      (fun o l => Sequenced cfg o.machine l) o) {r k : Nat} (hr : r < cfg.ids.length) :
    (r, k) ∈ o.polled → Kept cfg o.machine.core (phase cfg o.machine.todo) r k := by
  refine h.induct (P := fun o => (r, k) ∈ o.polled →
    Kept cfg o.machine.core (phase cfg o.machine.todo) r k) (fun o ho hm => ?_)
    fun o l o' hreach hk hg hs hm => ?_
  · rw [ho.2] at hm
    cases hm
  · obtain ⟨hs, hp⟩ := Recorded.step_machine hs
    rw [hp] at hm
    rcases List.mem_append.mp hm with hm | hm
    · exact kept_polled (Option.mem_toList.mp hm) hg hs
    · have hk := hk hm
      have hmach := Recorded.machine_reachable hreach
      have hview := Machine.views_of_reachable (fun _ _ hg => hg.1) hmach
      have hn := Machine.nested_of_reachable hmach
      have hpend := Machine.pending_of_reachable hmach
      obtain ⟨⟨core, todo⟩, polled⟩ := o
      obtain ⟨m', polled'⟩ := o'
      rcases Machine.step_cases hs with ⟨c, s, cs, rfl, ht, hc, rfl⟩ |
        ⟨inp, c, rest, s, cs, rfl, ht, he, rfl⟩ | ⟨s, hb, rfl⟩
      · have hk := hk.idle (idle_call hc) (keeps_call hc).atView
          (Nat.le_of_eq (congrArg (·.low) (certified_call hc)).symm)
        rw [show todo = [] from ht] at hk
        exact (phase_call hc).symm ▸ hk
      · cases ht
        exact kept_exec he hn (hpend c List.mem_cons_self) hview hg hr hk
      · have hv : (s.own cfg).atView = (core.own cfg).atView := (keeps_background hb).atView
        obtain ⟨_, _, _, _, _, _, _, _, rfl, -⟩ := background_cases hb
        exact hk.gains (.of_eq rfl) id hv (Nat.le_refl _)

/-- **Commits.**  As long as a Prepare finds the commits buffered for it at the front, a commit
that was polled in its view is counted once its Prepare is stored. -/
theorem commit_counted {o : Recorded}
    (h : Reachable (Recorded.Init cfg) (Recorded.Step cfg)
      (fun o l => Sequenced cfg o.machine l) o) {r k : Nat} (hp : (r, k) ∈ o.polled)
    (hr : r < cfg.ids.length) {d : InstanceState}
    (hd : o.machine.core.instanceStates.find? (unpack k).2 = some d)
    (hv : d.prepareMessage.view = (unpack k).1) : d.committed.get r = true := by
  have hholds : o.machine.core.Holds (unpack k).1 (unpack k).2 := ⟨d, hd, hv⟩
  cases kept_of_reachable h hr hp with
  | committed hc =>
      obtain ⟨d', hd', -, hg⟩ := hc
      cases hd.symm.trans hd'
      exact hg
  | buffered hn => exact absurd hholds hn
  | past hn => exact absurd hholds hn
  | closed hn => exact absurd hholds hn

/-! ### A commit that is left behind -/

namespace Example

open Deployment

/-- The prepare certificate of the proposal `[8]` for the instance 1 of view 0. -/
def eightPrepared : Certificate Bytes := certificate id 0 (pack 0 1) [8] [0, 2]

/-- Replica 2 commits the instances 0 and 1 before their Prepares arrive, the `k`-th verification
under way ends first, and the Prepare of instance 0 arrives. -/
def commitsBoth (k : Nat) : List Label :=
  tickPeer 0 (.commit (some sevenPrepared)) 40 ++ tickPeer 1 (.commit (some eightPrepared)) 40 ++
    [.startVerification 1, .startVerification 1, .finishVerification k, .finishVerification 0,
      .call (.toggleSlowPath true), .call .tick] ++ drain 40 ++
    tickCb 0 (.prepare ⟨0, 0, [7]⟩)

/-- The commit of replica 2 for instance 0 was polled, and it is counted or not. -/
def countsSeven (counted : Bool) (o : Recorded) : Bool :=
  o.polled.contains (1, pack 0 0) && (o.machine.core.instanceStates.find? 0).any fun d =>
    d.prepareMessage = ⟨0, 0, [7]⟩ && d.committed.get 1 == counted

theorem countsSeven_cases {counted : Bool} {o : Recorded} (h : countsSeven counted o = true) :
    (1, pack 0 0) ∈ o.polled ∧ ∃ d, o.machine.core.instanceStates.find? 0 = some d ∧
      d.prepareMessage = ⟨0, 0, [7]⟩ ∧ d.committed.get 1 = counted := by
  obtain ⟨hp, hd⟩ := Bool.and_eq_true_iff.mp h
  obtain ⟨d, hd, he⟩ := (Option.any_eq_true ..).mp hd
  obtain ⟨hm, hc⟩ := Bool.and_eq_true_iff.mp he
  exact ⟨List.contains_iff_mem.mp hp, d, hd, of_decide_eq_true hm, beq_iff_eq.mp hc⟩

end Example

/-- The verification of the later commit ends first, and the earlier commit is not counted. -/
theorem commit_not_counted :
    ¬ ∀ (cfg : Config) (o : Recorded), Reachable (Recorded.Init cfg) (Recorded.Step cfg) Always o →
        ∀ r k, (r, k) ∈ o.polled → r < cfg.ids.length → ∀ d,
          o.machine.core.instanceStates.find? (unpack k).2 = some d →
            d.prepareMessage.view = (unpack k).1 → d.committed.get r = true := by
  intro h
  obtain ⟨o, ho, hs⟩ : ∃ o, Reachable (Recorded.Init Example.second) (Recorded.Step Example.second)
      (fun _ _ => True) o ∧ Example.countsSeven false o = true :=
    exists_reachable ⟨⟨.start Example.second Deployment.allKnown, []⟩, []⟩
      ⟨⟨_, rfl⟩, rfl⟩ (Example.commitsBoth 1) (by decide +kernel)
  obtain ⟨hp, d, hd, hm, hc⟩ := Example.countsSeven_cases hs
  have hg := h _ o ho.always 1 (pack 0 0) hp (by decide) d hd (by rw [hm]; rfl)
  rw [hc] at hg
  cases hg

/-- The verifications end in the order of the instances. -/
theorem commit_counted_in_order : ∃ (o : Recorded) (d : InstanceState),
    (1, pack 0 0) ∈ o.polled ∧ o.machine.core.instanceStates.find? 0 = some d ∧
      d.committed.get 1 = true := by
  obtain ⟨o, ho, hs⟩ : ∃ o, Reachable (Recorded.Init Example.second) (Recorded.Step Example.second)
      (fun o l => Sequenced Example.second o.machine l) o ∧ (Example.countsSeven true o) = true :=
    exists_reachable ⟨⟨.start Example.second Deployment.allKnown, []⟩, []⟩
      ⟨⟨_, rfl⟩, rfl⟩ (Example.commitsBoth 0) (by decide +kernel)
  obtain ⟨hp, d, hd, hm, -⟩ := Example.countsSeven_cases hs
  exact ⟨o, d, hp, hd, commit_counted ho hp (by decide) hd (by rw [hm]; rfl)⟩

end Ubft.Consensus
