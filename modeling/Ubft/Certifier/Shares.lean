import Ubft.Certifier.Received
import Ubft.Certifier.Tail

/-!
# Certifier — the shares of a message

A share reaches the tail through one of two pipelines.  A peer's is checked by a worker against the
hash of the message acknowledged under its index; the replica's own is the signature a worker made
of that message.  When a replica acknowledges one message at most under an index, whatever is in
either pipeline is about that message (`Sound`), and so every share kept with a message is a
signature of it that verifies under the key of its emitter (`sound_of_reachable`).
-/

namespace Ubft.Certifier

variable {M : Type}

/-- What a replica is given for one group: how it signs and checks, the ids of its peers, and the
message it acknowledges under an index, when it acknowledges one. -/
structure Member (M : Type) where
  crypto : Crypto M
  identifier : Identifier
  receivers : List ProcId
  message : Index → M

namespace Member

/-- What the shares of the message `i` sign. -/
def hash (g : Member M) (i : Index) : Hash := g.crypto.blake3 g.identifier i (g.message i)

/-- The identifier of a replica, or the certifier's own. -/
def idOf (g : Member M) (replica : Nat) : ProcId := g.receivers.getD replica g.crypto.myId

/-- What the replica signs verifies, and a signature has 64 bytes. -/
structure Genuine (g : Member M) : Prop where
  verifies : ∀ h, g.crypto.verifyWith (g.crypto.sign h) h g.crypto.myId = true
  length : ∀ h, (g.crypto.sign h).length = 64

/-- The certifier of the replica as its constructor leaves it. -/
def Init (g : Member M) (s : Certifier M) : Prop :=
  ∃ tail, s = { tail, identifier := g.identifier, receivers := g.receivers }

/-- The operations of a replica that acknowledges its messages, and whose peers send shares. -/
def Acknowledging (g : Member M) (_ : Certifier M) : Op M → Prop
  | .acknowledge i m => m = g.message i
  | .handleShare sh _ => sh.signature.length = 64
  | _ => True

instance [DecidableEq M] (g : Member M) (s : Certifier M) : DecidablePred (g.Acknowledging s)
  | .acknowledge i m => inferInstanceAs (Decidable (m = g.message i))
  | .handleShare sh _ => inferInstanceAs (Decidable (sh.signature.length = 64))
  | .receivedImplicitPromise _ _ | .pollPromise | .pollCertificate | .forgetMessages _
  | .toggleFastPath _ | .toggleSlowPath _ | .handlePromise _ _ | .startCheck _ | .finishCheck _
  | .pollVerifiedShare | .offloadShareComputation | .computeShare _ | .pollComputedShares =>
    .isTrue trivial

/-- A signature of the message of index `i` by the replica of rank `r`. -/
structure Signed (g : Member M) (r : Nat) (i : Index) (sh : Share) : Prop where
  rank : r ≤ g.receivers.length
  length : sh.signature.length = 64
  verifies : g.crypto.verify sh.signature (g.hash i) (g.idOf r) = .ok true

/-- A share of a peer, with the hash it is checked against. -/
structure Asked (g : Member M) (r : Nat) (sh : Share) (h : Hash) : Prop where
  rank : r < g.receivers.length
  length : sh.signature.length = 64
  hash : h = g.hash sh.msgIndex

/-- The replica's own share. -/
def Own (g : Member M) (sh : Share) : Prop := sh.signature = g.crypto.sign (g.hash sh.msgIndex)

/-- A share of the member's own. -/
theorem signed_of_own {g : Member M} (hg : g.Genuine) {sh : Share} (h : g.Own sh) :
    g.Signed g.receivers.length sh.msgIndex sh where
  rank := le_rfl
  length := h ▸ hg.length _
  verifies := by
    have hid : g.idOf g.receivers.length = g.crypto.myId := by simp [idOf]
    rw [Crypto.verify, hid, if_pos g.crypto.own, h, hg.verifies]

/-- The two pipelines carry signatures of the messages acknowledged. -/
structure Pipelines (g : Member M) (s : Certifier M) : Prop where
  buffered : ∀ r, ∀ sh ∈ s.bufferedShares r, sh.signature.length = 64
  tasks : ∀ r, ∀ t ∈ s.checkShareTasks r, g.Asked r t.1 t.2
  running : ∀ t ∈ s.runningChecks, g.Asked t.1 t.2.1 t.2.2
  verified : ∀ r sh, (r, sh, true) ∈ s.verifiedShares → g.Signed r sh.msgIndex sh
  queued : ∀ t ∈ s.queuedShareComputations, t.2 = g.message t.1
  computations : ∀ t ∈ s.shareComputations, t.2 = g.message t.1
  computed : ∀ sh ∈ s.computedShares, g.Own sh
  sorted : ∀ i sh, s.sortedComputedShares.find? i = some (some sh) → g.Own sh
  mine : ∀ sh ∈ s.myShares, g.Own sh

/-- The tail holds the messages acknowledged, each with signatures of it. -/
structure Sound (g : Member M) (s : Certifier M) : Prop where
  identifier : s.identifier = g.identifier
  receivers : s.receivers = g.receivers
  messages : ∀ i d, s.msgTail.find? i = some d → d.message = g.message i
  received : ∀ i d, s.msgTail.find? i = some d → ∀ r sh, d.receivedShares.find? r = some sh →
    g.Signed r i sh
  pipelines : g.Pipelines s

variable {g : Member M} {s s' : Certifier M}

/-- An operation that adds no message and no share to the tail. -/
theorem Sound.of_keeps (hs : g.Sound s) (hk : Keeps s s') (hw : Within s s')
    (hp : g.Pipelines s') : g.Sound s' where
  identifier := hw.identifier.trans hs.identifier
  receivers := hw.receivers.trans hs.receivers
  messages i d hd := by
    obtain ⟨d₀, h₀, hm⟩ := hw.messages i d hd
    exact hm.trans (hs.messages i d₀ h₀)
  received i d hd r sh hr := by
    rcases hk.received i d hd with he | ⟨d₀, h₀, he⟩
    · rw [he] at hr; cases hr
    · exact hs.received i d₀ h₀ r sh (he ▸ hr)
  pipelines := hp

/-- An operation that leaves the tail alone. -/
theorem Sound.of_eq (hs : g.Sound s) (hi : s'.identifier = s.identifier)
    (hr : s'.receivers = s.receivers) (ht : s'.msgTail = s.msgTail) (hp : g.Pipelines s') :
    g.Sound s' where
  identifier := hi.trans hs.identifier
  receivers := hr.trans hs.receivers
  messages i d hd := hs.messages i d (ht ▸ hd)
  received i d hd := hs.received i d (ht ▸ hd)
  pipelines := hp

/-- The hash of a message that was acknowledged. -/
theorem Sound.hashOf (hs : g.Sound s) {i : Index} {d : MessageData M}
    (hd : s.msgTail.find? i = some d) : hashOf g.crypto s i d.message = g.hash i := by
  rw [Certifier.hashOf, hs.identifier, hs.messages i d hd]
  rfl

/-! ### The shares of the peers -/

/-- A share sent to the workers is checked against the hash of the message acknowledged. -/
theorem Sound.enqueueShareVerification (hs : g.Sound s) {sh : Share} {r : Nat}
    (hr : r < g.receivers.length) (hl : sh.signature.length = 64) :
    g.Sound (enqueueShareVerification g.crypto s sh r) := by
  refine hs.of_keeps (keeps_enqueueShareVerification s sh r)
    (elsewhere_enqueueShareVerification s sh r).within ?_
  unfold Certifier.enqueueShareVerification
  split
  · exact hs.pipelines
  · next d hd =>
      refine { hs.pipelines with tasks := fun r' t ht => ?_ }
      by_cases hrr : r' = r
      · subst hrr
        simp only [Function.update_self] at ht
        rcases mem_enqueue ht with rfl | ht
        · exact ⟨hr, hl, hs.hashOf hd⟩
        · exact hs.pipelines.tasks _ _ ht
      · simp only [Function.update_of_ne hrr] at ht
        exact hs.pipelines.tasks _ _ ht

/-- A buffered share is verified or not. -/
theorem Sound.replayShare (hs : g.Sound s) {i : Index} {r : Nat} (hr : r < g.receivers.length) :
    g.Sound (replayShare g.crypto i s r) := by
  have hsub : ∀ {rest}, rest <:+ s.bufferedShares r →
      g.Sound { s with bufferedShares := Function.update s.bufferedShares r rest } := by
    intro rest hrest
    refine hs.of_eq rfl rfl rfl
      { hs.pipelines with buffered := fun r' sh hsh => ?_ }
    by_cases hrr : r' = r
    · subst hrr
      simp only [Function.update_self] at hsh
      exact hs.pipelines.buffered _ sh (hrest.mem hsh)
    · simp only [Function.update_of_ne hrr] at hsh
      exact hs.pipelines.buffered _ sh hsh
  unfold Certifier.replayShare
  have hsuffix := List.dropWhile_suffix (l := s.bufferedShares r)
    fun sh => decide (sh.msgIndex < i)
  split
  · exact hsub (List.nil_suffix)
  · next sh shs hdrop =>
      rw [hdrop] at hsuffix
      split
      · exact hsub hsuffix
      · have hl := hs.pipelines.buffered r sh (hsuffix.mem List.mem_cons_self)
        exact (hsub ((List.suffix_cons sh shs).trans hsuffix)).enqueueShareVerification hr hl

theorem Sound.replayBufferedShares (hs : g.Sound s) (i : Index) :
    g.Sound (replayBufferedShares g.crypto i s) := by
  have hranks : ∀ r ∈ List.range s.receivers.length, r < g.receivers.length := fun r hr =>
    hs.receivers ▸ List.mem_range.mp hr
  unfold Certifier.replayBufferedShares
  revert hranks
  generalize List.range s.receivers.length = rs
  intro hranks
  induction rs generalizing s with
  | nil => exact hs
  | cons r rs ih =>
      exact ih (hs.replayShare (hranks r List.mem_cons_self)) fun r' hr' =>
        hranks r' (List.mem_cons_of_mem _ hr')

/-- A share that comes in, whatever it is. -/
theorem Sound.handleShare (hs : g.Sound s) {sh : Share} {r : Nat} (hr : r < g.receivers.length)
    (hl : sh.signature.length = 64) (h : s.handleShare g.crypto sh r = .ok s') : g.Sound s' := by
  unfold Certifier.handleShare at h
  split at h
  · cases h; exact hs.enqueueShareVerification hr hl
  · simp only at h
    split at h
    · cases h
    · cases h
      refine hs.of_eq rfl rfl rfl
        { hs.pipelines with buffered := fun r' sh' hsh => ?_ }
      by_cases hrr : r' = r
      · subst hrr
        simp only [Function.update_self] at hsh
        rcases mem_enqueue hsh with rfl | hsh
        · exact hl
        · exact hs.pipelines.buffered _ _ hsh
      · simp only [Function.update_of_ne hrr] at hsh
        exact hs.pipelines.buffered _ _ hsh

theorem Sound.startCheck (hs : g.Sound s) (r : Nat) : g.Sound (s.startCheck r) := by
  refine hs.of_keeps (keeps_startCheck s r) (elsewhere_startCheck s r).within ?_
  unfold Certifier.startCheck
  split
  · exact hs.pipelines
  · next sh h ts hts =>
      have htasks := hs.pipelines.tasks r
      rw [hts] at htasks
      refine { hs.pipelines with
        tasks := fun r' t ht => ?_
        running := fun t ht => ?_ }
      · by_cases hrr : r' = r
        · subst hrr
          simp only [Function.update_self] at ht
          exact htasks t (List.mem_cons_of_mem _ ht)
        · simp only [Function.update_of_ne hrr] at ht
          exact hs.pipelines.tasks _ _ ht
      · rcases List.mem_append.mp ht with ht | ht
        · exact hs.pipelines.running t ht
        · obtain rfl := List.mem_singleton.mp ht
          exact htasks _ List.mem_cons_self

/-- What a worker finds valid is a signature of the message. -/
theorem Sound.finishCheck (hs : g.Sound s) (k : Nat) : g.Sound (s.finishCheck g.crypto k) := by
  unfold Certifier.finishCheck
  split
  · exact hs
  · next r sh h hk =>
      have hask := hs.pipelines.running _ (List.mem_of_getElem? hk)
      have hsub : ∀ t ∈ s.runningChecks.eraseIdx k, g.Asked t.1 t.2.1 t.2.2 := fun t ht =>
        hs.pipelines.running t (List.mem_of_mem_eraseIdx ht)
      simp only
      split
      · exact hs.of_eq rfl rfl rfl
          { hs.pipelines with running := hsub }
      · next valid hv =>
          have hv : g.crypto.verify sh.signature h (g.idOf r) = .ok valid := by
            rw [Member.idOf, ← hs.receivers]; exact hv
          refine ⟨hs.identifier, hs.receivers, hs.messages, hs.received,
            { hs.pipelines with
              running := hsub
              verified := fun r' sh' hm => ?_ }⟩
          rcases List.mem_append.mp hm with hm | hm
          · exact hs.pipelines.verified r' sh' hm
          · cases List.mem_singleton.mp hm
            exact ⟨hask.rank.le, hask.length, hask.hash ▸ hv⟩

/-- A share found valid joins its message. -/
theorem Sound.handleVerifiedShare (hs : g.Sound s) {r : Nat} {sh : Share} {b : Bool}
    (hsh : b = true → g.Signed r sh.msgIndex sh) (h : s.handleVerifiedShare r sh b = .ok s') :
    g.Sound s' := by
  have hb : b = true := by
    unfold Certifier.handleVerifiedShare at h
    split at h
    · cases h
    · next hb => simpa using hb
  rcases handleVerifiedShare_cases h with rfl | ⟨d, hd, -, rfl⟩
  · exact hs
  · refine ⟨hs.identifier, hs.receivers, fun i d' hd' => ?_, fun i d' hd' r' sh' hr' => ?_,
      { hs.pipelines with }⟩
    · simp only [TailMap.find?_modify] at hd'
      split at hd'
      · next hi =>
          rw [hd] at hd'
          cases hd'
          exact hi ▸ hs.messages _ d hd
      · exact hs.messages i d' hd'
    · simp only [TailMap.find?_modify] at hd'
      split at hd'
      · next hi =>
          rw [hd] at hd'
          cases hd'
          simp only [OrdMap.find?_insert] at hr'
          split at hr'
          · next hrr => cases hr'; exact hrr ▸ hi ▸ hsh hb
          · exact hi ▸ hs.received _ d hd r' sh' hr'
      · exact hs.received i d' hd' r' sh' hr'

/-- A verified share is of the message, or of another one with its hash. -/
theorem Sound.pollVerifiedShare (hg : g.Genuine) (hs : g.Sound s)
    (h : s.pollVerifiedShare = .ok s') : g.Sound s' := by
  unfold Certifier.pollVerifiedShare at h
  split at h
  · next r sh b rest hq =>
      have hmem : ∀ x ∈ rest, x ∈ s.verifiedShares := fun x hx => by
        rw [hq]; exact List.mem_cons_of_mem _ hx
      have hs' : g.Sound { s with verifiedShares := rest } :=
        ⟨hs.identifier, hs.receivers, hs.messages, hs.received,
          { hs.pipelines with
            verified := fun r sh hm => hs.pipelines.verified r sh (hmem _ hm) }⟩
      refine hs'.handleVerifiedShare (fun hb => ?_) h
      subst hb
      exact hs.pipelines.verified r sh (by rw [hq]; exact List.mem_cons_self)
  · split at h
    · next sh rest hq =>
        have hmine := hs.pipelines.mine
        rw [hq] at hmine
        have hs' : g.Sound { s with myShares := rest } :=
          ⟨hs.identifier, hs.receivers, hs.messages, hs.received,
            { hs.pipelines with
              mine := fun sh hm => hmine sh (List.mem_cons_of_mem _ hm) }⟩
        refine hs'.handleVerifiedShare (fun _ => ?_) h
        rw [hs.receivers]
        exact signed_of_own hg (hmine sh List.mem_cons_self)
    · cases h; exact hs

/-! ### The replica's own shares -/

theorem Pipelines.queueShareComputation (hp : g.Pipelines s) (i : Index) :
    g.Pipelines (s.queueShareComputation i (g.message i)) where
  buffered := hp.buffered
  tasks := hp.tasks
  running := hp.running
  verified := hp.verified
  queued t ht := by
    rcases List.mem_append.mp ht with ht | ht
    · refine hp.queued t ?_
      split at ht
      · exact List.mem_of_mem_drop ht
      · exact ht
    · rw [List.mem_singleton.mp ht]
  computations := hp.computations
  computed sh hm := hp.computed sh (List.mem_of_mem_drop hm)
  sorted := hp.sorted
  mine := hp.mine

theorem replayPromise_pipelines {i : Index} {r : Nat} (hp : g.Pipelines s)
    (h : replayPromise i s r = .ok s') : g.Pipelines s' := by
  unfold replayPromise at h
  split at h
  · cases h; exact { hp with }
  · split at h
    · cases h; exact { hp with }
    · split at h
      · cases h; exact hp
      · simp only at h
        split at h
        · cases h; exact { hp with }
        · cases h

theorem replayPromises_pipelines {i : Index} {rs : List Nat} (hp : g.Pipelines s)
    (h : replayPromises i s rs = .ok s') : g.Pipelines s' := by
  induction rs generalizing s with
  | nil => cases h; exact hp
  | cons r rs ih =>
      obtain ⟨s₁, h₁, h₂⟩ := bind_eq_ok.mp h
      exact ih (replayPromise_pipelines hp h₁) h₂

theorem replayBufferedPromises_pipelines {i : Index} (hp : g.Pipelines s)
    (h : replayBufferedPromises i s = .ok s') : g.Pipelines s' := by
  unfold replayBufferedPromises at h
  split at h
  · exact replayPromises_pipelines hp h
  · cases h; exact hp

/-- The message is the one that is certified. -/
theorem Sound.acknowledge (hs : g.Sound s) {i : Index}
    (h : s.acknowledge g.crypto i (g.message i) = .ok s') : g.Sound s' := by
  unfold Certifier.acknowledge at h
  split at h
  · cases h
  · cases h
  · next t ht =>
      obtain ⟨s₁, h₁, h₂⟩ := bind_eq_ok.mp h
      cases h₂
      have hw₁ := within_replayBufferedPromises h₁
      have hs₁ : g.Sound s₁ := by
        have hk₁ := (keeps_tryEmplace ht).trans (keeps_replayBufferedPromises h₁)
        refine ⟨hw₁.identifier.trans hs.identifier, hw₁.receivers.trans hs.receivers,
          fun k d hd => ?_, fun k d hd r sh hr => ?_,
          replayBufferedPromises_pipelines
            (show g.Pipelines { s with msgTail := t } from { hs.pipelines with }) h₁⟩
        · obtain ⟨d₀, h₀, hm⟩ := hw₁.messages k d hd
          rcases TailMap.find?_tryEmplaceWord_cases ht h₀ with ⟨hki, rfl⟩ | h₀
          · exact hki ▸ hm
          · exact hm.trans (hs.messages k d₀ h₀)
        · rcases hk₁.received k d hd with he | ⟨d₀, h₀, he⟩
          · rw [he] at hr; cases hr
          · exact hs.received k d₀ h₀ r sh (he ▸ hr)
      have hs₂ := hs₁.replayBufferedShares i
      exact ⟨hs₂.identifier, hs₂.receivers, hs₂.messages, hs₂.received,
        hs₂.pipelines.queueShareComputation i⟩

/-- What is computed is acknowledged. -/
theorem Sound.offload {queue : List (Index × M)} (hs : g.Sound s)
    (hq : ∀ t ∈ queue, t.2 = g.message t.1) (h : s.offload queue = .ok s') : g.Sound s' := by
  induction queue generalizing s with
  | nil =>
      cases h
      exact hs.of_eq rfl rfl rfl
        { hs.pipelines with queued := fun t ht => nomatch ht }
  | cons t rest ih =>
      obtain ⟨i, m⟩ := t
      unfold Certifier.offload at h
      split at h
      · cases h
      · next sorted _ hsorted =>
          refine ih (s := { s with
            sortedComputedShares := sorted
            shareComputations := enqueue s.tail s.shareComputations (i, m) }) ?_
            (fun t ht => hq t (List.mem_cons_of_mem _ ht)) h
          refine hs.of_eq rfl rfl rfl
            { hs.pipelines with
              computations := fun t ht => ?_
              sorted := fun k sh hsh => ?_ }
          · rcases mem_enqueue ht with rfl | ht
            · exact hq _ List.mem_cons_self
            · exact hs.pipelines.computations t ht
          · rcases TailMap.tryEmplaceWord_cases hsorted with ⟨-, ht, -⟩ | ⟨rfl, -⟩
            · exact hs.pipelines.sorted k sh (ht ▸ hsh)
            · rcases TailMap.find?_tryEmplaceWord_cases hsorted hsh with ⟨-, hno⟩ | hsh
              · cases hno
              · exact hs.pipelines.sorted k sh hsh

/-- A worker signs the message. -/
theorem Sound.computeShare (hs : g.Sound s) (k : Nat) : g.Sound (s.computeShare g.crypto k) := by
  unfold Certifier.computeShare
  split
  · exact hs
  · next i m hk =>
      have hm : m = g.message i := hs.pipelines.computations _ (List.mem_of_getElem? hk)
      refine hs.of_eq rfl rfl rfl
        { hs.pipelines with
          computations := fun t ht => hs.pipelines.computations t (List.mem_of_mem_eraseIdx ht)
          computed := fun sh hsh => ?_ }
      rcases List.mem_append.mp hsh with hsh | hsh
      · exact hs.pipelines.computed sh hsh
      · obtain rfl := List.mem_singleton.mp hsh
        rw [Own, Certifier.hashOf, hs.identifier, hm]
        rfl

/-- What is sent is the member's own. -/
theorem sendable_own {first : Index} {entries : List (Index × Option Share)}
    (h : ∀ i sh, (i, some sh) ∈ entries → g.Own sh) : ∀ sh ∈ sendable first entries, g.Own sh := by
  induction entries with
  | nil => exact fun _ h => nomatch h
  | cons e rest ih =>
      obtain ⟨i, share⟩ := e
      have ih := ih fun i sh hm => h i sh (List.mem_cons_of_mem _ hm)
      intro sh hsh
      unfold sendable at hsh
      split at hsh
      · exact ih sh hsh
      · cases share with
        | none => cases hsh
        | some own =>
            rcases List.mem_cons.mp hsh with rfl | hsh
            · exact h i sh List.mem_cons_self
            · exact ih sh hsh

/-- The shares computed take their place in order. -/
theorem foldl_modify_own {computed : List Share} {t : TailMap (Option Share)}
    (hc : ∀ sh ∈ computed, g.Own sh)
    (ht : ∀ i sh, t.find? i = some (some sh) → g.Own sh) :
    ∀ i sh, (computed.foldl (fun t sh => t.modify sh.msgIndex (fun _ => some sh)) t).find? i =
      some (some sh) → g.Own sh := by
  induction computed generalizing t with
  | nil => exact ht
  | cons own rest ih =>
      refine ih (fun sh hm => hc sh (List.mem_cons_of_mem _ hm)) fun i sh h => ?_
      rw [TailMap.find?_modify] at h
      split at h
      · obtain ⟨_, -, he⟩ := Option.map_eq_some_iff.mp h
        cases he
        exact hc _ List.mem_cons_self
      · exact ht i sh h

theorem Sound.pollComputedShares (hs : g.Sound s) : g.Sound s.pollComputedShares := by
  have hsorted := foldl_modify_own hs.pipelines.computed hs.pipelines.sorted
  have hs₁ : g.Sound { s with
      computedShares := []
      sortedComputedShares := s.computedShares.foldl
        (fun t sh => t.modify sh.msgIndex (fun _ => some sh)) s.sortedComputedShares } :=
    hs.of_eq rfl rfl rfl
      { hs.pipelines with
        computed := fun _ h => nomatch h
        sorted := hsorted }
  unfold Certifier.pollComputedShares
  simp only
  split
  · exact hs₁
  · refine hs.of_eq rfl rfl rfl
      { hs₁.pipelines with
        sorted := fun i sh h => ?_
        mine := fun sh hsh => ?_ }
    · simp only [TailMap.find?_popBelow] at h
      split at h
      · cases h
      · exact hsorted i sh h
    · rcases List.mem_append.mp hsh with hsh | hsh
      · exact hs.pipelines.mine sh hsh
      · exact sendable_own (fun i sh hm => hsorted i sh (OrdMap.mem_entries.mp hm)) sh hsh

/-! ### Every operation -/

theorem Sound.apply (hg : g.Genuine) (hs : g.Sound s) {op : Op M}
    (hop : g.Acknowledging s op) (h : s.apply g.crypto op = .ok s') : g.Sound s' := by
  cases op with
  | acknowledge i m =>
      cases (hop : m = g.message i)
      exact hs.acknowledge h
  | receivedImplicitPromise p i =>
      refine hs.of_keeps (keeps_receivedImplicitPromise h) (within_receivedImplicitPromise h) ?_
      simp only [Certifier.apply, Certifier.receivedImplicitPromise] at h
      split at h
      · cases h; exact hs.pipelines
      · split at h
        · cases h
        · cases h; exact { hs.pipelines with }
  | pollPromise =>
      cases h
      unfold Certifier.pollPromise
      split
      · exact hs
      · simp only
        split
        · exact hs.of_eq rfl rfl rfl { hs.pipelines with }
        · split <;> exact hs.of_eq rfl rfl rfl { hs.pipelines with }
  | pollCertificate =>
      cases h
      unfold Certifier.pollCertificate
      split
      · exact hs
      · simp only
        split
        · exact hs.of_eq rfl rfl rfl { hs.pipelines with }
        · split <;> exact hs.of_eq rfl rfl rfl { hs.pipelines with }
  | forgetMessages i =>
      cases h
      refine hs.of_keeps (keeps_forgetMessages s i) (within_forgetMessages s i) ?_
      cases i <;> exact { hs.pipelines with }
  | toggleFastPath b => cases h; exact hs.of_eq rfl rfl rfl { hs.pipelines with }
  | toggleSlowPath b => cases h; exact hs.of_eq rfl rfl rfl { hs.pipelines with }
  | handlePromise i r =>
      simp only [Certifier.apply] at h
      split at h
      · refine hs.of_keeps (keeps_handlePromise h) (within_handlePromise h) ?_
        unfold Certifier.handlePromise at h
        split at h
        · simp only at h
          split at h
          · cases h; exact { hs.pipelines with }
          · cases h
        · simp only at h
          split at h
          · cases h
          · cases h; exact { hs.pipelines with }
      · cases h; exact hs
  | handleShare sh r =>
      simp only [Certifier.apply] at h
      split at h
      · next hr => exact hs.handleShare (hs.receivers ▸ hr) hop h
      · cases h; exact hs
  | startCheck r => cases h; exact hs.startCheck r
  | finishCheck k => cases h; exact hs.finishCheck k
  | pollVerifiedShare => exact hs.pollVerifiedShare hg h
  | offloadShareComputation => exact hs.offload hs.pipelines.queued h
  | computeShare k => cases h; exact hs.computeShare k
  | pollComputedShares => cases h; exact hs.pollComputedShares

/-- **Shares are signatures**, in every state a member of a group reaches. -/
theorem sound_of_reachable (hg : g.Genuine)
    (h : Reachable g.Init (Step g.crypto) g.Acknowledging s) : g.Sound s := by
  refine h.induct (fun s hs => ?_) fun s op s' _ hs hop hstep => hs.apply hg hop hstep
  obtain ⟨tail, rfl⟩ := hs
  exact
    { identifier := rfl
      receivers := rfl
      messages := fun _ _ h => nomatch h
      received := fun _ _ h => nomatch h
      pipelines :=
        { buffered := fun _ _ h => nomatch h
          tasks := fun _ _ h => nomatch h
          running := fun _ h => nomatch h
          verified := fun _ _ h => nomatch h
          queued := fun _ h => nomatch h
          computations := fun _ h => nomatch h
          computed := fun _ h => nomatch h
          sorted := fun _ _ h => nomatch h
          mine := fun _ h => nomatch h } }

end Member

end Ubft.Certifier
