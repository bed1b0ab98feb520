import Ubft.Certifier.Definitions

/-!
# Certifier — the messages of the tail

What an operation does to the messages under certification: those of the shares' pipelines leave
them alone (`Elsewhere`), only `acknowledge` adds one (`acknowledge_cases`), and the others keep
some of those present (`Within`).  The promise and the certificate polled are about a message of
the tail, and their indices increase.
-/

namespace Ubft.Certifier

variable {M : Type} {cr : Crypto M} {s s' : Certifier M}

/-! ### The operations of the shares' pipelines -/

/-- `s'` differs from `s` in what is on its way through the shares' pipelines only. -/
structure Elsewhere (s s' : Certifier M) : Prop where
  identifier : s'.identifier = s.identifier
  receivers : s'.receivers = s.receivers
  msgTail : s'.msgTail = s.msgTail
  bufferedPromises : s'.bufferedPromises = s.bufferedPromises
  nextPromise : s'.nextPromise = s.nextPromise
  nextCertificate : s'.nextCertificate = s.nextCertificate

namespace Elsewhere

theorem refl (s : Certifier M) : Elsewhere s s := ⟨rfl, rfl, rfl, rfl, rfl, rfl⟩

theorem trans {s'' : Certifier M} (h₁ : Elsewhere s s') (h₂ : Elsewhere s' s'') :
    Elsewhere s s'' :=
  ⟨h₂.identifier.trans h₁.identifier, h₂.receivers.trans h₁.receivers,
    h₂.msgTail.trans h₁.msgTail, h₂.bufferedPromises.trans h₁.bufferedPromises,
    h₂.nextPromise.trans h₁.nextPromise, h₂.nextCertificate.trans h₁.nextCertificate⟩

end Elsewhere

/-- A queue loses its front, and gains one. -/
theorem mem_enqueue {α : Type} {tail : Nat} {queue : List α} {a b : α}
    (h : b ∈ enqueue tail queue a) : b = a ∨ b ∈ queue := by
  rcases List.mem_append.mp h with h | h
  · split at h
    · exact .inr (List.mem_of_mem_drop h)
    · exact .inr h
  · exact .inl (List.mem_singleton.mp h)

theorem elsewhere_enqueueShareVerification (s : Certifier M) (sh : Share) (r : Nat) :
    Elsewhere s (enqueueShareVerification cr s sh r) := by
  unfold enqueueShareVerification
  split
  · exact .refl s
  · exact ⟨rfl, rfl, rfl, rfl, rfl, rfl⟩

/-- A buffered share is looked at. -/
theorem elsewhere_replayShare (i : Index) (s : Certifier M) (r : Nat) :
    Elsewhere s (replayShare cr i s r) := by
  unfold replayShare
  split
  · exact ⟨rfl, rfl, rfl, rfl, rfl, rfl⟩
  · next sh shs _ =>
      split
      · exact ⟨rfl, rfl, rfl, rfl, rfl, rfl⟩
      · have h : Elsewhere s { s with bufferedShares := Function.update s.bufferedShares r shs } :=
          ⟨rfl, rfl, rfl, rfl, rfl, rfl⟩
        exact h.trans (elsewhere_enqueueShareVerification _ _ _)

theorem elsewhere_replayBufferedShares (i : Index) (s : Certifier M) :
    Elsewhere s (replayBufferedShares cr i s) := by
  unfold replayBufferedShares
  generalize List.range s.receivers.length = rs
  induction rs generalizing s with
  | nil => exact .refl s
  | cons r rs ih => exact (elsewhere_replayShare i s r).trans (ih _)

theorem elsewhere_handleShare {sh : Share} {r : Nat} (h : s.handleShare cr sh r = .ok s') :
    Elsewhere s s' := by
  unfold handleShare at h
  split at h
  · cases h; exact elsewhere_enqueueShareVerification s sh r
  · simp only at h
    split at h
    · cases h
    · cases h; exact ⟨rfl, rfl, rfl, rfl, rfl, rfl⟩

theorem elsewhere_startCheck (s : Certifier M) (r : Nat) : Elsewhere s (s.startCheck r) := by
  unfold startCheck
  split
  · exact .refl s
  · exact ⟨rfl, rfl, rfl, rfl, rfl, rfl⟩

theorem elsewhere_finishCheck (s : Certifier M) (k : Nat) :
    Elsewhere s (s.finishCheck cr k) := by
  unfold finishCheck
  split
  · exact .refl s
  · simp only
    split <;> exact ⟨rfl, rfl, rfl, rfl, rfl, rfl⟩

theorem elsewhere_offload {q : List (Index × M)} (h : s.offload q = .ok s') :
    Elsewhere s s' := by
  induction q generalizing s with
  | nil => cases h; exact ⟨rfl, rfl, rfl, rfl, rfl, rfl⟩
  | cons im q ih =>
      rw [offload] at h
      split at h
      · cases h
      · next sorted _ _ =>
          have hr : Elsewhere s { s with
              sortedComputedShares := sorted
              shareComputations := enqueue s.tail s.shareComputations (im.1, im.2) } :=
            ⟨rfl, rfl, rfl, rfl, rfl, rfl⟩
          exact hr.trans (ih h)

theorem elsewhere_computeShare (s : Certifier M) (k : Nat) :
    Elsewhere s (s.computeShare cr k) := by
  unfold computeShare
  split
  · exact .refl s
  · exact ⟨rfl, rfl, rfl, rfl, rfl, rfl⟩

theorem elsewhere_pollComputedShares (s : Certifier M) : Elsewhere s s.pollComputedShares := by
  unfold pollComputedShares
  simp only
  split <;> exact ⟨rfl, rfl, rfl, rfl, rfl, rfl⟩

/-! ### The operations that add no message -/

/-- The messages of `s'` are in the tail of `s`, and nothing was polled. -/
structure Within (s s' : Certifier M) : Prop where
  identifier : s'.identifier = s.identifier
  receivers : s'.receivers = s.receivers
  nextPromise : s'.nextPromise = s.nextPromise
  nextCertificate : s'.nextCertificate = s.nextCertificate
  tail : s'.msgTail.tail = s.msgTail.tail
  min : s'.msgTail.min = s.msgTail.min
  messages : ∀ i d', s'.msgTail.find? i = some d' →
    ∃ d, s.msgTail.find? i = some d ∧ d'.message = d.message

namespace Within

theorem refl (s : Certifier M) : Within s s :=
  ⟨rfl, rfl, rfl, rfl, rfl, rfl, fun _ d h => ⟨d, h, rfl⟩⟩

/-- An operation that leaves the tail alone. -/
theorem of_eq (hi : s'.identifier = s.identifier) (hr : s'.receivers = s.receivers)
    (hp : s'.nextPromise = s.nextPromise) (hc : s'.nextCertificate = s.nextCertificate)
    (ht : s'.msgTail = s.msgTail) : Within s s' :=
  ⟨hi, hr, hp, hc, by rw [ht], by rw [ht], fun _ d h => ⟨d, ht ▸ h, rfl⟩⟩

theorem trans {s'' : Certifier M} (h₁ : Within s s') (h₂ : Within s' s'') : Within s s'' := by
  refine ⟨h₂.identifier.trans h₁.identifier, h₂.receivers.trans h₁.receivers,
    h₂.nextPromise.trans h₁.nextPromise, h₂.nextCertificate.trans h₁.nextCertificate,
    h₂.tail.trans h₁.tail, h₂.min.trans h₁.min, fun i d h => ?_⟩
  obtain ⟨d', h', e⟩ := h₂.messages i d h
  obtain ⟨d₀, h₀, e₀⟩ := h₁.messages i d' h'
  exact ⟨d₀, h₀, e.trans e₀⟩

/-- An operation that changes what is known of a message. -/
theorem modify (s : Certifier M) (i : Index) (f : MessageData M → MessageData M)
    (hf : ∀ d, s.msgTail.find? i = some d → (f d).message = d.message) :
    Within s { s with msgTail := s.msgTail.modify i f } := by
  refine ⟨rfl, rfl, rfl, rfl, rfl, rfl, fun k d h => ?_⟩
  change (s.msgTail.modify i f).find? k = some d at h
  rw [TailMap.find?_modify] at h
  by_cases hk : k = i
  · rw [if_pos hk] at h
    obtain ⟨d₀, h₀, rfl⟩ := Option.map_eq_some_iff.mp h
    exact ⟨d₀, hk ▸ h₀, hf d₀ h₀⟩
  · rw [if_neg hk] at h
    exact ⟨d, h, rfl⟩

/-- The same, when what is known of it was read first. -/
theorem modify_const {i : Index} {d d' : MessageData M} (hd : s.msgTail.find? i = some d)
    (hm : d'.message = d.message) :
    Within s { s with msgTail := s.msgTail.modify i (fun _ => d') } := by
  refine .modify s i _ fun d₀ h₀ => ?_
  obtain rfl : d = d₀ := Option.some.inj (hd.symm.trans h₀)
  exact hm

end Within

theorem Elsewhere.within (h : Elsewhere s s') : Within s s' :=
  .of_eq h.identifier h.receivers h.nextPromise h.nextCertificate h.msgTail

@[simp] theorem receivedPromise_message (d : MessageData M) (r : Nat) :
    (d.receivedPromise r).1.message = d.message := by
  unfold MessageData.receivedPromise
  split <;> rfl

@[simp] theorem receivedShare_message (d : MessageData M) (r : Nat) (sh : Share) :
    (d.receivedShare r sh).1.message = d.message := by
  unfold MessageData.receivedShare
  split <;> rfl

/-- A promise promises no message. -/
theorem within_replayPromise {i : Index} {r : Nat} (h : replayPromise i s r = .ok s') :
    Within s s' := by
  unfold replayPromise at h
  split at h
  · cases h; exact .of_eq rfl rfl rfl rfl rfl
  · split at h
    · cases h; exact .of_eq rfl rfl rfl rfl rfl
    · split at h
      · cases h; exact .refl s
      · next d hd =>
          simp only at h
          split at h
          · cases h
            exact (Within.modify_const hd (receivedPromise_message d r)).trans
              (.of_eq rfl rfl rfl rfl rfl)
          · cases h

theorem within_replayPromises {i : Index} {rs : List Nat} (h : replayPromises i s rs = .ok s') :
    Within s s' := by
  induction rs generalizing s with
  | nil => cases h; exact .refl _
  | cons r rs ih =>
      obtain ⟨s₁, h₁, h₂⟩ := bind_eq_ok.mp h
      exact (within_replayPromise h₁).trans (ih h₂)

theorem within_replayBufferedPromises {i : Index} (h : replayBufferedPromises i s = .ok s') :
    Within s s' := by
  unfold replayBufferedPromises at h
  split at h
  · exact within_replayPromises h
  · cases h; exact .refl s

/-- **What `acknowledge` adds to the tail**: the message, under an index not below the others. -/
theorem acknowledge_cases {i : Index} {m : M} (h : s.acknowledge cr i m = .ok s') :
    ∃ t, s.msgTail.tryEmplaceWord i ⟨m, .empty, []⟩ = .ok (t, true) ∧
      Within { s with msgTail := t } s' := by
  unfold acknowledge at h
  split at h
  · cases h
  · cases h
  · next t ht =>
      obtain ⟨s₁, h₁, h₂⟩ := bind_eq_ok.mp h
      cases h₂
      refine ⟨t, ht, (within_replayBufferedPromises h₁).trans
        ((elsewhere_replayBufferedShares i s₁).within.trans (.of_eq rfl rfl rfl rfl rfl))⟩

/-- A message of the tail after `acknowledge` is the one acknowledged or was there before. -/
theorem acknowledge_messages {i : Index} {m : M} (h : s.acknowledge cr i m = .ok s') {k : Index}
    {d' : MessageData M} (hk : s'.msgTail.find? k = some d') :
    k = i ∧ d'.message = m ∨ ∃ d, s.msgTail.find? k = some d ∧ d'.message = d.message := by
  obtain ⟨t, ht, hw⟩ := acknowledge_cases h
  obtain ⟨d, hd, hm⟩ := hw.messages k d' hk
  rcases TailMap.find?_tryEmplaceWord_cases ht hd with ⟨hki, rfl⟩ | hd
  · exact .inl ⟨hki, hm⟩
  · exact .inr ⟨d, hd, hm⟩

/-- A message is acknowledged, the window keeps its size. -/
theorem acknowledge_tail {i : Index} {m : M} (h : s.acknowledge cr i m = .ok s') :
    s'.msgTail.tail = s.msgTail.tail := by
  obtain ⟨t, ht, hw⟩ := acknowledge_cases h
  exact hw.tail.trans (TailMap.tail_tryEmplaceWord ht)

theorem acknowledge_nextCertificate {i : Index} {m : M} (h : s.acknowledge cr i m = .ok s') :
    s'.nextCertificate = s.nextCertificate := by
  obtain ⟨t, -, hw⟩ := acknowledge_cases h
  exact hw.nextCertificate

/-- A promise comes with a message. -/
theorem within_receivedImplicitPromise {p : ProcId} {i : Index}
    (h : s.receivedImplicitPromise p i = .ok s') : Within s s' := by
  unfold receivedImplicitPromise at h
  split at h
  · cases h; exact .refl s
  · split at h
    · cases h
    · cases h
      exact .modify s i _ fun d _ => receivedPromise_message d _

/-- Only the later messages are left. -/
theorem forgetMessages_messages {i k : Index} {d : MessageData M}
    (h : (s.forgetMessages (some i)).msgTail.find? k = some d) :
    i < k ∧ s.msgTail.find? k = some d := by
  change (s.msgTail.popBelow (i + 1)).find? k = some d at h
  rw [TailMap.find?_popBelow] at h
  split at h
  · cases h
  · next hk => exact ⟨Nat.not_le.mp fun hle => hk (Nat.lt_succ_of_le hle), h⟩

theorem within_forgetMessages (s : Certifier M) (i : Option Index) :
    Within s (s.forgetMessages i) := by
  cases i with
  | none => exact ⟨rfl, rfl, rfl, rfl, rfl, rfl, fun k d h => nomatch h⟩
  | some i =>
      exact ⟨rfl, rfl, rfl, rfl, rfl, rfl,
        fun k d h => ⟨d, (forgetMessages_messages h).2, rfl⟩⟩

theorem within_handlePromise {i : Index} {r : Nat} (h : s.handlePromise i r = .ok s') :
    Within s s' := by
  unfold handlePromise at h
  split at h
  · next d hd =>
      simp only at h
      split at h
      · cases h; exact .modify_const hd (receivedPromise_message d r)
      · cases h
  · simp only at h
    split at h
    · cases h
    · cases h; exact .of_eq rfl rfl rfl rfl rfl

theorem within_handleVerifiedShare {r : Nat} {sh : Share} {b : Bool}
    (h : s.handleVerifiedShare r sh b = .ok s') : Within s s' := by
  unfold handleVerifiedShare at h
  split at h
  · cases h
  · split at h
    · cases h; exact .refl s
    · next d hd =>
        simp only at h
        split at h
        · cases h; exact .modify_const hd (receivedShare_message d r sh)
        · cases h

theorem within_pollVerifiedShare (h : s.pollVerifiedShare = .ok s') : Within s s' := by
  unfold pollVerifiedShare at h
  split at h
  · next rest _ =>
      have hr : Within s { s with verifiedShares := rest } := .of_eq rfl rfl rfl rfl rfl
      exact hr.trans (within_handleVerifiedShare h)
  · split at h
    · next rest _ =>
        have hr : Within s { s with myShares := rest } := .of_eq rfl rfl rfl rfl rfl
        exact hr.trans (within_handleVerifiedShare h)
    · cases h; exact .refl s

/-- What a certifier does by itself adds no message. -/
theorem within_apply {op : Op M} (hop : ∀ i m, op ≠ .acknowledge i m) (hp : op ≠ .pollPromise)
    (hc : op ≠ .pollCertificate) (h : s.apply cr op = .ok s') : Within s s' := by
  cases op with
  | acknowledge i m => exact absurd rfl (hop i m)
  | receivedImplicitPromise p i => exact within_receivedImplicitPromise h
  | pollPromise => exact absurd rfl hp
  | pollCertificate => exact absurd rfl hc
  | forgetMessages i => cases h; exact within_forgetMessages s i
  | toggleFastPath b => cases h; exact .of_eq rfl rfl rfl rfl rfl
  | toggleSlowPath b => cases h; exact .of_eq rfl rfl rfl rfl rfl
  | handlePromise i r =>
      simp only [Certifier.apply] at h
      split at h
      · exact within_handlePromise h
      · cases h; exact .refl _
  | handleShare sh r =>
      simp only [Certifier.apply] at h
      split at h
      · exact (elsewhere_handleShare h).within
      · cases h; exact .refl _
  | startCheck r => cases h; exact (elsewhere_startCheck s r).within
  | finishCheck k => cases h; exact (elsewhere_finishCheck s k).within
  | pollVerifiedShare => exact within_pollVerifiedShare h
  | offloadShareComputation => exact (elsewhere_offload h).within
  | computeShare k => cases h; exact (elsewhere_computeShare s k).within
  | pollComputedShares => cases h; exact (elsewhere_pollComputedShares s).within

/-! ### Polling -/

/-- **What polling a promise does**: the cursor moves up, or right behind the promise if there is
one, which is about a message of the tail that every peer promised. -/
theorem pollPromise_eq (s : Certifier M) :
    ∃ n, s.pollPromise.1 = { s with nextPromise := n } ∧
      (s.pollPromise.2 = none → s.nextPromise ≤ n) ∧
      ∀ k, s.pollPromise.2 = some k → s.nextPromise ≤ k ∧ n = (k + 1) % 2 ^ 64 ∧
        ∃ d, s.msgTail.find? k = some d ∧ d.pollablePromise s := by
  unfold pollPromise
  split
  · exact ⟨s.nextPromise, rfl, fun _ => le_rfl, fun _ h => nomatch h⟩
  · next first _ _ =>
      have hle := Nat.le_max_left s.nextPromise first
      simp only
      split
      · exact ⟨_, rfl, fun _ => hle, fun _ h => nomatch h⟩
      · next d hd =>
          split
          · next hp =>
              refine ⟨_, rfl, (nomatch ·), fun k h => ?_⟩
              obtain rfl := Option.some.inj h
              exact ⟨hle, rfl, d, hd, hp⟩
          · exact ⟨_, rfl, fun _ => hle, fun _ h => nomatch h⟩

/-- **What polling a certificate does**: the same, with the certificate built for a message of the
tail that has a quorum of shares. -/
theorem pollCertificate_eq (cr : Crypto M) (s : Certifier M) :
    ∃ n, (s.pollCertificate cr).1 = { s with nextCertificate := n } ∧
      ((s.pollCertificate cr).2 = none → s.nextCertificate ≤ n) ∧
      ∀ c, (s.pollCertificate cr).2 = some c →
        s.nextCertificate ≤ c.index ∧ n = (c.index + 1) % 2 ^ 64 ∧
          ∃ d, s.msgTail.find? c.index = some d ∧ d.pollableCertificate s ∧
            c = buildCertificate cr s c.index d := by
  unfold pollCertificate
  split
  · exact ⟨s.nextCertificate, rfl, fun _ => le_rfl, fun _ h => nomatch h⟩
  · next first _ _ =>
      have hle := Nat.le_max_left s.nextCertificate first
      simp only
      split
      · exact ⟨_, rfl, fun _ => hle, fun _ h => nomatch h⟩
      · next d hd =>
          split
          · next hp =>
              refine ⟨_, rfl, (nomatch ·), fun c h => ?_⟩
              obtain rfl := Option.some.inj h
              exact ⟨hle, rfl, d, hd, hp, rfl⟩
          · exact ⟨_, rfl, fun _ => hle, fun _ h => nomatch h⟩

/-- A promise polled is about a message of the tail, which is left as it is. -/
theorem pollPromise_cases (s : Certifier M) :
    s.pollPromise.1.msgTail = s.msgTail ∧ s.pollPromise.1.nextCertificate = s.nextCertificate ∧
      ∀ k, s.pollPromise.2 = some k → ∃ d, s.msgTail.find? k = some d := by
  obtain ⟨n, he, -, hp⟩ := pollPromise_eq s
  refine ⟨by rw [he], by rw [he], fun k hk => ?_⟩
  obtain ⟨-, -, d, hd, -⟩ := hp k hk
  exact ⟨d, hd⟩

/-- A certificate polled is built for a message of the tail, which is left as it is. -/
theorem pollCertificate_cases (cr : Crypto M) (s : Certifier M) :
    (s.pollCertificate cr).1.msgTail = s.msgTail ∧
      ∀ c, (s.pollCertificate cr).2 = some c →
        s.nextCertificate ≤ c.index ∧
          ∃ d, s.msgTail.find? c.index = some d ∧ d.pollableCertificate s ∧
            c = buildCertificate cr s c.index d := by
  obtain ⟨n, he, -, hp⟩ := pollCertificate_eq cr s
  refine ⟨by rw [he], fun c hc => ?_⟩
  obtain ⟨hle, -, hd⟩ := hp c hc
  exact ⟨hle, hd⟩

end Ubft.Certifier
