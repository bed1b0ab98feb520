import Ubft.Certifier.Definitions

/-!
# Certifier — the shares received

What an operation of the certifier does to the shares its replica vouches for: only
`handleVerifiedShare` adds one (`Keeps`), and it adds a share a worker found valid, or the
replica's own.  So the replica has the public key of every replica it vouches for
(`known_of_reachable`).
-/

namespace Ubft.Certifier

variable {M : Type} {cr : Crypto M} {s s' : Certifier M}

/-- `s'` vouches for no share that `s` does not vouch for, nor awaits one. -/
structure Keeps (s s' : Certifier M) : Prop where
  receivers : s'.receivers = s.receivers
  received : ∀ i d', s'.msgTail.find? i = some d' →
    d'.receivedShares = .empty ∨
      ∃ d, s.msgTail.find? i = some d ∧ d'.receivedShares = d.receivedShares
  verified : ∀ x ∈ s'.verifiedShares, x ∈ s.verifiedShares

namespace Keeps

theorem refl (s : Certifier M) : Keeps s s :=
  ⟨rfl, fun _ d h => .inr ⟨d, h, rfl⟩, fun _ h => h⟩

/-- An operation that leaves the tail and the verified shares alone. -/
theorem of_eq (hr : s'.receivers = s.receivers) (ht : s'.msgTail = s.msgTail)
    (hv : s'.verifiedShares = s.verifiedShares) : Keeps s s' :=
  ⟨hr, fun _ d h => .inr ⟨d, ht ▸ h, rfl⟩, fun _ h => hv ▸ h⟩

theorem trans {s'' : Certifier M} (h₁ : Keeps s s') (h₂ : Keeps s' s'') : Keeps s s'' := by
  refine ⟨h₂.receivers.trans h₁.receivers, fun i d h => ?_,
    fun x hx => h₁.verified x (h₂.verified x hx)⟩
  rcases h₂.received i d h with he | ⟨d', h', e⟩
  · exact .inl he
  · rcases h₁.received i d' h' with he | ⟨d₀, h₀, e₀⟩
    · exact .inl (e.trans he)
    · exact .inr ⟨d₀, h₀, e.trans e₀⟩

/-- A step, after one that changes neither receivers nor shares. -/
theorem of_eq_trans {s₁ : Certifier M} (h : Keeps s₁ s') (hr : s₁.receivers = s.receivers)
    (ht : s₁.msgTail = s.msgTail) (hv : s₁.verifiedShares = s.verifiedShares) : Keeps s s' :=
  (Keeps.of_eq hr ht hv).trans h

/-- An operation that changes the messages of the tail, but no share received with them. -/
theorem modify (s : Certifier M) (i : Index) (f : MessageData M → MessageData M)
    (hf : ∀ d, (s.msgTail.find? i = some d) → (f d).receivedShares = d.receivedShares) :
    Keeps s { s with msgTail := s.msgTail.modify i f } := by
  refine ⟨rfl, fun k d h => ?_, fun _ h => h⟩
  change (s.msgTail.modify i f).find? k = some d at h
  rw [TailMap.find?_modify] at h
  by_cases hk : k = i
  · rw [if_pos hk] at h
    obtain ⟨d₀, h₀, rfl⟩ := Option.map_eq_some_iff.mp h
    exact .inr ⟨d₀, hk ▸ h₀, hf d₀ h₀⟩
  · rw [if_neg hk] at h
    exact .inr ⟨d, h, rfl⟩

end Keeps

@[simp] theorem receivedPromise_receivedShares (d : MessageData M) (r : Nat) :
    (d.receivedPromise r).1.receivedShares = d.receivedShares := by
  unfold MessageData.receivedPromise
  split <;> rfl

/-! ### One lemma per operation -/

/-- A verification is only queued. -/
theorem keeps_enqueueShareVerification (s : Certifier M) (sh : Share) (r : Nat) :
    Keeps s (enqueueShareVerification cr s sh r) := by
  unfold enqueueShareVerification
  split
  · exact .refl s
  · exact .of_eq rfl rfl rfl

/-- A promise noted for a message of the tail. -/
theorem keeps_promise {s : Certifier M} {i : Index} {r : Nat} {d : MessageData M}
    (h : s.msgTail.find? i = some d) :
    Keeps s { s with msgTail := s.msgTail.modify i (fun _ => (d.receivedPromise r).1) } := by
  refine .modify s i _ fun d' h' => ?_
  obtain rfl : d = d' := Option.some.inj (h.symm.trans h')
  exact receivedPromise_receivedShares d r

theorem keeps_replayPromise {i : Index} {r : Nat} (h : replayPromise i s r = .ok s') :
    Keeps s s' := by
  unfold replayPromise at h
  split at h
  · cases h; exact .of_eq rfl rfl rfl
  · split at h
    · cases h; exact .of_eq rfl rfl rfl
    · split at h
      · cases h; exact .refl s
      · next d hd =>
          simp only at h
          split at h
          · cases h
            exact (keeps_promise hd).trans (.of_eq rfl rfl rfl)
          · cases h

theorem keeps_replayPromises {i : Index} {rs : List Nat} (h : replayPromises i s rs = .ok s') :
    Keeps s s' := by
  induction rs generalizing s with
  | nil => cases h; exact .refl _
  | cons r rs ih =>
      obtain ⟨s₁, h₁, h₂⟩ := bind_eq_ok.mp h
      exact (keeps_replayPromise h₁).trans (ih h₂)

/-- A buffered share has yet to be verified. -/
theorem keeps_replayShare (i : Index) (s : Certifier M) (r : Nat) :
    Keeps s (replayShare cr i s r) := by
  unfold replayShare
  split
  · exact .of_eq rfl rfl rfl
  · next sh shs _ =>
      split
      · exact .of_eq rfl rfl rfl
      · have h : Keeps s
            { s with bufferedShares := Function.update s.bufferedShares r shs } :=
          .of_eq rfl rfl rfl
        exact h.trans (keeps_enqueueShareVerification _ _ _)

theorem keeps_replayBufferedPromises {i : Index} (h : replayBufferedPromises i s = .ok s') :
    Keeps s s' := by
  unfold replayBufferedPromises at h
  split at h
  · exact keeps_replayPromises h
  · cases h; exact .refl s

theorem keeps_replayBufferedShares (i : Index) (s : Certifier M) :
    Keeps s (replayBufferedShares cr i s) := by
  unfold replayBufferedShares
  generalize List.range s.receivers.length = rs
  induction rs generalizing s with
  | nil => exact .refl s
  | cons r rs ih => exact (keeps_replayShare i s r).trans (ih _)

/-- A message acknowledged starts without shares. -/
theorem keeps_tryEmplace {t : TailMap (MessageData M)} {i : Index} {m : M}
    (h : s.msgTail.tryEmplaceWord i ⟨m, .empty, []⟩ = .ok (t, true)) :
    Keeps s { s with msgTail := t } := by
  refine ⟨rfl, fun k d hk => ?_, fun _ h => h⟩
  rcases TailMap.find?_tryEmplaceWord_cases h hk with ⟨-, rfl⟩ | hk
  · exact .inl rfl
  · exact .inr ⟨d, hk, rfl⟩

/-- A new message has no shares. -/
theorem keeps_acknowledge {i : Index} {m : M} (h : s.acknowledge cr i m = .ok s') :
    Keeps s s' := by
  unfold acknowledge at h
  split at h
  · cases h
  · cases h
  · next t ht =>
      obtain ⟨s₁, h₁, h₂⟩ := bind_eq_ok.mp h
      cases h₂
      have hq : Keeps (replayBufferedShares cr i s₁)
          (queueShareComputation (replayBufferedShares cr i s₁) i m) :=
        .of_eq rfl rfl rfl
      exact (keeps_tryEmplace ht).trans ((keeps_replayBufferedPromises h₁).trans
        ((keeps_replayBufferedShares i s₁).trans hq))

theorem keeps_receivedImplicitPromise {p : ProcId} {i : Index}
    (h : s.receivedImplicitPromise p i = .ok s') : Keeps s s' := by
  unfold receivedImplicitPromise at h
  split at h
  · cases h; exact .refl s
  · split at h
    · cases h
    · cases h
      exact .modify s i _ fun d _ => receivedPromise_receivedShares d _

theorem keeps_pollPromise (s : Certifier M) : Keeps s s.pollPromise.1 := by
  unfold pollPromise
  split
  · exact .refl s
  · simp only
    split
    · exact .of_eq rfl rfl rfl
    · split <;> exact .of_eq rfl rfl rfl

theorem keeps_pollCertificate (s : Certifier M) : Keeps s (s.pollCertificate cr).1 := by
  unfold pollCertificate
  split
  · exact .refl s
  · simp only
    split
    · exact .of_eq rfl rfl rfl
    · split <;> exact .of_eq rfl rfl rfl

/-- Shares are forgotten with their message. -/
theorem keeps_forgetMessages (s : Certifier M) (i : Option Index) :
    Keeps s (s.forgetMessages i) := by
  cases i with
  | none =>
      refine ⟨rfl, fun k d h => ?_, fun _ h => h⟩
      cases h
  | some i =>
      refine ⟨rfl, fun k d h => ?_, fun _ h => h⟩
      change (s.msgTail.popBelow (i + 1)).find? k = some d at h
      rw [TailMap.find?_popBelow] at h
      split at h
      · cases h
      · exact .inr ⟨d, h, rfl⟩

theorem keeps_handlePromise {i : Index} {r : Nat} (h : s.handlePromise i r = .ok s') :
    Keeps s s' := by
  unfold handlePromise at h
  split at h
  · next d hd =>
      simp only at h
      split at h
      · cases h; exact keeps_promise hd
      · cases h
  · simp only at h
    split at h
    · cases h
    · cases h; exact .of_eq rfl rfl rfl

/-- A share has yet to be verified. -/
theorem keeps_handleShare {sh : Share} {r : Nat} (h : s.handleShare cr sh r = .ok s') :
    Keeps s s' := by
  unfold handleShare at h
  split at h
  · cases h; exact keeps_enqueueShareVerification s sh r
  · simp only at h
    split at h
    · cases h
    · cases h; exact .of_eq rfl rfl rfl

theorem keeps_startCheck (s : Certifier M) (r : Nat) : Keeps s (s.startCheck r) := by
  unfold startCheck
  split
  · exact .refl s
  · exact .of_eq rfl rfl rfl

/-- A computation is only started. -/
theorem keeps_offload {q : List (Index × M)} (h : s.offload q = .ok s') : Keeps s s' := by
  induction q generalizing s with
  | nil => cases h; exact .of_eq rfl rfl rfl
  | cons im q ih =>
      rw [offload] at h
      split at h
      · cases h
      · exact (ih h).of_eq_trans rfl rfl rfl

theorem keeps_computeShare (s : Certifier M) (k : Nat) : Keeps s (s.computeShare cr k) := by
  unfold computeShare
  split
  · exact .refl s
  · exact .of_eq rfl rfl rfl

theorem keeps_pollComputedShares (s : Certifier M) : Keeps s s.pollComputedShares := by
  unfold pollComputedShares
  simp only
  split <;> exact .of_eq rfl rfl rfl

/-! ### The operations that add a share -/

/-- A worker reports a check only under a key that is known. -/
theorem finishCheck_cases (cr : Crypto M) (s : Certifier M) (k : Nat) :
    Keeps s (s.finishCheck cr k) ∨
      ∃ r sh b, s.source cr r ∈ cr.publicKeys ∧ (s.finishCheck cr k).receivers = s.receivers ∧
        (s.finishCheck cr k).msgTail = s.msgTail ∧
        (s.finishCheck cr k).verifiedShares = s.verifiedShares ++ [(r, sh, b)] := by
  unfold finishCheck
  split
  · exact .inl (.refl s)
  · next r sh h _ =>
      simp only
      cases hv : cr.verify sh.signature h (source cr s r) with
      | error e => exact .inl (by simp only [source] at hv ⊢; rw [hv]; exact .of_eq rfl rfl rfl)
      | ok b =>
          refine .inr ⟨r, sh, b, ?_, ?_⟩
          · by_contra hno
            rw [Crypto.verify, if_neg hno] at hv
            cases hv
          · simp only [source] at hv ⊢
            rw [hv]
            exact ⟨rfl, rfl, rfl⟩

/-- A share found valid is kept with its message, once for each replica. -/
theorem handleVerifiedShare_cases {r : Nat} {sh : Share} {b : Bool}
    (h : s.handleVerifiedShare r sh b = .ok s') :
    s' = s ∨
      ∃ d, s.msgTail.find? sh.msgIndex = some d ∧ d.receivedShares.find? r = none ∧
        s' = { s with
          msgTail := s.msgTail.modify sh.msgIndex
            (fun _ => { d with receivedShares := d.receivedShares.insert r sh }) } := by
  unfold handleVerifiedShare at h
  split at h
  · cases h
  · split at h
    · cases h; exact .inl rfl
    · next d hd =>
        unfold MessageData.receivedShare at h
        cases hr : d.receivedShares.find? r with
        | some sh' => rw [hr] at h; cases h
        | none =>
            rw [hr] at h
            cases h
            exact .inr ⟨d, hd, hr, rfl⟩

/-! ### Known signers -/

/-- The replica has the key of whoever it vouches for. -/
structure Known (cr : Crypto M) (s : Certifier M) : Prop where
  received : ∀ i d, s.msgTail.find? i = some d → ∀ r sh, d.receivedShares.find? r = some sh →
    s.source cr r ∈ cr.publicKeys
  verified : ∀ r sh b, (r, sh, b) ∈ s.verifiedShares → s.source cr r ∈ cr.publicKeys

theorem source_eq (h : s'.receivers = s.receivers) (r : Nat) :
    s'.source cr r = s.source cr r := by
  unfold source; rw [h]

/-- After the receivers comes the member itself. -/
theorem source_own (cr : Crypto M) (s : Certifier M) : s.source cr s.receivers.length = cr.myId := by
  simp [source]

theorem Known.keeps (hk : Known cr s) (h : Keeps s s') : Known cr s' := by
  refine ⟨fun i d hd r sh hr => ?_, fun r sh b hm => ?_⟩
  · rw [source_eq h.receivers]
    rcases h.received i d hd with he | ⟨d₀, h₀, e⟩
    · rw [he] at hr; cases hr
    · exact hk.received i d₀ h₀ r sh (e ▸ hr)
  · rw [source_eq h.receivers]
    exact hk.verified r sh b (h.verified _ hm)

/-- A verified share of a known member. -/
theorem Known.handleVerifiedShare (hk : Known cr s) {r : Nat} {sh : Share} {b : Bool}
    (hr : s.source cr r ∈ cr.publicKeys) (h : s.handleVerifiedShare r sh b = .ok s') :
    Known cr s' := by
  rcases handleVerifiedShare_cases h with rfl | ⟨d, hd, -, rfl⟩
  · exact hk
  · refine ⟨fun i d' hd' r' sh' hr' => ?_, hk.verified⟩
    change s.source cr r' ∈ cr.publicKeys
    simp only [TailMap.find?_modify] at hd'
    by_cases hi : i = sh.msgIndex
    · rw [if_pos hi, hd] at hd'
      cases hd'
      simp only [OrdMap.find?_insert] at hr'
      by_cases hrr : r' = r
      · exact hrr ▸ hr
      · rw [if_neg hrr] at hr'
        exact hk.received _ d hd r' sh' hr'
    · rw [if_neg hi] at hd'
      exact hk.received i d' hd' r' sh' hr'

theorem Known.apply (hk : Known cr s) {op : Op M} (h : s.apply cr op = .ok s') :
    Known cr s' := by
  cases op with
  | acknowledge i m => exact hk.keeps (keeps_acknowledge h)
  | receivedImplicitPromise p i => exact hk.keeps (keeps_receivedImplicitPromise h)
  | pollPromise => cases h; exact hk.keeps (keeps_pollPromise s)
  | pollCertificate => cases h; exact hk.keeps (keeps_pollCertificate s)
  | forgetMessages i => cases h; exact hk.keeps (keeps_forgetMessages s i)
  | toggleFastPath b => cases h; exact hk.keeps (.of_eq rfl rfl rfl)
  | toggleSlowPath b => cases h; exact hk.keeps (.of_eq rfl rfl rfl)
  | handlePromise i r =>
      simp only [Certifier.apply] at h
      split at h
      · exact hk.keeps (keeps_handlePromise h)
      · cases h; exact hk
  | handleShare sh r =>
      simp only [Certifier.apply] at h
      split at h
      · exact hk.keeps (keeps_handleShare h)
      · cases h; exact hk
  | startCheck r => cases h; exact hk.keeps (keeps_startCheck s r)
  | finishCheck k =>
      cases h
      rcases finishCheck_cases cr s k with h | ⟨r, sh, b, hr, hrc, ht, hv⟩
      · exact hk.keeps h
      · refine ⟨fun i d hd r' sh' hr' => ?_, fun r' sh' b' hm => ?_⟩
        · rw [source_eq hrc]
          exact hk.received i d (ht ▸ hd) r' sh' hr'
        · rw [source_eq hrc]
          rw [hv, List.mem_append, List.mem_singleton] at hm
          rcases hm with hm | hm
          · exact hk.verified r' sh' b' hm
          · cases hm; exact hr
  | pollVerifiedShare =>
      simp only [Certifier.apply, pollVerifiedShare] at h
      split at h
      · next r sh b rest hq =>
          have hk' : Known cr { s with verifiedShares := rest } :=
            hk.keeps ⟨rfl, fun _ d h => .inr ⟨d, h, rfl⟩, fun x hx => by
              rw [hq]; exact List.mem_cons_of_mem _ hx⟩
          exact hk'.handleVerifiedShare (hk.verified r sh b (by rw [hq]; exact List.mem_cons_self)) h
      · split at h
        · next sh rest _ =>
            have hk' : Known cr { s with myShares := rest } := hk.keeps (.of_eq rfl rfl rfl)
            refine hk'.handleVerifiedShare ?_ h
            exact (source_own cr { s with myShares := rest }).symm ▸ cr.own
        · cases h; exact hk
  | offloadShareComputation => exact hk.keeps (keeps_offload h)
  | computeShare k => cases h; exact hk.keeps (keeps_computeShare s k)
  | pollComputedShares => cases h; exact hk.keeps (keeps_pollComputedShares s)

/-- **Whoever is vouched for is known**, in every state a certifier reaches. -/
theorem known_of_reachable (h : Reachable Init (Step cr) Always s) : Known cr s := by
  refine h.induct (fun s hs => ?_) (fun s op s' _ hk _ hs => hk.apply hs)
  obtain ⟨tail, identifier, receivers, rfl⟩ := hs
  refine ⟨fun i d h => ?_, fun r sh b h => ?_⟩
  · cases h
  · cases h

end Ubft.Certifier
