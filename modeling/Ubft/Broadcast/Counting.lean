import Ubft.Broadcast.Signing
import Ubft.Support.Counting

/-!
# Broadcast — how often a receiver is checked

The source only counts the receivers it checked.  The count means what it should: for a message
of the tail there is at most one signature on its way to the registers (`signing`), and each
other receiver is read at most once, so that it is checked at most once (`Counted`).
-/

namespace Ubft.Broadcast

variable {cr : Crypto} {r r' : Receiver}

/-- The check is of the message `i`, for `o`. -/
def Check.isOf (i : Index) (o : Origin) (c : Check) : Bool := c.index = i && c.origin = o

/-- The verified signature is of the message `i`, for `o`. -/
def VerifiedSignature.isOf (i : Index) (o : Origin) (v : VerifiedSignature) : Bool :=
  v.index = i && v.origin = o

/-- The READ is of the register of `q`, for the message `i`. -/
def Read.isOf (i : Index) (q : ProcId) (rd : Read) : Bool := rd.index = i && rd.replica = q

/-- Verifications of origin `o` under way for message `i`. -/
def verifying (cs : List Check) (vs : List VerifiedSignature) (i : Index) (o : Origin) : Nat :=
  cs.countP (Check.isOf i o) + vs.countP (VerifiedSignature.isOf i o)

theorem verifying_append (cs : List Check) (vs : List VerifiedSignature) (c : Check) (i : Index)
    (o : Origin) :
    verifying (cs ++ [c]) vs i o = verifying cs vs i o + if Check.isOf i o c then 1 else 0 := by
  rw [verifying, List.countP_append, List.countP_singleton, verifying]
  omega

/-- A check that is done is still counted. -/
theorem verifying_finish {cs : List Check} {k : Nat} {c : Check} (h : cs[k]? = some c)
    (vs : List VerifiedSignature) (b : Bool) (i : Index) (o : Origin) :
    verifying (cs.eraseIdx k) (vs ++ [⟨c.index, b, c.origin⟩]) i o = verifying cs vs i o := by
  rw [verifying, List.countP_append, List.countP_singleton, verifying,
    ← countP_eraseIdx h (Check.isOf i o)]
  rw [show VerifiedSignature.isOf i o ⟨c.index, b, c.origin⟩ = Check.isOf i o c from rfl]
  omega

/-- A check that is dropped is not. -/
theorem verifying_eraseIdx_le (cs : List Check) (vs : List VerifiedSignature) (k : Nat)
    (i : Index) (o : Origin) : verifying (cs.eraseIdx k) vs i o ≤ verifying cs vs i o :=
  Nat.add_le_add_right (List.Sublist.countP_le (List.eraseIdx_sublist ..)) _

theorem verifying_cons (cs : List Check) (v : VerifiedSignature) (vs : List VerifiedSignature)
    (i : Index) (o : Origin) :
    verifying cs (v :: vs) i o =
      verifying cs vs i o + if VerifiedSignature.isOf i o v then 1 else 0 := by
  rw [verifying, List.countP_cons, verifying]
  omega

namespace Receiver

/-- The stages of the signature of message `i` between its verification and the READs. -/
def signing (r : Receiver) (i : Index) : Nat :=
  verifying r.checks r.verifiedSignatures i .broadcaster
    + (if r.outstandingWrites.find? (i % r.tail) = some i then 1 else 0)
    + (if ∃ rd ∈ r.begun, rd.index = i then 1 else 0)

/-- The checks of receiver `q` under way for message `i`. -/
def pending (r : Receiver) (i : Index) (q : ProcId) : Nat :=
  r.outstandingReads.countP (Read.isOf i q)
    + verifying r.checks r.verifiedSignatures i (.receiverRegister q)

/-- A message is signed once and each receiver is checked for it once. -/
structure Counted (r : Receiver) : Prop where
  signing : ∀ i h, r.held i = some h → r.signing i ≤ if h.signature.isSome then 1 else 0
  checked : ∀ i h, r.held i = some h → ∀ q, h.checkedReceivers.count q + r.pending i q ≤
    if (∃ rd ∈ r.begun, rd.index = i) ∧ q ∈ r.others then 1 else 0

/-! ### Nothing is under way for an index not taken yet -/

/-- A fresh message was not received. -/
theorem not_received_of_fresh (hf : r.Fifo) {i : Index} (hi : r.Fresh i) :
    ¬ ∃ m ∈ r.received, index m = i := fun ⟨m, hm, he⟩ =>
  absurd (hf.received_lt m hm i hi) (he ▸ lt_irrefl _)

section Fresh

variable (hf : r.Fifo) (hs : Signing cr r) {i : Index} (hi : r.Fresh i)
include hf hs hi

theorem not_begun_of_fresh : ¬ ∃ rd ∈ r.begun, rd.index = i := fun ⟨rd, hr, he⟩ => by
  obtain ⟨m, hm, hmi, -⟩ := (hs.begun rd hr).1
  exact not_received_of_fresh hf hi ⟨m, hm, hmi.trans he⟩

/-- No signature of it is checked. -/
theorem verifying_of_fresh (o : Origin) : verifying r.checks r.verifiedSignatures i o = 0 := by
  have hc : r.checks.countP (Check.isOf i o) = 0 := by
    refine List.countP_eq_zero.mpr fun c hc ht => ?_
    obtain ⟨m, hm, hmi, -⟩ := hs.checks c hc
    simp only [Check.isOf, Bool.and_eq_true, decide_eq_true_eq] at ht
    exact not_received_of_fresh hf hi ⟨m, hm, hmi.trans ht.1⟩
  have hv : r.verifiedSignatures.countP (VerifiedSignature.isOf i o) = 0 := by
    refine List.countP_eq_zero.mpr fun v hv ht => ?_
    obtain ⟨m, hm, hmi⟩ := (hs.verified v hv).1
    simp only [VerifiedSignature.isOf, Bool.and_eq_true, decide_eq_true_eq] at ht
    exact not_received_of_fresh hf hi ⟨m, hm, hmi.trans ht.1⟩
  rw [verifying, hc, hv]

theorem signing_of_fresh : r.signing i = 0 := by
  have hw : r.outstandingWrites.find? (i % r.tail) ≠ some i := fun hw => by
    obtain ⟨-, ⟨m, hm, hmi, -⟩, -⟩ := hs.writes _ _ hw
    exact not_received_of_fresh hf hi ⟨m, hm, hmi⟩
  rw [signing, verifying_of_fresh hf hs hi, if_neg hw, if_neg (not_begun_of_fresh hf hs hi)]

theorem pending_of_fresh (q : ProcId) : r.pending i q = 0 := by
  have hr : r.outstandingReads.countP (Read.isOf i q) = 0 := by
    refine List.countP_eq_zero.mpr fun rd hr ht => ?_
    simp only [Read.isOf, Bool.and_eq_true, decide_eq_true_eq] at ht
    exact not_begun_of_fresh hf hs hi ⟨rd, hs.reads rd hr, ht.1⟩
  rw [pending, hr, verifying_of_fresh hf hs hi]

end Fresh

/-! ### One lemma per operation -/

/-- Nothing more is under way, and no message of the tail changes. -/
theorem Counted.anti (h : Counted r) (ho : r'.others = r.others) (hb : r'.begun = r.begun)
    (hh : ∀ i d, r'.held i = some d → r.held i = some d)
    (hs : ∀ i, r'.signing i ≤ r.signing i) (hp : ∀ i q, r'.pending i q ≤ r.pending i q) :
    Counted r' := by
  refine ⟨fun i d hd => (hs i).trans (h.signing i d (hh i d hd)), fun i d hd q => ?_⟩
  rw [ho, hb]
  exact (Nat.add_le_add_left (hp i q) _).trans (h.checked i d (hh i d hd) q)

theorem SameSlow.counted (hs : SameSlow r r') (h : Counted r) : Counted r' := by
  refine h.anti hs.others hs.begun (fun i d hd => (hs.held i).symm.trans hd) (fun i => ?_)
    fun i q => ?_
  · simp only [Receiver.signing]
    rw [hs.checks, hs.verifiedSignatures, hs.outstandingWrites, hs.tail, hs.begun]
  · simp only [Receiver.pending]
    rw [hs.outstandingReads, hs.checks, hs.verifiedSignatures]

/-- A fresh message is taken in. -/
theorem Counted.take (h : Counted r) (hf : r.Fifo) (hs : Signing cr r) {m : Bytes}
    (hm : r.Fresh (index m)) : Counted (r.take m) := by
  refine ⟨fun i d hd => ?_, fun i d hd q => ?_⟩
  · rcases held_take hd with ⟨rfl, rfl⟩ | ⟨-, hd⟩
    · exact (signing_of_fresh hf hs hm).le
    · exact h.signing i d hd
  · rcases held_take hd with ⟨rfl, rfl⟩ | ⟨-, hd⟩
    · change 0 + r.pending (index m) q ≤ _
      rw [pending_of_fresh hf hs hm]
      exact Nat.zero_le _
    · exact h.checked i d hd q

/-- The message `f` changes, or another one. -/
theorem held_modify_cases {i k : Index} {f : MessageData → MessageData} {d : MessageData}
    {h : Held} (hd : r.msgTail.find? i = some d)
    (hk : ({ r with msgTail := r.msgTail.modify i f } : Receiver).held k = some h) :
    k = i ∧ h = (f d).held ∨ k ≠ i ∧ r.held k = some h := by
  rw [held_modify] at hk
  split at hk
  · next hki => rw [hd, Option.map_some] at hk; cases hk; exact .inl ⟨hki, rfl⟩
  · next hki => exact .inr ⟨hki, hk⟩

theorem Counted.handleSignature (h : Counted r) {i : Index} {sig : Signature}
    (hs : r.handleSignature cr i sig = .ok r') : Counted r' := by
  rcases handleSignature_cases hs with rfl | ⟨d, hd, hn, rfl⟩
  · exact h
  · refine ⟨fun k h' hk => ?_, fun k h' hk q => ?_⟩
    · simp only [Receiver.signing, verifying_append]
      rcases held_modify_cases hd hk with ⟨rfl, rfl⟩ | ⟨hki, hk⟩
      · -- no signature was held: nothing was under way
        have := h.signing k d.held (held_of_find? hd)
        simp only [Receiver.signing, MessageData.held, hn, Option.isSome_none,
          Bool.false_eq_true, if_false] at this
        simp only [MessageData.held, Option.isSome_some, if_true]
        have := ite_le_one (Check.isOf k .broadcaster ⟨k, cr.blake3 d.message, sig, .broadcaster⟩ = true)
        omega
      · have := h.signing k h' hk
        have hno : Check.isOf k .broadcaster ⟨i, cr.blake3 d.message, sig, .broadcaster⟩ = false := by
          simp [Check.isOf, Ne.symm hki]
        rw [hno]
        exact this
    · have hno : Check.isOf k (.receiverRegister q)
          ⟨i, cr.blake3 d.message, sig, .broadcaster⟩ = false := by simp [Check.isOf]
      simp only [Receiver.pending, verifying_append, hno]
      rcases held_modify_cases hd hk with ⟨rfl, rfl⟩ | ⟨-, hk⟩
      · exact h.checked k d.held (held_of_find? hd) q
      · exact h.checked k h' hk q

theorem Counted.finishCheck (h : Counted r) (k : Nat) : Counted (r.finishCheck cr k) := by
  rcases finishCheck_cases cr r k with he | ⟨c, hc, he⟩
  · rw [he]; exact h
  · rw [he]
    refine h.anti rfl rfl (fun _ _ hd => hd) (fun i => ?_) fun i q => ?_
    · simp only [Receiver.signing, verifying_finish hc, le_refl]
    · simp only [Receiver.pending, verifying_finish hc, le_refl]

theorem Counted.dropCheck (h : Counted r) (k : Nat) : Counted (r.dropCheck k) := by
  refine h.anti rfl rfl (fun _ _ hd => hd) (fun i => ?_) fun i q => ?_
  · exact Nat.add_le_add_right (Nat.add_le_add_right (verifying_eraseIdx_le ..) _) _
  · exact Nat.add_le_add_left (verifying_eraseIdx_le ..) _

/-- A verification polled is not under way any more. -/
theorem Counted.pop (h : Counted r) {v : VerifiedSignature} {vs : List VerifiedSignature}
    (hv : r.verifiedSignatures = v :: vs) : Counted { r with verifiedSignatures := vs } := by
  refine h.anti rfl rfl (fun _ _ hd => hd) (fun i => ?_) fun i q => ?_
  · simp only [Receiver.signing, hv, verifying_cons]
    omega
  · simp only [Receiver.pending, hv, verifying_cons]
    omega

theorem Counted.pollSignatureVerification (h : Counted r)
    (hp : r.pollSignatureVerification cr = .ok r') : Counted r' := by
  rcases pollSignatureVerification_cases hp with rfl | ⟨v, vs, hv, hcase⟩
  · exact h
  · rcases hcase with ⟨-, rfl⟩ | ⟨d, hd, ⟨ho, -, hw⟩ | ⟨q, ho, -, rfl⟩⟩
    · exact h.pop hv
    · -- the signature moves from the verifications to the WRITEs
      obtain ⟨sig, -, hfree, -, rfl⟩ := write_cases hw
      refine ⟨fun k h' hk => ?_, fun k h' hk q => ?_⟩
      · have := h.signing k h' hk
        simp only [Receiver.signing, hv, verifying_cons, VerifiedSignature.isOf, ho] at this
        simp only [Receiver.signing, OrdMap.find?_insert]
        by_cases hki : k = v.index
        · subst hki
          simp only [decide_true, Bool.and_self, if_true] at this ⊢
          have hno : ¬ r.outstandingWrites.find? (v.index % r.tail) = some v.index := by
            rw [hfree]; exact (nomatch ·)
          rw [if_neg hno] at this
          omega
        · have hle : (if (if k % r.tail = v.index % r.tail then some v.index
              else r.outstandingWrites.find? (k % r.tail)) = some k then 1 else 0) ≤
              if r.outstandingWrites.find? (k % r.tail) = some k then 1 else 0 := by
            by_cases hs : k % r.tail = v.index % r.tail
            · rw [if_pos hs, if_neg fun hc => hki (Option.some.inj hc).symm]
              exact Nat.zero_le _
            · rw [if_neg hs]
          omega
      · exact (h.pop hv).checked k h' hk q
    · refine ⟨fun k h' hk => ?_, fun k h' hk q' => ?_⟩
      · rcases held_modify_cases hd hk with ⟨rfl, rfl⟩ | ⟨-, hk⟩
        · exact (h.pop hv).signing _ d.held (held_of_find? hd)
        · exact (h.pop hv).signing k h' hk
      · rcases held_modify_cases hd hk with ⟨rfl, rfl⟩ | ⟨-, hk⟩
        · have := h.checked v.index d.held (held_of_find? hd) q'
          simp only [Receiver.pending, hv, verifying_cons, VerifiedSignature.isOf, ho,
            MessageData.held] at this
          simp only [Receiver.pending, MessageData.held, MessageData.checkedAReceiver,
            List.count_cons]
          by_cases hq : q = q'
          · subst hq
            simp only [decide_true, Bool.and_self, if_true, beq_self_eq_true] at this ⊢
            omega
          · simp only [Origin.receiverRegister.injEq, hq, decide_false, Bool.and_false,
              Bool.false_eq_true, if_false, beq_iff_eq] at this ⊢
            omega
        · exact (h.pop hv).checked k h' hk q'

/-- One READ for each of the other receivers. -/
theorem countP_readsOf (hn : r.others.Nodup) (i : Index) (since : ProcId → Nat) (k : Index)
    (q : ProcId) :
    (r.readsOf i since).countP (Read.isOf k q) = if i = k ∧ q ∈ r.others then 1 else 0 := by
  rw [readsOf, List.countP_map]
  by_cases hik : i = k
  · have : r.others.countP (Read.isOf k q ∘ fun q => ⟨i, q, since q⟩) = r.others.count q := by
      rw [List.count]
      exact List.countP_congr fun x _ => by simp [Read.isOf, hik]
    rw [this, List.Nodup.count hn]
    simp [hik]
  · rw [if_neg fun hc => hik hc.1]
    exact List.countP_eq_zero.mpr fun x _ => by simp [Read.isOf, hik]

/-- Nothing is read for a message of the tail before its WRITE completes. -/
theorem Counted.not_begun (h : Counted r) (hs : Signing cr r) {slot : Nat} {i : Index}
    {d : MessageData} (hi : r.outstandingWrites.find? slot = some i)
    (hd : r.msgTail.find? i = some d) : ¬ ∃ rd ∈ r.begun, rd.index = i := by
  intro hb
  have hsi := h.signing i d.held (held_of_find? hd)
  have hw : r.outstandingWrites.find? (i % r.tail) = some i := (hs.writes slot i hi).1 ▸ hi
  rw [Receiver.signing, if_pos hw, if_pos hb] at hsi
  have := ite_le_one (d.held.signature.isSome = true)
  omega

theorem Counted.pollWriteCompletion (h : Counted r) (hs : Signing cr r) (hn : r.others.Nodup)
    (slot : Nat) (since : ProcId → Nat) : Counted (r.pollWriteCompletion slot since) := by
  rcases pollWriteCompletion_cases r slot since with he | ⟨i, hi, he⟩
  · rw [he]; exact h
  · have hslot := (hs.writes slot i hi).1
    -- the WRITE of `i` is over, no other one is
    have hw : ∀ k, (if (r.outstandingWrites.erase slot).find? (k % r.tail) = some k
        then 1 else 0) + (if k = i then 1 else 0) =
          if r.outstandingWrites.find? (k % r.tail) = some k then 1 else 0 := by
      intro k
      rw [OrdMap.find?_erase]
      by_cases hk : k % r.tail = slot
      · rw [if_pos hk, hk, hi]
        simp [eq_comm]
      · have hki : k ≠ i := fun hki => hk (by rw [hki, hslot])
        simp [hk, hki]
    rcases he with ⟨-, he⟩ | ⟨d, hd, he⟩
    · rw [he]
      refine h.anti rfl rfl (fun _ _ hd => hd) (fun k => ?_) fun _ _ => le_refl _
      have := hw k
      simp only [Receiver.signing]
      omega
    · rw [he]
      have hnb := h.not_begun hs hi hd
      have hbegun : ∀ k, (∃ rd ∈ r.begun ++ r.readsOf i since, rd.index = k) ↔
          (∃ rd ∈ r.begun, rd.index = k) ∨ k = i ∧ r.others ≠ [] := by
        intro k
        simp only [readsOf, List.mem_append, List.mem_map, or_and_right, exists_or]
        refine or_congr_right ⟨?_, ?_⟩
        · rintro ⟨_, ⟨q, hq, rfl⟩, hk⟩
          exact ⟨hk.symm, List.ne_nil_of_mem hq⟩
        · rintro ⟨rfl, hne⟩
          obtain ⟨q, hq⟩ := List.exists_mem_of_ne_nil _ hne
          exact ⟨_, ⟨q, hq, rfl⟩, rfl⟩
      refine ⟨fun k h' hk => ?_, fun k h' hk q => ?_⟩
      · have := h.signing k h' hk
        simp only [Receiver.signing, ← hw] at this
        simp only [Receiver.signing, hbegun]
        by_cases hki : k = i
        · subst hki
          rw [if_neg hnb] at this
          simp only [if_true] at this
          have := ite_le_one ((∃ rd ∈ r.begun, rd.index = k) ∨ k = k ∧ r.others ≠ [])
          omega
        · simp only [hki, false_and, or_false, if_false] at this ⊢
          omega
      · have := h.checked k h' hk q
        simp only [Receiver.pending] at this
        simp only [Receiver.pending, hbegun, List.countP_append, countP_readsOf hn]
        by_cases hki : k = i
        · subst hki
          simp only [hnb, false_and, if_false] at this
          by_cases hq : q ∈ r.others
          · rw [if_pos ⟨rfl, hq⟩, if_pos ⟨.inr ⟨rfl, List.ne_nil_of_mem hq⟩, hq⟩]
            omega
          · rw [if_neg fun hc => hq hc.2, if_neg fun hc => hq hc.2]
            omega
        · simp only [hki, Ne.symm hki, false_and, or_false, if_false] at this ⊢
          omega

theorem Counted.pollReadCompletion (h : Counted r) {k : Nat} {reg : Register}
    (hp : r.pollReadCompletion k reg = .ok r') : Counted r' := by
  rcases pollReadCompletion_cases hp with rfl | ⟨rd, hrd, -, hcase⟩
  · exact h
  · have hc : ∀ i q, (r.outstandingReads.eraseIdx k).countP (Read.isOf i q) +
        (if rd.index = i ∧ rd.replica = q then 1 else 0) =
          r.outstandingReads.countP (Read.isOf i q) := by
      intro i q
      rw [← countP_eraseIdx hrd (Read.isOf i q)]
      simp only [Read.isOf, Bool.and_eq_true, decide_eq_true_eq]
    rcases hcase with ⟨-, rfl⟩ | ⟨d, hd, ⟨-, rfl⟩ | ⟨-, rfl⟩⟩
    · refine h.anti rfl rfl (fun _ _ hd => hd) (fun _ => le_refl _) fun i q => ?_
      simp only [Receiver.pending, ← hc i q]
      omega
    · refine ⟨fun i h' hk => ?_, fun i h' hk q => ?_⟩
      · rcases held_modify_cases hd hk with ⟨rfl, rfl⟩ | ⟨-, hk⟩
        · exact h.signing _ d.held (held_of_find? hd)
        · exact h.signing i h' hk
      · rcases held_modify_cases hd hk with ⟨rfl, rfl⟩ | ⟨hne, hk⟩
        · have := h.checked rd.index d.held (held_of_find? hd) q
          simp only [Receiver.pending, ← hc, MessageData.held, true_and] at this
          simp only [Receiver.pending, MessageData.held, MessageData.checkedAReceiver,
            List.count_cons, beq_iff_eq]
          omega
        · have := h.checked i h' hk q
          simp only [Receiver.pending, ← hc, Ne.symm hne, false_and, if_false] at this
          exact this
    · refine ⟨fun i h' hk => ?_, fun i h' hk q => ?_⟩
      · have hno : Check.isOf i .broadcaster
            ⟨rd.index, reg.hash, reg.signature, .receiverRegister rd.replica⟩ = false := by
          simp [Check.isOf]
        have := h.signing i h' hk
        simp only [Receiver.signing, verifying_append, hno]
        exact this
      · have := h.checked i h' hk q
        simp only [Receiver.pending, ← hc] at this
        simp only [Receiver.pending, verifying_append, Check.isOf, Bool.and_eq_true,
          decide_eq_true_eq, Origin.receiverRegister.injEq]
        omega

theorem Counted.handle (h : Counted r) (hf : r.Fifo) (hs : Signing cr r) (hn : r.others.Nodup)
    {inp : Input} (hh : r.handle cr inp = .ok r') : Counted r' := by
  cases inp with
  | message m =>
      rcases handleMessage_cases hh with rfl | ⟨hm, hh⟩
      · exact h
      · exact (sameSlow_replayEchoes hh).counted (h.take hf hs hm)
  | echo q e =>
      simp only [Receiver.handle] at hh
      split at hh
      · exact (handleEcho_cases hh).counted h
      · cases hh; exact h
  | signature i sig => exact h.handleSignature hh
  | finishCheck k => cases hh; exact h.finishCheck k
  | dropCheck k => cases hh; exact h.dropCheck k
  | pollSignatureVerification => exact h.pollSignatureVerification hh
  | writeCompletion slot since => cases hh; exact h.pollWriteCompletion hs hn slot since
  | readCompletion k reg => exact h.pollReadCompletion hh
  | poll =>
      cases hh
      rcases poll_cases r with he | ⟨i, d, -, -, he⟩
      · rw [he]; exact h
      · rw [he]
        exact h.anti rfl rfl (fun _ _ hd => (held_poll hd).2) (fun _ => le_refl _)
          fun _ _ => le_refl _
  | toggleSlowPath b =>
      cases hh
      exact h.anti rfl rfl (fun _ _ hd => hd) (fun _ => le_refl _) fun _ _ => le_refl _

theorem Counted.count_le (h : Counted r) {i : Index} {d : Held} (hd : r.held i = some d)
    (q : ProcId) : d.checkedReceivers.count q ≤ if q ∈ r.others then 1 else 0 := by
  have := h.checked i d hd q
  split at this <;> split <;> first | omega | simp_all

/-- No receiver is counted twice. -/
theorem Counted.nodup (h : Counted r) {i : Index} {d : Held} (hd : r.held i = some d) :
    d.checkedReceivers.Nodup := by
  refine List.nodup_iff_count_le_one.mpr fun q => ?_
  have := h.count_le hd q
  split at this <;> omega

/-- Only the other receivers are checked. -/
theorem Counted.subset (h : Counted r) {i : Index} {d : Held} (hd : r.held i = some d) :
    d.checkedReceivers ⊆ r.others := by
  intro q hq
  by_contra hno
  have := h.count_le hd q
  rw [if_neg hno] at this
  exact absurd (List.count_pos_iff.mpr hq) (by omega)

/-- **The count counts receivers.**  When it reaches their number, each was checked. -/
theorem Counted.mem_checkedReceivers (h : Counted r) {i : Index} {d : Held}
    (hd : r.held i = some d) (hlen : d.checkedReceivers.length = r.others.length) {q : ProcId}
    (hq : q ∈ r.others) : q ∈ d.checkedReceivers := by
  have hsub := List.subperm_of_subset (h.nodup hd) (h.subset hd)
  exact (hsub.perm_of_length_le hlen.ge).mem_iff.mpr hq

end Receiver

end Ubft.Broadcast
