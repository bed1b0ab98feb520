import Ubft.Broadcast.Order

/-!
# Broadcast — what the operations do

One lemma for each operation of the slow path, with the tests it made: the invariants are
proved from these, never from the definitions.
-/

namespace Ubft.Broadcast

variable {cr : Crypto} {r r' : Receiver}

namespace Receiver

theorem handleEcho_cases {e : Buffer} {q : ProcId} (h : r.handleEcho cr e q = .ok r') :
    SameSlow r r' := by
  unfold handleEcho at h
  have hrec : SameSlow r { r with echoed := Function.update r.echoed q (r.echoed q ++ [e]) } :=
    ⟨rfl, rfl, rfl, fun _ => rfl, rfl, rfl, rfl, rfl, rfl, rfl, rfl, rfl, rfl⟩
  split at h
  · cases h; exact .refl r
  · simp only at h
    split at h
    · cases h; exact hrec
    · split at h
      · exact hrec.trans (sameSlow_echo h)
      · split at h
        · cases h
        · cases h; exact hrec.trans (sameSlow_buffered _ _)

/-- **What a signature does**: the first one is handed to the workers. -/
theorem handleSignature_cases {i : Index} {sig : Signature}
    (h : r.handleSignature cr i sig = .ok r') :
    r' = r ∨ ∃ d, r.msgTail.find? i = some d ∧ d.signature = none ∧
      r' = { r with
        msgTail := r.msgTail.modify i (fun d => { d with signature := some sig })
        checks := r.checks ++ [⟨i, cr.blake3 d.message, sig, .broadcaster⟩] } := by
  unfold handleSignature at h
  split at h
  · cases h; exact .inl rfl
  · next d hd =>
      split at h
      · cases h
      · next hs => cases h; exact .inr ⟨d, hd, hs, rfl⟩

/-- **What a worker does**: its check is verified. -/
theorem finishCheck_cases (cr : Crypto) (r : Receiver) (k : Nat) :
    r.finishCheck cr k = r ∨ ∃ c, r.checks[k]? = some c ∧
      r.finishCheck cr k = { r with
        checks := r.checks.eraseIdx k
        verifiedSignatures :=
          r.verifiedSignatures ++ [⟨c.index, cr.verify c.signature c.hash, c.origin⟩] } := by
  unfold finishCheck
  split
  · exact .inl rfl
  · next c hc => exact .inr ⟨c, hc, rfl⟩

/-- **What `write` does**: the register of the slot is written, at a higher incarnation. -/
theorem write_cases {i : Index} {d : MessageData} (h : r.write cr i d = .ok r') :
    ∃ sig, d.signature = some sig ∧ r.outstandingWrites.find? (i % r.tail) = none ∧
      (∀ w ∈ r.written, w.slot = i % r.tail → w.incarnation < writtenIncarnation r.tail i) ∧
      r' = { r with
        written := r.written ++
          [⟨i % r.tail, writtenIncarnation r.tail i, cr.blake3 d.message, sig⟩]
        outstandingWrites := r.outstandingWrites.insert (i % r.tail) i } := by
  unfold write at h
  split at h
  · cases h
  · next sig hs =>
      simp only at h
      split at h
      · cases h
      · next hg =>
          push Not at hg
          cases h
          exact ⟨sig, hs, by simpa using hg.1, hg.2.2, rfl⟩

/-- Of the verifications polled: for a message gone; of the broadcaster's signature, which
starts the WRITE; of a register's wrong signature, which clears the register's owner. -/
theorem pollSignatureVerification_cases (h : r.pollSignatureVerification cr = .ok r') :
    r' = r ∨ ∃ v vs, r.verifiedSignatures = v :: vs ∧
      (r.msgTail.find? v.index = none ∧ r' = { r with verifiedSignatures := vs } ∨
        ∃ d, r.msgTail.find? v.index = some d ∧
          (v.origin = .broadcaster ∧ v.ok = true ∧
              ({ r with verifiedSignatures := vs } : Receiver).write cr v.index d = .ok r' ∨
            ∃ q, v.origin = .receiverRegister q ∧ v.ok = false ∧
              r' = { r with
                verifiedSignatures := vs
                msgTail := r.msgTail.modify v.index (·.checkedAReceiver q) })) := by
  unfold pollSignatureVerification at h
  split at h
  · cases h; exact .inl rfl
  · next v vs hv =>
      refine .inr ⟨v, vs, hv, ?_⟩
      simp only at h
      split at h
      · next hd => cases h; exact .inl ⟨hd, rfl⟩
      · next d hd =>
          refine .inr ⟨d, hd, ?_⟩
          split at h
          · next ho =>
              split at h
              · next hok => exact .inl ⟨ho, hok, h⟩
              · cases h
          · next q ho =>
              split at h
              · cases h
              · next hok => cases h; exact .inr ⟨q, ho, by simpa using hok, rfl⟩

/-- The READs begun when the WRITE of message `i` completes. -/
def readsOf (r : Receiver) (i : Index) (since : ProcId → Nat) : List Read :=
  r.others.map fun q => ⟨i, q, since q⟩

/-- **What a completed WRITE does**: the READs begin, if the message is still held. -/
theorem pollWriteCompletion_cases (r : Receiver) (slot : Nat) (since : ProcId → Nat) :
    r.pollWriteCompletion slot since = r ∨ ∃ i, r.outstandingWrites.find? slot = some i ∧
      (r.msgTail.find? i = none ∧ r.pollWriteCompletion slot since = { r with
          outstandingWrites := r.outstandingWrites.erase slot
          completed := Function.update r.completed slot (writtenIncarnation r.tail i) } ∨
        ∃ d, r.msgTail.find? i = some d ∧ r.pollWriteCompletion slot since = { r with
          outstandingWrites := r.outstandingWrites.erase slot
          completed := Function.update r.completed slot (writtenIncarnation r.tail i)
          outstandingReads := r.outstandingReads ++ r.readsOf i since
          begun := r.begun ++ r.readsOf i since }) := by
  unfold pollWriteCompletion
  split
  · exact .inl rfl
  · next i hi =>
      refine .inr ⟨i, hi, ?_⟩
      cases hd : r.msgTail.find? i with
      | none => exact .inl ⟨rfl, by simp only [hd]⟩
      | some d => exact .inr ⟨d, rfl, by simp only [hd]; rfl⟩

/-- Of the READs completed: for a message gone; of an older value or of the signature held,
which clears the register's owner; of another signature, which is verified. -/
theorem pollReadCompletion_cases {k : Nat} {reg : Register}
    (h : r.pollReadCompletion k reg = .ok r') :
    r' = r ∨ ∃ rd, r.outstandingReads[k]? = some rd ∧
      reg.incarnation ≤ expectedIncarnation r.tail rd.index ∧
      (r.msgTail.find? rd.index = none ∧
          r' = { r with outstandingReads := r.outstandingReads.eraseIdx k } ∨
        ∃ d, r.msgTail.find? rd.index = some d ∧
          ((reg.incarnation < expectedIncarnation r.tail rd.index ∨
                d.signature = some reg.signature) ∧
              r' = { r with
                outstandingReads := r.outstandingReads.eraseIdx k
                msgTail := r.msgTail.modify rd.index (·.checkedAReceiver rd.replica) } ∨
            ¬(reg.incarnation < expectedIncarnation r.tail rd.index ∨
                d.signature = some reg.signature) ∧
              r' = { r with
                outstandingReads := r.outstandingReads.eraseIdx k
                checks := r.checks ++
                  [⟨rd.index, reg.hash, reg.signature, .receiverRegister rd.replica⟩] })) := by
  unfold pollReadCompletion at h
  split at h
  · cases h; exact .inl rfl
  · next rd hrd =>
      simp only at h
      split at h
      · cases h
      · next hle =>
          refine .inr ⟨rd, hrd, Nat.not_lt.mp hle, ?_⟩
          split at h
          · next hd => cases h; exact .inl ⟨hd, rfl⟩
          · next d hd =>
              refine .inr ⟨d, hd, ?_⟩
              split at h
              · next hc => cases h; exact .inl ⟨hc, rfl⟩
              · next hc => cases h; exact .inr ⟨hc, rfl⟩

/-! ### The order is kept -/

/-- A change to a message of the tail that leaves its bytes. -/
theorem map_message_modify (r : Receiver) (i : Index) (f : MessageData → MessageData)
    (hm : ∀ d, (f d).message = d.message) (k : Index) :
    (({ r with msgTail := r.msgTail.modify i f } : Receiver).held k).map Held.message =
      (r.held k).map Held.message := by
  rw [held_modify]
  split
  · next hk =>
      subst hk
      simp only [held, Option.map_map]
      exact congrArg₂ _ (funext fun d => hm d) rfl
  · rfl

theorem Fifo.handle (hf : r.Fifo) {inp : Input} (h : r.handle cr inp = .ok r') : r'.Fifo := by
  cases inp with
  | message m =>
      rcases handleMessage_cases h with rfl | ⟨hm, h⟩
      · exact hf
      · exact (sameSlow_replayEchoes h).fifo (hf.take hm)
  | echo q e =>
      simp only [Receiver.handle] at h
      split at h
      · exact (handleEcho_cases h).fifo hf
      · cases h; exact hf
  | signature i sig =>
      rcases handleSignature_cases h with rfl | ⟨d, -, -, rfl⟩
      · exact hf
      · exact hf.congr rfl rfl rfl (map_message_modify r i _ fun _ => rfl)
  | finishCheck k =>
      cases h
      rcases finishCheck_cases cr r k with h | ⟨c, -, h⟩
      · rw [h]; exact hf
      · rw [h]; exact hf.congr rfl rfl rfl fun _ => rfl
  | dropCheck k => cases h; exact hf.congr rfl rfl rfl fun _ => rfl
  | pollSignatureVerification =>
      rcases pollSignatureVerification_cases h with
        rfl | ⟨v, vs, -, ⟨-, rfl⟩ | ⟨d, -, ⟨-, -, h⟩ | ⟨q, -, -, rfl⟩⟩⟩
      · exact hf
      · exact hf.congr rfl rfl rfl fun _ => rfl
      · obtain ⟨sig, -, -, -, rfl⟩ := write_cases h
        exact hf.congr rfl rfl rfl fun _ => rfl
      · exact hf.congr rfl rfl rfl (map_message_modify r v.index _ fun _ => rfl)
  | writeCompletion slot since =>
      cases h
      rcases pollWriteCompletion_cases r slot since with h | ⟨i, -, ⟨-, h⟩ | ⟨d, -, h⟩⟩
      · rw [h]; exact hf
      · rw [h]; exact hf.congr rfl rfl rfl fun _ => rfl
      · rw [h]; exact hf.congr rfl rfl rfl fun _ => rfl
  | readCompletion k reg =>
      rcases pollReadCompletion_cases h with
        rfl | ⟨rd, -, -, ⟨-, rfl⟩ | ⟨d, -, ⟨-, rfl⟩ | ⟨-, rfl⟩⟩⟩
      · exact hf
      · exact hf.congr rfl rfl rfl fun _ => rfl
      · exact hf.congr rfl rfl rfl (map_message_modify r rd.index _ fun _ => rfl)
      · exact hf.congr rfl rfl rfl fun _ => rfl
  | poll => cases h; exact hf.poll
  | toggleSlowPath b => cases h; exact hf.congr rfl rfl rfl fun _ => rfl

end Receiver

end Ubft.Broadcast
