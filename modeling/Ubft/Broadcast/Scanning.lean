import Ubft.Broadcast.System

/-!
# Broadcast — what the slow path learns

A register read is `found`; its owner is cleared (`clear`) at once when what was found speaks for
the message held, and after the verification of what was found otherwise.  Whatever the two mean,
the receivers counted for a message of the tail are cleared (`Scanned.handle`).
-/

namespace Ubft.Broadcast

variable {cr : Crypto} {r r' : Receiver}
  {found : ProcId → Index → Hash → Signature → Prop} {clear : ProcId → Index → Prop}

/-- The checks of registers under way, their results, and the receivers counted. -/
structure Scanned (found : ProcId → Index → Hash → Signature → Prop)
    (clear : ProcId → Index → Prop) (r : Receiver) : Prop where
  checks : ∀ ck ∈ r.checks, ∀ q, ck.origin = .receiverRegister q →
    found q ck.index ck.hash ck.signature
  verified : ∀ v ∈ r.verifiedSignatures, ∀ q, v.origin = .receiverRegister q → v.ok = false →
    clear q v.index
  checked : ∀ i h, r.held i = some h → ∀ q ∈ h.checkedReceivers, clear q i

namespace Scanned

/-- Nothing new is read. -/
theorem anti (h : Scanned found clear r)
    (hc : ∀ x ∈ r'.checks, x ∈ r.checks ∨ x.origin = .broadcaster)
    (hv : ∀ v ∈ r'.verifiedSignatures, v ∈ r.verifiedSignatures)
    (hh : ∀ i h', r'.held i = some h' → h'.checkedReceivers = [] ∨
      ∃ h, r.held i = some h ∧ h'.checkedReceivers = h.checkedReceivers) :
    Scanned found clear r' := by
  refine ⟨fun ck hck q hq => ?_, fun v hm => h.verified v (hv v hm), fun i h' hi q hq => ?_⟩
  · rcases hc ck hck with hck | hb
    · exact h.checks ck hck q hq
    · rw [hb] at hq; cases hq
  · rcases hh i h' hi with hn | ⟨h₀, hi, he⟩
    · rw [hn] at hq; cases hq
    · exact h.checked i h₀ hi q (he ▸ hq)

/-- The fast path scans nothing. -/
theorem same (h : Scanned found clear r) (hs : r.SameSlow r') : Scanned found clear r' :=
  h.anti (fun _ hc => .inl (hs.checks ▸ hc)) (fun _ hv => hs.verifiedSignatures ▸ hv)
    fun i h' hi => .inr ⟨h', (hs.held i).symm.trans hi, rfl⟩

/-- A receiver more is counted for a message. -/
theorem checkedAReceiver (h : Scanned found clear r) {i : Index} {q : ProcId} {d : MessageData}
    (hd : r.msgTail.find? i = some d) (hcl : clear q i) :
    Scanned found clear { r with msgTail := r.msgTail.modify i (·.checkedAReceiver q) } := by
  refine ⟨h.checks, h.verified, fun k h' hk x hx => ?_⟩
  rcases Receiver.held_modify_cases hd hk with ⟨rfl, rfl⟩ | ⟨-, hk⟩
  · rcases List.mem_cons.mp hx with rfl | hx
    · exact hcl
    · exact h.checked k d.held (Receiver.held_of_find? hd) x hx
  · exact h.checked k h' hk x hx

/-- **One operation.**  What is found and not signed clears its owner when its check ends; so
does, at once, an older value or the signature held. -/
theorem handle {inp : Input} (h : Scanned found clear r)
    (hf : ∀ k ck q, inp = .finishCheck k → r.checks[k]? = some ck →
      ck.origin = .receiverRegister q → found q ck.index ck.hash ck.signature →
      cr.verify ck.signature ck.hash = false → clear q ck.index)
    (hr : ∀ k reg rd d, inp = .readCompletion k reg → r.outstandingReads[k]? = some rd →
      r.msgTail.find? rd.index = some d →
      reg.incarnation ≤ expectedIncarnation r.tail rd.index →
      found rd.replica rd.index reg.hash reg.signature ∧
        (reg.incarnation < expectedIncarnation r.tail rd.index ∨
            d.signature = some reg.signature → clear rd.replica rd.index))
    (hh : r.handle cr inp = .ok r') : Scanned found clear r' := by
  have keep : ∀ {r' : Receiver}, (∀ i, r'.held i = r.held i) → ∀ i h', r'.held i = some h' →
      h'.checkedReceivers = [] ∨
        ∃ h, r.held i = some h ∧ h'.checkedReceivers = h.checkedReceivers :=
    fun he i h' hi => .inr ⟨h', he i ▸ hi, rfl⟩
  cases inp with
  | message m =>
      rcases Receiver.handleMessage_cases hh with rfl | ⟨-, hh⟩
      · exact h
      · have ht : Scanned found clear (r.take m) := by
          refine h.anti (fun _ hc => .inl hc) (fun _ hv => hv) fun i h' hi => ?_
          rcases Receiver.held_take hi with ⟨-, rfl⟩ | ⟨-, hi⟩
          · exact .inl rfl
          · exact .inr ⟨h', hi, rfl⟩
        exact ht.same (Receiver.sameSlow_replayEchoes hh)
  | echo q e =>
      simp only [Receiver.handle] at hh
      split at hh
      · exact h.same (Receiver.handleEcho_cases hh)
      · cases hh; exact h
  | signature i sig =>
      rcases Receiver.handleSignature_cases hh with rfl | ⟨d, hd, -, rfl⟩
      · exact h
      · refine h.anti (fun x hx => ?_) (fun _ hv => hv) fun k h' hk => .inr ?_
        · exact (List.mem_append.mp hx).imp_right fun hx => by rw [List.mem_singleton.mp hx]
        · rcases Receiver.held_modify_cases hd hk with ⟨rfl, rfl⟩ | ⟨-, hk⟩
          · exact ⟨d.held, Receiver.held_of_find? hd, rfl⟩
          · exact ⟨h', hk, rfl⟩
  | finishCheck k =>
      cases hh
      rcases Receiver.finishCheck_cases cr r k with he | ⟨ck, hck, he⟩
      · rw [he]; exact h
      · rw [he]
        refine ⟨fun x hx => h.checks x (List.mem_of_mem_eraseIdx hx), fun v hv q ho hok => ?_,
          h.checked⟩
        rcases List.mem_append.mp hv with hv | hv
        · exact h.verified v hv q ho hok
        · obtain rfl := List.mem_singleton.mp hv
          exact hf k ck q rfl hck ho (h.checks ck (List.mem_of_getElem? hck) q ho) hok
  | dropCheck k =>
      cases hh
      exact h.anti (fun x hx => .inl (List.mem_of_mem_eraseIdx hx)) (fun _ hv => hv)
        (keep fun _ => rfl)
  | pollSignatureVerification =>
      rcases Receiver.pollSignatureVerification_cases hh with rfl | ⟨v, vs, hv, hcase⟩
      · exact h
      · have hpop : Scanned found clear { r with verifiedSignatures := vs } :=
          h.anti (fun _ hc => .inl hc) (fun x hx => by rw [hv]; exact List.mem_cons_of_mem _ hx)
            (keep fun _ => rfl)
        rcases hcase with ⟨-, rfl⟩ | ⟨d, hd, ⟨-, -, hw⟩ | ⟨q, ho, hok, rfl⟩⟩
        · exact hpop
        · obtain ⟨sig, -, -, -, rfl⟩ := Receiver.write_cases hw
          exact hpop.anti (fun _ hc => .inl hc) (fun _ hv => hv) fun i h' hi => .inr ⟨h', hi, rfl⟩
        · exact hpop.checkedAReceiver hd
            (h.verified v (by rw [hv]; exact List.mem_cons_self) q ho hok)
  | writeCompletion slot since =>
      cases hh
      rcases Receiver.pollWriteCompletion_cases r slot since with
        he | ⟨i, -, ⟨-, he⟩ | ⟨d, -, he⟩⟩
      · rw [he]; exact h
      · rw [he]; exact h.anti (fun _ hc => .inl hc) (fun _ hv => hv) (keep fun _ => rfl)
      · rw [he]; exact h.anti (fun _ hc => .inl hc) (fun _ hv => hv) (keep fun _ => rfl)
  | readCompletion k reg =>
      rcases Receiver.pollReadCompletion_cases hh with rfl | ⟨rd, hrd, hle, hcase⟩
      · exact h
      · have h' : Scanned found clear
            { r with outstandingReads := r.outstandingReads.eraseIdx k } :=
          h.anti (fun _ hc => .inl hc) (fun _ hv => hv) (keep fun _ => rfl)
        rcases hcase with ⟨-, rfl⟩ | ⟨d, hd, ⟨hok, rfl⟩ | ⟨-, rfl⟩⟩
        · exact h'
        · exact h'.checkedAReceiver hd ((hr k reg rd d rfl hrd hd hle).2 hok)
        · have hfound := (hr k reg rd d rfl hrd hd hle).1
          refine ⟨fun ck hck q ho => ?_, h.verified, h.checked⟩
          rcases List.mem_append.mp hck with hck | hck
          · exact h.checks ck hck q ho
          · obtain rfl := List.mem_singleton.mp hck
            cases ho
            exact hfound
  | poll =>
      cases hh
      rcases Receiver.poll_cases r with he | ⟨i, d, -, -, he⟩
      · rw [he]; exact h
      · rw [he]
        exact h.anti (fun _ hc => .inl hc) (fun _ hv => hv) fun k h' hk =>
          .inr ⟨h', (Receiver.held_poll hk).2, rfl⟩
  | toggleSlowPath b =>
      cases hh
      exact h.anti (fun _ hc => .inl hc) (fun _ hv => hv) (keep fun _ => rfl)

end Scanned

end Ubft.Broadcast
