import Ubft.Broadcast.Effects

/-!
# Broadcast — what a run records

Of the operations of a receiver, three add to its records: a message is taken, an echo is
handled, a message is polled (`Recorded`).  The others keep the records, and the messages of the
tail.
-/

namespace Ubft.Broadcast

variable {cr : Crypto} {r r' : Receiver}

namespace Receiver

/-- Nothing is recorded, no message is taken, and no echo is noted. -/
structure Quiet (r r' : Receiver) : Prop where
  polled : r'.polled = r.polled
  latestPolledMessage : r'.latestPolledMessage = r.latestPolledMessage
  echoed : r'.echoed = r.echoed
  received : r'.received = r.received
  bufferedEchoes : r'.bufferedEchoes = r.bufferedEchoes
  kept : ∀ i d', r'.msgTail.find? i = some d' → ∃ d, r.msgTail.find? i = some d ∧
    d'.message = d.message ∧ d'.echoes = d.echoes ∧ d'.echoesMatch = d.echoesMatch

/-- What `inp` records. -/
inductive Recorded (r : Receiver) : Input → Receiver → Prop where
  | quiet {inp : Input} {r' : Receiver} (h : Quiet r r') : Recorded r inp r'
  | message {m : Bytes} {r' : Receiver} (hf : r.Fresh (index m)) (hs : (r.take m).SameSlow r')
      (he : r'.echoed = r.echoed) : Recorded r (.message m) r'
  | echo {q : ProcId} {e : Buffer} {r' : Receiver} (hq : q ∈ r.others)
      (hl : headerSize ≤ e.bytes.length) (hs : r.SameSlow r')
      (he : r'.echoed = Function.update r.echoed q (r.echoed q ++ [e])) :
      Recorded r (.echo q e) r'
  | poll {i : Index} {d : MessageData} {r' : Receiver} (hi : r.msgTail.first? = some (i, d))
      (hp : d.pollable r = true)
      (hr : r' = { r with
        latestPolledMessage := some i
        msgTail := r.msgTail.erase i
        polled := r.polled ++ [d.message] }) : Recorded r .poll r'

theorem Quiet.refl (r : Receiver) : Quiet r r :=
  ⟨rfl, rfl, rfl, rfl, rfl, fun _ d hd => ⟨d, hd, rfl, rfl, rfl⟩⟩

theorem Quiet.keys (h : Quiet r r') {i : Index} {h' : Held} (hi : r'.held i = some h') :
    ∃ h, r.held i = some h := by
  obtain ⟨d', hd', -⟩ := Option.map_eq_some_iff.mp hi
  obtain ⟨d, hd, -⟩ := h.kept i d' hd'
  exact ⟨d.held, held_of_find? hd⟩

/-- A message of the tail is changed, but for its echoes. -/
theorem kept_modify {i k : Index} {f : MessageData → MessageData} {d' : MessageData}
    (hk : (r.msgTail.modify i f).find? k = some d')
    (hf : ∀ d, (f d).message = d.message ∧ (f d).echoes = d.echoes ∧
      (f d).echoesMatch = d.echoesMatch) :
    ∃ d, r.msgTail.find? k = some d ∧
      d'.message = d.message ∧ d'.echoes = d.echoes ∧ d'.echoesMatch = d.echoesMatch := by
  rw [OrdMap.find?_modify] at hk
  split at hk
  · next hki =>
      obtain ⟨d, hd, rfl⟩ := Option.map_eq_some_iff.mp hk
      exact ⟨d, hki ▸ hd, hf d⟩
  · exact ⟨d', hk, rfl, rfl, rfl⟩

/-! ### Replayed echoes are not recorded again -/

/-- The record of echoes is kept elsewhere. -/
theorem echoed_echo {i : Index} {q : ProcId} {e : Buffer} (h : r.echo cr i q e = .ok r') :
    r'.echoed = r.echoed := by
  unfold echo at h
  split at h
  · cases h; rfl
  · simp only at h
    split at h
    · cases h; rfl
    · cases h

theorem echoed_replayEcho {i : Index} {q : ProcId} (h : r.replayEcho cr i q = .ok r') :
    r'.echoed = r.echoed := by
  unfold replayEcho at h
  split at h
  · cases h; rfl
  · split at h
    · exact (echoed_echo h :)
    · cases h; rfl

theorem echoed_replayEchoes {i : Index} {qs : List ProcId}
    (h : r.replayEchoes cr i qs = .ok r') : r'.echoed = r.echoed := by
  induction qs generalizing r with
  | nil => cases h; rfl
  | cons q qs ih =>
      obtain ⟨r₁, h₁, h₂⟩ := bind_eq_ok.mp h
      exact (ih h₂).trans (echoed_replayEcho h₁)

/-- An echo that is well formed is recorded, whatever becomes of it. -/
theorem echoed_handleEcho {e : Buffer} {q : ProcId} (hl : headerSize ≤ e.bytes.length)
    (h : r.handleEcho cr e q = .ok r') :
    r'.echoed = Function.update r.echoed q (r.echoed q ++ [e]) := by
  unfold handleEcho at h
  rw [if_neg (Nat.not_lt.mpr hl)] at h
  simp only at h
  split at h
  · cases h; rfl
  · split at h
    · exact (echoed_echo h :)
    · split at h
      · cases h
      · cases h; rfl

/-- An echo without a header is dropped. -/
theorem handleEcho_of_lt {e : Buffer} {q : ProcId} (hl : e.bytes.length < headerSize)
    (h : r.handleEcho cr e q = .ok r') : r' = r := by
  unfold handleEcho at h
  rw [if_pos hl] at h
  cases h
  rfl

/-- An echo with one is recorded. -/
theorem mem_echoed_handle {q : ProcId} {e : Buffer} (h : r.handle cr (.echo q e) = .ok r')
    (hq : q ∈ r.others) (hl : headerSize ≤ e.bytes.length) : e ∈ r'.echoed q := by
  rw [handle, if_pos hq] at h
  rw [echoed_handleEcho hl h, Function.update_self]
  exact List.mem_append_right _ List.mem_cons_self

/-- **What an operation records.** -/
theorem recorded_handle {inp : Input} (h : r.handle cr inp = .ok r') : Recorded r inp r' := by
  have keep := (Quiet.refl r).kept
  cases inp with
  | message m =>
      rcases handleMessage_cases h with rfl | ⟨hf, h⟩
      · exact .quiet (.refl r')
      · exact .message hf (sameSlow_replayEchoes h) (echoed_replayEchoes h :)
  | echo q e =>
      simp only [Receiver.handle] at h
      split at h
      · next hq =>
          rcases Nat.lt_or_ge e.bytes.length headerSize with hl | hl
          · rw [handleEcho_of_lt hl h]
            exact .quiet (.refl r)
          · exact .echo hq hl (handleEcho_cases h) (echoed_handleEcho hl h)
      · cases h; exact .quiet (.refl r)
  | signature i sig =>
      rcases handleSignature_cases h with rfl | ⟨d, -, -, rfl⟩
      · exact .quiet (.refl r')
      · exact .quiet ⟨rfl, rfl, rfl, rfl, rfl, fun _ _ hk =>
          kept_modify hk fun _ => ⟨rfl, rfl, rfl⟩⟩
  | finishCheck k =>
      cases h
      rcases finishCheck_cases cr r k with he | ⟨c, -, he⟩
      · rw [he]; exact .quiet (.refl r)
      · rw [he]; exact .quiet ⟨rfl, rfl, rfl, rfl, rfl, keep⟩
  | dropCheck k => cases h; exact .quiet ⟨rfl, rfl, rfl, rfl, rfl, keep⟩
  | pollSignatureVerification =>
      rcases pollSignatureVerification_cases h with
        rfl | ⟨v, vs, -, ⟨-, rfl⟩ | ⟨d, -, ⟨-, -, hw⟩ | ⟨q, -, -, rfl⟩⟩⟩
      · exact .quiet (.refl r')
      · exact .quiet ⟨rfl, rfl, rfl, rfl, rfl, keep⟩
      · obtain ⟨sig, -, -, -, rfl⟩ := write_cases hw
        exact .quiet ⟨rfl, rfl, rfl, rfl, rfl, keep⟩
      · exact .quiet ⟨rfl, rfl, rfl, rfl, rfl, fun _ _ hk =>
          kept_modify hk fun _ => ⟨rfl, rfl, rfl⟩⟩
  | writeCompletion slot since =>
      cases h
      rcases pollWriteCompletion_cases r slot since with he | ⟨i, -, ⟨-, he⟩ | ⟨d, -, he⟩⟩
      · rw [he]; exact .quiet (.refl r)
      · rw [he]; exact .quiet ⟨rfl, rfl, rfl, rfl, rfl, keep⟩
      · rw [he]; exact .quiet ⟨rfl, rfl, rfl, rfl, rfl, keep⟩
  | readCompletion k reg =>
      rcases pollReadCompletion_cases h with
        rfl | ⟨rd, -, -, ⟨-, rfl⟩ | ⟨d, -, ⟨-, rfl⟩ | ⟨-, rfl⟩⟩⟩
      · exact .quiet (.refl r')
      · exact .quiet ⟨rfl, rfl, rfl, rfl, rfl, keep⟩
      · exact .quiet ⟨rfl, rfl, rfl, rfl, rfl, fun _ _ hk =>
          kept_modify hk fun _ => ⟨rfl, rfl, rfl⟩⟩
      · exact .quiet ⟨rfl, rfl, rfl, rfl, rfl, keep⟩
  | poll =>
      cases h
      rcases poll_cases r with he | ⟨i, d, hi, hp, he⟩
      · rw [he]; exact .quiet (.refl r)
      · exact .poll hi hp he
  | toggleSlowPath b => cases h; exact .quiet ⟨rfl, rfl, rfl, rfl, rfl, keep⟩

theorem Recorded.echoed_mono {inp : Input} (h : Recorded r inp r') {q : ProcId} {e : Buffer}
    (he : e ∈ r.echoed q) : e ∈ r'.echoed q := by
  cases h with
  | quiet h => rw [h.echoed]; exact he
  | message hf hs heq => rw [heq]; exact he
  | @echo p x r' hq hl hs heq =>
      rw [heq]
      by_cases hqp : q = p
      · subst hqp
        rw [Function.update_self]
        exact List.mem_append_left _ he
      · rw [Function.update_of_ne hqp]
        exact he
  | poll hi hp hr => rw [hr]; exact he

end Receiver

end Ubft.Broadcast
