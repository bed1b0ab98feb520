import Ubft.Broadcast.System

/-!
# Broadcast — accusations

A receiver that finds another signature than its own in a register, and finds it valid, reports
that the broadcaster equivocated.  The signature is verified against the hash that the register
holds, which nothing links to the index that was read: a Byzantine receiver that copies the
signature of another message, with its hash, has a correct broadcaster accused.  It is not, as
long as the valid signatures read are those of the messages they are read for
(`never_accused`).
-/

namespace Ubft.Broadcast

variable {cr : Crypto} {r r' : Receiver}

namespace Receiver

/-! ### Where signatures and verifications come from -/

/-- What `inp` brings in: a signature of the broadcaster, a register to verify, the result of a
verification. -/
structure Traces (cr : Crypto) (r : Receiver) (inp : Input) (r' : Receiver) : Prop where
  signatures : ∀ i h' sig, r'.held i = some h' → h'.signature = some sig →
    (∃ h, r.held i = some h ∧ h.signature = some sig) ∨ inp = .signature i sig
  checks : ∀ c ∈ r'.checks, c ∈ r.checks ∨ c.origin = .broadcaster ∨
    ∃ k reg rd d, inp = .readCompletion k reg ∧ r.outstandingReads[k]? = some rd ∧
      r.msgTail.find? rd.index = some d ∧ reg.incarnation = expectedIncarnation r.tail rd.index ∧
      d.signature ≠ some reg.signature ∧ c.signature = reg.signature ∧ c.hash = reg.hash
  verified : ∀ v ∈ r'.verifiedSignatures, v ∈ r.verifiedSignatures ∨
    ∃ c ∈ r.checks, v = ⟨c.index, cr.verify c.signature c.hash, c.origin⟩

/-- An operation that brings nothing in. -/
theorem Traces.of_held {inp : Input}
    (hh : ∀ i h', r'.held i = some h' → h'.signature = none ∨
      ∃ h, r.held i = some h ∧ h.signature = h'.signature)
    (hc : ∀ c ∈ r'.checks, c ∈ r.checks)
    (hv : ∀ v ∈ r'.verifiedSignatures, v ∈ r.verifiedSignatures) : Traces cr r inp r' := by
  refine ⟨fun i h' sig hi hs => .inl ?_, fun c h => .inl (hc c h), fun v h => .inl (hv v h)⟩
  rcases hh i h' hi with hn | ⟨h, hh, he⟩
  · rw [hn] at hs
    cases hs
  · exact ⟨h, hh, he.trans hs⟩

/-- The fast path checks no signature. -/
theorem SameSlow.traces {inp : Input} (h : SameSlow r r') : Traces cr r inp r' :=
  .of_held (fun i h' hi => .inr ⟨h', h.held i ▸ hi, rfl⟩) (fun _ hc => h.checks ▸ hc)
    fun _ hv => h.verifiedSignatures ▸ hv

/-- A receiver more is counted. -/
theorem held_checkedAReceiver {r₁ : Receiver} {i k : Index} {q : ProcId} {h' : Held}
    (hr : r₁.msgTail = r.msgTail.modify i (·.checkedAReceiver q)) (hk : r₁.held k = some h') :
    ∃ h, r.held k = some h ∧ h.signature = h'.signature := by
  have hm : r₁.held k = ({ r with msgTail := r.msgTail.modify i (·.checkedAReceiver q) } :
      Receiver).held k := by
    simp only [held, hr]
  rw [hm, held_modify] at hk
  split at hk
  · next he =>
      obtain ⟨d, hd, rfl⟩ := Option.map_eq_some_iff.mp hk
      exact ⟨d.held, he ▸ held_of_find? hd, rfl⟩
  · exact ⟨h', hk, rfl⟩

theorem traces_handle {inp : Input} (h : r.handle cr inp = .ok r') : Traces cr r inp r' := by
  have same : ∀ {i : Index} {h' : Held}, r.held i = some h' →
      h'.signature = none ∨ ∃ h, r.held i = some h ∧ h.signature = h'.signature :=
    fun hi => .inr ⟨_, hi, rfl⟩
  cases inp with
  | message m =>
      rcases handleMessage_cases h with rfl | ⟨-, h⟩
      · exact .of_held (fun _ _ => same) (fun _ hc => hc) fun _ hv => hv
      · have hs := sameSlow_replayEchoes h
        refine .of_held (fun i h' hi => ?_) (fun _ hc => hs.checks ▸ hc)
          fun _ hv => hs.verifiedSignatures ▸ hv
        rw [hs.held] at hi
        rcases held_take hi with ⟨-, rfl⟩ | ⟨-, hi⟩
        · exact .inl rfl
        · exact same hi
  | echo q e =>
      simp only [Receiver.handle] at h
      split at h
      · exact (handleEcho_cases h).traces
      · cases h; exact (SameSlow.refl r).traces
  | signature i sig =>
      rcases handleSignature_cases h with rfl | ⟨d, hd, -, rfl⟩
      · exact (SameSlow.refl r').traces
      · refine ⟨fun k h' sig' hk hs => ?_, fun c hc => ?_, fun v hv => .inl hv⟩
        · have hk' := (held_modify r i k fun d => { d with signature := some sig }).symm.trans hk
          split at hk'
          · next he =>
              obtain ⟨d', -, rfl⟩ := Option.map_eq_some_iff.mp hk'
              cases hs
              exact .inr (by rw [he])
          · exact .inl ⟨h', hk', hs⟩
        · rcases List.mem_append.mp hc with hc | hc
          · exact .inl hc
          · cases List.mem_singleton.mp hc
            exact .inr (.inl rfl)
  | finishCheck k =>
      cases h
      rcases finishCheck_cases cr r k with h | ⟨c, hc, h⟩
      · rw [h]; exact (SameSlow.refl r).traces
      · rw [h]
        refine ⟨fun i h' sig hi hs => .inl ⟨h', hi, hs⟩,
          fun c hc => .inl (List.mem_of_mem_eraseIdx hc), fun v hv => ?_⟩
        rcases List.mem_append.mp hv with hv | hv
        · exact .inl hv
        · exact .inr ⟨c, List.mem_of_getElem? hc, List.mem_singleton.mp hv⟩
  | dropCheck k =>
      cases h
      exact .of_held (fun _ _ => same) (fun _ hc => List.mem_of_mem_eraseIdx hc) fun _ hv => hv
  | pollSignatureVerification =>
      rcases pollSignatureVerification_cases h with
        rfl | ⟨v, vs, hv, ⟨-, rfl⟩ | ⟨d, -, ⟨-, -, h⟩ | ⟨q, -, -, rfl⟩⟩⟩
      · exact (SameSlow.refl r').traces
      · exact .of_held (fun _ _ => same) (fun _ hc => hc)
          fun _ hx => hv ▸ List.mem_cons_of_mem _ hx
      · obtain ⟨sig, -, -, -, rfl⟩ := write_cases h
        exact .of_held (fun _ _ => same) (fun _ hc => hc)
          fun _ hx => hv ▸ List.mem_cons_of_mem _ hx
      · exact .of_held (fun _ _ hi => .inr (held_checkedAReceiver rfl hi)) (fun _ hc => hc)
          fun _ hx => hv ▸ List.mem_cons_of_mem _ hx
  | writeCompletion slot since =>
      cases h
      rcases pollWriteCompletion_cases r slot since with h | ⟨i, -, ⟨-, h⟩ | ⟨d, -, h⟩⟩
      · rw [h]; exact (SameSlow.refl r).traces
      · rw [h]; exact .of_held (fun _ _ => same) (fun _ hc => hc) fun _ hv => hv
      · rw [h]; exact .of_held (fun _ _ => same) (fun _ hc => hc) fun _ hv => hv
  | readCompletion k reg =>
      rcases pollReadCompletion_cases h with
        rfl | ⟨rd, hrd, hle, ⟨-, rfl⟩ | ⟨d, hd, ⟨-, rfl⟩ | ⟨hne, rfl⟩⟩⟩
      · exact (SameSlow.refl r').traces
      · exact .of_held (fun _ _ => same) (fun _ hc => hc) fun _ hv => hv
      · exact .of_held (fun _ _ hi => .inr (held_checkedAReceiver rfl hi)) (fun _ hc => hc)
          fun _ hv => hv
      · refine ⟨fun i h' sig hi hs => .inl ⟨h', hi, hs⟩, fun c hc => ?_, fun v hv => .inl hv⟩
        rcases List.mem_append.mp hc with hc | hc
        · exact .inl hc
        · cases List.mem_singleton.mp hc
          obtain ⟨hlt, hsig⟩ := not_or.mp hne
          exact .inr (.inr ⟨k, reg, rd, d, rfl, hrd, hd, hle.antisymm (Nat.le_of_not_lt hlt), hsig,
            rfl, rfl⟩)
  | poll =>
      cases h
      rcases poll_cases r with h | ⟨i, d, -, -, h⟩
      · rw [h]; exact (SameSlow.refl r).traces
      · rw [h]
        exact .of_held (fun _ _ hi => same (held_poll hi).2) (fun _ hc => hc) fun _ hv => hv
  | toggleSlowPath b =>
      cases h
      exact .of_held (fun _ _ => same) (fun _ hc => hc) fun _ hv => hv

end Receiver

/-! ### A correct broadcaster -/

/-- `sent` is what a correct broadcaster sends, at most one message under each index: its message
and its signature of it.  Nobody else can sign. -/
structure Genuine (cr : Crypto) (sent : Index → Option (Bytes × Signature)) : Prop where
  signed : ∀ i m sig, sent i = some (m, sig) → index m = i ∧ cr.verify sig (cr.blake3 m) = true
  unforgeable : ∀ sig h, cr.verify sig h = true → ∃ i m, sent i = some (m, sig) ∧ h = cr.blake3 m

/-- What comes from the broadcaster is what it sends; the registers and the echoes of the others
are arbitrary. -/
def Sends (sent : Index → Option (Bytes × Signature)) : Input → Prop
  | .message m => (sent (index m)).map Prod.fst = some m
  | .signature i sig => (sent i).map Prod.snd = some sig
  | _ => True

instance (sent : Index → Option (Bytes × Signature)) : DecidablePred (Sends sent)
  | .message _ | .signature _ _ => inferInstanceAs (Decidable (_ = _))
  | .echo _ _ | .finishCheck _ | .dropCheck _ | .pollSignatureVerification
  | .writeCompletion _ _ | .readCompletion _ _ | .poll | .toggleSlowPath _ =>
    inferInstanceAs (Decidable True)

/-- A valid signature read in a register, under the incarnation of the message it is read for, is
the signature of that message. -/
def Owned (cr : Crypto) (sent : Index → Option (Bytes × Signature)) (r : Receiver) :
    Input → Prop
  | .readCompletion k reg => ∀ rd ∈ r.outstandingReads[k]?,
      (r.msgTail.find? rd.index).isSome → reg.incarnation = expectedIncarnation r.tail rd.index →
        cr.verify reg.signature reg.hash = true →
          (sent rd.index).map Prod.snd = some reg.signature
  | _ => True

instance (cr : Crypto) (sent : Index → Option (Bytes × Signature)) (r : Receiver) :
    DecidablePred (Owned cr sent r)
  | .readCompletion _ _ => inferInstanceAs (Decidable (∀ rd ∈ _, _ → _ → _ → _))
  | .message _ | .signature _ _ | .echo _ _ | .finishCheck _ | .dropCheck _
  | .pollSignatureVerification | .writeCompletion _ _ | .poll | .toggleSlowPath _ =>
    inferInstanceAs (Decidable True)

namespace Receiver

variable {sent : Index → Option (Bytes × Signature)}

/-- The signatures held are those sent, and no register's signature is valid that is verified. -/
structure Innocent (cr : Crypto) (sent : Index → Option (Bytes × Signature)) (r : Receiver) :
    Prop where
  held : ∀ i h sig, r.held i = some h → h.signature = some sig →
    (sent i).map Prod.snd = some sig
  checks : ∀ c ∈ r.checks, c.origin ≠ .broadcaster → cr.verify c.signature c.hash = false
  verified : ∀ v ∈ r.verifiedSignatures, v.origin ≠ .broadcaster → v.ok = false

theorem Innocent.handle {inp : Input} (h : Innocent cr sent r) (hsg : r.Signing cr)
    (hs : Sends sent inp) (ho : Owned cr sent r inp) (hh : r.handle cr inp = .ok r') :
    Innocent cr sent r' := by
  have ht := traces_handle hh
  refine ⟨fun i h' sig hi hsig => ?_, fun c hc hor => ?_, fun v hv hor => ?_⟩
  · rcases ht.signatures i h' sig hi hsig with ⟨h₀, hi₀, hsig₀⟩ | rfl
    · exact h.held i h₀ sig hi₀ hsig₀
    · exact hs
  · rcases ht.checks c hc with hc | hc | ⟨k, reg, rd, d, rfl, hrd, hd, hi, hne, hcs, hch⟩
    · exact h.checks c hc hor
    · exact absurd hc hor
    · rw [hcs, hch]
      refine Bool.eq_false_iff.mpr fun hv => hne ?_
      -- the READ began after the WRITE of a signature, hence the receiver holds one
      obtain ⟨m, -, -, sig, -, hsig⟩ := (hsg.begun rd (hsg.reads rd (List.mem_of_getElem? hrd))).1
      have hd' : d.signature = some sig := hsig d.held (held_of_find? hd)
      have hx := h.held rd.index d.held sig (held_of_find? hd) hd'
      rw [ho rd hrd (Option.isSome_iff_exists.mpr ⟨d, hd⟩) hi hv] at hx
      rw [hd', ← hx]
  · rcases ht.verified v hv with hv | ⟨c, hc, rfl⟩
    · exact h.verified v hv hor
    · exact h.checks c hc hor

/-- A valid signature of a register is what leads to an accusation. -/
theorem Innocent.not_equivocated (h : Innocent cr sent r) (i : Index) :
    r.pollSignatureVerification cr ≠ .error (.equivocated i) := by
  unfold pollSignatureVerification
  split
  · exact nofun
  · next v vs hv =>
      simp only
      split
      · exact nofun
      · next d hd =>
          split
          · split
            · unfold write
              split
              · exact nofun
              · simp only
                split <;> exact nofun
            · exact nofun
          · next q hq =>
              have hok := h.verified v (hv ▸ List.mem_cons_self) (by rw [hq]; exact nofun)
              rw [hok]
              exact nofun

end Receiver

/-- **No accusation.**  A correct broadcaster is not accused of equivocation, as long as every
valid signature read in a register is that of the message it is read for. -/
theorem never_accused {c : Config} {p : ProcId} {sent : Index → Option (Bytes × Signature)}
    {r : Receiver} (h : Reachable (· = c.start p) (fun r inp r' => r.handle c.crypto inp = .ok r')
      (fun r inp => Sends sent inp ∧ Owned c.crypto sent r inp) r) (i : Index) :
    r.pollSignatureVerification c.crypto ≠ .error (.equivocated i) := by
  suffices hs : c.Sound r p ∧ r.Innocent c.crypto sent from hs.2.not_equivocated i
  refine h.induct (P := fun r => c.Sound r p ∧ r.Innocent c.crypto sent) (fun r hr => ?_)
    fun r inp r' _ hi hg hs => ⟨hi.1.handle hs, hi.2.handle hi.1.signing hg.1 hg.2 hs⟩
  subst hr
  exact ⟨c.sound_start p, fun _ _ _ hh => (nomatch hh), fun _ hc => (nomatch hc),
    fun _ hv => (nomatch hv)⟩

/-! ### A signature of another message -/

namespace Example

/-- Message `i`, without data. -/
def message (i : Nat) : Bytes := le 8 i

/-- A hash of the right length, that tells short messages apart. -/
def pad (m : Bytes) : Bytes := (m ++ List.replicate 32 0).take 32

/-- Two receivers of a broadcaster that signs messages 0 and 1.  A signature is the hash it
signs. -/
def pair : Config where
  crypto :=
    { blake3 := pad
      length_blake3 := fun m => by simp [pad]
      verify := fun sig h => sig == h && (h == pad (message 0) || h == pad (message 1)) }
  tail := 4
  tail_pos := four_pos
  ids := [0, 1]
  nodup := nodup_pair
  correct := fun p => p == 0

/-- What the broadcaster sent under each index: two messages, signed. -/
def sent (i : Index) : Option (Bytes × Signature) :=
  if i < 2 then some (message i, pad (message i)) else none

theorem genuine : Genuine pair.crypto sent := by
  refine ⟨fun i m sig h => ?_, fun sig h hv => ?_⟩
  · unfold sent at h
    split at h
    · next hi =>
        cases h
        have hi' : i = 0 ∨ i = 1 := Nat.le_one_iff_eq_zero_or_eq_one.mp (Nat.le_of_lt_succ hi)
        rcases hi' with rfl | rfl <;> decide
    · cases h
  · obtain ⟨hs, hh⟩ := Bool.and_eq_true_iff.mp hv
    rw [beq_iff_eq] at hs
    rcases Bool.or_eq_true_iff.mp hh with hh | hh
    · exact ⟨0, message 0, by rw [hs, beq_iff_eq.mp hh]; rfl, beq_iff_eq.mp hh⟩
    · exact ⟨1, message 1, by rw [hs, beq_iff_eq.mp hh]; rfl, beq_iff_eq.mp hh⟩

/-- Receiver 0 reads `reg` for message 0. -/
def reading (reg : Register) : List Input :=
  [.message (message 0), .signature 0 (pad (message 0)), .finishCheck 0,
    .pollSignatureVerification, .writeCompletion 0 fun _ => 0, .readCompletion 0 reg,
    .finishCheck 0]

/-- The receiver is about to report that the broadcaster equivocated. -/
def accusing (r : Receiver) : Bool :=
  r.verifiedSignatures == [⟨0, true, .receiverRegister 1⟩] && (r.msgTail.find? 0).isSome

/-- The register did not hold a valid signature. -/
def refuted (r : Receiver) : Bool := r.verifiedSignatures == [⟨0, false, .receiverRegister 1⟩]

end Example

/-- Receiver 1 keeps the signature of message 1, with its hash, where that of message 0 belongs. -/
theorem accused :
    ¬ ∀ (c : Config) (p : ProcId) (sent : Index → Option (Bytes × Signature)),
        Genuine c.crypto sent → ∀ r, Reachable (· = c.start p)
          (fun r inp r' => r.handle c.crypto inp = .ok r') (fun _ inp => Sends sent inp) r →
            ∀ i, r.pollSignatureVerification c.crypto ≠ .error (.equivocated i) := by
  intro h
  obtain ⟨r, hr, hs⟩ : ∃ r, Reachable (· = Example.pair.start 0)
      (fun r inp r' => r.handle Example.pair.crypto inp = .ok r')
      (fun _ inp => Sends Example.sent inp) r ∧ Example.accusing r = true :=
    exists_reachable (Example.pair.start 0) rfl
      (Example.reading ⟨0, 1, Example.pad (Example.message 1), Example.pad (Example.message 1)⟩)
      (by decide +kernel)
  refine h Example.pair 0 Example.sent Example.genuine r hr 0 ?_
  simp only [Example.accusing, Bool.and_eq_true, beq_iff_eq] at hs
  obtain ⟨d, hd⟩ := Option.isSome_iff_exists.mp hs.2
  simp only [Receiver.pollSignatureVerification, hs.1, hd]
  rfl

/-- Receiver 1 keeps something else there. -/
theorem never_accused_pair : ∃ r : Receiver, Example.refuted r = true ∧
    r.pollSignatureVerification Example.pair.crypto ≠ .error (.equivocated 0) := by
  obtain ⟨r, hr, hs⟩ : ∃ r, Reachable (· = Example.pair.start 0)
      (fun r inp r' => r.handle Example.pair.crypto inp = .ok r')
      (fun r inp => Sends Example.sent inp ∧ Owned Example.pair.crypto Example.sent r inp) r ∧
        Example.refuted r = true :=
    exists_reachable (Example.pair.start 0) rfl (Example.reading ⟨0, 1, [], []⟩)
      (by decide +kernel)
  exact ⟨r, hs, never_accused hr 0⟩

end Ubft.Broadcast
