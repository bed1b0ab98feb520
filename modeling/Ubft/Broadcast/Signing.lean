import Ubft.Broadcast.Effects

/-!
# Broadcast — the slow path of one receiver

A receiver WRITEs a signature it verified, for the message it holds, and READs the registers of
the others once that WRITE completed (`Signing`).
-/

namespace Ubft.Broadcast

variable {cr : Crypto} {r r' : Receiver}

/-- The register that `m` and a signature of it are written to. -/
def registerOf (cr : Crypto) (tail : Nat) (m : Bytes) (sig : Signature) : Register :=
  ⟨index m % tail, writtenIncarnation tail (index m), cr.blake3 m, sig⟩

namespace Receiver

/-! ### Growth -/

/-- `r'` comes after `r`: the records grow, a message held keeps its bytes and its signature. -/
structure Grows (r r' : Receiver) : Prop where
  tail : r'.tail = r.tail
  others : r'.others = r.others
  received : ∀ m ∈ r.received, m ∈ r'.received
  written : ∀ w ∈ r.written, w ∈ r'.written
  begun : ∀ rd ∈ r.begun, rd ∈ r'.begun
  held : ∀ i h', r'.held i = some h' → r.Fresh i ∨ ∃ h, r.held i = some h ∧
    h'.message = h.message ∧ ∀ sig, h.signature = some sig → h'.signature = some sig

theorem Grows.refl (r : Receiver) : Grows r r :=
  ⟨rfl, rfl, fun _ h => h, fun _ h => h, fun _ h => h,
    fun _ h hi => .inr ⟨h, hi, rfl, fun _ hs => hs⟩⟩

/-- An operation that leaves the messages of the tail alone. -/
theorem Grows.of_held (ht : r'.tail = r.tail) (ho : r'.others = r.others)
    (hr : r'.received = r.received) (hw : ∀ w ∈ r.written, w ∈ r'.written)
    (hb : ∀ rd ∈ r.begun, rd ∈ r'.begun) (hh : ∀ i h, r'.held i = some h → r.held i = some h) :
    Grows r r' :=
  ⟨ht, ho, fun _ h => hr ▸ h, hw, hb, fun i h hi => .inr ⟨h, hh i h hi, rfl, fun _ hs => hs⟩⟩

/-- A message gets a signature, and keeps the one it has. -/
theorem Grows.modify (r : Receiver) (i : Index) (f : MessageData → MessageData)
    (hm : ∀ d, (f d).message = d.message)
    (hs : ∀ d, r.msgTail.find? i = some d → ∀ sig, d.signature = some sig →
      (f d).signature = some sig) :
    Grows r { r with msgTail := r.msgTail.modify i f } := by
  refine ⟨rfl, rfl, fun _ h => h, fun _ h => h, fun _ h => h, fun k h' hk => .inr ?_⟩
  rw [held_modify] at hk
  split at hk
  · next hki =>
      obtain ⟨d, hd, rfl⟩ := Option.map_eq_some_iff.mp hk
      exact ⟨d.held, hki ▸ held_of_find? hd, hm d, hs d hd⟩
  · exact ⟨h', hk, rfl, fun _ h => h⟩

theorem SameSlow.grows (h : SameSlow r r') : Grows r r' :=
  .of_held h.tail h.others h.received (fun _ hw => h.written ▸ hw) (fun _ hb => h.begun ▸ hb)
    fun i _ hi => (h.held i).symm.trans hi

theorem Grows.trans_same {r'' : Receiver} (h : Grows r r') (h' : SameSlow r' r'') :
    Grows r r'' :=
  ⟨h'.tail.trans h.tail, h'.others.trans h.others, fun m hm => h'.received ▸ h.received m hm,
    fun w hw => h'.written ▸ h.written w hw, fun rd hb => h'.begun ▸ h.begun rd hb,
    fun i _ hi => h.held i _ ((h'.held i).symm.trans hi)⟩

theorem grows_take (r : Receiver) {m : Bytes} (hm : r.Fresh (index m)) : Grows r (r.take m) := by
  refine ⟨rfl, rfl, fun _ h => List.mem_append_left _ h, fun _ h => h, fun _ h => h,
    fun i h hi => ?_⟩
  rcases held_take hi with ⟨rfl, -⟩ | ⟨-, hi⟩
  · exact .inl hm
  · exact .inr ⟨h, hi, rfl, fun _ h => h⟩

theorem Grows.handle {inp : Input} (h : r.handle cr inp = .ok r') : Grows r r' := by
  cases inp with
  | message m =>
      rcases handleMessage_cases h with rfl | ⟨hm, h⟩
      · exact .refl r'
      · exact (grows_take r hm).trans_same (sameSlow_replayEchoes h)
  | echo q e =>
      simp only [Receiver.handle] at h
      split at h
      · exact (handleEcho_cases h).grows
      · cases h; exact .refl r
  | signature i sig =>
      rcases handleSignature_cases h with rfl | ⟨d, hd, hs, rfl⟩
      · exact .refl r'
      · have hg := Grows.modify r i (fun d => { d with signature := some sig }) (fun _ => rfl)
          fun d' hd' sig' hs' => by rw [hd] at hd'; cases hd'; rw [hs] at hs'; cases hs'
        exact ⟨rfl, rfl, hg.received, hg.written, hg.begun, hg.held⟩
  | finishCheck k =>
      cases h
      rcases finishCheck_cases cr r k with h | ⟨c, -, h⟩
      · rw [h]; exact .refl r
      · rw [h]; exact .of_held rfl rfl rfl (fun _ h => h) (fun _ h => h) fun _ _ h => h
  | dropCheck k =>
      cases h
      exact .of_held rfl rfl rfl (fun _ h => h) (fun _ h => h) fun _ _ h => h
  | pollSignatureVerification =>
      rcases pollSignatureVerification_cases h with
        rfl | ⟨v, vs, -, ⟨-, rfl⟩ | ⟨d, -, ⟨-, -, h⟩ | ⟨q, -, -, rfl⟩⟩⟩
      · exact .refl r'
      · exact .of_held rfl rfl rfl (fun _ h => h) (fun _ h => h) fun _ _ h => h
      · obtain ⟨sig, -, -, -, rfl⟩ := write_cases h
        exact .of_held rfl rfl rfl (fun _ h => List.mem_append_left _ h) (fun _ h => h)
          fun _ _ h => h
      · have hg := Grows.modify r v.index (·.checkedAReceiver q) (fun _ => rfl)
          fun _ _ _ hs => hs
        exact ⟨rfl, rfl, hg.received, hg.written, hg.begun, hg.held⟩
  | writeCompletion slot since =>
      cases h
      rcases pollWriteCompletion_cases r slot since with h | ⟨i, -, ⟨-, h⟩ | ⟨d, -, h⟩⟩
      · rw [h]; exact .refl r
      · rw [h]; exact .of_held rfl rfl rfl (fun _ h => h) (fun _ h => h) fun _ _ h => h
      · rw [h]
        exact .of_held rfl rfl rfl (fun _ h => h) (fun _ h => List.mem_append_left _ h)
          fun _ _ h => h
  | readCompletion k reg =>
      rcases pollReadCompletion_cases h with
        rfl | ⟨rd, -, -, ⟨-, rfl⟩ | ⟨d, -, ⟨-, rfl⟩ | ⟨-, rfl⟩⟩⟩
      · exact .refl r'
      · exact .of_held rfl rfl rfl (fun _ h => h) (fun _ h => h) fun _ _ h => h
      · have hg := Grows.modify r rd.index (·.checkedAReceiver rd.replica) (fun _ => rfl)
          fun _ _ _ hs => hs
        exact ⟨rfl, rfl, hg.received, hg.written, hg.begun, hg.held⟩
      · exact .of_held rfl rfl rfl (fun _ h => h) (fun _ h => h) fun _ _ h => h
  | poll =>
      cases h
      rcases poll_cases r with h | ⟨i, d, -, -, h⟩
      · rw [h]; exact .refl r
      · rw [h]
        exact .of_held rfl rfl rfl (fun _ h => h) (fun _ h => h) fun _ _ h => (held_poll h).2
  | toggleSlowPath b =>
      cases h
      exact .of_held rfl rfl rfl (fun _ h => h) (fun _ h => h) fun _ _ h => h

/-! ### Signatures -/

/-- The message taken under `i` came with a valid signature, the one the tail holds. -/
def Signed (cr : Crypto) (r : Receiver) (i : Index) : Prop :=
  ∃ m ∈ r.received, index m = i ∧ ∃ sig, cr.verify sig (cr.blake3 m) = true ∧
    ∀ h, r.held i = some h → h.signature = some sig

/-- A check of the broadcaster's signature is of the message and the signature held. -/
def CheckOk (cr : Crypto) (r : Receiver) (c : Check) : Prop :=
  ∃ m ∈ r.received, index m = c.index ∧ (c.origin = .broadcaster →
    c.hash = cr.blake3 m ∧ ∀ h, r.held c.index = some h → h.signature = some c.signature)

/-- The check is of a message received; if it is good, the broadcaster signed. -/
def VerifiedOk (cr : Crypto) (r : Receiver) (v : VerifiedSignature) : Prop :=
  (∃ m ∈ r.received, index m = v.index) ∧
    (v.origin = .broadcaster → v.ok = true → Signed cr r v.index)

/-- A WRITE that did not complete is the last one of its register. -/
def WriteOk (cr : Crypto) (r : Receiver) (slot : Nat) (i : Index) : Prop :=
  slot = i % r.tail ∧ Signed cr r i ∧
    (∃ w ∈ r.written, w.slot = slot ∧ w.incarnation = writtenIncarnation r.tail i) ∧
    ∀ w ∈ r.written, w.slot = slot → w.incarnation ≤ writtenIncarnation r.tail i

/-- What a receiver signs, writes and reads. -/
structure Signing (cr : Crypto) (r : Receiver) : Prop where
  checks : ∀ c ∈ r.checks, CheckOk cr r c
  verified : ∀ v ∈ r.verifiedSignatures, VerifiedOk cr r v
  writes : ∀ slot i, r.outstandingWrites.find? slot = some i → WriteOk cr r slot i
  written : ∀ w ∈ r.written, ∃ m ∈ r.received, ∃ sig, w = registerOf cr r.tail m sig ∧
    cr.verify sig (cr.blake3 m) = true
  completed : ∀ slot, r.completed slot = 0 ∨
    ∃ w ∈ r.written, w.slot = slot ∧ w.incarnation = r.completed slot
  reads : ∀ rd ∈ r.outstandingReads, rd ∈ r.begun
  begun : ∀ rd ∈ r.begun, Signed cr r rd.index ∧
    writtenIncarnation r.tail rd.index ≤ r.completed (rd.index % r.tail)

section Growth

variable (hf : r.Fifo) (hg : Grows r r')
include hf hg

/-- What is held of an index taken before is what was held. -/
theorem signature_grows {i : Index} {m : Bytes} (hm : m ∈ r.received) (hi : index m = i)
    {sig : Signature} (hs : ∀ h, r.held i = some h → h.signature = some sig) :
    ∀ h, r'.held i = some h → h.signature = some sig := by
  intro h' hh'
  rcases hg.held i h' hh' with hfr | ⟨h, hh, -, hsig⟩
  · exact absurd (hf.received_lt m hm i hfr) (hi ▸ lt_irrefl _)
  · exact hsig sig (hs h hh)

theorem Signed.grows {i : Index} (h : Signed cr r i) : Signed cr r' i := by
  obtain ⟨m, hm, hi, sig, hv, hs⟩ := h
  exact ⟨m, hg.received m hm, hi, sig, hv, signature_grows hf hg hm hi hs⟩

theorem CheckOk.grows {c : Check} (h : CheckOk cr r c) : CheckOk cr r' c := by
  obtain ⟨m, hm, hi, hb⟩ := h
  exact ⟨m, hg.received m hm, hi, fun ho =>
    ⟨(hb ho).1, signature_grows hf hg hm hi (hb ho).2⟩⟩

theorem VerifiedOk.grows {v : VerifiedSignature} (h : VerifiedOk cr r v) :
    VerifiedOk cr r' v := by
  obtain ⟨⟨m, hm, hi⟩, hb⟩ := h
  exact ⟨⟨m, hg.received m hm, hi⟩, fun ho hok => (hb ho hok).grows hf hg⟩

/-- A WRITE is still the last one as long as no other one begins. -/
theorem WriteOk.grows (hw : r'.written = r.written) {slot : Nat} {i : Index}
    (h : WriteOk cr r slot i) : WriteOk cr r' slot i := by
  unfold WriteOk
  rw [hg.tail, hw]
  exact ⟨h.1, h.2.1.grows hf hg, h.2.2⟩

/-- Growth that signs, writes and reads nothing new. -/
theorem Signing.grows (h : Signing cr r) (hw : r'.written = r.written)
    (hcs : ∀ c ∈ r'.checks, c ∈ r.checks ∨ CheckOk cr r' c)
    (hvs : ∀ v ∈ r'.verifiedSignatures, v ∈ r.verifiedSignatures ∨ VerifiedOk cr r' v)
    (hws : r'.outstandingWrites = r.outstandingWrites) (hc : r'.completed = r.completed)
    (hrs : ∀ rd ∈ r'.outstandingReads, rd ∈ r.outstandingReads) (hb : r'.begun = r.begun) :
    Signing cr r' := by
  refine ⟨fun c hm => ?_, fun v hm => ?_, fun slot i hi => ?_, fun w hm => ?_, fun slot => ?_,
    fun rd hm => ?_, fun rd hm => ?_⟩
  · rcases hcs c hm with hm | hm
    · exact (h.checks c hm).grows hf hg
    · exact hm
  · rcases hvs v hm with hm | hm
    · exact (h.verified v hm).grows hf hg
    · exact hm
  · rw [hws] at hi
    exact (h.writes slot i hi).grows hf hg hw
  · rw [hw] at hm
    obtain ⟨m, hm, sig, he, hv⟩ := h.written w hm
    exact ⟨m, hg.received m hm, sig, by rw [hg.tail]; exact he, hv⟩
  · rw [hc, hw]; exact h.completed slot
  · rw [hb]; exact h.reads rd (hrs rd hm)
  · rw [hb] at hm
    rw [hg.tail, hc]
    exact ⟨(h.begun rd hm).1.grows hf hg, (h.begun rd hm).2⟩

end Growth

/-! ### One lemma per operation -/

theorem Signing.handleSignature (h : Signing cr r) (hf : r.Fifo) {i : Index} {sig : Signature}
    (hs : r.handleSignature cr i sig = .ok r') : Signing cr r' := by
  have hg : Grows r r' := Grows.handle (show r.handle cr (.signature i sig) = .ok r' from hs)
  rcases handleSignature_cases hs with rfl | ⟨d, hd, hn, rfl⟩
  · exact h
  · refine h.grows hf hg rfl (fun c hc => ?_) (fun _ hv => .inl hv) rfl rfl (fun _ hr => hr) rfl
    rcases List.mem_append.mp hc with hc | hc
    · exact .inl hc
    · obtain rfl := List.mem_singleton.mp hc
      have hm := hf.held_received i d.held (held_of_find? hd)
      refine .inr ⟨d.message, hm.1, hm.2, fun _ => ⟨rfl, fun h' hh' => ?_⟩⟩
      have : (r.msgTail.find? i).map
          (fun d => ({ d with signature := some sig } : MessageData).held) = some h' := by
        rw [← hh']
        exact ((held_modify r i i _).trans (if_pos rfl)).symm
      rw [hd, Option.map_some] at this
      cases this
      rfl

theorem Signing.finishCheck (h : Signing cr r) (hf : r.Fifo) (k : Nat) :
    Signing cr (r.finishCheck cr k) := by
  have hg : Grows r (r.finishCheck cr k) :=
    Grows.handle (show r.handle cr (.finishCheck k) = .ok _ from rfl)
  rcases finishCheck_cases cr r k with he | ⟨c, hc, he⟩
  · rw [he]; exact h
  · rw [he] at hg ⊢
    refine h.grows hf hg rfl (fun c hc => .inl (List.mem_of_mem_eraseIdx hc)) (fun v hv => ?_)
      rfl rfl (fun _ hr => hr) rfl
    rcases List.mem_append.mp hv with hv | hv
    · exact .inl hv
    · obtain rfl := List.mem_singleton.mp hv
      obtain ⟨m, hm, hi, hb⟩ := h.checks c (List.mem_of_getElem? hc)
      refine .inr ⟨⟨m, hm, hi⟩, fun ho hok => ?_⟩
      have hok : cr.verify c.signature c.hash = true := hok
      rw [(hb ho).1] at hok
      exact ⟨m, hm, hi, c.signature, hok, (hb ho).2⟩

/-- A WRITE holds a signature that was verified. -/
theorem Signing.write (h : Signing cr r) (hf : r.Fifo) {i : Index} {d : MessageData}
    (hd : r.msgTail.find? i = some d) (hsig : Signed cr r i) (hw : r.write cr i d = .ok r') :
    Signing cr r' := by
  obtain ⟨sig, hs, -, hlt, rfl⟩ := write_cases hw
  obtain ⟨hm, hi⟩ := hf.held_received i d.held (held_of_find? hd)
  have hg : Grows r { r with
      written := r.written ++ [⟨i % r.tail, writtenIncarnation r.tail i, cr.blake3 d.message, sig⟩]
      outstandingWrites := r.outstandingWrites.insert (i % r.tail) i } :=
    .of_held rfl rfl rfl (fun _ h => List.mem_append_left _ h) (fun _ h => h) fun _ _ h => h
  refine ⟨fun c hc => (h.checks c hc).grows hf hg, fun v hv => (h.verified v hv).grows hf hg,
    fun slot k hk => ?_, fun w hm' => ?_, fun slot => ?_, h.reads, fun rd hr => ?_⟩
  · simp only [OrdMap.find?_insert] at hk
    split at hk
    · next hslot =>
        cases hk
        refine ⟨hslot, hsig.grows hf hg, ⟨_, List.mem_append_right _ List.mem_cons_self,
          hslot.symm, rfl⟩, fun w hm' hws => ?_⟩
        rcases List.mem_append.mp hm' with hm' | hm'
        · exact (hlt w hm' (hws.trans hslot)).le
        · rw [List.mem_singleton.mp hm']
    · next hslot =>
        obtain ⟨hk₁, hk₂, ⟨w₀, hw₀, hk₃⟩, hk₄⟩ := h.writes slot k hk
        refine ⟨hk₁, hk₂.grows hf hg, ⟨w₀, List.mem_append_left _ hw₀, hk₃⟩, fun w hm' hws => ?_⟩
        rcases List.mem_append.mp hm' with hm' | hm'
        · exact hk₄ w hm' hws
        · rw [List.mem_singleton.mp hm'] at hws
          exact absurd hws.symm hslot
  · rcases List.mem_append.mp hm' with hm' | hm'
    · exact h.written w hm'
    · -- the signature written is the one verified
      obtain ⟨m, hm₂, hi₂, sig₂, hv, hheld⟩ := hsig
      have hmm : m = d.message := hf.unique m hm₂ _ hm (hi₂.trans hi.symm)
      have hss : sig₂ = sig := by
        have := (hheld d.held (held_of_find? hd)).symm.trans hs
        exact Option.some.inj this
      refine ⟨d.message, hm, sig, ?_, by rw [← hmm, ← hss]; exact hv⟩
      rw [List.mem_singleton.mp hm', registerOf, show index d.message = i from hi]
  · rcases h.completed slot with hc | ⟨w, hm', hws⟩
    · exact .inl hc
    · exact .inr ⟨w, List.mem_append_left _ hm', hws⟩
  · exact ⟨(h.begun rd hr).1.grows hf hg, (h.begun rd hr).2⟩

theorem Signing.pollSignatureVerification (h : Signing cr r) (hf : r.Fifo)
    (hp : r.pollSignatureVerification cr = .ok r') : Signing cr r' := by
  have hg : Grows r r' :=
    Grows.handle (show r.handle cr .pollSignatureVerification = .ok r' from hp)
  rcases pollSignatureVerification_cases hp with rfl | ⟨v, vs, hv, hcase⟩
  · exact h
  · have hsub : ∀ x ∈ vs, x ∈ r.verifiedSignatures := fun x hx => by
      rw [hv]; exact List.mem_cons_of_mem _ hx
    rcases hcase with ⟨-, rfl⟩ | ⟨d, hd, ⟨ho, hok, hw⟩ | ⟨q, -, -, rfl⟩⟩
    · exact h.grows hf hg rfl (fun _ hc => .inl hc) (fun x hx => .inl (hsub x hx)) rfl rfl
        (fun _ hr => hr) rfl
    · have h' : Signing cr { r with verifiedSignatures := vs } :=
        ⟨h.checks, fun x hx => h.verified x (hsub x hx), h.writes, h.written, h.completed,
          h.reads, h.begun⟩
      have hf' : ({ r with verifiedSignatures := vs } : Receiver).Fifo :=
        hf.congr rfl rfl rfl fun _ => rfl
      exact h'.write hf' hd
        ((h.verified v (by rw [hv]; exact List.mem_cons_self)).2 ho hok) hw
    · exact h.grows hf hg rfl (fun _ hc => .inl hc) (fun x hx => .inl (hsub x hx)) rfl rfl
        (fun _ hr => hr) rfl

/-- The incarnation of a register completed never decreases. -/
theorem completed_le_pollWriteCompletion (h : Signing cr r) (slot slot' : Nat)
    (since : ProcId → Nat) :
    r.completed slot' ≤ (r.pollWriteCompletion slot since).completed slot' := by
  have key : ∀ i, r.outstandingWrites.find? slot = some i →
      r.completed slot' ≤ Function.update r.completed slot (writtenIncarnation r.tail i) slot' := by
    intro i hi
    by_cases hs : slot' = slot
    · rw [hs, Function.update_self]
      rcases h.completed slot with hc | ⟨w, hw, hws, hc⟩
      · rw [hc]; exact Nat.zero_le _
      · rw [← hc]; exact (h.writes slot i hi).2.2.2 w hw hws
    · rw [Function.update_of_ne hs]
  rcases pollWriteCompletion_cases r slot since with he | ⟨i, hi, ⟨-, he⟩ | ⟨d, -, he⟩⟩
  · rw [he]
  · rw [he]; exact key i hi
  · rw [he]; exact key i hi

theorem Signing.pollWriteCompletion (h : Signing cr r) (hf : r.Fifo) (slot : Nat)
    (since : ProcId → Nat) : Signing cr (r.pollWriteCompletion slot since) := by
  have hg : Grows r (r.pollWriteCompletion slot since) :=
    Grows.handle (show r.handle cr (.writeCompletion slot since) = .ok _ from rfl)
  have hc := fun k => completed_le_pollWriteCompletion h slot k since
  have hbegun : ∀ rd ∈ r.begun, Signed cr (r.pollWriteCompletion slot since) rd.index ∧
      writtenIncarnation r.tail rd.index ≤
        (r.pollWriteCompletion slot since).completed (rd.index % r.tail) :=
    fun rd hr => ⟨(h.begun rd hr).1.grows hf hg, (h.begun rd hr).2.trans (hc _)⟩
  rcases pollWriteCompletion_cases r slot since with he | ⟨i, hi, he⟩
  · rw [he]; exact h
  · obtain ⟨hslot, hsig, hlast, -⟩ := h.writes slot i hi
    have hwr : ∀ k j, (r.outstandingWrites.erase slot).find? k = some j →
        r.outstandingWrites.find? k = some j := by
      intro k j hk
      rw [OrdMap.find?_erase] at hk
      split at hk
      · cases hk
      · exact hk
    have hcompl : ∀ k, Function.update r.completed slot (writtenIncarnation r.tail i) k = 0 ∨
        ∃ w ∈ r.written, w.slot = k ∧
          w.incarnation = Function.update r.completed slot (writtenIncarnation r.tail i) k := by
      intro k
      by_cases hk : k = slot
      · rw [hk, Function.update_self]; exact .inr hlast
      · rw [Function.update_of_ne hk]; exact h.completed k
    rcases he with ⟨-, he⟩ | ⟨d, -, he⟩
    · rw [he] at hg hbegun ⊢
      exact ⟨fun c hm => (h.checks c hm).grows hf hg, fun v hm => (h.verified v hm).grows hf hg,
        fun k j hk => (h.writes k j (hwr k j hk)).grows hf hg rfl, h.written, hcompl, h.reads,
        hbegun⟩
    · rw [he] at hg hbegun ⊢
      refine ⟨fun c hm => (h.checks c hm).grows hf hg,
        fun v hm => (h.verified v hm).grows hf hg,
        fun k j hk => (h.writes k j (hwr k j hk)).grows hf hg rfl, h.written, hcompl,
        fun rd hr => ?_, fun rd hr => ?_⟩
      · rcases List.mem_append.mp hr with hr | hr
        · exact List.mem_append_left _ (h.reads rd hr)
        · exact List.mem_append_right _ hr
      · rcases List.mem_append.mp hr with hr | hr
        · exact hbegun rd hr
        · obtain ⟨q, -, rfl⟩ := List.mem_map.mp hr
          refine ⟨hsig.grows hf hg, ?_⟩
          change writtenIncarnation r.tail i ≤
            Function.update r.completed slot (writtenIncarnation r.tail i) (i % r.tail)
          rw [← hslot, Function.update_self]

theorem Signing.pollReadCompletion (h : Signing cr r) (hf : r.Fifo) {k : Nat} {reg : Register}
    (hp : r.pollReadCompletion k reg = .ok r') : Signing cr r' := by
  have hg : Grows r r' := Grows.handle (show r.handle cr (.readCompletion k reg) = .ok r' from hp)
  rcases pollReadCompletion_cases hp with
    rfl | ⟨rd, hrd, -, ⟨-, rfl⟩ | ⟨d, hd, ⟨-, rfl⟩ | ⟨-, rfl⟩⟩⟩
  · exact h
  · exact h.grows hf hg rfl (fun _ hc => .inl hc) (fun _ hv => .inl hv) rfl rfl
      (fun _ hr => List.mem_of_mem_eraseIdx hr) rfl
  · exact h.grows hf hg rfl (fun _ hc => .inl hc) (fun _ hv => .inl hv) rfl rfl
      (fun _ hr => List.mem_of_mem_eraseIdx hr) rfl
  · refine h.grows hf hg rfl (fun c hc => ?_) (fun _ hv => .inl hv) rfl rfl
      (fun _ hr => List.mem_of_mem_eraseIdx hr) rfl
    rcases List.mem_append.mp hc with hc | hc
    · exact .inl hc
    · rw [List.mem_singleton.mp hc]
      have hm := hf.held_received rd.index d.held (held_of_find? hd)
      exact .inr ⟨d.message, hm.1, hm.2, fun ho => by cases ho⟩

theorem SameSlow.signing (hs : SameSlow r r') (hf : r.Fifo) (h : Signing cr r) :
    Signing cr r' :=
  h.grows hf hs.grows hs.written (fun _ hc => .inl (hs.checks ▸ hc))
    (fun _ hv => .inl (hs.verifiedSignatures ▸ hv)) hs.outstandingWrites hs.completed
    (fun _ hr => hs.outstandingReads ▸ hr) hs.begun

theorem Signing.handle (h : Signing cr r) (hf : r.Fifo) {inp : Input}
    (hh : r.handle cr inp = .ok r') : Signing cr r' := by
  have hg := Grows.handle hh
  cases inp with
  | message m =>
      rcases handleMessage_cases hh with rfl | ⟨hm, hh⟩
      · exact h
      · have ht : Signing cr (r.take m) :=
          h.grows hf (grows_take r hm) rfl (fun _ hc => .inl hc) (fun _ hv => .inl hv) rfl rfl
            (fun _ hr => hr) rfl
        exact (sameSlow_replayEchoes hh).signing (hf.take hm) ht
  | echo q e =>
      simp only [Receiver.handle] at hh
      split at hh
      · exact (handleEcho_cases hh).signing hf h
      · cases hh; exact h
  | signature i sig => exact h.handleSignature hf hh
  | finishCheck k => cases hh; exact h.finishCheck hf k
  | dropCheck k =>
      cases hh
      exact h.grows hf hg rfl (fun _ hc => .inl (List.mem_of_mem_eraseIdx hc))
        (fun _ hv => .inl hv) rfl rfl (fun _ hr => hr) rfl
  | pollSignatureVerification => exact h.pollSignatureVerification hf hh
  | writeCompletion slot since => cases hh; exact h.pollWriteCompletion hf slot since
  | readCompletion k reg => exact h.pollReadCompletion hf hh
  | poll =>
      cases hh
      rcases poll_cases r with he | ⟨i, d, -, -, he⟩
      · rw [he]; exact h
      · rw [he] at hg ⊢
        exact h.grows hf hg rfl (fun _ hc => .inl hc) (fun _ hv => .inl hv) rfl rfl
          (fun _ hr => hr) rfl
  | toggleSlowPath b =>
      cases hh
      exact h.grows hf hg rfl (fun _ hc => .inl hc) (fun _ hv => .inl hv) rfl rfl
        (fun _ hr => hr) rfl

end Receiver

end Ubft.Broadcast
