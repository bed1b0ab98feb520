import Ubft.Certifier.Received

/-!
# Certifier — check

`check` skips the signatures its replica verified when it collected shares itself.  The tail
answers for an index, an emitter and a signature, never for a message: the shares of the
message acknowledged under an index vouch for any message a certificate carries under that
index.  `check_eq_plainCheck_iff` says exactly when the shortcut changes the answer.
-/

namespace Ubft.Certifier

variable {M : Type} {cr : Crypto M} {s : Certifier M}

/-- The share's signature is its emitter's, of `hash`. -/
def Verifies (cr : Crypto M) (hash : Hash) (sh : CertificateShare) : Prop :=
  cr.verify sh.signature hash sh.emitter = .ok true

instance (cr : Crypto M) (hash : Hash) : DecidablePred (Verifies cr hash) := fun sh =>
  match h : cr.verify sh.signature hash sh.emitter with
  | .ok true => isTrue h
  | .ok false | .error _ => isFalse fun h' => nomatch h.symm.trans h'

/-- The loop of `check` goes on after `sh`. -/
def accepted (cr : Crypto M) (cached : ProcId → Signature → Bool) (hash : Hash)
    (sh : CertificateShare) : Bool :=
  cached sh.emitter sh.signature || decide (Verifies cr hash sh)

/-- The shares the cache answers for, before the first one the loop stops at, are genuine. -/
def Genuine (cr : Crypto M) (cached : ProcId → Signature → Bool) (hash : Hash)
    (shs : List CertificateShare) : Prop :=
  ∀ sh ∈ shs.takeWhile (accepted cr cached hash), Verifies cr hash sh

/-- The first share the loop stops at carries a wrong signature of a known emitter. -/
def Refused (cr : Crypto M) (cached : ProcId → Signature → Bool) (hash : Hash)
    (shs : List CertificateShare) : Prop :=
  ∃ sh, (shs.dropWhile (accepted cr cached hash)).head? = some sh ∧
    cr.verify sh.signature hash sh.emitter = .ok false

/-- A known emitter's signature is looked at. -/
theorem verify_of_mem {sig : Signature} {hash : Hash} {id : ProcId} (h : id ∈ cr.publicKeys) :
    cr.verify sig hash id = .ok (cr.verifyWith sig hash id) :=
  if_pos h

/-! ### The loop -/

section Loop

variable {cached : ProcId → Signature → Bool} {hash : Hash} {sh : CertificateShare}
  {shs : List CertificateShare}

/-- A share that is accepted is passed. -/
theorem checkShares_cons_accepted (h : accepted cr cached hash sh = true) :
    checkShares cr cached hash (sh :: shs) = checkShares cr cached hash shs := by
  rw [checkShares]
  cases hc : cached sh.emitter sh.signature with
  | true => rw [if_pos rfl]
  | false =>
      have hv : Verifies cr hash sh := by simpa [accepted, hc] using h
      rw [if_neg Bool.false_ne_true, show cr.verify _ _ _ = _ from hv]

/-- The first share that is not decides. -/
theorem checkShares_cons_stop (h : accepted cr cached hash sh = false) :
    checkShares cr cached hash (sh :: shs) = cr.verify sh.signature hash sh.emitter := by
  obtain ⟨hc, hv⟩ : cached sh.emitter sh.signature = false ∧ ¬ Verifies cr hash sh := by
    simpa [accepted] using h
  rw [checkShares, hc, if_neg Bool.false_ne_true]
  cases hr : cr.verify sh.signature hash sh.emitter with
  | error e => rfl
  | ok b =>
      cases b with
      | false => rfl
      | true => exact absurd hr hv

/-- The loop refuses exactly at a wrong signature of a known emitter. -/
theorem checkShares_eq_false_iff :
    checkShares cr cached hash shs = .ok false ↔ Refused cr cached hash shs := by
  unfold Refused
  induction shs with
  | nil => exact ⟨(nomatch ·), fun ⟨_, h, _⟩ => nomatch h⟩
  | cons sh shs ih =>
      cases ha : accepted cr cached hash sh with
      | true => rw [checkShares_cons_accepted ha, List.dropWhile_cons_of_pos ha, ih]
      | false =>
          rw [checkShares_cons_stop ha, List.dropWhile_cons_of_neg (by simp [ha])]
          simp

/-- The loop answers true when every share is cached or verifies. -/
theorem checkShares_eq_true_iff :
    checkShares cr cached hash shs = .ok true ↔ ∀ sh ∈ shs, accepted cr cached hash sh = true := by
  induction shs with
  | nil => simp [checkShares]
  | cons sh shs ih =>
      cases ha : accepted cr cached hash sh with
      | true => rw [checkShares_cons_accepted ha, ih]; simp [ha]
      | false =>
          rw [checkShares_cons_stop ha]
          have hv : ¬ Verifies cr hash sh := fun h => by simp [accepted, h] at ha
          exact ⟨fun h => absurd h hv, fun h => by simp [ha] at h⟩

/-- Without the cache only valid shares are accepted. -/
theorem accepted_without_cache :
    accepted cr (fun _ _ => false) hash sh = decide (Verifies cr hash sh) := by
  simp [accepted]

/-- **With and without the cache.**  The two loops part at the first cached share that does not
verify; there the plain one refuses. -/
theorem checkShares_eq_plain_iff
    (hk : ∀ sh ∈ shs, cached sh.emitter sh.signature = true → sh.emitter ∈ cr.publicKeys) :
    checkShares cr cached hash shs = checkShares cr (fun _ _ => false) hash shs ↔
      Genuine cr cached hash shs ∨ Refused cr cached hash shs := by
  induction shs with
  | nil => simp [checkShares, Genuine]
  | cons sh shs ih =>
      have ih := ih fun x hx => hk x (List.mem_cons_of_mem _ hx)
      cases ha : accepted cr cached hash sh with
      | false =>
          have hv : ¬ Verifies cr hash sh := fun h => by simp [accepted, h] at ha
          have hp : accepted cr (fun _ _ => false) hash sh = false := by
            rw [accepted_without_cache, decide_eq_false hv]
          rw [checkShares_cons_stop ha, checkShares_cons_stop hp]
          refine ⟨fun _ => .inl fun x hx => ?_, fun _ => rfl⟩
          rw [List.takeWhile_cons_of_neg (by simp [ha])] at hx
          cases hx
      | true =>
          have hg : Genuine cr cached hash (sh :: shs) ↔
              Verifies cr hash sh ∧ Genuine cr cached hash shs := by
            unfold Genuine
            rw [List.takeWhile_cons_of_pos ha, List.forall_mem_cons]
          have hr : Refused cr cached hash (sh :: shs) ↔ Refused cr cached hash shs := by
            unfold Refused
            rw [List.dropWhile_cons_of_pos ha]
          rw [checkShares_cons_accepted ha, hg, hr]
          by_cases hv : Verifies cr hash sh
          · have hp : accepted cr (fun _ _ => false) hash sh = true := by
              rw [accepted_without_cache, decide_eq_true hv]
            rw [checkShares_cons_accepted hp, ih]
            exact ⟨fun h => h.imp_left (⟨hv, ·⟩), fun h => h.imp_left (·.2)⟩
          · -- the share is cached: its emitter is known, so the plain loop refuses it
            have hc : cached sh.emitter sh.signature = true := by simpa [accepted, hv] using ha
            have hm := hk sh List.mem_cons_self hc
            have hp : accepted cr (fun _ _ => false) hash sh = false := by
              rw [accepted_without_cache, decide_eq_false hv]
            have hf : cr.verify sh.signature hash sh.emitter = .ok false := by
              rw [Verifies, verify_of_mem hm] at hv
              rw [verify_of_mem hm]
              simpa using hv
            rw [checkShares_cons_stop hp, hf, checkShares_eq_false_iff]
            exact ⟨.inr, fun h => h.resolve_left fun h => hv h.1⟩

end Loop

/-! ### The cache is the tail's -/

/-- Shares are kept of known members only. -/
theorem mem_publicKeys_of_signatureVerified (h : Known cr s) {i : Index} {id : ProcId}
    {sig : Signature} (hv : s.signatureVerified cr i id sig = true) : id ∈ cr.publicKeys := by
  unfold signatureVerified at hv
  split at hv
  · cases hv
  · next d hd =>
      unfold MessageData.signatureVerified at hv
      split at hv
      · cases hv
      · next e he =>
          have hid : s.source cr e.1 = id := by simpa using List.find?_some he
          have hr := OrdMap.mem_entries.mp (List.mem_of_find?_eq_some he)
          exact hid ▸ h.received i d hd e.1 e.2 hr

/-- What `check` has to answer true for. -/
structure Certified (cr : Crypto M) (s : Certifier M) (c : Certificate M) : Prop where
  identifier : c.identifier = s.identifier
  nbShares : c.nbShares = s.quorum
  distinct : (c.shares.map (·.emitter)).Nodup
  verifies : ∀ sh ∈ c.shares, Verifies cr (hashOf cr s c.index c.message) sh

theorem plainCheck_eq_true_iff {c : Certificate M} :
    s.plainCheck cr c = .ok true ↔ Certified cr s c := by
  unfold plainCheck checkWith
  split
  · next h =>
      rw [checkShares_eq_true_iff]
      simp only [accepted_without_cache, decide_eq_true_eq]
      exact ⟨fun hv => ⟨h.1, h.2.1, h.2.2, hv⟩, (·.verifies)⟩
  · next h => exact ⟨(nomatch ·), fun hc => absurd ⟨hc.1, hc.2, hc.3⟩ h⟩

/-- The cache does not change the answer: the certificate fails a test that looks at no
signature, or the shares vouched for are genuine for the certificate's own message as far as
the loop goes, or the loop ends at a share refused for its signature. -/
def Agrees (cr : Crypto M) (s : Certifier M) (c : Certificate M) : Prop :=
  ¬ s.WellShared c ∨
    Genuine cr (s.signatureVerified cr c.index) (hashOf cr s c.index c.message) c.shares ∨
    Refused cr (s.signatureVerified cr c.index) (hashOf cr s c.index c.message) c.shares

/-- **Checking with the shares collected.**  In every state a certifier reaches, `check` answers
what the plain check answers, and so true for genuine certificates only, exactly when
`Agrees` holds. -/
theorem check_eq_plainCheck_iff (h : Reachable Init (Step cr) Always s) (c : Certificate M) :
    (s.check cr c = s.plainCheck cr c ∧ (s.check cr c = .ok true → Certified cr s c)) ↔
      Agrees cr s c := by
  have hk := known_of_reachable h
  have heq : s.check cr c = s.plainCheck cr c ↔ Agrees cr s c := by
    unfold check plainCheck checkWith Agrees
    by_cases hw : s.WellShared c
    · rw [if_pos hw, if_pos hw, checkShares_eq_plain_iff]
      · exact ⟨.inr, fun h => h.resolve_left (not_not_intro hw)⟩
      · exact fun sh _ hv => mem_publicKeys_of_signatureVerified hk hv
    · rw [if_neg hw, if_neg hw]
      exact ⟨fun _ => .inl hw, fun _ => rfl⟩
  rw [← heq]
  exact ⟨(·.1), fun h => ⟨h, fun ht => plainCheck_eq_true_iff.mp (h ▸ ht)⟩⟩

/-! ### A certificate for a message nobody signed -/

namespace Example

/-- A hash without collisions. -/
def hash (identifier index : Nat) (message : Bytes) : Hash :=
  List.replicate identifier 1 ++ 0 :: (List.replicate index 1 ++ 0 :: message)

theorem replicate_zero_inj {a b : Nat} {xs ys : Bytes}
    (h : List.replicate a 1 ++ 0 :: xs = List.replicate b 1 ++ 0 :: ys) : a = b ∧ xs = ys := by
  induction a generalizing b with
  | zero =>
      cases b with
      | zero => exact ⟨rfl, (List.cons.inj h).2⟩
      | succ b => cases (List.cons.inj h).1
  | succ a ih =>
      cases b with
      | zero => cases (List.cons.inj h).1
      | succ b =>
          obtain ⟨hab, hxy⟩ := ih (List.cons.inj h).2
          exact ⟨congrArg _ hab, hxy⟩

theorem hash_inj {i j i' j' : Nat} {m m' : Bytes} (h : hash i j m = hash i' j' m') :
    i = i' ∧ j = j' ∧ m = m' := by
  obtain ⟨hi, h⟩ := replicate_zero_inj h
  exact ⟨hi, replicate_zero_inj h⟩

/-- A signature: the signer and the hash, on 64 bytes. -/
def signature (id : ProcId) (hash : Hash) : Signature :=
  (UInt8.ofNat id :: hash ++ List.replicate 64 0).take 64

/-- Replica 2's keys, among three replicas. -/
def crypto : Crypto Bytes where
  myId := 2
  publicKeys := [0, 1, 2]
  own := by decide
  blake3 := hash
  verifyWith sig h id := sig == signature id h
  sign := signature 2

/-- Replicas 0 and 1 sign the message acknowledged under index 7, and their shares are
verified. -/
def ops : List (Op Bytes) :=
  [.toggleSlowPath true, .acknowledge 7 [1],
    .handleShare ⟨7, signature 0 (hash 0 7 [1])⟩ 0, .startCheck 0, .finishCheck 0,
    .pollVerifiedShare,
    .handleShare ⟨7, signature 1 (hash 0 7 [1])⟩ 1, .startCheck 1, .finishCheck 0,
    .pollVerifiedShare]

/-- A step of the example, when it does not throw. -/
def next (s : Certifier Bytes) (op : Op Bytes) : Option (Certifier Bytes) :=
  (s.apply crypto op).toOption

theorem step_of_next (s : Certifier Bytes) (op : Op Bytes) (s' : Certifier Bytes)
    (h : next s op = some s') : Always s op ∧ Step crypto s op s' := by
  refine ⟨trivial, ?_⟩
  unfold next at h
  unfold Step
  cases hs : s.apply crypto op with
  | error e => rw [hs] at h; cases h
  | ok s₁ => rw [hs] at h; cases h; rfl

theorem reachable {s : Certifier Bytes}
    (h : runs next { tail := 4, identifier := 0, receivers := [0, 1] } ops = some s) :
    Reachable Init (Step crypto) Always s :=
  reachable_of_runs step_of_next (.init ⟨4, 0, [0, 1], rfl⟩) h

/-- Their shares, under another message. -/
def forged : Certificate Bytes :=
  .of 0 7 [⟨0, signature 0 (hash 0 7 [1])⟩, ⟨1, signature 1 (hash 0 7 [1])⟩] [2]

theorem tryFrom_buffer : Certificate.tryFrom forged.buffer = some forged := by decide +kernel

/-- `check` takes the forged certificate, the plain check refuses it. -/
theorem check_forged : ∃ s, Reachable Init (Step crypto) Always s ∧
    s.check crypto forged = .ok true ∧ s.plainCheck crypto forged = .ok false := by
  have h : (runs next { tail := 4, identifier := 0, receivers := [0, 1] } ops).any (fun s =>
      s.check crypto forged = .ok true ∧ s.plainCheck crypto forged = .ok false) := by
    decide +kernel
  obtain ⟨s, hs, hc⟩ := (Option.any_eq_true _ _).mp h
  exact ⟨s, reachable hs, of_decide_eq_true hc⟩

end Example

/-- The shares of replicas 0 and 1 for `[1]` certify `[2]`. -/
theorem check_ne_plainCheck :
    ¬ ∀ cr : Crypto Bytes,
        (∀ i j m i' j' m', cr.blake3 i j m = cr.blake3 i' j' m' → i = i' ∧ j = j' ∧ m = m') →
        ∀ s : Certifier Bytes, Reachable Init (Step cr) Always s →
          ∀ (buffer : Bytes) (c : Certificate Bytes), Certificate.tryFrom buffer = some c →
            s.check cr c = s.plainCheck cr c := by
  intro h
  obtain ⟨s, hs, hc, hp⟩ := Example.check_forged
  have := h Example.crypto (fun _ _ _ _ _ _ => Example.hash_inj) s hs Example.forged.buffer
    Example.forged Example.tryFrom_buffer
  rw [hc, hp] at this
  cases this

/-- The forged certificate is one the two checks part on. -/
theorem not_agrees_forged : ∃ s, Reachable Init (Step Example.crypto) Always s ∧
    ¬ Agrees Example.crypto s Example.forged := by
  obtain ⟨s, hs, hc, hp⟩ := Example.check_forged
  refine ⟨s, hs, fun h => ?_⟩
  have := ((check_eq_plainCheck_iff hs Example.forged).mpr h).1
  rw [hc, hp] at this
  cases this

end Ubft.Certifier
