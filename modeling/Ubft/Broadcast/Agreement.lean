import Ubft.Broadcast.Echoes
import Ubft.Broadcast.Records
import Ubft.Broadcast.Scanning

/-!
# Broadcast — agreement

A receiver that delivers by the slow path found nothing against its message in the registers of
the correct ones (`Cleared`).  Of two receivers that read each other's register for one index,
the second one to begin sees what the first one wrote (`crossed`): their messages are the same.
With the fast path's `took_of_echoes` this gives agreement.
-/

namespace Ubft.Broadcast

namespace Config

variable {c : Config} {s s' : System} {p q : ProcId}

/-- `p` read `reg` in the register of `q` for message `i`, whose incarnation has 32 bits. -/
def ReadBy (c : Config) (s : System) (p q : ProcId) (i : Index) (reg : Register) : Prop :=
  ∃ rd ∈ (s p).begun, rd.replica = q ∧ rd.index = i ∧ Regular (s q) rd (i % c.tail) reg ∧
    i / c.tail + 1 < 2 ^ 32

/-- If `q` is correct, what `p` read of its register does not contradict the message taken under
`i`: an older value, a signature of that message, or no signature of the broadcaster. -/
def Cleared (c : Config) (s : System) (p q : ProcId) (i : Index) : Prop :=
  c.correct q = true → ∃ reg, c.ReadBy s p q i reg ∧
    (reg.incarnation < expectedIncarnation c.tail i ∨
      c.crypto.verify reg.signature reg.hash = false ∨ ∃ m ∈ (s p).received, index m = i ∧
        c.crypto.verify reg.signature (c.crypto.blake3 m) = true)

/-- Up to 32 bits, the incarnation written is the one expected. -/
theorem writtenIncarnation_of_lt {tail : Nat} {i : Index} (h : i / tail + 1 < 2 ^ 32) :
    writtenIncarnation tail i = expectedIncarnation tail i := by
  refine Nat.mod_eq_of_lt ?_
  rw [expectedIncarnation, Nat.mod_eq_of_lt (h.trans (by decide))]
  exact h

/-- What the slow path knows of the others' registers. -/
structure Scan (c : Config) (s : System) (p : ProcId) (r : Receiver) : Prop where
  checks : ∀ ck ∈ r.checks, ∀ q, ck.origin = .receiverRegister q → c.correct q = true →
    ∃ reg, c.ReadBy s p q ck.index reg ∧ reg.hash = ck.hash ∧ reg.signature = ck.signature
  verified : ∀ v ∈ r.verifiedSignatures, ∀ q, v.origin = .receiverRegister q → v.ok = false →
    c.Cleared s p q v.index
  checked : ∀ i h, r.held i = some h → ∀ q ∈ h.checkedReceivers, c.Cleared s p q i
  polled : ∀ m ∈ r.polled, m ∈ r.received ∧
    ((∀ q ∈ r.others, c.Took s q m) ∨ ∀ q ∈ r.others, c.Cleared s p q (index m))

/-! ### Later states -/

/-- Each receiver of `s'` comes after the one of `s`. -/
def Later (s s' : System) : Prop := ∀ p, (s p).Grows (s' p)

theorem later_step {l : ProcId × Input} (h : c.Step s l s') : Later s s' := by
  intro p
  obtain ⟨-, -, -, r, hr, rfl⟩ := step_cases h
  by_cases hp : p = l.1
  · subst hp
    rw [Function.update_self]
    exact .handle hr
  · rw [Function.update_of_ne hp]
    exact .refl _

theorem ReadBy.later (h : Later s s') {i : Index} {reg : Register} (hr : c.ReadBy s p q i reg) :
    c.ReadBy s' p q i reg := by
  obtain ⟨rd, hb, hq, hi, ⟨hsince, hreg⟩, hlt⟩ := hr
  refine ⟨rd, (h p).begun rd hb, hq, hi, ⟨hsince, ?_⟩, hlt⟩
  exact hreg.imp_right fun ⟨hw, hslot⟩ => ⟨(h q).written reg hw, hslot⟩

theorem Cleared.later (h : Later s s') {i : Index} (hc : c.Cleared s p q i) :
    c.Cleared s' p q i := by
  intro hq
  obtain ⟨reg, hr, hcase⟩ := hc hq
  exact ⟨reg, hr.later h, hcase.imp_right fun h' => h'.imp_right fun ⟨m, hm, hmi⟩ =>
    ⟨m, (h p).received m hm, hmi⟩⟩

theorem Scan.later (h : Later s s') {r : Receiver} (hs : c.Scan s p r) : c.Scan s' p r := by
  refine ⟨fun ck hc q ho hq => ?_, fun v hv q ho hok => (hs.verified v hv q ho hok).later h,
    fun i d hd q hq => (hs.checked i d hd q hq).later h, fun m hm => ⟨(hs.polled m hm).1, ?_⟩⟩
  · obtain ⟨reg, hr, he⟩ := hs.checks ck hc q ho hq
    exact ⟨reg, hr.later h, he⟩
  · exact (hs.polled m hm).2.imp
      (fun ht q hq hc =>
        let ⟨m', hm', hb⟩ := ht q hq hc
        ⟨m', (h q).received m' hm', hb⟩)
      fun hcl q hq => (hcl q hq).later h

/-! ### One step of a receiver -/

/-- What `p` found in the register of a correct `q`. -/
def Found (c : Config) (s : System) (p q : ProcId) (i : Index) (hash : Hash) (sig : Signature) :
    Prop :=
  c.correct q = true → ∃ reg, c.ReadBy s p q i reg ∧ reg.hash = hash ∧ reg.signature = sig

theorem scan_handle {r : Receiver} {inp : Input} (hso : c.Sound (s p) p)
    (hec : Echoed (c.Took s) (c.Sent s) (s p)) (h : c.Scan s p (s p)) (ha : c.Allowed s p inp)
    (hgood : c.Good s (p, inp)) (hh : (s p).handle c.crypto inp = .ok r) : c.Scan s p r := by
  have hs : Scanned (c.Found s p) (c.Cleared s p) r := by
    refine Scanned.handle ⟨h.checks, h.verified, h.checked⟩ (fun _ _ _ _ _ _ hf hok hq => ?_)
      (fun k reg rd d hin hrd hd _ => ?_) hh
    · -- the register held no signature of the broadcaster
      obtain ⟨reg, hr, hhash, hsig⟩ := hf hq
      exact ⟨reg, hr, .inr (.inl (by rw [hhash, hsig]; exact hok))⟩
    · subst hin
      have hb := hso.signing.reads rd (List.mem_of_getElem? hrd)
      have hread : c.correct rd.replica = true → c.ReadBy s p rd.replica rd.index reg :=
        fun hq => ⟨rd, hb, rfl, rfl, ha rd hrd hq,
          hgood rd hrd hq (Option.isSome_iff_exists.mpr ⟨d, hd⟩)⟩
      refine ⟨fun hq => ⟨reg, hread hq, rfl, rfl⟩, fun hok hq => ⟨reg, hread hq, ?_⟩⟩
      rcases hok with hlt | hsig
      · exact .inl (hso.tail ▸ hlt)
      · -- the signature held is the one that was verified
        obtain ⟨m, hm, hmi, sig, hver, hheld⟩ := (hso.signing.begun rd hb).1
        have := (hheld d.held (Receiver.held_of_find? hd)).symm.trans hsig
        cases this
        exact .inr (.inr ⟨m, hm, hmi, hver⟩)
  refine ⟨hs.checks, hs.verified, hs.checked, fun m hm => ?_⟩
  have hg := Receiver.Grows.handle hh
  rw [hg.others]
  have keep : r.polled = (s p).polled → m ∈ r.received ∧
      ((∀ q ∈ (s p).others, c.Took s q m) ∨ ∀ q ∈ (s p).others, c.Cleared s p q (index m)) :=
    fun he => ⟨hg.received m (h.polled m (he ▸ hm)).1, (h.polled m (he ▸ hm)).2⟩
  cases Receiver.recorded_handle hh with
  | quiet hq => exact keep hq.polled
  | message hf hs he => exact keep hs.polled
  | echo hq hl hs he => exact keep hs.polled
  | @poll i d _ hi hpl he =>
      rw [he] at hm
      rcases List.mem_append.mp hm with hm | hm
      · exact ⟨hg.received m (h.polled m hm).1, (h.polled m hm).2⟩
      · have hd := OrdMap.find?_of_first? hi
        have hheld := Receiver.held_of_find? hd
        obtain ⟨hrec, hidx⟩ := hso.fifo.held_received i d.held hheld
        rw [List.mem_singleton.mp hm]
        refine ⟨hg.received _ hrec, ?_⟩
        unfold MessageData.pollable at hpl
        simp only [Bool.or_eq_true, Bool.and_eq_true, decide_eq_true_eq] at hpl
        rcases hpl with ⟨hlen, hma⟩ | hlen
        · exact .inl fun q hq => took_of_echoes hec hd hlen hma hq
        · refine .inr fun q hq => ?_
          have hmem := hso.counted.mem_checkedReceivers hheld hlen hq
          exact hidx ▸ h.checked i d.held hheld q hmem

/-! ### Reads that cross -/

/-- Of two receivers that read each other for one index, one began when the other had
completed its WRITE. -/
def Crossed (c : Config) (s : System) : Prop :=
  ∀ p q, p ≠ q → ∀ rd ∈ (s p).begun, ∀ rd' ∈ (s q).begun, rd.replica = q → rd'.replica = p →
    rd.index = rd'.index → writtenIncarnation c.tail rd.index ≤ rd.since ∨
      writtenIncarnation c.tail rd.index ≤ rd'.since

/-- What a step begins to read, and since when. -/
theorem begun_step {l : ProcId × Input} (hs : ∀ p, c.Sound (s p) p) (hst : c.Step s l s')
    {rd : Read} (hr : rd ∈ (s' p).begun) :
    rd ∈ (s p).begun ∨ p = l.1 ∧ rd.replica ∈ c.ids ∧
      rd.since = (s rd.replica).completed (rd.index % c.tail) := by
  obtain ⟨-, -, ha, r, hh, rfl⟩ := step_cases hst
  by_cases hp : p = l.1
  · subst hp
    rw [Function.update_self] at hr
    have hkeep : ∀ r', (s l.1).SameSlow r' → ∀ x ∈ r'.begun, x ∈ (s l.1).begun :=
      fun r' h x hx => h.begun ▸ hx
    obtain ⟨p, inp⟩ := l
    cases inp with
    | message m =>
        rcases Receiver.handleMessage_cases hh with rfl | ⟨-, hh⟩
        · exact .inl hr
        · exact .inl ((Receiver.sameSlow_replayEchoes hh).begun ▸ hr)
    | echo q e =>
        simp only [Receiver.handle] at hh
        split at hh
        · exact .inl (hkeep r (Receiver.handleEcho_cases hh) rd hr)
        · cases hh; exact .inl hr
    | signature i sig =>
        rcases Receiver.handleSignature_cases hh with rfl | ⟨d, -, -, rfl⟩ <;> exact .inl hr
    | finishCheck k =>
        cases hh
        rcases Receiver.finishCheck_cases c.crypto (s p) k with he | ⟨ck, -, he⟩ <;>
          exact .inl (by rw [he] at hr; exact hr)
    | dropCheck k => cases hh; exact .inl hr
    | pollSignatureVerification =>
        rcases Receiver.pollSignatureVerification_cases hh with
          rfl | ⟨v, vs, -, ⟨-, rfl⟩ | ⟨d, -, ⟨-, -, hw⟩ | ⟨q, -, -, rfl⟩⟩⟩
        · exact .inl hr
        · exact .inl hr
        · obtain ⟨sig, -, -, -, rfl⟩ := Receiver.write_cases hw
          exact .inl hr
        · exact .inl hr
    | writeCompletion slot since =>
        cases hh
        rcases Receiver.pollWriteCompletion_cases (s p) slot since with
          he | ⟨i, hi, ⟨-, he⟩ | ⟨d, -, he⟩⟩
        · rw [he] at hr; exact .inl hr
        · rw [he] at hr; exact .inl hr
        · rw [he] at hr
          rcases List.mem_append.mp hr with hr | hr
          · exact .inl hr
          · obtain ⟨q, hq, rfl⟩ := List.mem_map.mp hr
            have hqi : q ∈ c.ids := List.mem_of_mem_erase ((hs p).others ▸ hq)
            refine .inr ⟨rfl, hqi, ?_⟩
            rw [← (hs p).tail, ← ((hs p).signing.writes slot i hi).1]
            exact ha q hqi
    | readCompletion k reg =>
        rcases Receiver.pollReadCompletion_cases hh with
          rfl | ⟨x, -, -, ⟨-, rfl⟩ | ⟨d, -, ⟨-, rfl⟩ | ⟨-, rfl⟩⟩⟩ <;> exact .inl hr
    | poll =>
        cases hh
        rcases Receiver.poll_cases (s p) with he | ⟨i, d, -, -, he⟩ <;>
          exact .inl (by rw [he] at hr; exact hr)
    | toggleSlowPath b => cases hh; exact .inl hr
  · rw [Function.update_of_ne hp] at hr
    exact .inl hr

/-- Two receivers cannot both have missed the other. -/
theorem crossed_step {l : ProcId × Input} (hs : ∀ p, c.Sound (s p) p) (h : c.Crossed s)
    (hst : c.Step s l s') : c.Crossed s' := by
  intro p q hpq rd hrd rd' hrd' hq hp hi
  -- a read that begins sees the WRITE of a receiver that began before
  have seen : ∀ {x y : ProcId} {a b : Read}, a.since = (s a.replica).completed (a.index % c.tail) →
      a.replica = y → b ∈ (s y).begun → a.index = b.index →
      writtenIncarnation c.tail a.index ≤ a.since := by
    intro x y a b ha hy hb hab
    have := ((hs y).signing.begun b hb).2
    rw [ha, hy, hab, ← (hs y).tail]
    exact this
  rcases begun_step hs hst hrd with hrd | ⟨hpl, -, hsince⟩
  · rcases begun_step hs hst hrd' with hrd' | ⟨-, -, hsince'⟩
    · exact h p q hpq rd hrd rd' hrd' hq hp hi
    · have := seen (x := p) hsince' hp hrd hi.symm
      exact .inr (by rw [hi]; exact this)
  · rcases begun_step hs hst hrd' with hrd' | ⟨hql, -, -⟩
    · exact .inl (seen (x := p) hsince hq hrd' hi)
    · exact absurd (hpl.trans hql.symm) hpq

/-! ### Agreement -/

/-- The invariant of the system. -/
structure Inv (c : Config) (s : System) : Prop where
  sound : ∀ p, c.Sound (s p) p
  echoed : ∀ p, Echoed (c.Took s) (c.Sent s) (s p)
  scan : ∀ p, c.Scan s p (s p)
  crossed : c.Crossed s

theorem inv_init : c.Inv c.start := by
  refine ⟨c.sound_start, fun p => ⟨?_, ?_, ?_, ?_⟩, fun p => ⟨?_, ?_, ?_, ?_⟩, ?_⟩
  · exact fun _ _ h => nomatch h
  · exact fun _ _ h => nomatch h
  · exact fun _ _ h => nomatch h
  · exact fun _ _ h => nomatch h
  · exact fun _ h => nomatch h
  · exact fun _ h => nomatch h
  · exact fun _ _ h => nomatch h
  · exact fun _ h => nomatch h
  · exact fun _ _ _ _ h => nomatch h

theorem inv_step {l : ProcId × Input} (h : c.Inv s) (hg : c.Good s l) (hst : c.Step s l s') :
    c.Inv s' := by
  refine ⟨sound_step h.sound hst, echoed_step h.sound h.echoed hg hst, fun p => ?_,
    crossed_step h.sound h.crossed hst⟩
  obtain ⟨-, -, ha, r, hr, heq⟩ := step_cases hst
  refine Scan.later (later_step hst) ?_
  by_cases hp : p = l.1
  · subst hp
    rw [heq, Function.update_self]
    exact scan_handle (h.sound _) (h.echoed _) (h.scan _) ha hg hr
  · rw [heq, Function.update_of_ne hp]
    exact h.scan p

theorem inv_of_reachable (h : Reachable c.Init c.Step c.Good s) : c.Inv s :=
  h.induct (fun _ hs => hs ▸ inv_init) fun _ _ _ _ hi hg hst => inv_step hi hg hst

/-- A register read after it was written holds a signature of a message its owner took. -/
theorem written_of_regular (hs : c.Sound (s q) q) {rd : Read} {slot : Nat} {reg : Register}
    (hr : Regular (s q) rd slot reg) (hpos : 0 < rd.since) :
    ∃ m ∈ (s q).received, reg.hash = c.crypto.blake3 m ∧
      c.crypto.verify reg.signature (c.crypto.blake3 m) = true := by
  rcases hr.2 with hz | ⟨hw, -⟩
  · exact absurd (hpos.trans_le (hr.1.trans hz.le)) (lt_irrefl _)
  · obtain ⟨m, hm, sig, rfl, hv⟩ := hs.signing.written reg hw
    exact ⟨m, hm, rfl, hv⟩

/-- One of two slow deliveries read the register of the other after it was written. -/
theorem eq_of_cleared (hs : ∀ p, c.Sound (s p) p)
    (hsig : ∀ sig h h', c.crypto.verify sig h = true → c.crypto.verify sig h' = true → h = h')
    (hcf : c.CollisionFree s) (hp : p ∈ c.ids) (hq : q ∈ c.ids) {m m' : Bytes}
    (hm : m ∈ (s p).received) (hm' : m' ∈ (s q).received) (hi : index m = index m')
    {rd : Read} {reg : Register}
    (hr : Regular (s q) rd (index m % c.tail) reg) (hbits : index m / c.tail + 1 < 2 ^ 32)
    (hsince : writtenIncarnation c.tail (index m) ≤ rd.since)
    (hcase : reg.incarnation < expectedIncarnation c.tail (index m) ∨
      c.crypto.verify reg.signature reg.hash = false ∨
        ∃ m₁ ∈ (s p).received, index m₁ = index m ∧
          c.crypto.verify reg.signature (c.crypto.blake3 m₁) = true) : m = m' := by
  rw [writtenIncarnation_of_lt hbits] at hsince
  have hpos : 0 < expectedIncarnation c.tail (index m) := by
    rw [expectedIncarnation, Nat.mod_eq_of_lt (hbits.trans (by decide))]
    exact Nat.succ_pos _
  obtain ⟨m₂, hm₂, hhash, hv⟩ := written_of_regular (hs q) hr (hpos.trans_le hsince)
  rcases hcase with hlt | hno | ⟨m₁, hm₁, hi₁, hv₁⟩
  · exact absurd (hlt.trans_le (hsince.trans hr.1)) (lt_irrefl _)
  · rw [hhash, hv] at hno
    cases hno
  · -- one signature for both messages: they are one, and it is the one taken under the index
    have h₁ : m₁ = m := (hs p).fifo.unique m₁ hm₁ m hm hi₁
    have h₁₂ : m₁ = m₂ := hcf p hp q hq m₁ hm₁ m₂ hm₂ (hsig _ _ _ hv₁ hv)
    exact (hs q).fifo.unique m (by rw [← h₁, h₁₂]; exact hm₂) m' hm' hi

/-- **Agreement.**  In a run where no echo of a correct receiver looks like the echo of another
message, and registers are read for messages whose incarnation has 32 bits, two correct receivers
poll the same message under an index. -/
theorem polled_agree (h : Reachable c.Init c.Step c.Good s)
    (hsig : ∀ sig h h', c.crypto.verify sig h = true → c.crypto.verify sig h' = true → h = h')
    (hcf : c.CollisionFree s) (hp : p ∈ c.ids) (hq : q ∈ c.ids) (hcp : c.correct p = true)
    (hcq : c.correct q = true) {m m' : Bytes} (hm : m ∈ (s p).polled) (hm' : m' ∈ (s q).polled)
    (hi : index m = index m') : m = m' := by
  have inv := inv_of_reachable h
  obtain ⟨hrm, hm⟩ := (inv.scan p).polled m hm
  obtain ⟨hrm', hm'⟩ := (inv.scan q).polled m' hm'
  by_cases hpq : p = q
  · subst hpq
    exact (inv.sound p).fifo.unique m hrm m' hrm' hi
  · have hqo : q ∈ (s p).others := by
      rw [(inv.sound p).others]; exact (List.mem_erase_of_ne (Ne.symm hpq)).mpr hq
    have hpo : p ∈ (s q).others := by
      rw [(inv.sound q).others]; exact (List.mem_erase_of_ne hpq).mpr hp
    rcases hm with ht | hc
    · obtain ⟨m₁, hm₁, hb⟩ := ht q hqo hcq
      have h₁ : m₁ = m := hcf q hq p hp m₁ hm₁ m hrm hb
      exact (inv.sound q).fifo.unique m (h₁ ▸ hm₁) m' hrm' hi
    · rcases hm' with ht' | hc'
      · obtain ⟨m₁, hm₁, hb⟩ := ht' p hpo hcp
        have h₁ : m₁ = m' := hcf p hp q hq m₁ hm₁ m' hrm' hb
        exact (inv.sound p).fifo.unique m hrm m' (h₁ ▸ hm₁) hi
      · -- both by the slow path: one of the two reads came after the other's WRITE
        obtain ⟨reg, ⟨rd, hrd, hrq, hri, hreg, hbits⟩, hcase⟩ := hc q hqo hcq
        obtain ⟨reg', ⟨rd', hrd', hrp, hri', hreg', hbits'⟩, hcase'⟩ := hc' p hpo hcp
        have hii : rd.index = rd'.index := by rw [hri, hri', hi]
        rcases inv.crossed p q hpq rd hrd rd' hrd' hrq hrp hii with hs | hs
        · exact eq_of_cleared inv.sound hsig hcf hp hq hrm hrm' hi hreg hbits (hri ▸ hs) hcase
        · refine (eq_of_cleared inv.sound hsig hcf hq hp hrm' hrm hi.symm hreg' hbits' ?_
            hcase').symm
          rw [← hri', ← hii]
          exact hs

end Config

/-! ### Two messages under one index -/

namespace Example

/-- Two receivers, both correct.  A signature is the hash it signs. -/
def config : Config where
  crypto :=
    { blake3 := fun m => (m ++ List.replicate 32 0).take 32
      length_blake3 := length_take_padded
      verify := fun sig h => sig == h }
  tail := 4
  tail_pos := four_pos
  ids := [0, 1]
  nodup := nodup_pair
  correct := fun _ => true

/-- Message 0 with data `[1]`. -/
def short : Bytes := [0, 0, 0, 0, 0, 0, 0, 0, 1]

/-- Message 0 with data `[1, 2]`. -/
def long : Bytes := short ++ [2]

/-- Receiver 0 takes the echo of the long message for one of the short message; receiver 1
writes the signature of the long one and finds nothing in the registers of receiver 0. -/
def equivocation : List (ProcId × Input) :=
  [(0, .message short), (1, .message long), (0, .echo 1 ⟨long, fun _ => 0⟩), (0, .poll),
    (1, .toggleSlowPath true), (1, .signature 0 (config.crypto.blake3 long)),
    (1, .finishCheck 0), (1, .pollSignatureVerification), (1, .writeCompletion 0 fun _ => 0),
    (1, .readCompletion 0 ⟨0, 0, [], []⟩), (1, .poll)]

/-- Both receivers take the long message. -/
def broadcast : List (ProcId × Input) :=
  [(0, .message long), (1, .message long), (0, .echo 1 ⟨long, fun _ => 0⟩),
    (1, .echo 0 ⟨long, fun _ => 0⟩), (0, .poll), (1, .poll)]

theorem verify_inj (sig h h' : Bytes) (hv : config.crypto.verify sig h = true)
    (hv' : config.crypto.verify sig h' = true) : h = h' :=
  (beq_iff_eq.mp hv).symm.trans (beq_iff_eq.mp hv')

/-- The steps that are good. -/
def goodNext (s : System) (l : ProcId × Input) : Option System :=
  if config.Good s l then config.next s l else none

/-- The steps of the run are good. -/
theorem good_of_goodNext (s : System) (l : ProcId × Input) (s' : System)
    (h : goodNext s l = some s') : config.Good s l ∧ config.Step s l s' := by
  unfold goodNext at h
  split at h
  · next hg => exact ⟨hg, h⟩
  · cases h

end Example

/-- Receiver 0 polls the short message, receiver 1 the long one. -/
theorem polled_differ :
    ¬ ∀ c : Config,
        (∀ sig h h', c.crypto.verify sig h = true → c.crypto.verify sig h' = true → h = h') →
        ∀ s : System, Reachable c.Init c.Step Always s → c.CollisionFree s →
          ∀ p ∈ c.ids, ∀ q ∈ c.ids, c.correct p = true → c.correct q = true →
            ∀ m ∈ (s p).polled, ∀ m' ∈ (s q).polled, index m = index m' → m = m' := by
  intro h
  have hrun : (runs Example.config.next Example.config.start Example.equivocation).any (fun s =>
      Example.config.CollisionFree s ∧ (s 0).polled = [Example.short] ∧
        (s 1).polled = [Example.long]) := by
    decide +kernel
  obtain ⟨s, hs, hc⟩ := (Option.any_eq_true _ _).mp hrun
  obtain ⟨hcf, h₀, h₁⟩ := of_decide_eq_true hc
  have hr : Reachable Example.config.Init Example.config.Step Always s :=
    reachable_of_runs (fun _ _ _ h => ⟨trivial, h⟩) (.init rfl) hs
  have := h Example.config Example.verify_inj s hr hcf 0 (by decide) 1 (by decide) rfl rfl
    Example.short (by rw [h₀]; exact List.mem_cons_self)
    Example.long (by rw [h₁]; exact List.mem_cons_self) (by decide)
  exact absurd this (by decide)

/-- Agreement, where both receivers take the long message by their echoes. -/
theorem polled_agree_long : ∃ s, Reachable Example.config.Init Example.config.Step
    Example.config.Good s ∧ ∃ m ∈ (s 0).polled, ∃ m' ∈ (s 1).polled, m = m' := by
  have hrun : (runs Example.goodNext Example.config.start Example.broadcast).any (fun s =>
      Example.config.CollisionFree s ∧ (s 0).polled = [Example.long] ∧
        (s 1).polled = [Example.long]) := by
    decide +kernel
  obtain ⟨s, hs, hc⟩ := (Option.any_eq_true _ _).mp hrun
  obtain ⟨hcf, h₀, h₁⟩ := of_decide_eq_true hc
  have hr : Reachable Example.config.Init Example.config.Step Example.config.Good s :=
    reachable_of_runs Example.good_of_goodNext (.init rfl) hs
  have hm₀ : Example.long ∈ (s 0).polled := by rw [h₀]; exact List.mem_cons_self
  have hm₁ : Example.long ∈ (s 1).polled := by rw [h₁]; exact List.mem_cons_self
  exact ⟨s, hr, _, hm₀, _, hm₁, Config.polled_agree hr Example.verify_inj hcf (by decide)
    (by decide) rfl rfl hm₀ hm₁ rfl⟩

end Ubft.Broadcast
