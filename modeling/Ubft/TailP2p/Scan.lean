import Ubft.TailP2p.Memory

/-!
# TailP2p — what the receiver scans

The receiver looks for the message `b` in its slot.  Once it finds a later one there, it scans the
slots in order: `p` is the last message scanned, and all the messages in memory are later than `b`.
The next slot holds `p + 1 - tail`, the falling edge, or something later than `p`.
-/

namespace Ubft.TailP2p

open Ubft.Ring (Holds)

namespace State

variable {cfg : Config} {m m' : Nat}

/-! ### Identifiers -/

theorem msgId_zero (cfg : Config) : msgId cfg 0 = .first := by
  rw [msgId, Nat.zero_div, Nat.zero_mod]
  rfl

/-- Few messages keep their incarnations from wrapping. -/
theorem toNat_incarnation (hm : m < cfg.tail * (2 ^ 32 - 1)) :
    (msgId cfg m).incarnation.toNat = m / cfg.tail + 1 := by
  have := Nat.div_lt_of_lt_mul hm
  rw [msgId, UInt32.toNat_ofNat', Nat.mod_eq_of_lt (by omega)]

/-- Identifiers are in the order of the messages. -/
theorem msgId_lt (hm : m < cfg.tail * (2 ^ 32 - 1)) (hm' : m' < cfg.tail * (2 ^ 32 - 1)) :
    msgId cfg m < msgId cfg m' ↔ m < m' := by
  have ht : 0 < cfg.tail := Nat.pos_of_ne_zero fun h0 => by
    rw [h0, Nat.zero_mul] at hm
    exact Nat.not_lt_zero _ hm
  have hd := Nat.div_add_mod m cfg.tail
  have hd' := Nat.div_add_mod m' cfg.tail
  have hr := Nat.mod_lt m ht
  have hr' := Nat.mod_lt m' ht
  change _ ∨ _ ↔ _
  rw [UInt32.lt_iff_toNat_lt, ← UInt32.toNat_inj, toNat_incarnation hm, toNat_incarnation hm']
  change m / cfg.tail + 1 < m' / cfg.tail + 1 ∨
    m / cfg.tail + 1 = m' / cfg.tail + 1 ∧ m % cfg.tail < m' % cfg.tail ↔ m < m'
  constructor
  · rintro (h | ⟨h, h'⟩)
    · have := Nat.mul_le_mul_left cfg.tail (Nat.lt_of_succ_lt_succ h)
      rw [Nat.mul_succ] at this
      omega
    · rw [Nat.succ.inj h] at hd
      omega
  · intro h
    rcases Nat.lt_or_eq_of_le (Nat.div_le_div_right (c := cfg.tail) (Nat.le_of_lt h)) with hlt | he
    · exact .inl (Nat.succ_lt_succ hlt)
    · rw [he] at hd
      exact .inr ⟨congrArg _ he, by omega⟩

/-- A slot and an incarnation tell the message. -/
theorem msgId_inj (hm : m < cfg.tail * (2 ^ 32 - 1)) (hm' : m' < cfg.tail * (2 ^ 32 - 1))
    (h : (msgId cfg m).incarnation = (msgId cfg m').incarnation)
    (hi : m % cfg.tail = m' % cfg.tail) : m = m' := by
  have h := congrArg UInt32.toNat h
  rw [toNat_incarnation hm, toNat_incarnation hm'] at h
  rw [← Nat.div_add_mod m cfg.tail, ← Nat.div_add_mod m' cfg.tail, hi, Nat.succ.inj h]

/-- The identifier of the next message. -/
theorem successor_msgId (ht : 0 < cfg.tail) (m : Nat) :
    (msgId cfg m).successor cfg = msgId cfg (m + 1) := by
  have hd := Nat.div_add_mod m cfg.tail
  have hr := Nat.mod_lt m ht
  unfold MsgId.successor
  split
  · next h =>
      have hr' : m % cfg.tail + 1 = cfg.tail := Nat.le_antisymm hr h
      have hm : m + 1 = cfg.tail * (m / cfg.tail + 1) := by
        rw [Nat.mul_succ]
        omega
      rw [msgId, msgId, hm, Nat.mul_div_cancel_left _ ht, Nat.mul_mod_right]
      exact congrArg (MsgId.mk · 0) (UInt32.ofNat_add _ 1).symm
  · next h =>
      have hm : m + 1 = m % cfg.tail + 1 + cfg.tail * (m / cfg.tail) := by omega
      have hlt : m % cfg.tail + 1 < cfg.tail := Nat.not_le.mp h
      rw [msgId, msgId, hm, Nat.add_mul_div_left _ _ ht, Nat.div_eq_of_lt hlt, Nat.zero_add,
        Nat.add_mul_mod_self_left, Nat.mod_eq_of_lt hlt]

end State

/-! ### The cursors -/

namespace Cursors

open State

variable {cfg : Config} {n n' b y : Nat} {phase : Option Nat} {c : Cursors}

/-- The message whose slot is scanned. -/
def target (b : Nat) (phase : Option Nat) : Nat := phase.elim b (· + 1)

/-- The cursors, when the incarnations of the first `n` messages landed. -/
structure At (cfg : Config) (n b : Nat) (phase : Option Nat) (c : Cursors) : Prop where
  best : c.bestToDeliver = msgId cfg b
  next : c.nextToScan = msgId cfg (target b phase)
  looking : phase = none → ∀ id ∈ c.maxScannedStraggling,
    ∃ max < n, id = msgId cfg max ∧ max + 2 ≤ b + cfg.tail
  scanning : ∀ p ∈ phase, c.maxScannedStraggling = some (msgId cfg p) ∧ p < n ∧ b + cfg.tail ≤ p

/-- What may be read in the slot. -/
structure Reads (cfg : Config) (n b : Nat) (phase : Option Nat) (y : Nat) : Prop where
  slot : y % cfg.tail = target b phase % cfg.tail
  landed : y < n
  best : b ≤ y
  scanning : ∀ p ∈ phase, p + 1 ≤ y + cfg.tail

/-- The message scanned is one of the slot. -/
theorem Reads.index (h : Reads cfg n b phase y) (hc : At cfg n' b phase c) :
    c.nextToScan.index = y % cfg.tail := by
  rw [hc.next]
  exact h.slot.symm

theorem At.mono (h : At cfg n b phase c) (hn : n ≤ n') : At cfg n' b phase c :=
  ⟨h.best, h.next, fun hp id hid => by
    obtain ⟨max, hlt, hrest⟩ := h.looking hp id hid
    exact ⟨max, Nat.lt_of_lt_of_le hlt hn, hrest⟩,
    fun p hp => ⟨(h.scanning p hp).1, Nat.lt_of_lt_of_le (h.scanning p hp).2.1 hn,
      (h.scanning p hp).2.2⟩⟩

theorem Reads.mono (h : Reads cfg n b phase y) (hn : n ≤ n') : Reads cfg n' b phase y :=
  ⟨h.slot, Nat.lt_of_lt_of_le h.landed hn, h.best, h.scanning⟩

/-- The scan is at the first message. -/
theorem at_start (cfg : Config) : At cfg 0 0 none {} :=
  ⟨(msgId_zero cfg).symm, (msgId_zero cfg).symm, fun _ => nofun, nofun⟩

/-- The receiver wants the message it looks for, or the one that is a lap before the next one to
scan. -/
theorem wants_iff (hn : n ≤ cfg.tail * (2 ^ 32 - 1)) (h : At cfg n b phase c)
    (hy : Reads cfg n b phase y) : c.Wants (msgId cfg y) ↔
      (phase = none ∧ y = b) ∨ ∃ p ∈ phase, y + cfg.tail = p + 1 ∧ y < p := by
  have hyn := Nat.lt_of_lt_of_le hy.landed hn
  have hbn := Nat.lt_of_le_of_lt hy.best hyn
  have hbest : msgId cfg y = c.bestToDeliver ↔ y = b := by
    rw [h.best]
    refine ⟨fun he => ?_, fun he => congrArg _ he⟩
    exact msgId_inj hyn hbn (congrArg MsgId.incarnation he) (congrArg MsgId.index he)
  unfold Wants
  rw [hbest]
  -- looking for the best one, or going round after a straggling one
  cases phase with
  | none =>
      constructor
      · rintro (rfl | ⟨id, hid, hlt⟩)
        · exact .inl ⟨rfl, rfl⟩
        · obtain ⟨max, hmax, rfl, hle⟩ := h.looking rfl id hid
          have hlt := (msgId_lt hyn (Nat.lt_of_lt_of_le hmax hn)).mp hlt
          exact .inl ⟨rfl, Ring.eq_of_mod_eq hy.slot (by omega)
            (Nat.lt_of_le_of_lt hy.best (by omega))⟩
      · rintro (⟨-, rfl⟩ | ⟨p, hp, -⟩)
        · exact .inl rfl
        · cases hp
  | some p =>
      obtain ⟨hmax, hp, hle⟩ := h.scanning p rfl
      have hlap := hy.scanning p rfl
      have hlt : (∃ max ∈ c.maxScannedStraggling, msgId cfg y < max) ↔ y < p := by
        rw [hmax, ← msgId_lt hyn (Nat.lt_of_lt_of_le hp hn)]
        exact ⟨fun ⟨max, he, hlt⟩ => Option.mem_some_iff.mp he ▸ hlt, fun hlt => ⟨_, rfl, hlt⟩⟩
      rw [hlt]
      constructor
      · rintro (rfl | hlt)
        · omega
        · refine .inr ⟨p, rfl, ?_, hlt⟩
          have hmod : (y + cfg.tail) % cfg.tail = (p + 1) % cfg.tail := by
            rw [Nat.add_mod_right]
            exact hy.slot
          exact Ring.eq_of_mod_eq hmod (by omega) (by omega)
      · rintro (⟨hp, -⟩ | ⟨p', hp, -, hlt⟩)
        · cases hp
        · cases hp
          exact .inr hlt

/-- No message in memory is skipped. -/
theorem le_of_wants (hn : n ≤ cfg.tail * (2 ^ 32 - 1)) (h : At cfg n b phase c)
    (hy : Reads cfg n b phase y) (hw : c.Wants (msgId cfg y)) {m : Nat} (hm : n ≤ m + cfg.tail)
    (hb : b ≤ m) : y ≤ m := by
  rcases (wants_iff hn h hy).mp hw with ⟨-, rfl⟩ | ⟨p, hp, he, -⟩
  · exact hb
  · have := (h.scanning p hp).2.1
    omega

/-- A delivered message is passed. -/
theorem At.deliver (ht : 0 < cfg.tail) (hn : n ≤ cfg.tail * (2 ^ 32 - 1))
    (h : At cfg n b phase c) (hy : Reads cfg n b phase y) (hw : c.Wants (msgId cfg y)) :
    At cfg n (y + 1) none (c.deliver cfg (msgId cfg y)) := by
  refine ⟨successor_msgId ht y, successor_msgId ht y, fun _ id hid => ?_, nofun⟩
  rcases (wants_iff hn h hy).mp hw with ⟨rfl, rfl⟩ | ⟨p, hp, he, -⟩
  · obtain ⟨max, hmax, he, hle⟩ := h.looking rfl id hid
    exact ⟨max, hmax, he, by omega⟩
  · obtain ⟨hmax, hpn, -⟩ := h.scanning p hp
    change id ∈ c.maxScannedStraggling at hid
    rw [hmax] at hid
    cases hid
    exact ⟨p, hpn, rfl, by omega⟩

theorem At.straggle (ht : 0 < cfg.tail) (hn : n ≤ cfg.tail * (2 ^ 32 - 1))
    (h : At cfg n b phase c) (hy : Reads cfg n b phase y) (hw : ¬ c.Wants (msgId cfg y)) :
    At cfg n b (some y) (c.straggle cfg (msgId cfg y)) := by
  refine ⟨h.best, successor_msgId ht y, nofun, fun p hp => ?_⟩
  cases hp
  refine ⟨rfl, hy.landed, ?_⟩
  rw [wants_iff hn h hy] at hw
  cases hph : phase with
  | none =>
      subst hph
      have hne : b ≠ y := fun he => hw (.inl ⟨rfl, he.symm⟩)
      exact Ring.add_le_of_mod_eq hy.slot.symm (Nat.lt_of_le_of_ne hy.best hne)
  | some p =>
      subst hph
      have hb := (h.scanning p rfl).2.2
      refine hb.trans (Nat.not_lt.mp fun hlt => hw (.inr ⟨p, rfl, ?_, hlt⟩))
      have hlap := hy.scanning p rfl
      have hmod : (y + cfg.tail) % cfg.tail = (p + 1) % cfg.tail := by
        rw [Nat.add_mod_right]
        exact hy.slot
      exact Ring.eq_of_mod_eq hmod (by omega) (by omega)

end Cursors

/-! ### The receiver -/

namespace State

open Cursors (At Reads)

variable {cfg : Config} {s s' : State} {b y x : Nat} {phase : Option Nat}

theorem Memory.few' (h : Memory cfg s) : s.incarnations ≤ cfg.tail * (2 ^ 32 - 1) :=
  (s.incarnations_le_hashes.trans (h.hashes_le_nextSend.trans
    (h.sender.sendBefore.trans h.sender.nextSlot))).trans (Nat.le_of_lt h.few)

/-- What is in the slot that the receiver scans. -/
theorem exists_reads (h : Memory cfg s) {c : Cursors} (hc : At cfg s.incarnations b phase c)
    (hb : b < cfg.tail * (2 ^ 32 - 1))
    (hi : ¬ (s.slots c.nextToScan.index).incarnation < c.bestToDeliver.incarnation) :
    ∃ y, Reads cfg s.incarnations b phase y ∧ s.incarnations ≤ y + cfg.tail ∧
      (s.slots c.nextToScan.index).incarnation = (msgId cfg y).incarnation := by
  have hidx : c.nextToScan.index = Cursors.target b phase % cfg.tail := by
    rw [hc.next]
    rfl
  have hlt := Nat.mod_lt (Cursors.target b phase) h.tail_pos
  rw [← hidx] at hlt
  rw [hc.best, UInt32.lt_iff_toNat_lt, toNat_incarnation hb] at hi
  rcases Nat.lt_or_ge c.nextToScan.index s.incarnations with hn | hn
  · obtain ⟨y, hy, hlap, hmod⟩ := Ring.exists_newest h.tail_pos hlt hn
    have hinc := h.incarnation y hy hlap
    rw [hmod] at hinc
    refine ⟨y, ⟨hmod.trans hidx, hy, ?_, fun p hp => ?_⟩, hlap, hinc⟩
    · cases hph : phase with
      | none =>
          rw [hinc, toNat_incarnation (Nat.lt_of_lt_of_le hy h.few')] at hi
          rw [hidx, hph] at hmod
          change y % cfg.tail = b % cfg.tail at hmod
          rw [← Nat.div_add_mod b cfg.tail, ← Nat.div_add_mod y cfg.tail, hmod]
          exact Nat.add_le_add_right (Nat.mul_le_mul_left _ (by omega)) _
      | some p =>
          obtain ⟨-, hp, hbp⟩ := hc.scanning p hph
          omega
    · have := (hc.scanning p hp).2.1
      omega
  · rw [h.fresh _ hlt hn] at hi
    exact absurd (Nat.succ_pos _) hi

/-- The hash that was read is that of the message, or of one that is landing over it. -/
structure Hashed (cfg : Config) (s : State) (y x : Nat) (hash : UInt64) : Prop where
  slot : x % cfg.tail = y % cfg.tail
  le : y ≤ x
  landed : x < s.hashes
  hash : hash = cfg.hash (s.message x)

/-- What was read in the slot. -/
def Progress (cfg : Config) (s : State) (b : Nat) (phase : Option Nat) : Pc → Prop
  | .idle | .scan _ => True
  | .hash _ incarnation => ∃ y, Reads cfg s.incarnations b phase y ∧
    incarnation = (msgId cfg y).incarnation
  | .size _ incarnation hash => ∃ y x, Reads cfg s.incarnations b phase y ∧
    incarnation = (msgId cfg y).incarnation ∧ s.Hashed cfg y x hash
  | .copy _ incarnation hash size buffer => ∃ y x, Reads cfg s.incarnations b phase y ∧
    incarnation = (msgId cfg y).incarnation ∧ s.Hashed cfg y x hash ∧
    s.receiver.cursors.Wants (msgId cfg y) ∧
    (y < x → s.incarnations ≤ y + cfg.tail → size = (s.message y).length ∧
      ∀ k < size, ∀ v ∈ buffer k, v = (s.message y).getD k 0)

/-- The message `m` as it is delivered. -/
def delivery (cfg : Config) (s : State) (m : Nat) : Delivery := ⟨msgId cfg m, s.message m⟩

/-- The receiver delivered some of the messages below `b`, and among them those in memory. -/
structure Scans (cfg : Config) (s : State) (b : Nat) (phase : Option Nat) : Prop where
  cursors : At cfg s.incarnations b phase s.receiver.cursors
  best : b ≤ s.incarnations
  sublist : s.receiver.delivered.Sublist ((List.range b).map (s.delivery cfg))
  last : ∀ m < b, s.incarnations ≤ m + cfg.tail → s.delivery cfg m ∈ s.receiver.delivered
  progress : s.Progress cfg b phase s.receiver.pc

/-- Something else than the receiver takes a step. -/
structure Later (s s' : State) : Prop where
  receiver : s'.receiver = s.receiver
  hashes : s.hashes ≤ s'.hashes
  incarnations : s.incarnations ≤ s'.incarnations
  message : ∀ m < s.hashes, s'.message m = s.message m

/-- A hash that was read stays in memory, or is overwritten. -/
theorem Hashed.later {hash : UInt64} (h : s.Hashed cfg y x hash) (hl : Later s s') :
    s'.Hashed cfg y x hash :=
  ⟨h.slot, h.le, Nat.lt_of_lt_of_le h.landed hl.hashes,
    h.hash.trans (congrArg cfg.hash (hl.message x h.landed).symm)⟩

/-- What was read may be overwritten. -/
theorem Progress.later {pc : Pc} (h : s.Progress cfg b phase pc) (hl : Later s s') :
    s'.Progress cfg b phase pc := by
  cases pc with
  | idle | scan left => trivial
  | hash left incarnation =>
      obtain ⟨y, hy, hi⟩ := h
      exact ⟨y, hy.mono hl.incarnations, hi⟩
  | size left incarnation hash =>
      obtain ⟨y, x, hy, hi, hh⟩ := h
      exact ⟨y, x, hy.mono hl.incarnations, hi, hh.later hl⟩
  | copy left incarnation hash size buffer =>
      obtain ⟨y, x, hy, hi, hh, hw, hcopy⟩ := h
      refine ⟨y, x, hy.mono hl.incarnations, hi, hh.later hl, hl.receiver ▸ hw, fun hlt hle => ?_⟩
      rw [hl.message y (Nat.lt_of_le_of_lt hh.le hh.landed)]
      exact hcopy hlt (hl.incarnations.trans hle)

/-- The sender and the network go on. -/
theorem Scans.later (h : Scans cfg s b phase) (hl : Later s s') : Scans cfg s' b phase := by
  have hmsg : ∀ m < b, s'.delivery cfg m = s.delivery cfg m := fun m hm =>
    congrArg (Delivery.mk _) (hl.message m
      (Nat.lt_of_lt_of_le hm (h.best.trans s.incarnations_le_hashes)))
  refine ⟨?_, h.best.trans hl.incarnations, ?_, fun m hm hle => ?_, ?_⟩
  · rw [hl.receiver]
    exact h.cursors.mono hl.incarnations
  · rw [hl.receiver, List.map_congr_left fun m hm => hmsg m (List.mem_range.mp hm)]
    exact h.sublist
  · rw [hmsg m hm, hl.receiver]
    exact h.last m hm (hl.incarnations.trans hle)
  · rw [hl.receiver]
    exact h.progress.later hl

/-- All the bytes were copied, and they are those of the message. -/
theorem copied_eq {message : Bytes} {size : Nat} {buffer : Nat → Option UInt8}
    (hs : size = message.length) (hall : ∀ k < size, (buffer k).isSome)
    (h : ∀ k < size, ∀ v ∈ buffer k, v = message.getD k 0) :
    Receiver.copied size buffer = message := by
  refine Eq.trans ?_ (map_getD message)
  rw [Receiver.copied, hs]
  refine List.map_congr_left fun k hk => ?_
  have hk := hs ▸ List.mem_range.mp hk
  obtain ⟨v, hv⟩ := Option.isSome_iff_exists.mp (hall k hk)
  rw [hv, h k hk v hv]
  rfl

/-- While the hash of another message has landed and not its incarnation, the rest of the slot is
that of the message. -/
theorem Hashed.lap (hm : Memory cfg s) {hash : UInt64} (hh : s.Hashed cfg y x hash) (hlt : y < x)
    (hle : s.incarnations ≤ y + cfg.tail) : y < s.landed ∧ s.sizes ≤ y + cfg.tail := by
  have := Ring.add_le_of_mod_eq hh.slot.symm hlt
  have := hh.landed
  have := s.hashes_le
  have := hm.tail_pos
  exact ⟨by omega, s.sizes_le_incarnations.trans hle⟩

/-- What the hash validates is the message, although another one may be landing over it. -/
theorem Hashed.copied (hm : Memory cfg s) {left size : Nat} {incarnation : UInt32} {hash : UInt64}
    {buffer : Nat → Option UInt8} (hpc : s.receiver.pc = .copy left incarnation hash size buffer)
    (hi : s.Intact cfg .receive) (hle : s.incarnations ≤ y + cfg.tail)
    (hall : ∀ k < size, (buffer k).isSome) (hh : s.Hashed cfg y x hash)
    (hcopy : y < x → s.incarnations ≤ y + cfg.tail → size = (s.message y).length ∧
      ∀ k < size, ∀ v ∈ buffer k, v = (s.message y).getD k 0)
    (heq : hash = cfg.hash (Receiver.copied size buffer)) :
    Receiver.copied size buffer = s.message y := by
  rcases Nat.lt_or_eq_of_le hh.le with hlt | rfl
  · obtain ⟨hs, hbytes⟩ := hcopy hlt hle
    exact copied_eq hs hall hbytes
  · have hlt : y < s.written.length := by
      rw [hm.length]
      exact Nat.lt_of_lt_of_le hh.landed (hm.hashes_le_nextSend.trans
        (hm.sender.sendBefore.trans hm.sender.nextSlot))
    have hmem : s.message y ∈ s.written := by
      rw [message, List.getD_eq_getElem?_getD, List.getElem?_eq_getElem hlt]
      exact List.getElem_mem hlt
    change Validates cfg s.written s.receiver.pc at hi
    rw [hpc] at hi
    exact (hi (s.message y) hmem (hh.hash.symm.trans heq)).symm

/-- The receiver delivers what it read. -/
theorem Scans.deliver (hm : Memory cfg s) (h : Scans cfg s b phase)
    (hy : Reads cfg s.incarnations b phase y) (hw : s.receiver.cursors.Wants (msgId cfg y)) :
    Scans cfg { s with receiver :=
      ⟨s.receiver.cursors.deliver cfg (msgId cfg y), .idle,
        s.receiver.delivered ++ [s.delivery cfg y]⟩ } (y + 1) none := by
  refine ⟨h.cursors.deliver hm.tail_pos hm.few' hy hw, hy.landed, ?_, fun m hlt hlast => ?_,
    trivial⟩
  · change (s.receiver.delivered ++ [s.delivery cfg y]).Sublist
      ((List.range (y + 1)).map (s.delivery cfg))
    rw [List.range_succ, List.map_append]
    refine List.Sublist.append (h.sublist.trans ?_) (List.Sublist.refl _)
    exact (List.range_sublist.mpr hy.best).map _
  · rcases Nat.lt_or_ge m b with hmb | hmb
    · exact List.mem_append_left _ (h.last m hmb hlast)
    · have := Cursors.le_of_wants hm.few' h.cursors hy hw hlast hmb
      rw [Nat.le_antisymm (Nat.le_of_lt_succ hlt) this]
      exact List.mem_append_right _ (List.mem_singleton_self _)

/-- The receiver goes on to the next slot. -/
theorem Scans.straggle (hm : Memory cfg s) (h : Scans cfg s b phase)
    (hy : Reads cfg s.incarnations b phase y) (hw : ¬ s.receiver.cursors.Wants (msgId cfg y))
    (left : Nat) :
    Scans cfg { s with receiver := { s.receiver with
      cursors := s.receiver.cursors.straggle cfg (msgId cfg y)
      pc := .again left } } b (some y) :=
  ⟨h.cursors.straggle hm.tail_pos hm.few' hy hw, h.best, h.sublist, h.last, by
    cases left <;> trivial⟩

theorem Scans.receive (hm : Memory cfg s) (h : Scans cfg s b phase)
    (hi : s.Intact cfg .receive) :
    ∃ b' phase', Scans cfg { s with receiver := s.receiver.receive cfg s.slots } b' phase' := by
  have hbound : b < cfg.tail * (2 ^ 32 - 1) := Nat.lt_of_le_of_lt (h.best.trans
    (s.incarnations_le_hashes.trans (hm.hashes_le_nextSend.trans
      (hm.sender.sendBefore.trans hm.sender.nextSlot)))) hm.few
  have hagain : ∀ left, Scans cfg { s with receiver :=
      { s.receiver with pc := .again left } } b phase := fun left =>
    ⟨h.cursors, h.best, h.sublist, h.last, by cases left <;> trivial⟩
  have hscanning : ∀ {y : Nat}, Reads cfg s.incarnations b phase y →
      s.receiver.cursors.scanning (msgId cfg y).incarnation = msgId cfg y := fun hy => by
    rw [Cursors.scanning, h.cursors.next]
    exact congrArg (MsgId.mk _) hy.slot.symm
  have hprog := h.progress
  unfold Receiver.receive
  cases hpc : s.receiver.pc with
  | idle => exact ⟨b, phase, hagain cfg.tail⟩
  | scan left =>
      dsimp only
      split
      · exact ⟨b, phase, hagain 0⟩
      · next hge =>
          obtain ⟨y, hy, -, hinc⟩ := exists_reads hm h.cursors hbound hge
          exact ⟨b, phase, h.cursors, h.best, h.sublist, h.last, y, hy, hinc⟩
  | hash left incarnation =>
      rw [hpc] at hprog
      obtain ⟨y, hy, hinc⟩ := hprog
      -- The incarnation landed after the hash.
      have hidx := hy.index h.cursors
      have hlt := Nat.lt_of_lt_of_le hy.landed s.incarnations_le_hashes
      obtain ⟨x, hx, hlap, hmod⟩ := Ring.exists_newest hm.tail_pos
        (Nat.mod_lt y hm.tail_pos) (Nat.lt_of_le_of_lt (Nat.mod_le y cfg.tail) hlt)
      have hyx : y ≤ x := Nat.not_lt.mp fun hxy => by
        have := Ring.add_le_of_mod_eq hmod hxy
        omega
      -- the hash is that of the last message of the slot whose hash landed
      refine ⟨b, phase, h.cursors, h.best, h.sublist, h.last, y, x, hy, hinc, hmod, hyx, hx, ?_⟩
      rw [hidx, ← hmod]
      exact hm.hash x hx hlap
  | size left incarnation hash =>
      rw [hpc] at hprog
      obtain ⟨y, x, hy, rfl, hh⟩ := hprog
      dsimp only
      rw [hscanning hy]
      split
      · next hw =>
          refine ⟨b, phase, h.cursors, h.best, h.sublist, h.last, y, x, hy, rfl,
            ⟨hh.slot, hh.le, hh.landed, hh.hash⟩, hw, fun hlt hle => ⟨?_, fun _ _ _ => nofun⟩⟩
          have hidx := hy.index h.cursors
          obtain ⟨hlanded, hsizes⟩ := hh.lap hm hlt hle
          change (s.slots s.receiver.cursors.nextToScan.index).size = _
          rw [hidx]
          exact hm.size y (Nat.lt_of_lt_of_le hlanded s.landed_le_sizes) hsizes
      · next hw => exact ⟨b, some y, h.straggle hm hy hw left⟩
  | copy left incarnation hash size buffer =>
      rw [hpc] at hprog
      obtain ⟨y, x, hy, rfl, hh, hw, hcopy⟩ := hprog
      have hidx := hy.index h.cursors
      have hyb := Nat.lt_of_lt_of_le hy.landed hm.few'
      dsimp only
      split
      · next hall =>
          split
          · exact ⟨b, phase, hagain left⟩
          · next heq =>
              split
              · next hhash =>
                  -- The message is still there.
                  have hle : s.incarnations ≤ y + cfg.tail := by
                    obtain ⟨x', hx', hlap, hmod⟩ := Ring.exists_newest hm.tail_pos
                      (Nat.mod_lt y hm.tail_pos)
                      (Nat.lt_of_le_of_lt (Nat.mod_le y cfg.tail) hy.landed)
                    have hinc := hm.incarnation x' hx' hlap
                    rw [hmod, ← hidx, Classical.not_not.mp heq] at hinc
                    rwa [msgId_inj hyb (Nat.lt_of_lt_of_le hx' hm.few') hinc hmod.symm]
                  have hcopied := hh.copied hm hpc hi hle hall hcopy hhash
                  rw [hscanning hy, hcopied]
                  exact ⟨y + 1, none, h.deliver hm hy hw⟩
              · exact ⟨b, phase, hagain left⟩
      · exact ⟨b, phase, h⟩

theorem Scans.copy (hm : Memory cfg s) (h : Scans cfg s b phase) (k : Nat) :
    Scans cfg { s with receiver := s.receiver.copy s.slots k } b phase := by
  have hprog := h.progress
  unfold Receiver.copy
  split
  · next left incarnation hash size buffer hpc =>
      rw [hpc] at hprog
      obtain ⟨y, x, hy, rfl, hh, hw, hcopy⟩ := hprog
      refine ⟨h.cursors, h.best, h.sublist, h.last, y, x, hy, rfl,
        ⟨hh.slot, hh.le, hh.landed, hh.hash⟩, hw, fun hlt hle => ?_⟩
      obtain ⟨hs, hbytes⟩ := hcopy hlt hle
      refine ⟨hs, fun i hi v hv => ?_⟩
      by_cases hik : i = k
      · subst hik
        rw [Function.update_self] at hv
        cases hv
        have hidx := hy.index h.cursors
        obtain ⟨hlanded, hsizes⟩ := hh.lap hm hlt hle
        rw [hidx]
        exact hm.data y hlanded hsizes i (hs ▸ hi)
      · rw [Function.update_of_ne hik] at hv
        exact hbytes i hi v hv
  · exact h

/-! ### The runs -/

theorem later_setSender (s : State) (sender : Sender) : Later s { s with sender } :=
  ⟨rfl, Nat.le_refl _, Nat.le_refl _, fun _ _ => rfl⟩

theorem later_getSlot (hm : Memory cfg s) (sender : Sender) (message : Bytes) :
    Later s { s with
      sender
      written := s.written ++ [message] } := by
  refine ⟨rfl, Nat.le_refl _, Nat.le_refl _, fun i hi => ?_⟩
  have hlt : i < s.written.length := by
    rw [hm.length]
    exact Nat.lt_of_lt_of_le hi (hm.hashes_le_nextSend.trans
      (hm.sender.sendBefore.trans hm.sender.nextSlot))
  change (s.written ++ [message]).getD i [] = s.written.getD i []
  rw [List.getD_eq_getElem?_getD, List.getD_eq_getElem?_getD, List.getElem?_append_left hlt]

theorem later_land (s : State) : Later s s.land := by
  unfold State.land
  split
  · exact ⟨rfl, Nat.le_refl _, Nat.le_refl _, fun _ _ => rfl⟩
  · dsimp only
    split
    · next hst =>
        refine ⟨rfl, ?_, ?_, fun _ _ => rfl⟩
        · rw [hashes, hst]
          exact Nat.le_succ s.landed
        · rw [incarnations, hst]
          exact Nat.le_refl s.landed
    · next hst =>
        refine ⟨rfl, ?_, ?_, fun _ _ => rfl⟩
        · rw [hashes, hst]
          exact Nat.le_refl (s.landed + 1)
        · rw [incarnations, hst]
          exact Nat.le_succ s.landed
    · next hst =>
        refine ⟨rfl, ?_, ?_, fun _ _ => rfl⟩
        · rw [hashes, hst]
          exact Nat.le_refl (s.landed + 1)
        · rw [incarnations, hst]
          exact Nat.le_refl (s.landed + 1)
    · next hst =>
        split
        · refine ⟨rfl, ?_, ?_, fun _ _ => rfl⟩
          · rw [hashes, hst]
            exact Nat.le_refl (s.landed + 1)
          · rw [incarnations, hst]
            exact Nat.le_refl (s.landed + 1)
        · exact ⟨rfl, Nat.le_refl _, Nat.le_refl _, fun _ _ => rfl⟩

theorem later_landByte (s : State) (k : Nat) : Later s (s.landByte k) := by
  unfold State.landByte
  split
  · exact ⟨rfl, Nat.le_refl _, Nat.le_refl _, fun _ _ => rfl⟩
  · split <;> exact ⟨rfl, Nat.le_refl _, Nat.le_refl _, fun _ _ => rfl⟩

/-- Only the receiver changes. -/
theorem Memory.setReceiver (h : Memory cfg s) (receiver : Receiver) :
    Memory cfg { s with receiver } :=
  ⟨h.sender, h.length, h.few, h.short, h.landing, h.fresh, h.incarnation, h.hash, h.size, h.data⟩

theorem inv_next {l : Label} (hm : Memory cfg s) (h : Scans cfg s b phase) (hf : s.Fits cfg l)
    (hi : s.Intact cfg l) (hs : Step cfg s l s') :
    Memory cfg s' ∧ ∃ b' phase', Scans cfg s' b' phase' := by
  cases l with
  | getSlot message =>
      obtain ⟨o, ho, hs⟩ := bind_eq_ok.mp hs
      cases o with
      | none =>
          cases hs
          exact ⟨hm, b, phase, h⟩
      | some sender =>
          cases hs
          exact ⟨hm.getSlot hf.2.2.2.2.2 hf.2.2.1 ho, b, phase, h.later (later_getSlot hm sender message)⟩
  | send =>
      cases hs
      exact ⟨hm.send, b, phase, h.later (later_setSender s _)⟩
  | tick n =>
      obtain ⟨sender, ho, hs⟩ := bind_eq_ok.mp hs
      cases hs
      exact ⟨hm.tick ho, b, phase, h.later (later_setSender s _)⟩
  | land =>
      cases hs
      exact ⟨hm.land, b, phase, h.later (later_land s)⟩
  | landByte k =>
      cases hs
      exact ⟨hm.landByte k, b, phase, h.later (later_landByte s k)⟩
  | receive =>
      cases hs
      exact ⟨hm.setReceiver _, h.receive hm hi⟩
  | copy k =>
      cases hs
      exact ⟨hm.setReceiver _, b, phase, h.copy hm k⟩

theorem inv_of_reachable (ht : 0 < cfg.tail)
    (h : Reachable Init (Step cfg) (fun s l => s.Fits cfg l ∧ s.Intact cfg l) s) :
    Memory cfg s ∧ ∃ b phase, Scans cfg s b phase := by
  refine h.induct (P := fun s => Memory cfg s ∧ ∃ b phase, Scans cfg s b phase) ?_ ?_
  · rintro s ⟨buffers, slots, rfl⟩
    exact ⟨memory_start ht buffers slots, 0, none, Cursors.at_start cfg, Nat.le_refl _,
      List.Sublist.refl _, nofun, trivial⟩
  · rintro s l s' - ⟨hm, b, phase, h⟩ ⟨hf, hi⟩ hs
    exact inv_next hm h hf hi hs

end State

end Ubft.TailP2p
