import Ubft.Support.Ring
import Ubft.TailP2p.AsyncSender

/-!
# TailP2p — the slots of the ring

The check of `getSlot` leaves the header out: it lets through messages that are up to a header
longer than their slot (`slots_iff`), and that the buffers of the asynchronous sender refuse.
-/

namespace Ubft.TailP2p

/-! ### Buffers -/

theorem Buffer.resize_eq_ok {b b' : Buffer} {size : Nat} :
    b.resize size = .ok b' ↔ ∃ h : size ≤ b.maxSize, b' = { b with size, size_le := h } := by
  unfold Buffer.resize
  split
  · next hlt => exact ⟨nofun, fun ⟨h, _⟩ => absurd h (Nat.not_le.mpr hlt)⟩
  · next hge => exact ⟨fun h => ⟨Nat.not_lt.mp hge, by cases h; rfl⟩, fun ⟨_, h⟩ => by rw [h]⟩

namespace Pool

variable {p p' : Pool} {b : Buffer} {size n : Nat} {fresh : Nat → UInt8}

/-- The buffers of a pool have its size. -/
def Sized (p : Pool) : Prop := ∀ b ∈ p.buffers, b.maxSize = p.bufferSize

theorem newBuffer_eq_ok :
    p.newBuffer = .ok b ↔
      ∃ h : p.bufferSize < 2 ^ 63, b = ⟨p.bufferSize, p.fresh, p.bufferSize, Nat.le_refl _, h⟩ := by
  unfold newBuffer
  split
  · next hlt => exact ⟨fun h => ⟨hlt, by cases h; rfl⟩, fun ⟨_, h⟩ => by rw [h]⟩
  · next hge => exact ⟨nofun, fun ⟨h, _⟩ => absurd h hge⟩

/-- What `take` does: it has a buffer for every size the pool is made for. -/
theorem take_cases {o : Option (Buffer × Pool)} (h : p.take size = .ok o) :
    ∃ b b' : Buffer, ∃ hle : size ≤ b.maxSize, b' = { b with size, size_le := hle } ∧
      ((p.buffers = [] ∧ p.newBuffer = .ok b ∧ o = some (b', p)) ∨
        ∃ buffers, p.buffers = b :: buffers ∧ o = some (b', { p with buffers })) := by
  unfold take at h
  split at h
  · next hb =>
      rw [allowDelayedBufferAlloc, if_pos rfl] at h
      obtain ⟨b, hnew, h⟩ := bind_eq_ok.mp h
      obtain ⟨b', hres, h⟩ := bind_eq_ok.mp h
      cases h
      obtain ⟨hle, rfl⟩ := Buffer.resize_eq_ok.mp hres
      exact ⟨b, _, hle, rfl, .inl ⟨hb, hnew, rfl⟩⟩
  · next b buffers hb =>
      obtain ⟨b', hres, h⟩ := bind_eq_ok.mp h
      cases h
      obtain ⟨hle, rfl⟩ := Buffer.resize_eq_ok.mp hres
      exact ⟨b, _, hle, rfl, .inr ⟨buffers, hb, rfl⟩⟩

theorem bufferSize_new (h : new fresh size n = .ok p) : p.bufferSize = size ∧ p.Sized := by
  induction n generalizing p with
  | zero =>
      cases h
      exact ⟨rfl, nofun⟩
  | succ n ih =>
      obtain ⟨p, hp, h⟩ := bind_eq_ok.mp h
      obtain ⟨b, hb, h⟩ := bind_eq_ok.mp h
      cases h
      obtain ⟨hsize, hsized⟩ := ih hp
      obtain ⟨-, rfl⟩ := newBuffer_eq_ok.mp hb
      refine ⟨hsize, fun b hb => ?_⟩
      rcases List.mem_cons.mp hb with rfl | hb
      · rfl
      · exact hsized b hb

theorem Sized.of_take {b : Buffer} (h : p.Sized) (ht : p.take size = .ok (some (b, p'))) :
    b.maxSize = p.bufferSize ∧ p'.bufferSize = p.bufferSize ∧ p'.Sized := by
  obtain ⟨b', _, hle, rfl, ⟨-, hnew, ho⟩ | ⟨buffers, hb, ho⟩⟩ := take_cases ht
  · cases ho
    obtain ⟨-, rfl⟩ := newBuffer_eq_ok.mp hnew
    exact ⟨rfl, rfl, h⟩
  · cases ho
    exact ⟨h b' (hb ▸ List.mem_cons_self), rfl, fun x hx => h x (hb ▸ List.mem_cons_of_mem _ hx)⟩

/-- A pool serves the sizes that it is made for. -/
theorem Sized.take_iff (h : p.Sized) (size : Nat) :
    (∃ o, p.take size = .ok o) ↔ size ≤ p.bufferSize ∧ p.bufferSize < 2 ^ 63 := by
  constructor
  · rintro ⟨o, ho⟩
    obtain ⟨b, b', hle, -, ⟨-, hnew, -⟩ | ⟨buffers, hb, -⟩⟩ := take_cases ho
    · obtain ⟨hlt, rfl⟩ := newBuffer_eq_ok.mp hnew
      exact ⟨hle, hlt⟩
    · have hmax := h b (hb ▸ List.mem_cons_self)
      exact ⟨hmax ▸ hle, hmax ▸ b.maxSize_lt⟩
  · rintro ⟨hle, hlt⟩
    unfold take
    split
    · rw [allowDelayedBufferAlloc, if_pos rfl]
      exact ⟨_, bind_eq_ok.mpr ⟨_, newBuffer_eq_ok.mpr ⟨hlt, rfl⟩,
        bind_eq_ok.mpr ⟨_, Buffer.resize_eq_ok.mpr ⟨hle, rfl⟩, rfl⟩⟩⟩
    · next b buffers hb =>
        have hmax := h b (hb ▸ List.mem_cons_self)
        exact ⟨_, bind_eq_ok.mpr ⟨_, Buffer.resize_eq_ok.mpr ⟨hmax ▸ hle, rfl⟩, rfl⟩⟩

end Pool

/-! ### The ring -/

namespace SyncSender

variable {cfg : Config} {s s' : SyncSender} {size m m' : Nat}

/-- The next slot is given, for `size` bytes. -/
def given (cfg : Config) (s : SyncSender) (size : Nat) : SyncSender :=
  let slot := slotAt cfg s.nextAlloc
  { s with
    ring := Mem.store (Mem.store s.ring (slot + 8) (le 4 (s.nextSlot / cfg.tail + 1))) (slot + 12)
      (le 4 size)
    nextAlloc := s.nextAlloc + 1
    nextSlot := s.nextSlot + 1
    toSend := s.toSend ++ [slot] }

/-- No slot is free. -/
def Full (cfg : Config) (s : SyncSender) : Prop := s.nextAlloc = s.nextFree + cfg.tail

instance (cfg : Config) (s : SyncSender) : Decidable (s.Full cfg) :=
  inferInstanceAs (Decidable (_ = _))

/-- **What `getSlot` does**: it refuses what is longer than a slot, and gives a slot if it has
one. -/
theorem getSlot_eq_ok {o : Option (Nat × SyncSender)} :
    s.getSlot cfg size = .ok o ↔ size ≤ slotSize cfg ∧
      o = if s.Full cfg then none
        else some (slotAt cfg s.nextAlloc + headerSize, s.given cfg size) := by
  unfold getSlot
  split
  · next hlt => exact ⟨nofun, fun h => absurd h.1 (Nat.not_le.mpr hlt)⟩
  · next hge =>
      refine Iff.trans ?_ (and_iff_right (Nat.not_lt.mp hge)).symm
      by_cases hfull : s.Full cfg
      · have hnone : s.acquire cfg = none := if_pos hfull
        rw [hnone, if_pos hfull]
        exact ⟨fun h => (Except.ok.inj h).symm, fun h => congrArg _ h.symm⟩
      · have hsome : s.acquire cfg = some (slotAt cfg s.nextAlloc,
            { s with nextAlloc := s.nextAlloc + 1 }) := if_neg hfull
        rw [hsome, if_neg hfull]
        exact ⟨fun h => (Except.ok.inj h).symm, fun h => congrArg _ h.symm⟩

/-- Pushing posts, and gives no slot. -/
theorem pushToQp_frame (cfg : Config) (l : List Nat) (s : SyncSender) :
    (s.pushToQp cfg l).nextAlloc = s.nextAlloc ∧ (s.pushToQp cfg l).nextFree = s.nextFree ∧
      (s.pushToQp cfg l).sendBefore = s.sendBefore := by
  induction l generalizing s with
  | nil => exact ⟨rfl, rfl, rfl⟩
  | cons slot rest ih =>
      unfold pushToQp
      split
      · exact ih _
      · exact ⟨rfl, rfl, rfl⟩

/-- Slots are released in order. -/
theorem le_complete {n : Nat} (h : s.complete n = .ok s') (hle : s.nextFree ≤ s.nextAlloc) :
    s'.nextAlloc = s.nextAlloc ∧ s'.nextFree = s.nextFree + n ∧ s'.nextFree ≤ s'.nextAlloc := by
  induction n generalizing s with
  | zero =>
      cases h
      exact ⟨rfl, rfl, hle⟩
  | succ n ih =>
      unfold complete at h
      split at h
      · cases h
      · next hne =>
          obtain ⟨ha, hf, hle'⟩ := ih h (Nat.lt_of_le_of_ne hle (Ne.symm hne))
          exact ⟨ha, hf.trans (Nat.add_right_comm s.nextFree 1 n), hle'⟩

/-- The ring is no longer than a memory. -/
theorem slotAt_eq (hr : cfg.tail * slotSize cfg < 2 ^ 64) (ht : 0 < cfg.tail) (m : Nat) :
    slotAt cfg m = slotSize cfg * (m % cfg.tail) := by
  refine Nat.mod_eq_of_lt (Nat.lt_of_le_of_lt ?_ hr)
  rw [Nat.mul_comm]
  exact Nat.mul_le_mul_right _ (Nat.mod_lt m ht).le

theorem slotAt_le (hr : cfg.tail * slotSize cfg < 2 ^ 64) (ht : 0 < cfg.tail) (m : Nat) :
    slotAt cfg m + slotSize cfg ≤ cfg.tail * slotSize cfg := by
  rw [slotAt_eq hr ht, ← Nat.mul_succ, Nat.mul_comm]
  exact Nat.mul_le_mul_right _ (Nat.mod_lt m ht)

/-- Two messages less than a lap apart are in slots next to each other. -/
theorem slotAt_apart (hr : cfg.tail * slotSize cfg < 2 ^ 64) (hne : m % cfg.tail ≠ m' % cfg.tail)
    (ht : 0 < cfg.tail) :
    slotAt cfg m + slotSize cfg ≤ slotAt cfg m' ∨ slotAt cfg m' + slotSize cfg ≤ slotAt cfg m := by
  rw [slotAt_eq hr ht, slotAt_eq hr ht, ← Nat.mul_succ, ← Nat.mul_succ]
  rcases Nat.lt_or_gt_of_ne hne with hlt | hlt
  · exact .inl (Nat.mul_le_mul_left _ hlt)
  · exact .inr (Nat.mul_le_mul_left _ hlt)

/-- The `m`-th message is in the slot at `slotAt m` of the ring, and its write goes to the same
place of the ring of the receiver.  What is written for a message of this size is in its slot, in
the ring, and in no other pending slot. -/
def Apart (cfg : Config) (size : UInt32) : Prop :=
  ∀ s : SyncSender, s.nextFree ≤ s.nextAlloc → s.nextAlloc ≤ s.nextFree + cfg.tail →
    ∀ data s', s.getSlot cfg size.toNat = .ok (some (data, s')) →
      data = slotAt cfg s.nextAlloc + headerSize ∧
      headerSize + size.toNat ≤ slotSize cfg ∧
      data + size.toNat ≤ bufferSize cfg ∧
      ∀ m, s.nextFree ≤ m → m < s.nextAlloc →
        slotAt cfg m + slotSize cfg ≤ slotAt cfg s.nextAlloc ∨ data + size.toNat ≤ slotAt cfg m

/-- The message before the slot sizes wrap around the memory, and the one that does. -/
theorem exists_wrap {n : Nat} (hr : 2 ^ 64 ≤ cfg.tail * n) :
    ∃ k, k < cfg.tail ∧ n * k < 2 ^ 64 ∧ 2 ^ 64 ≤ n * (k + 1) := by
  have hex : ∃ k, 2 ^ 64 ≤ n * (k + 1) := ⟨cfg.tail, hr.trans (by
    rw [Nat.mul_comm]
    exact Nat.mul_le_mul_left n (Nat.le_succ _))⟩
  have hmin : n * Nat.find hex < 2 ^ 64 := by
    cases hk : Nat.find hex with
    | zero => exact Nat.two_pow_pos 64
    | succ k => exact Nat.not_le.mp (Nat.find_min hex (hk ▸ Nat.lt_succ_self k))
  refine ⟨Nat.find hex, ?_, hmin, Nat.find_spec hex⟩
  refine Nat.not_le.mp fun hle => ?_
  have hmul := Nat.mul_le_mul_left n hle
  rw [Nat.mul_comm] at hr
  exact absurd (hr.trans hmul) (Nat.not_le.mpr hmin)

/-- Slots that are apart are all in the memory. -/
theorem Apart.lt {size : UInt32} (h : Apart cfg size) (hs : size.toNat ≤ slotSize cfg) :
    cfg.tail * slotSize cfg < 2 ^ 64 := by
  refine Nat.not_le.mp fun hr => ?_
  have hn : slotSize cfg < 2 ^ 64 := by
    unfold slotSize
    omega
  obtain ⟨k, hk, hlt, hle⟩ := exists_wrap hr
  have hsucc : slotSize cfg * (k + 1) = slotSize cfg * k + slotSize cfg := Nat.mul_succ _ _
  have hgiven : ∀ s : SyncSender, ¬ s.Full cfg →
      s.getSlot cfg size.toNat =
        .ok (some (slotAt cfg s.nextAlloc + headerSize, s.given cfg size.toNat)) :=
    fun s hroom => getSlot_eq_ok.mpr ⟨hs, by rw [if_neg hroom]⟩
  rcases Nat.lt_or_ge (k + 1) cfg.tail with hk' | hk'
  · -- the next slot is at the beginning of the ring again, where the first one is
    have hwf : k + 1 ≤ 0 + cfg.tail := by omega
    have hroom : k + 1 ≠ 0 + cfg.tail := by omega
    obtain ⟨-, -, -, hdis⟩ := h { ring := fun _ => 0, nextAlloc := k + 1 } (Nat.zero_le _) hwf _ _
      (hgiven _ hroom)
    have h0 := hdis 0 (Nat.le_refl _) (Nat.succ_pos k)
    have hzero : slotAt cfg 0 = 0 := by rw [slotAt, Nat.zero_mod, Nat.mul_zero, Nat.zero_mod]
    have hnext : slotAt cfg (k + 1) = slotSize cfg * (k + 1) - 2 ^ 64 := by
      rw [slotAt, Nat.mod_eq_of_lt hk', Nat.mod_eq_sub_mod hle, Nat.mod_eq_of_lt (by omega)]
    change slotAt cfg 0 + _ ≤ slotAt cfg (k + 1) ∨ slotAt cfg (k + 1) + _ + _ ≤ _ at h0
    rw [hzero, hnext, headerSize] at h0
    omega
  · -- the last slot is past the end
    have htail : cfg.tail = k + 1 := Nat.le_antisymm hk' hk
    have hwf : k ≤ 0 + cfg.tail := by omega
    have hroom : k ≠ 0 + cfg.tail := by omega
    obtain ⟨-, -, hend, -⟩ := h { ring := fun _ => 0, nextAlloc := k } (Nat.zero_le _) hwf _ _
      (hgiven _ hroom)
    have hlast : slotAt cfg k = slotSize cfg * k := by
      rw [slotAt, Nat.mod_eq_of_lt hk, Nat.mod_eq_of_lt hlt]
    have hsize : bufferSize cfg = slotSize cfg * (k + 1) - 2 ^ 64 := by
      rw [bufferSize, htail, Nat.mul_comm, Nat.mod_eq_sub_mod hle, Nat.mod_eq_of_lt (by omega)]
    change slotAt cfg k + _ + _ ≤ _ at hend
    rw [hlast, hsize, headerSize] at hend
    omega

/-- A message that a slot has room for, with its header, stays in its slot. -/
theorem apart_of_fits {size : UInt32} (hfit : headerSize + size.toNat ≤ slotSize cfg)
    (hr : cfg.tail * slotSize cfg < 2 ^ 64) : Apart cfg size := by
  intro s hle hlap data s' hget
  obtain ⟨-, ho⟩ := getSlot_eq_ok.mp hget
  split at ho
  · cases ho
  · next hroom =>
      cases ho
      unfold Full at hroom
      have ht : 0 < cfg.tail := by omega
      have hend := slotAt_le hr ht s.nextAlloc
      refine ⟨rfl, hfit, ?_, fun m hm hlt => ?_⟩
      · rw [bufferSize, Nat.mod_eq_of_lt hr]
        omega
      · rcases slotAt_apart hr (Ring.mod_ne hlt (by omega)) ht with h | h
        · exact .inl h
        · exact .inr (by omega)

end SyncSender

namespace Spool

variable {cfg : Config} {s s' : Spool}

theorem getSlot_cases {size : UInt32} (hs : s.next cfg (.getSlot size) = .ok s') :
    ∃ pointer, s.async.getSlot cfg size.toNat = .ok (pointer, s'.async) := by
  obtain ⟨⟨pointer, async⟩, hget, hs⟩ := bind_eq_ok.mp hs
  cases hs
  exact ⟨pointer, hget⟩

/-- A byte is written where the caller was told, or nowhere. -/
theorem write_cases {i k : Nat} {v : UInt8} (hs : s.next cfg (.write i k v) = .ok s') :
    s' = s ∨ ∃ pointer message, s.group[i]? = some (pointer, message) ∧ s' = { s with
      async := s.async.write k v pointer
      group := s.group.set i (pointer, message.set k v) } := by
  unfold next at hs
  dsimp only at hs
  split at hs
  · cases hs
    exact .inl rfl
  · next pointer message hi =>
      cases hs
      exact .inr ⟨pointer, message, hi, rfl⟩

end Spool

/-! ### Both senders -/

namespace AsyncSender

open SyncSender (slotSize slotAt headerSize)

variable {cfg : Config} {s s' s₁ : AsyncSender} {size : Nat} {pointer : Pointer} {b : Buffer}
  {l : List Buffer}

/-- A buffer is copied to the next slot. -/
def forward (cfg : Config) (s : AsyncSender) (b : Buffer) : AsyncSender :=
  let slot := slotAt cfg s.sender.nextAlloc + headerSize
  let sender := s.sender.given cfg b.size
  { s with
    sender := { sender with ring := Mem.store sender.ring slot b.data }.send cfg
    bufferPool := s.bufferPool.release b }

/-- **What `pushToSender` does**: it goes on as long as there are free slots. -/
theorem pushToSender_cons_eq_ok :
    s.pushToSender cfg (b :: l) = .ok s₁ ↔ b.size ≤ slotSize cfg ∧
      ((s.sender.Full cfg ∧ s₁ = { s with tailBuffer := b :: l }) ∨
        (¬ s.sender.Full cfg ∧ (s.forward cfg b).pushToSender cfg l = .ok s₁)) := by
  constructor
  · intro h
    obtain ⟨o, ho, h⟩ := bind_eq_ok.mp h
    obtain ⟨hle, rfl⟩ := SyncSender.getSlot_eq_ok.mp ho
    refine ⟨hle, ?_⟩
    by_cases hfull : s.sender.Full cfg
    · rw [if_pos hfull] at h
      cases h
      exact .inl ⟨hfull, rfl⟩
    · rw [if_neg hfull] at h
      exact .inr ⟨hfull, h⟩
  · rintro ⟨hle, h⟩
    refine bind_eq_ok.mpr ⟨_, SyncSender.getSlot_eq_ok.mpr ⟨hle, rfl⟩, ?_⟩
    rcases h with ⟨hfull, rfl⟩ | ⟨hfull, h⟩
    · rw [if_pos hfull]
      rfl
    · rw [if_neg hfull]
      exact h

/-- **What `getSlot` does**: the message goes to the ring if it has a free slot, else to a buffer
of the pool.  As the pool has always one, the tail is not recycled. -/
theorem getSlot_eq_ok :
    s.getSlot cfg size = .ok (pointer, s') ↔ ∃ s₁, s.pushToSender cfg s.tailBuffer = .ok s₁ ∧
      size ≤ slotSize cfg ∧
      ((¬ s₁.sender.Full cfg ∧ pointer = .slot (slotAt cfg s₁.sender.nextAlloc + headerSize) ∧
          s' = { s₁ with sender := s₁.sender.given cfg size }) ∨
        (s₁.sender.Full cfg ∧ pointer = .buffer s₁.beingWritten.length ∧
          ∃ buffer bufferPool, s₁.bufferPool.take size = .ok (some (buffer, bufferPool)) ∧
            s' = { s₁ with
              bufferPool
              beingWritten := s₁.beingWritten ++ [buffer] })) := by
  constructor
  · intro h
    obtain ⟨s₁, hs₁, h⟩ := bind_eq_ok.mp h
    obtain ⟨o, ho, h⟩ := bind_eq_ok.mp h
    obtain ⟨hle, rfl⟩ := SyncSender.getSlot_eq_ok.mp ho
    refine ⟨s₁, hs₁, hle, ?_⟩
    by_cases hfull : s₁.sender.Full cfg
    · rw [if_pos hfull] at h
      obtain ⟨o, ho, h⟩ := bind_eq_ok.mp h
      obtain ⟨_, b, -, -, ⟨-, -, rfl⟩ | ⟨buffers, -, rfl⟩⟩ := Pool.take_cases ho
      · cases h
        exact .inr ⟨hfull, rfl, _, _, ho, rfl⟩
      · cases h
        exact .inr ⟨hfull, rfl, _, _, ho, rfl⟩
    · rw [if_neg hfull] at h
      cases h
      exact .inl ⟨hfull, rfl, rfl⟩
  · rintro ⟨s₁, hs₁, hle, h⟩
    refine bind_eq_ok.mpr ⟨s₁, hs₁, bind_eq_ok.mpr ⟨_, SyncSender.getSlot_eq_ok.mpr ⟨hle, rfl⟩, ?_⟩⟩
    rcases h with ⟨hfull, rfl, rfl⟩ | ⟨hfull, rfl, buffer, bufferPool, ho, rfl⟩
    · rw [if_neg hfull]
      rfl
    · rw [if_pos hfull]
      exact bind_eq_ok.mpr ⟨_, ho, rfl⟩

/-- No more slots are given than there are, and the buffers have the size the sender is made
for. -/
structure WellFormed (cfg : Config) (s : AsyncSender) : Prop where
  nextFree : s.sender.nextFree ≤ s.sender.nextAlloc
  nextAlloc : s.sender.nextAlloc ≤ s.sender.nextFree + cfg.tail
  bufferSize : s.bufferPool.bufferSize = cfg.maxMsgSize
  pool : s.bufferPool.Sized
  tailBuffer : ∀ b ∈ s.tailBuffer, b.maxSize = cfg.maxMsgSize
  beingWritten : ∀ b ∈ s.beingWritten, b.maxSize = cfg.maxMsgSize

/-- The message goes to the ring directly. -/
def Direct (cfg : Config) (s : AsyncSender) : Prop :=
  ∃ s₁, s.pushToSender cfg s.tailBuffer = .ok s₁ ∧ ¬ s₁.sender.Full cfg

/-- The message goes through the buffers. -/
def Spills (cfg : Config) (s : AsyncSender) : Prop :=
  ∃ s₁, s.pushToSender cfg s.tailBuffer = .ok s₁ ∧ s₁.sender.Full cfg

/-- `getSlot` does not throw. -/
def Accepts (cfg : Config) (s : AsyncSender) (size : Nat) : Prop :=
  ∃ pointer s', s.getSlot cfg size = .ok (pointer, s')

/-- The sizes that are accepted directly are accepted through the buffers. -/
def SameSizes (cfg : Config) (size : UInt32) : Prop :=
  ∀ s s' : AsyncSender, s.WellFormed cfg → s'.WellFormed cfg → s.Direct cfg → s'.Spills cfg →
    (s.Accepts cfg size.toNat ↔ s'.Accepts cfg size.toNat)

/-- What is moved to the ring returns to its pool. -/
theorem WellFormed.pushToSender {l : List Buffer} (h : WellFormed cfg { s with tailBuffer := l })
    (hs : s.pushToSender cfg l = .ok s₁) : WellFormed cfg s₁ := by
  induction l generalizing s with
  | nil =>
      cases hs
      exact h
  | cons b l ih =>
      obtain ⟨-, ⟨-, rfl⟩ | ⟨hroom, hs⟩⟩ := pushToSender_cons_eq_ok.mp hs
      · exact h
      · obtain ⟨ha, hf, -⟩ := SyncSender.pushToQp_frame cfg
          (s.sender.toSend ++ [slotAt cfg s.sender.nextAlloc])
          { s.sender.given cfg b.size with
            ring := Mem.store (s.sender.given cfg b.size).ring
              (slotAt cfg s.sender.nextAlloc + headerSize) b.data
            sendBefore := s.sender.nextSlot + 1 }
        refine ih (s := s.forward cfg b) ⟨?_, ?_, h.bufferSize, fun b' hb' => ?_, fun b' hb' =>
          h.tailBuffer b' (List.mem_cons_of_mem _ hb'), h.beingWritten⟩ hs
        · exact hf.le.trans ((Nat.le_succ_of_le h.nextFree).trans ha.ge)
        · have hlt : s.sender.nextAlloc < s.sender.nextFree + cfg.tail :=
            Nat.lt_of_le_of_ne h.nextAlloc hroom
          exact ha.le.trans (hlt.trans_le (Nat.add_le_add_right hf.ge _))
        · rcases List.mem_cons.mp hb' with rfl | hb'
          · exact (h.tailBuffer b List.mem_cons_self).trans h.bufferSize.symm
          · exact h.pool b' hb'

theorem WellFormed.getSlot (h : s.WellFormed cfg) (hs : s.getSlot cfg size = .ok (pointer, s')) :
    s'.WellFormed cfg := by
  obtain ⟨s₁, hs₁, -, ⟨hroom, -, rfl⟩ | ⟨-, -, b, p, ht, rfl⟩⟩ := getSlot_eq_ok.mp hs
  · have h₁ := WellFormed.pushToSender (l := s.tailBuffer) { h with } hs₁
    exact { h₁ with
      nextFree := Nat.le_succ_of_le h₁.nextFree
      nextAlloc := Nat.lt_of_le_of_ne h₁.nextAlloc hroom }
  · have h₁ := WellFormed.pushToSender (l := s.tailBuffer) { h with } hs₁
    obtain ⟨hb, hsize, hp⟩ := h₁.pool.of_take ht
    refine { h₁ with
      bufferSize := hsize.trans h₁.bufferSize
      pool := hp
      beingWritten := fun x hx => ?_ }
    rcases List.mem_append.mp hx with hx | hx
    · exact h₁.beingWritten x hx
    · rw [List.mem_singleton.mp hx]
      exact hb.trans h₁.bufferSize

theorem WellFormed.send (h : s.WellFormed cfg) (hs : s.send cfg = .ok s') : s'.WellFormed cfg := by
  obtain ⟨ha, hf, -⟩ := SyncSender.pushToQp_frame cfg s.sender.toSend
    { s.sender with sendBefore := s.sender.nextSlot }
  refine WellFormed.pushToSender (l := s.tailBuffer ++ s.beingWritten)
    (s := { s with
      sender := s.sender.send cfg
      beingWritten := [] }) ⟨?_, ?_, h.bufferSize, h.pool, fun b hb => ?_, fun _ => nofun⟩ hs
  · exact hf.le.trans (h.nextFree.trans ha.ge)
  · exact ha.le.trans (h.nextAlloc.trans (Nat.add_le_add_right hf.ge _))
  · rcases List.mem_append.mp hb with hb | hb
    · exact h.tailBuffer b hb
    · exact h.beingWritten b hb

theorem WellFormed.tick {n : Nat} (h : s.WellFormed cfg) (hs : s.tick cfg n = .ok s') :
    s'.WellFormed cfg := by
  obtain ⟨sender, hsender, hs⟩ := bind_eq_ok.mp hs
  obtain ⟨sender₁, hc, hpush⟩ := bind_eq_ok.mp hsender
  cases hpush
  obtain ⟨ha, hf, -⟩ := SyncSender.pushToQp_frame cfg sender₁.toSend sender₁
  obtain ⟨hac, hfc, hle⟩ := SyncSender.le_complete hc h.nextFree
  refine WellFormed.pushToSender (l := s.tailBuffer)
    (s := { s with sender := sender₁.pushToQp cfg sender₁.toSend })
    { h with nextFree := ?_, nextAlloc := ?_ } hs
  · exact hf.le.trans (hle.trans ha.ge)
  · refine ha.le.trans (hac.le.trans (h.nextAlloc.trans (Nat.add_le_add_right ?_ _)))
    exact (Nat.le_add_right _ n).trans (hfc.ge.trans hf.ge)

theorem WellFormed.write (h : s.WellFormed cfg) (k : Nat) (v : UInt8) (pointer : Pointer) :
    (s.write k v pointer).WellFormed cfg := by
  cases pointer with
  | slot data => exact { h with }
  | buffer i =>
      refine { h with beingWritten := fun b hb => ?_ }
      obtain ⟨j, hj⟩ := List.mem_iff_getElem?.mp hb
      change (s.beingWritten.modify i (·.write k v))[j]? = some b at hj
      rw [List.getElem?_modify] at hj
      obtain ⟨b', hb', rfl⟩ := Option.map_eq_some_iff.mp hj
      have hmem := h.beingWritten b' (List.mem_of_getElem? hb')
      split <;> exact hmem

theorem accepts_of_direct (h : s.Direct cfg) : s.Accepts cfg size ↔ size ≤ slotSize cfg := by
  obtain ⟨s₁, hs₁, hroom⟩ := h
  constructor
  · rintro ⟨pointer, s', h⟩
    obtain ⟨-, -, hle, -⟩ := getSlot_eq_ok.mp h
    exact hle
  · intro hle
    exact ⟨_, _, getSlot_eq_ok.mpr ⟨s₁, hs₁, hle, .inl ⟨hroom, rfl, rfl⟩⟩⟩

/-- Through the buffers, also what the sender is made for. -/
theorem accepts_of_spills (h : s.Spills cfg) (hz : s.WellFormed cfg) :
    s.Accepts cfg size ↔ size ≤ slotSize cfg ∧ size ≤ cfg.maxMsgSize ∧ cfg.maxMsgSize < 2 ^ 63 := by
  obtain ⟨s₁, hs₁, hfull⟩ := h
  have hz₁ : s₁.WellFormed cfg := WellFormed.pushToSender (l := s.tailBuffer) { hz with } hs₁
  have htake := hz₁.pool.take_iff size
  rw [hz₁.bufferSize] at htake
  rw [← htake]
  constructor
  · rintro ⟨pointer, s', h⟩
    obtain ⟨s₂, hs₂, hle, ⟨hroom, -⟩ | ⟨-, -, b, p, ho, -⟩⟩ := getSlot_eq_ok.mp h
    · cases hs₁.symm.trans hs₂
      exact absurd hfull hroom
    · cases hs₁.symm.trans hs₂
      exact ⟨hle, _, ho⟩
  · rintro ⟨hle, o, ho⟩
    obtain ⟨b, p, rfl⟩ : ∃ b p, o = some (b, p) := by
      obtain ⟨_, b, -, -, ⟨-, -, rfl⟩ | ⟨buffers, -, rfl⟩⟩ := Pool.take_cases ho
      · exact ⟨_, _, rfl⟩
      · exact ⟨_, _, rfl⟩
    exact ⟨_, _, getSlot_eq_ok.mpr ⟨s₁, hs₁, hle, .inr ⟨hfull, rfl, _, _, ho, rfl⟩⟩⟩

/-- In every run. -/
theorem wellFormed_of_reachable {s : Spool}
    (h : Reachable (Spool.Init cfg) (Spool.Step cfg) Always s) : s.async.WellFormed cfg := by
  refine h.induct (P := fun s => s.async.WellFormed cfg) ?_ ?_
  · rintro s ⟨ring, fresh, bufferPool, hp, rfl⟩
    obtain ⟨hsize, hsized⟩ := Pool.bufferSize_new hp
    exact ⟨Nat.le_refl _, Nat.zero_le _, hsize, hsized, nofun, nofun⟩
  · rintro s c s' - h - hs
    cases c with
    | getSlot size =>
        obtain ⟨pointer, hget⟩ := Spool.getSlot_cases hs
        exact h.getSlot hget
    | write i k v =>
        obtain rfl | ⟨pointer, message, -, rfl⟩ := Spool.write_cases hs
        · exact h
        · exact h.write ..
    | send =>
        obtain ⟨async, hsend, hs⟩ := bind_eq_ok.mp hs
        cases hs
        exact h.send hsend
    | tick n =>
        obtain ⟨async, htick, hs⟩ := bind_eq_ok.mp hs
        cases hs
        exact h.tick htick

/-- In every run, what `getSlot` accepts. -/
theorem accepts_of_reachable {s : Spool}
    (h : Reachable (Spool.Init cfg) (Spool.Step cfg) Always s) :
    s.async.Accepts cfg size ↔ size ≤ slotSize cfg ∧ (s.async.Direct cfg ∨
      s.async.Spills cfg ∧ size ≤ cfg.maxMsgSize ∧ cfg.maxMsgSize < 2 ^ 63) := by
  have hz := wellFormed_of_reachable h
  constructor
  · intro ha
    obtain ⟨pointer, s', hget⟩ := id ha
    obtain ⟨s₁, hs₁, -, -⟩ := getSlot_eq_ok.mp hget
    by_cases hfull : s₁.sender.Full cfg
    · have hs : s.async.Spills cfg := ⟨s₁, hs₁, hfull⟩
      obtain ⟨hle, hfit⟩ := (accepts_of_spills hs hz).mp ha
      exact ⟨hle, .inr ⟨hs, hfit⟩⟩
    · have hd : s.async.Direct cfg := ⟨s₁, hs₁, hfull⟩
      exact ⟨(accepts_of_direct hd).mp ha, .inl hd⟩
  · rintro ⟨hle, hd | ⟨hs, hfit⟩⟩
    · exact (accepts_of_direct hd).mpr hle
    · exact (accepts_of_spills hs hz).mpr ⟨hle, hfit⟩

/-- **The slots of the ring**, when there are any.  What is written in a slot stays in it, and both
ways to the ring take the same sizes, exactly for the sizes that no slot is given for and for those
the sender is made for, provided that its buffers and its ring are not longer than a memory. -/
theorem slots_iff (cfg : Config) (size : UInt32) :
    SyncSender.Apart cfg size ∧ SameSizes cfg size ↔
      cfg.tail = 0 ∨ slotSize cfg < size.toNat ∨
        (size.toNat ≤ cfg.maxMsgSize ∧ cfg.maxMsgSize < 2 ^ 63 ∧
          cfg.tail * slotSize cfg < 2 ^ 64) := by
  constructor
  · rintro ⟨hapart, hsame⟩
    refine or_iff_not_imp_left.mpr fun ht => or_iff_not_imp_left.mpr fun hlt => ?_
    have hle := Nat.not_lt.mp hlt
    -- a new sender, and one whose slots are all taken
    let pool : Pool := { bufferSize := cfg.maxMsgSize, fresh := fun _ => 0 }
    let idle : AsyncSender := ⟨{ ring := fun _ => 0 }, pool, [], []⟩
    let full : AsyncSender := ⟨{ ring := fun _ => 0, nextAlloc := 0 + cfg.tail }, pool, [], []⟩
    have hidle : idle.Direct cfg := ⟨idle, rfl, fun h => ht ((Nat.zero_add _).symm.trans h.symm)⟩
    have hfull : full.Spills cfg := ⟨full, rfl, rfl⟩
    have hwf : full.WellFormed cfg :=
      ⟨Nat.zero_le _, Nat.le_refl _, rfl, nofun, nofun, nofun⟩
    have hsame := hsame idle full ⟨Nat.le_refl _, Nat.zero_le _, rfl, nofun, nofun, nofun⟩ hwf
      hidle hfull
    rw [accepts_of_direct hidle, accepts_of_spills hfull hwf] at hsame
    obtain ⟨-, hmax, hlong⟩ := hsame.mp hle
    exact ⟨hmax, hlong, hapart.lt hle⟩
  · intro h
    refine ⟨?_, fun s s' hz hz' hd hs => ?_⟩
    · rcases h with ht | hlt | ⟨hmax, hlong, hr⟩
      · intro s hle hlap data s' hget
        obtain ⟨-, ho⟩ := SyncSender.getSlot_eq_ok.mp hget
        have hfull : s.Full cfg := Nat.le_antisymm hlap (ht ▸ hle)
        rw [if_pos hfull] at ho
        cases ho
      · intro s hle hlap data s' hget
        exact absurd (SyncSender.getSlot_eq_ok.mp hget).1 (Nat.not_le.mpr hlt)
      · refine SyncSender.apart_of_fits ?_ hr
        unfold slotSize headerSize
        omega
    · rw [accepts_of_direct hd, accepts_of_spills hs hz']
      refine ⟨fun hle => ⟨hle, ?_⟩, fun h => h.1⟩
      rcases h with ht | hlt | ⟨hmax, hlong, hr⟩
      · obtain ⟨s₁, hs₁, hroom⟩ := hd
        have hz₁ := WellFormed.pushToSender (l := s.tailBuffer) { hz with } hs₁
        exact absurd (Nat.le_antisymm hz₁.nextAlloc (ht ▸ hz₁.nextFree)) hroom
      · exact absurd hle (Nat.not_le.mpr hlt)
      · exact ⟨hmax, hlong⟩

/-- Slots of 24 bytes: 24 bytes are written after the 16 of a header. -/
theorem slots_overlap :
    ¬ ∀ (cfg : Config) (size : UInt32), SyncSender.Apart cfg size ∧ SameSizes cfg size := by
  intro h
  obtain ⟨-, hfit, -⟩ := (h ⟨2, 8, fun _ => 0⟩ 24).1 { ring := fun _ => 0 } (Nat.zero_le _)
    (Nat.zero_le _) _ _ (SyncSender.getSlot_eq_ok.mpr ⟨by decide, rfl⟩)
  exact absurd hfit (by decide)

end AsyncSender

end Ubft.TailP2p
