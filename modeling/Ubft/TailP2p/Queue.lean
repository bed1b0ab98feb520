import Ubft.TailP2p.Spill

/-!
# TailP2p — the sender is a queue

The messages are numbered as `getSlot` hands them out: the first are those of the ring, then come
those of the tail and those being written (`Spooled`).  As long as each fits in a slot they are
posted in this order, as they were when `send` was called (`posted_in_order`).
-/

namespace Ubft.TailP2p

open SyncSender (slotSize slotAt headerSize)

/-- A slot has room for a message and its header, the write of which has a size on 32 bits. -/
def SyncSender.Fits (cfg : Config) (size : Nat) : Prop :=
  headerSize + size ≤ slotSize cfg ∧ headerSize + size < 2 ^ 32 ∧
    cfg.tail * slotSize cfg < 2 ^ 64

instance (cfg : Config) : DecidablePred (SyncSender.Fits cfg) :=
  fun _ => inferInstanceAs (Decidable (_ ∧ _ ∧ _))

/-- What is posted for the `m`-th message. -/
def Write.of (cfg : Config) (m : Nat) (message : Bytes) : Write where
  remote := slotAt cfg m
  bytes := le 8 (cfg.hash message).toNat ++
    (le 4 (m / cfg.tail + 1) ++ (le 4 message.length ++ message))

/-! ### The ring -/

namespace SyncSender

variable {cfg : Config} {messages : List Bytes} {message : Bytes} {ring ring' : Nat → UInt8}
  {s s' : SyncSender} {m m' size a : Nat} {bs : Bytes}

/-- The slot of the `m`-th message holds it. -/
structure Slotted (cfg : Config) (m : Nat) (message : Bytes) (ring : Nat → UInt8) : Prop where
  incarnation : Mem.load ring (slotAt cfg m + 8) 4 = le 4 (m / cfg.tail + 1)
  size : Mem.load ring (slotAt cfg m + 12) 4 = le 4 message.length
  data : Mem.load ring (slotAt cfg m + headerSize) message.length = message

/-- What is written in another slot does not matter. -/
theorem Slotted.store (h : Slotted cfg m message ring) (hf : Fits cfg message.length)
    (ht : 0 < cfg.tail) (hne : m % cfg.tail ≠ m' % cfg.tail) (hle : slotAt cfg m' ≤ a)
    (hend : a + bs.length ≤ slotAt cfg m' + slotSize cfg) :
    Slotted cfg m message (Mem.store ring a bs) := by
  have hin := hf.1
  have hapart := slotAt_apart hf.2.2 hne ht
  have hload : ∀ off n, off + n ≤ slotSize cfg → Mem.load (Mem.store ring a bs)
      (slotAt cfg m + off) n = Mem.load ring (slotAt cfg m + off) n :=
    fun off n hn => Mem.load_store_of_apart ring (by omega)
  unfold headerSize at hin
  exact ⟨(hload 8 4 (by omega)).trans h.incarnation, (hload 12 4 (by omega)).trans h.size,
    (hload headerSize _ hf.1).trans h.data⟩

/-- The hash is not among what a message needs. -/
theorem Slotted.hash (h : Slotted cfg m message ring) (hs : bs.length = 8) :
    Slotted cfg m message (Mem.store ring (slotAt cfg m) bs) := by
  have hload : ∀ off n, 8 ≤ off → Mem.load (Mem.store ring (slotAt cfg m) bs)
      (slotAt cfg m + off) n = Mem.load ring (slotAt cfg m + off) n :=
    fun off n hn => Mem.load_store_of_apart ring (by omega)
  exact ⟨(hload 8 4 (Nat.le_refl _)).trans h.incarnation, (hload 12 4 (by decide)).trans h.size,
    (hload headerSize _ (by decide)).trans h.data⟩

/-- What is posted, once the hash is written. -/
theorem Slotted.load (h : Slotted cfg m message ring) :
    Mem.load (Mem.store ring (slotAt cfg m) (le 8 (cfg.hash message).toNat)) (slotAt cfg m)
      (headerSize + message.length) = (Write.of cfg m message).bytes := by
  have hh := h.hash (length_le 8 (cfg.hash message).toNat)
  have hsplit : headerSize + message.length = 8 + (4 + (4 + message.length)) := by
    unfold headerSize
    omega
  rw [hsplit, Mem.load_add, Mem.load_add, Mem.load_add, Nat.add_assoc (slotAt cfg m) 8 4,
    hh.incarnation]
  refine congrArg₂ _ ?_ (congrArg _ (congrArg₂ _ hh.size hh.data))
  exact Mem.load_store_self ring _ (le 8 _)

/-- The sender was given the slots of some messages, in order, and posted the first of them. -/
structure Queued (cfg : Config) (messages : List Bytes) (s : SyncSender) : Prop where
  nextAlloc : s.nextAlloc = s.nextSlot
  length : messages.length = s.nextSlot
  outstanding : s.nextFree + s.outstandingWrites = s.nextSend
  sendBefore : s.nextSend ≤ s.sendBefore
  nextSlot : s.sendBefore ≤ s.nextSlot
  room : s.nextSlot ≤ s.nextFree + cfg.tail
  fits : ∀ message ∈ messages, Fits cfg message.length
  toSend : s.toSend = (List.range' s.nextSend (s.nextSlot - s.nextSend)).map (slotAt cfg)
  slots : ∀ m message, messages[m]? = some message → s.nextFree ≤ m →
    Slotted cfg m message s.ring
  writes : s.writes = (messages.take s.nextSend).mapIdx (Write.of cfg)

namespace Queued

theorem lt_nextSlot (h : Queued cfg messages s) (hm : messages[m]? = some message) :
    m < s.nextSlot := by
  obtain ⟨hlt, -⟩ := List.getElem?_eq_some_iff.mp hm
  exact h.length ▸ hlt

/-- A slot is given, whatever it holds. -/
theorem given (h : Queued cfg messages s) (hroom : ¬ s.Full cfg) (hf : Fits cfg size) :
    Queued cfg (messages ++ [Mem.load (s.given cfg size).ring
      (slotAt cfg s.nextAlloc + headerSize) size]) (s.given cfg size) := by
  have hlap : s.nextSlot < s.nextFree + cfg.tail :=
    Nat.lt_of_le_of_ne h.room fun he => hroom (h.nextAlloc.trans he)
  have hle : s.nextSend ≤ s.nextSlot := h.sendBefore.trans h.nextSlot
  have hfree : s.nextFree ≤ s.nextSlot := Nat.le_of_add_right_le (h.outstanding.le.trans hle)
  have ht : 0 < cfg.tail := by omega
  have hin := hf.1
  unfold headerSize at hin
  have hlen : ∀ x : Bytes, (messages ++ [x]).length = messages.length + 1 := fun x =>
    List.length_append
  refine ⟨congrArg (· + 1) h.nextAlloc, (hlen _).trans (congrArg (· + 1) h.length), h.outstanding,
    h.sendBefore, Nat.le_succ_of_le h.nextSlot, hlap, ?_, ?_, ?_, ?_⟩
  · intro message hm
    rcases List.mem_append.mp hm with hm | hm
    · exact h.fits message hm
    · rw [List.mem_singleton.mp hm, Mem.length_load]
      exact hf
  · change s.toSend ++ [slotAt cfg s.nextAlloc] =
      (List.range' s.nextSend (s.nextSlot + 1 - s.nextSend)).map _
    rw [Nat.succ_sub hle, List.range'_concat, List.map_append, h.toSend, h.nextAlloc, Nat.one_mul,
      Nat.add_sub_cancel' hle]
    rfl
  · intro m message hm hlo
    rcases Nat.lt_or_ge m messages.length with hlt | hge
    · rw [List.getElem?_append_left hlt] at hm
      have hne : m % cfg.tail ≠ s.nextAlloc % cfg.tail := by
        have := h.length
        have := h.nextAlloc
        change s.nextFree ≤ m at hlo
        exact Ring.mod_ne (by omega) (by omega)
      have hfm := h.fits message (List.mem_of_getElem? hm)
      refine Slotted.store (Slotted.store (h.slots m message hm hlo) hfm ht hne ?_ ?_) hfm ht hne ?_
        ?_
      · exact Nat.le_add_right ..
      · rw [length_le]
        omega
      · exact Nat.le_add_right ..
      · rw [length_le]
        omega
    · obtain rfl : m = messages.length := by
        obtain ⟨hlt, -⟩ := List.getElem?_eq_some_iff.mp hm
        rw [hlen] at hlt
        omega
      rw [List.getElem?_concat_length, Option.some.injEq] at hm
      subst hm
      have hslot : slotAt cfg messages.length = slotAt cfg s.nextAlloc := by
        rw [h.length, h.nextAlloc]
      refine ⟨?_, ?_, ?_⟩
      · rw [hslot, h.length]
        have hapart : slotAt cfg s.nextAlloc + 8 + 4 ≤ slotAt cfg s.nextAlloc + 12 := by omega
        exact (Mem.load_store_of_apart _ (.inl hapart)).trans
          (Mem.load_store_self s.ring _ (le 4 _))
      · rw [hslot, Mem.length_load]
        exact Mem.load_store_self _ _ (le 4 _)
      · rw [hslot, Mem.length_load]
  · change s.writes = ((messages ++ [_]).take s.nextSend).mapIdx _
    rw [List.take_append_of_le_length (hle.trans h.length.ge)]
    exact h.writes

/-- A message is written that is not to be posted yet. -/
theorem store (h : Queued cfg messages s) (hm : messages[m]? = some message)
    (hle : s.sendBefore ≤ m) {k : Nat} (bs : Bytes) (hk : k + bs.length ≤ message.length) :
    Queued cfg (messages.set m (Mem.load (Mem.store s.ring (slotAt cfg m + headerSize + k) bs)
        (slotAt cfg m + headerSize) message.length))
      { s with ring := Mem.store s.ring (slotAt cfg m + headerSize + k) bs } := by
  have hlt := h.lt_nextSlot hm
  have hf := h.fits message (List.mem_of_getElem? hm)
  have hin := hf.1
  have hroom := h.room
  have hfree : s.nextFree ≤ s.sendBefore :=
    (Nat.le_of_add_right_le h.outstanding.le).trans h.sendBefore
  have ht : 0 < cfg.tail := by omega
  unfold headerSize at hin
  refine ⟨h.nextAlloc, (List.length_set ..).trans h.length, h.outstanding, h.sendBefore,
    h.nextSlot, h.room, ?_, h.toSend, ?_, ?_⟩
  · intro x hx
    rcases List.mem_or_eq_of_mem_set hx with hx | rfl
    · exact h.fits x hx
    · rw [Mem.length_load]
      exact hf
  · intro m' x hx hlo
    rw [List.getElem?_set] at hx
    split at hx
    · next he =>
        subst he
        obtain rfl : Mem.load _ _ _ = x := by
          split at hx
          · exact Option.some.inj hx
          · cases hx
        have hs := h.slots m message hm hlo
        have hapart : ∀ off n, off + n ≤ headerSize → slotAt cfg m + off + n ≤
            slotAt cfg m + headerSize + k := fun off n hn => by omega
        refine ⟨?_, ?_, ?_⟩
        · exact (Mem.load_store_of_apart _ (.inl (hapart 8 4 (by decide)))).trans hs.incarnation
        · rw [Mem.length_load]
          exact (Mem.load_store_of_apart _ (.inl (hapart 12 4 (by decide)))).trans hs.size
        · rw [Mem.length_load]
    · next hne =>
        have hlt' := h.lt_nextSlot hx
        change s.nextFree ≤ m' at hlo
        have hne' : m' % cfg.tail ≠ m % cfg.tail := fun he =>
          hne (Ring.eq_of_mod_eq he (by omega) (by omega)).symm
        refine (h.slots m' x hx hlo).store (h.fits x (List.mem_of_getElem? hx)) ht hne' ?_ ?_
        · unfold headerSize
          omega
        · unfold headerSize
          omega
  · rw [List.take_set_of_le (h.sendBefore.trans hle)]
    exact h.writes

/-- The messages that were pushed and those that are to be. -/
theorem pushToQp {l : List Nat} (h : Queued cfg messages { s with toSend := l }) :
    Queued cfg messages (s.pushToQp cfg l) := by
  induction l generalizing s with
  | nil => exact h
  | cons slot rest ih =>
      unfold SyncSender.pushToQp
      split
      · next hlt =>
          have hslot : s.nextSend < s.nextSlot := Nat.lt_of_lt_of_le hlt.1 h.nextSlot
          have hts := h.toSend
          change slot :: rest = (List.range' s.nextSend (s.nextSlot - s.nextSend)).map _ at hts
          rw [show s.nextSlot - s.nextSend = s.nextSlot - (s.nextSend + 1) + 1 by omega,
            List.range'_succ, List.map_cons, List.cons.injEq] at hts
          obtain ⟨rfl, hrest⟩ := hts
          obtain ⟨message, hm⟩ : ∃ message, messages[s.nextSend]? = some message :=
            ⟨_, List.getElem?_eq_getElem (hslot.trans_le h.length.ge)⟩
          have hfree : s.nextFree ≤ s.nextSend := Nat.le_of_add_right_le h.outstanding.le
          have hs := h.slots s.nextSend message hm hfree
          have hf := h.fits message (List.mem_of_getElem? hm)
          have hsize : ofLe (Mem.load s.ring (slotAt cfg s.nextSend + 12) 4) = message.length := by
            refine (congrArg ofLe hs.size).trans (ofLe_le_of_lt ?_)
            exact (Nat.le_add_left ..).trans_lt hf.2.1
          have hdata : Mem.load s.ring (slotAt cfg s.nextSend + headerSize) message.length =
              message := hs.data
          simp only [hsize, hdata, Nat.mod_eq_of_lt hf.2.1]
          have hload := hs.load
          change Mem.load (Mem.store s.ring _ _) _ _ = _ at hload
          refine ih ⟨h.nextAlloc, h.length, congrArg (· + 1) h.outstanding, hlt.1, h.nextSlot,
            h.room, h.fits, hrest, fun m x hx hlo => ?_, ?_⟩
          · by_cases hne : m = s.nextSend
            · subst hne
              obtain rfl := Option.some.inj (hm.symm.trans hx)
              exact hs.hash (length_le 8 _)
            · have hlt' := h.lt_nextSlot hx
              have hroom := h.room
              change m < s.nextSlot at hlt'
              change s.nextSlot ≤ s.nextFree + cfg.tail at hroom
              change s.nextFree ≤ m at hlo
              have hne' : m % cfg.tail ≠ s.nextSend % cfg.tail := fun he =>
                hne (Ring.eq_of_mod_eq he (by omega) (by omega))
              have hin := hf.1
              unfold headerSize at hin
              refine (h.slots m x hx hlo).store (h.fits x (List.mem_of_getElem? hx)) (by omega) hne'
                (Nat.le_refl _) ?_
              rw [length_le]
              omega
          · change s.writes ++ [⟨_, _⟩] = _
            rw [hload, List.take_add_one, hm, Option.toList_some, List.mapIdx_concat,
              List.length_take_of_le (hslot.le.trans h.length.ge)]
            exact congrArg (· ++ [Write.of cfg s.nextSend message]) h.writes
      · exact h

/-- All that was given may be posted. -/
theorem send (h : Queued cfg messages s) :
    Queued cfg messages (s.send cfg) ∧ (s.send cfg).sendBefore = s.nextSlot := by
  refine ⟨pushToQp { h with
    sendBefore := h.sendBefore.trans h.nextSlot
    nextSlot := Nat.le_refl _ }, ?_⟩
  exact (pushToQp_frame cfg s.toSend { s with sendBefore := s.nextSlot }).2.2

/-- Slots are released in order. -/
theorem complete {n : Nat} (h : Queued cfg messages s) (hn : n ≤ s.outstandingWrites)
    (hs : s.complete n = .ok s') :
    Queued cfg messages s' ∧ s'.sendBefore = s.sendBefore := by
  induction n generalizing s with
  | zero =>
      cases hs
      exact ⟨h, rfl⟩
  | succ n ih =>
      unfold SyncSender.complete at hs
      split at hs
      · cases hs
      · have ho := h.outstanding
        have hr := h.room
        refine ih (s := { s with
          nextFree := s.nextFree + 1
          outstandingWrites := s.outstandingWrites - 1 })
          { h with outstanding := ?_, room := ?_, slots := fun m x hx hlo =>
              h.slots m x hx (Nat.le_of_succ_le hlo) } (Nat.le_sub_one_of_lt hn) hs
        · change s.nextFree + 1 + (s.outstandingWrites - 1) = s.nextSend
          omega
        · change s.nextSlot ≤ s.nextFree + 1 + cfg.tail
          omega

theorem tick {n : Nat} (h : Queued cfg messages s) (hn : n ≤ s.outstandingWrites)
    (hs : s.tick cfg n = .ok s') :
    Queued cfg messages s' ∧ s'.sendBefore = s.sendBefore := by
  obtain ⟨s₁, h₁, h₂⟩ := bind_eq_ok.mp hs
  cases h₂
  obtain ⟨hq, hb⟩ := h.complete hn h₁
  exact ⟨pushToQp hq, (pushToQp_frame cfg s₁.toSend s₁).2.2.trans hb⟩

/-- The messages in the ring that are not posted. -/
theorem map_toSend (h : Queued cfg messages s) :
    s.toSend.map (fun slot => Mem.load s.ring (slot + headerSize)
      (ofLe (Mem.load s.ring (slot + 12) 4))) = messages.drop s.nextSend := by
  have hfree : s.nextFree ≤ s.nextSend := Nat.le_of_add_right_le h.outstanding.le
  have hlen := h.length
  refine List.ext_getElem ?_ fun k hk hk' => ?_
  · rw [List.length_map, h.toSend, List.length_map, List.length_range', List.length_drop, hlen]
  · rw [List.length_drop] at hk'
    have hlt : s.nextSend + k < messages.length := by omega
    have hm := List.getElem?_eq_getElem hlt
    have hs := h.slots (s.nextSend + k) _ hm (by omega)
    have hf := h.fits _ (List.getElem_mem hlt)
    simp only [List.getElem_map, h.toSend, List.getElem_range', Nat.one_mul, List.getElem_drop,
      hs.size]
    rw [ofLe_le_of_lt ((Nat.le_add_left ..).trans_lt hf.2.1)]
    exact hs.data

end Queued

end SyncSender

/-! ### The buffers -/

theorem Buffer.data_write (b : Buffer) (k : Nat) (v : UInt8) :
    (b.write k v).data = b.data.set k v := by
  have hload := Mem.load_store_byte b.bytes 0 (k := k) (n := b.size) v
  rw [Nat.zero_add] at hload
  exact hload

namespace AsyncSender

variable {cfg : Config} {messages : List Bytes} {s s₁ : AsyncSender} {b : Buffer} {l : List Buffer}

open SyncSender (Fits Queued)

/-- A buffer is copied to the ring. -/
theorem queued_forward (h : Queued cfg messages s.sender) (hroom : ¬ s.sender.Full cfg)
    (hf : Fits cfg b.size) : Queued cfg (messages ++ [b.data]) (s.forward cfg b).sender := by
  have hlast : ∀ x : Bytes, (messages ++ [x])[messages.length]? = some x := fun x =>
    List.getElem?_concat_length
  have hdata : b.data.length = b.size := Mem.length_load ..
  have hslot : slotAt cfg messages.length = slotAt cfg s.sender.nextAlloc := by
    rw [h.length, h.nextAlloc]
  have hstore := (h.given hroom hf).store (hlast _) (h.nextSlot.trans h.length.ge) (k := 0)
    b.data (by rw [Mem.length_load, hdata, Nat.zero_add])
  rw [hslot, Nat.add_zero, Mem.length_load, ← hdata, Mem.load_store_self, hdata,
    List.set_append_right _ _ (Nat.le_refl _), Nat.sub_self, List.set_cons_zero] at hstore
  exact hstore.send.1

/-- Some buffers are copied, in order. -/
theorem queued_pushToSender (h : Queued cfg messages s.sender) (hf : ∀ b ∈ l, Fits cfg b.size)
    (hs : s.pushToSender cfg l = .ok s₁) :
    ∃ k, Queued cfg (messages ++ (l.take k).map Buffer.data) s₁.sender ∧
      s₁.tailBuffer = l.drop k := by
  induction l generalizing s messages with
  | nil =>
      cases hs
      exact ⟨0, by rwa [List.take_nil, List.map_nil, List.append_nil], rfl⟩
  | cons b l ih =>
      obtain ⟨-, ⟨-, rfl⟩ | ⟨hroom, hs⟩⟩ := pushToSender_cons_eq_ok.mp hs
      · exact ⟨0, by rwa [List.take_zero, List.map_nil, List.append_nil], rfl⟩
      · obtain ⟨k, hq, ht⟩ := ih (queued_forward h hroom (hf b List.mem_cons_self))
          (fun x hx => hf x (List.mem_cons_of_mem _ hx)) hs
        refine ⟨k + 1, ?_, ht⟩
        rwa [List.take_succ_cons, List.map_cons, List.append_cons]

end AsyncSender

/-! ### Runs -/

namespace Spool

open SyncSender (Fits Queued)

variable {cfg : Config} {messages : List Bytes} {s s' : Spool}

/-- The caller writes where it was told to, and calls `send` before `tick`. -/
def Disciplined (s : Spool) : Call → Prop
  | .getSlot _ | .send => True
  | .write i k _ => ∃ e ∈ s.group[i]?, k < e.2.length
  | .tick _ => s.group = []

instance (s : Spool) : DecidablePred s.Disciplined
  | .getSlot _ | .send => inferInstanceAs (Decidable True)
  | .write i k _ => inferInstanceAs (Decidable (∃ e ∈ s.group[i]?, k < e.2.length))
  | .tick _ => inferInstanceAs (Decidable (_ = _))

/-- A slot has room for the message. -/
def Fits (cfg : Config) : Call → Prop
  | .getSlot size => SyncSender.Fits cfg size.toNat
  | .write .. | .send | .tick _ => True

instance (cfg : Config) : DecidablePred (Fits cfg)
  | .getSlot _ => inferInstanceAs (Decidable (SyncSender.Fits cfg _))
  | .write .. | .send | .tick _ => inferInstanceAs (Decidable True)

/-- The messages obtained, in order. -/
def obtained (s : Spool) : List Bytes := s.sent ++ s.group.map (·.2)

/-- The messages that are not posted: in the ring, in the tail, and being written. -/
def pending (s : Spool) : List Bytes :=
  s.async.sender.toSend.map (fun slot => Mem.load s.async.sender.ring (slot + headerSize)
      (ofLe (Mem.load s.async.sender.ring (slot + 12) 4))) ++
    s.async.tailBuffer.map Buffer.data ++ s.async.beingWritten.map Buffer.data

/-- Where the `m`-th message is. -/
def pointer (cfg : Config) (s : AsyncSender) (m : Nat) : Pointer :=
  if m < s.sender.nextSlot then .slot (slotAt cfg m + headerSize)
  else .buffer (m - s.sender.nextSlot - s.tailBuffer.length)

/-- The messages are those of the ring, of the tail, and those being written. -/
structure Spooled (cfg : Config) (messages : List Bytes) (s : Spool) : Prop where
  queued : Queued cfg messages s.async.sender
  obtained : s.obtained = messages ++ s.async.tailBuffer.map Buffer.data ++
    s.async.beingWritten.map Buffer.data
  fits : ∀ b ∈ s.async.tailBuffer ++ s.async.beingWritten, SyncSender.Fits cfg b.size
  settled : s.async.Settled cfg
  full : s.async.beingWritten = [] ∨ s.async.sender.Full cfg
  sendBefore : s.async.sender.sendBefore ≤ s.sent.length
  tailBuffer : s.async.tailBuffer = [] ∨
    messages.length + s.async.tailBuffer.length ≤ s.sent.length
  beingWritten : s.async.beingWritten.length ≤ s.group.length
  pointers : ∀ i e, s.group[i]? = some e → e.1 = pointer cfg s.async (s.sent.length + i)

namespace Spooled

theorem length (h : Spooled cfg messages s) : s.sent.length + s.group.length =
    messages.length + s.async.tailBuffer.length + s.async.beingWritten.length := by
  have hlen := congrArg List.length h.obtained
  simpa only [Spool.obtained, List.length_append, List.length_map] using hlen

/-- The slots come first. -/
theorem pointer_slot {s : AsyncSender} {m : Nat} (h : m < s.sender.nextSlot) :
    pointer cfg s m = .slot (slotAt cfg m + headerSize) := if_pos h

/-- Behind the ring and the tail come the buffers being written. -/
theorem pointer_buffer {s : AsyncSender} {m : Nat} (h : s.sender.nextSlot ≤ m) :
    pointer cfg s m = .buffer (m - s.sender.nextSlot - s.tailBuffer.length) :=
  if_neg (Nat.not_lt.mpr h)

/-- A message is obtained in the ring. -/
theorem getSlot_direct (h : Spooled cfg messages s) {size : Nat} (hf : SyncSender.Fits cfg size)
    (hroom : ¬ s.async.sender.Full cfg) :
    ∃ messages', Spooled cfg messages' { s with
      async := { s.async with sender := s.async.sender.given cfg size }
      group := s.group ++ [(.slot (slotAt cfg s.async.sender.nextAlloc + headerSize),
        Mem.load (s.async.sender.given cfg size).ring
          (slotAt cfg s.async.sender.nextAlloc + headerSize) size)] } := by
  have htail := h.settled.resolve_right hroom
  have hbeing := h.full.resolve_right hroom
  have hlen := h.length
  have hslots := h.queued.length
  have hobtained := h.obtained
  rw [htail, hbeing, List.length_nil, Nat.add_zero] at hlen
  rw [htail, hbeing, List.map_nil, List.append_nil, List.append_nil] at hobtained
  refine ⟨_, h.queued.given hroom hf, ?_, h.fits, .inl htail, .inl hbeing, h.sendBefore,
    .inl htail, hbeing ▸ Nat.zero_le _, fun i e hi => ?_⟩
  · change s.sent ++ (s.group ++ [(Pointer.slot _, Mem.load _ _ _)]).map (·.2) =
      _ ++ s.async.tailBuffer.map Buffer.data ++ s.async.beingWritten.map Buffer.data
    rw [htail, hbeing, List.map_nil, List.append_nil, List.append_nil, List.map_append,
      ← List.append_assoc]
    exact congrArg (· ++ _) hobtained
  · have hnext : ∀ j, j ≤ s.group.length → s.sent.length + j <
        (s.async.sender.given cfg size).nextSlot := fun j hj => by
      change s.sent.length + j < s.async.sender.nextSlot + 1
      omega
    rcases Nat.lt_or_ge i s.group.length with hlt | hge
    · rw [List.getElem?_append_left hlt] at hi
      have hold : s.sent.length + i < s.async.sender.nextSlot := by omega
      exact (h.pointers i e hi).trans ((pointer_slot hold).trans
        (pointer_slot (hnext i hlt.le)).symm)
    · obtain ⟨hlt, he⟩ := List.getElem?_eq_some_iff.mp hi
      rw [List.length_append, List.length_singleton] at hlt
      obtain rfl : i = s.group.length := by omega
      rw [List.getElem_concat_length rfl] at he
      subst he
      refine Eq.trans ?_ (pointer_slot (hnext _ (Nat.le_refl _))).symm
      rw [hlen, hslots, h.queued.nextAlloc]

/-- A message is obtained in a buffer. -/
theorem getSlot_spilled (h : Spooled cfg messages s) {b : Buffer} (hf : SyncSender.Fits cfg b.size)
    (hfull : s.async.sender.Full cfg) (bufferPool : Pool) :
    Spooled cfg messages { s with
      async := { s.async with
        bufferPool
        beingWritten := s.async.beingWritten ++ [b] }
      group := s.group ++ [(.buffer s.async.beingWritten.length, b.data)] } := by
  have hlen := h.length
  have hslots := h.queued.length
  refine ⟨h.queued, ?_, fun x hx => ?_, h.settled, .inr hfull, h.sendBefore, h.tailBuffer, ?_,
    fun i e hi => ?_⟩
  · change s.sent ++ (s.group ++ [(Pointer.buffer _, b.data)]).map (·.2) =
      _ ++ (s.async.beingWritten ++ [b]).map _
    rw [List.map_append, List.map_append, ← List.append_assoc, ← List.append_assoc]
    exact congrArg (· ++ [b.data]) h.obtained
  · rcases List.mem_append.mp hx with hx | hx
    · exact h.fits x (List.mem_append_left _ hx)
    · rcases List.mem_append.mp hx with hx | hx
      · exact h.fits x (List.mem_append_right _ hx)
      · exact List.mem_singleton.mp hx ▸ hf
  · rw [List.length_append, List.length_append]
    exact Nat.add_le_add_right h.beingWritten 1
  · rcases Nat.lt_or_ge i s.group.length with hlt | hge
    · rw [List.getElem?_append_left hlt] at hi
      exact h.pointers i e hi
    · obtain ⟨hlt, he⟩ := List.getElem?_eq_some_iff.mp hi
      rw [List.length_append, List.length_singleton] at hlt
      obtain rfl : i = s.group.length := by omega
      rw [List.getElem_concat_length rfl] at he
      subst he
      have hge : s.async.sender.nextSlot ≤ s.sent.length + s.group.length := by omega
      refine Eq.trans (congrArg Pointer.buffer ?_) (pointer_buffer hge).symm
      omega

theorem getSlot (h : Spooled cfg messages s) {size : UInt32} (hf : SyncSender.Fits cfg size.toNat)
    (hs : s.next cfg (.getSlot size) = .ok s') : ∃ messages', Spooled cfg messages' s' := by
  obtain ⟨⟨p, async⟩, hget, hs⟩ := bind_eq_ok.mp hs
  cases hs
  obtain ⟨s₁, hs₁, -, h'⟩ := AsyncSender.getSlot_eq_ok.mp hget
  obtain rfl := h.settled.pushToSender_eq hs₁
  rcases h' with ⟨hroom, rfl, rfl⟩ | ⟨hfull, rfl, b, bufferPool, htake, rfl⟩
  · exact h.getSlot_direct hf hroom
  · have hsize : b.size = size.toNat := by
      obtain ⟨b', _, hle, rfl, ⟨-, -, ho⟩ | ⟨buffers, -, ho⟩⟩ := Pool.take_cases htake
      · cases ho
        rfl
      · cases ho
        rfl
    have hspilled := h.getSlot_spilled (hsize.symm ▸ hf) hfull bufferPool
    refine ⟨messages, ?_⟩
    rw [AsyncSender.contents, List.getElem?_concat_length, Option.map_some, Option.getD_some]
    exact hspilled

/-- A message that is written is still to be posted. -/
theorem set_obtained (h : Spooled cfg messages s) {i : Nat} {p : Pointer} {message : Bytes}
    (hi : s.group[i]? = some (p, message)) (message' : Bytes) :
    (messages ++ s.async.tailBuffer.map Buffer.data ++
        s.async.beingWritten.map Buffer.data)[s.sent.length + i]? = some message ∧
      s.sent ++ (s.group.set i (p, message')).map (·.2) =
        (messages ++ s.async.tailBuffer.map Buffer.data ++
          s.async.beingWritten.map Buffer.data).set (s.sent.length + i) message' := by
  rw [← h.obtained]
  constructor
  · rw [Spool.obtained, List.getElem?_append_right (Nat.le_add_right ..), Nat.add_sub_cancel_left,
      List.getElem?_map, hi, Option.map_some]
  · rw [Spool.obtained, List.set_append_right _ _ (Nat.le_add_right ..), Nat.add_sub_cancel_left,
      List.map_set]

theorem set_pointers (h : Spooled cfg messages s) {i : Nat} {p : Pointer}
    {message message' : Bytes} (hi : s.group[i]? = some (p, message)) (j : Nat)
    (e : Pointer × Bytes) (hj : (s.group.set i (p, message'))[j]? = some e) :
    e.1 = pointer cfg s.async (s.sent.length + j) := by
  rw [List.getElem?_set] at hj
  split at hj
  · next he =>
      subst he
      split at hj
      · cases hj
        exact h.pointers i (p, message) hi
      · cases hj
  · exact h.pointers j e hj

/-- A message is written that is in the ring. -/
theorem write_slot (h : Spooled cfg messages s) {i k : Nat} {v : UInt8} {p : Pointer}
    {message : Bytes} (hi : s.group[i]? = some (p, message)) (hk : k < message.length)
    (hlt : s.sent.length + i < s.async.sender.nextSlot) :
    ∃ messages', Spooled cfg messages' { s with
      async := s.async.write k v p
      group := s.group.set i (p, message.set k v) } := by
  obtain rfl : p = .slot (slotAt cfg (s.sent.length + i) + headerSize) :=
    (h.pointers i _ hi).trans (pointer_slot hlt)
  obtain ⟨hm, hset⟩ := h.set_obtained hi (message.set k v)
  have hlen : s.sent.length + i < messages.length := hlt.trans_le h.queued.length.ge
  rw [List.append_assoc] at hm hset
  rw [List.getElem?_append_left hlen] at hm
  rw [List.set_append_left _ _ hlen] at hset
  have hle : s.async.sender.sendBefore ≤ s.sent.length + i :=
    h.sendBefore.trans (Nat.le_add_right ..)
  have hfree : s.async.sender.nextFree ≤ s.sent.length + i :=
    (Nat.le_of_add_right_le h.queued.outstanding.le).trans (h.queued.sendBefore.trans hle)
  have hq := h.queued.store hm hle [v] hk
  rw [Mem.load_store_byte, (h.queued.slots _ _ hm hfree).data] at hq
  refine ⟨_, hq, ?_, h.fits, h.settled, h.full, h.sendBefore, ?_, ?_, h.set_pointers hi⟩
  · rw [List.append_assoc]
    exact hset
  · rw [List.length_set]
    exact h.tailBuffer
  · rw [List.length_set]
    exact h.beingWritten

/-- A message is written that is in a buffer. -/
theorem write_buffer (h : Spooled cfg messages s) {i k : Nat} {v : UInt8} {p : Pointer}
    {message : Bytes} (hi : s.group[i]? = some (p, message))
    (hge : s.async.sender.nextSlot ≤ s.sent.length + i) :
    Spooled cfg messages { s with
      async := s.async.write k v p
      group := s.group.set i (p, message.set k v) } := by
  have hslots := h.queued.length
  -- it was obtained after those of the tail
  have htail : messages.length + s.async.tailBuffer.length ≤ s.sent.length + i := by
    rcases h.tailBuffer with hnil | hle
    · rw [hnil, List.length_nil, Nat.add_zero, hslots]
      exact hge
    · exact hle.trans (Nat.le_add_right ..)
  obtain ⟨j, hj⟩ := Nat.exists_eq_add_of_le htail
  have hp : p = .buffer j := by
    refine (h.pointers i _ hi).trans ((pointer_buffer hge).trans (congrArg Pointer.buffer ?_))
    omega
  subst hp
  obtain ⟨hm, hset⟩ := h.set_obtained hi (message.set k v)
  have hlen : (messages ++ s.async.tailBuffer.map Buffer.data).length =
      messages.length + s.async.tailBuffer.length := by
    rw [List.length_append, List.length_map]
  rw [hj, List.getElem?_append_right (hlen.le.trans (Nat.le_add_right ..)), hlen,
    Nat.add_sub_cancel_left, List.getElem?_map] at hm
  rw [hj, List.set_append_right _ _ (hlen.le.trans (Nat.le_add_right ..)), hlen,
    Nat.add_sub_cancel_left] at hset
  obtain ⟨b, hb, rfl⟩ := Option.map_eq_some_iff.mp hm
  have hwrite : (s.async.beingWritten.modify j (·.write k v)).map Buffer.data =
      (s.async.beingWritten.map Buffer.data).set j (b.data.set k v) := by
    refine List.ext_getElem? fun x => ?_
    rw [List.getElem?_map, List.getElem?_modify, List.getElem?_set, List.getElem?_map]
    split
    · next he =>
        subst he
        rw [hb, if_pos (by rw [List.length_map]; exact (List.getElem?_eq_some_iff.mp hb).1)]
        exact congrArg some (b.data_write k v)
    · cases s.async.beingWritten[x]? <;> rfl
  refine ⟨h.queued, ?_, fun x hx => ?_, h.settled, ?_, h.sendBefore, h.tailBuffer, ?_,
    h.set_pointers hi⟩
  · change _ = messages ++ _ ++ (s.async.beingWritten.modify j (·.write k v)).map Buffer.data
    rw [hwrite]
    exact hset
  · rcases List.mem_append.mp hx with hx | hx
    · exact h.fits x (List.mem_append_left _ hx)
    · obtain ⟨y, hy⟩ := List.mem_iff_getElem?.mp hx
      change (s.async.beingWritten.modify j (·.write k v))[y]? = some x at hy
      rw [List.getElem?_modify] at hy
      obtain ⟨x', hx', rfl⟩ := Option.map_eq_some_iff.mp hy
      have hf := h.fits x' (List.mem_append_right _ (List.mem_of_getElem? hx'))
      split <;> exact hf
  · refine h.full.imp_left fun hnil => ?_
    change s.async.beingWritten.modify j (·.write k v) = []
    rw [hnil, List.modify_nil]
  · rw [List.length_set]
    exact (List.length_modify ..).le.trans h.beingWritten

/-- A byte of a message that is not sent. -/
theorem write (h : Spooled cfg messages s) {i k : Nat} {v : UInt8}
    (hd : s.Disciplined (.write i k v)) (hs : s.next cfg (.write i k v) = .ok s') :
    ∃ messages', Spooled cfg messages' s' := by
  obtain ⟨⟨p, message⟩, hi, hk⟩ := hd
  have hi : s.group[i]? = some (p, message) := hi
  obtain rfl | ⟨p', message', hi', rfl⟩ := write_cases hs
  · exact ⟨messages, h⟩
  · cases hi.symm.trans hi'
    rcases Nat.lt_or_ge (s.sent.length + i) s.async.sender.nextSlot with hlt | hge
    · exact h.write_slot hi hk hlt
    · exact ⟨messages, h.write_buffer hi hge⟩

/-- Nothing is being written any more. -/
theorem send (h : Spooled cfg messages s) (hs : s.next cfg .send = .ok s') :
    Spooled cfg messages s' := by
  obtain ⟨async, hsend, hs⟩ := bind_eq_ok.mp hs
  cases hs
  obtain ⟨ha, hf, hb⟩ := SyncSender.pushToQp_frame cfg s.async.sender.toSend
    { s.async.sender with sendBefore := s.async.sender.nextSlot }
  have hlen := h.length
  -- Nothing is pushed: the ring is full, or there is nothing to push.
  have hset : (s.async.tailBuffer = [] ∧ s.async.beingWritten = []) ∨
      (s.async.sender.send cfg).Full cfg := by
    by_cases hfull : s.async.sender.Full cfg
    · exact .inr (ha.trans (hfull.trans (congrArg (· + cfg.tail) hf.symm)))
    · exact .inl ⟨h.settled.resolve_right hfull, h.full.resolve_right hfull⟩
  have hasync : async = { s.async with
      sender := s.async.sender.send cfg
      beingWritten := []
      tailBuffer := s.async.tailBuffer ++ s.async.beingWritten } := by
    rcases hset with ⟨htail, hbeing⟩ | hfull
    · rw [AsyncSender.send, htail, hbeing] at hsend
      rw [htail, hbeing]
      exact (Except.ok.inj hsend).symm
    · exact AsyncSender.pushToSender_of_full hfull hsend
  subst hasync
  refine ⟨h.queued.send.1, ?_, ?_, ?_, .inl rfl, ?_, .inr ?_, Nat.zero_le _, nofun⟩
  · change (s.sent ++ s.group.map (·.2)) ++ [] =
      messages ++ (s.async.tailBuffer ++ s.async.beingWritten).map Buffer.data ++ []
    rw [List.append_nil, List.append_nil, List.map_append, ← List.append_assoc]
    exact h.obtained
  · rw [List.append_nil]
    exact h.fits
  · refine hset.imp_left fun ⟨htail, hbeing⟩ => ?_
    change s.async.tailBuffer ++ s.async.beingWritten = []
    rw [htail, hbeing, List.append_nil]
  · refine hb.le.trans ?_
    change s.async.sender.nextSlot ≤ (s.sent ++ s.group.map (·.2)).length
    rw [List.length_append, List.length_map, hlen, ← h.queued.length, Nat.add_assoc]
    exact Nat.le_add_right ..
  · change _ + (s.async.tailBuffer ++ s.async.beingWritten).length ≤
      (s.sent ++ s.group.map (·.2)).length
    rw [List.length_append, List.length_append, List.length_map]
    omega

theorem tick (h : Spooled cfg messages s) {n : Nat} (hd : s.Disciplined (.tick n))
    (hs : s.next cfg (.tick n) = .ok s') : ∃ messages', Spooled cfg messages' s' := by
  obtain ⟨async, htick, hs⟩ := bind_eq_ok.mp hs
  cases hs
  obtain ⟨sender, hsender, hpush⟩ := bind_eq_ok.mp htick
  have hgroup : s.group = [] := hd
  have hbeing : s.async.beingWritten = [] := by
    have hle := h.beingWritten
    rw [hgroup] at hle
    exact List.eq_nil_of_length_eq_zero (Nat.le_zero.mp hle)
  have hlen := h.length
  have hobtained := h.obtained
  rw [hgroup, hbeing, List.length_nil] at hlen
  rw [Spool.obtained, hgroup, hbeing] at hobtained
  obtain ⟨hq, -⟩ := h.queued.tick (Nat.min_le_right ..) hsender
  obtain ⟨hset, hw, -⟩ := AsyncSender.settled_pushToSender hpush
  obtain ⟨k, hq', ht⟩ := AsyncSender.queued_pushToSender (s := { s.async with sender }) hq
    (fun b hb => h.fits b (List.mem_append_left _ hb)) hpush
  have hw : async.beingWritten = [] := hw.trans hbeing
  have hparts := List.take_append_drop k s.async.tailBuffer
  have hcount := congrArg List.length hparts
  rw [List.length_append] at hcount
  refine ⟨_, hq', ?_, fun b hb => ?_, hset, .inl hw, ?_, .inr ?_, hw ▸ Nat.zero_le _, ?_⟩
  · change s.sent ++ s.group.map (·.2) = _
    rw [hw, ht, hgroup, List.append_assoc messages, ← List.map_append, hparts]
    exact hobtained
  · rw [hw, ht, List.append_nil] at hb
    exact h.fits b (List.mem_append_left _ (List.mem_of_mem_drop hb))
  · refine (hq'.nextSlot.trans hq'.length.ge).trans ?_
    change _ ≤ s.sent.length
    rw [List.length_append, List.length_map]
    omega
  · change _ ≤ s.sent.length
    rw [ht, List.length_append, List.length_map]
    omega
  · change ∀ i e, s.group[i]? = some e → _
    rw [hgroup]
    exact fun _ _ => nofun

theorem start {ring : Nat → UInt8} (bufferPool : Pool) :
    Spooled cfg [] { async := { sender := { ring }, bufferPool } } := by
  refine ⟨⟨rfl, rfl, rfl, Nat.le_refl _, Nat.le_refl _, Nat.zero_le _, nofun, rfl, nofun, rfl⟩, rfl,
    nofun, .inl rfl, .inl rfl, Nat.le_refl _, .inl rfl, Nat.le_refl _, nofun⟩

end Spooled

theorem spooled_of_reachable
    (h : Reachable (Init cfg) (Step cfg) (fun s c => s.Disciplined c ∧ Fits cfg c) s) :
    ∃ messages, Spooled cfg messages s := by
  refine h.induct (P := fun s => ∃ messages, Spooled cfg messages s) ?_ ?_
  · rintro s ⟨ring, fresh, bufferPool, -, rfl⟩
    exact ⟨[], Spooled.start bufferPool⟩
  · rintro s c s' - ⟨messages, h⟩ ⟨hd, hf⟩ hs
    cases c with
    | getSlot size => exact h.getSlot hf hs
    | write i k v => exact h.write hd hs
    | send => exact ⟨messages, h.send hs⟩
    | tick n => exact h.tick hd hs

/-- **A queue.**  What is posted are the first messages sent, each once, as they were then and to
its own slot; and all the others that were obtained are still there, in order. -/
theorem posted_in_order
    (h : Reachable (Init cfg) (Step cfg) (fun s c => s.Disciplined c ∧ Fits cfg c) s) :
    ∃ n ≤ s.sent.length, s.async.sender.writes = (s.sent.take n).mapIdx (Write.of cfg) ∧
      s.obtained = s.sent.take n ++ s.pending := by
  obtain ⟨messages, h⟩ := spooled_of_reachable h
  have hle : s.async.sender.nextSend ≤ s.sent.length := h.queued.sendBefore.trans h.sendBefore
  have hlen : s.async.sender.nextSend ≤ messages.length :=
    (h.queued.sendBefore.trans h.queued.nextSlot).trans h.queued.length.ge
  have htake : messages.take s.async.sender.nextSend = s.sent.take s.async.sender.nextSend := by
    have hobtained := congrArg (List.take s.async.sender.nextSend) h.obtained
    rw [obtained, List.take_append_of_le_length hle, List.append_assoc,
      List.take_append_of_le_length hlen] at hobtained
    exact hobtained.symm
  refine ⟨s.async.sender.nextSend, hle, htake ▸ h.queued.writes, ?_⟩
  rw [pending, h.queued.map_toSend, ← htake, ← List.append_assoc, ← List.append_assoc,
    List.take_append_drop]
  exact h.obtained

namespace Example

/-- Another message was posted first than the first one sent. -/
def mixed (s : Spool) : Bool :=
  s.async.sender.writes.head?.isSome &&
    s.async.sender.writes.head? != s.sent.head?.map (Write.of (slots 2) 0)

end Example

/-- Two slots: the first message takes the whole of its slot and the header of the next one, that
the second message writes over. -/
theorem posted_mixed : ¬ ∀ (cfg : Config) (s : Spool),
    Reachable (Init cfg) (Step cfg) (fun s c => s.Disciplined c) s →
      ∃ n ≤ s.sent.length, s.async.sender.writes = (s.sent.take n).mapIdx (Write.of cfg) ∧
        s.obtained = s.sent.take n ++ s.pending := by
  intro h
  obtain ⟨s, hs, hsee⟩ : ∃ s, Reachable (Init (Example.slots 2)) (Step (Example.slots 2))
      (fun s c => s.Disciplined c) s ∧ Example.mixed s = true :=
    exists_reachable (Example.start 2) (Example.init_start 2)
      [.getSlot 24, .write 0 16 9, .getSlot 0, .send] (by decide +kernel)
  obtain ⟨n, -, hwrites, -⟩ := h (Example.slots 2) s hs
  obtain ⟨hsome, hne⟩ := (Bool.and_eq_true ..).mp hsee
  rw [hwrites] at hsome hne
  cases n with
  | zero => cases hsome
  | succ n =>
      cases hsent : s.sent with
      | nil =>
          rw [hsent] at hsome
          cases hsome
      | cons message rest =>
          rw [hsent, List.take_succ_cons, List.mapIdx_cons, List.head?_cons, List.head?_cons] at hne
          exact absurd hne (by simp)

/-- One slot: the first message is posted directly, and the second one from a buffer when the write
of the first completes. -/
theorem posted_in_order_two : ∃ s : Spool, s.sent = [[7], [8]] ∧ s.async.sender.writes.length = 2 ∧
    ∃ n ≤ s.sent.length,
      s.async.sender.writes = (s.sent.take n).mapIdx (Write.of (Example.slots 1)) ∧
        s.obtained = s.sent.take n ++ s.pending := by
  obtain ⟨s, hs, hsee⟩ : ∃ s, Reachable (Init (Example.slots 1)) (Step (Example.slots 1))
      (fun s c => s.Disciplined c ∧ Fits (Example.slots 1) c) s ∧
        (s.sent == [[7], [8]] && s.async.sender.writes.length == 2) = true :=
    exists_reachable (Example.start 1) (Example.init_start 1)
      [.getSlot 1, .write 0 0 7, .getSlot 1, .write 1 0 8, .send, .tick 1] (by decide +kernel)
  obtain ⟨hsent, hwrites⟩ := (Bool.and_eq_true ..).mp hsee
  exact ⟨s, beq_iff_eq.mp hsent, beq_iff_eq.mp hwrites, posted_in_order hs⟩

end Spool

end Ubft.TailP2p
