import Ubft.TailP2p.Slots

/-!
# TailP2p — messages held

What waits in the buffers of the asynchronous sender.  The pool never runs out, so nothing is
recycled, and as long as no write completes every message is one more buffer (`held_le`).
-/

namespace Ubft.TailP2p

open SyncSender (slotSize slotAt headerSize)

namespace AsyncSender

variable {cfg : Config} {s s' s₁ : AsyncSender} {size : Nat} {pointer : Pointer} {l : List Buffer}

/-- Nothing waits for a slot that is free. -/
def Settled (cfg : Config) (s : AsyncSender) : Prop := s.tailBuffer = [] ∨ s.sender.Full cfg

/-- When the ring is full, nothing moves. -/
theorem pushToSender_of_full (hfull : s.sender.Full cfg) (hs : s.pushToSender cfg l = .ok s₁) :
    s₁ = { s with tailBuffer := l } := by
  cases l with
  | nil => exact (Except.ok.inj hs).symm
  | cons b l =>
      obtain ⟨-, ⟨-, h⟩ | ⟨hroom, -⟩⟩ := pushToSender_cons_eq_ok.mp hs
      · exact h
      · exact absurd hfull hroom

/-- Nothing is pushed that was not before. -/
theorem Settled.pushToSender_eq (h : s.Settled cfg)
    (hs : s.pushToSender cfg s.tailBuffer = .ok s₁) : s₁ = s := by
  rcases h with hnil | hfull
  · rw [hnil] at hs
    cases hs
    rw [← hnil]
  · exact pushToSender_of_full hfull hs

/-- The tail is empty, or the ring is full. -/
theorem settled_pushToSender (hs : s.pushToSender cfg l = .ok s₁) :
    s₁.Settled cfg ∧ s₁.beingWritten = s.beingWritten ∧ s₁.tailBuffer.length ≤ l.length := by
  induction l generalizing s with
  | nil =>
      cases hs
      exact ⟨.inl rfl, rfl, Nat.le_refl _⟩
  | cons b l ih =>
      obtain ⟨-, ⟨hfull, rfl⟩ | ⟨-, hs⟩⟩ := pushToSender_cons_eq_ok.mp hs
      · exact ⟨.inr hfull, rfl, Nat.le_refl _⟩
      · obtain ⟨hset, hw, hl⟩ := ih hs
        exact ⟨hset, hw, Nat.le_succ_of_le hl⟩

/-- A message that no slot is free for is one more to hold. -/
theorem Settled.getSlot (h : s.Settled cfg) (hs : s.getSlot cfg size = .ok (pointer, s')) :
    s'.Settled cfg ∧ s'.held = if s.sender.Full cfg then s.held + 1 else s.held := by
  obtain ⟨s₁, hs₁, -, h'⟩ := getSlot_eq_ok.mp hs
  obtain rfl := h.pushToSender_eq hs₁
  rcases h' with ⟨hroom, -, rfl⟩ | ⟨hfull, -, b, p, -, rfl⟩
  · refine ⟨.inl ?_, (if_neg hroom).symm⟩
    exact h.resolve_right hroom
  · refine ⟨.inr hfull, ?_⟩
    rw [if_pos hfull, held, held, List.length_append, List.length_singleton]
    exact Nat.add_right_comm ..

theorem settled_send (hs : s.send cfg = .ok s') : s'.Settled cfg ∧ s'.held ≤ s.held := by
  obtain ⟨hset, hw, hl⟩ := settled_pushToSender hs
  refine ⟨hset, ?_⟩
  have hw : s'.beingWritten = [] := hw
  rw [held, held, hw, List.length_nil, Nat.zero_add, Nat.add_comm]
  exact hl.trans (List.length_append ..).le

theorem settled_tick {n : Nat} (hs : s.tick cfg n = .ok s') :
    s'.Settled cfg ∧ s'.held ≤ s.held := by
  obtain ⟨sender, -, hs⟩ := bind_eq_ok.mp hs
  obtain ⟨hset, hw, hl⟩ := settled_pushToSender hs
  refine ⟨hset, ?_⟩
  rw [held, held, hw]
  exact Nat.add_le_add_left hl _

theorem held_write (s : AsyncSender) (k : Nat) (v : UInt8) (pointer : Pointer) :
    (s.write k v pointer).held = s.held := by
  cases pointer with
  | slot data => rfl
  | buffer i => exact congrArg (· + s.tailBuffer.length) (List.length_modify ..)

theorem Settled.write (h : s.Settled cfg) (k : Nat) (v : UInt8) (pointer : Pointer) :
    (s.write k v pointer).Settled cfg := by
  cases pointer with
  | slot data => exact h
  | buffer i => exact h

end AsyncSender

namespace Spool

variable {cfg : Config} {s s' : Spool}

/-- A slot is free, or fewer messages than the tail are held. -/
def Roomy (cfg : Config) (s : Spool) : Call → Prop
  | .getSlot _ => ¬ s.async.sender.Full cfg ∨ s.async.held < cfg.tail
  | .write .. | .send | .tick _ => True

instance (cfg : Config) (s : Spool) : DecidablePred (s.Roomy cfg)
  | .getSlot _ => inferInstanceAs (Decidable (_ ∨ _))
  | .write .. | .send | .tick _ => inferInstanceAs (Decidable True)

theorem settled_of_reachable {good : Spool → Call → Prop}
    (h : Reachable (Init cfg) (Step cfg) good s) : s.async.Settled cfg := by
  refine h.induct (P := fun s => s.async.Settled cfg) ?_ ?_
  · rintro s ⟨ring, fresh, bufferPool, -, rfl⟩
    exact .inl rfl
  · rintro s c s' - h - hs
    cases c with
    | getSlot size =>
        obtain ⟨pointer, hget⟩ := getSlot_cases hs
        exact (h.getSlot hget).1
    | write i k v =>
        obtain rfl | ⟨pointer, message, -, rfl⟩ := write_cases hs
        · exact h
        · exact h.write ..
    | send =>
        obtain ⟨async, hsend, hs⟩ := bind_eq_ok.mp hs
        cases hs
        exact (AsyncSender.settled_send hsend).1
    | tick n =>
        obtain ⟨async, htick, hs⟩ := bind_eq_ok.mp hs
        cases hs
        exact (AsyncSender.settled_tick htick).1

/-- **The messages held.**  They are at most `tail` as long as every message finds a free slot or
fewer than `tail` messages held, and no longer. -/
theorem held_le (h : Reachable (Init cfg) (Step cfg) (Roomy cfg) s) :
    s.async.held ≤ cfg.tail ∧ ∀ size s', s.next cfg (.getSlot size) = .ok s' →
      (s'.async.held ≤ cfg.tail ↔ s.Roomy cfg (.getSlot size)) := by
  have hiff : ∀ {s : Spool}, s.async.Settled cfg → s.async.held ≤ cfg.tail → ∀ size s',
      s.next cfg (.getSlot size) = .ok s' →
        (s'.async.held ≤ cfg.tail ↔ s.Roomy cfg (.getSlot size)) := by
    intro s hset hle size s' hs
    obtain ⟨pointer, hget⟩ := getSlot_cases hs
    rw [(hset.getSlot hget).2]
    change _ ↔ ¬ s.async.sender.Full cfg ∨ s.async.held < cfg.tail
    by_cases hfull : s.async.sender.Full cfg
    · rw [if_pos hfull]
      exact ⟨.inr, fun h => h.resolve_left fun h => h hfull⟩
    · rw [if_neg hfull]
      exact ⟨fun _ => .inl hfull, fun _ => hle⟩
  have hle : s.async.held ≤ cfg.tail := by
    refine h.induct (P := fun s => s.async.held ≤ cfg.tail) ?_ ?_
    · rintro s ⟨ring, fresh, bufferPool, -, rfl⟩
      exact Nat.zero_le _
    · rintro s c s' hr hle hg hs
      cases c with
      | getSlot size => exact (hiff (settled_of_reachable hr) hle size s' hs).mpr hg
      | write i k v =>
          obtain rfl | ⟨pointer, message, -, rfl⟩ := write_cases hs
          · exact hle
          · exact (AsyncSender.held_write ..).le.trans hle
      | send =>
          obtain ⟨async, hsend, hs⟩ := bind_eq_ok.mp hs
          cases hs
          exact (AsyncSender.settled_send hsend).2.trans hle
      | tick n =>
          obtain ⟨async, htick, hs⟩ := bind_eq_ok.mp hs
          cases hs
          exact (AsyncSender.settled_tick htick).2.trans hle
  exact ⟨hle, hiff (settled_of_reachable h) hle⟩

namespace Example

/-- Slots of 24 bytes. -/
def slots (n : Nat) : Config := ⟨n, 8, fun _ => 0⟩

/-- Slots of eight bytes and `n` free buffers. -/
def start (n : Nat) : Spool :=
  { async := { sender := { ring := fun _ => 0 }, bufferPool := ⟨8, fun _ => 0,
      List.replicate n ⟨8, fun _ => 0, 8, Nat.le_refl _, by decide⟩⟩ } }

theorem init_start (n : Nat) : Init (slots n) (start n) := by
  refine ⟨fun _ => 0, fun _ => 0, _, ?_, rfl⟩
  change Pool.new (fun _ => 0) 8 n = _
  induction n with
  | zero => rfl
  | succ n ih =>
      rw [Pool.new, ih]
      rfl

end Example

/-- One slot, that no write ever leaves: the first message is in it, and the next two are held. -/
theorem held_two : ¬ ∀ (cfg : Config) (s : Spool), Reachable (Init cfg) (Step cfg) Always s →
    s.async.held ≤ cfg.tail := by
  intro h
  obtain ⟨s, hs, hsee⟩ : ∃ s, Reachable (Init (Example.slots 1)) (Step (Example.slots 1))
      (fun _ _ => True) s ∧ (s.async.held == 2) = true :=
    exists_reachable (Example.start 1) (Example.init_start 1)
      [.getSlot 1, .getSlot 1, .getSlot 1, .send] (by decide +kernel)
  have hle := h (Example.slots 1) s hs.always
  rw [beq_iff_eq.mp hsee] at hle
  exact absurd hle (by decide)

/-- One message is held, the tail of the sender. -/
theorem held_one : ∃ s : Spool, s.async.held = 1 ∧ s.async.held ≤ 1 ∧
    ∀ size s', s.next (Example.slots 1) (.getSlot size) = .ok s' →
      (s'.async.held ≤ 1 ↔ s.Roomy (Example.slots 1) (.getSlot size)) := by
  obtain ⟨s, hs, hsee⟩ : ∃ s, Reachable (Init (Example.slots 1)) (Step (Example.slots 1))
      (Roomy (Example.slots 1)) s ∧ (s.async.held == 1) = true :=
    exists_reachable (Example.start 1) (Example.init_start 1) [.getSlot 1, .getSlot 1, .send]
      (by decide +kernel)
  exact ⟨s, beq_iff_eq.mp hsee, held_le hs⟩

end Spool

end Ubft.TailP2p
