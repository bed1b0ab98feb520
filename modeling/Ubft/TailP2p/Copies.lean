import Ubft.TailP2p.Link

/-!
# TailP2p — what a poll copies

The ring of the receiver is written by another process, at any time and with anything, headers
included.  So each try of `poll` reads what it reads: nothing is assumed of two reads of one field.
The size of a message is one of them, and `tryPoll` copies that many bytes (`copies_le_iff`).
-/

namespace Ubft.TailP2p

/-- What a try of `poll` reads, in this order. -/
structure Reading where
  incarnation : UInt32
  hash : UInt64
  size : UInt32
  data : Nat → UInt8
  /-- The incarnation again. -/
  incarnation' : UInt32

namespace Reading

/-- The bytes that the copied header promises. -/
def content (r : Reading) : Bytes := (List.range r.size.toNat).map r.data

theorem length_content (r : Reading) : r.content.length = r.size.toNat := by
  rw [content, List.length_map, List.length_range]

/-- What is read of a slot that does not change. -/
def ofSlot (slot : Slot) : Reading :=
  ⟨slot.incarnation, slot.hash, UInt32.ofNat slot.size, slot.data, slot.incarnation⟩

end Reading

variable {cfg : Config} {c : Cursors} {r : Reading} {rs : List Reading}

/-- `tryPoll`, and what it copied to the buffer of its caller. -/
def tryPollReading (cfg : Config) (c : Cursors) (r : Reading) :
    Cursors × TryPollResult × List Bytes :=
  if r.incarnation < c.bestToDeliver.incarnation then (c, .empty, [])
  else
    let scanning := c.scanning r.incarnation
    if c.Wants scanning then
      if scanning.incarnation ≠ r.incarnation' then (c, .straggling, [r.content])
      else if r.hash = cfg.hash r.content then
        (c.deliver cfg scanning, .polled ⟨scanning, r.content⟩, [r.content])
      else (c, .straggling, [r.content])
    else (c.straggle cfg scanning, .straggling, [])

/-- The size `poll` returned, and what it copied to the buffer of its caller. -/
structure Polled where
  cursors : Cursors
  size : Option Nat := none
  copies : List Bytes := []

/-- The loop of `poll`, a try for each of `tail` readings. -/
def pollReading (cfg : Config) (c : Cursors) : List Reading → Polled
  | [] => { cursors := c }
  | r :: rs =>
    match tryPollReading cfg c r with
    | (cursors, .polled d, copies) => { cursors, size := some d.message.length, copies }
    | (cursors, .empty, copies) => { cursors, copies }
    | (cursors, .straggling, copies) =>
      let p := pollReading cfg cursors rs
      { p with copies := copies ++ p.copies }

/-- The slot is copied: it is not an old one, and its message is the one looked for or is on a
falling edge. -/
def Cursors.Copies (c : Cursors) (r : Reading) : Prop :=
  ¬ r.incarnation < c.bestToDeliver.incarnation ∧ c.Wants (c.scanning r.incarnation)

instance (c : Cursors) (r : Reading) : Decidable (c.Copies r) :=
  inferInstanceAs (Decidable (_ ∧ _))

/-- The tries of `poll`: where the receiver is when it makes each, and what it reads. -/
def tries (cfg : Config) (c : Cursors) : List Reading → List (Cursors × Reading)
  | [] => []
  | r :: rs =>
    match tryPollReading cfg c r with
    | (_, .polled _, _) | (_, .empty, _) => [(c, r)]
    | (cursors, .straggling, _) => (c, r) :: tries cfg cursors rs

/-- A slot that does not change is read as by `tryPoll`. -/
theorem tryPollReading_ofSlot (cfg : Config) (slots : Nat → Slot) (c : Cursors)
    (h : (slots c.nextToScan.index).size < 2 ^ 32) :
    tryPoll cfg slots c = ((tryPollReading cfg c (.ofSlot (slots c.nextToScan.index))).1,
      (tryPollReading cfg c (.ofSlot (slots c.nextToScan.index))).2.1) := by
  obtain ⟨r, hr⟩ : ∃ r, r = Reading.ofSlot (slots c.nextToScan.index) := ⟨_, rfl⟩
  have hcontent : r.content = (slots c.nextToScan.index).content := by
    have hsize : (UInt32.ofNat (slots c.nextToScan.index).size).toNat =
        (slots c.nextToScan.index).size := UInt32.toNat_ofNat_of_lt' h
    rw [hr, Reading.content, Reading.ofSlot, hsize]
    rfl
  have hinc : (slots c.nextToScan.index).incarnation = r.incarnation := by rw [hr]; rfl
  have hinc' : r.incarnation' = r.incarnation := by rw [hr]; rfl
  have hhash : (slots c.nextToScan.index).hash = r.hash := by rw [hr]; rfl
  unfold tryPoll tryPollReading
  dsimp only
  rw [← hr, ← hcontent, hinc, hinc', hhash]
  by_cases hold : r.incarnation < c.bestToDeliver.incarnation
  · rw [if_pos hold, if_pos hold]
  · by_cases hw : c.Wants (c.scanning r.incarnation)
    · have hsame : ¬ (c.scanning r.incarnation).incarnation ≠ r.incarnation := fun h => h rfl
      rw [if_neg hold, if_neg hold, if_pos hw, if_pos hw, if_neg hsame]
      split <;> rfl
    · rw [if_neg hold, if_neg hold, if_neg hw, if_neg hw]

/-- **What a try copies**: as many bytes as it read for a size, if it copies. -/
theorem tryPollReading_cases (cfg : Config) (c : Cursors) (r : Reading) :
    (tryPollReading cfg c r).2.2 = (if c.Copies r then [r.content] else []) ∧
      ∀ d, (tryPollReading cfg c r).2.1 = .polled d → c.Copies r ∧ d.message = r.content := by
  unfold tryPollReading
  by_cases hold : r.incarnation < c.bestToDeliver.incarnation
  · have hno : ¬ c.Copies r := fun h => h.1 hold
    rw [if_pos hold, if_neg hno]
    exact ⟨rfl, fun _ => nofun⟩
  · by_cases hw : c.Wants (c.scanning r.incarnation)
    · have hyes : c.Copies r := ⟨hold, hw⟩
      rw [if_neg hold, if_pos hw, if_pos hyes]
      split
      · exact ⟨rfl, fun _ => nofun⟩
      · split
        · exact ⟨rfl, fun d hd => by cases hd; exact ⟨hyes, rfl⟩⟩
        · exact ⟨rfl, fun _ => nofun⟩
    · have hno : ¬ c.Copies r := fun h => hw h.2
      rw [if_neg hold, if_neg hw, if_neg hno]
      exact ⟨rfl, fun _ => nofun⟩

/-- **What `poll` copies.**  It copies at most `maxMsgSize` bytes at a time, and returns at most
that, exactly when no size that it reads before a copy is larger. -/
theorem copies_le_iff (cfg : Config) (c : Cursors) (rs : List Reading) :
    ((∀ copy ∈ (pollReading cfg c rs).copies, copy.length ≤ cfg.maxMsgSize) ∧
        ∀ size ∈ (pollReading cfg c rs).size, size ≤ cfg.maxMsgSize) ↔
      ∀ t ∈ tries cfg c rs, t.1.Copies t.2 → t.2.size.toNat ≤ cfg.maxMsgSize := by
  induction rs generalizing c with
  | nil => exact ⟨fun _ => nofun, fun _ => ⟨nofun, nofun⟩⟩
  | cons r rs ih =>
      obtain ⟨hcopies, hpolled⟩ := tryPollReading_cases cfg c r
      have htry : (∀ copy ∈ (tryPollReading cfg c r).2.2, copy.length ≤ cfg.maxMsgSize) ↔
          (c.Copies r → r.size.toNat ≤ cfg.maxMsgSize) := by
        rw [hcopies, ← r.length_content]
        split
        · next h => exact ⟨fun hall _ => hall _ List.mem_cons_self, fun hle copy hc => by
            rw [List.mem_singleton.mp hc]
            exact hle h⟩
        · next h => exact ⟨fun _ h' => absurd h' h, fun _ => nofun⟩
      unfold pollReading tries
      rcases ht : tryPollReading cfg c r with ⟨cursors, result, copies⟩
      rw [ht] at htry hpolled
      have hone : (∀ t ∈ [(c, r)], t.1.Copies t.2 → t.2.size.toNat ≤ cfg.maxMsgSize) ↔
          ∀ copy ∈ copies, copy.length ≤ cfg.maxMsgSize := by
        rw [List.forall_mem_singleton]
        exact htry.symm
      cases result with
      | polled d =>
          obtain ⟨hc, hd⟩ := hpolled d rfl
          refine (and_iff_left_of_imp fun hall size hsize => ?_).trans hone.symm
          cases hsize
          rw [hd, r.length_content]
          exact htry.mp hall hc
      | empty => exact (and_iff_left nofun).trans hone.symm
      | straggling =>
          rw [List.forall_mem_cons, ← ih, ← htry, ← and_assoc]
          refine and_congr_left' ?_
          rw [← List.forall_mem_append]

/-- A slot of 8 bytes, whose header says 9. -/
theorem copies_nine : ¬ ∀ (cfg : Config) (c : Cursors) (rs : List Reading),
    (∀ copy ∈ (pollReading cfg c rs).copies, copy.length ≤ cfg.maxMsgSize) ∧
      ∀ size ∈ (pollReading cfg c rs).size, size ≤ cfg.maxMsgSize := by
  intro h
  obtain ⟨-, hsize⟩ := h ⟨1, 8, fun _ => 0⟩ {} [⟨1, 0, 9, fun _ => 0, 1⟩]
  exact absurd (hsize 9 (by decide)) (by decide)

end Ubft.TailP2p
