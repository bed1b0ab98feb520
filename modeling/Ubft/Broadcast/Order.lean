import Ubft.Broadcast.Receiver

/-!
# Broadcast — the order of the messages

A receiver takes the messages of its broadcaster in increasing order of index: an index is taken
at most once, though the tail drops messages and polling removes them (`Fifo`).  What the slow
path reads of a message (`held`) changes with the operation that says so, and echoes do not
touch it (`SameSlow`).
-/

namespace Ubft.Broadcast

variable {cr : Crypto} {r r' : Receiver}

/-! ### What the slow path sees -/

/-- A message of the tail, without its echoes. -/
structure Held where
  message : Bytes
  signature : Option Signature
  checkedReceivers : List ProcId

/-- What an entry holds but its echoes. -/
def MessageData.held (d : MessageData) : Held := ⟨d.message, d.signature, d.checkedReceivers⟩

namespace Receiver

/-- The message of the tail at an index, as the slow path sees it. -/
def held (r : Receiver) (i : Index) : Option Held := (r.msgTail.find? i).map MessageData.held

theorem held_of_find? {i : Index} {d : MessageData} (h : r.msgTail.find? i = some d) :
    r.held i = some d.held := by
  rw [held, h, Option.map_some]

/-- A change in place, as it is held. -/
theorem held_modify (r : Receiver) (i k : Index) (f : MessageData → MessageData) :
    ({ r with msgTail := r.msgTail.modify i f } : Receiver).held k =
      if k = i then (r.msgTail.find? i).map (fun d => (f d).held) else r.held k := by
  simp only [held, OrdMap.find?_modify]
  split
  · rw [Option.map_map]; rfl
  · rfl

/-- `i` is above every index taken so far. -/
def Fresh (r : Receiver) (i : Index) : Prop :=
  (∀ l ∈ r.latestPolledMessage, l < i) ∧ ∀ k h, r.held k = some h → k < i

/-- An index is taken once. -/
structure Fifo (r : Receiver) : Prop where
  tail_pos : 0 < r.tail
  latest_lt : ∀ l ∈ r.latestPolledMessage, ∀ k h, r.held k = some h → l < k
  received_lt : ∀ m ∈ r.received, ∀ i, r.Fresh i → index m < i
  unique : ∀ m ∈ r.received, ∀ m' ∈ r.received, index m = index m' → m = m'
  held_received : ∀ i h, r.held i = some h → h.message ∈ r.received ∧ index h.message = i

/-- The order is that of the messages; their signatures and checks do not matter. -/
theorem Fifo.congr (hf : r.Fifo) (ht : r'.tail = r.tail)
    (hl : r'.latestPolledMessage = r.latestPolledMessage) (hr : r'.received = r.received)
    (hm : ∀ i, (r'.held i).map Held.message = (r.held i).map Held.message) : r'.Fifo := by
  have fwd : ∀ {i h}, r.held i = some h → ∃ h', r'.held i = some h' ∧ h'.message = h.message := by
    intro i h hi
    have := hm i
    rw [hi, Option.map_some] at this
    exact Option.map_eq_some_iff.mp this
  have bwd : ∀ {i h'}, r'.held i = some h' → ∃ h, r.held i = some h ∧ h.message = h'.message := by
    intro i h' hi
    have := (hm i).symm
    rw [hi, Option.map_some] at this
    exact Option.map_eq_some_iff.mp this
  refine ⟨ht ▸ hf.tail_pos, fun l h k d hk => ?_, fun m h i hi => ?_, ?_, fun i d hd => ?_⟩
  · obtain ⟨d₀, hd₀, -⟩ := bwd hk
    exact hf.latest_lt l (hl ▸ h) k d₀ hd₀
  · refine hf.received_lt m (hr ▸ h) i ⟨fun l h => hi.1 l (hl ▸ h), fun k d hk => ?_⟩
    obtain ⟨d', hd', -⟩ := fwd hk
    exact hi.2 k d' hd'
  · rw [hr]; exact hf.unique
  · obtain ⟨d₀, hd₀, he⟩ := bwd hd
    rw [hr, ← he]
    exact hf.held_received i d₀ hd₀

/-- Nothing but echoes was handled between the two states. -/
structure SameSlow (r r' : Receiver) : Prop where
  tail : r'.tail = r.tail
  others : r'.others = r.others
  latestPolledMessage : r'.latestPolledMessage = r.latestPolledMessage
  held : ∀ i, r'.held i = r.held i
  checks : r'.checks = r.checks
  verifiedSignatures : r'.verifiedSignatures = r.verifiedSignatures
  outstandingWrites : r'.outstandingWrites = r.outstandingWrites
  outstandingReads : r'.outstandingReads = r.outstandingReads
  received : r'.received = r.received
  written : r'.written = r.written
  completed : r'.completed = r.completed
  begun : r'.begun = r.begun
  polled : r'.polled = r.polled

namespace SameSlow

theorem refl (r : Receiver) : SameSlow r r :=
  ⟨rfl, rfl, rfl, fun _ => rfl, rfl, rfl, rfl, rfl, rfl, rfl, rfl, rfl, rfl⟩

theorem trans {r'' : Receiver} (h : SameSlow r r') (h' : SameSlow r' r'') : SameSlow r r'' :=
  ⟨h'.1.trans h.1, h'.2.trans h.2, h'.3.trans h.3, fun i => (h'.4 i).trans (h.4 i),
    h'.5.trans h.5, h'.6.trans h.6, h'.7.trans h.7, h'.8.trans h.8, h'.9.trans h.9,
    h'.10.trans h.10, h'.11.trans h.11, h'.12.trans h.12, h'.13.trans h.13⟩

/-- The fast path leaves the order alone. -/
theorem fifo (h : SameSlow r r') (hf : r.Fifo) : r'.Fifo :=
  hf.congr h.tail h.latestPolledMessage h.received fun i => by rw [h.held]

end SameSlow

/-! ### Echoes -/

/-- An echo is not part of what is held. -/
theorem held_echoed (cr : Crypto) (d : MessageData) (q : ProcId) (e : Buffer) :
    (d.echoed cr q e).1.held = d.held := by
  unfold MessageData.echoed
  simp only
  split <;> rfl

theorem sameSlow_echo {i : Index} {q : ProcId} {e : Buffer} (h : r.echo cr i q e = .ok r') :
    SameSlow r r' := by
  unfold echo at h
  split at h
  · cases h; exact .refl r
  · next d hd =>
      simp only at h
      split at h
      · cases h
        refine ⟨rfl, rfl, rfl, fun k => ?_, rfl, rfl, rfl, rfl, rfl, rfl, rfl, rfl, rfl⟩
        rw [held_modify]
        split
        · next hk => rw [hk, held_of_find? hd, hd, Option.map_some, held_echoed]
        · rfl
      · cases h

/-- Buffered echoes are no concern of the slow path. -/
theorem sameSlow_buffered (r : Receiver) (b : ProcId → List Buffer) :
    SameSlow r { r with bufferedEchoes := b } :=
  ⟨rfl, rfl, rfl, fun _ => rfl, rfl, rfl, rfl, rfl, rfl, rfl, rfl, rfl, rfl⟩

theorem sameSlow_replayEcho {i : Index} {q : ProcId} (h : r.replayEcho cr i q = .ok r') :
    SameSlow r r' := by
  unfold replayEcho at h
  split at h
  · cases h; exact sameSlow_buffered r _
  · split at h
    · exact (sameSlow_buffered r _).trans (sameSlow_echo h)
    · cases h; exact sameSlow_buffered r _

theorem sameSlow_replayEchoes {i : Index} {qs : List ProcId}
    (h : r.replayEchoes cr i qs = .ok r') : SameSlow r r' := by
  induction qs generalizing r with
  | nil => cases h; exact .refl _
  | cons q qs ih =>
      obtain ⟨r₁, h₁, h₂⟩ := bind_eq_ok.mp h
      exact (sameSlow_replayEcho h₁).trans (ih h₂)

/-! ### Taking a message -/

/-- The tests `handleMessage` makes of an index it takes. -/
theorem fresh_of_tests {i : Index}
    (h₁ : ¬ ((r.msgTail.find? i).isSome ∨ ∃ l ∈ r.latestPolledMessage, i ≤ l))
    (h₂ : ¬ ∃ e ∈ r.msgTail.last?, i ≤ e.1) : r.Fresh i := by
  push Not at h₁ h₂
  refine ⟨h₁.2, fun k h hk => ?_⟩
  obtain ⟨d, hd, -⟩ := Option.map_eq_some_iff.mp hk
  obtain ⟨e, he⟩ := OrdMap.last?_isSome hd
  exact (OrdMap.le_last? he hd).trans_lt (h₂ e he)

/-- The state in which the echoes of a message taken are replayed. -/
def take (r : Receiver) (m : Bytes) : Receiver :=
  { r with msgTail := r.emplace m, received := r.received ++ [m] }

theorem find?_take {m : Bytes} {i : Index} {d : MessageData}
    (hd : (r.take m).msgTail.find? i = some d) :
    i = index m ∧ d = { message := m } ∨ i ≠ index m ∧ r.msgTail.find? i = some d := by
  have hins : (r.msgTail.insert (index m) { message := m }).find? i = some d := by
    change (r.emplace m).find? i = some d at hd
    unfold emplace at hd
    simp only at hd
    split at hd
    · exact OrdMap.find?_of_popFront hd
    · exact hd
  rw [OrdMap.find?_insert] at hins
  split at hins
  · next hk => cases hins; exact .inl ⟨hk, rfl⟩
  · next hk => exact .inr ⟨hk, hins⟩

theorem held_take {m : Bytes} {i : Index} {h : Held} (hi : (r.take m).held i = some h) :
    i = index m ∧ h = ⟨m, none, []⟩ ∨ i ≠ index m ∧ r.held i = some h := by
  obtain ⟨d, hd, rfl⟩ := Option.map_eq_some_iff.mp hi
  rcases find?_take hd with ⟨hk, rfl⟩ | ⟨hk, hd⟩
  · exact .inl ⟨hk, rfl⟩
  · exact .inr ⟨hk, held_of_find? hd⟩

/-- The message taken is not the one dropped. -/
theorem held_take_self (hf : r.Fifo) {m : Bytes} (hm : r.Fresh (index m)) :
    (r.take m).held (index m) = some ⟨m, none, []⟩ := by
  refine held_of_find? (d := { message := m }) ?_
  have hins := r.msgTail.find?_insert_self (index m) { message := m }
  change (r.emplace m).find? (index m) = _
  unfold emplace
  simp only
  split
  · next hlt =>
      -- more entries than `tail`: one of them is below the one just inserted
      obtain ⟨⟨k, d⟩, hk, hne⟩ : ∃ e ∈ (r.msgTail.insert (index m) { message := m }).entries,
          e.1 ≠ index m := by
        by_contra hall
        push Not at hall
        have hs := (r.msgTail.insert (index m) { message := m }).sorted
        match he : (r.msgTail.insert (index m) { message := m }).entries with
        | [] => rw [OrdMap.size, he] at hlt; cases hlt
        | [_] => rw [OrdMap.size, he] at hlt; exact absurd hf.tail_pos (by simpa using hlt)
        | a :: b :: l =>
            rw [he] at hs hall
            have hab := (List.pairwise_cons.mp hs).1 b List.mem_cons_self
            rw [hall a List.mem_cons_self,
              hall b (List.mem_cons_of_mem _ List.mem_cons_self)] at hab
            exact absurd hab (lt_irrefl _)
      have hd := OrdMap.mem_entries_iff.mp hk
      refine OrdMap.find?_popFront hins hd ?_
      rw [OrdMap.find?_insert_of_ne _ _ hne] at hd
      exact hm.2 k _ (held_of_find? hd)
  · exact hins

/-- A fresh message is the latest. -/
theorem Fifo.take (hf : r.Fifo) {m : Bytes} (hm : r.Fresh (index m)) : (r.take m).Fifo := by
  have hbelow : ∀ m' ∈ r.received, index m' < index m := fun m' h => hf.received_lt m' h _ hm
  refine ⟨hf.tail_pos, fun l hl k h hk => ?_, fun m' h' i hi => ?_, fun m₁ h₁ m₂ h₂ he => ?_,
    fun i h hi => ?_⟩
  · rcases held_take hk with ⟨rfl, -⟩ | ⟨-, hk⟩
    · exact hm.1 l hl
    · exact hf.latest_lt l hl k h hk
  · have hlt := hi.2 _ _ (held_take_self hf hm)
    rcases List.mem_append.mp h' with h' | h'
    · exact (hbelow m' h').trans hlt
    · rw [List.mem_singleton.mp h']; exact hlt
  · rcases List.mem_append.mp h₁ with h₁ | h₁ <;> rcases List.mem_append.mp h₂ with h₂ | h₂
    · exact hf.unique m₁ h₁ m₂ h₂ he
    · rw [List.mem_singleton.mp h₂] at he
      exact absurd he (hbelow m₁ h₁).ne
    · rw [List.mem_singleton.mp h₁] at he
      exact absurd he (hbelow m₂ h₂).ne'
    · rw [List.mem_singleton.mp h₁, List.mem_singleton.mp h₂]
  · rcases held_take hi with ⟨rfl, rfl⟩ | ⟨-, hi⟩
    · exact ⟨List.mem_append_right _ List.mem_cons_self, rfl⟩
    · exact ⟨List.mem_append_left _ (hf.held_received i h hi).1, (hf.held_received i h hi).2⟩

/-- **What `handleMessage` does**: nothing, or it takes the message and replays its echoes. -/
theorem handleMessage_cases {m : Bytes} (h : r.handleMessage cr m = .ok r') :
    r' = r ∨ r.Fresh (index m) ∧ (r.take m).replayEchoes cr (index m) r.others = .ok r' := by
  unfold handleMessage at h
  split at h
  · cases h
  · split at h
    · cases h
    · next h₁ =>
        split at h
        · cases h; exact .inl rfl
        · next h₂ =>
            split at h
            · cases h
            · exact .inr ⟨fresh_of_tests h₁ h₂, h⟩

/-! ### Polling -/

/-- **What `poll` does**: nothing, or it hands out the first message of the tail. -/
theorem poll_cases (r : Receiver) :
    r.poll.1 = r ∨ ∃ i d, r.msgTail.first? = some (i, d) ∧ d.pollable r = true ∧
      r.poll.1 = { r with
        latestPolledMessage := some i
        msgTail := r.msgTail.erase i
        polled := r.polled ++ [d.message] } := by
  unfold poll
  split
  · exact .inl rfl
  · next i d hf =>
      split
      · next hp => exact .inr ⟨i, d, hf, hp, rfl⟩
      · exact .inl rfl

/-- A polled message is not held any more. -/
theorem held_poll {i k : Index} {h : Held} {l : Option Index} {ps : List Bytes}
    (hk : ({ r with latestPolledMessage := l, msgTail := r.msgTail.erase i, polled := ps } :
      Receiver).held k = some h) : k ≠ i ∧ r.held k = some h := by
  simp only [held, OrdMap.find?_erase] at hk
  split at hk
  · cases hk
  · next hne => exact ⟨hne, hk⟩

/-- Messages are polled in order. -/
theorem Fifo.poll (hf : r.Fifo) : r.poll.1.Fifo := by
  rcases poll_cases r with h | ⟨i, d, hi, -, h⟩
  · rw [h]; exact hf
  · rw [h]
    have hd := OrdMap.find?_of_first? hi
    refine ⟨hf.tail_pos, fun l hl k h hk => ?_, fun m hm j hj => ?_, hf.unique, fun k h hk => ?_⟩
    · cases hl
      obtain ⟨hne, hk⟩ := held_poll hk
      obtain ⟨d', hd', -⟩ := Option.map_eq_some_iff.mp hk
      exact lt_of_le_of_ne (OrdMap.first?_le hi hd') (Ne.symm hne)
    · have hij : i < j := hj.1 i rfl
      refine hf.received_lt m hm j ⟨fun l hl => ?_, fun k h hk => ?_⟩
      · exact (hf.latest_lt l hl i _ (held_of_find? hd)).trans hij
      · by_cases hki : k = i
        · rw [hki]; exact hij
        · refine hj.2 k h ?_
          simp only [held, OrdMap.find?_erase, if_neg hki]
          exact hk
    · exact hf.held_received k h (held_poll hk).2

end Receiver

end Ubft.Broadcast
