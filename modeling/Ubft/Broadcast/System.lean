import Ubft.Broadcast.Counting

/-!
# Broadcast — the receivers together

The receivers of one broadcaster, which may be Byzantine: it sends any message and any signature
to anyone, in any order.  A correct receiver executes `Receiver.handle`; a Byzantine one sends
any echo and fills its registers as it likes.  What is assumed of the network and of the
registers is `Allowed`: the echoes of a correct receiver are its own, and a READ of its registers
returns what it WROTE, not before the last WRITE completed when the READ began.
-/

namespace Ubft.Broadcast

/-- A deployment.  Every receiver knows all the others. -/
structure Config where
  crypto : Crypto
  tail : Nat
  tail_pos : 0 < tail
  ids : List ProcId
  nodup : ids.Nodup
  correct : ProcId → Bool

theorem four_pos : 0 < 4 := by decide

theorem nodup_pair : ([0, 1] : List ProcId).Nodup := by decide

/-- The receivers; those of Byzantine processes mean nothing. -/
abbrev System := ProcId → Receiver

/-- A regular register: the READ returns the last WRITE completed before it, or a later one. -/
def Regular (w : Receiver) (rd : Read) (slot : Nat) (reg : Register) : Prop :=
  rd.since ≤ reg.incarnation ∧ (reg.incarnation = 0 ∨ reg ∈ w.written ∧ reg.slot = slot)

instance (w : Receiver) (rd : Read) (slot : Nat) (reg : Register) :
    Decidable (Regular w rd slot reg) :=
  inferInstanceAs (Decidable (_ ∧ (_ ∨ _ ∧ _)))

namespace Config

/-- What may happen to receiver `p`. -/
def Allowed (c : Config) (s : System) (p : ProcId) : Input → Prop
  | .echo q e => c.correct q = true → ∃ m ∈ (s q).received, e.bytes = echoOf c.crypto m
  | .writeCompletion slot since => ∀ q ∈ c.ids, since q = (s q).completed slot
  | .readCompletion k reg => ∀ rd ∈ (s p).outstandingReads[k]?, c.correct rd.replica = true →
      Regular (s rd.replica) rd (rd.index % c.tail) reg
  | _ => True

instance (c : Config) (s : System) (p : ProcId) : DecidablePred (c.Allowed s p)
  | .echo _ _ => inferInstanceAs (Decidable (_ → ∃ m ∈ _, _))
  | .writeCompletion _ _ => inferInstanceAs (Decidable (∀ q ∈ c.ids, _))
  | .readCompletion _ _ => inferInstanceAs (Decidable (∀ rd ∈ _, _ → _))
  | .message _ | .signature _ _ | .finishCheck _ | .dropCheck _ | .pollSignatureVerification
  | .poll | .toggleSlowPath _ => inferInstanceAs (Decidable True)

/-- The state after an input of a correct receiver. -/
def next (c : Config) (s : System) (l : ProcId × Input) : Option System :=
  if c.correct l.1 = true ∧ l.1 ∈ c.ids ∧ c.Allowed s l.1 l.2 then
    match (s l.1).handle c.crypto l.2 with
    | .ok r => some (Function.update s l.1 r)
    | .error _ => none
  else none

/-- The step relation of the system: a receiver handles an input. -/
def Step (c : Config) (s : System) (l : ProcId × Input) (s' : System) : Prop :=
  c.next s l = some s'

/-- A receiver as its constructor leaves it. -/
def start (c : Config) (p : ProcId) : Receiver := { tail := c.tail, others := c.ids.erase p }

/-- The receivers did nothing. -/
def Init (c : Config) (s : System) : Prop := s = c.start

/-- The echo of `m'` looks like one of another message, `m`: of a message below `hashThreshold`, as
far as the shorter one of the two goes; of one above it, as it spells its hash. -/
def Confusable (cr : Crypto) (m m' : Bytes) : Prop :=
  m ≠ m' ∧
    if size m < hashThreshold then m <+: echoOf cr m' ∨ echoOf cr m' <+: m
    else size m' < hashThreshold ∧ data m' = cr.blake3 m

instance (cr : Crypto) (m m' : Bytes) : Decidable (Confusable cr m m') :=
  inferInstanceAs (Decidable (m ≠ m' ∧
    if size m < hashThreshold then m <+: echoOf cr m' ∨ echoOf cr m' <+: m
    else size m' < hashThreshold ∧ data m' = cr.blake3 m))

/-- The messages that `q` sent the echo `e` for do not look like `m` there. -/
def Tells (c : Config) (q : Receiver) (m : Bytes) (e : Buffer) : Prop :=
  ∀ m' ∈ q.received, e.bytes = echoOf c.crypto m' → ¬ Confusable c.crypto m m'

instance (c : Config) (q : Receiver) (m : Bytes) (e : Buffer) : Decidable (c.Tells q m e) :=
  inferInstanceAs (Decidable (∀ m' ∈ _, _ → _))

/-- An echo of a correct receiver does not look like that of another message, where it meets the
message held and where a message meets the echoes buffered; the register of a correct receiver is
read for a message held whose incarnation has 32 bits. -/
def Good (c : Config) (s : System) (l : ProcId × Input) : Prop :=
  match l.2 with
  | .message m => ∀ q ∈ (s l.1).others, c.correct q = true →
      ∀ e ∈ (s l.1).bufferedEchoes q, index e.bytes = index m → c.Tells (s q) m e
  | .echo q e => c.correct q = true → ∀ d ∈ (s l.1).msgTail.find? (index e.bytes),
      c.Tells (s q) d.message e
  | .readCompletion k _ => ∀ rd ∈ (s l.1).outstandingReads[k]?, c.correct rd.replica = true →
      ((s l.1).msgTail.find? rd.index).isSome → rd.index / c.tail + 1 < 2 ^ 32
  | _ => True

instance (c : Config) (s : System) : ∀ l, Decidable (c.Good s l)
  | (_, .message _) => inferInstanceAs (Decidable (∀ q ∈ _, _ → ∀ e ∈ _, _ → _))
  | (_, .echo _ _) => inferInstanceAs (Decidable (_ → ∀ d ∈ _, _))
  | (_, .readCompletion _ _) => inferInstanceAs (Decidable (∀ rd ∈ _, _ → _ → _))
  | (_, .signature _ _) | (_, .finishCheck _) | (_, .dropCheck _)
  | (_, .pollSignatureVerification) | (_, .writeCompletion _ _) | (_, .poll)
  | (_, .toggleSlowPath _) => inferInstanceAs (Decidable True)

/-- No two messages taken in the run share their hash. -/
def CollisionFree (c : Config) (s : System) : Prop :=
  ∀ p ∈ c.ids, ∀ q ∈ c.ids, ∀ m ∈ (s p).received, ∀ m' ∈ (s q).received,
    c.crypto.blake3 m = c.crypto.blake3 m' → m = m'

instance (c : Config) (s : System) : Decidable (c.CollisionFree s) :=
  inferInstanceAs (Decidable (∀ p ∈ _, ∀ q ∈ _, ∀ m ∈ _, ∀ m' ∈ _, _ → _))

/-- A step: one correct receiver reacts. -/
theorem step_cases {c : Config} {s s' : System} {l : ProcId × Input} (h : c.Step s l s') :
    c.correct l.1 = true ∧ l.1 ∈ c.ids ∧ c.Allowed s l.1 l.2 ∧
      ∃ r, (s l.1).handle c.crypto l.2 = .ok r ∧ s' = Function.update s l.1 r := by
  unfold Step next at h
  split at h
  · next hg =>
      refine ⟨hg.1, hg.2.1, hg.2.2, ?_⟩
      split at h
      · next r hr => cases h; exact ⟨r, hr, rfl⟩
      · cases h
  · cases h

/-! ### What every receiver keeps -/

/-- The invariants of one receiver. -/
structure Sound (c : Config) (r : Receiver) (p : ProcId) : Prop where
  tail : r.tail = c.tail
  others : r.others = c.ids.erase p
  fifo : r.Fifo
  signing : r.Signing c.crypto
  counted : r.Counted

/-- A receiver that did nothing yet. -/
theorem start_sound (cr : Crypto) {tail : Nat} (others : List ProcId) (ht : 0 < tail) :
    ({ tail, others } : Receiver).Fifo ∧ ({ tail, others } : Receiver).Signing cr ∧
      ({ tail, others } : Receiver).Counted := by
  have hno : ∀ i h, ({ tail, others } : Receiver).held i ≠ some h := fun i h hh => nomatch hh
  refine ⟨⟨ht, ?_, ?_, ?_, fun i h hh => absurd hh (hno i h)⟩,
    ⟨?_, ?_, ?_, ?_, fun _ => .inl rfl, ?_, ?_⟩,
    ⟨fun i h hh => absurd hh (hno i h), fun i h hh => absurd hh (hno i h)⟩⟩
  · exact fun _ h => nomatch h
  · exact fun _ h => nomatch h
  · exact fun _ h => nomatch h
  · exact fun _ h => nomatch h
  · exact fun _ h => nomatch h
  · exact fun _ _ h => nomatch h
  · exact fun _ h => nomatch h
  · exact fun _ h => nomatch h
  · exact fun _ h => nomatch h

theorem sound_start (c : Config) (p : ProcId) : c.Sound (c.start p) p :=
  have ⟨hf, hs, hc⟩ := start_sound c.crypto (c.ids.erase p) c.tail_pos
  ⟨rfl, rfl, hf, hs, hc⟩

theorem Sound.handle {c : Config} {r r' : Receiver} {p : ProcId} (h : c.Sound r p) {inp : Input}
    (hh : r.handle c.crypto inp = .ok r') : c.Sound r' p := by
  have hg := Receiver.Grows.handle hh
  have hn : r.others.Nodup := h.others ▸ c.nodup.erase p
  exact ⟨hg.tail.trans h.tail, hg.others.trans h.others, h.fifo.handle hh,
    h.signing.handle h.fifo hh, h.counted.handle h.fifo h.signing hn hh⟩

theorem sound_step {c : Config} {s s' : System} {l : ProcId × Input}
    (h : ∀ p, c.Sound (s p) p) (hs : c.Step s l s') (p : ProcId) : c.Sound (s' p) p := by
  obtain ⟨-, -, -, r, hr, rfl⟩ := step_cases hs
  by_cases hp : p = l.1
  · subst hp
    rw [Function.update_self]
    exact (h _).handle hr
  · rw [Function.update_of_ne hp]
    exact h p

end Config

end Ubft.Broadcast
