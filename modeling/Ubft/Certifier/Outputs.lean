import Ubft.Certifier.Check
import Ubft.Certifier.Promises
import Ubft.Certifier.Shares

/-!
# Certifier — what is polled

A certifier next to what it was given and what it answered: the messages acknowledged, the
promises that arrived, and the promises and certificates polled, oldest first (`Trace`).  Its
replica acknowledges under increasing indices; everything else comes in any order.

Each kind of answer has a cursor right behind the last one (`Ascending`), so the indices polled
increase, up to the last index of 64 bits: behind it the cursor is back at 0, and its promise is
polled again and again (`not_ascending`).  A promise polled is one that arrived from every peer, as
`Heard` has it.  A certificate polled is read through a `Member` that acknowledges what the trace
did: `sound_of_reachable` makes of its shares signatures of the message.
-/

namespace Ubft.Certifier

variable {M : Type} {cr : Crypto M} {s s' : Certifier M}

/-- `l` increases and is below `n`. -/
structure Ascending (l : List Nat) (n : Nat) : Prop where
  increasing : l.Pairwise (· < ·)
  below : ∀ k ∈ l, k < n

theorem Ascending.nil (n : Nat) : Ascending [] n := ⟨List.Pairwise.nil, fun _ h => nomatch h⟩

/-- The bound moves, right behind what is added. -/
theorem Ascending.append {l : List Nat} {n n' : Nat} {o : Option Nat} (h : Ascending l n)
    (hn : n ≤ n') (ho : ∀ k, o = some k → n ≤ k ∧ n' = k + 1) : Ascending (l ++ o.toList) n' := by
  cases o with
  | none =>
      rw [Option.toList_none, List.append_nil]
      exact ⟨h.increasing, fun k hk => (h.below k hk).trans_le hn⟩
  | some k =>
      obtain ⟨hle, rfl⟩ := ho k rfl
      refine ⟨List.pairwise_append.mpr ⟨h.increasing, List.pairwise_singleton _ _, ?_⟩, ?_⟩
      · intro j hj k' hk
        rw [List.mem_singleton.mp hk]
        exact (h.below j hj).trans_le hle
      · intro j hj
        rcases List.mem_append.mp hj with hj | hj
        · exact (h.below j hj).trans_le hn
        · exact List.mem_singleton.mp hj ▸ Nat.lt_succ_self k

/-! ### Traces -/

/-- A certifier, with what it was given and what it answered. -/
structure Trace (M : Type) where
  certifier : Certifier M
  acknowledged : List (Index × M) := []
  /-- The promises that arrived, each with the peer it is from. -/
  promises : List (ProcId × Index) := []
  promised : List Index := []
  certified : List (Certificate M) := []

/-- The message that a step acknowledges. -/
def acknowledges : Op M → Option (Index × M)
  | .acknowledge i m => some (i, m)
  | _ => none

/-- The index that a step returns. -/
def polledPromise (s : Certifier M) : Op M → Option Index
  | .pollPromise => s.pollPromise.2
  | _ => none

/-- The certificate that a step returns. -/
def polledCertificate (cr : Crypto M) (s : Certifier M) : Op M → Option (Certificate M)
  | .pollCertificate => (s.pollCertificate cr).2
  | _ => none

namespace Trace

/-- The trace after an operation that leaves `s'`. -/
def record (cr : Crypto M) (t : Trace M) (op : Op M) (s' : Certifier M) : Trace M where
  certifier := s'
  acknowledged := t.acknowledged ++ (acknowledges op).toList
  promises := t.promises ++ t.certifier.arrivals op
  promised := t.promised ++ (t.certifier.polledPromise op).toList
  certified := t.certified ++ (t.certifier.polledCertificate cr op).toList

/-- A certifier that did nothing. -/
def Init (t : Trace M) : Prop :=
  ∃ tail identifier receivers, t = { certifier := { tail, identifier, receivers } }

/-- The step relation of a trace. -/
def Step (cr : Crypto M) (t : Trace M) (op : Op M) (t' : Trace M) : Prop :=
  ∃ s', t.certifier.apply cr op = .ok s' ∧ t' = t.record cr op s'

/-- Messages are acknowledged under increasing indices, which have 64 bits, and a signature has 64
bytes. -/
def InOrder (t : Trace M) : Op M → Prop
  | .acknowledge i _ => i < 2 ^ 64 ∧ ∀ e ∈ t.acknowledged, e.1 < i
  | .handleShare sh _ => sh.signature.length = 64
  | _ => True

/-- No message is acknowledged under the last index. -/
def Numbered (t : Trace M) (op : Op M) : Prop :=
  t.InOrder op ∧ ∀ e ∈ acknowledges op, e.1 ≠ 2 ^ 64 - 1

/-- `sh` is a signature of the message of `c` by the replica of rank `r`, a peer's or its own. -/
structure SignedBy (cr : Crypto M) (s : Certifier M) (c : Certificate M) (r : Nat)
    (sh : CertificateShare) : Prop where
  rank : r ≤ s.receivers.length
  emitter : sh.emitter = s.source cr r
  verifies : cr.verify sh.signature (hashOf cr s c.index c.message) sh.emitter = .ok true

/-- `c` certifies a message acknowledged that is in the tail, by a quorum of signatures of
distinct replicas. -/
structure Certifies (cr : Crypto M) (t : Trace M) (c : Certificate M) : Prop where
  acknowledged : (c.index, c.message) ∈ t.acknowledged
  kept : ∃ d, t.certifier.msgTail.find? c.index = some d ∧ d.message = c.message
  quorum : t.certifier.quorum ≤ c.shares.length
  signers : ∃ ranks : List Nat, ranks.Nodup ∧
    List.Forall₂ (SignedBy cr t.certifier c) ranks c.shares

end Trace

/-! ### One operation -/

/-- What an operation may do: acknowledge, poll, or neither. -/
theorem apply_cases {op : Op M} (h : s.apply cr op = .ok s') :
    (∃ i m, op = .acknowledge i m ∧ s.acknowledge cr i m = .ok s') ∨
    (op = .pollPromise ∧ s' = s.pollPromise.1) ∨
    (op = .pollCertificate ∧ s' = (s.pollCertificate cr).1) ∨
    (Within s s' ∧ acknowledges op = none ∧ s.polledPromise op = none ∧
      s.polledCertificate cr op = none) := by
  by_cases ha : ∃ i m, op = .acknowledge i m
  · obtain ⟨i, m, rfl⟩ := ha
    exact .inl ⟨i, m, rfl, h⟩
  by_cases hp : op = .pollPromise
  · subst hp
    cases h
    exact .inr (.inl ⟨rfl, rfl⟩)
  by_cases hc : op = .pollCertificate
  · subst hc
    cases h
    exact .inr (.inr (.inl ⟨rfl, rfl⟩))
  have hw := within_apply (fun i m he => ha ⟨i, m, he⟩) hp hc h
  refine .inr (.inr (.inr ⟨hw, ?_⟩))
  cases op with
  | acknowledge i m => exact absurd ⟨i, m, rfl⟩ ha
  | pollPromise => exact absurd rfl hp
  | pollCertificate => exact absurd rfl hc
  | _ => exact ⟨rfl, rfl, rfl⟩

/-- A message of the tail was there, or is the one acknowledged. -/
theorem messages_apply {op : Op M} (h : s.apply cr op = .ok s') {i : Index}
    {d' : MessageData M} (hd : s'.msgTail.find? i = some d') :
    acknowledges op = some (i, d'.message) ∨
      ∃ d, s.msgTail.find? i = some d ∧ d'.message = d.message := by
  rcases apply_cases h with ⟨k, m, rfl, ha⟩ | ⟨rfl, rfl⟩ | ⟨rfl, rfl⟩ | ⟨hw, -⟩
  · rcases acknowledge_messages ha hd with ⟨rfl, rfl⟩ | hkept
    · exact .inl rfl
    · exact .inr hkept
  · rw [(pollPromise_cases s).1] at hd
    exact .inr ⟨d', hd, rfl⟩
  · rw [(pollCertificate_cases cr s).1] at hd
    exact .inr ⟨d', hd, rfl⟩
  · exact .inr (hw.messages i d' hd)

/-- No message of the tail has the last index. -/
def Indexed (s : Certifier M) : Prop := ∀ i d, s.msgTail.find? i = some d → i + 1 < 2 ^ 64

/-- The cursor of the promises only moves forward, right behind what is polled. -/
theorem nextPromise_apply {op : Op M} (hi : Indexed s) (h : s.apply cr op = .ok s') :
    s.nextPromise ≤ s'.nextPromise ∧
      ∀ k, s.polledPromise op = some k → s.nextPromise ≤ k ∧ s'.nextPromise = k + 1 := by
  rcases apply_cases h with ⟨i, m, rfl, ha⟩ | ⟨rfl, rfl⟩ | ⟨rfl, rfl⟩ | ⟨hw, -, hp, -⟩
  · obtain ⟨t, -, hw⟩ := acknowledge_cases ha
    exact ⟨hw.nextPromise.ge, fun _ h => nomatch h⟩
  · obtain ⟨n, he, hnone, hpoll⟩ := pollPromise_eq s
    have hsome : ∀ k, s.pollPromise.2 = some k → s.nextPromise ≤ k ∧ n = k + 1 := by
      intro k hk
      obtain ⟨hle, hn, d, hd, -⟩ := hpoll k hk
      exact ⟨hle, hn.trans (Nat.mod_eq_of_lt (hi k d hd))⟩
    rw [he]
    refine ⟨?_, hsome⟩
    cases hp : s.pollPromise.2 with
    | none => exact hnone hp
    | some k =>
        obtain ⟨hle, hn⟩ := hsome k hp
        exact (Nat.le_succ_of_le hle).trans hn.ge
  · obtain ⟨n, he, -⟩ := pollCertificate_eq cr s
    rw [he]
    exact ⟨le_rfl, fun _ h => nomatch h⟩
  · exact ⟨hw.nextPromise.ge, fun k hk => nomatch hp.symm.trans hk⟩

/-- So does the cursor of the certificates. -/
theorem nextCertificate_apply {op : Op M} (hi : Indexed s) (h : s.apply cr op = .ok s') :
    s.nextCertificate ≤ s'.nextCertificate ∧
      ∀ c, s.polledCertificate cr op = some c →
        s.nextCertificate ≤ c.index ∧ s'.nextCertificate = c.index + 1 := by
  rcases apply_cases h with ⟨i, m, rfl, ha⟩ | ⟨rfl, rfl⟩ | ⟨rfl, rfl⟩ | ⟨hw, -, -, hc⟩
  · exact ⟨(acknowledge_nextCertificate ha).ge, fun _ h => nomatch h⟩
  · rw [(pollPromise_cases s).2.1]
    exact ⟨le_rfl, fun _ h => nomatch h⟩
  · obtain ⟨n, he, hnone, hpoll⟩ := pollCertificate_eq cr s
    have hsome : ∀ c, (s.pollCertificate cr).2 = some c →
        s.nextCertificate ≤ c.index ∧ n = c.index + 1 := by
      intro c hc
      obtain ⟨hle, hn, d, hd, -⟩ := hpoll c hc
      exact ⟨hle, hn.trans (Nat.mod_eq_of_lt (hi c.index d hd))⟩
    rw [he]
    refine ⟨?_, hsome⟩
    cases hp : (s.pollCertificate cr).2 with
    | none => exact hnone hp
    | some c =>
        obtain ⟨hle, hn⟩ := hsome c hp
        exact (Nat.le_succ_of_le hle).trans hn.ge
  · exact ⟨hw.nextCertificate.ge, fun c hk => nomatch hc.symm.trans hk⟩

/-! ### Whole runs -/

namespace Trace

/-- What the trace has is what the certifier was given and answered. -/
structure Recorded (t : Trace M) : Prop where
  numbered : ∀ e ∈ t.acknowledged, e.1 + 1 < 2 ^ 64
  increasing : t.acknowledged.Pairwise fun e e' => e.1 < e'.1
  messages : ∀ i d, t.certifier.msgTail.find? i = some d → (i, d.message) ∈ t.acknowledged
  heard : Heard (fun p i => (p, i) ∈ t.promises) t.certifier
  promised : Ascending t.promised t.certifier.nextPromise
  certified : Ascending (t.certified.map (·.index)) t.certifier.nextCertificate

variable {t t' : Trace M}

theorem recorded_of_init (h : t.Init) : t.Recorded := by
  obtain ⟨tail, identifier, receivers, rfl⟩ := h
  exact
    { numbered := fun _ h => nomatch h
      increasing := List.Pairwise.nil
      messages := fun _ _ h => nomatch h
      heard := ⟨fun _ _ h => (nomatch h), fun _ _ h => nomatch h⟩
      promised := .nil _
      certified := .nil _ }

/-- What is in the tail has the index it was acknowledged under. -/
theorem Recorded.indexed (ht : t.Recorded) : Indexed t.certifier :=
  fun i d hd => ht.numbered _ (ht.messages i d hd)

/-- **Each operation** is recorded. -/
theorem Recorded.step (ht : t.Recorded) {op : Op M} (hop : t.Numbered op)
    (h : Step cr t op t') : t'.Recorded := by
  obtain ⟨s', hs, rfl⟩ := h
  obtain ⟨hop, hlast⟩ := hop
  have hpromise := nextPromise_apply ht.indexed hs
  refine
    { numbered := fun e he => ?_
      increasing := ?_
      messages := fun i d hd => ?_
      heard := ?_
      promised := ht.promised.append hpromise.1 hpromise.2
      certified := ?_ }
  · rcases List.mem_append.mp he with he | he
    · exact ht.numbered e he
    · cases op with
      | acknowledge i m =>
          obtain rfl := List.mem_singleton.mp he
          have hlt : i < 2 ^ 64 := hop.1
          have hne : i ≠ 2 ^ 64 - 1 := hlast (i, m) rfl
          exact Nat.add_lt_of_lt_sub (lt_of_le_of_ne (Nat.le_sub_one_of_lt hlt) hne)
      | _ => cases he
  · refine List.pairwise_append.mpr ⟨ht.increasing, ?_, fun e he e' he' => ?_⟩
    · cases acknowledges op with
      | none => exact List.Pairwise.nil
      | some e => exact List.pairwise_singleton _ _
    · cases op with
      | acknowledge i m => exact List.mem_singleton.mp he' ▸ hop.2 e he
      | _ => cases he'
  · refine List.mem_append.mpr ?_
    rcases messages_apply hs hd with ha | ⟨d₀, h₀, hm⟩
    · exact .inr (by rw [ha]; exact List.mem_cons_self)
    · exact .inl (hm ▸ ht.messages i d₀ h₀)
  · have hmono : Heard (fun p i => (p, i) ∈ t.promises ++ t.certifier.arrivals op) t.certifier :=
      ht.heard.mono fun _ _ hp => List.mem_append_left _ hp
    exact hmono.apply (fun e he => List.mem_append_right _ he) hs
  · obtain ⟨hle, hnext⟩ := nextCertificate_apply ht.indexed hs
    have hindex : (t.record cr op s').certified.map (·.index) = t.certified.map (·.index) ++
        ((t.certifier.polledCertificate cr op).map (·.index)).toList := by
      rw [record, List.map_append]
      cases t.certifier.polledCertificate cr op <;> rfl
    rw [hindex]
    refine ht.certified.append hle fun k hk => ?_
    obtain ⟨c, hc, rfl⟩ := Option.map_eq_some_iff.mp hk
    exact hnext c hc

/-- In every run whose indices have a successor. -/
theorem recorded_of_reachable (h : Reachable Init (Step cr) Numbered t) : t.Recorded :=
  h.induct (fun _ => recorded_of_init) fun _ _ _ _ ht hop hs => ht.step hop hs

/-- One message for each index. -/
theorem exists_message {l : List (Index × M)} (hl : l.Pairwise fun e e' => e.1 < e'.1) (m : M) :
    ∃ message : Index → M, ∀ e ∈ l, e.2 = message e.1 := by
  induction hl with
  | nil => exact ⟨fun _ => m, fun _ h => nomatch h⟩
  | @cons a l ha _ ih =>
      obtain ⟨message, hmessage⟩ := ih
      refine ⟨Function.update message a.1 a.2, fun e he => ?_⟩
      rcases List.mem_cons.mp he with rfl | he
      · rw [Function.update_self]
      · rw [Function.update_of_ne (ha e he).ne']
        exact hmessage e he

/-- **The certifier of a trace is a member's**, of any member whose messages are those
acknowledged. -/
theorem member_reachable (h : Reachable Init (Step cr) Numbered t) :
    ∃ identifier receivers, ∀ g : Member M, g.crypto = cr → g.identifier = identifier →
      g.receivers = receivers → (∀ e ∈ t.acknowledged, e.2 = g.message e.1) →
        Reachable g.Init (Certifier.Step cr) g.Acknowledging t.certifier := by
  induction h with
  | init ht =>
      obtain ⟨tail, identifier, receivers, rfl⟩ := ht
      exact ⟨identifier, receivers, fun g _ hi hr _ => .init ⟨tail, by rw [hi, hr]⟩⟩
  | @step t t' op _ hop hstep ih =>
      obtain ⟨s', hs, rfl⟩ := hstep
      obtain ⟨identifier, receivers, ih⟩ := ih
      refine ⟨identifier, receivers, fun g hcr hi hr hm => ?_⟩
      have hreach := ih g hcr hi hr fun e he => hm e (List.mem_append_left _ he)
      refine .step hreach ?_ hs
      cases op with
      | acknowledge i m => exact hm (i, m) (List.mem_append_right _ List.mem_cons_self)
      | handleShare sh r => exact hop.1
      | _ => trivial

/-- **A certificate polled** is a quorum of signatures of a message acknowledged. -/
theorem certifies_of_poll (hv : ∀ h, cr.verifyWith (cr.sign h) h cr.myId = true)
    (hl : ∀ h, (cr.sign h).length = 64) (h : Reachable Init (Step cr) Numbered t)
    {c : Certificate M} (hc : (t.certifier.pollCertificate cr).2 = some c) : t.Certifies cr c := by
  have ht := recorded_of_reachable h
  obtain ⟨identifier, receivers, hmember⟩ := member_reachable h
  obtain ⟨message, hmessage⟩ := exists_message ht.increasing c.message
  let g : Member M := ⟨cr, identifier, receivers, message⟩
  have hs : g.Sound t.certifier :=
    Member.sound_of_reachable ⟨hv, hl⟩ (hmember g rfl rfl rfl hmessage)
  obtain ⟨-, d, hd, hquorum, he⟩ := (pollCertificate_cases cr t.certifier).2 c hc
  have hsize : t.certifier.quorum ≤ d.receivedShares.entries.length := of_decide_eq_true hquorum
  have hm : d.message = c.message := (congrArg Certificate.message he).symm
  have hshares : c.shares = (d.receivedShares.entries.take t.certifier.quorum).map fun e =>
      ⟨t.certifier.source cr e.1, e.2.signature⟩ := congrArg Certificate.shares he
  refine ⟨hm ▸ ht.messages c.index d hd, ⟨d, hd, hm⟩, ?_,
    (d.receivedShares.entries.take t.certifier.quorum).map (·.1), ?_, ?_⟩
  · rw [hshares, List.length_map, List.length_take, Nat.min_eq_left hsize]
  · -- a message keeps one share for each rank
    refine List.pairwise_map.mpr ?_
    exact (d.receivedShares.sorted.sublist (List.take_sublist _ _)).imp fun hlt => hlt.ne
  · rw [hshares, List.forall₂_map_left_iff, List.forall₂_map_right_iff, List.forall₂_same]
    intro e hmem
    have hsigned := hs.received c.index d hd e.1 e.2
      (OrdMap.mem_entries.mp (List.mem_of_mem_take hmem))
    have hsource : t.certifier.source cr e.1 = g.idOf e.1 := by
      rw [source, hs.receivers]
      rfl
    refine ⟨hs.receivers ▸ hsigned.rank, rfl, ?_⟩
    rw [← hm, hs.hashOf hd, hsource]
    exact hsigned.verifies

end Trace

/-- **What is polled is sound and in order**, in every run whose messages are acknowledged under
increasing indices, and none under the last one: the indices polled increase, a promise polled
arrived from every peer, and a certificate polled holds a quorum of signatures of a message
acknowledged and still in the tail. -/
theorem outputs_sound (hv : ∀ h, cr.verifyWith (cr.sign h) h cr.myId = true)
    (hl : ∀ h, (cr.sign h).length = 64) {t : Trace M}
    (h : Reachable Trace.Init (Trace.Step cr) Trace.Numbered t) :
    t.promised.Pairwise (· < ·) ∧ (t.certified.map (·.index)).Pairwise (· < ·) ∧
      (∀ i, t.certifier.pollPromise.2 = some i →
        (∀ j ∈ t.promised, j < i) ∧ ∀ p ∈ t.certifier.receivers, (p, i) ∈ t.promises) ∧
      ∀ c, (t.certifier.pollCertificate cr).2 = some c →
        (∀ c' ∈ t.certified, c'.index < c.index) ∧ t.Certifies cr c := by
  have ht := Trace.recorded_of_reachable h
  refine ⟨ht.promised.increasing, ht.certified.increasing, fun i hi => ⟨fun j hj => ?_, ?_⟩,
    fun c hc => ⟨fun c' hc' => ?_, Trace.certifies_of_poll hv hl h hc⟩⟩
  · obtain ⟨n, -, -, hpoll⟩ := pollPromise_eq t.certifier
    exact (ht.promised.below j hj).trans_le (hpoll i hi).1
  · exact ht.heard.polled hi
  · have hbelow := ht.certified.below _ (List.mem_map_of_mem hc')
    exact hbelow.trans_le ((pollCertificate_cases cr t.certifier).2 c hc).1

namespace Trace

instance (t : Trace M) : DecidablePred t.InOrder
  | .acknowledge i _ => inferInstanceAs (Decidable (i < 2 ^ 64 ∧ ∀ e ∈ t.acknowledged, e.1 < i))
  | .handleShare sh _ => inferInstanceAs (Decidable (sh.signature.length = 64))
  | .receivedImplicitPromise _ _ | .pollPromise | .pollCertificate | .forgetMessages _
  | .toggleFastPath _ | .toggleSlowPath _ | .handlePromise _ _ | .startCheck _ | .finishCheck _
  | .pollVerifiedShare | .offloadShareComputation | .computeShare _ | .pollComputedShares =>
    .isTrue trivial

instance (t : Trace M) : DecidablePred t.Numbered := fun _ => inferInstanceAs (Decidable (_ ∧ _))

namespace Example

open Certifier.Example (crypto hash signature)

/-- Of two peers, the first promises before the acknowledgement and the second by its message;
both sign. -/
def ops : List (Op Bytes) :=
  [.handlePromise 7 0, .acknowledge 7 [1], .receivedImplicitPromise 1 7,
    .handleShare ⟨7, signature 0 (hash 0 7 [1])⟩ 0, .startCheck 0, .finishCheck 0,
    .pollVerifiedShare,
    .handleShare ⟨7, signature 1 (hash 0 7 [1])⟩ 1, .startCheck 1, .finishCheck 0,
    .pollVerifiedShare]

/-- A step of the example, when it does not throw. -/
def next (t : Trace Bytes) (op : Op Bytes) : Option (Trace Bytes) :=
  (t.certifier.apply crypto op).toOption.map (t.record crypto op)

theorem step_of_next {t t' : Trace Bytes} {op : Op Bytes} (h : next t op = some t') :
    Step crypto t op t' := by
  obtain ⟨s', hs, rfl⟩ := Option.map_eq_some_iff.mp h
  refine ⟨s', ?_, rfl⟩
  cases ha : t.certifier.apply crypto op with
  | error e => rw [ha] at hs; cases hs
  | ok s₁ => rw [ha] at hs; cases hs; rfl

/-- A certifier with two peers. -/
def start : Trace Bytes := { certifier := { tail := 4, identifier := 0, receivers := [0, 1] } }

/-- What some operations lead to is reached, if each of them is good. -/
theorem exists_trace (good : Trace Bytes → Op Bytes → Prop) [∀ t, DecidablePred (good t)]
    (sees : Trace Bytes → Bool) (ops : List (Op Bytes))
    (h : (runs (fun t op => if good t op then next t op else none) start ops).any sees = true) :
    ∃ t, Reachable Init (Step crypto) good t ∧ sees t = true := by
  obtain ⟨t, ht, hp⟩ := (Option.any_eq_true _ _).mp h
  refine ⟨t, reachable_of_runs (fun t op t' hn => ?_) (.init ⟨4, 0, [0, 1], rfl⟩) ht, hp⟩
  split at hn
  · next hop => exact ⟨hop, step_of_next hn⟩
  · cases hn

theorem verify_sign (h : Hash) : crypto.verifyWith (crypto.sign h) h crypto.myId = true :=
  beq_self_eq_true (signature 2 h)

theorem length_sign (h : Hash) : (crypto.sign h).length = 64 := by
  change ((UInt8.ofNat 2 :: h ++ List.replicate 64 0).take 64).length = 64
  simp

end Example

end Trace

/-- A promise and a certificate are polled, and they are sound. -/
theorem outputs_sound_seven : ∃ t : Trace Bytes, t.certifier.pollPromise.2 = some 7 ∧
    (∀ p ∈ t.certifier.receivers, (p, 7) ∈ t.promises) ∧
      ∃ c, (t.certifier.pollCertificate Example.crypto).2 = some c ∧
        t.Certifies Example.crypto c := by
  obtain ⟨t, ht, hp⟩ := Trace.Example.exists_trace Trace.Numbered
    (fun t => t.certifier.pollPromise.2 = some 7 ∧
      (t.certifier.pollCertificate Example.crypto).2.isSome) Trace.Example.ops (by decide +kernel)
  obtain ⟨hpromise, hcert⟩ := of_decide_eq_true hp
  obtain ⟨c, hc⟩ := Option.isSome_iff_exists.mp hcert
  obtain ⟨-, -, hps, hcs⟩ := outputs_sound Trace.Example.verify_sign Trace.Example.length_sign ht
  exact ⟨t, hpromise, (hps 7 hpromise).2, c, hc, (hcs c hc).2⟩

/-- The last index is promised by both peers, and polled twice. -/
theorem not_ascending : ¬ ∀ t : Trace Bytes,
    Reachable Trace.Init (Trace.Step Example.crypto) Trace.InOrder t →
      t.promised.Pairwise (· < ·) := by
  intro h
  obtain ⟨t, ht, hp⟩ := Trace.Example.exists_trace Trace.InOrder
    (fun t => t.promised = [2 ^ 64 - 1, 2 ^ 64 - 1])
    [.acknowledge (2 ^ 64 - 1) [1], .handlePromise (2 ^ 64 - 1) 0, .handlePromise (2 ^ 64 - 1) 1,
      .pollPromise, .pollPromise] (by decide +kernel)
  have hpair := h t ht
  rw [of_decide_eq_true hp] at hpair
  exact absurd hpair (by decide)

end Ubft.Certifier
