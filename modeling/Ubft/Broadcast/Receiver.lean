import Ubft.Support.Bytes
import Ubft.Support.OrdMap
import Ubft.Support.Runs

/-!
# Broadcast — the receiver

`tail-cb/receiver.hpp`: a receiver of the consistent broadcast delivers a message when every
other receiver echoed it (fast path), or when it wrote the broadcaster's signature of it to its
own registers and found no other signature in the registers of the others (slow path).

A message and an echo share one untagged layout, eight bytes of index and the data.  An echo
carries the message itself below `hashThreshold` bytes of data, its hash from there on.

Receivers go by their ids.  The messages of the tail, the echoes and the signatures go through
the functions below in the order the source polls them in; `tick` is a sequence of them.
-/

namespace Ubft.Broadcast

/-- `ProcId`, the identifier of a process. -/
abbrev ProcId := Nat

/-- `Index`, the number of a message. -/
abbrev Index := Nat

/-- `crypto::hash::Blake3Hash`. -/
abbrev Hash := Bytes

/-- `Crypto::Signature`. -/
abbrev Signature := Bytes

/-- The hash, and the signature scheme under the broadcaster's key. -/
structure Crypto where
  blake3 : Bytes → Hash
  length_blake3 : ∀ m, (blake3 m).length = 32
  verify : Signature → Hash → Bool

/-- A message cut or padded to the size of a hash. -/
theorem length_take_padded (m : Bytes) : ((m ++ List.replicate 32 0).take 32).length = 32 := by
  simp

/-! ### Buffers and messages -/

/-- `Buffer`: bytes, and what the memory holds after them: what was there when it was taken from its
pool. -/
structure Buffer where
  bytes : Bytes
  beyond : Nat → UInt8

/-- The byte `i` places after the first one, past the end as well. -/
def Buffer.at (b : Buffer) (i : Nat) : UInt8 := b.bytes.getD i (b.beyond (i - b.bytes.length))

/-- `Buffer::operator==`, by a `std::equal` that is not given the end of its right-hand side. -/
def Buffer.eq (m : Bytes) (o : Buffer) : Bool := m = (List.range m.length).map o.at

namespace Buffer

theorem at_of_lt (b : Buffer) {i : Nat} (h : i < b.bytes.length) : b.at i = b.bytes[i] := by
  rw [Buffer.at, List.getD_eq_getElem?_getD, List.getElem?_eq_getElem h, Option.getD_some]

theorem at_of_le (b : Buffer) {i : Nat} (h : b.bytes.length ≤ i) :
    b.at i = b.beyond (i - b.bytes.length) := List.getD_eq_default _ _ h

/-- Byte by byte, up to the left size. -/
theorem eq_iff {m : Bytes} {o : Buffer} :
    Buffer.eq m o = true ↔ ∀ (i : Nat) (h : i < m.length), m[i] = o.at i := by
  rw [Buffer.eq, decide_eq_true_eq]
  refine ⟨fun h i hi => ?_, fun h => List.ext_getElem (by simp) fun i h₁ h₂ => ?_⟩
  · have hg : m[i]? = some (o.at i) := by
      rw [h, List.getElem?_map, List.getElem?_range hi, Option.map_some]
    rwa [List.getElem?_eq_getElem hi, Option.some.injEq] at hg
  · rw [List.getElem_map, List.getElem_range]
    exact h i h₁

/-- A message is compared as far as it goes: its echo starts with it, or ends within it. -/
theorem prefix_of_eq {m : Bytes} {o : Buffer} (h : Buffer.eq m o = true) :
    m <+: o.bytes ∨ o.bytes <+: m := by
  have hat := fun i (h₁ : i < m.length) (h₂ : i < o.bytes.length) =>
    (eq_iff.mp h i h₁).trans (o.at_of_lt h₂)
  rcases le_total m.length o.bytes.length with hle | hle
  · refine .inl (List.prefix_iff_eq_take.mpr (List.ext_getElem ?_ fun i h₁ h₂ => ?_))
    · rw [List.length_take, min_eq_left hle]
    · rw [List.getElem_take, hat i h₁ (h₁.trans_le hle)]
  · refine .inr (List.prefix_iff_eq_take.mpr (List.ext_getElem ?_ fun i h₁ h₂ => ?_))
    · rw [List.length_take, min_eq_left hle]
    · rw [List.getElem_take, hat i (h₁.trans_le hle) h₁]

/-- What lies beyond an echo that starts with the message is not compared. -/
theorem eq_of_prefix {m : Bytes} {o : Buffer} (h : m <+: o.bytes) : Buffer.eq m o = true :=
  eq_iff.mpr fun i hi => by rw [o.at_of_lt (hi.trans_le h.length_le), h.getElem hi]

end Buffer

/-- `sizeof(Header)`: the index. -/
def headerSize : Nat := 8

/-- `Message::index`. -/
def index (m : Bytes) : Index := ofLe (m.take headerSize)

/-- `Message::data`. -/
def data (m : Bytes) : Bytes := m.drop headerSize

/-- `Message::size`. -/
def size (m : Bytes) : Nat := m.length - headerSize

/-- `hash::Blake3HashLength`. -/
def hashLength : Nat := 32

/-- From this size on, an echo is a hash. -/
def hashThreshold : Nat := 8 * 1024

/-- The echo a receiver sends of a message. -/
def echoOf (cr : Crypto) (m : Bytes) : Bytes :=
  if size m < hashThreshold then m else le 8 (index m) ++ cr.blake3 m

/-- The test an echo of `m` passes. -/
def echoMatches (cr : Crypto) (m : Bytes) (echo : Buffer) : Bool :=
  if size m < hashThreshold then Buffer.eq m echo
  else size echo.bytes = hashLength && data echo.bytes = cr.blake3 m

/-! ### The state -/

/-- What the receiver throws, and the capacity of its maps. -/
inductive Error where
  /-- "Buffer is smaller than Header." -/
  | malformed
  /-- "Max capacity violated." -/
  | capacity
  /-- "Byzantine Broadcaster sent the same message more than once" -/
  | sentTwice
  /-- "Byzantine behavior, replica Echoed twice" -/
  | echoedTwice (replica : ProcId)
  /-- "Byzantine behavior, Echoes sent out of order" -/
  | echoesOutOfOrder (replica : ProcId)
  /-- "Byzantine Broadcaster sent the signature more than once" -/
  | signedTwice
  /-- "Byzantine broadcaster sent an invalid signature" -/
  | invalidSignature (index : Index)
  /-- "recycled swmr before completion of the previous WRITE.", or "Incarnation numbers must be
  monotonic; new: {}, previous: {}." -/
  | outstandingWrite
  /-- "Cannot get the signature before receiving it." -/
  | noSignature
  /-- "SWMR was recycled" -/
  | recycled
  /-- "Byzantine broadcaster equivocated" -/
  | equivocated (index : Index)
  deriving DecidableEq, Repr

/-- `Receiver::MessageData`.  `checkedReceivers` lists the receivers the source counts. -/
structure MessageData where
  message : Bytes
  echoes : List ProcId := []
  echoesMatch : Bool := true
  signature : Option Signature := none
  checkedReceivers : List ProcId := []

/-- Where a signature that is checked comes from. -/
inductive Origin where
  | broadcaster
  | receiverRegister (replica : ProcId)
  deriving DecidableEq, Repr

/-- A verification handed to the thread pool. -/
structure Check where
  index : Index
  hash : Hash
  signature : Signature
  origin : Origin
  deriving DecidableEq

/-- `VerifiedSignature`: the answer of a check. -/
structure VerifiedSignature where
  index : Index
  ok : Bool
  origin : Origin
  deriving DecidableEq

/-- `Receiver::Register`, with the incarnation it is written under, which has 32 bits. -/
structure Register where
  slot : Nat
  incarnation : Nat
  hash : Hash
  signature : Signature
  deriving DecidableEq

/-- `index / tail + 1`, on 64 bits. -/
def expectedIncarnation (tail : Nat) (i : Index) : Nat := (i / tail + 1) % 2 ^ 64

/-- The incarnation that is written, an `swmr::Header::Incarnation`. -/
def writtenIncarnation (tail : Nat) (i : Index) : Nat := expectedIncarnation tail i % 2 ^ 32

/-- A READ of `replica`'s register for `index`; `since` is the incarnation of the last WRITE
that completed before it began. -/
structure Read where
  index : Index
  replica : ProcId
  since : Nat
  deriving DecidableEq

/-- The receiver.  The source's copy of `opt_job_handles` in `pollReadCompletions` keeps
handles that are spent; `outstandingReads` are the others.  The last six fields record the run:
the messages taken into the tail, the echoes handled, the WRITEs begun and the last incarnation
completed of each register, the READs begun, the messages polled. -/
structure Receiver where
  tail : Nat
  others : List ProcId
  slowPathOn : Bool := false
  msgTail : OrdMap Index MessageData := .empty
  latestPolledMessage : Option Index := none
  bufferedEchoes : ProcId → List Buffer := fun _ => []
  checks : List Check := []
  verifiedSignatures : List VerifiedSignature := []
  outstandingWrites : OrdMap Nat Index := .empty
  outstandingReads : List Read := []
  received : List Bytes := []
  echoed : ProcId → List Buffer := fun _ => []
  written : List Register := []
  completed : Nat → Nat := fun _ => 0
  begun : List Read := []
  polled : List Bytes := []

namespace MessageData

/-- `MessageData::echoed`; false when the replica echoed before. -/
def echoed (cr : Crypto) (d : MessageData) (replica : ProcId) (echo : Buffer) :
    MessageData × Bool :=
  let d := { d with echoesMatch := d.echoesMatch && echoMatches cr d.message echo }
  if replica ∈ d.echoes then (d, false) else ({ d with echoes := replica :: d.echoes }, true)

/-- The register of a receiver was checked. -/
def checkedAReceiver (d : MessageData) (replica : ProcId) : MessageData :=
  { d with checkedReceivers := replica :: d.checkedReceivers }

/-- `MessageData::pollable`: the fast path, or the slow path. -/
def pollable (r : Receiver) (d : MessageData) : Bool :=
  (d.echoes.length = r.others.length && d.echoesMatch) ||
    d.checkedReceivers.length = r.others.length

end MessageData

namespace Receiver

/-! ### Messages and echoes -/

/-- `Receiver::echo`: an echo of a message in the tail is recorded. -/
def echo (cr : Crypto) (r : Receiver) (i : Index) (replica : ProcId) (echo : Buffer) :
    Except Error Receiver :=
  match r.msgTail.find? i with
  | none => .ok r
  | some d =>
    let (d, first) := d.echoed cr replica echo
    if first then .ok { r with msgTail := r.msgTail.modify i (fun _ => d) }
    else .error (.echoedTwice replica)

/-- Replays the echo buffered from `replica` for message `i`. -/
def replayEcho (cr : Crypto) (i : Index) (r : Receiver) (replica : ProcId) :
    Except Error Receiver :=
  match (r.bufferedEchoes replica).dropWhile (fun e => decide (index e.bytes < i)) with
  | [] => .ok { r with bufferedEchoes := Function.update r.bufferedEchoes replica [] }
  | e :: es =>
    if index e.bytes = i then
      echo cr { r with bufferedEchoes := Function.update r.bufferedEchoes replica es } i replica e
    else .ok { r with bufferedEchoes := Function.update r.bufferedEchoes replica (e :: es) }

/-- The echoes buffered for the message, receiver after receiver. -/
def replayEchoes (cr : Crypto) (i : Index) (r : Receiver) : List ProcId → Except Error Receiver
  | [] => .ok r
  | q :: qs => do replayEchoes cr i (← replayEcho cr i r q) qs

/-- The tail with one more message, without its first one if that is too many. -/
def emplace (r : Receiver) (m : Bytes) : OrdMap Index MessageData :=
  let msgTail := r.msgTail.insert (index m) { message := m }
  if r.tail < msgTail.size then msgTail.popFront else msgTail

/-- `handleMessage`, after `Message::tryFrom`.  The echo goes to every other receiver. -/
def handleMessage (cr : Crypto) (r : Receiver) (m : Bytes) : Except Error Receiver :=
  if m.length < headerSize then .error .malformed
  else if (r.msgTail.find? (index m)).isSome ∨ ∃ l ∈ r.latestPolledMessage, index m ≤ l then
    .error .sentTwice
  else if ∃ e ∈ r.msgTail.last?, index m ≤ e.1 then .ok r
  else if 8 < r.others.length then .error .capacity
  else
    replayEchoes cr (index m)
      { r with msgTail := r.emplace m, received := r.received ++ [m] } r.others

/-- `handleEcho`, after `Message::tryFrom`. -/
def handleEcho (cr : Crypto) (r : Receiver) (e : Buffer) (replica : ProcId) :
    Except Error Receiver :=
  if e.bytes.length < headerSize then .ok r
  else
    let r := { r with echoed := Function.update r.echoed replica (r.echoed replica ++ [e]) }
    if (∃ l ∈ r.latestPolledMessage, index e.bytes < l) ∨
        ∃ f ∈ r.msgTail.first?, index e.bytes < f.1 then .ok r
    else
      match r.msgTail.find? (index e.bytes) with
      | some _ => r.echo cr (index e.bytes) replica e
      | none =>
        let echoes := r.bufferedEchoes replica
        if ∃ l ∈ echoes.getLast?, index e.bytes < index l.bytes then
          .error (.echoesOutOfOrder replica)
        else
          .ok { r with
            bufferedEchoes := Function.update r.bufferedEchoes replica
              ((echoes ++ [e]).drop ((echoes ++ [e]).length - r.tail)) }

/-! ### Signatures -/

/-- `handleSignature`: the signature of the broadcaster is checked. -/
def handleSignature (cr : Crypto) (r : Receiver) (i : Index) (sig : Signature) :
    Except Error Receiver :=
  match r.msgTail.find? i with
  | none => .ok r
  | some d =>
    match d.signature with
    | some _ => .error .signedTwice
    | none =>
      .ok { r with
        msgTail := r.msgTail.modify i (fun d => { d with signature := some sig })
        checks := r.checks ++ [⟨i, cr.blake3 d.message, sig, .broadcaster⟩] }

/-- A worker ends the `k`-th check. -/
def finishCheck (cr : Crypto) (r : Receiver) (k : Nat) : Receiver :=
  match r.checks[k]? with
  | none => r
  | some c =>
    { r with
      checks := r.checks.eraseIdx k
      verifiedSignatures :=
        r.verifiedSignatures ++ [⟨c.index, cr.verify c.signature c.hash, c.origin⟩] }

/-- The thread pool drops the `k`-th check, as it does with the oldest one of a full queue. -/
def dropCheck (r : Receiver) (k : Nat) : Receiver := { r with checks := r.checks.eraseIdx k }

/-- Begins to WRITE the signature of message `i`.  The register begins at incarnation 0 and the
writers of its hosts at 2, with 2 added to what they are given, on 32 bits. -/
def write (cr : Crypto) (r : Receiver) (i : Index) (d : MessageData) : Except Error Receiver :=
  match d.signature with
  | none => .error .noSignature
  | some sig =>
    let reg : Register := ⟨i % r.tail, writtenIncarnation r.tail i, cr.blake3 d.message, sig⟩
    if (r.outstandingWrites.find? reg.slot).isSome ∨ (reg.incarnation + 2) % 2 ^ 32 ≤ 2 ∨
        ∃ w ∈ r.written, w.slot = reg.slot ∧ reg.incarnation ≤ w.incarnation then
      .error .outstandingWrite
    else
      .ok { r with
        written := r.written ++ [reg]
        outstandingWrites := r.outstandingWrites.insert reg.slot i }

/-- One round of `pollSignatureVerifications`. -/
def pollSignatureVerification (cr : Crypto) (r : Receiver) : Except Error Receiver :=
  match r.verifiedSignatures with
  | [] => .ok r
  | v :: vs =>
    let r := { r with verifiedSignatures := vs }
    match r.msgTail.find? v.index with
    | none => .ok r
    | some d =>
      match v.origin with
      | .broadcaster => if v.ok then r.write cr v.index d else .error (.invalidSignature v.index)
      | .receiverRegister q =>
        if v.ok then .error (.equivocated v.index)
        else .ok { r with msgTail := r.msgTail.modify v.index (·.checkedAReceiver q) }

/-! ### Registers -/

/-- The WRITE of a register completes; `since` are the last incarnations completed of the
others' register, read next. -/
def pollWriteCompletion (r : Receiver) (slot : Nat) (since : ProcId → Nat) : Receiver :=
  match r.outstandingWrites.find? slot with
  | none => r
  | some i =>
    let r := { r with
      outstandingWrites := r.outstandingWrites.erase slot
      completed := Function.update r.completed slot (writtenIncarnation r.tail i) }
    match r.msgTail.find? i with
    | none => r
    | some _ =>
      let reads := r.others.map fun q => ⟨i, q, since q⟩
      { r with outstandingReads := r.outstandingReads ++ reads, begun := r.begun ++ reads }

/-- The `k`-th READ completes with the value `reg`. -/
def pollReadCompletion (r : Receiver) (k : Nat) (reg : Register) : Except Error Receiver :=
  match r.outstandingReads[k]? with
  | none => .ok r
  | some rd =>
    let expected := expectedIncarnation r.tail rd.index
    if expected < reg.incarnation then .error .recycled
    else
      let r := { r with outstandingReads := r.outstandingReads.eraseIdx k }
      match r.msgTail.find? rd.index with
      | none => .ok r
      | some d =>
        if reg.incarnation < expected ∨ d.signature = some reg.signature then
          .ok { r with msgTail := r.msgTail.modify rd.index (·.checkedAReceiver rd.replica) }
        else
          .ok { r with
            checks :=
              r.checks ++ [⟨rd.index, reg.hash, reg.signature, .receiverRegister rd.replica⟩] }

/-! ### Polling -/

/-- `poll`, which returns the oldest message if it is pollable. -/
def poll (r : Receiver) : Receiver × Option Bytes :=
  match r.msgTail.first? with
  | none => (r, none)
  | some (i, d) =>
    if d.pollable r then
      ({ r with
          latestPolledMessage := some i
          msgTail := r.msgTail.erase i
          polled := r.polled ++ [d.message] }, some d.message)
    else (r, none)

end Receiver

/-! ### The machine -/

/-- What a receiver reacts to. -/
inductive Input where
  | message (m : Bytes)
  | echo (replica : ProcId) (e : Buffer)
  | signature (i : Index) (sig : Signature)
  | finishCheck (k : Nat)
  | dropCheck (k : Nat)
  | pollSignatureVerification
  | writeCompletion (slot : Nat) (since : ProcId → Nat)
  | readCompletion (k : Nat) (reg : Register)
  | poll
  | toggleSlowPath (enable : Bool)

/-- One step: an input is handled, or a completion polled. -/
def Receiver.handle (cr : Crypto) (r : Receiver) : Input → Except Error Receiver
  | .message m => r.handleMessage cr m
  | .echo q e => if q ∈ r.others then r.handleEcho cr e q else .ok r
  | .signature i sig => r.handleSignature cr i sig
  | .finishCheck k => .ok (r.finishCheck cr k)
  | .dropCheck k => .ok (r.dropCheck k)
  | .pollSignatureVerification => r.pollSignatureVerification cr
  | .writeCompletion slot since => .ok (r.pollWriteCompletion slot since)
  | .readCompletion k reg => r.pollReadCompletion k reg
  | .poll => .ok r.poll.1
  | .toggleSlowPath enable => .ok { r with slowPathOn := enable }

end Ubft.Broadcast
