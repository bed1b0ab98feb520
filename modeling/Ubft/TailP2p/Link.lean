import Ubft.Support.Bytes
import Ubft.Support.Runs

/-!
# TailP2p — the link

`tail-p2p/internal/sync-sender.hpp` and `tail-p2p/receiver.hpp`: a sender RDMA-writes its messages
to a ring of `tail` slots of the receiver, that polls them.  A write lands in order: the hash, the
incarnation, the size, and the bytes.  The receiver reads the incarnation, the hash, the size, the
bytes, and the incarnation again, and anything may land between two of its reads.

`poll` is the same during which nothing lands.
-/

namespace Ubft.TailP2p

/-- `internal::Header`, and the bytes after it. -/
structure Slot where
  hash : UInt64 := 0
  incarnation : UInt32 := 0
  size : Nat := 0
  data : Nat → UInt8 := fun _ => 0

/-- The bytes that the header promises. -/
def Slot.content (s : Slot) : Bytes := (List.range s.size).map s.data

/-- The parameters of a link, the same on both sides. -/
structure Config where
  tail : Nat
  maxMsgSize : Nat
  /-- `XXH3_64bits`. -/
  hash : Bytes → UInt64

/-- `slotSize`, the slots being 8-byte aligned. -/
def Config.slotSize (cfg : Config) : Nat := (16 + cfg.maxMsgSize + 8 - 1) % 2 ^ 64 / 8 * 8

/-- `conn::ReliableConnection::WrDepth`. -/
def wrDepth : Nat := 128

/-- What a sender throws. -/
inductive Error where
  /-- "p2p slot size {} is smaller than requested {}." -/
  | slotTooSmall (slotSize size : Nat)
  /-- "Cannot release faster than alloc." -/
  | releaseTooFast
  deriving DecidableEq, Repr

/-! ### The sender -/

/-- A RDMA write posted and not landed: from a slot of the sender to a slot of the receiver, its
length with the header. -/
structure Post where
  slot : Nat
  remote : Nat
  size : Nat
  deriving DecidableEq, Repr

/-- `SyncSender`, with its `CircularBuffer` and what it posted. -/
structure Sender where
  buffers : Nat → Slot
  nextAlloc : Nat := 0
  nextFree : Nat := 0
  toSend : List Nat := []
  nextSlot : Nat := 0
  sendBefore : Nat := 0
  nextSend : Nat := 0
  outstandingWrites : Nat := 0
  posts : List Post := []

namespace Sender

variable (cfg : Config)

/-- `CircularBuffer::acquire`. -/
def acquire (s : Sender) : Option (Nat × Sender) :=
  if s.nextAlloc = s.nextFree + cfg.tail then none
  else some (s.nextAlloc % cfg.tail, { s with nextAlloc := s.nextAlloc + 1 })

/-- `pushToQp`, over `to_send`. -/
def pushToQp : List Nat → Sender → Sender
  | [], s => { s with toSend := [] }
  | slot :: rest, s =>
    if s.nextSend < s.sendBefore ∧ s.outstandingWrites < wrDepth then
      let header := s.buffers slot
      pushToQp rest { s with
        buffers := Function.update s.buffers slot { header with
          hash := cfg.hash header.content }
        posts := s.posts ++ [⟨slot, s.nextSend % cfg.tail, (16 + header.size) % 2 ^ 32⟩]
        outstandingWrites := s.outstandingWrites + 1
        nextSend := s.nextSend + 1 }
    else { s with toSend := slot :: rest }

/-- `getSlot`, and the message is written in the slot. -/
def getSlot (s : Sender) (message : Bytes) : Except Error (Option Sender) :=
  if cfg.slotSize < message.length then .error (.slotTooSmall cfg.slotSize message.length)
  else
    match s.acquire cfg with
    | none => .ok none
    | some (slot, s) =>
      .ok <| some { s with
        buffers := Function.update s.buffers slot { s.buffers slot with
          incarnation := UInt32.ofNat (s.nextSlot / cfg.tail + 1)
          size := message.length
          data := fun k => message.getD k 0 }
        nextSlot := s.nextSlot + 1
        toSend := s.toSend ++ [slot] }

/-- What was gotten so far may be posted. -/
def send (s : Sender) : Sender :=
  { s with sendBefore := s.nextSlot }.pushToQp cfg s.toSend

/-- `n` writes complete. -/
def complete : Nat → Sender → Except Error Sender
  | 0, s => .ok s
  | n + 1, s =>
    if s.nextAlloc = s.nextFree then .error .releaseTooFast
    else complete n { s with
      nextFree := s.nextFree + 1
      outstandingWrites := s.outstandingWrites - 1 }

/-- `tick`, when `n` completions are polled. -/
def tick (s : Sender) (n : Nat) : Except Error Sender := do
  let s ← s.complete n
  return s.pushToQp cfg s.toSend

end Sender

/-! ### The receiver -/

/-- `MsgId`, in lexicographic order. -/
structure MsgId where
  incarnation : UInt32
  index : Nat
  deriving DecidableEq, Repr

namespace MsgId

/-- Lexicographic, the incarnation first. -/
protected def lt (a b : MsgId) : Prop :=
  a.incarnation < b.incarnation ∨ a.incarnation = b.incarnation ∧ a.index < b.index

instance : LT MsgId := ⟨MsgId.lt⟩

instance (a b : MsgId) : Decidable (a < b) := inferInstanceAs (Decidable (_ ∨ _ ∧ _))

/-- `FirstMsg`. -/
def first : MsgId := ⟨1, 0⟩

/-- The slot behind, or the first one of the next incarnation. -/
def successor (cfg : Config) (id : MsgId) : MsgId :=
  if cfg.tail ≤ id.index + 1 then ⟨id.incarnation + 1, 0⟩ else ⟨id.incarnation, id.index + 1⟩

end MsgId

/-- A message polled, and its identifier. -/
structure Delivery where
  id : MsgId
  message : Bytes
  deriving DecidableEq, Repr

/-- The fields of the `Receiver`.  `ptr_to_scan` is the slot of `next_to_scan`. -/
structure Cursors where
  maxScannedStraggling : Option MsgId := none
  nextToScan : MsgId := .first
  bestToDeliver : MsgId := .first
  deriving DecidableEq, Repr

namespace Cursors

/-- The slot under the scan, in an incarnation of its own. -/
def scanning (c : Cursors) (incarnation : UInt32) : MsgId := ⟨incarnation, c.nextToScan.index⟩

/-- The message looked for, or a falling edge. -/
def Wants (c : Cursors) (id : MsgId) : Prop :=
  id = c.bestToDeliver ∨ ∃ max ∈ c.maxScannedStraggling, id < max

instance (c : Cursors) (id : MsgId) : Decidable (c.Wants id) :=
  inferInstanceAs (Decidable (_ ∨ ∃ max ∈ c.maxScannedStraggling, id < max))

/-- `id` was delivered. -/
def deliver (cfg : Config) (c : Cursors) (id : MsgId) : Cursors :=
  { c with
    nextToScan := id.successor cfg
    bestToDeliver := id.successor cfg }

/-- No falling edge yet. -/
def straggle (cfg : Config) (c : Cursors) (id : MsgId) : Cursors :=
  { c with
    maxScannedStraggling := some id
    nextToScan := id.successor cfg }

end Cursors

/-- What one attempt to copy a message ends in. -/
inductive TryPollResult where
  | polled (d : Delivery)
  | empty
  | straggling

/-- `tryPoll`, nothing landing meanwhile. -/
def tryPoll (cfg : Config) (slots : Nat → Slot) (c : Cursors) : Cursors × TryPollResult :=
  let slot := slots c.nextToScan.index
  if slot.incarnation < c.bestToDeliver.incarnation then (c, .empty)
  else
    let scanning := c.scanning slot.incarnation
    if c.Wants scanning then
      if slot.hash = cfg.hash slot.content then
        (c.deliver cfg scanning, .polled ⟨scanning, slot.content⟩)
      else (c, .straggling)
    else (c.straggle cfg scanning, .straggling)

/-- The loop of `poll`. -/
def poll (cfg : Config) (slots : Nat → Slot) : Nat → Cursors → Cursors × Option Delivery
  | 0, c => (c, none)
  | n + 1, c =>
    match tryPoll cfg slots c with
    | (c, .polled d) => (c, some d)
    | (c, .empty) => (c, none)
    | (c, .straggling) => poll cfg slots n c

/-- Where a `poll` is: what it read, and the number of times it may still try after this one. -/
inductive Pc where
  | idle
  | scan (left : Nat)
  | hash (left : Nat) (incarnation : UInt32)
  | size (left : Nat) (incarnation : UInt32) (hash : UInt64)
  | copy (left : Nat) (incarnation : UInt32) (hash : UInt64) (size : Nat)
      (buffer : Nat → Option UInt8)

/-- Back to the loop of `poll`. -/
def Pc.again : Nat → Pc
  | 0 => .idle
  | left + 1 => .scan left

/-- `delivered` is the history. -/
structure Receiver where
  cursors : Cursors := {}
  pc : Pc := .idle
  delivered : List Delivery := []

namespace Receiver

variable (cfg : Config)

/-- What was copied. -/
def copied (size : Nat) (buffer : Nat → Option UInt8) : Bytes :=
  (List.range size).map fun k => (buffer k).getD 0

/-- The next step of a `poll`, the copy of the bytes apart. -/
def receive (r : Receiver) (slots : Nat → Slot) : Receiver :=
  let slot := slots r.cursors.nextToScan.index
  match r.pc with
  | .idle => { r with pc := .again cfg.tail }
  | .scan left =>
    if slot.incarnation < r.cursors.bestToDeliver.incarnation then { r with pc := .idle }
    else { r with pc := .hash left slot.incarnation }
  | .hash left incarnation => { r with pc := .size left incarnation slot.hash }
  | .size left incarnation hash =>
    let scanning := r.cursors.scanning incarnation
    if r.cursors.Wants scanning then
      { r with pc := .copy left incarnation hash slot.size fun _ => none }
    else
      { r with
        cursors := r.cursors.straggle cfg scanning
        pc := .again left }
  | .copy left incarnation hash size buffer =>
    if ∀ k < size, (buffer k).isSome then
      if slot.incarnation ≠ incarnation then { r with pc := .again left }
      else if hash = cfg.hash (copied size buffer) then
        let scanning := r.cursors.scanning incarnation
        { cursors := r.cursors.deliver cfg scanning
          pc := .idle
          delivered := r.delivered ++ [⟨scanning, copied size buffer⟩] }
      else { r with pc := .again left }
    else r

/-- A byte is copied. -/
def copy (r : Receiver) (slots : Nat → Slot) (k : Nat) : Receiver :=
  match r.pc with
  | .copy left incarnation hash size buffer =>
    { r with
      pc := .copy left incarnation hash size <|
        Function.update buffer k (some ((slots r.cursors.nextToScan.index).data k)) }
  | _ => r

/-- At most `n` tries, nothing landing meanwhile. -/
def poll (slots : Nat → Slot) (n : Nat) (r : Receiver) : Receiver :=
  let (cursors, result) := TailP2p.poll cfg slots n r.cursors
  { cursors
    delivered := r.delivered ++ result.toList }

end Receiver

/-! ### The link -/

/-- What landed of the first write posted. -/
inductive Stage where
  | none
  | hash
  | incarnation
  | size
  deriving DecidableEq, Repr

/-- `written` are the messages for which a slot was given, the history. -/
structure State where
  sender : Sender
  slots : Nat → Slot
  stage : Stage := .none
  landed : Nat := 0
  receiver : Receiver := {}
  written : List Bytes := []

namespace State

variable (cfg : Config)

/-- One slot of the ring is overwritten. -/
def setSlot (s : State) (i : Nat) (slot : Slot) : State :=
  { s with slots := Function.update s.slots i slot }

/-- A field of `width` bytes over which a write of `n` bytes lands. -/
def overwrite (width n old new : Nat) : Nat :=
  if width ≤ n then new else new % 256 ^ n + old / 256 ^ n * 256 ^ n

/-- The first write goes on, the bytes apart.  A length that wrapped ends it in the header. -/
def land (s : State) : State :=
  match s.sender.posts with
  | [] => s
  | p :: posts =>
    let slot := s.slots p.remote
    let header := s.sender.buffers p.slot
    match s.stage with
    | .none =>
      let hash := overwrite 8 p.size slot.hash.toNat header.hash.toNat
      { s.setSlot p.remote { slot with hash := .ofNat hash } with stage := .hash }
    | .hash =>
      let incarnation := overwrite 4 (p.size - 8) slot.incarnation.toNat header.incarnation.toNat
      { s.setSlot p.remote { slot with incarnation := .ofNat incarnation } with
        stage := .incarnation }
    | .incarnation =>
      let size := overwrite 4 (p.size - 12) slot.size header.size
      { s.setSlot p.remote { slot with size } with stage := .size }
    | .size =>
      if ∀ k < p.size - 16, slot.data k = header.data k then
        { s with
          sender := { s.sender with posts }
          stage := .none
          landed := s.landed + 1 }
      else s

/-- A byte of the first write lands. -/
def landByte (s : State) (k : Nat) : State :=
  match s.sender.posts with
  | [] => s
  | p :: _ =>
    if s.stage = .size ∧ k < p.size - 16 then
      let slot := s.slots p.remote
      s.setSlot p.remote { slot with
        data := Function.update slot.data k ((s.sender.buffers p.slot).data k) }
    else s

/-- The writes that landed and whose completion was not polled. -/
def completions (s : State) : Nat := s.landed - (s.sender.nextSend - s.sender.outstandingWrites)

/-- `poll`, nothing landing meanwhile. -/
def poll (s : State) : State :=
  { s with receiver := s.receiver.poll cfg s.slots cfg.tail }

/-- Both rings are initialised, and hold anything in the messages. -/
def start (buffers slots : Nat → Slot) : State where
  sender := { buffers }
  slots i := { slots i with
    incarnation := 0
    size := 0 }

end State

/-- The calls of the sender, what the network does, the steps of the receiver. -/
inductive Label where
  | getSlot (message : Bytes)
  | send
  | tick (n : Nat)
  | land
  | landByte (k : Nat)
  | receive
  | copy (k : Nat)
  deriving DecidableEq, Repr

namespace State

variable (cfg : Config)

/-- One step of either side or of the network. -/
def next (s : State) : Label → Except Error State
  | .getSlot message => do
    match ← s.sender.getSlot cfg message with
    | none => return s
    | some sender => return { s with
        sender
        written := s.written ++ [message] }
  | .send => return { s with sender := s.sender.send cfg }
  | .tick n => do
    let sender ← s.sender.tick cfg (min n s.completions)
    return { s with sender }
  | .land => return s.land
  | .landByte k => return s.landByte k
  | .receive => return { s with receiver := s.receiver.receive cfg s.slots }
  | .copy k => return { s with receiver := s.receiver.copy s.slots k }

/-- The memory of the receiver is cleared. -/
def Init (s : State) : Prop := ∃ buffers slots, s = start buffers slots

/-- A step that throws nothing. -/
def Step (s : State) (l : Label) (s' : State) : Prop := s.next cfg l = .ok s'

/-- The identifier of the `m`-th message. -/
def msgId (m : Nat) : MsgId := ⟨UInt32.ofNat (m / cfg.tail + 1), m % cfg.tail⟩

/-- The message `m`, counted from 0. -/
def message (s : State) (m : Nat) : Bytes := s.written.getD m []

/-- The messages sent. -/
def sent (s : State) : List Delivery :=
  (List.range s.sender.sendBefore).map fun m => ⟨msgId cfg m, s.message m⟩

/-- The receiver has room for the message, and so has a slot (the check of `getSlot` lets some longer
ones through, that would overlap the next slot); the length of its write is on 32 bits; the ring is
in a memory, and there are few messages enough. -/
def Fits (s : State) : Label → Prop
  | .getSlot message =>
    message.length ≤ cfg.maxMsgSize ∧ 16 + message.length ≤ cfg.slotSize ∧
      16 + message.length < 2 ^ 32 ∧ cfg.tail * cfg.slotSize < 2 ^ 64 ∧
      s.sender.nextSlot + 1 < 2 ^ 64 ∧ s.sender.nextSlot + 1 < cfg.tail * (2 ^ 32 - 1)
  | _ => True

instance (s : State) : DecidablePred (s.Fits cfg)
  | .getSlot _ => inferInstanceAs (Decidable (_ ∧ _))
  | .send | .tick _ | .land | .landByte _ | .receive | .copy _ => inferInstanceAs (Decidable True)

/-- The hash of a message validates no other bytes. -/
def Validates (written : List Bytes) : Pc → Prop
  | .copy _ _ _ size buffer => ∀ m ∈ written,
    cfg.hash m = cfg.hash (Receiver.copied size buffer) → m = Receiver.copied size buffer
  | .idle | .scan _ | .hash _ _ | .size _ _ _ => True

instance (written : List Bytes) : DecidablePred (Validates cfg written)
  | .copy _ _ _ _ _ => inferInstanceAs (Decidable (∀ m ∈ written, _))
  | .idle | .scan _ | .hash _ _ | .size _ _ _ => inferInstanceAs (Decidable True)

/-- A torn copy is not taken for a message. -/
def Intact (s : State) : Label → Prop
  | .receive => Validates cfg s.written s.receiver.pc
  | _ => True

instance (s : State) : DecidablePred (s.Intact cfg)
  | .receive => inferInstanceAs (Decidable (Validates cfg s.written s.receiver.pc))
  | .getSlot _ | .send | .tick _ | .land | .landByte _ | .copy _ => inferInstanceAs (Decidable True)

end State

end Ubft.TailP2p
