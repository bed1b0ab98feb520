import Ubft.Support.Mem
import Ubft.Support.Runs
import Ubft.TailP2p.Link

/-!
# TailP2p — the asynchronous sender

`tail-p2p/internal/async-sender.hpp`: when no slot of the ring is free, a message is written in a
buffer of a pool (`buffer.hpp`) and copied to the ring later.

`Link` has a slot as one object.  Here the ring is the memory it is in, byte by byte: a slot is
`slotSize` bytes of it, its header the first 16, and what is written past its end is in the next
one.  Addresses are offsets from the beginning of the ring, and sizes are computed on 64 bits.
-/

namespace Ubft.TailP2p

/-- What the senders and their buffers throw. -/
inductive SendError where
  /-- "p2p slot size {} is smaller than requested {}." -/
  | slotTooSmall (slotSize size : Nat)
  /-- "Cannot release faster than alloc." -/
  | releaseTooFast
  /-- "Called getSlot too many times without calling send." -/
  | tooManySlots
  /-- "Resize tried to reallocate beyond the initial size." -/
  | beyondInitialSize
  /-- `std::length_error`. -/
  | length
  deriving DecidableEq, Repr

/-! ### Buffers -/

/-- `Buffer`, of which `bytes` is what its memory holds.  The senders do not trim it. -/
structure Buffer where
  maxSize : Nat
  bytes : Nat → UInt8
  size : Nat
  size_le : size ≤ maxSize
  /-- There are no longer vectors of bytes. -/
  maxSize_lt : maxSize < 2 ^ 63

namespace Buffer

/-- The bytes up to the buffer's size. -/
def data (b : Buffer) : Bytes := Mem.load b.bytes 0 b.size

/-- The bytes there are not initialized: they are what the memory held. -/
def resize (b : Buffer) (size : Nat) : Except SendError Buffer :=
  if h : b.maxSize < size then .error .beyondInitialSize
  else .ok { b with
    size
    size_le := Nat.not_lt.mp h }

/-- A byte is written. -/
def write (b : Buffer) (k : Nat) (v : UInt8) : Buffer :=
  { b with bytes := Mem.store b.bytes k [v] }

end Buffer

/-- `Pool`, its back first.  `fresh` is what the memory of a new buffer holds. -/
structure Pool where
  bufferSize : Nat
  fresh : Nat → UInt8
  buffers : List Buffer := []

namespace Pool

/-- `AllowDelayedBufferAlloc`. -/
def allowDelayedBufferAlloc : Bool := true

/-- A buffer as large as the pool's are. -/
def newBuffer (p : Pool) : Except SendError Buffer :=
  if h : p.bufferSize < 2 ^ 63 then .ok ⟨p.bufferSize, p.fresh, p.bufferSize, Nat.le_refl _, h⟩
  else .error .length

/-- The constructor. -/
def new (fresh : Nat → UInt8) (bufferSize : Nat) : Nat → Except SendError Pool
  | 0 => .ok { bufferSize, fresh }
  | n + 1 => do
    let p ← new fresh bufferSize n
    let b ← p.newBuffer
    return { p with buffers := b :: p.buffers }

/-- A free buffer, else a new one: with delayed allocation the pool never refuses. -/
def take (p : Pool) (size : Nat) : Except SendError (Option (Buffer × Pool)) :=
  match p.buffers with
  | [] =>
    if allowDelayedBufferAlloc then do
      let b ← p.newBuffer
      let b ← b.resize size
      return some (b, p)
    else .ok none
  | b :: buffers => do
    let b ← b.resize size
    return some (b, { p with buffers })

/-- `~Buffer`: the buffer returns to its pool, at its initial size. -/
def release (p : Pool) (b : Buffer) : Pool :=
  { p with buffers := { b with
      size := b.maxSize
      size_le := Nat.le_refl _ } :: p.buffers }

end Pool

/-! ### The synchronous sender -/

/-- A RDMA write, as it was when it was posted. -/
structure Write where
  remote : Nat
  bytes : Bytes
  deriving DecidableEq, Repr

/-- `SyncSender`, with its `CircularBuffer`, the ring, and what it posted. -/
structure SyncSender where
  ring : Nat → UInt8
  nextAlloc : Nat := 0
  nextFree : Nat := 0
  toSend : List Nat := []
  nextSlot : Nat := 0
  sendBefore : Nat := 0
  nextSend : Nat := 0
  outstandingWrites : Nat := 0
  writes : List Write := []

namespace SyncSender

/-- `sizeof(Header)`: the hash at 0, the incarnation at 8, the size at 12. -/
def headerSize : Nat := 16

variable (cfg : Config)

/-- A header and a message, rounded up to 8 bytes. -/
def slotSize : Nat := (headerSize + cfg.maxMsgSize + 8 - 1) % 2 ^ 64 / 8 * 8

/-- `tail` slots. -/
def bufferSize : Nat := cfg.tail * slotSize cfg % 2 ^ 64

/-- Where the slot of a message is, in both rings. -/
def slotAt (index : Nat) : Nat := slotSize cfg * (index % cfg.tail) % 2 ^ 64

/-- `CircularBuffer::acquire`. -/
def acquire (s : SyncSender) : Option (Nat × SyncSender) :=
  if s.nextAlloc = s.nextFree + cfg.tail then none
  else some (slotAt cfg s.nextAlloc, { s with nextAlloc := s.nextAlloc + 1 })

/-- `getSlot`, and where the message is to be written. -/
def getSlot (s : SyncSender) (size : Nat) : Except SendError (Option (Nat × SyncSender)) :=
  if slotSize cfg < size then .error (.slotTooSmall (slotSize cfg) size)
  else
    match s.acquire cfg with
    | none => .ok none
    | some (slot, s) =>
      let ring := Mem.store s.ring (slot + 8) (le 4 (s.nextSlot / cfg.tail + 1))
      .ok <| some (slot + headerSize, { s with
        ring := Mem.store ring (slot + 12) (le 4 size)
        nextSlot := s.nextSlot + 1
        toSend := s.toSend ++ [slot] })

/-- `pushToQp`, over `to_send`. -/
def pushToQp : List Nat → SyncSender → SyncSender
  | [], s => { s with toSend := [] }
  | slot :: rest, s =>
    if s.nextSend < s.sendBefore ∧ s.outstandingWrites < wrDepth then
      let size := ofLe (Mem.load s.ring (slot + 12) 4)
      let hash := cfg.hash (Mem.load s.ring (slot + headerSize) size)
      let ring := Mem.store s.ring slot (le 8 hash.toNat)
      let fullSize := (headerSize + size) % 2 ^ 32
      pushToQp rest { s with
        ring
        writes := s.writes ++ [⟨slotAt cfg s.nextSend, Mem.load ring slot fullSize⟩]
        outstandingWrites := s.outstandingWrites + 1
        nextSend := s.nextSend + 1 }
    else { s with toSend := slot :: rest }

/-- What was gotten so far may be posted. -/
def send (s : SyncSender) : SyncSender :=
  { s with sendBefore := s.nextSlot }.pushToQp cfg s.toSend

/-- `n` writes complete. -/
def complete : Nat → SyncSender → Except SendError SyncSender
  | 0, s => .ok s
  | n + 1, s =>
    if s.nextAlloc = s.nextFree then .error .releaseTooFast
    else complete n { s with
      nextFree := s.nextFree + 1
      outstandingWrites := s.outstandingWrites - 1 }

/-- `tick`, when `n` completions are polled. -/
def tick (s : SyncSender) (n : Nat) : Except SendError SyncSender := do
  let s ← s.complete n
  return s.pushToQp cfg s.toSend

end SyncSender

/-! ### The asynchronous sender -/

/-- A sender whose messages wait in buffers when the ring is full. -/
structure AsyncSender where
  sender : SyncSender
  bufferPool : Pool
  beingWritten : List Buffer := []
  tailBuffer : List Buffer := []

/-- Where `getSlot` tells to write: in the ring, or in a buffer being written. -/
inductive Pointer where
  | slot (data : Nat)
  | buffer (i : Nat)
  deriving DecidableEq, Repr

namespace AsyncSender

variable (cfg : Config)

/-- `pushToSender`, over `tail_buffer`. -/
def pushToSender : List Buffer → AsyncSender → Except SendError AsyncSender
  | [], s => .ok { s with tailBuffer := [] }
  | buffer :: rest, s => do
    match ← s.sender.getSlot cfg buffer.size with
    | none => return { s with tailBuffer := buffer :: rest }
    | some (slot, sender) =>
      pushToSender rest { s with
        sender := { sender with ring := Mem.store sender.ring slot buffer.data }.send cfg
        bufferPool := s.bufferPool.release buffer }

/-- A slot of the ring, else a buffer, else the oldest buffer in the tail. -/
def getSlot (s : AsyncSender) (size : Nat) : Except SendError (Pointer × AsyncSender) := do
  let s ← s.pushToSender cfg s.tailBuffer
  match ← s.sender.getSlot cfg size with
  | some (slot, sender) => return (.slot slot, { s with sender })
  | none =>
    let pointer := Pointer.buffer s.beingWritten.length
    match ← s.bufferPool.take size with
    | some (buffer, bufferPool) => return (pointer, { s with
        bufferPool
        beingWritten := s.beingWritten ++ [buffer] })
    | none =>
      -- the oldest slot in the tail is recycled
      match s.tailBuffer with
      | [] => throw .tooManySlots
      | front :: tailBuffer =>
        let buffer ← front.resize size
        return (pointer, { s with
          beingWritten := s.beingWritten ++ [buffer]
          tailBuffer })

/-- What the ring has place for is copied there. -/
def send (s : AsyncSender) : Except SendError AsyncSender :=
  { s with
    sender := s.sender.send cfg
    beingWritten := [] }.pushToSender cfg (s.tailBuffer ++ s.beingWritten)

/-- `tick`, when `n` completions are polled. -/
def tick (s : AsyncSender) (n : Nat) : Except SendError AsyncSender := do
  let sender ← s.sender.tick cfg n
  { s with sender }.pushToSender cfg s.tailBuffer

/-- The messages in the buffers. -/
def held (s : AsyncSender) : Nat := s.beingWritten.length + s.tailBuffer.length

/-- What `size` bytes at a pointer hold. -/
def contents (s : AsyncSender) (size : Nat) : Pointer → Bytes
  | .slot data => Mem.load s.sender.ring data size
  | .buffer i => (s.beingWritten[i]?.map Buffer.data).getD []

/-- A byte is written at a pointer. -/
def write (s : AsyncSender) (k : Nat) (v : UInt8) : Pointer → AsyncSender
  | .slot data =>
    { s with sender := { s.sender with ring := Mem.store s.sender.ring (data + k) [v] } }
  | .buffer i => { s with beingWritten := s.beingWritten.modify i (·.write k v) }

end AsyncSender

/-! ### Runs -/

/-- A sender and the one who uses it.  `group` are the pointers obtained since `send` was last
called, and what was written there; `sent` are the messages as they were when it was, the
history. -/
structure Spool where
  async : AsyncSender
  group : List (Pointer × Bytes) := []
  sent : List Bytes := []

/-- What the user of a sender does. -/
inductive Call where
  | getSlot (size : UInt32)
  | write (i k : Nat) (v : UInt8)
  | send
  | tick (n : Nat)
  deriving DecidableEq, Repr

namespace Spool

variable (cfg : Config)

/-- One call of the user; the messages being written are kept. -/
def next (s : Spool) : Call → Except SendError Spool
  | .getSlot size => do
    let (pointer, async) ← s.async.getSlot cfg size.toNat
    return { s with
      async
      group := s.group ++ [(pointer, async.contents size.toNat pointer)] }
  | .write i k v =>
    match s.group[i]? with
    | none => return s
    | some (pointer, message) => return { s with
        async := s.async.write k v pointer
        group := s.group.set i (pointer, message.set k v) }
  | .send => do
    let async ← s.async.send cfg
    return { async, sent := s.sent ++ s.group.map (·.2) }
  | .tick n => do
    let async ← s.async.tick cfg (min n s.async.sender.outstandingWrites)
    return { s with async }

/-- The constructor, whatever the memory holds. -/
def Init (s : Spool) : Prop :=
  ∃ ring fresh bufferPool, Pool.new fresh cfg.maxMsgSize cfg.tail = .ok bufferPool ∧
    s = { async := { sender := { ring }, bufferPool } }

/-- A call that throws nothing. -/
def Step (s : Spool) (c : Call) (s' : Spool) : Prop := s.next cfg c = .ok s'

end Spool

end Ubft.TailP2p
