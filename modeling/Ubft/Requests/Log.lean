import Ubft.Requests.Client

/-!
# Requests — the log

`consensus/internal/requests.hpp`: the requests received from each client, that tell whether a
batch is valid.  A `ProcId` is an `int`, here the integer of its 32 bits; the log converts it to a
`size_t`, which extends the sign.

`isValid` and `decided` go through a batch as `for (it = requests(); !it.done(); ++it)`, which need
not end: they are given a number of rounds, and `none` is when there are not enough.  `isValid` also
tells what it read of the batch.
-/

namespace Ubft.Requests

open Server (Batch Request)

/-! ### The requests of all clients -/

/-- `RequestLog`. -/
structure RequestLog where
  clientWindow : Nat
  maxRequestSize : Nat
  clientRequests : List (Option SingleClientRequests) := []
  size_lt : maxRequestSize < 2 ^ 63
  /-- A vector is not larger than half the address space. -/
  length_lt : clientRequests.length < 2 ^ 63

/-- `static_cast<size_t>` of an `int`. -/
def index (clientId : Nat) : Nat :=
  if clientId < 2 ^ 31 then clientId else clientId + (2 ^ 64 - 2 ^ 32)

namespace RequestLog

/-- The constructor. -/
def start (clientWindow maxRequestSize : Nat) (h : maxRequestSize < 2 ^ 63) : RequestLog where
  clientWindow := clientWindow
  maxRequestSize := maxRequestSize
  size_lt := h
  length_lt := by decide

/-- `client`. -/
def client (l : RequestLog) (clientId : Nat) : Except Error (Option SingleClientRequests) :=
  match l.clientRequests[index clientId]? with
  | none => .error (.outOfRange clientId)
  | some c => .ok c

/-- `clientExists`; the sum is 0 for the client -1. -/
def clientExists (l : RequestLog) (clientId : Nat) : Except Error Bool :=
  if l.clientRequests.length < (index clientId + 1) % 2 ^ 64 then .ok false
  else do return (← l.client clientId).isSome

/-- `client` of a client that there is. -/
def find? (l : RequestLog) (clientId : Nat) : Option SingleClientRequests :=
  (l.clientRequests[index clientId]?).join

/-- `client(client_id)->`, when something is assigned through it. -/
def setClient (l : RequestLog) (clientId : Nat) (c : SingleClientRequests) : RequestLog :=
  { l with
    clientRequests := l.clientRequests.set (index clientId) (some c)
    length_lt := by
      rw [List.length_set]
      exact l.length_lt }

/-- The loop of `addClient`. -/
def grow (l : RequestLog) (size : Nat) (h : size < 2 ^ 63) : RequestLog :=
  { l with
    clientRequests := l.clientRequests ++ List.replicate (size - l.clientRequests.length) none
    length_lt := by
      have := l.length_lt
      rw [List.length_append, List.length_replicate]
      omega }

/-- `addClient`, of a client that there is not. -/
def addClient (l : RequestLog) (clientId : Nat) : Except Error RequestLog :=
  if h : index clientId + 1 < 2 ^ 63 then
    .ok ((l.grow (index clientId + 1) h).setClient clientId
      (.start l.clientWindow l.maxRequestSize l.size_lt))
  else .error .outOfMemory

/-- `addRequest`. -/
def addRequest (l : RequestLog) (clientId id : Nat) (request : Bytes) :
    RequestLog × Except Error Bool :=
  match l.clientExists clientId with
  | .error e => (l, .error e)
  | .ok known =>
    match if known then .ok l else l.addClient clientId with
    | .error e => (l, .error e)
    | .ok l =>
      match l.find? clientId with
      | none => (l, .error (.noClient clientId))
      | some c =>
        let (c, result) := c.addRequest id request
        (l.setClient clientId c, result)

/-! ### Going through a batch -/

/-- The offset and the size of what is read. -/
abbrev Span := Nat × Nat

/-- A round of `isValid`, and what it reads to get there. -/
def checkRequest (l : RequestLog) (b : Batch) (offset : Nat) : List Span × Except Error Bool :=
  let r := b.request offset
  match l.clientExists r.clientId with
  | .error e => ([(offset, 4)], .error e)
  | .ok false => ([(offset, 4)], .ok false)
  | .ok true =>
    match (l.find? r.clientId).bind fun c => c.requests.find? r.id with
    | none => ([(offset, 4), (offset + 8, 8)], .ok false)
    | some buffer =>
      if buffer.length ≠ r.size then
        ([(offset, 4), (offset + 8, 8), (offset + 16, 8)], .ok false)
      else
        ([(offset, 4), (offset + 8, 8), (offset + 16, 8), (offset + 24, r.size)],
          .ok (buffer = r.payload))

/-- The loop of `isValid`, from an offset on. -/
def isValidFrom (l : RequestLog) (b : Batch) : Nat → Nat → Option (List Span × Except Error Bool)
  | 0, _ => none
  | n + 1, offset =>
    if b.done offset then some ([], .ok true)
    else
      match l.checkRequest b offset with
      | (reads, .ok true) =>
        (isValidFrom l b n (b.next offset)).map fun o => (reads ++ o.1, o.2)
      | o => some o

/-- `isValid`. -/
def isValid (l : RequestLog) (b : Batch) (rounds : Nat) :
    Option (List Span × Except Error Bool) :=
  l.isValidFrom b rounds 0

/-- A round of `decided`; an unknown client is only logged before it is used. -/
def decide (l : RequestLog) (r : Request) : Except Error RequestLog :=
  match l.client r.clientId with
  | .error e => .error e
  | .ok none => .error (.noClient r.clientId)
  | .ok (some c) => .ok (l.setClient r.clientId (c.decided r))

/-- The loop of `decided`, from an offset on. -/
def decidedFrom (l : RequestLog) (b : Batch) : Nat → Nat → Option (Except Error RequestLog)
  | 0, _ => none
  | n + 1, offset =>
    if b.done offset then some (.ok l)
    else
      match l.decide (b.request offset) with
      | .error e => some (.error e)
      | .ok l => decidedFrom l b n (b.next offset)

/-- `decided`. -/
def decided (l : RequestLog) (b : Batch) (rounds : Nat) : Option (Except Error RequestLog) :=
  l.decidedFrom b rounds 0

end RequestLog

end Ubft.Requests
