import Ubft.Support.Bytes
import Ubft.Support.Runs
import Ubft.Store.Tail

/-!
# Certifier — definitions

`certifier/certifier.hpp` and `certifier/certificate.hpp`.  A certifier signs the messages its
replica acknowledges, one per index, exchanges the signatures (*shares*) with the other
replicas, and turns a quorum of them into a certificate; on the fast path it exchanges
unsigned *promises* instead.

A replica is known to its certifier by its rank in `receivers`, the replica itself by the rank
after the last.  A message is of any type `M`, and `blake3` stands for the hash of the three
fields the source feeds the hasher with: identifier, index, message.

The operations are the ones the source's thread takes between two returns: a call of the
public interface, a message polled from one peer, one completion of the thread pool.  `tick`
is any sequence of them.
-/

namespace Ubft

/-- `ProcId`, the identifier of a process. -/
abbrev ProcId := Nat

/-- `Crypto::Signature`. -/
abbrev Signature := Bytes

/-- `crypto::hash::Blake3Hash`. -/
abbrev Hash := Bytes

namespace Certifier

/-- `Identifier`, which tells certifiers apart. -/
abbrev Identifier := Nat

/-- `Index`, the number of a message. -/
abbrev Index := Nat

/-- The signatures of `crypto.hpp`: `publicKeys` is the keys' domain, `verifyWith` the signature
scheme under a key that is known, `sign` the scheme under the local key.  The constructor is
given every server's id, the local one included. -/
structure Crypto (M : Type) where
  myId : ProcId
  publicKeys : List ProcId
  own : myId ∈ publicKeys
  blake3 : Identifier → Index → M → Hash
  verifyWith : Signature → Hash → ProcId → Bool
  sign : Hash → Signature

/-- What the certifier throws. -/
inductive Error where
  /-- "Missing public key for {}!" -/
  | missingPublicKey (id : ProcId)
  /-- "Acknowledged messages out of order.", or `tryEmplace` threw. -/
  | outOfOrder
  /-- "Replica {} not found" -/
  | replicaNotFound (id : ProcId)
  /-- "Byzantine behavior, promised twice." -/
  | promisedTwice (replica : Nat)
  /-- "Byzantine behavior, promises sent out of order." -/
  | promisesOutOfOrder (replica : Nat)
  /-- "{} sent shares out of order." -/
  | sharesOutOfOrder (replica : Nat)
  /-- "Received invalid share #{} from {}." -/
  | invalidShare (index : Index) (replica : Nat)
  /-- "Byzantine behavior, share sent twice." -/
  | shareTwice (replica : Nat)
  deriving DecidableEq, Repr

/-- `Crypto::verify`, which throws when it has no key for the signer. -/
def Crypto.verify {M : Type} (cr : Crypto M) (sig : Signature) (hash : Hash) (id : ProcId) :
    Except Error Bool :=
  if id ∈ cr.publicKeys then .ok (cr.verifyWith sig hash id) else .error (.missingPublicKey id)

/-! ### Certificates -/

/-- `Certificate::Share`. -/
structure CertificateShare where
  emitter : ProcId
  signature : Signature
  deriving DecidableEq, Repr

/-- A certificate, its fields read from the buffer that holds it.  `nbShares` is the header's
count; `shares` are the shares the buffer has room for, `nbShares` of them unless the count is
so large that its size in bytes wraps around. -/
structure Certificate (M : Type) where
  identifier : Identifier
  index : Index
  nbShares : Nat
  shares : List CertificateShare
  message : M
  deriving DecidableEq, Repr

namespace Certificate

/-- The constructor from a list of signatures. -/
def of {M : Type} (identifier : Identifier) (index : Index) (signatures : List CertificateShare)
    (message : M) : Certificate M :=
  ⟨identifier, index, signatures.length, signatures, message⟩

/-- `sizeof(Layout)` without shares: the identifier, the index and the number of shares. -/
def headerSize : Nat := 24

/-- A four-byte emitter and a 64-byte signature. -/
def shareSize : Nat := 68

/-- `bufferSize`, on `size_t`. -/
def bufferSize (msgSize nbShares : Nat) : Nat :=
  (headerSize + nbShares * shareSize + msgSize) % 2 ^ 64

/-- The shares of the layout, `n` of them. -/
def readShares : Bytes → Nat → List CertificateShare
  | _, 0 => []
  | bs, n + 1 =>
    if bs.length < shareSize then []
    else ⟨ofLe (bs.take 4), (bs.drop 4).take 64⟩ :: readShares (bs.drop shareSize) n

/-- `Certificate::tryFrom`; `none` is its `std::invalid_argument`. -/
def tryFrom (buffer : Bytes) : Option (Certificate Bytes) :=
  if buffer.length < headerSize then none
  else
    let nbShares := ofLe ((buffer.drop 16).take 8)
    if buffer.length < bufferSize 0 nbShares then none
    else some
      { identifier := ofLe (buffer.take 8)
        index := ofLe ((buffer.drop 8).take 8)
        nbShares := nbShares
        shares := readShares (buffer.drop headerSize) nbShares
        message := buffer.drop (bufferSize 0 nbShares) }

/-- The bytes the constructor writes. -/
def buffer (c : Certificate Bytes) : Bytes :=
  le 8 c.identifier ++ le 8 c.index ++ le 8 c.nbShares ++
    c.shares.flatMap (fun s => le 4 s.emitter ++ s.signature) ++ c.message

end Certificate

end Certifier

open Certifier

/-! ### The state -/

/-- `internal::ShareMessage`. -/
structure Certifier.Share where
  msgIndex : Index
  signature : Signature
  deriving DecidableEq, Repr

/-- `Certifier::MessageData`.  `receivedShares` are the shares found valid, by rank; `promised`
the ranks that promised. -/
structure Certifier.MessageData (M : Type) where
  message : M
  receivedShares : OrdMap Nat Share := .empty
  promised : List Nat := []

/-- `Certifier`, with the workers' queues and what it sent. -/
structure Certifier (M : Type) where
  tail : Nat
  identifier : Identifier
  /-- The peers' ids, by rank. -/
  receivers : List ProcId
  runFastPath : Bool := true
  runSlowPath : Bool := false
  msgTail : TailMap (MessageData M) := ⟨tail, .empty, 0⟩
  bufferedPromises : Nat → List Index := fun _ => []
  bufferedShares : Nat → List Share := fun _ => []
  nextPromise : Index := 0
  nextCertificate : Index := 0
  queuedShareComputations : List (Index × M) := []
  /-- `share_computation_task_queue`, handed to the thread pool. -/
  shareComputations : List (Index × M) := []
  computedShares : List Share := []
  sortedComputedShares : TailMap (Option Share) := ⟨tail, .empty, 0⟩
  /-- `check_share_task_queues`, by rank: shares and the hash to check them against. -/
  checkShareTasks : Nat → List (Share × Hash) := fun _ => []
  /-- The checks a worker has taken out of its queue. -/
  runningChecks : List (Nat × Share × Hash) := []
  verifiedShares : List (Nat × Share × Bool) := []
  myShares : List Share := []

namespace Certifier

variable {M : Type}

/-- The id of the replica of a rank. -/
def source (cr : Crypto M) (s : Certifier M) (replica : Nat) : ProcId :=
  s.receivers.getD replica cr.myId

/-- The number of shares of a certificate. -/
def quorum (s : Certifier M) : Nat := (s.receivers.length + 1) / 2 + 1

/-- `hash`: what a share signs. -/
def hashOf (cr : Crypto M) (s : Certifier M) (index : Index) (message : M) : Hash :=
  cr.blake3 s.identifier index message

/-! ### Acknowledging -/

/-- `MessageData::receivedPromise`. -/
def MessageData.receivedPromise (d : MessageData M) (replica : Nat) : MessageData M × Bool :=
  if replica ∈ d.promised then (d, false) else ({ d with promised := replica :: d.promised }, true)

/-- `MessageData::receivedShare`. -/
def MessageData.receivedShare (d : MessageData M) (replica : Nat) (share : Share) :
    MessageData M × Bool :=
  match d.receivedShares.find? replica with
  | some _ => (d, false)
  | none => ({ d with receivedShares := d.receivedShares.insert replica share }, true)

/-- Drops the oldest task of a queue that grows beyond `tail`. -/
def enqueue {α : Type} (tail : Nat) (queue : List α) (a : α) : List α :=
  (if tail < queue.length + 1 then queue.drop 1 else queue) ++ [a]

/-- `enqueueShareVerification`, for a share whose message is in the tail. -/
def enqueueShareVerification (cr : Crypto M) (s : Certifier M) (share : Share) (replica : Nat) :
    Certifier M :=
  match s.msgTail.find? share.msgIndex with
  | none => s
  | some d =>
    { s with
      checkShareTasks := Function.update s.checkShareTasks replica
        (enqueue s.tail (s.checkShareTasks replica) (share, hashOf cr s share.msgIndex d.message)) }

/-- Replays the promise buffered from `replica` for `index`. -/
def replayPromise (index : Index) (s : Certifier M) (replica : Nat) : Except Error (Certifier M) :=
  match (s.bufferedPromises replica).dropWhile (fun i => decide (i < index)) with
  | [] => .ok { s with bufferedPromises := Function.update s.bufferedPromises replica [] }
  | i :: is =>
    if i ≠ index then
      .ok { s with bufferedPromises := Function.update s.bufferedPromises replica (i :: is) }
    else
      match s.msgTail.find? index with
      | none => .ok s
      | some d =>
        let (d, first) := d.receivedPromise replica
        if first then
          .ok { s with
            bufferedPromises := Function.update s.bufferedPromises replica is
            msgTail := s.msgTail.modify index (fun _ => d) }
        else .error (.promisedTwice replica)

/-- Replays the share buffered from `replica` for `index`. -/
def replayShare (cr : Crypto M) (index : Index) (s : Certifier M) (replica : Nat) : Certifier M :=
  match (s.bufferedShares replica).dropWhile (fun sh => decide (sh.msgIndex < index)) with
  | [] => { s with bufferedShares := Function.update s.bufferedShares replica [] }
  | sh :: shs =>
    if sh.msgIndex ≠ index then
      { s with bufferedShares := Function.update s.bufferedShares replica (sh :: shs) }
    else
      enqueueShareVerification cr
        { s with bufferedShares := Function.update s.bufferedShares replica shs } sh replica

/-- The promises buffered for the message, replica after replica. -/
def replayPromises (index : Index) (s : Certifier M) : List Nat → Except Error (Certifier M)
  | [] => .ok s
  | r :: rs => do replayPromises index (← replayPromise index s r) rs

/-- Queues the computation of the replica's own share, after dropping what became useless. -/
def queueShareComputation (s : Certifier M) (index : Index) (message : M) : Certifier M :=
  { s with
    computedShares := s.computedShares.drop (s.computedShares.length + 1 - s.tail)
    queuedShareComputations :=
      (if s.tail < s.queuedShareComputations.length + 1 then s.queuedShareComputations.drop 1
        else s.queuedShareComputations) ++ [(index, message)] }

/-- `replayBufferedPromises`. -/
def replayBufferedPromises (index : Index) (s : Certifier M) : Except Error (Certifier M) :=
  if s.runFastPath then replayPromises index s (List.range s.receivers.length) else .ok s

/-- `replayBufferedShares`. -/
def replayBufferedShares (cr : Crypto M) (index : Index) (s : Certifier M) : Certifier M :=
  (List.range s.receivers.length).foldl (replayShare cr index) s

/-- `acknowledge`: the message enters the tail. -/
def acknowledge (cr : Crypto M) (s : Certifier M) (index : Index) (message : M) :
    Except Error (Certifier M) :=
  match s.msgTail.tryEmplaceWord index ⟨message, .empty, []⟩ with
  | .error _ | .ok (_, false) => .error .outOfOrder
  | .ok (msgTail, true) => do
    let s ← replayBufferedPromises index { s with msgTail }
    return queueShareComputation (replayBufferedShares cr index s) index message

/-- `receivedImplicitPromise`. -/
def receivedImplicitPromise (s : Certifier M) (sender : ProcId) (index : Index) :
    Except Error (Certifier M) :=
  match s.msgTail.find? index with
  | none => .ok s
  | some _ =>
    match s.receivers.idxOf? sender with
    | none => .error (.replicaNotFound sender)
    | some r => .ok { s with msgTail := s.msgTail.modify index (fun d => (d.receivedPromise r).1) }

/-! ### Polling -/

/-- `MessageData::pollablePromise`: every replica promised. -/
def MessageData.pollablePromise (s : Certifier M) (d : MessageData M) : Bool :=
  d.promised.length = s.receivers.length

/-- `MessageData::pollableCertificate`: there is a quorum of shares. -/
def MessageData.pollableCertificate (s : Certifier M) (d : MessageData M) : Bool :=
  s.quorum ≤ d.receivedShares.size

/-- `buildCertificate`: the first quorum of shares, in rank order. -/
def buildCertificate (cr : Crypto M) (s : Certifier M) (index : Index) (d : MessageData M) :
    Certificate M :=
  .of s.identifier index
    ((d.receivedShares.entries.take s.quorum).map fun e => ⟨s.source cr e.1, e.2.signature⟩)
    d.message

/-- `pollPromise`.  Indices have 64 bits, so that the cursor is back at 0 after the last one. -/
def pollPromise (s : Certifier M) : Certifier M × Option Index :=
  match s.msgTail.first? with
  | none => (s, none)
  | some (first, _) =>
    let next := max s.nextPromise first
    match s.msgTail.find? next with
    | none => ({ s with nextPromise := next }, none)
    | some d =>
      if d.pollablePromise s then ({ s with nextPromise := (next + 1) % 2 ^ 64 }, some next)
      else ({ s with nextPromise := next }, none)

/-- `pollCertificate`, with a cursor of 64 bits as well. -/
def pollCertificate (cr : Crypto M) (s : Certifier M) : Certifier M × Option (Certificate M) :=
  match s.msgTail.first? with
  | none => (s, none)
  | some (first, _) =>
    let next := max s.nextCertificate first
    match s.msgTail.find? next with
    | none => ({ s with nextCertificate := next }, none)
    | some d =>
      if d.pollableCertificate s then
        ({ s with nextCertificate := (next + 1) % 2 ^ 64 }, some (buildCertificate cr s next d))
      else ({ s with nextCertificate := next }, none)

/-- Drops the messages up to `index`, all of them without an index. -/
def forgetMessages (s : Certifier M) : Option Index → Certifier M
  | none => { s with msgTail := { s.msgTail with map := .empty } }
  | some i => { s with msgTail := s.msgTail.popBelow (i + 1) }

/-! ### Checking -/

/-- `MessageData::signatureVerified`: the first share of a replica of that id decides. -/
def MessageData.signatureVerified (cr : Crypto M) (s : Certifier M) (d : MessageData M)
    (id : ProcId) (sig : Signature) : Bool :=
  match d.receivedShares.entries.find? (fun e => s.source cr e.1 = id) with
  | none => false
  | some e => sig = e.2.signature

/-- `signatureVerified`: the share was received or computed, so that it is not checked again. -/
def signatureVerified (cr : Crypto M) (s : Certifier M) (index : Index) (id : ProcId)
    (sig : Signature) : Bool :=
  match s.msgTail.find? index with
  | none => false
  | some d => d.signatureVerified cr s id sig

/-- The loop of `check` over the shares; `cached` answers for `signatureVerified`. -/
def checkShares (cr : Crypto M) (cached : ProcId → Signature → Bool) (hash : Hash) :
    List CertificateShare → Except Error Bool
  | [] => .ok true
  | sh :: shs =>
    if cached sh.emitter sh.signature then checkShares cr cached hash shs
    else
      match cr.verify sh.signature hash sh.emitter with
      | .error e => .error e
      | .ok false => .ok false
      | .ok true => checkShares cr cached hash shs

/-- The tests of `check` that look at no signature. -/
def WellShared (s : Certifier M) (c : Certificate M) : Prop :=
  c.identifier = s.identifier ∧ c.nbShares = s.quorum ∧ (c.shares.map (·.emitter)).Nodup

instance (s : Certifier M) (c : Certificate M) : Decidable (s.WellShared c) :=
  inferInstanceAs (Decidable (_ ∧ _ ∧ _))

/-- `check`, given what tells the shares that are verified already. -/
def checkWith (cr : Crypto M) (cached : ProcId → Signature → Bool) (s : Certifier M)
    (c : Certificate M) : Except Error Bool :=
  if s.WellShared c then checkShares cr cached (hashOf cr s c.index c.message) c.shares
  else .ok false

/-- `Certifier::check`. -/
def check (cr : Crypto M) (s : Certifier M) (c : Certificate M) : Except Error Bool :=
  checkWith cr (signatureVerified cr s c.index) s c

/-- `Certifier::check`, were `signatureVerified` to answer false always. -/
def plainCheck (cr : Crypto M) (s : Certifier M) (c : Certificate M) : Except Error Bool :=
  checkWith cr (fun _ _ => false) s c

/-! ### Promises and shares from the peers -/

/-- `handlePromise`: recorded, or buffered while the message is not acknowledged. -/
def handlePromise (s : Certifier M) (index : Index) (replica : Nat) :
    Except Error (Certifier M) :=
  match s.msgTail.find? index with
  | some d =>
    let (d, first) := d.receivedPromise replica
    if first then .ok { s with msgTail := s.msgTail.modify index (fun _ => d) }
    else .error (.promisedTwice replica)
  | none =>
    let promises := s.bufferedPromises replica
    if (promises.getLast?.map (fun i => decide (index ≤ i))).getD false then
      .error (.promisesOutOfOrder replica)
    else
      .ok { s with
        bufferedPromises :=
          Function.update s.bufferedPromises replica (enqueue s.tail promises index) }

/-- `handleShare`: verified by a worker, or buffered while the message is not acknowledged. -/
def handleShare (cr : Crypto M) (s : Certifier M) (share : Share) (replica : Nat) :
    Except Error (Certifier M) :=
  match s.msgTail.find? share.msgIndex with
  | some _ => .ok (enqueueShareVerification cr s share replica)
  | none =>
    let shares := s.bufferedShares replica
    if (shares.getLast?.map (fun sh => decide (share.msgIndex ≤ sh.msgIndex))).getD false then
      .error (.sharesOutOfOrder replica)
    else
      .ok { s with
        bufferedShares := Function.update s.bufferedShares replica (enqueue s.tail shares share) }

/-- A worker takes the oldest check of a rank. -/
def startCheck (s : Certifier M) (replica : Nat) : Certifier M :=
  match s.checkShareTasks replica with
  | [] => s
  | (sh, h) :: ts =>
    { s with
      checkShareTasks := Function.update s.checkShareTasks replica ts
      runningChecks := s.runningChecks ++ [(replica, sh, h)] }

/-- A worker ends its `k`-th running check.  A missing key throws inside the task, which then
never reports. -/
def finishCheck (cr : Crypto M) (s : Certifier M) (k : Nat) : Certifier M :=
  match s.runningChecks[k]? with
  | none => s
  | some (replica, sh, h) =>
    let s := { s with runningChecks := s.runningChecks.eraseIdx k }
    match cr.verify sh.signature h (s.source cr replica) with
    | .error _ => s
    | .ok valid => { s with verifiedShares := s.verifiedShares ++ [(replica, sh, valid)] }

/-- What `pollShareVerification` does with a share that a worker verified. -/
def handleVerifiedShare (s : Certifier M) (replica : Nat) (share : Share) (valid : Bool) :
    Except Error (Certifier M) :=
  if ¬valid then .error (.invalidShare share.msgIndex replica)
  else
    match s.msgTail.find? share.msgIndex with
    | none => .ok s
    | some d =>
      let (d, first) := d.receivedShare replica share
      if first then .ok { s with msgTail := s.msgTail.modify share.msgIndex (fun _ => d) }
      else .error (.shareTwice replica)

/-- One round of `pollVerifiedShares`: the queue first, then the replica's own shares. -/
def pollVerifiedShare (s : Certifier M) : Except Error (Certifier M) :=
  match s.verifiedShares with
  | (r, sh, valid) :: rest => handleVerifiedShare { s with verifiedShares := rest } r sh valid
  | [] =>
    match s.myShares with
    | sh :: rest => handleVerifiedShare { s with myShares := rest } s.receivers.length sh true
    | [] => .ok s

/-! ### The replica's own shares -/

/-- The loop of `offloadShareComputation`. -/
def offload (s : Certifier M) : List (Index × M) → Except Error (Certifier M)
  | [] => .ok { s with queuedShareComputations := [] }
  | (i, m) :: rest =>
    match s.sortedComputedShares.tryEmplaceWord i none with
    | .error _ => .error .outOfOrder
    | .ok (sorted, _) =>
      offload
        { s with
          sortedComputedShares := sorted
          shareComputations := enqueue s.tail s.shareComputations (i, m) } rest

/-- `offloadShareComputation`: the queued computations go to the workers. -/
def offloadShareComputation (s : Certifier M) : Except Error (Certifier M) :=
  s.offload s.queuedShareComputations

/-- A worker signs the `k`-th message handed to the pool. -/
def computeShare (cr : Crypto M) (s : Certifier M) (k : Nat) : Certifier M :=
  match s.shareComputations[k]? with
  | none => s
  | some (i, m) =>
    { s with
      shareComputations := s.shareComputations.eraseIdx k
      computedShares := s.computedShares ++ [⟨i, cr.sign (hashOf cr s i m)⟩] }

/-- The shares sent by one call of `pollComputedShares`, in order and without a gap, and what is
left of the sorted shares; `first` is the first index of the tail. -/
def sendable (first : Index) : List (Index × Option Share) → List Share
  | [] => []
  | (i, share) :: rest =>
    if i < first then sendable first rest
    else
      match share with
      | none => []
      | some sh => sh :: sendable first rest

/-- One past the last index that `sendComputedShares` removes, and 0 if it removes none. -/
def sendableEnd (first : Index) : List (Index × Option Share) → Index
  | [] => 0
  | (i, share) :: rest =>
    if i < first then max (i + 1) (sendableEnd first rest)
    else
      match share with
      | none => i
      | some _ => max (i + 1) (sendableEnd first rest)

/-- `pollComputedShares`: the shares computed are sorted, and those that can be are sent. -/
def pollComputedShares (s : Certifier M) : Certifier M :=
  let sorted := s.computedShares.foldl
    (fun t sh => t.modify sh.msgIndex (fun _ => some sh)) s.sortedComputedShares
  let s := { s with computedShares := [], sortedComputedShares := sorted }
  match s.msgTail.first? with
  | none => s
  | some (first, _) =>
    { s with
      sortedComputedShares := sorted.popBelow (sendableEnd first sorted.map.entries)
      myShares := s.myShares ++ sendable first sorted.map.entries }

/-! ### The machine -/

/-- What is called of the certifier, and what its workers do. -/
inductive Op (M : Type) where
  | acknowledge (index : Index) (message : M)
  | receivedImplicitPromise (sender : ProcId) (index : Index)
  | pollPromise
  | pollCertificate
  | forgetMessages (index : Option Index)
  | toggleFastPath (enable : Bool)
  | toggleSlowPath (enable : Bool)
  | handlePromise (index : Index) (replica : Nat)
  | handleShare (share : Share) (replica : Nat)
  | startCheck (replica : Nat)
  | finishCheck (k : Nat)
  | pollVerifiedShare
  | offloadShareComputation
  | computeShare (k : Nat)
  | pollComputedShares

/-- One step. -/
def apply (cr : Crypto M) (s : Certifier M) : Op M → Except Error (Certifier M)
  | .acknowledge i m => s.acknowledge cr i m
  | .receivedImplicitPromise p i => s.receivedImplicitPromise p i
  | .pollPromise => .ok s.pollPromise.1
  | .pollCertificate => .ok (s.pollCertificate cr).1
  | .forgetMessages i => .ok (s.forgetMessages i)
  | .toggleFastPath b => .ok { s with runFastPath := b }
  | .toggleSlowPath b => .ok { s with runSlowPath := b }
  | .handlePromise i r => if r < s.receivers.length then s.handlePromise i r else .ok s
  | .handleShare sh r => if r < s.receivers.length then s.handleShare cr sh r else .ok s
  | .startCheck r => .ok (s.startCheck r)
  | .finishCheck k => .ok (s.finishCheck cr k)
  | .pollVerifiedShare => s.pollVerifiedShare
  | .offloadShareComputation => s.offloadShareComputation
  | .computeShare k => .ok (s.computeShare cr k)
  | .pollComputedShares => .ok s.pollComputedShares

/-- A certifier as its constructor leaves it. -/
def Init (s : Certifier M) : Prop :=
  ∃ tail identifier receivers, s = { tail, identifier, receivers }

/-- The step relation of the certifier. -/
def Step (cr : Crypto M) (s : Certifier M) (op : Op M) (s' : Certifier M) : Prop :=
  s.apply cr op = .ok s'

end Certifier

end Ubft
