import Ubft.Broadcast.Receiver
import Ubft.Store.Tail
import Ubft.ThreadPool.Handles

/-!
# Broadcast — the broadcaster

`tail-cb/broadcaster.hpp`: `broadcast` sends a message under the next index and keeps a copy of it;
`tick` hands the copies to the thread pool, whose workers sign them, and sends the signatures that
are back.  The workers and the thread of the broadcaster interleave; each of them does one thing on
what they share at a time.

`computed_signatures` is a queue for each worker that enqueued, and `try_dequeue` looks at them one
after the other: what is enqueued behind its back is found the next time.

A pool never fails to give a buffer (`AllowDelayedBufferAlloc`), but allocates one when it has none.
-/

namespace Ubft.Broadcast

open ThreadPool (KeyedPriorityQueue LockingThreadPool Worker)

variable {P : Type}

/-- `ComputedSignature`, which also brings back a buffer. -/
structure ComputedSignature where
  index : Nat
  signature : Signature
  deriving DecidableEq

/-- Where the thread of the broadcaster is in `tick`. -/
inductive Phase where
  | idle
  /-- The loop of `offloadSignatureComputation`. -/
  | offloading
  /-- `try_dequeue` did not find the queues of some workers empty yet. -/
  | polling (unseen : List Nat)
  deriving DecidableEq, Repr

/-- `messages` is what `message_senders` send, `signatures` what `signature_senders` send; `held`
are the messages that `broadcast` returned and that are not destroyed.  The pools count the buffers
they allocated: those that nothing holds are free. -/
structure Broadcaster (P : Type) where
  tail : Nat
  maxMsgSize : Nat
  nextIndex : Nat := 0
  slowPathOn : Bool := false
  messages : List Bytes := []
  signatures : List ComputedSignature := []
  held : Nat := 0
  messageBufferPool : Nat
  bufferPool : Nat
  queuedSignatureComputations : TailQueue (Nat × Bytes)
  computedSignatures : List (List ComputedSignature)
  threadPool : LockingThreadPool (Nat × Bytes) P
  taskQueue : Nat
  phase : Phase := .idle

namespace Broadcaster

/-- What the broadcaster throws, and what a thread cannot do now. -/
inductive Error where
  /-- Nothing is thrown: the thread is elsewhere, or waits. -/
  | blocked
  /-- "Resize tried to reallocate beyond the initial size." -/
  | resize
  | threadPool (e : LockingThreadPool.Error)
  deriving DecidableEq, Repr

/-- What the main thread does, a loop of `tick` turn by turn, and what the workers do. -/
inductive Input where
  | broadcast (data : Bytes)
  /-- A message that `broadcast` returned is destroyed. -/
  | release
  | toggleSlowPath (enable : Bool)
  | tick
  /-- The next computation is enqueued, or there is none. -/
  | offload
  /-- `try_dequeue` takes a signature from the queue of a worker. -/
  | dequeue (worker : Nat)
  /-- `try_dequeue` finds the queue of a worker empty. -/
  | miss (worker : Nat)
  /-- `try_dequeue` fails. -/
  | polled
  /-- A worker is done with a computation. -/
  | sign (worker : Nat)
  /-- Anything else that happens in the thread pool. -/
  | threadPool (op : LockingThreadPool.Op (Nat × Bytes))

/-- `Message::BufferLayout`. -/
def encode (index : Nat) (data : Bytes) : Bytes := le 8 index ++ data

/-- The buffers of `buffer_pool` that something holds. -/
def live (s : Broadcaster P) : Nat :=
  s.queuedSignatureComputations.items.length + (s.threadPool.queueOf s.taskQueue).length +
    (s.threadPool.runningTasks s.taskQueue).length + s.computedSignatures.flatten.length

variable (cr : Crypto) (sign : Hash → Signature) (Q : KeyedPriorityQueue P)

/-- A pool without a free buffer allocates one. -/
def broadcast (s : Broadcaster P) (data : Bytes) : Except Error (Broadcaster P) :=
  if s.maxMsgSize < data.length then .error .resize
  else
    .ok { s with
      nextIndex := s.nextIndex + 1
      messages := s.messages ++ [encode s.nextIndex data]
      bufferPool := max s.bufferPool (s.live + 1)
      queuedSignatureComputations := s.queuedSignatureComputations.emplaceBack (s.nextIndex, data)
      messageBufferPool := max s.messageBufferPool (s.held + 1)
      held := s.held + 1 }

/-- `shouldRunSlowPath`: the slow path is toggled. -/
def shouldRunSlowPath (s : Broadcaster P) : Bool := s.slowPathOn

/-- `tick` up to the slow path. -/
def tick (s : Broadcaster P) : Broadcaster P :=
  if s.shouldRunSlowPath then { s with phase := .offloading } else s

/-- The queues of all the workers. -/
def producers (s : Broadcaster P) : List Nat := List.range s.computedSignatures.length

/-- A turn of `offloadSignatureComputation`, or its end. -/
def offloadSignatureComputation (s : Broadcaster P) : Except Error (Broadcaster P) :=
  match s.phase, s.queuedSignatureComputations.items with
  | .offloading, computation :: _ =>
    ((s.threadPool.next Q (.enqueue s.taskQueue computation)).mapError .threadPool).map
      fun threadPool =>
        { s with
          threadPool
          queuedSignatureComputations := s.queuedSignatureComputations.popFront }
  | .offloading, [] => .ok { s with phase := .polling s.producers }
  | _, _ => .error .blocked

/-- A signature is not sent that is not required any longer. -/
def sendSignature (s : Broadcaster P) (computed : ComputedSignature) : Broadcaster P :=
  if s.nextIndex - computed.index ≤ s.tail then
    { s with signatures := s.signatures ++ [computed] }
  else s

/-- `try_dequeue` succeeds, and is called again. -/
def dequeue (s : Broadcaster P) (worker : Nat) : Except Error (Broadcaster P) :=
  match s.phase, s.computedSignatures[worker]? with
  | .polling _, some (computed :: rest) =>
    .ok (sendSignature { s with
      computedSignatures := s.computedSignatures.set worker rest
      phase := .polling s.producers } computed)
  | _, _ => .error .blocked

/-- `try_dequeue` on the queue of a worker that is empty. -/
def miss (s : Broadcaster P) (worker : Nat) : Except Error (Broadcaster P) :=
  match s.phase, s.computedSignatures[worker]? with
  | .polling unseen, some [] => .ok { s with phase := .polling (unseen.erase worker) }
  | _, _ => .error .blocked

/-- All the queues were found empty: `pollComputedSignatures` ends. -/
def polled (s : Broadcaster P) : Except Error (Broadcaster P) :=
  if s.phase = .polling [] then .ok { s with phase := .idle } else .error .blocked

/-- The task that `offloadSignatureComputation` enqueues. -/
def signComputation (s : Broadcaster P) (worker : Nat) : Except Error (Broadcaster P) :=
  match s.threadPool.workers[worker]? with
  | some (.running id (index, data)) =>
    if id = s.taskQueue then
      ((s.threadPool.finish worker).mapError .threadPool).map fun threadPool =>
        { s with
          threadPool
          computedSignatures := s.computedSignatures.modify worker
            (· ++ [⟨index, sign (cr.blake3 (encode index data))⟩]) }
    else .error .blocked
  | _ => .error .blocked

/-- What the workers do, and what the thread of the broadcaster does with the other handles.  It
creates them in one step, as `LockingThreadPool.initTaskQueue` is, though the source takes no mutex
for it. -/
def Others (s : Broadcaster P) : LockingThreadPool.Op (Nat × Bytes) → Prop
  | .wake _ => True
  | .finish worker => s.threadPool.workers[worker]?.all
      (fun w => (w.taskOf s.taskQueue).isNone) = true
  | .enqueue id _ | .destroy id => s.phase = .idle ∧ id ≠ s.taskQueue
  | _ => s.phase = .idle

instance (s : Broadcaster P) : DecidablePred s.Others
  | .wake _ => inferInstanceAs (Decidable True)
  | .finish _ => inferInstanceAs (Decidable (_ = _))
  | .enqueue _ _ | .destroy _ => inferInstanceAs (Decidable (_ ∧ _ ≠ _))
  | .initTaskQueue _ | .destroyed | .freeze | .unfreeze | .stop =>
    inferInstanceAs (Decidable (_ = _))

/-- The thread of the broadcaster is neither in `tick` nor in the destructor of another handle. -/
def Free (s : Broadcaster P) : Prop := s.phase = .idle ∧ s.threadPool.waiting = none

instance (s : Broadcaster P) : Decidable s.Free := inferInstanceAs (Decidable (_ ∧ _))

/-- One step, of the main thread or of a worker. -/
def next (s : Broadcaster P) : Input → Except Error (Broadcaster P)
  | .broadcast data => if s.Free then s.broadcast data else .error .blocked
  | .release =>
    if s.Free ∧ 0 < s.held then .ok { s with held := s.held - 1 } else .error .blocked
  | .toggleSlowPath enable =>
    if s.Free then .ok { s with slowPathOn := enable } else .error .blocked
  | .tick => if s.Free then .ok s.tick else .error .blocked
  | .offload => s.offloadSignatureComputation Q
  | .dequeue worker => s.dequeue worker
  | .miss worker => s.miss worker
  | .polled => s.polled
  | .sign worker => s.signComputation cr sign worker
  | .threadPool op =>
    if s.Others op then
      ((s.threadPool.next Q op).mapError .threadPool).map fun threadPool => { s with threadPool }
    else .error .blocked

/-- `TaskQueue::maxOutstanding`. -/
def maxOutstanding (tail : Nat) (threadPool : LockingThreadPool (Nat × Bytes) P) : Nat :=
  tail + threadPool.workers.length

/-- `Broadcaster::Broadcaster`. -/
def create (threadPool : LockingThreadPool (Nat × Bytes) P)
    (borrowedMessages tail maxMsgSize : Nat) : Broadcaster P where
  tail := tail
  maxMsgSize := maxMsgSize
  messageBufferPool := borrowedMessages + tail + 1
  bufferPool := tail + 1 + maxOutstanding tail threadPool
  queuedSignatureComputations := { tail }
  computedSignatures := List.replicate threadPool.workers.length []
  threadPool := threadPool.initTaskQueue Q tail
  taskQueue := threadPool.tasks.queues.length

/-- It is constructed whatever happened in the thread pool. -/
def Init (threads borrowedMessages tail maxMsgSize : Nat) (s : Broadcaster P) : Prop :=
  ∃ threadPool, Reachable (LockingThreadPool.Init Q threads) (LockingThreadPool.Step Q)
    (Always (ι := LockingThreadPool.Op (Nat × Bytes))) threadPool ∧
      threadPool.waiting = none ∧
        s = create Q threadPool borrowedMessages tail maxMsgSize

/-- The step relation of the broadcaster. -/
def Step (s : Broadcaster P) (i : Input) (s' : Broadcaster P) : Prop :=
  s.next cr sign Q i = .ok s'

end Broadcaster

end Ubft.Broadcast
