import Ubft.Server.Batch
import Ubft.Store.VectorTailMap

/-!
# Requests — those of a client

`SingleClientRequests` of `consensus/internal/requests.hpp`: the requests of a client in a ring of
`window` ids, and the bound from which on one is refused.

The buffer a request takes from the pool goes back to it when the request is not inserted, and the
pool has one more than the ring holds.
-/

namespace Ubft.Requests

open Server (Request)

/-- What is thrown; the loops that a `none` stands for are in the log. -/
inductive Error where
  /-- "Resize tried to reallocate beyond the initial size." -/
  | resize
  /-- What `tryEmplace` throws. -/
  | emplace (message : String)
  /-- `at` of a vector without the index. -/
  | outOfRange (clientId : Nat)
  /-- Nothing is thrown: an empty optional is dereferenced. -/
  | noClient (clientId : Nat)
  /-- A vector grows beyond the memory. -/
  | outOfMemory
  deriving DecidableEq, Repr

/-- `SingleClientRequests`.  Its pool has larger buffers than the requests it holds, and no object
is larger than half the address space. -/
structure SingleClientRequests where
  window : Nat
  maxRequestSize : Nat
  requests : VectorTailMap Bytes
  acceptBelow : Option Nat := none
  size_lt : maxRequestSize < 2 ^ 63
  stored : ∀ id buffer, requests.find? id = some buffer → buffer.length ≤ maxRequestSize

namespace SingleClientRequests

/-- The constructor. -/
def start (window maxRequestSize : Nat) (h : maxRequestSize < 2 ^ 63) : SingleClientRequests where
  window := window
  maxRequestSize := maxRequestSize
  requests := { tail := window }
  size_lt := h
  stored _ _ h := nomatch h

/-- `accept_below = bound`. -/
def setAcceptBelow (s : SingleClientRequests) (bound : Nat) : SingleClientRequests :=
  { s with acceptBelow := some (bound % 2 ^ 64) }

/-- What is stored after a request of the right size is emplaced. -/
theorem stored_tryEmplace (s : SingleClientRequests) {id : Nat} {buffer : Bytes}
    (h : buffer.length ≤ s.maxRequestSize) {requests : VectorTailMap Bytes} {inserted : Bool}
    (he : s.requests.tryEmplace id buffer = .ok (requests, inserted)) (k : Nat) (v : Bytes)
    (hv : requests.find? k = some v) : v.length ≤ s.maxRequestSize := by
  rcases VectorTailMap.find?_of_tryEmplace he hv with rfl | hv
  · exact h
  · exact s.stored k v hv

/-- `tryEmplace`, of a buffer that the pool can hold. -/
def emplace (s : SingleClientRequests) (id : Nat) (buffer : Bytes)
    (h : buffer.length ≤ s.maxRequestSize) : SingleClientRequests × Except Error Bool :=
  match he : s.requests.tryEmplace id buffer with
  | .error e => (s, .error (.emplace e))
  | .ok (requests, inserted) =>
    ({ s with
      requests
      stored := s.stored_tryEmplace h he }, .ok inserted)

/-- `addRequest`; what it changed before it throws stays changed. -/
def addRequest (s : SingleClientRequests) (id : Nat) (request : Bytes) :
    SingleClientRequests × Except Error Bool :=
  if ∃ bound ∈ s.acceptBelow, bound ≤ id then (s, .ok false)
  else if h : request.length ≤ s.maxRequestSize then
    (s.setAcceptBelow (id + s.window)).emplace id request h
  else (s.setAcceptBelow (id + s.window), .error .resize)

/-- `isValid`: `std::equal` compares the sizes first. -/
def isValid (s : SingleClientRequests) (r : Request) : Bool :=
  (s.requests.find? r.id).any fun buffer => buffer.length = r.size ∧ buffer = r.payload

/-- `decided`. -/
def decided (s : SingleClientRequests) (r : Request) : SingleClientRequests :=
  s.setAcceptBelow (r.id + s.window + 1)

/-! ### What `addRequest` answers -/

variable {s : SingleClientRequests} {id : Nat} {request : Bytes}

/-- What emplacing a request changes: the ring. -/
theorem emplace_of_ok (h : request.length ≤ s.maxRequestSize) {requests : VectorTailMap Bytes}
    {inserted : Bool} (he : s.requests.tryEmplace id request = .ok (requests, inserted)) :
    (s.emplace id request h).2 = .ok inserted ∧
      (s.emplace id request h).1.window = s.window ∧
      (s.emplace id request h).1.acceptBelow = s.acceptBelow ∧
      (s.emplace id request h).1.requests = requests := by
  unfold emplace
  split
  · next e he' =>
      rw [he] at he'
      cases he'
  · next requests' inserted' he' =>
      rw [he] at he'
      cases he'
      exact ⟨rfl, rfl, rfl, rfl⟩

/-- From the bound on a request is refused. -/
theorem addRequest_refused (request : Bytes) (hb : ∃ bound ∈ s.acceptBelow, bound ≤ id) :
    s.addRequest id request = (s, .ok false) :=
  if_pos hb

/-- A request within the bound is stored, if it is of its size. -/
theorem addRequest_emplace (hb : ¬ ∃ bound ∈ s.acceptBelow, bound ≤ id)
    (h : request.length ≤ s.maxRequestSize) :
    s.addRequest id request = (s.setAcceptBelow (id + s.window)).emplace id request h :=
  (if_neg hb).trans (dif_pos h)

/-- A longer one opens the window all the same. -/
theorem addRequest_resize (hb : ¬ ∃ bound ∈ s.acceptBelow, bound ≤ id)
    (h : ¬ request.length ≤ s.maxRequestSize) :
    s.addRequest id request = (s.setAcceptBelow (id + s.window), .error .resize) :=
  (if_neg hb).trans (dif_neg h)

end SingleClientRequests

end Ubft.Requests
