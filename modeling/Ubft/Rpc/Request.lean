import Ubft.Requests.Encoding
import Ubft.TailP2p.AsyncSender

/-!
# Rpc — requests

`rpc/internal/request.hpp`: a buffer that is cast to a request, with or without a signature after
its payload.  A field is what memory holds at its address, and the signature is at the address that
the size leads to.  Sizes and addresses are computed on 64 bits; addresses are offsets from the
first byte of the buffer.

The size that `tryFrom` compares does not wrap, as it would be less than a header
(`Request.tryFrom_eq_ok`).  What is accepted is then an encoding, and a signed request is a request
followed by a signature (`signed_codec`).
-/

namespace Ubft.Rpc

open Requests (ClientRequest)
open TailP2p (Buffer SendError)

/-- `Crypto::Signature`. -/
@[ext] structure Signature where
  bytes : Bytes
  length_bytes : bytes.length = 64
  deriving DecidableEq

theorem length_zeros : (List.replicate 64 (0 : UInt8)).length = 64 := List.length_replicate ..

/-- What `tryFrom` returns for a buffer that it refuses. -/
inductive InvalidArgument where
  /-- "Buffer too small for a Request!" -/
  | tooSmallForRequest
  /-- "Buffer too small for a SignedRequest!" -/
  | tooSmallForSignedRequest
  /-- "Buffer size does not match: {} vs {}." -/
  | sizeMismatch (actual expected : Nat)
  deriving DecidableEq, Repr

/-- `internal::Request`.  It can be any buffer: `split` does not check the one it returns. -/
structure Request where
  rawBuffer : Buffer

namespace Request

/-- The buffer of a request with `requestSize` bytes. -/
def bufferSize (requestSize : Nat) : Nat := Server.Request.bufferSize requestSize

variable (r : Request)

/-- The first field of the header. -/
@[irreducible] def clientId : Nat := ofLe (Mem.load r.rawBuffer.bytes 0 4)

/-- The second field of the header. -/
@[irreducible] def id : Nat := ofLe (Mem.load r.rawBuffer.bytes 8 8)

/-- The third field of the header. -/
@[irreducible] def size : Nat := ofLe (Mem.load r.rawBuffer.bytes 16 8)

/-- Where the payload begins. -/
def payload : Nat := Server.Request.headerSize

/-- `end`. -/
def endAt : Nat := (payload + r.size) % 2 ^ 64

/-- The payload, as long as the header says. -/
def stringView : Bytes := Mem.load r.rawBuffer.bytes payload r.size

/-- A request is read from a buffer of exactly the size its header tells. -/
def tryFrom (buffer : Buffer) : Except InvalidArgument Request :=
  if buffer.size < bufferSize 0 then .error .tooSmallForRequest
  else if buffer.size ≠ bufferSize (size ⟨buffer⟩) then
    .error (.sizeMismatch buffer.size (bufferSize (size ⟨buffer⟩)))
  else .ok ⟨buffer⟩

/-- What is read of it. -/
def read : ClientRequest where
  clientId := r.clientId
  id := r.id
  payload := r.stringView
  clientId_lt := by
    have h := ofLe_lt (Mem.load r.rawBuffer.bytes 0 4)
    rwa [Mem.length_load, ← Request.clientId] at h
  id_lt := by
    have h := ofLe_lt (Mem.load r.rawBuffer.bytes 8 8)
    rwa [Mem.length_load, ← Request.id] at h

end Request

/-- A request with its signature behind it. -/
structure SignedRequest extends Request

namespace SignedRequest

/-- The signature takes 64 bytes more. -/
def bufferSize (requestSize : Nat) : Nat := (Request.bufferSize requestSize + 64) % 2 ^ 64

/-- The same for a signed request. -/
def tryFrom (buffer : Buffer) : Except InvalidArgument SignedRequest :=
  if buffer.size < bufferSize 0 then .error .tooSmallForSignedRequest
  else if buffer.size ≠ bufferSize (Request.size ⟨buffer⟩) then
    .error (.sizeMismatch buffer.size (bufferSize (Request.size ⟨buffer⟩)))
  else .ok ⟨⟨buffer⟩⟩

variable (s : SignedRequest)

/-- The 64 bytes behind the request. -/
def signature : Signature := ⟨Mem.load s.rawBuffer.bytes s.endAt 64, Mem.length_load ..⟩

/-- The buffer is resized in place. -/
def split : Except SendError (Request × Signature) := do
  let sig := s.signature
  let req ← s.rawBuffer.resize (Request.bufferSize s.size)
  return (⟨req⟩, sig)

end SignedRequest

/-! ### Writing signed requests -/

/-- The size of the slot asked for a request and its signature, a `tail_p2p::Size`. -/
def signedSlotSize (rawReq : Bytes) : UInt32 := UInt32.ofNat (rawReq.length + 64)

/-- What `Client::pollSignatures` writes in a slot. -/
def Client.writeSigned (m : Nat → UInt8) (slot : Nat) (rawReq : Bytes) (sig : Signature) :
    Nat → UInt8 :=
  Mem.store (Mem.store m slot rawReq) (slot + rawReq.length) sig.bytes

/-- What `Server::echoToFollower` writes in a slot: it copies the request twice. -/
def writeEchoed (m : Nat → UInt8) (slot : Nat) (rawReq : Bytes) (sig : Signature) : Nat → UInt8 :=
  Mem.store (Mem.store (Mem.store m slot rawReq) slot rawReq) (slot + rawReq.length) sig.bytes

/-- A signed request is the request and its signature. -/
theorem load_writeSigned (m : Nat → UInt8) (slot : Nat) (rawReq : Bytes) (sig : Signature) :
    Mem.load (Client.writeSigned m slot rawReq sig) slot (rawReq.length + 64) =
      rawReq ++ sig.bytes := by
  have hreq : Mem.load (Client.writeSigned m slot rawReq sig) slot rawReq.length = rawReq := by
    rw [Client.writeSigned, Mem.load_store_of_apart _ (.inl (Nat.le_refl _)), Mem.load_store_self]
  have hsig : Mem.load (Client.writeSigned m slot rawReq sig) (slot + rawReq.length) 64 =
      sig.bytes := by
    rw [← sig.length_bytes]
    exact Mem.load_store_self ..
  rw [Mem.load_add, hreq, hsig]

theorem load_writeEchoed (m : Nat → UInt8) (slot : Nat) (rawReq : Bytes) (sig : Signature) :
    Mem.load (writeEchoed m slot rawReq sig) slot (rawReq.length + 64) = rawReq ++ sig.bytes :=
  load_writeSigned (Mem.store m slot rawReq) slot rawReq sig

/-! ### What is accepted -/

/-- A size that is not less than what it adds to did not wrap. -/
theorem eq_add_of_mod {n k size : Nat} (hk : k ≤ n) (hn : n = (k + size) % 2 ^ 64)
    (hs : size < 2 ^ 64) : n = k + size := by
  omega

namespace Request

variable {b : Buffer} {r : Request}

theorem size_lt (r : Request) : r.size < 2 ^ 64 := by
  have h := ofLe_lt (Mem.load r.rawBuffer.bytes 16 8)
  rwa [Mem.length_load, ← size] at h

theorem length_stringView (r : Request) : r.stringView.length = r.size := Mem.length_load ..

/-- The copy that is read has the same header. -/
theorem size_read (r : Request) : r.read.size = r.size := by
  rw [ClientRequest.size, read, length_stringView]

/-- **A request is accepted** when its buffer is as large as its size says, without wrapping. -/
theorem tryFrom_eq_ok : tryFrom b = .ok r ↔ r = ⟨b⟩ ∧ b.size = payload + r.size := by
  have hb := b.size_le.trans_lt b.maxSize_lt
  have hzero : bufferSize 0 = 24 := rfl
  have hsize : ∀ n, bufferSize n = (24 + n) % 2 ^ 64 := fun _ => rfl
  constructor
  · intro h
    unfold tryFrom at h
    split at h
    · cases h
    · next hlong =>
        split at h
        · cases h
        · next heq =>
            cases h
            have hlong : payload ≤ b.size := Nat.not_lt.mp hlong
            exact ⟨rfl, eq_add_of_mod hlong (not_not.mp heq) (size_lt _)⟩
  · rintro ⟨rfl, h⟩
    have hs := hsize (size ⟨b⟩)
    rw [payload, Server.Request.headerSize] at h
    unfold tryFrom
    rw [if_neg (by omega), if_neg (by omega)]

/-- The end of the payload is the end of the buffer. -/
theorem endAt_eq (h : b.size = payload + r.size) : r.endAt = b.size := by
  have hb := b.size_le.trans_lt b.maxSize_lt
  rw [endAt, ← h]
  exact Nat.mod_eq_of_lt (by omega)

/-- A request, as memory holds it. -/
theorem load_eq_encode (r : Request) :
    Mem.load r.rawBuffer.bytes 0 (payload + r.size) =
      Requests.encode r.read (Mem.load r.rawBuffer.bytes 4 4) := by
  have hfield : ∀ a n, le n (ofLe (Mem.load r.rawBuffer.bytes a n)) =
      Mem.load r.rawBuffer.bytes a n := fun a n => by
    have h := le_ofLe (Mem.load r.rawBuffer.bytes a n)
    rwa [Mem.length_load] at h
  have hhead : Mem.load r.rawBuffer.bytes 0 payload =
      Mem.load r.rawBuffer.bytes 0 4 ++ Mem.load r.rawBuffer.bytes 4 4 ++
        Mem.load r.rawBuffer.bytes 8 8 ++ Mem.load r.rawBuffer.bytes 16 8 := by
    rw [← Mem.load_add _ 0 4 4, ← Mem.load_add _ 0 8 8, ← Mem.load_add _ 0 16 8]
    rfl
  rw [Mem.load_add, hhead, Requests.encode, size_read]
  simp only [read, clientId, id, size, stringView, hfield, Nat.zero_add]

end Request

namespace SignedRequest

variable {b : Buffer} {s : SignedRequest} {r : Request} {sig : Signature}

/-- **A signed request is accepted** when its buffer has room for what its size says and a
signature, and for nothing else. -/
theorem tryFrom_eq_ok :
    tryFrom b = .ok s ↔ s = ⟨⟨b⟩⟩ ∧ b.size = Request.payload + s.size + 64 := by
  have hb := b.size_le.trans_lt b.maxSize_lt
  have hsize : ∀ n, bufferSize n = ((24 + n) % 2 ^ 64 + 64) % 2 ^ 64 := fun _ => rfl
  have hmod : ∀ n, bufferSize n = (88 + n) % 2 ^ 64 := fun n => by rw [hsize]; omega
  have hpay : Request.payload = 24 := rfl
  rw [hpay]
  constructor
  · intro h
    unfold tryFrom at h
    split at h
    · cases h
    · next hlong =>
        split at h
        · cases h
        · next heq =>
            cases h
            rw [hmod] at hlong heq
            have hlong : 88 ≤ b.size := Nat.not_lt.mp hlong
            refine ⟨rfl, (eq_add_of_mod hlong (not_not.mp heq) (Request.size_lt _)).trans ?_⟩
            exact Nat.add_right_comm 24 64 _
  · rintro ⟨rfl, h⟩
    have h : b.size = 24 + Request.size ⟨b⟩ + 64 := h
    unfold tryFrom
    rw [if_neg (by rw [hmod]; omega), if_neg (by rw [hmod]; omega)]

/-- **Splitting** what was accepted: the request is accepted, and what was received is the request
followed by the signature. -/
theorem split_eq (h : tryFrom b = .ok s) :
    ∃ r, s.split = .ok (r, s.signature) ∧ Request.tryFrom r.rawBuffer = .ok r ∧
      r.rawBuffer.bytes = b.bytes ∧ r.rawBuffer.size = Request.payload + s.size ∧
      b.data = r.rawBuffer.data ++ s.signature.bytes := by
  obtain ⟨rfl, h⟩ := tryFrom_eq_ok.mp h
  have hsize : b.size = Request.payload + Request.size ⟨b⟩ + 64 := h
  have hb := b.size_le.trans_lt b.maxSize_lt
  have hreq : Request.bufferSize (Request.size ⟨b⟩) = Request.payload + Request.size ⟨b⟩ :=
    Nat.mod_eq_of_lt (show Request.payload + Request.size ⟨b⟩ < 2 ^ 64 by omega)
  have hle : ¬ b.maxSize < Request.payload + Request.size ⟨b⟩ := by
    have := b.size_le
    omega
  have hend : Request.endAt ⟨b⟩ = Request.payload + Request.size ⟨b⟩ :=
    Nat.mod_eq_of_lt (by omega)
  let req : Buffer := { b with
    size := Request.payload + Request.size ⟨b⟩
    size_le := Nat.not_lt.mp hle }
  have hkept : Request.size ⟨req⟩ = Request.size ⟨b⟩ := by rw [Request.size, Request.size]
  refine ⟨⟨req⟩, ?_, Request.tryFrom_eq_ok.mpr ⟨rfl, by rw [hkept]⟩, rfl, rfl, ?_⟩
  · simp only [split, hreq, Buffer.resize, dif_neg hle]
    rfl
  · change Mem.load b.bytes 0 b.size = Mem.load b.bytes 0 _ ++ Mem.load b.bytes _ 64
    rw [hsize, Mem.load_add, hend, Nat.zero_add]

/-- **A request followed by a signature** is accepted, and they are what it splits in. -/
theorem tryFrom_append (hr : Request.tryFrom r.rawBuffer = .ok r)
    (hb : b.data = r.rawBuffer.data ++ sig.bytes) :
    ∃ s r', tryFrom b = .ok s ∧ s.split = .ok (r', sig) ∧ r'.rawBuffer.data = r.rawBuffer.data ∧
      Request.tryFrom r'.rawBuffer = .ok r' := by
  obtain ⟨-, hrsize⟩ := Request.tryFrom_eq_ok.mp hr
  have hlen : b.size = r.rawBuffer.size + 64 := by
    have h := congrArg List.length hb
    rwa [List.length_append, sig.length_bytes, Buffer.data, Buffer.data, Mem.length_load,
      Mem.length_load] at h
  -- the size is among the bytes of the request
  have hsize : Request.size ⟨b⟩ = r.size := by
    rw [Buffer.data, Buffer.data, hlen, Mem.load_add] at hb
    obtain ⟨hdata, -⟩ := List.append_inj hb (by rw [Mem.length_load, Mem.length_load])
    have hroom : 16 + 8 ≤ r.rawBuffer.size := by
      rw [hrsize]
      exact Nat.le_add_right 24 _
    have hfield : Mem.load b.bytes (0 + 16) 8 = Mem.load r.rawBuffer.bytes (0 + 16) 8 :=
      Mem.load_part hdata hroom
    rw [Nat.zero_add] at hfield
    rw [Request.size, Request.size, hfield]
  have hs : tryFrom b = .ok ⟨⟨b⟩⟩ := tryFrom_eq_ok.mpr ⟨rfl, by rw [hsize, ← hrsize, hlen]⟩
  obtain ⟨r', hsplit, hr', hbytes, hrsize', hdata⟩ := split_eq hs
  obtain ⟨hreq, hsig⟩ := List.append_inj' (hdata.symm.trans hb)
    (by rw [sig.length_bytes, Signature.length_bytes])
  have hsig : signature ⟨⟨b⟩⟩ = sig := Signature.ext hsig
  exact ⟨_, r', hs, hsig ▸ hsplit, hreq, hr'⟩

end SignedRequest

/-! ### The codec -/

/-- **The codec is exact.**  A request followed by a signature, as a client or a leader writes them,
is accepted and split in the two.  A signed request that is accepted has its payload and its
signature in its buffer, is the encoding of what is read of it, and is split in an accepted request
and the signature.  A request that is accepted has its payload in its buffer and is the encoding of
what is read of it. -/
theorem signed_codec :
    (∀ (r : Request) (sig : Signature) (m : Nat → UInt8) (slot : Nat) (b : Buffer),
      Request.tryFrom r.rawBuffer = .ok r →
      b.data = Mem.load (Client.writeSigned m slot r.rawBuffer.data sig) slot
          (r.rawBuffer.data.length + 64) ∨
        b.data = Mem.load (writeEchoed m slot r.rawBuffer.data sig) slot
          (r.rawBuffer.data.length + 64) →
      (signedSlotSize r.rawBuffer.data).toNat = b.size % 2 ^ 32 ∧
        ∃ s r', SignedRequest.tryFrom b = .ok s ∧ s.split = .ok (r', sig) ∧
          r'.rawBuffer.data = r.rawBuffer.data ∧ Request.tryFrom r'.rawBuffer = .ok r') ∧
    (∀ (b : Buffer) (s : SignedRequest), SignedRequest.tryFrom b = .ok s →
      s.rawBuffer = b ∧ s.endAt = Request.payload + s.size ∧ s.endAt + 64 = b.size ∧
        (∃ padding : Bytes, padding.length = 4 ∧
          b.data = Requests.encode s.read padding ++ s.signature.bytes) ∧
        ∃ r, s.split = .ok (r, s.signature) ∧ Request.tryFrom r.rawBuffer = .ok r ∧
          b.data = r.rawBuffer.data ++ s.signature.bytes) ∧
    ∀ (b : Buffer) (r : Request), Request.tryFrom b = .ok r →
      r.rawBuffer = b ∧ r.endAt = Request.payload + r.size ∧ r.endAt = b.size ∧
        ∃ padding : Bytes, padding.length = 4 ∧ b.data = Requests.encode r.read padding := by
  refine ⟨fun r sig m slot b hr hb => ?_, fun b s hs => ?_, fun b r hr => ?_⟩
  · have hb : b.data = r.rawBuffer.data ++ sig.bytes := by
      rcases hb with hb | hb
      · rw [hb, load_writeSigned]
      · rw [hb, load_writeEchoed]
    refine ⟨?_, SignedRequest.tryFrom_append hr hb⟩
    have hlen := congrArg List.length hb
    rw [Buffer.data, Mem.length_load, List.length_append, sig.length_bytes] at hlen
    rw [signedSlotSize, UInt32.toNat_ofNat', hlen]
  · obtain ⟨r, hsplit, hr, hbytes, -, hdata⟩ := SignedRequest.split_eq hs
    obtain ⟨rfl, hsize⟩ := SignedRequest.tryFrom_eq_ok.mp hs
    have hb := b.size_le.trans_lt b.maxSize_lt
    have hend : Request.endAt ⟨b⟩ = Request.payload + Request.size ⟨b⟩ :=
      Nat.mod_eq_of_lt (show Request.payload + Request.size ⟨b⟩ < 2 ^ 64 by
        change b.size = Request.payload + Request.size ⟨b⟩ + 64 at hsize
        omega)
    refine ⟨rfl, hend, (congrArg (· + 64) hend).trans hsize.symm,
      ⟨Mem.load b.bytes 4 4, Mem.length_load .., ?_⟩, r, hsplit, hr, hdata⟩
    have hsig : (SignedRequest.signature ⟨⟨b⟩⟩).bytes =
        Mem.load b.bytes (Request.payload + Request.size ⟨b⟩) 64 := by
      rw [← hend]
      rfl
    rw [← Request.load_eq_encode, Buffer.data, hsize, Mem.load_add, Nat.zero_add, hsig]
  · obtain ⟨rfl, hsize⟩ := Request.tryFrom_eq_ok.mp hr
    have hend : Request.endAt ⟨b⟩ = b.size := Request.endAt_eq hsize
    refine ⟨rfl, hend.trans hsize, hend, Mem.load b.bytes 4 4, Mem.length_load .., ?_⟩
    rw [Buffer.data, hsize]
    exact Request.load_eq_encode ⟨b⟩

namespace Request.Example

/-- A buffer that holds just these bytes. -/
def buffer (bs : Bytes) (h : bs.length < 2 ^ 63) : Buffer :=
  ⟨bs.length, Mem.store (fun _ => 0) 0 bs, bs.length, Nat.le_refl _, h⟩

/-- Request 5 of client 3, of two bytes. -/
def request : Request :=
  ⟨buffer (le 4 3 ++ [0, 0, 0, 0] ++ le 8 5 ++ le 8 2 ++ [10, 20]) (by decide)⟩

/-- A signature of sevens. -/
def signature : Signature := ⟨List.replicate 64 7, List.length_replicate ..⟩

end Request.Example

/-- The client signs it, and the server splits what it receives. -/
theorem signed_codec_request :
    Request.tryFrom Request.Example.request.rawBuffer = .ok Request.Example.request ∧
      ∃ b s r', SignedRequest.tryFrom b = .ok s ∧
        s.split = .ok (r', Request.Example.signature) ∧
        r'.rawBuffer.data = Request.Example.request.rawBuffer.data := by
  have hr : Request.tryFrom Request.Example.request.rawBuffer = .ok Request.Example.request :=
    Request.tryFrom_eq_ok.mpr ⟨rfl, by decide +kernel⟩
  let raw := Request.Example.request.rawBuffer.data
  let built := Mem.load (Client.writeSigned (fun _ => 0) 0 raw Request.Example.signature) 0
    (raw.length + 64)
  have hlen : built.length < 2 ^ 63 := by decide +kernel
  have hdata : (Request.Example.buffer built hlen).data = built := Mem.load_store_self ..
  obtain ⟨-, s, r', hs, hsplit, hraw, -⟩ := signed_codec.1 Request.Example.request
    Request.Example.signature (fun _ => 0) 0 (Request.Example.buffer built hlen) hr (.inl hdata)
  exact ⟨hr, _, s, r', hs, hsplit, hraw⟩

end Ubft.Rpc
