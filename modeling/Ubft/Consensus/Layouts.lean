import Ubft.Certifier.Certificates
import Ubft.Consensus.SerializedState

/-!
# Consensus — layouts

The bytes of the messages replicas CB-broadcast: `tail-cb/message.hpp`, and
`consensus/internal/messages.hpp`.  A CB message is a buffer that starts with the index given by
the broadcaster; what follows starts with the kind of the message.  `tryFrom` looks at sizes and
at the kind only, and each kind reads its fields at fixed offsets; the structures of the source
that are not packed have padding, which is never read.

`decode` makes of the bytes the `Message` the handlers take.
-/

namespace Ubft.Consensus

open Certifier (Certificate CertificateShare)

/-! ### CB messages -/

namespace TailCb

/-- `sizeof(Header)`. -/
def headerSize : Nat := 8

/-- `tail_cb::Message`: a buffer with room for the header. -/
structure Message where
  rawBuffer : Bytes
  header_le : headerSize ≤ rawBuffer.length

namespace Message

/-- `tryFrom`: the header is in the buffer. -/
def tryFrom (buffer : Bytes) : Option Message :=
  if h : headerSize ≤ buffer.length then some ⟨buffer, h⟩ else none

/-- `index`. -/
def index (m : Message) : Nat := field m.rawBuffer 0 8

/-- `data`: what follows the header. -/
def data (m : Message) : Bytes := m.rawBuffer.drop headerSize

/-- `size`. -/
def size (m : Message) : Nat := m.rawBuffer.length - headerSize

/-- What the broadcaster sends, and returns for itself. -/
def ofData (index : Nat) (data : Bytes) : Message :=
  ⟨le 8 index ++ data, by rw [List.length_append, length_le]; exact Nat.le_add_right _ _⟩

@[simp] theorem data_ofData (index : Nat) (data : Bytes) : (ofData index data).data = data :=
  List.drop_left' (length_le 8 index)

@[simp] theorem size_ofData (index : Nat) (data : Bytes) :
    (ofData index data).size = data.length := by
  rw [size, ofData, List.length_append, length_le]
  exact Nat.add_sub_cancel_left _ _

end Message

end TailCb

/-! ### Kinds -/

/-- `MessageKind`. -/
inductive MessageKind where
  | prepare | commit | checkpoint | sealView | viewChange | newView
  deriving DecidableEq, Repr

/-- The byte of a kind. -/
def MessageKind.toByte : MessageKind → UInt8
  | .prepare => 1
  | .commit => 2
  | .checkpoint => 3
  | .sealView => 4
  | .viewChange => 5
  | .newView => 6

/-- The kind of a byte, if it is that of one. -/
def MessageKind.ofByte (b : UInt8) : Option MessageKind :=
  [prepare, commit, checkpoint, sealView, viewChange, newView].find? fun k => k.toByte = b

@[simp] theorem MessageKind.ofByte_toByte (k : MessageKind) : ofByte k.toByte = some k := by
  cases k <;> rfl

/-- What the messages' sizes depend on. -/
structure Sizes where
  window : Nat
  maxProposalSize : Nat
  quorum : Nat

/-! ### Sizes -/

/-- `offsetof(PrepareMessage::Layout, data_addr)`; the view is at 8 and the instance at 16. -/
def PrepareMessage.dataOffset : Nat := 24

/-- `PrepareMessage::bufferSize`. -/
def PrepareMessage.bufferSize (proposalSize : Nat) : Nat := dataOffset + proposalSize

/-- `offsetof(CertificateMessage::Layout, certificate_addr)`. -/
def certificateOffset : Nat := 1

/-- `CommitMessage::bufferSize`. -/
def commitBufferSize (proposalSize nbShares : Nat) : Nat :=
  certificateOffset + Certificate.bufferSize proposalSize nbShares

/-- `sizeof(Checkpoint)`: two instances and a digest of 32 bytes. -/
def Checkpoint.byteSize : Nat := 48

/-- `CheckpointMessage::bufferSize`. -/
def checkpointBufferSize (nbShares : Nat) : Nat :=
  certificateOffset + Certificate.bufferSize Checkpoint.byteSize nbShares

/-- `SealViewMessage::BufferSize`. -/
def sealViewBufferSize : Nat := 1

namespace NewViewMessage

/-- `offsetof(Layout, vc_certificates)`; the view is at 8. -/
def vcCertificatesOffset : Nat := 16

/-- `offsetof(VcCertificateEntry, certificate)`; the size is at 8. -/
def certificateOffset : Nat := 16

/-- The bytes of an entry. -/
def entrySize (sz : Sizes) : Nat :=
  certificateOffset +
    Certificate.bufferSize (SerializedState.bufferSize sz.window sz.maxProposalSize) sz.quorum

/-- `bufferSize`, with room for `nbCertificates` entries, on `size_t`. -/
def bufferSize (sz : Sizes) (nbCertificates : Nat) : Nat :=
  (vcCertificatesOffset + nbCertificates * entrySize sz) % 2 ^ 64

/-- `cloneCertificateBuffer`. -/
def cloneCertificateBuffer (sz : Sizes) (data : Bytes) (index : Nat) : ProcId × Bytes :=
  (field data (bufferSize sz index) 4,
    Layout.read data (bufferSize sz index + certificateOffset)
      (field data (bufferSize sz index + 8) 8))

end NewViewMessage

/-! ### The variant -/

/-- `Message::Variant`, the CB message still in bytes. -/
inductive Variant where
  | prepare (m : TailCb.Message)
  | commit (m : TailCb.Message)
  | checkpoint (m : TailCb.Message)
  | sealView (m : TailCb.Message)
  | newView (m : TailCb.Message)

/-- The `tryFrom` of a kind; a ViewChange is never CB-broadcast. -/
def Variant.tryFromKind (sz : Sizes) (m : TailCb.Message) : MessageKind → Option Variant
  | .prepare => if m.size < PrepareMessage.bufferSize 0 then none else some (.prepare m)
  | .commit => if m.size < commitBufferSize 0 sz.quorum then none else some (.commit m)
  | .checkpoint => if m.size = checkpointBufferSize sz.quorum then some (.checkpoint m) else none
  | .sealView => if m.size = sealViewBufferSize then some (.sealView m) else none
  | .viewChange => none
  | .newView => if m.size = NewViewMessage.bufferSize sz sz.quorum then some (.newView m) else none

/-- `Message::tryFrom`; `none` is its `std::invalid_argument`. -/
def Variant.tryFrom (sz : Sizes) (m : TailCb.Message) : Option Variant :=
  match m.data with
  | [] => none
  | kind :: _ => (MessageKind.ofByte kind).bind (tryFromKind sz m)

/-- The first byte tells the kind. -/
theorem Variant.tryFrom_ofData (sz : Sizes) (cbIndex : Nat) (kind : MessageKind) (bytes : Bytes) :
    tryFrom sz (.ofData cbIndex (kind.toByte :: bytes)) =
      tryFromKind sz (.ofData cbIndex (kind.toByte :: bytes)) kind := by
  rw [tryFrom, TailCb.Message.data_ofData]
  simp only [MessageKind.ofByte_toByte, Option.bind_some]

/-- `tryIntoCertificate`, with the sizes expected when there are any. -/
def tryIntoCertificate (m : TailCb.Message) (expected : Option (Nat × Nat)) :
    Option (Certificate Bytes) :=
  let buffer := m.rawBuffer.drop (TailCb.headerSize + certificateOffset)
  match expected with
  | none => Certificate.tryFrom buffer
  | some (size, quorum) =>
    if buffer.length ≠ Certificate.bufferSize size quorum then none else Certificate.tryFrom buffer

/-! ### What the handlers take -/

/-- A certificate, its message read as what it is the bytes of. -/
def mapMessage {M N : Type} (f : M → N) (c : Certificate M) : Certificate N :=
  ⟨c.identifier, c.index, c.nbShares, c.shares, f c.message⟩

/-- The checkpoint of a certificate. -/
def Checkpoint.ofBytes (b : Bytes) : Checkpoint :=
  ⟨field b 0 8, field b 8 8, Layout.read b 16 32⟩

/-- What `handlePrepare` reads. -/
def PrepareMessage.ofBytes (data : Bytes) : PrepareMessage :=
  ⟨field data 8 8, field data 16 8, data.drop dataOffset⟩

/-- The entries of a NewView, as `isByzantine` and `validValues` read them. -/
def NewViewMessage.ofBytes (sz : Sizes) (data : Bytes) : NewViewMessage where
  view := field data 8 8
  vcCertificates := (List.range sz.quorum).map fun i =>
    let e := cloneCertificateBuffer sz data i
    ⟨e.1, (Certificate.tryFrom e.2).map (mapMessage SerializedState.parse)⟩

/-- What the handler of a kind takes. -/
def Variant.decode (sz : Sizes) : Variant → Message
  | .prepare m => .prepare (.ofBytes m.data)
  | .commit m => .commit (tryIntoCertificate m none)
  | .checkpoint m =>
    .checkpoint ((tryIntoCertificate m (some (Checkpoint.byteSize, sz.quorum))).map
      (mapMessage Checkpoint.ofBytes))
  | .sealView _ => .sealView
  | .newView m => .newView (.ofBytes sz m.data)

/-- The message a CB message is. -/
def decode (sz : Sizes) (m : TailCb.Message) : Message :=
  ((Variant.tryFrom sz m).map (Variant.decode sz)).getD .malformed

/-! ### Commits and checkpoints -/

/-- What `pollPrepareCertificates` and `broadcastCheckpointCertificate` write: the kind, then the
bytes of the certificate. -/
def certificateData (kind : MessageKind) (c : Certificate Bytes) : Bytes := kind.toByte :: c.buffer

section Certificates

variable {sz : Sizes} {c : Certificate Bytes} {cbIndex : Nat}

/-- Behind the kind comes the certificate. -/
theorem drop_certificateData (kind : MessageKind) (c : Certificate Bytes) (cbIndex : Nat) :
    (TailCb.Message.ofData cbIndex (certificateData kind c)).rawBuffer.drop
      (TailCb.headerSize + certificateOffset) = c.buffer := by
  have hdata : (TailCb.Message.ofData cbIndex (certificateData kind c)).rawBuffer.drop
      TailCb.headerSize = certificateData kind c := TailCb.Message.data_ofData _ _
  rw [← List.drop_drop, hdata]
  rfl

/-- The size of a certificate that is in memory. -/
theorem bufferSize_eq (h : c.Encodable) :
    Certificate.bufferSize c.message.length c.nbShares = c.buffer.length := by
  have hlen := Certificate.length_buffer h.signatures
  have hsize := h.size
  rw [Certificate.bufferSize, h.nbShares, ← hlen, Nat.mod_eq_of_lt hsize]

/-- A Commit is parsed as one. -/
theorem tryFrom_commit (h : c.Encodable) (hq : c.nbShares = sz.quorum) :
    Variant.tryFrom sz (.ofData cbIndex (certificateData .commit c)) =
      some (.commit (.ofData cbIndex (certificateData .commit c))) := by
  have hlen := Certificate.length_buffer h.signatures
  have hsize := h.size
  rw [certificateData, Variant.tryFrom_ofData, Variant.tryFromKind, if_neg]
  rw [TailCb.Message.size_ofData, List.length_cons, commitBufferSize, Certificate.bufferSize, ← hq,
    h.nbShares, Nat.mod_eq_of_lt (by rw [hlen] at hsize; omega), hlen, certificateOffset]
  omega

/-- A Checkpoint is parsed as one. -/
theorem tryFrom_checkpoint (h : c.Encodable) (hq : c.nbShares = sz.quorum)
    (hm : c.message.length = Checkpoint.byteSize) :
    Variant.tryFrom sz (.ofData cbIndex (certificateData .checkpoint c)) =
      some (.checkpoint (.ofData cbIndex (certificateData .checkpoint c))) := by
  rw [certificateData, Variant.tryFrom_ofData, Variant.tryFromKind, if_pos]
  rw [TailCb.Message.size_ofData, List.length_cons, checkpointBufferSize, ← hm, ← hq,
    bufferSize_eq h, certificateOffset, Nat.add_comm]

/-- The certificate of a Commit is read back. -/
theorem tryIntoCertificate_commit (h : c.Encodable) (kind : MessageKind) :
    tryIntoCertificate (.ofData cbIndex (certificateData kind c)) none = some c := by
  rw [tryIntoCertificate, drop_certificateData]
  exact Certificate.tryFrom_buffer h

/-- The certificate of a Checkpoint is read back. -/
theorem tryIntoCertificate_checkpoint (h : c.Encodable) (hq : c.nbShares = sz.quorum)
    (hm : c.message.length = Checkpoint.byteSize) (kind : MessageKind) :
    tryIntoCertificate (.ofData cbIndex (certificateData kind c))
      (some (Checkpoint.byteSize, sz.quorum)) = some c := by
  have hsize : c.buffer.length = Certificate.bufferSize Checkpoint.byteSize sz.quorum := by
    rw [← hm, ← hq, bufferSize_eq h]
  rw [tryIntoCertificate, drop_certificateData]
  simp only [hsize, ne_eq, not_true_eq_false, if_false]
  exact Certificate.tryFrom_buffer h

/-- **Certificates convince.**  A certificate that a replica polls, sent as a Commit or, when it is
about a checkpoint, as a Checkpoint, is what another replica recovers; and `check` accepts it at
every replica of the group, whatever is in that replica's own certifier. -/
theorem certificate_convinces {g : Certifier.Member Bytes} (hg : g.Genuine)
    (hn : (g.receivers ++ [g.crypto.myId]).Nodup)
    (hids : ∀ id ∈ g.receivers ++ [g.crypto.myId], id < 2 ^ 32) (hid : g.identifier < 2 ^ 64)
    (hq : sz.quorum = (g.receivers.length + 1) / 2 + 1) {s : Certifier Bytes}
    (hr : Reachable g.Init (Certifier.Step g.crypto) g.Acknowledging s)
    (hc : (s.pollCertificate g.crypto).2 = some c) (hi : c.index < 2 ^ 64)
    (hs : c.buffer.length < 2 ^ 64) (cbIndex : Nat) :
    (∃ m, Variant.tryFrom sz (.ofData cbIndex (certificateData .commit c)) = some (.commit m) ∧
      tryIntoCertificate m none = some c) ∧
    (c.message.length = Checkpoint.byteSize →
      ∃ m, Variant.tryFrom sz (.ofData cbIndex (certificateData .checkpoint c)) =
          some (.checkpoint m) ∧
        tryIntoCertificate m (some (Checkpoint.byteSize, sz.quorum)) = some c) ∧
    ∀ (cr' : Certifier.Crypto Bytes) (s' : Certifier Bytes), Certifier.SameScheme g.crypto cr' →
      s'.identifier = g.identifier → s'.receivers.length = g.receivers.length →
        s'.check cr' c = .ok true := by
  have hb := Certifier.built_of_poll hn (Certifier.Member.sound_of_reachable hg hr) hc
  have he := Certifier.encodable_of_built hb hid hids hi hs
  have hquorum : c.nbShares = sz.quorum := by rw [hb.nbShares, hb.quorum, hq]
  refine ⟨⟨_, tryFrom_commit he hquorum, tryIntoCertificate_commit he .commit⟩, fun hm => ?_,
    fun cr' s' hcr hi hr => Certifier.check_of_built hb hcr hi hr⟩
  exact ⟨_, tryFrom_checkpoint he hquorum hm, tryIntoCertificate_checkpoint he hquorum hm _⟩

end Certificates

/-! ### A group of three -/

namespace Layouts.Example

/-- The signature of a replica: the start of the hash, and its id. -/
def signature (id : ProcId) (hash : Hash) : Bytes :=
  (hash ++ List.replicate 63 0).take 63 ++ [UInt8.ofNat id]

/-- Signatures of the examples, of any replica. -/
def crypto (id : ProcId) : Certifier.Crypto Bytes where
  myId := id
  publicKeys := [0, 1, 2, id]
  own := by simp
  blake3 identifier index message := le 8 identifier ++ le 8 index ++ message
  verifyWith sig hash id := sig = signature id hash
  sign := signature id

/-- A replica with two others, that certify one byte. -/
def member : Certifier.Member Bytes where
  crypto := crypto 0
  identifier := 5
  receivers := [1, 2]
  message _ := [7]

theorem genuine : member.Genuine where
  verifies h := decide_eq_true rfl
  length h := by
    change ((h ++ List.replicate 63 0).take 63 ++ [UInt8.ofNat 0]).length = 64
    rw [List.length_append, List.length_take, List.length_append, List.length_replicate]
    simp

/-- A share of the first peer arrives, and the replica computes its own. -/
def ops : List (Certifier.Op Bytes) :=
  [.acknowledge 3 [7], .handleShare ⟨3, signature 1 (member.hash 3)⟩ 0, .startCheck 0,
    .finishCheck 0, .offloadShareComputation, .computeShare 0, .pollComputedShares,
    .pollVerifiedShare, .pollVerifiedShare]

/-- The certificate of the message acknowledged. -/
def certificate : Certificate Bytes :=
  .of 5 3 [⟨1, signature 1 (member.hash 3)⟩, ⟨0, signature 0 (member.hash 3)⟩] [7]

/-- The peer that acknowledged nothing recovers the certificate and is convinced. -/
theorem convinced : (∃ m, Variant.tryFrom ⟨4, 8, 2⟩ (.ofData 0 (certificateData .commit
      certificate)) = some (.commit m) ∧ tryIntoCertificate m none = some certificate) ∧
    Certifier.check (crypto 2) { tail := 4, identifier := 5, receivers := [0, 1] } certificate =
      .ok true := by
  have hrun : ∃ s, Reachable member.Init (Certifier.Step (crypto 0)) member.Acknowledging s ∧
      decide ((s.pollCertificate (crypto 0)).2 = some certificate) = true :=
    exists_reachable { tail := 4, identifier := 5, receivers := [1, 2] } ⟨4, rfl⟩ ops
      (by decide +kernel)
  obtain ⟨s, hs, hsee⟩ := hrun
  have hq : (⟨4, 8, 2⟩ : Sizes).quorum = (member.receivers.length + 1) / 2 + 1 := rfl
  have h := certificate_convinces genuine (by decide) (by decide) (by decide) hq hs
    (of_decide_eq_true hsee) (by decide) (by decide +kernel) 0
  exact ⟨h.1, h.2.2 (crypto 2) _ ⟨rfl, rfl, by decide⟩ rfl rfl⟩

end Layouts.Example

end Ubft.Consensus
