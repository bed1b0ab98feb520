import Ubft.Consensus.Layouts
import Ubft.Consensus.ValidValues

/-!
# Consensus — the layout of a NewView

`internal/view-change.hpp` writes the certificates of a quorum of replicas in entries of one
size, the size of the largest certificate there can be, and `NewViewMessage` finds them there
again.  Three layouts are nested: the entries of the NewView, a certificate of which the shares
come first, and in its message the state, whose commits have slots of their own.

`buildNewView_roundtrip` says that each of them is read back.
-/

namespace Ubft.Consensus

open Certifier (Certificate)
open Layout

/-- A view-change certificate: a quorum of shares, and the bytes of a state with a window of commits
at most, serialized in some memory. -/
structure VcCertificate (sz : Sizes) where
  certificate : Certificate Bytes
  junk : Nat → UInt8
  view : Nat
  commits : OrdMap Nat BroadcastCommit
  message : certificate.message = SerializedState.serialize junk view commits
  encodable : certificate.Encodable
  nbShares : certificate.nbShares = sz.quorum
  view_lt : view < 2 ^ 64
  size_le : commits.size ≤ sz.window
  /-- A commit map is keyed by instance. -/
  keyed : ∀ e ∈ commits.entries, e.2.inst = e.1
  commit_encodable : ∀ e ∈ commits.entries, e.2.Encodable
  proposal_le : ∀ e ∈ commits.entries, e.2.proposal.length ≤ sz.maxProposalSize

/-- The sizes computed on `size_t` are the sizes. -/
structure Sizes.Fit (sz : Sizes) : Prop where
  certificate : Certificate.headerSize + sz.quorum * Certificate.shareSize +
    SerializedState.bufferSize sz.window sz.maxProposalSize < 2 ^ 64
  newView : NewViewMessage.vcCertificatesOffset + sz.quorum * NewViewMessage.entrySize sz < 2 ^ 64

namespace NewViewMessage

/-- A `VcCertificateEntry` at `off`. -/
def putEntry (b : Bytes) (off : Nat) (e : ProcId × Certificate Bytes) : Bytes :=
  write (write (write b off (le 4 e.1)) (off + 8) (le 8 e.2.buffer.length))
    (off + certificateOffset) e.2.buffer

/-- `ViewChangeState::buildNewView`, in a buffer just allocated. -/
def buildNewView (junk : Nat → UInt8) (sz : Sizes) (view : Nat)
    (certificates : OrdMap ProcId (Certificate Bytes)) : Bytes :=
  fill putEntry (bufferSize sz)
    (write (write (allocate junk (bufferSize sz sz.quorum)) 0 [MessageKind.newView.toByte]) 8
      (le 8 (view + 1)))
    0 certificates.entries

/-- `cloneSerializedState`, when the certificate parses. -/
def cloneSerializedState (sz : Sizes) (data : Bytes) (index : Nat) : Option Bytes :=
  (Certificate.tryFrom (cloneCertificateBuffer sz data index).2).map (·.message)

end NewViewMessage

/-! ### Sizes -/

section Sizes

variable {sz : Sizes}

/-- More commits, or larger ones. -/
theorem bufferSize_mono {n n' m m' : Nat} (hn : n ≤ n') (hm : m ≤ m') :
    SerializedState.bufferSize n m ≤ SerializedState.bufferSize n' m' :=
  Nat.add_le_add_left (Nat.mul_le_mul hn (Nat.add_le_add_left hm _)) _

/-- No proposal is larger than its bound. -/
theorem maxProposal_le {commits : OrdMap Nat BroadcastCommit} {bound : Nat}
    (h : ∀ e ∈ commits.entries, e.2.proposal.length ≤ bound) :
    SerializedState.maxProposal commits ≤ bound := by
  refine SerializedState.maxSize_le fun v hv => ?_
  obtain ⟨e, he, rfl⟩ := List.mem_map.mp hv
  exact h e he

theorem Sizes.Fit.entrySize (h : sz.Fit) : NewViewMessage.entrySize sz =
    NewViewMessage.certificateOffset + (Certificate.headerSize +
      sz.quorum * Certificate.shareSize +
        SerializedState.bufferSize sz.window sz.maxProposalSize) := by
  rw [NewViewMessage.entrySize, Certificate.bufferSize, Nat.mod_eq_of_lt h.certificate]

theorem Sizes.Fit.bufferSize (h : sz.Fit) {i : Nat} (hi : i ≤ sz.quorum) :
    NewViewMessage.bufferSize sz i =
      NewViewMessage.vcCertificatesOffset + i * NewViewMessage.entrySize sz := by
  refine Nat.mod_eq_of_lt (lt_of_le_of_lt ?_ h.newView)
  exact Nat.add_le_add_left (Nat.mul_le_mul_right _ hi) _

namespace VcCertificate

/-- The size of the state. -/
theorem state_le (vc : VcCertificate sz) :
    SerializedState.bufferSize vc.commits.size (SerializedState.maxProposal vc.commits) ≤
      SerializedState.bufferSize sz.window sz.maxProposalSize :=
  bufferSize_mono vc.size_le (maxProposal_le vc.proposal_le)

/-- A certificate fits its entry. -/
theorem length_le_entry (vc : VcCertificate sz) (h : sz.Fit) :
    NewViewMessage.certificateOffset + vc.certificate.buffer.length ≤
      NewViewMessage.entrySize sz := by
  have hstate := vc.state_le
  rw [h.entrySize, Certificate.length_buffer vc.encodable.signatures, ← vc.encodable.nbShares,
    vc.nbShares, vc.message, SerializedState.length_serialize]
  exact Nat.add_le_add_left (Nat.add_le_add_left hstate _) _

/-- The size of a state does not wrap. -/
theorem state_lt (vc : VcCertificate sz) (h : sz.Fit) :
    SerializedState.bufferSize vc.commits.size (SerializedState.maxProposal vc.commits) <
      2 ^ 64 :=
  lt_of_le_of_lt (vc.state_le.trans (Nat.le_add_left _ _)) h.certificate

/-- The state in the certificate is read back. -/
theorem parse_message (vc : VcCertificate sz) (h : sz.Fit) :
    SerializedState.parse vc.certificate.message = .of vc.view vc.commits := by
  rw [vc.message]
  exact SerializedState.parse_serialize vc.junk vc.view_lt (vc.state_lt h) vc.commit_encodable

end VcCertificate

end Sizes

/-! ### The entries -/

namespace NewViewMessage

section Entries

variable {sz : Sizes} {b : Bytes} {off : Nat} {e : ProcId × Certificate Bytes}

/-- An entry is written in its own place. -/
theorem putEntry_within (hfit : off + (certificateOffset + e.2.buffer.length) ≤ b.length) :
    Within off (off + (certificateOffset + e.2.buffer.length)) b (putEntry b off e) := by
  have h₁ := write_le_within off 4 e.1 le_rfl
    (by simp only [certificateOffset]; omega) hfit
  have h₂ := write_le_within (off + 8) 8 e.2.buffer.length (Nat.le_add_right _ _)
    (by simp only [certificateOffset]; omega) (h₁.length ▸ hfit)
  exact (h₁.trans h₂).trans (.write_of_le (Nat.le_add_right _ _) (Nat.add_assoc _ _ _).le
    ((h₁.trans h₂).length ▸ hfit))

/-- What an entry holds where it was put. -/
theorem putEntry_fields (hfit : off + (certificateOffset + e.2.buffer.length) ≤ b.length)
    (hid : e.1 < 2 ^ 32) (hsize : e.2.buffer.length < 2 ^ 64) :
    field (putEntry b off e) off 4 = e.1 ∧
      field (putEntry b off e) (off + 8) 8 = e.2.buffer.length ∧
      Layout.read (putEntry b off e) (off + certificateOffset) e.2.buffer.length =
        e.2.buffer := by
  simp only [certificateOffset] at hfit ⊢
  have hl₁ := length_write_le (b := b) off 4 e.1 (by omega)
  have hl₂ := length_write_le (b := write b off (le 4 e.1)) (off + 8) 8 e.2.buffer.length
    (by omega)
  have hw₂ : Within (off + 8) (off + 8 + 8) (write b off (le 4 e.1)) _ :=
    write_le_within (off + 8) 8 e.2.buffer.length le_rfl le_rfl (by omega)
  have hw₃ : Within (off + 16) _ (write (write b off (le 4 e.1)) (off + 8)
      (le 8 e.2.buffer.length)) (putEntry b off e) := Within.write (by omega)
  refine ⟨?_, ?_, ?_⟩
  · rw [field_within hw₃ (.inl (by omega)), field_within hw₂ (.inl (by omega)), field_write (by omega) hid]
  · rw [field_within hw₃ (.inl (by omega)), field_write (by omega) hsize]
  · rw [putEntry, certificateOffset, read_write (by omega)]

end Entries

/-! ### The buffer -/

section Buffer

variable {sz : Sizes} (junk : Nat → UInt8) (view : Nat)
  (vcs : OrdMap ProcId (VcCertificate sz))

/-- The buffer before the entries are written. -/
def prepared (sz : Sizes) : Bytes :=
  write (write (allocate junk (bufferSize sz sz.quorum)) 0 [MessageKind.newView.toByte]) 8
    (le 8 (view + 1))

/-- Where an entry is. -/
def entryOffset (sz : Sizes) (index : Nat) : Nat := vcCertificatesOffset + index * entrySize sz

/-- A place ends where the next begins. -/
theorem entryOffset_succ (sz : Sizes) (i : Nat) :
    entryOffset sz i + entrySize sz ≤ entryOffset sz (i + 1) := by
  rw [entryOffset, entryOffset, Nat.succ_mul, Nat.add_assoc]

variable {junk view vcs}

theorem length_allocated (junk : Nat → UInt8) (h : sz.Fit) :
    (allocate junk (bufferSize sz sz.quorum)).length = entryOffset sz sz.quorum := by
  rw [length_allocate, h.bufferSize le_rfl, entryOffset]

/-- The header is in front of the entries. -/
theorem prepared_within (h : sz.Fit) : Within 0 vcCertificatesOffset
    (allocate junk (bufferSize sz sz.quorum)) (prepared junk view sz) := by
  have hlen : vcCertificatesOffset ≤ (allocate junk (bufferSize sz sz.quorum)).length := by
    rw [length_allocated junk h]
    exact Nat.le_add_right _ _
  have h₁ : Within 0 vcCertificatesOffset (allocate junk (bufferSize sz sz.quorum))
      (write (allocate junk (bufferSize sz sz.quorum)) 0 [MessageKind.newView.toByte]) :=
    .write_of_le le_rfl (by decide) hlen
  exact h₁.trans (write_le_within 8 8 (view + 1) (Nat.zero_le _) (by decide) (h₁.length ▸ hlen))

/-- The buffer is allocated for a quorum. -/
theorem length_prepared (h : sz.Fit) :
    (prepared junk view sz).length = entryOffset sz sz.quorum := by
  rw [(prepared_within h).length, length_allocated junk h]

/-- The entries are filled in, one after the other. -/
theorem buildNewView_eq (h : sz.Fit) (hq : vcs.size = sz.quorum) :
    buildNewView junk sz view (vcs.map (·.certificate)) =
      fill putEntry (entryOffset sz) (prepared junk view sz) 0
        (vcs.map (·.certificate)).entries := by
  refine fill_congr fun k hk => ?_
  rw [OrdMap.map, List.length_map] at hk
  rw [Nat.zero_add, h.bufferSize (hq ▸ hk.le), entryOffset]

theorem put_within (vcs : OrdMap ProcId (VcCertificate sz)) (h : sz.Fit) {e : ProcId × Certificate Bytes}
    (he : e ∈ (vcs.map (·.certificate)).entries) (b : Bytes) (off : Nat)
    (hfit : off + entrySize sz ≤ b.length) :
    Within off (off + entrySize sz) b (putEntry b off e) := by
  obtain ⟨vc, -, rfl⟩ := List.mem_map.mp he
  have hle : off + (certificateOffset + vc.2.certificate.buffer.length) ≤ off + entrySize sz :=
    Nat.add_le_add_left (vc.2.length_le_entry h) off
  have hw := putEntry_within (e := (vc.1, vc.2.certificate)) (hle.trans hfit)
  exact hw.mono (Nat.le_refl off) hle

/-- The last one ends within the buffer. -/
theorem entries_fit (junk : Nat → UInt8) (view : Nat) (h : sz.Fit) (hq : vcs.size = sz.quorum) :
    entryOffset sz (0 + (vcs.map (·.certificate)).entries.length) ≤
      (prepared junk view sz).length := by
  rw [length_prepared h, OrdMap.map, List.length_map, Nat.zero_add]
  exact (congrArg (entryOffset sz) hq).le

theorem buildNewView_within (h : sz.Fit) (hq : vcs.size = sz.quorum) :
    Within vcCertificatesOffset (entryOffset sz sz.quorum) (prepared junk view sz)
      (buildNewView junk sz view (vcs.map (·.certificate))) := by
  have hw := fill_within (entryOffset_succ sz) (fun _ he => put_within vcs h he)
    (entries_fit junk view h hq)
  have hq' : (vcs.map (·.certificate)).entries.length = sz.quorum := by
    rw [OrdMap.map, List.length_map]; exact hq
  rw [buildNewView_eq h hq]
  rw [hq', Nat.zero_add] at hw
  exact hw.mono (Nat.le_add_right _ _) le_rfl

theorem length_buildNewView (junk : Nat → UInt8) (view : Nat) (h : sz.Fit) (hq : vcs.size = sz.quorum) :
    (buildNewView junk sz view (vcs.map (·.certificate))).length = entryOffset sz sz.quorum := by
  rw [(buildNewView_within h hq).length, length_prepared h]

/-- The first byte is the kind. -/
theorem buildNewView_cons (h : sz.Fit) (hq : vcs.size = sz.quorum) :
    buildNewView junk sz view (vcs.map (·.certificate)) = MessageKind.newView.toByte ::
      (buildNewView junk sz view (vcs.map (·.certificate))).drop 1 := by
  have hlen := length_allocated junk h
  have hmin : vcCertificatesOffset ≤ entryOffset sz sz.quorum := Nat.le_add_right _ _
  simp only [vcCertificatesOffset] at hmin
  have hkind : (buildNewView junk sz view (vcs.map (·.certificate)))[0]? =
      some MessageKind.newView.toByte := by
    rw [(buildNewView_within h hq).outside 0 (.inl (by decide)), prepared, getElem?_write,
      length_le, if_neg (by omega), getElem?_write]
    · rfl
    · rw [hlen, List.length_singleton]; omega
    · rw [length_le, length_write, hlen]
      · omega
      · rw [hlen, List.length_singleton]; omega
  cases hb : buildNewView junk sz view (vcs.map (·.certificate)) with
  | nil => rw [hb] at hkind; cases hkind
  | cons x rest =>
      rw [hb] at hkind
      cases hkind
      rfl

theorem view_buildNewView (h : sz.Fit) (hq : vcs.size = sz.quorum) :
    field (buildNewView junk sz view (vcs.map (·.certificate))) 8 8 = (view + 1) % 2 ^ 64 := by
  have hlen := length_allocated junk h
  have hmin : vcCertificatesOffset ≤ entryOffset sz sz.quorum := Nat.le_add_right _ _
  simp only [vcCertificatesOffset] at hmin
  have hlen' : (write (allocate junk (bufferSize sz sz.quorum)) 0
      [MessageKind.newView.toByte]).length = entryOffset sz sz.quorum := by
    rw [length_write, hlen]
    rw [hlen, List.length_singleton]
    omega
  have hr : Layout.read (prepared junk view sz) 8 (le 8 (view + 1)).length = le 8 (view + 1) :=
    read_write (by rw [length_le, hlen']; omega)
  rw [length_le] at hr
  rw [field_within (buildNewView_within h hq) (.inl (by decide)), field, hr, ofLe_le,
    show 256 ^ 8 = 2 ^ 64 from rfl]

/-- **Entries.**  The certificates are found in the order of the ids. -/
theorem entry_buildNewView (h : sz.Fit) (hq : vcs.size = sz.quorum) {i : Nat}
    {e : ProcId × VcCertificate sz} (hi : vcs.entries[i]? = some e) (hid : e.1 < 2 ^ 32) :
    cloneCertificateBuffer sz (buildNewView junk sz view (vcs.map (·.certificate))) i =
      (e.1, e.2.certificate.buffer) := by
  have hlt : i < sz.quorum := by
    have := (List.getElem?_eq_some_iff.mp hi).choose
    exact hq ▸ this
  have hget : (vcs.map (·.certificate)).entries[i]? = some (e.1, e.2.certificate) := by
    rw [OrdMap.map, List.getElem?_map, hi]
    rfl
  obtain ⟨b, hb, hread⟩ := fill_slot (entryOffset_succ sz)
    (fun _ he => put_within vcs h he) (entries_fit junk view h hq) hget
  rw [Nat.zero_add, ← buildNewView_eq h hq] at hread
  have hle := e.2.length_le_entry h
  have hfit : entryOffset sz i + (certificateOffset + e.2.certificate.buffer.length) ≤
      b.length := by
    rw [hb.length, length_prepared h]
    have hnext := (Nat.add_le_add_left hle _).trans (entryOffset_succ sz i)
    exact hnext.trans (slot_le (entryOffset_succ sz) hlt)
  obtain ⟨hpid, hpsize, hpbytes⟩ := putEntry_fields (e := (e.1, e.2.certificate)) hfit hid
    e.2.encodable.size
  simp only [certificateOffset] at hle hpbytes
  have hrid : field (buildNewView junk sz view (vcs.map (·.certificate))) (entryOffset sz i) 4 =
      e.1 := by
    rw [field, hread _ _ le_rfl (by omega)]
    exact hpid
  have hrsize : field (buildNewView junk sz view (vcs.map (·.certificate)))
      (entryOffset sz i + 8) 8 = e.2.certificate.buffer.length := by
    rw [field, hread _ _ (Nat.le_add_right _ _) (by omega)]
    exact hpsize
  rw [cloneCertificateBuffer, h.bufferSize hlt.le, ← entryOffset, hrid, hrsize,
    hread _ _ (Nat.le_add_right _ _) (by simp only [certificateOffset]; omega)]
  exact congrArg _ hpbytes

/-- **The `i`-th state is read back.** -/
theorem state_buildNewView (h : sz.Fit) (hq : vcs.size = sz.quorum) {i : Nat}
    {e : ProcId × VcCertificate sz} (hi : vcs.entries[i]? = some e) (hid : e.1 < 2 ^ 32) :
    cloneSerializedState sz (buildNewView junk sz view (vcs.map (·.certificate))) i =
      some (SerializedState.serialize e.2.junk e.2.view e.2.commits) := by
  rw [cloneSerializedState, entry_buildNewView h hq hi hid,
    Certificate.tryFrom_buffer e.2.encodable, Option.map_some, e.2.message]

/-- The message is parsed as a NewView. -/
theorem tryFrom_buildNewView (h : sz.Fit) (hq : vcs.size = sz.quorum) (cbIndex : Nat) :
    Variant.tryFrom sz (.ofData cbIndex (buildNewView junk sz view (vcs.map (·.certificate)))) =
      some (.newView (.ofData cbIndex (buildNewView junk sz view (vcs.map (·.certificate))))) := by
  have hlen := length_buildNewView junk view h hq
  rw [buildNewView_cons h hq] at hlen ⊢
  rw [Variant.tryFrom_ofData, Variant.tryFromKind, if_pos]
  rw [TailCb.Message.size_ofData, hlen, h.bufferSize le_rfl, entryOffset]

end Buffer

/-- **The round trip of a NewView.**  The buffer built from the certificates of a quorum is
accepted, for the view after the one sealed; its entries lie apart, inside it; each gives back the
certificate of the replica of its rank, and with it the state, of which the commits are those the
replica made, by instance. -/
theorem buildNewView_roundtrip {sz : Sizes} (h : sz.Fit) (junk : Nat → UInt8) (view : Nat)
    {vcs : OrdMap ProcId (VcCertificate sz)} (hq : vcs.size = sz.quorum)
    (hids : ∀ e ∈ vcs.entries, e.1 < 2 ^ 32) {data : Bytes}
    (hdata : data = buildNewView junk sz view (vcs.map (·.certificate))) :
    (∀ cbIndex, Variant.tryFrom sz (.ofData cbIndex data) = some (.newView (.ofData cbIndex data))) ∧
    (NewViewMessage.ofBytes sz data).view = (view + 1) % 2 ^ 64 ∧
    ∀ i e, vcs.entries[i]? = some e →
      bufferSize sz i + certificateOffset + e.2.certificate.buffer.length ≤
        bufferSize sz (i + 1) ∧
      bufferSize sz (i + 1) ≤ data.length ∧
      cloneCertificateBuffer sz data i = (e.1, e.2.certificate.buffer) ∧
      ∃ state, cloneSerializedState sz data i = some state ∧
        state = SerializedState.serialize e.2.junk e.2.view e.2.commits ∧
        (SerializedState.parse state).commits = e.2.commits.entries.map (·.2) ∧
        ((SerializedState.parse state).commits.map (·.inst)).Pairwise (· < ·) := by
  subst hdata
  refine ⟨tryFrom_buildNewView h hq, view_buildNewView h hq, fun i e hi => ?_⟩
  have hmem := List.mem_of_getElem? hi
  have hlt : i < sz.quorum := hq ▸ (List.getElem?_eq_some_iff.mp hi).choose
  have hnext := h.bufferSize (i := i + 1) hlt
  have hparse : SerializedState.parse
      (SerializedState.serialize e.2.junk e.2.view e.2.commits) = .of e.2.view e.2.commits :=
    e.2.message ▸ e.2.parse_message h
  refine ⟨?_, ?_, entry_buildNewView h hq hi (hids e hmem), _,
    state_buildNewView h hq hi (hids e hmem), rfl, ?_, ?_⟩
  · have hle := Nat.add_le_add_left (e.2.length_le_entry h) (entryOffset sz i)
    rw [h.bufferSize hlt.le, hnext, Nat.add_assoc]
    exact hle.trans (entryOffset_succ sz i)
  · rw [hnext, length_buildNewView _ _ h hq]
    exact slot_le (entryOffset_succ sz) hlt
  · rw [hparse]
    rfl
  · have hkeys : e.2.commits.entries.map (fun e => e.2.inst) = e.2.commits.entries.map (·.1) :=
      List.map_congr_left e.2.keyed
    rw [hparse, SerializedState.of, List.map_map]
    change (e.2.commits.entries.map fun e => e.2.inst).Pairwise (· < ·)
    rw [hkeys]
    exact List.pairwise_map.mpr e.2.commits.sorted

namespace Example

/-- A window of one instance, proposals of one byte, a quorum of two. -/
def sizes : Sizes := ⟨1, 1, 2⟩

/-- The certificate of a replica that committed one byte for instance 3. -/
def vc : VcCertificate sizes where
  certificate := .of 7 0 [⟨1, List.replicate 64 0⟩, ⟨2, List.replicate 64 0⟩]
    (SerializedState.serialize (fun _ => 5) 0 (OrdMap.empty.insert 3 ⟨0, 3, [9]⟩))
  junk _ := 5
  view := 0
  commits := OrdMap.empty.insert 3 ⟨0, 3, [9]⟩
  message := rfl
  encodable := ⟨by decide, by decide, rfl, by decide, by decide, by decide +kernel⟩
  nbShares := rfl
  view_lt := by decide
  size_le := le_rfl
  keyed := by decide
  commit_encodable e he := by
    obtain rfl := List.mem_singleton.mp he
    exact ⟨by decide, by decide, by decide⟩
  proposal_le := by decide

/-- Two replicas, of ids 1 and 2. -/
def vcs : OrdMap ProcId (VcCertificate sizes) := (OrdMap.empty.insert 1 vc).insert 2 vc

theorem roundtrip :
    let data := buildNewView (fun _ => 0) sizes 0 (vcs.map (·.certificate))
    (NewViewMessage.ofBytes sizes data).view = 1 ∧
      (cloneCertificateBuffer sizes data 1).1 = 2 ∧
      ∃ state, cloneSerializedState sizes data 1 = some state ∧
        (SerializedState.parse state).commits = [⟨0, 3, [9]⟩] := by
  have hfit : sizes.Fit := ⟨by decide, by decide⟩
  have hids : ∀ e ∈ vcs.entries, e.1 < 2 ^ 32 := by decide
  have h := buildNewView_roundtrip hfit (fun _ => 0) 0 rfl hids rfl
  obtain ⟨-, -, hentry, state, hstate, -, hcommits, -⟩ := h.2.2 1 (2, vc) rfl
  exact ⟨h.2.1, congrArg Prod.fst hentry, state, hstate, hcommits⟩

end Example

/-- What the handlers take is the NewView of the certificates. -/
theorem decode_buildNewView {sz : Sizes} (h : sz.Fit) (junk : Nat → UInt8) {view : Nat}
    (hv : view + 1 < 2 ^ 64) {vcs : OrdMap ProcId (VcCertificate sz)} (hq : vcs.size = sz.quorum)
    (hids : ∀ e ∈ vcs.entries, e.1 < 2 ^ 32) (cbIndex : Nat) :
    decode sz (.ofData cbIndex (buildNewView junk sz view (vcs.map (·.certificate)))) =
      .newView (ViewChangeState.buildNewView
        ⟨view, vcs.map fun vc => mapMessage SerializedState.parse vc.certificate⟩) := by
  have hentries : (List.range sz.quorum).map (fun i =>
      (⟨(cloneCertificateBuffer sz (buildNewView junk sz view (vcs.map (·.certificate))) i).1,
        (Certificate.tryFrom (cloneCertificateBuffer sz
          (buildNewView junk sz view (vcs.map (·.certificate))) i).2).map
            (mapMessage SerializedState.parse)⟩ : VcCertificateEntry)) =
      vcs.entries.map fun e =>
        ⟨e.1, some (mapMessage SerializedState.parse e.2.certificate)⟩ := by
    refine List.ext_getElem? fun i => ?_
    rw [List.getElem?_map, List.getElem?_map]
    rcases Nat.lt_or_ge i sz.quorum with hi | hi
    · obtain ⟨e, he⟩ : ∃ e, vcs.entries[i]? = some e :=
        ⟨_, List.getElem?_eq_getElem (lt_of_lt_of_eq hi hq.symm)⟩
      rw [List.getElem?_range hi, he, Option.map_some, Option.map_some,
        entry_buildNewView h hq he (hids e (List.mem_of_getElem? he)),
        Certificate.tryFrom_buffer e.2.encodable, Option.map_some]
    · rw [List.getElem?_eq_none (by rwa [List.length_range]),
        List.getElem?_eq_none (le_of_eq_of_le hq hi)]
      rfl
  rw [decode, tryFrom_buildNewView h hq, Option.map_some, Option.getD_some, Variant.decode,
    TailCb.Message.data_ofData, NewViewMessage.ofBytes, view_buildNewView h hq,
    Nat.mod_eq_of_lt hv]
  simp only [hentries]
  rw [ViewChangeState.buildNewView, OrdMap.map, List.map_map]
  rfl

/-- The NewView read back carries the commit maps of the certificates. -/
theorem carries_buildNewView {sz : Sizes} (h : sz.Fit) (view : Nat)
    {vcs : OrdMap ProcId (VcCertificate sz)} (hq : vcs.size = sz.quorum) :
    (ViewChangeState.buildNewView
      ⟨view, vcs.map fun vc => mapMessage SerializedState.parse vc.certificate⟩).Carries sz.window
        sz.quorum (vcs.entries.map fun e => (e.2.view, e.2.commits)) := by
  refine ⟨(List.length_map ..).trans hq, ?_, fun x hx => ?_⟩
  · rw [ViewChangeState.buildNewView, OrdMap.map, List.map_map, List.map_map, List.map_map]
    refine List.map_congr_left fun e _ => ?_
    exact congrArg some (e.2.parse_message h)
  · obtain ⟨e, -, rfl⟩ := List.mem_map.mp hx
    exact e.2.size_le

end NewViewMessage

end Ubft.Consensus
