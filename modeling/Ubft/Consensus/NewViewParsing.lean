import Ubft.Consensus.Layouts
import Ubft.Consensus.NewViews

/-!
# Consensus — parsing a NewView

`tryFrom` looks at the size of a NewView only.  Each entry then announces the size of its
certificate, and `cloneCertificateBuffer` copies as many bytes, wherever they are: `memory` is
the message and what follows it.  The rank of the replica an entry is about is looked up in a map
that a release build extends.

`sentEntries_iff` says when the entries are what was sent, and about replicas that are known.
-/

namespace Ubft.Consensus.NewViewMessage

open Certifier (Certificate)

/-- What `cloneCertificateBuffer` returns for an entry, and the size it asks for.  There is no
buffer when it cannot be allocated: `std::vector` throws. -/
structure ClonedEntry where
  replicaId : ProcId
  certificateSize : Nat
  certificateBuffer : Option Bytes
  deriving DecidableEq, Repr

/-- `cloneCertificateBuffer`, in the memory the message is in. -/
def cloneEntry (allocates : Nat → Bool) (sz : Sizes) (memory : Bytes) (index : Nat) :
    ClonedEntry :=
  let size := field memory (bufferSize sz index + 8) 8
  let clone := cloneCertificateBuffer sz memory index
  ⟨clone.1, size, if allocates size then some clone.2 else none⟩

/-- The entry that `isByzantine` checks. -/
def ClonedEntry.toEntry (e : ClonedEntry) : VcCertificateEntry :=
  ⟨e.replicaId, (e.certificateBuffer.bind Certificate.tryFrom).map
    (mapMessage SerializedState.parse)⟩

/-- The entry is what was sent, whatever lies beyond the message, and it is about a replica that is
known, unless it is rejected. -/
structure SentEntry (cfg : Config) (s : Consensus) (allocates : Nat → Bool) (sz : Sizes)
    (data : Bytes) (index : Nat) : Prop where
  bytes : ∀ beyond, cloneEntry allocates sz (data ++ beyond) index =
    cloneEntry allocates sz data index
  replica : (cloneEntry allocates sz data index).replicaId ∈ cfg.ids ∨
    checkEntry cfg s (cloneEntry allocates sz data index).toEntry ≠ .ok true

/-- The header of the entry is in the message, and so many bytes follow it as its size says. -/
def Sized (allocates : Nat → Bool) (sz : Sizes) (data : Bytes) (index : Nat) : Prop :=
  bufferSize sz index + certificateOffset ≤ data.length ∧
    (allocates (field data (bufferSize sz index + 8) 8) = true →
      field data (bufferSize sz index + 8) 8 ≤
        data.length - (bufferSize sz index + certificateOffset))

instance (allocates : Nat → Bool) (sz : Sizes) (data : Bytes) (index : Nat) :
    Decidable (Sized allocates sz data index) :=
  inferInstanceAs (Decidable (_ ∧ (_ → _)))

/-- No replica of another id passes for the first one: a debug build throws. -/
def Resolved (cfg : Config) (s : Consensus) (e : VcCertificateEntry) : Prop :=
  e.replicaId ∈ cfg.ids ∨ cfg.ndebug = false ∨
    ∀ c ∈ e.certificate, (s.vcStateCertifiers 0).check cfg.vcStateCrypto c ≠ .ok true

/-! ### Bytes -/

section Bytes

variable {allocates : Nat → Bool} {sz : Sizes} {data : Bytes} {index off w : Nat}

theorem field_append_left (h : off + w ≤ data.length) (beyond : Bytes) :
    field (data ++ beyond) off w = field data off w := by
  rw [field, field, Layout.read_append_left h]

/-- A field that is not all in the message depends on what follows it. -/
theorem exists_field_ne (hw : 0 < w) (h : data.length < off + w) :
    ∃ beyond, field (data ++ beyond) off w ≠ field data off w := by
  refine ⟨List.replicate (off + w) 255, ?_⟩
  have hlen : (data.drop off).length < w := by
    rw [List.length_drop]
    omega
  obtain ⟨m, hm⟩ : ∃ m, min (w - (data.drop off).length) (off + w - (off - data.length)) =
      m + 1 := Nat.exists_eq_succ_of_ne_zero (by omega)
  rw [field, field, Layout.read, Layout.read, List.drop_append, List.take_append,
    List.drop_replicate, List.take_replicate, hm, ofLe_append, List.replicate_succ, ofLe]
  have hpos : 0 < 256 ^ ((data.drop off).take w).length := Nat.pow_pos (by decide)
  have hmul := Nat.mul_pos hpos
    (show 0 < (255 : UInt8).toNat + 256 * ofLe (List.replicate m 255) from
      Nat.add_pos_left (by decide) _)
  omega

theorem read_append_eq_iff (h : off ≤ data.length) :
    (∀ beyond, Layout.read (data ++ beyond) off w = Layout.read data off w) ↔
      w ≤ data.length - off := by
  constructor
  · intro hall
    have he := congrArg List.length (hall (List.replicate w 0))
    rw [Layout.length_read (by rw [List.length_append, List.length_replicate]; omega),
      Layout.read, List.length_take, List.length_drop] at he
    omega
  · intro hw beyond
    exact Layout.read_append_left (by omega) beyond

end Bytes

/-! ### Entries -/

section Entries

variable {cfg : Config} {s : Consensus} {allocates : Nat → Bool} {sz : Sizes} {data : Bytes}
  {index : Nat}

/-- **Bytes.**  An entry is what was sent when its certificate ends where the message does, or
before. -/
theorem cloneEntry_append_iff :
    (∀ beyond, cloneEntry allocates sz (data ++ beyond) index =
      cloneEntry allocates sz data index) ↔ Sized allocates sz data index := by
  constructor
  · intro hall
    have hheader : bufferSize sz index + certificateOffset ≤ data.length := by
      by_contra hno
      obtain ⟨beyond, hne⟩ : ∃ beyond, field (data ++ beyond) (bufferSize sz index + 8) 8 ≠
          field data (bufferSize sz index + 8) 8 :=
        exists_field_ne (by decide) (Nat.not_le.mp hno)
      exact hne (congrArg ClonedEntry.certificateSize (hall beyond))
    refine ⟨hheader, fun ha => (read_append_eq_iff hheader).mp fun beyond => ?_⟩
    have hsize := congrArg ClonedEntry.certificateSize (hall beyond)
    have hbuffer := congrArg ClonedEntry.certificateBuffer (hall beyond)
    simp only [cloneEntry, cloneCertificateBuffer] at hsize hbuffer
    rw [hsize, if_pos ha, if_pos ha] at hbuffer
    exact Option.some.inj hbuffer
  · rintro ⟨hheader, hroom⟩ beyond
    have hid : field (data ++ beyond) (bufferSize sz index) 4 =
        field data (bufferSize sz index) 4 :=
      field_append_left (Nat.le_trans (Nat.add_le_add_left (by decide) _) hheader) beyond
    have hsize : field (data ++ beyond) (bufferSize sz index + 8) 8 =
        field data (bufferSize sz index + 8) 8 :=
      field_append_left (by rw [Nat.add_assoc]; exact hheader) beyond
    simp only [cloneEntry, cloneCertificateBuffer, hid, hsize]
    split
    · next ha => rw [(read_append_eq_iff hheader).mpr (hroom ha) beyond]
    · rfl

/-- **Replicas.**  An entry about an unknown replica is rejected, or passes for the first one. -/
theorem checkEntry_known_iff (e : VcCertificateEntry) :
    (e.replicaId ∈ cfg.ids ∨ checkEntry cfg s e ≠ .ok true) ↔ Resolved cfg s e := by
  by_cases hk : e.replicaId ∈ cfg.ids
  · exact ⟨fun _ => .inl hk, fun _ => .inl hk⟩
  · have hrank : rankOf cfg e.replicaId =
        if cfg.ndebug then .ok 0 else .error (.outOfRange e.replicaId) := by
      rw [rankOf, List.idxOf?_eq_none_iff.mpr hk]
    refine (or_iff_right hk).trans (Iff.trans ?_ (or_iff_right hk).symm)
    cases hn : cfg.ndebug with
    | false =>
        refine ⟨fun _ => .inl rfl, fun _ hc => ?_⟩
        obtain ⟨c, r, -, hr, -⟩ := checkEntry_eq_ok_true hc
        rw [hrank, hn, if_neg Bool.false_ne_true] at hr
        cases hr
    | true =>
        rw [hn, if_pos rfl] at hrank
        refine ⟨fun hc => .inr fun c hcert hv => hc ?_, fun h hc => ?_⟩
        · rw [checkEntry, Option.mem_def.mp hcert]
          exact bind_eq_ok.mpr ⟨0, hrank, lift_eq_ok.mpr hv⟩
        · obtain ⟨c, r, hcert, hr, hv⟩ := checkEntry_eq_ok_true hc
          rw [hrank] at hr
          cases hr
          exact (h.resolve_left Bool.noConfusion) c hcert hv

end Entries

/-! ### NewViews -/

section NewViews

variable {cfg : Config} {s : Consensus} {allocates : Nat → Bool} {sz : Sizes}

/-- The NewView that is handled. -/
def cloned (allocates : Nat → Bool) (sz : Sizes) (memory : Bytes) : NewViewMessage where
  view := field memory 8 8
  vcCertificates := (List.range sz.quorum).map fun i => (cloneEntry allocates sz memory i).toEntry

/-- **NewViews.**  The entries of a NewView are what was sent, each about a known replica or
rejected, if and only if they announce no more bytes than there are and no certificate about an
unknown replica is valid for the first one. -/
theorem sentEntries_iff (cfg : Config) (s : Consensus) (allocates : Nat → Bool) (sz : Sizes)
    (data : Bytes) :
    (∀ i < sz.quorum, SentEntry cfg s allocates sz data i) ↔
      ∀ i < sz.quorum, Sized allocates sz data i ∧
        Resolved cfg s (cloneEntry allocates sz data i).toEntry := by
  refine forall_congr' fun i => forall_congr' fun _ => ?_
  exact ⟨fun h => ⟨cloneEntry_append_iff.mp h.bytes, (checkEntry_known_iff _).mp h.replica⟩,
    fun h => ⟨cloneEntry_append_iff.mpr h.1, (checkEntry_known_iff _).mpr h.2⟩⟩

/-- The sizes of `Example.three`. -/
def Example.threeSizes : Sizes := ⟨4, 64, 2⟩

/-- A NewView for view 1 of 1120 bytes, the first entry of which announces as many. -/
def Example.overlong : Bytes :=
  [6] ++ List.replicate 7 0 ++ le 8 1 ++ (List.replicate 8 0 ++ le 8 1120) ++
    List.replicate 1088 0

/-- Its first certificate ends out of the message. -/
theorem not_sentEntries : ¬ ∀ (cfg : Config) (s : Consensus) (allocates : Nat → Bool) (sz : Sizes)
    (m : TailCb.Message), Variant.tryFrom sz m = some (.newView m) →
      ∀ i < sz.quorum, SentEntry cfg s allocates sz m.data i := by
  intro h
  have hm : Variant.tryFrom Example.threeSizes (.ofData 0 Example.overlong) =
      some (.newView (.ofData 0 Example.overlong)) := by
    have hkind : MessageKind.newView.toByte :: Example.overlong.drop 1 = Example.overlong := by
      decide +kernel
    have hm := Variant.tryFrom_ofData Example.threeSizes 0 .newView (Example.overlong.drop 1)
    have hsize : (TailCb.Message.ofData 0 Example.overlong).size =
        bufferSize Example.threeSizes Example.threeSizes.quorum := by decide +kernel
    rw [hkind] at hm
    simpa only [Variant.tryFromKind, if_pos hsize] using hm
  have hs := h Consensus.Example.three (.start Consensus.Example.three Deployment.allKnown)
    (fun _ => true) Example.threeSizes _ hm 0 (by decide)
  rw [TailCb.Message.data_ofData] at hs
  exact absurd (cloneEntry_append_iff.mp hs.bytes) (by decide +kernel)

/-- A NewView has room for a quorum of entries. -/
theorem length_of_tryFrom {m : TailCb.Message} (h : Variant.tryFrom sz m = some (.newView m)) :
    m.data.length = bufferSize sz sz.quorum := by
  have hlen : m.data.length = m.size := List.length_drop
  unfold Variant.tryFrom at h
  split at h
  · cases h
  · next kind rest _ =>
      obtain ⟨k, -, hk⟩ := Option.bind_eq_some_iff.mp h
      cases k <;> simp only [Variant.tryFromKind] at hk
      case newView =>
        split at hk
        · next hs => exact hlen.trans hs
        · cases hk
      all_goals first | cases hk | (split at hk <;> cases hk)

/-- What is then handled does not depend on what follows the message. -/
theorem cloned_append {m : TailCb.Message} (hm : Variant.tryFrom sz m = some (.newView m))
    (h : ∀ i < sz.quorum, SentEntry cfg s allocates sz m.data i) (beyond : Bytes) :
    cloned allocates sz (m.data ++ beyond) = cloned allocates sz m.data := by
  have hview : 8 + 8 ≤ m.data.length := by
    rcases Nat.eq_zero_or_pos sz.quorum with hq | hq
    · rw [length_of_tryFrom hm, bufferSize, hq, Nat.zero_mul]
      decide
    · have := (cloneEntry_append_iff.mp (h 0 hq).bytes).1
      rw [bufferSize, Nat.zero_mul] at this
      exact Nat.le_trans (by decide) this
  rw [cloned, cloned, field_append_left hview]
  refine congrArg (NewViewMessage.mk _) (List.map_congr_left fun i hi => ?_)
  rw [(h i (List.mem_range.mp hi)).bytes beyond]

end NewViews

end Ubft.Consensus.NewViewMessage
