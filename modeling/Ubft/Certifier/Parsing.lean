import Ubft.Certifier.Certificates
import Ubft.Support.Layout

/-!
# Certifier — parsing

`certifier/certificate.hpp` reads a certificate where it lies: its accessors compute addresses in
the buffer `tryFrom` accepted, on `size_t`, as `tryFrom` computes the size it asks for.  What they
read is all in the buffer, and is all the buffer, unless the number of shares is so large that the
size of the shares wraps around (`parsed_iff`).
-/

namespace Ubft.Certifier.Certificate

open Layout (read_add length_read read_zero_length)

/-- The bytes of a `Buffer`, whose size is a `size_t`. -/
structure Buffer where
  bytes : Bytes
  size_lt : bytes.length < 2 ^ 64

/-- The address of a share, from the beginning of the buffer. -/
def shareOffset (index : Nat) : Nat := (headerSize + index * shareSize) % 2 ^ 64

/-- `share`. -/
def share (b : Bytes) (index : Nat) : CertificateShare where
  emitter := ofLe (Layout.read b (shareOffset index) 4)
  signature := Layout.read b (shareOffset index + 4) 64

/-- `messageSize`. -/
def messageSize (b : Bytes) (c : Certificate Bytes) : Nat :=
  (b.length + 2 ^ 64 - bufferSize 0 c.nbShares) % 2 ^ 64

/-- From `message`, the first byte after the last share. -/
def messageRead (b : Bytes) (c : Certificate Bytes) : Bytes :=
  Layout.read b (shareOffset c.nbShares) (messageSize b c)

/-- What is read of the certificate is in the buffer, and is what the constructor would write
there. -/
structure Parsed (b : Bytes) (c : Certificate Bytes) : Prop where
  shares : ∀ i < c.nbShares, shareOffset i + shareSize ≤ b.length
  message : shareOffset c.nbShares + messageSize b c ≤ b.length
  size : c.nbShares * shareSize + headerSize + messageSize b c = b.length
  encoding : (Certificate.of c.identifier c.index ((List.range c.nbShares).map (share b))
    (messageRead b c)).buffer = b

section

variable {b : Bytes} {c : Certificate Bytes}

/-- What `tryFrom` tells of the header. -/
theorem tryFrom_cases (h : tryFrom b = some c) : headerSize ≤ b.length ∧
    bufferSize 0 c.nbShares ≤ b.length ∧ c.identifier = ofLe (Layout.read b 0 8) ∧
    c.index = ofLe (Layout.read b 8 8) ∧ c.nbShares = ofLe (Layout.read b 16 8) := by
  unfold tryFrom at h
  split at h
  · cases h
  · next hheader =>
      dsimp only at h
      split at h
      · cases h
      · next hsize =>
          cases h
          exact ⟨Nat.not_lt.mp hheader, Nat.not_lt.mp hsize, rfl, rfl, rfl⟩

theorem bufferSize_zero (nbShares : Nat) : bufferSize 0 nbShares = shareOffset nbShares := rfl

/-- As long as the offsets do not wrap. -/
theorem shareOffset_of_lt {i : Nat} (h : headerSize + i * shareSize < 2 ^ 64) :
    shareOffset i = headerSize + i * shareSize := Nat.mod_eq_of_lt h

/-- The message is what is behind the shares. -/
theorem messageSize_eq (hb : b.length < 2 ^ 64) (h : shareOffset c.nbShares ≤ b.length) :
    messageSize b c = b.length - shareOffset c.nbShares := by
  rw [messageSize, bufferSize_zero]
  omega

/-- A share that is in the buffer is encoded as it was read. -/
theorem shareBytes_share {i : Nat} (h : shareOffset i + shareSize ≤ b.length) :
    shareBytes (share b i) = Layout.read b (shareOffset i) shareSize := by
  have hlen : (Layout.read b (shareOffset i) 4).length = 4 :=
    length_read (Nat.le_trans (Nat.add_le_add_left (by decide) _) h)
  have hle := le_ofLe (Layout.read b (shareOffset i) 4)
  rw [hlen] at hle
  rw [shareBytes, share, hle, show shareSize = 4 + 64 from rfl, read_add]

/-- The shares one by one are the bytes between the header and the message. -/
theorem shares_read (n : Nat) (h : headerSize + n * shareSize < 2 ^ 64)
    (hn : ∀ i < n, shareOffset i + shareSize ≤ b.length) :
    ((List.range n).map (share b)).flatMap shareBytes =
      Layout.read b headerSize (n * shareSize) := by
  induction n with
  | zero => rw [Nat.zero_mul, Layout.read, List.take_zero]; rfl
  | succ n ih =>
      have hle : headerSize + n * shareSize < 2 ^ 64 := by
        refine Nat.lt_of_le_of_lt (Nat.add_le_add_left ?_ _) h
        exact Nat.mul_le_mul_right _ n.le_succ
      have hlast := hn n n.lt_succ_self
      rw [List.range_succ, List.map_append, List.flatMap_append,
        ih hle fun i hi => hn i (Nat.lt_succ_of_lt hi), Nat.succ_mul, read_add]
      congr 1
      rw [List.map_singleton, List.flatMap_singleton, shareBytes_share hlast,
        shareOffset_of_lt hle]

/-- The parts of the buffer, put together again. -/
theorem buffer_read (h : tryFrom b = some c) (hs : headerSize + c.nbShares * shareSize < 2 ^ 64)
    (hn : ∀ i < c.nbShares, shareOffset i + shareSize ≤ b.length)
    (hm : shareOffset c.nbShares + messageSize b c = b.length) :
    (Certificate.of c.identifier c.index ((List.range c.nbShares).map (share b))
      (messageRead b c)).buffer = b := by
  obtain ⟨hheader, -, hid, hindex, hcount⟩ := tryFrom_cases h
  have hfield : ∀ off, off + 8 ≤ headerSize →
      le 8 (ofLe (Layout.read b off 8)) = Layout.read b off 8 := by
    intro off ho
    have hle := le_ofLe (Layout.read b off 8)
    rwa [length_read (Nat.le_trans ho hheader)] at hle
  have hshares := shares_read c.nbShares hs hn
  unfold shareBytes at hshares
  rw [shareOffset_of_lt hs] at hm
  simp only [buffer, Certificate.of, List.length_map, List.length_range]
  rw [hshares, hid, hindex, hcount, hfield 0 (by decide), hfield 8 (by decide),
    hfield 16 (by decide), ← hcount, messageRead, shareOffset_of_lt hs]
  -- each part begins where the one before it ends
  calc Layout.read b 0 8 ++ Layout.read b 8 8 ++ Layout.read b 16 8 ++
        Layout.read b headerSize (c.nbShares * shareSize) ++
        Layout.read b (headerSize + c.nbShares * shareSize) (messageSize b c)
      = Layout.read b 0 (8 + 8 + 8 + c.nbShares * shareSize + messageSize b c) := by
        simp only [read_add, Nat.zero_add]
        rfl
    _ = Layout.read b 0 b.length := by
        rw [← hm]
        rfl
    _ = b := read_zero_length b

/-- When the size of the shares wraps around, some share is not in the buffer. -/
theorem exists_outside (hb : b.length < 2 ^ 64) (hheader : headerSize ≤ b.length)
    (h : 2 ^ 64 ≤ headerSize + c.nbShares * shareSize) :
    ∃ i < c.nbShares, b.length < shareOffset i + shareSize := by
  simp only [headerSize, shareSize] at hheader h
  refine ⟨(b.length - 24) / 68, by omega, ?_⟩
  rw [shareOffset_of_lt (by simp only [headerSize, shareSize]; omega)]
  simp only [headerSize, shareSize]
  omega

end

/-- **Parsing.**  A certificate that is accepted lies in its buffer, all of it, if and only if
the size of its shares does not wrap around. -/
theorem parsed_iff (b : Buffer) (c : Certificate Bytes) (h : tryFrom b.bytes = some c) :
    Parsed b.bytes c ↔ headerSize + c.nbShares * shareSize < 2 ^ 64 := by
  obtain ⟨hheader, hsize, -⟩ := tryFrom_cases h
  rw [bufferSize_zero] at hsize
  constructor
  · intro hp
    by_contra hno
    obtain ⟨i, hi, hout⟩ := exists_outside b.size_lt hheader (Nat.not_lt.mp hno)
    exact Nat.not_lt.mpr (hp.shares i hi) hout
  · intro hs
    have hm := messageSize_eq b.size_lt hsize
    have hoff := shareOffset_of_lt hs
    have hend : shareOffset c.nbShares + messageSize b.bytes c = b.bytes.length := by
      rw [hm]
      exact Nat.add_sub_cancel' hsize
    have hshares : ∀ i < c.nbShares, shareOffset i + shareSize ≤ b.bytes.length := by
      intro i hi
      have hle : (i + 1) * shareSize ≤ c.nbShares * shareSize := Nat.mul_le_mul_right _ hi
      rw [Nat.succ_mul] at hle
      rw [shareOffset_of_lt (by omega)]
      omega
    refine ⟨hshares, hend.le, ?_, buffer_read h hs hshares hend⟩
    rw [← hend, hoff, Nat.add_comm headerSize]

/-- Two shares, and a message of two bytes. -/
def Example.buffer : Bytes :=
  le 8 5 ++ le 8 3 ++ le 8 2 ++ le 4 9 ++ List.replicate 64 1 ++ le 4 6 ++ List.replicate 64 2 ++
    [7, 8]

/-- What the buffer is parsed as. -/
def Example.certificate : Certificate Bytes :=
  ⟨5, 3, 2, [⟨9, List.replicate 64 1⟩, ⟨6, List.replicate 64 2⟩], [7, 8]⟩

theorem parsed_two : Parsed Example.buffer Example.certificate :=
  (parsed_iff ⟨Example.buffer, by decide +kernel⟩ Example.certificate (by decide +kernel)).mpr
    (by decide)

/-- A header that announces 2 ^ 62 shares is accepted alone: their size is 17 * 2 ^ 64. -/
theorem not_parsed : ¬ ∀ (b : Buffer) (c : Certificate Bytes), tryFrom b.bytes = some c →
    Parsed b.bytes c := by
  intro h
  have hp := h ⟨le 8 5 ++ le 8 3 ++ le 8 (2 ^ 62), by decide⟩ ⟨5, 3, 2 ^ 62, [], []⟩
    (by decide +kernel)
  exact absurd (hp.shares 0 (by decide)) (by decide)

end Ubft.Certifier.Certificate
