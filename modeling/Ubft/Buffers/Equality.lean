import Ubft.Broadcast.Receiver
import Ubft.Buffers.Buffer
import Ubft.Rpc.Client

/-!
# Buffers — equality

`Buffer::operator==` gives `std::equal` the end of its left-hand side only: it reads as many bytes
of the right-hand side, whatever it finds.  It compares what the buffers hold if they have the same
size, or if the left-hand side is the shorter one and is not a beginning of the other, and in no
other case (`comparesBytes_iff`).  The comparisons of messages, echoes, requests and responses are
this one.
-/

namespace Ubft.Buffers

namespace Buffer

/-- `std::equal` over `n` bytes: its answer, and how many bytes it reads of each side.  Over bytes it
is one `memcmp` of the length of the left-hand side, which reads all of them wherever they differ. -/
def stdEqual (x y : Nat → UInt8) (n : Nat) : Bool × Nat := (decide (∀ i < n, x i = y i), n)

/-- `std::equal` over the bytes of the left buffer. -/
def compare (b o : Buffer) : Bool × Nat := stdEqual b.byte o.byte b.size

/-- `operator==`. -/
def eq (b o : Buffer) : Bool := (b.compare o).1

/-- How many bytes `operator==` reads of each buffer. -/
def inspected (b o : Buffer) : Nat := (b.compare o).2

end Buffer

/-- `Message`, from which those of the broadcast, the requests and the responses derive. -/
structure Message where
  rawBuffer : Buffer

/-- `Message::operator==`. -/
def Message.eq (m o : Message) : Bool := m.rawBuffer.eq o.rawBuffer

/-- `Message::operator!=`. -/
def Message.ne (m o : Message) : Bool := !m.eq o

/-- `echoes_match` after `MessageData::echoed` got the echo of a message below `HashThreshold`. -/
def echoesMatch (echoesMatch : Bool) (message echo : Message) : Bool :=
  if message.ne echo then false else echoesMatch

/-- Whether `RequestStateMachine::echoed` takes the first echo of a follower. -/
def requestEchoed (req echo : Message) : Bool := if echo.ne req then false else true

/-- `all_identical` after `RequestData::newResponse`, which has the first response in `front`. -/
def allIdentical (allIdentical : Bool) (front : Option Message) (response : Message) : Bool :=
  match front with
  | none => true
  | some front => allIdentical && response.eq front

/-! ### What is read -/

namespace Buffer

variable {b o : Buffer}

/-- `==` looks at the bytes up to the left size. -/
theorem eq_iff : b.eq o = true ↔ ∀ i < b.size, b.byte i = o.byte i := decide_eq_true_iff

/-- The left-hand side alone says how many bytes are read. -/
theorem inspected_eq : b.inspected o = b.size := rfl

/-- How many bytes there are before the end. -/
def remaining (b : Buffer) : Nat := b.dynarray.size - b.leftOffset

/-- Of the same size, with the same bytes. -/
def Same (b o : Buffer) : Prop := b.size = o.size ∧ b.bytes = o.bytes

theorem Same.symm (h : Same b o) : Same o b := ⟨h.1.symm, h.2.symm⟩

/-- A buffer trimmed within its array. -/
theorem size_of_le (h : b.leftOffset ≤ b.dynarray.size) : b.size = b.remaining := if_pos h

theorem bytes_eq_map (b : Buffer) : b.bytes = (List.range b.remaining).map b.byte := rfl

/-- The same size and, up to it, the same bytes. -/
theorem same_iff (hb : b.leftOffset ≤ b.dynarray.size) (ho : o.leftOffset ≤ o.dynarray.size) :
    Same b o ↔ b.size = o.size ∧ ∀ i < b.size, b.byte i = o.byte i := by
  refine and_congr_right fun hsize => ?_
  rw [bytes_eq_map, bytes_eq_map, ← size_of_le hb, ← size_of_le ho, ← hsize, List.map_inj_left]
  simp only [List.mem_range]

/-! ### Buffers in use -/

/-- What is done with a buffer between two comparisons. -/
inductive Use where
  | resize (size : Nat)
  | trimLeft (offset : Nat)
  | write (k : Nat) (v : UInt8)

/-- A use of the buffer, or what it throws. -/
def use (b : Buffer) (fresh : Nat) : Use → Except BufferError Buffer
  | .resize size => b.resize fresh size
  | .trimLeft offset => b.trimLeft offset
  | .write k v => .ok (b.write k v)

/-- A buffer some time after it was constructed. -/
def Reached : Buffer → Prop :=
  Reachable (fun b => ∃ storage size bytes, new storage size bytes = .ok b)
    (fun b u b' => ∃ fresh, b.use fresh u = .ok b') Always

theorem Reached.leftOffset_lt (h : Reached b) : b.leftOffset < 2 ^ 64 := by
  refine Reachable.induct (P := fun b => b.leftOffset < 2 ^ 64) ?_ ?_ h
  · rintro b ⟨storage, size, bytes, hb⟩
    obtain ⟨-, rfl⟩ := new_eq_ok.mp hb
    exact Nat.two_pow_pos 64
  · rintro b u b' - hlt - ⟨fresh, hu⟩
    cases u with
    | resize size =>
        obtain ⟨-, rfl⟩ := resize_eq_ok.mp hu
        exact hlt
    | trimLeft offset =>
        obtain ⟨-, rfl⟩ := trimLeft_eq_ok.mp hu
        exact Nat.mod_lt _ (Nat.two_pow_pos 64)
    | write k v =>
        cases hu
        exact hlt

/-- The size of a buffer whose left offset passed its end wraps. -/
theorem Reached.size_pos (h : Reached b) (hlt : b.dynarray.size < b.leftOffset) : 0 < b.size := by
  have hoff := h.leftOffset_lt
  rw [size, if_neg (Nat.not_le.mpr hlt)]
  omega

end Buffer

open Buffer (Same Reached)

/-- What is asked of the comparison of `b` and `o`, and of the comparisons made with it. -/
structure ComparesBytes (b o : Buffer) : Prop where
  eq_iff : b.eq o = true ↔ Same b o
  symm : b.eq o = o.eq b
  within : b.inspected o ≤ b.remaining ∧ b.inspected o ≤ o.remaining
  message : (Message.mk b).eq ⟨o⟩ = true ↔ Same b o
  echo : echoesMatch true ⟨b⟩ ⟨o⟩ = true ↔ Same b o
  request : requestEchoed ⟨o⟩ ⟨b⟩ = true ↔ Same b o
  response : allIdentical true (some ⟨o⟩) ⟨b⟩ = true ↔ Same b o

/-- The buffers have the same size, or the left-hand side is the shorter one and not a beginning of
the other. -/
structure Comparable (b o : Buffer) : Prop where
  left : b.leftOffset ≤ b.dynarray.size
  right : o.leftOffset ≤ o.dynarray.size
  sizes : b.size = o.size ∨ b.size < o.size ∧ ∃ k < b.size, b.byte k ≠ o.byte k

section

variable {b o : Buffer}

/-- What `==` answers is whether they are the same. -/
theorem Comparable.eq_iff (h : Comparable b o) : b.eq o = true ↔ Same b o := by
  rw [Buffer.eq_iff, Buffer.same_iff h.left h.right]
  rcases h.sizes with hsize | ⟨-, k, hb, hne⟩
  · exact (and_iff_right hsize).symm
  · exact ⟨fun he => absurd (he k hb) hne, fun he => absurd (he.2 k hb) hne⟩

/-- The other way round the answer is the same, although more bytes may be read for it. -/
theorem Comparable.symm_eq_iff (h : Comparable b o) : o.eq b = true ↔ Same o b := by
  rw [Buffer.eq_iff, Buffer.same_iff h.right h.left]
  rcases h.sizes with hsize | ⟨hlt, k, hb, hne⟩
  · exact (and_iff_right hsize.symm).symm
  · have hk := hb.trans hlt
    exact ⟨fun he => absurd (he k hk).symm hne, fun he => absurd (he.2 k hk).symm hne⟩

/-- What `==` inspects is in both buffers. -/
theorem Comparable.within (h : Comparable b o) :
    b.inspected o ≤ b.remaining ∧ b.inspected o ≤ o.remaining := by
  rw [← Buffer.size_of_le h.left, ← Buffer.size_of_le h.right, Buffer.inspected_eq]
  exact ⟨Nat.le_refl _, h.sizes.elim Nat.le_of_eq fun hlt => hlt.1.le⟩

/-- **Enough for `==` to compare the bytes.** -/
theorem Comparable.comparesBytes (h : Comparable b o) : ComparesBytes b o where
  eq_iff := h.eq_iff
  symm := by
    rw [Bool.eq_iff_iff, h.eq_iff, h.symm_eq_iff]
    exact ⟨Same.symm, Same.symm⟩
  within := h.within
  message := h.eq_iff
  echo := by
    rw [← h.eq_iff, echoesMatch, Message.ne, Message.eq]
    cases b.eq o <;> simp
  request := by
    rw [← h.eq_iff, requestEchoed, Message.ne, Message.eq]
    cases b.eq o <;> simp
  response := by
    rw [← h.eq_iff, allIdentical, Bool.true_and]
    rfl

/-- **And needed.** -/
theorem ComparesBytes.comparable (h : ComparesBytes b o) (hb : Reached b) (ho : Reached o) :
    Comparable b o := by
  obtain ⟨hwb, hwo⟩ := h.within
  rw [Buffer.inspected_eq] at hwb hwo
  -- a size that wraps is more than what there is before the end
  have hleft : b.leftOffset ≤ b.dynarray.size := by
    by_contra hlt
    have hpos := hb.size_pos (Nat.not_le.mp hlt)
    have hrem : b.remaining = 0 := Nat.sub_eq_zero_of_le (Nat.not_le.mp hlt).le
    omega
  have hright : o.leftOffset ≤ o.dynarray.size := by
    by_contra hlt
    have hpos := ho.size_pos (Nat.not_le.mp hlt)
    have hrem : o.remaining = 0 := Nat.sub_eq_zero_of_le (Nat.not_le.mp hlt).le
    have hzero : b.size = 0 := by omega
    -- an empty buffer is equal to every other one
    have hsame := h.eq_iff.mp (Buffer.eq_iff.mpr fun i hi => absurd hi (hzero ▸ Nat.not_lt_zero i))
    have hsize := hsame.1
    omega
  rw [← Buffer.size_of_le hright] at hwo
  refine ⟨hleft, hright, hwo.eq_or_lt.imp_right fun hlt => ⟨hlt, ?_⟩⟩
  by_contra hall
  have heq : ∀ i < b.size, b.byte i = o.byte i := fun i hi => by
    by_contra hne
    exact hall ⟨i, hi, hne⟩
  exact hlt.ne (h.eq_iff.mp (Buffer.eq_iff.mpr heq)).1

/-- **Equality of buffers.**  The comparisons compare what the buffers hold, and read no byte past
their ends, if and only if they have the same size, or the left-hand side is the shorter one and not
a beginning of the other. -/
theorem comparesBytes_iff (hb : Reached b) (ho : Reached o) :
    ComparesBytes b o ↔ Comparable b o :=
  ⟨fun h => h.comparable hb ho, Comparable.comparesBytes⟩

/-! ### In the broadcast and the client -/

/-- The comparison of an echo in the broadcast, which has what is past the end of the echo as a
function. -/
theorem Buffer.broadcast_eq (hb : b.leftOffset ≤ b.dynarray.size)
    (ho : o.leftOffset ≤ o.dynarray.size) :
    Broadcast.Buffer.eq b.bytes ⟨o.bytes, fun i => o.byte (o.size + i)⟩ = b.eq o := by
  have hat : ∀ i, Broadcast.Buffer.at ⟨o.bytes, fun i => o.byte (o.size + i)⟩ i = o.byte i := by
    intro i
    rw [Broadcast.Buffer.at, bytes_eq_map, ← size_of_le ho, List.length_map, List.length_range,
      List.getD_eq_getElem?_getD, List.getElem?_map]
    by_cases hi : i < o.size
    · rw [List.getElem?_range hi]
      rfl
    · rw [List.getElem?_eq_none (by rwa [List.length_range, ← Nat.not_lt])]
      exact congrArg o.byte (Nat.add_sub_cancel' (Nat.not_lt.mp hi))
  rw [Bool.eq_iff_iff, eq_iff, Broadcast.Buffer.eq, decide_eq_true_iff, bytes_eq_map b,
    ← size_of_le hb, List.length_map, List.length_range, List.map_inj_left]
  simp only [List.mem_range, hat]

/-- The comparison of responses in the client, which has the bytes past the end of the first one as
a list. -/
theorem Buffer.response_same {r first : Rpc.Response} {n : Nat}
    (hb : b.leftOffset ≤ b.dynarray.size) (ho : o.leftOffset ≤ o.dynarray.size)
    (hr : r.raw = b.bytes) (hf : first.raw = o.bytes) (hn : b.size ≤ o.size + n) :
    r.same first (Mem.load o.dynarray.bytes o.dynarray.size n) = b.eq o := by
  have hload : o.bytes ++ Mem.load o.dynarray.bytes o.dynarray.size n =
      (List.range (o.size + n)).map o.byte := by
    have hend : o.leftOffset + o.size = o.dynarray.size := by
      rw [size_of_le ho, remaining, Nat.add_sub_cancel' ho]
    rw [← hend, bytes, ← remaining, ← size_of_le ho, ← Mem.load_add]
    rfl
  rw [Bool.eq_iff_iff, eq_iff, Rpc.Response.same, decide_eq_true_iff, hr, hf, hload,
    bytes_eq_map b, ← size_of_le hb, List.length_map, List.length_range, ← List.map_take,
    List.take_range, Nat.min_eq_left hn, List.map_inj_left]
  simp only [List.mem_range]

end

/-! ### A shorter buffer -/

namespace Example

/-- A buffer of two bytes, `1` and `v`. -/
def pair (v : UInt8) : Buffer :=
  { maxSize := 2, dynarray := .new 0 2 fun k => if k = 0 then 1 else v }

theorem reached_pair (v : UInt8) : (pair v).Reached :=
  .init ⟨0, 2, fun k => if k = 0 then 1 else v, rfl⟩

/-- The first byte of a pair. -/
def short : Buffer := { pair 3 with dynarray := { (pair 3).dynarray with size := 1 } }

theorem reached_short : short.Reached :=
  .step (l := .resize 1) (reached_pair 3) trivial ⟨0, rfl⟩

end Example

/-- Two buffers of one size. -/
theorem comparesBytes_pairs : ComparesBytes (Example.pair 2) (Example.pair 3) :=
  (comparesBytes_iff (Example.reached_pair 2) (Example.reached_pair 3)).mpr
    ⟨by decide, by decide, .inl rfl⟩

/-- A buffer is equal to a longer one, which is not equal to it. -/
theorem short_eq_longer :
    Example.short.Reached ∧ (Example.pair 2).Reached ∧
      Example.short.eq (Example.pair 2) = true ∧ (Example.pair 2).eq Example.short = false ∧
      (Example.pair 2).inspected Example.short = 2 ∧ Example.short.size = 1 ∧
      ¬ ComparesBytes Example.short (Example.pair 2) := by
  refine ⟨Example.reached_short, Example.reached_pair 2, by decide, by decide, by decide,
    by decide, fun h => ?_⟩
  exact absurd (h.eq_iff.mp (by decide)).1 (by decide)

end Ubft.Buffers
