import Ubft.Support.Layout
import Ubft.Consensus.Messages

/-!
# Consensus — serialized states

The bytes of `internal/broadcast-commit.hpp` and `internal/serialized-state.hpp`.  A
`SerializedState` is built in a buffer its allocator does not initialise: `junk` is what the
memory held.  A commit takes a slot made for the longest proposal, and what follows a shorter one
in its slot is never written.

`parse_serialize` says that a state is read back whatever the memory held, `canonical_iff` when
its bytes do not depend on it.
-/

namespace Ubft.Consensus

open Layout

/-- A buffer just allocated, `DefaultInitAllocator` leaving in it what the memory held. -/
def allocate (junk : Nat → UInt8) (size : Nat) : Bytes := (List.range size).map junk

/-- The integer of `w` bytes at `off`. -/
def field (b : Bytes) (off w : Nat) : Nat := ofLe (Layout.read b off w)

@[simp] theorem length_allocate (junk : Nat → UInt8) (size : Nat) :
    (allocate junk size).length = size := by
  simp [allocate]

/-- A number that fits its field is read back. -/
theorem field_write {b : Bytes} {off w x : Nat} (h : off + w ≤ b.length) (hx : x < 256 ^ w) :
    field (write b off (le w x)) off w = x := by
  have hr : Layout.read (write b off (le w x)) off (le w x).length = le w x :=
    read_write (by rw [length_le]; exact h)
  rw [length_le] at hr
  rw [field, hr, ofLe_le, Nat.mod_eq_of_lt hx]

theorem write_le_within {b : Bytes} {lo hi : Nat} (off w x : Nat) (hl : lo ≤ off)
    (hh : off + w ≤ hi) (h : hi ≤ b.length) : Within lo hi b (write b off (le w x)) :=
  .write_of_le hl (by rw [length_le]; exact hh) h

theorem length_write_le {b : Bytes} (off w x : Nat) (h : off + w ≤ b.length) :
    (write b off (le w x)).length = b.length :=
  length_write (by rw [length_le]; exact h)

/-- A field outside of what was written. -/
theorem field_within {b b' : Bytes} {lo hi off w : Nat} (h : Within lo hi b b')
    (hr : off + w ≤ lo ∨ hi ≤ off) : field b' off w = field b off w := by
  rw [field, field, h.read hr]

/-- The integer between two parts of a buffer. -/
theorem field_append (xs ys : Bytes) {x : Nat} (hx : x < 2 ^ 64) :
    field (xs ++ (le 8 x ++ ys)) xs.length 8 = x := by
  have hr := read_append_right xs (le 8 x ++ ys) 0 8
  have hleft : Layout.read (le 8 x ++ ys) 0 8 = Layout.read (le 8 x) 0 8 :=
    read_append_left (by rw [length_le]) ys
  have hle := read_zero_length (le 8 x)
  rw [length_le] at hle
  rw [Nat.add_zero, hleft, hle] at hr
  rw [field, hr, ofLe_le, show 256 ^ 8 = 2 ^ 64 from rfl, Nat.mod_eq_of_lt hx]

/-! ### Commits -/

namespace BroadcastCommit

/-- `offsetof(Layout, proposal)`. -/
def proposalOffset : Nat := 24

/-- `size`. -/
def size (maxProposalSize : Nat) : Nat := proposalOffset + maxProposalSize

/-- The buffer, which the constructor trims to the proposal. -/
def buffer (c : BroadcastCommit) : Bytes :=
  le 8 c.view ++ le 8 c.inst ++ le 8 c.proposal.length ++ c.proposal

/-- What a `Layout` at `off` reads. -/
def ofBytes (b : Bytes) (off : Nat) : BroadcastCommit where
  view := field b off 8
  inst := field b (off + 8) 8
  proposal := Layout.read b (off + proposalOffset) (field b (off + 16) 8)

/-- The fields fit their types. -/
structure Encodable (c : BroadcastCommit) : Prop where
  view : c.view < 2 ^ 64
  inst : c.inst < 2 ^ 64
  proposal : c.proposal.length < 2 ^ 64

/-- A commit's buffer is as long as its proposal asks for. -/
theorem length_buffer (c : BroadcastCommit) : c.buffer.length = size c.proposal.length := by
  simp only [buffer, List.length_append, length_le, size, proposalOffset]

theorem field_view {c : BroadcastCommit} (h : c.Encodable) : field c.buffer 0 8 = c.view := by
  have := field_append [] (le 8 c.inst ++ (le 8 c.proposal.length ++ c.proposal)) h.view
  simpa [buffer] using this

theorem field_inst {c : BroadcastCommit} (h : c.Encodable) : field c.buffer 8 8 = c.inst := by
  have := field_append (le 8 c.view) (le 8 c.proposal.length ++ c.proposal) h.inst
  simpa [buffer] using this

theorem field_size {c : BroadcastCommit} (h : c.Encodable) :
    field c.buffer 16 8 = c.proposal.length := by
  have := field_append (le 8 c.view ++ le 8 c.inst) c.proposal h.proposal
  simpa [buffer] using this

/-- **A commit is read back from its buffer.** -/
theorem ofBytes_buffer {c : BroadcastCommit} (h : c.Encodable) : ofBytes c.buffer 0 = c := by
  have hproposal : Layout.read c.buffer 24 c.proposal.length = c.proposal := by
    have := read_append_right (le 8 c.view ++ le 8 c.inst ++ le 8 c.proposal.length) c.proposal
      0 c.proposal.length
    rw [read_zero_length] at this
    simpa [buffer, length_le] using this
  simp only [ofBytes, proposalOffset, Nat.zero_add, field_view h, field_inst h, field_size h,
    hproposal]

/-- What a `Layout` reads is the bytes of its slot. -/
theorem ofBytes_congr {b b' : Bytes} {off off' max : Nat}
    (h : ∀ k n, k + n ≤ size max →
      Layout.read b (off + k) n = Layout.read b' (off' + k) n)
    (hmax : field b' (off' + 16) 8 ≤ max) : ofBytes b off = ofBytes b' off' := by
  have hfield : ∀ k, k + 8 ≤ size max → field b (off + k) 8 = field b' (off' + k) 8 := by
    intro k hk
    rw [field, field, h k 8 hk]
  have hsize : field b (off + 16) 8 = field b' (off' + 16) 8 :=
    hfield 16 (by rw [size, proposalOffset]; omega)
  simp only [ofBytes, hsize]
  rw [h proposalOffset _ (by rw [size]; omega)]
  have hview := hfield 0 (by rw [size, proposalOffset]; omega)
  rw [Nat.add_zero, Nat.add_zero] at hview
  rw [hview, hfield 8 (by rw [size, proposalOffset]; omega)]

end BroadcastCommit

/-! ### States -/

namespace SerializedState

/-- `offsetof(Layout, commits)`. -/
def commitsOffset : Nat := 24

/-- `bufferSize`, of a state with this many commits. -/
def bufferSize (nbCommits maxProposalSize : Nat) : Nat :=
  commitsOffset + nbCommits * BroadcastCommit.size maxProposalSize

/-- Where `commit(index)` is. -/
def commitOffset (maxProposalSize index : Nat) : Nat :=
  commitsOffset + index * BroadcastCommit.size maxProposalSize

/-- The size of the longest proposal of a commit map. -/
def maxProposal (commits : OrdMap Nat BroadcastCommit) : Nat :=
  maxSize (commits.entries.map (·.2.proposal))

/-- The fields of the `Layout`. -/
def writeHeader (b : Bytes) (view nbCommits maxProposalSize : Nat) : Bytes :=
  write (write (write b 0 (le 8 view)) 8 (le 8 nbCommits)) 16 (le 8 maxProposalSize)

/-- The bytes the constructor leaves in the buffer it allocates. -/
def serialize (junk : Nat → UInt8) (view : Nat) (commits : OrdMap Nat BroadcastCommit) : Bytes :=
  fill (fun b off (c : BroadcastCommit) => write b off c.buffer)
    (commitOffset (maxProposal commits))
    (writeHeader (allocate junk (bufferSize commits.size (maxProposal commits))) view commits.size
      (maxProposal commits))
    0 (commits.entries.map (·.2))

/-- `commit(index)`. -/
def commitAt (b : Bytes) (index : Nat) : BroadcastCommit :=
  .ofBytes b (commitOffset (field b 16 8) index)

/-- What the accessors read. -/
def parse (b : Bytes) : SerializedState where
  view := field b 0 8
  maxProposalSize := field b 16 8
  commits := (List.range (field b 8 8)).map (commitAt b)

/-! ### The header -/

/-- The header is written in front of the commits. -/
theorem writeHeader_within {b : Bytes} (h : commitsOffset ≤ b.length) (view n max : Nat) :
    Within 0 commitsOffset b (writeHeader b view n max) := by
  have h₁ := write_le_within 0 8 view le_rfl (by decide) h
  have h₂ := write_le_within 8 8 n (Nat.zero_le _) (by decide) (h₁.length ▸ h)
  have h₃ := write_le_within 16 8 max (Nat.zero_le _) (by decide) ((h₁.trans h₂).length ▸ h)
  exact (h₁.trans h₂).trans h₃

/-- The header, whatever the buffer. -/
theorem take_writeHeader {b : Bytes} (h : commitsOffset ≤ b.length) (view n max : Nat) :
    (writeHeader b view n max).take commitsOffset = le 8 view ++ le 8 n ++ le 8 max := by
  have hlen : 24 ≤ b.length := h
  have hl₁ := length_write_le (b := b) 0 8 view (by omega)
  have hl₂ := length_write_le (b := write b 0 (le 8 view)) 8 8 n (by omega)
  refine List.ext_getElem? fun k => ?_
  rw [List.getElem?_take, writeHeader, getElem?_write (by rw [length_le]; omega),
    getElem?_write (by rw [length_le]; omega), getElem?_write (by rw [length_le]; omega)]
  simp only [length_le, commitsOffset]
  rcases Nat.lt_or_ge k 8 with h₁ | h₁
  · rw [List.append_assoc, List.getElem?_append_left (by rw [length_le]; exact h₁),
      if_pos (by omega), if_neg (by omega), if_neg (by omega), if_pos (by omega), Nat.sub_zero]
  · rcases Nat.lt_or_ge k 16 with h₂ | h₂
    · rw [List.append_assoc, List.getElem?_append_right (by rw [length_le]; exact h₁), length_le,
        List.getElem?_append_left (by rw [length_le]; omega), if_pos (by omega),
        if_neg (by omega), if_pos (by omega)]
    · rw [List.getElem?_append_right (by rw [List.length_append, length_le, length_le]; exact h₂),
        List.length_append, length_le, length_le]
      rcases Nat.lt_or_ge k 24 with h₃ | h₃
      · rw [if_pos h₃, if_pos (by omega)]
      · rw [if_neg (by omega), List.getElem?_eq_none (by rw [length_le]; omega)]

/-- The three fields of the header. -/
theorem field_header {b : Bytes} {view n max : Nat}
    (h : b.take commitsOffset = le 8 view ++ le 8 n ++ le 8 max) (hv : view < 2 ^ 64)
    (hn : n < 2 ^ 64) (hmax : max < 2 ^ 64) :
    field b 0 8 = view ∧ field b 8 8 = n ∧ field b 16 8 = max := by
  have hfield : ∀ off, off + 8 ≤ commitsOffset → field b off 8 = field (b.take commitsOffset) off 8 :=
    fun off hoff => congrArg ofLe (read_take hoff).symm
  refine ⟨?_, ?_, ?_⟩
  · rw [hfield 0 (by decide), h, List.append_assoc]
    exact field_append [] _ hv
  · rw [hfield 8 (by decide), h, List.append_assoc]
    have := field_append (le 8 view) (le 8 max) hn
    rwa [length_le] at this
  · rw [hfield 16 (by decide), h]
    have := field_append (le 8 view ++ le 8 n) [] hmax
    rwa [List.length_append, length_le, length_le, List.append_nil] at this

/-! ### The slots -/

/-- The maximum bounds each value. -/
theorem le_maxSize {values : List Bytes} {v : Bytes} (h : v ∈ values) :
    v.length ≤ maxSize values := by
  have hfold : ∀ (l : List Bytes) (n : Nat), n ≤ l.foldl (fun n v => max n v.length) n ∧
      ∀ v ∈ l, v.length ≤ l.foldl (fun n v => max n v.length) n := by
    intro l
    induction l with
    | nil => exact fun n => ⟨le_rfl, fun _ h => nomatch h⟩
    | cons w l ih =>
        intro n
        obtain ⟨h₁, h₂⟩ := ih (max n w.length)
        refine ⟨(le_max_left _ _).trans h₁, fun v hv => ?_⟩
        rcases List.mem_cons.mp hv with rfl | hv
        · exact (le_max_right _ _).trans h₁
        · exact h₂ v hv
  exact (hfold values 0).2 v h

theorem maxSize_le {values : List Bytes} {bound : Nat} (h : ∀ v ∈ values, v.length ≤ bound) :
    maxSize values ≤ bound := by
  have hfold : ∀ (l : List Bytes) (n : Nat), n ≤ bound → (∀ v ∈ l, v.length ≤ bound) →
      l.foldl (fun n v => max n v.length) n ≤ bound := by
    intro l
    induction l with
    | nil => exact fun n hn _ => hn
    | cons w l ih =>
        intro n hn hl
        exact ih _ (max_le hn (hl w List.mem_cons_self)) fun v hv =>
          hl v (List.mem_cons_of_mem _ hv)
  exact hfold values 0 (Nat.zero_le _) h

theorem proposal_le {commits : OrdMap Nat BroadcastCommit} {c : BroadcastCommit}
    (h : c ∈ commits.entries.map (·.2)) : c.proposal.length ≤ maxProposal commits := by
  obtain ⟨e, he, rfl⟩ := List.mem_map.mp h
  exact le_maxSize (List.mem_map_of_mem he)

/-- Every commit fits a slot of the largest proposal. -/
theorem length_buffer_le {commits : OrdMap Nat BroadcastCommit} {c : BroadcastCommit}
    (h : c ∈ commits.entries.map (·.2)) :
    c.buffer.length ≤ BroadcastCommit.size (maxProposal commits) := by
  rw [BroadcastCommit.length_buffer]
  exact Nat.add_le_add_left (proposal_le h) _

section Slots

variable (junk : Nat → UInt8) (view : Nat) (commits : OrdMap Nat BroadcastCommit)

/-- The buffer before the commits are copied. -/
def prepared : Bytes :=
  writeHeader (allocate junk (bufferSize commits.size (maxProposal commits))) view commits.size
    (maxProposal commits)

/-- The commits are filled in, slot by slot. -/
theorem serialize_eq : serialize junk view commits =
    fill (fun b off (c : BroadcastCommit) => write b off c.buffer)
      (commitOffset (maxProposal commits)) (prepared junk view commits) 0
      (commits.entries.map (·.2)) := rfl

theorem header_le : commitsOffset ≤
    (allocate junk (bufferSize commits.size (maxProposal commits))).length := by
  rw [length_allocate, bufferSize]
  exact Nat.le_add_right _ _

@[simp] theorem length_prepared : (prepared junk view commits).length =
    bufferSize commits.size (maxProposal commits) := by
  rw [prepared, (writeHeader_within (header_le junk commits) _ _ _).length, length_allocate]

/-- A slot ends where the next begins. -/
theorem commitOffset_succ (max i : Nat) :
    commitOffset max i + BroadcastCommit.size max ≤ commitOffset max (i + 1) := by
  rw [commitOffset, commitOffset, Nat.succ_mul, Nat.add_assoc]

/-- A commit is written in its own slot. -/
theorem put_within {c : BroadcastCommit} (h : c ∈ commits.entries.map (·.2)) (b : Bytes)
    (off : Nat) (hfit : off + BroadcastCommit.size (maxProposal commits) ≤ b.length) :
    Within off (off + BroadcastCommit.size (maxProposal commits)) b (write b off c.buffer) :=
  (Within.write ((Nat.add_le_add_left (length_buffer_le h) _).trans hfit)).mono le_rfl
    (Nat.add_le_add_left (length_buffer_le h) _)

/-- The last slot ends within the buffer. -/
theorem slots_fit : commitOffset (maxProposal commits) (0 + (commits.entries.map (·.2)).length) ≤
    (prepared junk view commits).length := by
  rw [length_prepared, Nat.zero_add, List.length_map]
  exact le_rfl

theorem serialize_within :
    Within (commitOffset (maxProposal commits) 0)
      (commitOffset (maxProposal commits) (0 + (commits.entries.map (·.2)).length))
      (prepared junk view commits) (serialize junk view commits) :=
  fill_within (commitOffset_succ _) (fun _ h => put_within commits h) (slots_fit junk view commits)

/-- The buffer is allocated to size. -/
theorem length_serialize : (serialize junk view commits).length =
    bufferSize commits.size (maxProposal commits) := by
  rw [(serialize_within junk view commits).length, length_prepared]

/-- The header is the view, how many commits there are, and the largest proposal. -/
theorem take_serialize : (serialize junk view commits).take commitsOffset =
    le 8 view ++ le 8 commits.size ++ le 8 (maxProposal commits) := by
  rw [← take_writeHeader (header_le junk commits)]
  refine List.ext_getElem? fun k => ?_
  rw [List.getElem?_take, List.getElem?_take]
  split
  · next hk =>
      exact (serialize_within junk view commits).outside k (.inl (by
        rw [commitOffset, Nat.zero_mul]; exact hk))
  · rfl

/-- The slot of a commit: the commit, and then what the memory held. -/
theorem read_slot {j : Nat} {c : BroadcastCommit} (hj : (commits.entries.map (·.2))[j]? = some c) :
    ∃ b, b.length = bufferSize commits.size (maxProposal commits) ∧
      (∀ off n, commitOffset (maxProposal commits) j ≤ off → commitsOffset ≤ off →
        Layout.read b off n = Layout.read (allocate junk b.length) off n) ∧
      ∀ off n, commitOffset (maxProposal commits) j ≤ off →
        off + n ≤ commitOffset (maxProposal commits) (j + 1) →
        Layout.read (serialize junk view commits) off n =
          Layout.read (write b (commitOffset (maxProposal commits) j) c.buffer) off n := by
  obtain ⟨b, hb, hread⟩ := fill_slot (commitOffset_succ (maxProposal commits))
    (fun _ h => put_within commits h) (slots_fit junk view commits) hj
  rw [Nat.zero_add] at hb hread
  have hlen : b.length = bufferSize commits.size (maxProposal commits) := by
    rw [hb.length, length_prepared]
  refine ⟨b, hlen, fun off n hj hoff => ?_, fun off n hoff hn => ?_⟩
  · rw [hb.read (.inr hj), prepared,
      (writeHeader_within (header_le junk commits) _ _ _).read (.inr hoff), hlen]
  · rw [serialize_eq, hread off n hoff]
    rwa [commitOffset, Nat.succ_mul, ← Nat.add_assoc] at hn

end Slots

section Parse

variable {view : Nat} {commits : OrdMap Nat BroadcastCommit} {c : BroadcastCommit} {j : Nat}

/-- Every slot is in the buffer. -/
theorem slot_fits (hj : (commits.entries.map (·.2))[j]? = some c) :
    commitOffset (maxProposal commits) (j + 1) ≤
      bufferSize commits.size (maxProposal commits) := by
  have hlt : j < (commits.entries.map (·.2)).length :=
    (List.getElem?_eq_some_iff.mp hj).choose
  rw [List.length_map] at hlt
  exact Nat.add_le_add_left (Nat.mul_le_mul_right _ hlt) _

theorem maxProposal_le_bufferSize (commits : OrdMap Nat BroadcastCommit) :
    maxProposal commits ≤ bufferSize commits.size (maxProposal commits) := by
  rw [bufferSize, OrdMap.size]
  cases hc : commits.entries with
  | nil => simp [maxProposal, hc, maxSize]
  | cons e l =>
      have hle : maxProposal commits ≤ BroadcastCommit.size (maxProposal commits) :=
        Nat.le_add_left _ _
      exact (hle.trans (Nat.le_mul_of_pos_left _ (Nat.succ_pos _))).trans (Nat.le_add_left _ _)

theorem size_le_bufferSize (commits : OrdMap Nat BroadcastCommit) :
    commits.size ≤ bufferSize commits.size (maxProposal commits) :=
  (Nat.le_mul_of_pos_right _ (Nat.lt_add_right _ (by decide))).trans (Nat.le_add_left _ _)

/-- The fields of the header, when the size of the state fits `size_t`. -/
theorem fields_serialize (junk : Nat → UInt8) (hv : view < 2 ^ 64)
    (hs : bufferSize commits.size (maxProposal commits) < 2 ^ 64) :
    field (serialize junk view commits) 0 8 = view ∧
      field (serialize junk view commits) 8 8 = commits.size ∧
      field (serialize junk view commits) 16 8 = maxProposal commits :=
  field_header (take_serialize junk view commits) hv
    ((size_le_bufferSize commits).trans_lt hs) ((maxProposal_le_bufferSize commits).trans_lt hs)

/-- **The `j`-th commit is read back.** -/
theorem commitAt_serialize (junk : Nat → UInt8) (hv : view < 2 ^ 64)
    (hs : bufferSize commits.size (maxProposal commits) < 2 ^ 64)
    (hj : (commits.entries.map (·.2))[j]? = some c) (hc : c.Encodable) :
    commitAt (serialize junk view commits) j = c := by
  have hmem := List.mem_of_getElem? hj
  obtain ⟨b, hlen, -, hread⟩ := read_slot junk view commits hj
  have hfit : commitOffset (maxProposal commits) j + c.buffer.length ≤ b.length := by
    rw [hlen]
    exact ((Nat.add_le_add_left (length_buffer_le hmem) _).trans
      (commitOffset_succ _ _)).trans (slot_fits hj)
  rw [commitAt, (fields_serialize junk hv hs).2.2, ← BroadcastCommit.ofBytes_buffer hc]
  refine BroadcastCommit.ofBytes_congr (fun k n hk => ?_) (BroadcastCommit.field_size hc).le
  rw [← BroadcastCommit.length_buffer] at hk
  have hend : commitOffset (maxProposal commits) j + k + n ≤
      commitOffset (maxProposal commits) (j + 1) := by
    have := (Nat.add_le_add_left (length_buffer_le hmem) _).trans
      (commitOffset_succ (maxProposal commits) j)
    omega
  rw [Nat.zero_add, hread _ _ (Nat.le_add_right _ _) hend, read_write_part hfit hk]

/-- **Reading back.**  What the accessors read in the bytes of a state is the state, whatever the
memory held. -/
theorem parse_serialize (junk : Nat → UInt8) (hv : view < 2 ^ 64)
    (hs : bufferSize commits.size (maxProposal commits) < 2 ^ 64)
    (hc : ∀ e ∈ commits.entries, e.2.Encodable) :
    parse (serialize junk view commits) = .of view commits := by
  obtain ⟨hview, hsize, hmax⟩ := fields_serialize junk hv hs
  have hcommits : (List.range commits.size).map (commitAt (serialize junk view commits)) =
      commits.entries.map (·.2) := by
    refine List.ext_getElem? fun j => ?_
    rw [List.getElem?_map]
    rcases Nat.lt_or_ge j commits.size with hj | hj
    · have hj' : j < (commits.entries.map (·.2)).length := by rwa [List.length_map]
      have hget := List.getElem?_eq_getElem hj'
      obtain ⟨e, he, hec⟩ := List.mem_map.mp (List.mem_of_getElem? hget)
      rw [List.getElem?_range hj, hget, Option.map_some,
        commitAt_serialize junk hv hs hget (hec ▸ hc e he)]
    · rw [List.getElem?_eq_none (by rwa [List.length_range]),
        List.getElem?_eq_none (by rwa [List.length_map]), Option.map_none]
  simp only [parse, hview, hsize, hmax, hcommits]
  rfl

end Parse

/-! ### What the memory held -/

/-- Slots without room to spare: the bytes are those of the fields and of the commits. -/
theorem serialize_of_exact (junk : Nat → UInt8) (view : Nat) {commits : OrdMap Nat BroadcastCommit}
    (h : ∀ e ∈ commits.entries, e.2.proposal.length = maxProposal commits) :
    serialize junk view commits =
      le 8 view ++ le 8 commits.size ++ le 8 (maxProposal commits) ++
        (commits.entries.map (·.2)).flatMap (·.buffer) := by
  have hwidth : ∀ c ∈ commits.entries.map (·.2),
      c.buffer.length = BroadcastCommit.size (maxProposal commits) := by
    intro c hc
    obtain ⟨e, he, rfl⟩ := List.mem_map.mp hc
    rw [BroadcastCommit.length_buffer, h e he]
  have hend : commitsOffset + (0 + (commits.entries.map (·.2)).length) *
      BroadcastCommit.size (maxProposal commits) = (prepared junk view commits).length := by
    rw [length_prepared, Nat.zero_add, List.length_map]
    rfl
  have hfill := fill_exact commitsOffset (i := 0) (b := prepared junk view commits)
    hwidth hend.le
  rw [hend, List.drop_length, List.append_nil, Nat.zero_mul] at hfill
  rw [serialize_eq, ← take_writeHeader (header_le junk commits)]
  exact hfill

/-- The byte after a commit that does not fill its slot is what the memory held. -/
theorem serialize_spare (junk : Nat → UInt8) (view : Nat) {commits : OrdMap Nat BroadcastCommit}
    {j : Nat} {c : BroadcastCommit} (hj : (commits.entries.map (·.2))[j]? = some c)
    (hlt : c.proposal.length < maxProposal commits) :
    Layout.read (serialize junk view commits)
        (commitOffset (maxProposal commits) j + c.buffer.length) 1 =
      [junk (commitOffset (maxProposal commits) j + c.buffer.length)] := by
  obtain ⟨b, hlen, hjunk, hread⟩ := read_slot junk view commits hj
  have hin : c.buffer.length + 1 ≤ BroadcastCommit.size (maxProposal commits) := by
    rw [BroadcastCommit.length_buffer]
    exact Nat.add_le_add_left hlt _
  have hend := commitOffset_succ (maxProposal commits) j
  have hfit := slot_fits hj
  have hoff : commitsOffset ≤ commitOffset (maxProposal commits) j := Nat.le_add_right _ _
  have hout : Within _ _ b (write b (commitOffset (maxProposal commits) j) c.buffer) :=
    Within.write (by omega)
  rw [hread _ _ (Nat.le_add_right _ _) (by omega), hout.read (.inr le_rfl),
    hjunk _ _ (Nat.le_add_right _ _) (by omega), Layout.read, allocate, ← List.map_drop,
    ← List.map_take]
  have hrange : ((List.range b.length).drop (commitOffset (maxProposal commits) j +
      c.buffer.length)).take 1 = [commitOffset (maxProposal commits) j + c.buffer.length] := by
    refine List.ext_getElem? fun k => ?_
    rw [List.getElem?_take]
    cases k with
    | zero => rw [if_pos Nat.one_pos, List.getElem?_drop, List.getElem?_range (by omega)]; rfl
    | succ k => rw [if_neg (by omega)]; rfl
  rw [hrange, List.map_singleton]

/-- **Canonical states.**  The bytes of a state are a function of the view and the commits exactly
when the proposals committed have one size. -/
theorem canonical_iff (view : Nat) (commits : OrdMap Nat BroadcastCommit) :
    (∀ junk junk', serialize junk view commits = serialize junk' view commits) ↔
      ∀ e ∈ commits.entries, ∀ e' ∈ commits.entries,
        e.2.proposal.length = e'.2.proposal.length := by
  constructor
  · intro h
    have hexact : ∀ e ∈ commits.entries, e.2.proposal.length = maxProposal commits := by
      intro e he
      have hmem : e.2 ∈ commits.entries.map (·.2) := List.mem_map_of_mem he
      by_contra hne
      have hlt := lt_of_le_of_ne (proposal_le hmem) hne
      obtain ⟨j, hj⟩ := List.mem_iff_getElem?.mp hmem
      -- two memories that differ in the byte after this commit
      have hzero := serialize_spare (fun _ => 0) view hj hlt
      rw [h _ (fun _ => 1), serialize_spare _ view hj hlt] at hzero
      exact absurd hzero (by decide)
    exact fun e he e' he' => (hexact e he).trans (hexact e' he').symm
  · intro h junk junk'
    have hexact : ∀ e ∈ commits.entries, e.2.proposal.length = maxProposal commits := by
      intro e he
      refine le_antisymm (proposal_le (List.mem_map_of_mem he)) (maxSize_le fun v hv => ?_)
      obtain ⟨e', he', rfl⟩ := List.mem_map.mp hv
      exact (h e' he' e he).le
    rw [serialize_of_exact junk view hexact, serialize_of_exact junk' view hexact]

/-- An empty batch and a batch of one byte, committed in one view. -/
theorem serialize_not_canonical : ∃ (view : Nat) (commits : OrdMap Nat BroadcastCommit),
    ¬ ∀ junk junk', serialize junk view commits = serialize junk' view commits := by
  refine ⟨0, ((OrdMap.empty.insert 0 ⟨0, 0, []⟩).insert 1 ⟨0, 1, [7]⟩), fun h => ?_⟩
  exact absurd (h (fun _ => 0) (fun _ => 1)) (by decide +kernel)

end SerializedState

end Ubft.Consensus
