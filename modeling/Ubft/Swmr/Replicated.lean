import Ubft.Swmr.Reader

/-!
# Swmr — the replicated register

`replicated-swmr/writer.hpp` and `replicated-swmr/reader.hpp`: each register is kept by `n` hosts.
A WRITE is given to the writer of every host; one that is busy keeps the incarnation and a pointer
to the one buffer of the register, from which it copies the value when it is done.  A READ asks
every host, and returns the value with the greatest incarnation once enough of them answered.

A host is a regular register (`Cell.Answers`): a READ of it returns a WRITE of it begun before it
returns, and not older than the last one completed before it.
-/

namespace Ubft.Swmr.Replicated

/-- What the writer or the readers throw. -/
inductive Error where
  /-- "Incarnation numbers must be monotonic; new: {}, previous: {}." -/
  | notMonotonic
  /-- "Custom incarnation numbers were disabled in the constructor." -/
  | customDisabled
  /-- "Cannot write before the completion of the previous WRITE." -/
  | notCompleted
  /-- "No outstanting write to {}." -/
  | noOutstandingWrite (index : Nat)
  /-- A `swmr::Writer` throws. -/
  | subWriter
  /-- The readers throw. -/
  | reader (e : Readers.Error)
  /-- Nothing is thrown: no host answers so. -/
  | answer
  deriving DecidableEq, Repr

/-! ### The writer -/

/-- `Writer::Register`.  `filled` tells that the buffer was filled after the last WRITE. -/
structure Register where
  buffer : Bytes
  outstandingWrite : Bool := false
  incarnation : UInt32 := 0
  filled : Bool := false

/-- The incarnation of a `write`. -/
def Register.incarnate (allowCustom : Bool) (r : Register) :
    Option UInt32 → Except Error UInt32
  | none => .ok (r.incarnation + 1)
  | some custom =>
    if allowCustom then
      if custom ≤ r.incarnation then .error .notMonotonic else .ok custom
    else .error .customDisabled

/-- A register as one host and its `ManagedWriter` have it: the entry of `to_write`, and the
register of the `swmr::Writer`.  `written` is the history of the WRITEs of the host, the initial
value first, and `completed` counts those that completed. -/
structure Cell where
  toWrite : Option UInt32 := none
  register : Swmr.Register
  written : List Subslot
  completed : Nat := 1

namespace Cell

/-- What the constructors leave, the value having `size` bytes. -/
def start (size : Nat) : Cell where
  register :=
    { incarnation := 2
      content := List.replicate size 0 }
  written := [⟨0, List.replicate size 0⟩]

/-- The `write` of the `swmr::Writer` throws. -/
def throws (allowCustom : Bool) (c : Cell) : Bool :=
  match c.toWrite with
  | none => false
  | some inc =>
    !c.register.scheduled && !(c.register.incarnate allowCustom (some inc)).isOk

/-- `pushToWriter`. -/
def push (allowCustom : Bool) (c : Cell) (buffer : Bytes) : Cell :=
  match c.toWrite with
  | none => c
  | some inc =>
    if c.register.scheduled then c
    else
      match c.register.incarnate allowCustom (some inc) with
      | .error _ => c
      | .ok r =>
        { toWrite := none
          register := { r.changeRemoteSubslot with
            content := buffer
            scheduled := true }
          written := c.written ++ [⟨inc.toNat, buffer⟩]
          completed := c.completed }

/-- The `swmr::Writer` polls the completion of its WRITE. -/
def complete (c : Cell) : Cell :=
  if c.register.scheduled then
    { c with
      register := { c.register with scheduled := false }
      completed := c.completed + 1 }
  else c

/-- `ManagedWriter::completed`. -/
def isCompleted (c : Cell) : Bool := c.toWrite.isNone && !c.register.scheduled

/-- The incarnation of the last WRITE that completed. -/
def acknowledged (c : Cell) : Nat := (c.written[c.completed - 1]?).elim 0 Subslot.incarnation

/-- What a READ may find in the memory of the host, the last WRITE completed before it having the
incarnation `low`: in memory the incarnations are two ahead. -/
def Answers (c : Cell) (low : Nat) (found : Subslot) : Prop :=
  ∃ w ∈ c.written, low ≤ w.incarnation ∧ found = ⟨w.incarnation + 2, w.value⟩

instance (c : Cell) (low : Nat) (found : Subslot) : Decidable (c.Answers low found) :=
  inferInstanceAs (Decidable (∃ w ∈ c.written, _))

end Cell

/-! ### The replicated register -/

/-- A READ begun: its register, the incarnations of the WRITEs that were known to be completed,
and that of the last WRITE completed by each host. -/
structure Reading where
  index : Nat
  before : List Nat
  low : Nat → Nat

/-- The registers are `0, …, nb - 1`. -/
structure Config where
  nb : Nat
  size : Nat
  /-- Also of the `swmr::Writer`s. -/
  allowCustom : Bool
  /-- The local buffers of the reader of each host. -/
  pools : List (List Readers.JobHandle)
  nodup : ∀ pool ∈ pools, pool.Nodup

/-- The number of hosts: `writers.size()`, and `readers.size()`. -/
def Config.n (cfg : Config) : Nat := cfg.pools.length

/-- `(writers.size() + 1) / 2`, and `(readers.size() + 1) / 2`. -/
def Config.quorum (cfg : Config) : Nat := (cfg.n + 1) / 2

/-- The history: the READs begun, by their handles `0, 1, …`, the WRITEs of each register and the
incarnations for which `completed` returned true. -/
structure State where
  registers : Nat → Register
  cells : Nat → Nat → Cell
  reader : Readers.ReplicatedReader
  readings : List Reading := []
  writes : Nat → List Subslot
  confirmed : Nat → List Nat := fun _ => []

namespace State

variable (cfg : Config)

/-- `getSlot`, which refuses as long as the last WRITE did not complete; the value is filled
in. -/
def fill (s : State) (i : Nat) (value : Bytes) : State :=
  if (s.registers i).outstandingWrite then s
  else { s with
    registers := Function.update s.registers i { s.registers i with
      buffer := value
      filled := true } }

/-- `pushToWriter` of some hosts.  An entry does not depend on the others. -/
def pushToWriter (s : State) (cells : Nat → Nat → Cell) : Except Error State :=
  if ∃ h < cfg.n, ∃ i < cfg.nb, (cells h i).throws cfg.allowCustom then .error .subWriter
  else .ok { s with
    cells := fun h i => (cells h i).push cfg.allowCustom (s.registers i).buffer }

/-- A WRITE to the register `i` goes to every host. -/
def write (s : State) (i : Nat) (custom : Option UInt32) : Except Error State :=
  if (s.registers i).outstandingWrite then .error .notCompleted
  else do
    let incarnation ← (s.registers i).incarnate cfg.allowCustom custom
    let s := { s with
      registers := Function.update s.registers i { s.registers i with
        incarnation
        filled := false
        outstandingWrite := true }
      writes := Function.update s.writes i
        (s.writes i ++ [Subslot.mk incarnation.toNat (s.registers i).buffer]) }
    s.pushToWriter cfg fun h j =>
      if j = i then { s.cells h i with toWrite := some incarnation } else s.cells h j

/-- The writer of host `h` ticks; the WRITEs of the registers `done` are found to be
completed. -/
def tickWriter (s : State) (h : Nat) (done : List Nat) : Except Error State :=
  s.pushToWriter cfg fun h' i =>
    if h' = h ∧ i ∈ done then (s.cells h' i).complete else s.cells h' i

/-- The hosts that completed. -/
def completedHosts (s : State) (i : Nat) : Nat :=
  (List.range cfg.n).countP fun h => (s.cells h i).isCompleted

/-- A quorum of hosts confirmed the last WRITE. -/
def completed (s : State) (i : Nat) : Except Error State :=
  if (s.registers i).outstandingWrite = false then .error (.noOutstandingWrite i)
  else if cfg.quorum ≤ s.completedHosts cfg i then
    .ok { s with
      registers := Function.update s.registers i { s.registers i with outstandingWrite := false }
      confirmed := Function.update s.confirmed i
        ((s.registers i).incarnation.toNat :: s.confirmed i) }
  else .ok s

/-- `read`.  `stale` is what the hosts' `pushToReader` reads. -/
def read (s : State) (i : Nat) (stale : List (List Readers.Handle)) : State :=
  { s with
    reader := (s.reader.read i stale).1
    readings := s.readings ++
      [{ index := i
         before := s.confirmed i
         low := fun h => (s.cells h i).acknowledged }] }

/-- The reader changes, unless it throws. -/
def withReader (s : State) : Except Readers.Error Readers.ReplicatedReader → Except Error State
  | .error e => .error (.reader e)
  | .ok reader => .ok { s with reader }

/-- `poll`, whose result is kept in the history of the reader. -/
def poll (s : State) (handle : Readers.Handle) (freed : List Readers.JobHandle) :
    Except Error State :=
  s.withReader ((s.reader.poll handle freed).map Prod.fst)

/-- The READs of host `h` that complete find what they may find.  The outstanding READs complete
in order. -/
def Answered (s : State) (h : Nat) (m : Readers.ManagedReader) (wcs : List Readers.Completion) :
    Prop :=
  ∀ x ∈ m.reader.outstandingReads.zip wcs,
    ∀ found ∈ Swmr.State.bestSubslot none [x.2.subslots.1, x.2.subslots.2],
      ∀ e ∈ m.scheduledReads, e.2 = x.1.1 → ∀ rd ∈ s.readings[e.1]?,
        (s.cells h x.1.2).Answers (rd.low h) found

instance (s : State) (h : Nat) (m : Readers.ManagedReader) (wcs : List Readers.Completion) :
    Decidable (s.Answered h m wcs) :=
  inferInstanceAs (Decidable (∀ x ∈ m.reader.outstandingReads.zip wcs, _))

/-- The reader ticks.  `wcs` are the completions that the hosts' readers poll. -/
def tickReader (s : State) (wcs : List (List Readers.Completion))
    (stale : List (List Readers.Handle)) : Except Error State :=
  if ∀ h < cfg.n, ∀ m ∈ s.reader.readers[h]?, s.Answered h m (wcs.getD h []) then
    s.withReader (s.reader.tick wcs stale)
  else .error .answer

/-- Registers of zeros, at every host. -/
def start : State where
  registers _ := { buffer := List.replicate cfg.size 0 }
  cells _ _ := .start cfg.size
  reader :=
    { readers := cfg.pools.map fun pool =>
      { reader :=
        { buffers := pool
          bufferPool := pool } } }
  writes _ := [⟨0, List.replicate cfg.size 0⟩]

end State

/-- The calls of the writer and of the reader, and the completions at the hosts. -/
inductive Label where
  | fill (i : Nat) (value : Bytes)
  | write (i : Nat) (custom : Option UInt32)
  | tickWriter (h : Nat) (done : List Nat)
  | completed (i : Nat)
  | read (i : Nat) (stale : List (List Readers.Handle))
  | poll (handle : Readers.Handle) (freed : List Readers.JobHandle)
  | tickReader (wcs : List (List Readers.Completion)) (stale : List (List Readers.Handle))

namespace State

/-- One step; there are registers below `nb` only. -/
def next (cfg : Config) (s : State) : Label → Except Error State
  | .fill i value => .ok (if i < cfg.nb then s.fill i value else s)
  | .write i custom => if i < cfg.nb then s.write cfg i custom else .ok s
  | .tickWriter h done => s.tickWriter cfg h done
  | .completed i => if i < cfg.nb then s.completed cfg i else .ok s
  | .read i stale => .ok (if i < cfg.nb then s.read i stale else s)
  | .poll handle freed => s.poll handle freed
  | .tickReader wcs stale => s.tickReader cfg wcs stale

/-- Nothing was written or read. -/
def Init (cfg : Config) (s : State) : Prop := s = start cfg

/-- A step that throws nothing. -/
def Step (cfg : Config) (s : State) (l : Label) (s' : State) : Prop := s.next cfg l = .ok s'

/-- No register is filled when the writer ticks. -/
def Written (cfg : Config) (s : State) : Label → Prop
  | .tickWriter _ _ => ∀ i < cfg.nb, (s.registers i).filled = false
  | _ => True

instance (cfg : Config) (s : State) : (l : Label) → Decidable (s.Written cfg l)
  | .tickWriter _ _ => inferInstanceAs (Decidable (∀ i < cfg.nb, _))
  | .fill _ _ | .write _ _ | .completed _ | .read _ _ | .poll _ _ | .tickReader _ _ =>
    inferInstanceAs (Decidable True)

/-- What the readers read in the elements just erased is what they held. -/
def Intact (s : State) : Label → Prop
  | .read i stale => s.reader.Intact (.read i stale)
  | .poll handle freed => s.reader.Intact (.poll handle freed)
  | .tickReader wcs stale => s.reader.Intact (.tick wcs stale)
  | _ => True

instance (s : State) : DecidablePred s.Intact
  | .read i stale => inferInstanceAs (Decidable (s.reader.Intact (.read i stale)))
  | .poll handle freed => inferInstanceAs (Decidable (s.reader.Intact (.poll handle freed)))
  | .tickReader wcs stale => inferInstanceAs (Decidable (s.reader.Intact (.tick wcs stale)))
  | .fill _ _ | .write _ _ | .tickWriter _ _ | .completed _ => inferInstanceAs (Decidable True)

end State

end Ubft.Swmr.Replicated
