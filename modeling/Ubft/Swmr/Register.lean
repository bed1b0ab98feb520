import Ubft.Support.Bytes
import Ubft.Support.Runs

/-!
# Swmr — the register of one host

`swmr/writer.hpp` and `swmr/reader.hpp`, for one register: two subslots in the memory of a host,
which the writer fills in turn.  A WRITE changes its subslot in several steps; in between the hash
of the subslot validates nothing (`torn`).  A READ looks at the two subslots at two different
times, in any order, and returns the one with the greatest incarnation.

The constructor WRITEs twice, so that the incarnations in memory are two ahead of those of the
callers.  Incarnations have 32 bits.
-/

namespace Ubft.Swmr

/-- What a writer or a reader throws. -/
inductive Error where
  /-- "Incarnation numbers must be monotonic; new: {}, previous: {}." -/
  | notMonotonic (new previous : Nat)
  /-- "Custom incarnation numbers were disabled in the constructor." -/
  | customDisabled
  /-- "Byzantine behavior detected, we should handle it." -/
  | byzantine
  deriving DecidableEq, Repr

/-- The incarnation of the `Header`, and the value after it. -/
structure Subslot where
  incarnation : Nat
  value : Bytes
  deriving DecidableEq, Repr

/-- `Writer::Register`, with what its local buffer holds. -/
structure Register where
  incarnation : Nat := 0
  content : Bytes := []
  scheduled : Bool := false
  remoteSubslot : Nat := 0
  deriving DecidableEq, Repr

namespace Register

/-- On 32 bits. -/
def incrementIncarnation (r : Register) : Register :=
  { r with incarnation := (r.incarnation + 1) % 2 ^ 32 }

/-- A custom incarnation, moved by the two that the initial WRITEs took. -/
def setIncarnation (r : Register) (custom : UInt32) : Except Error Register :=
  let real := (custom.toNat + 2) % 2 ^ 32
  if real ≤ r.incarnation then
    .error (.notMonotonic custom.toNat ((r.incarnation + 2 ^ 32 - 2) % 2 ^ 32))
  else .ok { r with incarnation := real }

/-- The incarnation of a `write`. -/
def incarnate (allowCustom : Bool) (r : Register) : Option UInt32 → Except Error Register
  | none => .ok r.incrementIncarnation
  | some custom => if allowCustom then r.setIncarnation custom else .error .customDisabled

/-- The next WRITE goes to the other subslot. -/
def changeRemoteSubslot (r : Register) : Register :=
  { r with remoteSubslot := (r.remoteSubslot + 1) % 2 }

/-- A custom incarnation does not wrap: it would be refused. -/
theorem setIncarnation_cases {r r' : Register} {custom : UInt32} (hr : 1 ≤ r.incarnation)
    (h : r.setIncarnation custom = .ok r') :
    custom.toNat + 2 < 2 ^ 32 ∧ r.incarnation < custom.toNat + 2 ∧
      r' = { r with incarnation := custom.toNat + 2 } := by
  unfold setIncarnation at h
  simp only at h
  split at h
  · cases h
  · next hlt =>
      have hc : custom.toNat < 2 ^ 32 := custom.toNat_lt
      have hw : custom.toNat + 2 < 2 ^ 32 := by
        by_contra hge
        rw [Nat.mod_eq_sub_mod (Nat.le_of_not_lt hge), Nat.mod_eq_of_lt (by omega)] at hlt
        omega
      rw [Nat.mod_eq_of_lt hw] at h hlt
      cases h
      exact ⟨hw, Nat.lt_of_not_le hlt, rfl⟩

end Register

/-- How far the last WRITE is: completed; waiting for the cooldown; on its way; partly in memory;
wholly in memory, which the writer does not know yet. -/
inductive Stage where
  | idle | queued | posted | torn | landed
  deriving DecidableEq, Repr

/-- A READ.  `samples` are the subslots as it found them, `none` inside when their hash is wrong.
The last three fields are history: the number of WRITEs completed and the incarnations returned
when it began, and the number of WRITEs that were in flight since it was posted. -/
structure Read where
  posted : Bool := false
  samples : Nat → Option (Option Subslot) := fun _ => none
  since : Nat
  earlier : List Nat
  overlaps : Nat := 0

/-- Both subslots were looked at. -/
def Read.sampled (rd : Read) : Bool := (rd.samples 0).isSome && (rd.samples 1).isSome

/-- What a READ returned; `issued` is the number of WRITEs begun before it returned. -/
structure Result where
  incarnation : Nat
  value : Bytes
  since : Nat
  earlier : List Nat
  issued : Nat
  deriving DecidableEq, Repr

/-- The writer, the memory of the host and the READs.  `written` is the history of the WRITEs,
each with the incarnation that the caller means, two ahead; `landed` and `completed` count
them. -/
structure State where
  register : Register := {}
  stage : Stage := .idle
  memory : Nat → Option Subslot := fun _ => none
  reads : List Read := []
  written : List Subslot := []
  landed : Nat := 0
  completed : Nat := 0
  results : List Result := []

namespace State

/-- The `n`-th WRITE. -/
def nth (s : State) (n : Nat) : Option Subslot := s.written[n - 1]?

/-- A WRITE is in flight. -/
def inFlight (s : State) : Bool := s.stage = .posted || s.stage = .torn

/-! ### The writer -/

/-- What the caller means by a default WRITE: one more than the last. -/
def nextIncarnation (s : State) : Nat := (s.written.getLast?.elim 0 Subslot.incarnation) + 1

/-- `getSlot`, which refuses as long as the last WRITE did not complete, and `write`. -/
def write (allowCustom : Bool) (s : State) (value : Bytes) (custom : Option UInt32) :
    Except Error State :=
  if s.register.scheduled then .ok s
  else do
    let register ← s.register.incarnate allowCustom custom
    return { s with
      register := { register.changeRemoteSubslot with
        content := value
        scheduled := true }
      stage := .queued
      written := s.written ++
        [⟨custom.elim s.nextIncarnation (fun c => c.toNat + 2), value⟩] }

/-- Another WRITE is in flight. -/
def overlap (rd : Read) : Read :=
  if rd.posted && !rd.sampled then { rd with overlaps := rd.overlaps + 1 } else rd

/-- `pushToQp`, once the cooldown is over. -/
def post (s : State) : State :=
  if s.stage = .queued then { s with stage := .posted, reads := s.reads.map overlap } else s

/-- The WRITE begins to land: the subslot holds no one value. -/
def tear (s : State) : State :=
  if s.stage = .posted then
    { s with
      stage := .torn
      memory := Function.update s.memory s.register.remoteSubslot none }
  else s

/-- The WRITE has landed. -/
def land (s : State) : State :=
  if s.stage = .torn then
    { s with
      stage := .landed
      memory := Function.update s.memory s.register.remoteSubslot
        (some ⟨s.register.incarnation, s.register.content⟩)
      landed := s.landed + 1 }
  else s

/-- `pollCompletion` of the writer. -/
def complete (s : State) : State :=
  if s.stage = .landed then
    { s with
      stage := .idle
      register := { s.register with scheduled := false }
      completed := s.completed + 1 }
  else s

/-! ### The readers -/

/-- `read`, up to `queued_reads`. -/
def read (s : State) : State :=
  { s with
    reads := s.reads ++
      [{ since := s.completed
         earlier := s.results.map Result.incarnation }] }

/-- `pushToQp` of the reader. -/
def postRead (s : State) (k : Nat) : State :=
  match s.reads[k]? with
  | none => s
  | some rd =>
    if rd.posted then s
    else { s with
      reads := s.reads.set k { rd with
        posted := true
        overlaps := if s.inFlight then 1 else 0 } }

/-- A READ looks at a subslot. -/
def sample (s : State) (k i : Nat) : State :=
  match s.reads[k]? with
  | none => s
  | some rd =>
    if rd.posted && (rd.samples i).isNone then
      { s with
        reads := s.reads.set k { rd with
          samples := Function.update rd.samples i (some (s.memory i)) } }
    else s

/-- The loop of `pollCompletion` over the subslots. -/
def bestSubslot (best : Option Subslot) : List (Option Subslot) → Option Subslot
  | [] => best
  | none :: xs => bestSubslot best xs
  | some x :: xs =>
    bestSubslot (if ∀ b ∈ best, b.incarnation < x.incarnation then some x else best) xs

/-- `pollCompletion` of the reader; `late` tells that the READ took longer than the cooldown, in
which case it is scheduled again when no subslot is good. -/
def pollRead (s : State) (k : Nat) (late : Bool) : Except Error State :=
  match s.reads[k]? with
  | none => .ok s
  | some rd =>
    match rd.samples 0, rd.samples 1 with
    | some x, some y =>
      match bestSubslot none [x, y] with
      | some b =>
        .ok { s with
          reads := s.reads.eraseIdx k
          results := s.results ++ [⟨(b.incarnation + 2 ^ 32 - 2) % 2 ^ 32, b.value, rd.since,
            rd.earlier, s.written.length⟩] }
      | none =>
        if late then
          .ok { s with
            reads := s.reads.set k { rd with
              posted := false
              samples := fun _ => none } }
        else .error .byzantine
    | _, _ => .ok s

end State

/-! ### The machine -/

/-- The calls of the writer and of the reader, and what the network does. -/
inductive Label where
  | write (value : Bytes) (custom : Option UInt32)
  | post
  | tear
  | land
  | complete
  | read
  | postRead (k : Nat)
  | sample (k i : Nat)
  | pollRead (k : Nat) (late : Bool)

namespace State

/-- One step of the writer, of the network or of the reader. -/
def next (allowCustom : Bool) (s : State) : Label → Except Error State
  | .write value custom => s.write allowCustom value custom
  | .post => .ok s.post
  | .tear => .ok s.tear
  | .land => .ok s.land
  | .complete => .ok s.complete
  | .read => .ok s.read
  | .postRead k => .ok (s.postRead k)
  | .sample k i => .ok (s.sample k i)
  | .pollRead k late => s.pollRead k late

/-- What the constructor leaves, the value having `size` bytes. -/
def start (size : Nat) : State where
  register :=
    { incarnation := 2
      content := List.replicate size 0 }
  memory := Function.update
    (Function.update (fun _ => none) 1 (some ⟨1, List.replicate size 0⟩)) 0
      (some ⟨2, List.replicate size 0⟩)
  written := [⟨1, List.replicate size 0⟩, ⟨2, List.replicate size 0⟩]
  landed := 2
  completed := 2

/-- `initializeRemoteRegisters`. -/
def initializeRemoteRegisters (size : Nat) : List Label :=
  let write := [.write (List.replicate size 0) none, .post, .tear, .land, .complete]
  write ++ write

/-- What they lead to. -/
theorem runs_initializeRemoteRegisters (allowCustom : Bool) (size : Nat) :
    runs (fun s l => (next allowCustom s l).toOption) {} (initializeRemoteRegisters size) =
      some (start size) := by
  simp only [initializeRemoteRegisters, List.cons_append, List.nil_append, runs, next, write, post,
    tear, land, complete, Register.incarnate, Register.incrementIncarnation,
    Register.changeRemoteSubslot]
  simp [Except.toOption, bind, Except.bind, pure, Except.pure, nextIncarnation, start]

/-- The initial WRITEs have landed. -/
def Init (s : State) : Prop := ∃ size, s = start size

/-- A step that throws nothing. -/
def Step (allowCustom : Bool) (s : State) (l : Label) (s' : State) : Prop :=
  s.next allowCustom l = .ok s'

end State

end Ubft.Swmr
