import Ubft.Support.Mem
import Ubft.Support.Runs

/-!
# Buffers — the buffer

`buffer.hpp`: a `Buffer` is a vector of bytes that is not resized beyond its initial size, so that
it keeps its memory, and whose left bytes can be trimmed.  Sizes are on 64 bits, and a size that
wraps passes the check of `resize`: `leftOffset` may then be behind the end.
-/

namespace Ubft.Buffers

/-- What the functions of `buffer.hpp` throw. -/
inductive BufferError where
  /-- "Resize tried to reallocate beyond the initial size." -/
  | beyondInitialSize
  /-- "Trimming too much." -/
  | trimming
  /-- `std::length_error`. -/
  | length
  deriving DecidableEq, Repr

/-- `DynArray`: a vector of bytes that are not initialized.  `storage` names its allocation, of which
`bytes` is what it holds, past `size` as well. -/
structure DynArray where
  storage : Option Nat
  capacity : Nat
  size : Nat
  bytes : Nat → UInt8

namespace DynArray

/-- A vector of `size` elements. -/
def new (storage size : Nat) (bytes : Nat → UInt8) : DynArray := ⟨some storage, size, size, bytes⟩

/-- `fresh` is allocated if the vector has to grow. -/
def resize (a : DynArray) (fresh size : Nat) : DynArray :=
  if size ≤ a.capacity then { a with size }
  else { a with storage := some fresh, capacity := max (2 * a.size) size, size }

/-- A vector that was moved from. -/
def moved (a : DynArray) : DynArray := { a with storage := none, capacity := 0, size := 0 }

end DynArray

/-- `Buffer`.  `homeVector` is whether it is to return to its pool, and `moved` the move
indicator. -/
structure Buffer where
  maxSize : Nat
  dynarray : DynArray
  leftOffset : Nat := 0
  homeVector : Bool := false
  moved : Bool := false

namespace Buffer

/-- The constructor, over an allocation that holds `bytes`. -/
def new (storage size : Nat) (bytes : Nat → UInt8) : Except BufferError Buffer :=
  if size < 2 ^ 63 then .ok { maxSize := size, dynarray := .new storage size bytes }
  else .error .length

/-- `dynarray.size() - left_offset`, on 64 bits. -/
def size (b : Buffer) : Nat :=
  if b.leftOffset ≤ b.dynarray.size then b.dynarray.size - b.leftOffset
  else b.dynarray.size + 2 ^ 64 - b.leftOffset

/-- `resize`, the left offset included. -/
def resize (b : Buffer) (fresh size : Nat) : Except BufferError Buffer :=
  let size := (size + b.leftOffset) % 2 ^ 64
  if b.maxSize < size then .error .beyondInitialSize
  else .ok { b with dynarray := b.dynarray.resize fresh size }

/-- `trimLeft`. -/
def trimLeft (b : Buffer) (offset : Nat) : Except BufferError Buffer :=
  if b.size < offset then .error .trimming
  else .ok { b with leftOffset := (b.leftOffset + offset) % 2 ^ 64 }

/-- The byte `k` places after `data()`. -/
def byte (b : Buffer) (k : Nat) : UInt8 := b.dynarray.bytes (b.leftOffset + k)

/-- A byte is written at `data()`. -/
def write (b : Buffer) (k : Nat) (v : UInt8) : Buffer :=
  { b with
    dynarray := { b.dynarray with bytes := Mem.store b.dynarray.bytes (b.leftOffset + k) [v] } }

/-- The bytes from `cbegin()` to `cend()`. -/
def bytes (b : Buffer) : Bytes :=
  Mem.load b.dynarray.bytes b.leftOffset (b.dynarray.size - b.leftOffset)

theorem resize_eq_ok {b b' : Buffer} {fresh size : Nat} :
    b.resize fresh size = .ok b' ↔ (size + b.leftOffset) % 2 ^ 64 ≤ b.maxSize ∧
      b' = { b with dynarray := b.dynarray.resize fresh ((size + b.leftOffset) % 2 ^ 64) } := by
  unfold resize
  simp only
  split
  · next hlt => exact ⟨nofun, fun h => absurd h.1 (Nat.not_le.mpr hlt)⟩
  · next hle =>
      exact ⟨fun h => ⟨Nat.not_lt.mp hle, (Except.ok.inj h).symm⟩, fun h => congrArg _ h.2.symm⟩

/-- `trimLeft` refuses to trim more than there is. -/
theorem trimLeft_eq_ok {b b' : Buffer} {offset : Nat} :
    b.trimLeft offset = .ok b' ↔
      offset ≤ b.size ∧ b' = { b with leftOffset := (b.leftOffset + offset) % 2 ^ 64 } := by
  unfold trimLeft
  split
  · next hlt => exact ⟨nofun, fun h => absurd h.1 (Nat.not_le.mpr hlt)⟩
  · next hle =>
      exact ⟨fun h => ⟨Nat.not_lt.mp hle, (Except.ok.inj h).symm⟩, fun h => congrArg _ h.2.symm⟩

theorem new_eq_ok {b : Buffer} {storage size : Nat} {bytes : Nat → UInt8} :
    new storage size bytes = .ok b ↔
      size < 2 ^ 63 ∧ b = { maxSize := size, dynarray := .new storage size bytes } := by
  unfold new
  split
  · next hlt => exact ⟨fun h => ⟨hlt, (Except.ok.inj h).symm⟩, fun h => congrArg _ h.2.symm⟩
  · next hge => exact ⟨nofun, fun h => absurd h.1 hge⟩

end Buffer

end Ubft.Buffers
