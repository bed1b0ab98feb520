import Ubft.Broadcast.Receiver
import Ubft.Support.Mem

/-!
# Broadcast — the buffers of the echoes

`pollEchoes` of `tail-cb/receiver.hpp`, over the `Pool` of `buffer.hpp`: an echo is copied to the
next buffer of `echo_buffer_pool`, which is taken, and given back once the echo was noted, discarded
or replayed.  The pool is a stack and its buffers are not cleared, so that beyond an echo lies what
its buffer held before: it depends on the order in which everything arrived (`Pooled`).

What lies there decides the comparison with a message if and only if the echo is a proper beginning
of the message (`conclusive_iff`).
-/

namespace Ubft.Broadcast

variable {cr : Crypto}

/-! ### The pool -/

/-- What the buffers of a `Pool` hold, the next one first.  `take` never refuses: those that are not
allocated yet come last. -/
abbrev Pool := Nat → Nat → UInt8

namespace Pool

/-- `tryPoll` copies a message to the buffer that `borrowNext` returned. -/
def copy (p : Pool) (bytes : Bytes) : Pool := Function.update p 0 (Mem.store (p 0) 0 bytes)

/-- The buffer `take` returns. -/
def next (p : Pool) (size : Nat) : Buffer := ⟨Mem.load (p 0) 0 size, fun i => p 0 (size + i)⟩

/-- What `take` leaves. -/
def rest (p : Pool) : Pool := fun k => p (k + 1)

/-- The destructor of a `Buffer`. -/
def give (p : Pool) (b : Buffer) : Pool
  | 0 => b.at
  | k + 1 => p k

/-- The buffer taken holds the echo copied. -/
theorem bytes_next (p : Pool) (bytes : Bytes) :
    ((p.copy bytes).next bytes.length).bytes = bytes := by
  rw [next, copy, Function.update_self]
  exact Mem.load_store_self ..

end Pool

/-! ### The receiver and its pool -/

namespace Receiver

/-- `handleEcho` discards an echo of message `i`. -/
def Discards (r : Receiver) (i : Index) : Prop :=
  (∃ l ∈ r.latestPolledMessage, i < l) ∨ ∃ f ∈ r.msgTail.first?, i < f.1

instance (r : Receiver) : DecidablePred r.Discards := fun _ => inferInstanceAs (Decidable (_ ∨ _))

/-- The buffers that are given back when `handleEcho` returns: that of the echo, or the first ones
of those that wait if the echo waits with them. -/
def givenByEcho (r : Receiver) (e : Buffer) (replica : ProcId) : List Buffer :=
  let echoes := r.bufferedEchoes replica ++ [e]
  if headerSize ≤ e.bytes.length ∧ ¬ r.Discards (index e.bytes) ∧
      (r.msgTail.find? (index e.bytes)).isNone then
    echoes.take (echoes.length - r.tail)
  else [e]

/-- The buffers that are given back while the echoes are replayed, which leaves `r'`. -/
def givenByReplay (r r' : Receiver) : List Buffer :=
  r.others.flatMap fun q =>
    (r.bufferedEchoes q).take ((r.bufferedEchoes q).length - (r'.bufferedEchoes q).length)

end Receiver

/-- What comes from the network. -/
inductive Arrival where
  | message (m : Bytes)
  | echo (replica : ProcId) (bytes : Bytes)
  /-- `tryPoll` copies a message of a replica that it then does not return. -/
  | straggling (bytes : Bytes)

namespace Arrival

/-- The message that arrives, if it is one. -/
def message? : Arrival → Option Bytes
  | .message m => some m
  | _ => none

/-- The bytes of an echo of `q`. -/
def echo? (q : ProcId) : Arrival → Option Bytes
  | .echo p bytes => if p = q then some bytes else none
  | _ => none

end Arrival

/-- A receiver and its `echo_buffer_pool`. -/
structure Pooled where
  recv : Receiver
  pool : Pool

namespace Pooled

/-- An arrival is handled, and the buffers it is done with return to the pool. -/
def handle (cr : Crypto) (s : Pooled) : Arrival → Except Error Pooled
  | .message m => do
    let recv ← s.recv.handleMessage cr m
    return ⟨recv, (s.recv.givenByReplay recv).foldl Pool.give s.pool⟩
  | .echo q bytes =>
    if q ∈ s.recv.others then do
      let pool := s.pool.copy bytes
      let e := pool.next bytes.length
      let recv ← s.recv.handleEcho cr e q
      return ⟨recv, (s.recv.givenByEcho e q).foldl Pool.give pool.rest⟩
    else .ok s
  | .straggling bytes => .ok { s with pool := s.pool.copy bytes }

/-- Arrivals handled one after the other. -/
def run (cr : Crypto) : Pooled → List Arrival → Except Error Pooled
  | s, [] => .ok s
  | s, a :: as =>
    match s.handle cr a with
    | .error e => .error e
    | .ok s => s.run cr as

/-- What the receiver itself is given. -/
def input (s : Pooled) : Arrival → Option Input
  | .message m => some (.message m)
  | .echo q bytes => some (.echo q ((s.pool.copy bytes).next bytes.length))
  | .straggling _ => none

/-- An arrival is what it gives the receiver. -/
theorem handle_of_input {s : Pooled} {a : Arrival} {inp : Input} (hi : s.input a = some inp) :
    (∀ e, s.recv.handle cr inp = .error e → s.handle cr a = .error e) ∧
      ∀ r, s.recv.handle cr inp = .ok r → ∃ pool, s.handle cr a = .ok ⟨r, pool⟩ := by
  cases a with
  | message m =>
      cases hi
      refine ⟨fun e he => ?_, fun r hr => ⟨(s.recv.givenByReplay r).foldl Pool.give s.pool, ?_⟩⟩
      · have he : s.recv.handleMessage cr m = .error e := he
        rw [handle, he]
        rfl
      · have hr : s.recv.handleMessage cr m = .ok r := hr
        rw [handle, hr]
        rfl
  | echo q bytes =>
      cases hi
      by_cases hq : q ∈ s.recv.others
      · let buffer := (s.pool.copy bytes).next bytes.length
        simp only [Receiver.handle, handle, if_pos hq]
        refine ⟨fun e he => ?_, fun r hr =>
          ⟨(s.recv.givenByEcho buffer q).foldl Pool.give (s.pool.copy bytes).rest, ?_⟩⟩
        · rw [he]
          rfl
        · rw [hr]
          rfl
      · simp only [Receiver.handle, handle, if_neg hq]
        exact ⟨fun e he => (nomatch he), fun r hr => ⟨s.pool, by cases hr; rfl⟩⟩
  | straggling bytes => cases hi

end Pooled

/-! ### Echoes that are shorter than their message -/

/-- What lies beyond the echo does not decide its comparison with the message. -/
def Conclusive (m echo : Bytes) : Prop := size m < hashThreshold → echo <+: m → echo = m

instance (m echo : Bytes) : Decidable (Conclusive m echo) := inferInstanceAs (Decidable (_ → _ → _))

/-- **Echoes in other buffers.**  The comparison depends on the echo alone unless the echo is a
proper beginning of the message. -/
theorem conclusive_iff (cr : Crypto) (m echo : Bytes) : Conclusive m echo ↔
    ∀ e e' : Buffer, e.bytes = echo → e'.bytes = echo →
      echoMatches cr m e = echoMatches cr m e' := by
  constructor
  · intro hc e e' he he'
    unfold echoMatches
    split_ifs with hs
    · have key : ∀ {b b' : Buffer}, b.bytes = echo → b'.bytes = echo → Buffer.eq m b = true →
          Buffer.eq m b' = true := by
        intro b b' hb hb' h
        refine Buffer.eq_of_prefix ?_
        rw [hb']
        rcases Buffer.prefix_of_eq h with hp | hp
        · exact hb ▸ hp
        · exact (hc hs (hb ▸ hp)).symm ▸ List.prefix_refl m
      exact Bool.eq_iff_iff.mpr ⟨key he he', key he' he⟩
    · rw [he, he']
  · intro h hs hp
    by_contra hne
    have hlt : echo.length < m.length :=
      lt_of_le_of_ne hp.length_le fun hl => hne (hp.eq_of_length hl)
    -- a buffer that held the message, and one that held something else
    have hm := h ⟨echo, fun i => m.getD (echo.length + i) 0⟩
      ⟨echo, fun i => m.getD (echo.length + i) 0 + 1⟩ rfl rfl
    simp only [echoMatches, if_pos hs] at hm
    have htrue : Buffer.eq m ⟨echo, fun i => m.getD (echo.length + i) 0⟩ = true := by
      refine Buffer.eq_iff.mpr fun i hi => ?_
      by_cases hie : i < echo.length
      · rw [Buffer.at_of_lt _ hie, hp.getElem hie]
      · have hle := Nat.not_lt.mp hie
        rw [Buffer.at_of_le _ hle]
        change m[i] = m.getD (echo.length + (i - echo.length)) 0
        rw [Nat.add_sub_cancel' hle, List.getD_eq_getElem _ _ hi]
    rw [htrue] at hm
    have hat := Buffer.eq_iff.mp hm.symm echo.length hlt
    rw [Buffer.at_of_le _ le_rfl] at hat
    change m[echo.length] = m.getD (echo.length + (echo.length - echo.length)) 0 + 1 at hat
    rw [Nat.sub_self, Nat.add_zero, List.getD_eq_getElem _ _ hlt] at hat
    exact absurd hat.symm (by simp)

end Ubft.Broadcast
