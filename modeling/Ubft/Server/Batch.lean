import Ubft.Support.Bytes

/-!
# Server — batches

`consensus/internal/requests.hpp`'s `Batch`, a view of the bytes a leader proposed, and its
`Iterator`, an offset into them.  Nothing says that the last request ends where the batch ends:
what follows the batch in memory is part of the model.

The requests that a batch encodes are those of `for (it = requests(); !it.done(); ++it)`, the loop
with which the request log goes through it (`Encodes`).
-/

namespace Ubft.Server

/-- `Batch::Request`, its fields read. -/
structure Request where
  clientId : Nat
  id : Nat
  size : Nat
  payload : Bytes
  deriving DecidableEq, Repr

namespace Request

/-- The identifier of the client, that of the request, and the size. -/
def headerSize : Nat := 24

/-- `bufferSize`, on `size_t`. -/
def bufferSize (size : Nat) : Nat := (headerSize + size) % 2 ^ 64

end Request

/-- `beyond` is what follows the batch in memory. -/
structure Batch where
  raw : Bytes
  beyond : Bytes := []
  deriving DecidableEq, Repr

namespace Batch

variable {b : Batch}

/-- `n` bytes from `offset` on; what the buffer last held is read beyond the batch. -/
def bytes (b : Batch) (offset n : Nat) : Bytes := ((b.raw ++ b.beyond).drop offset).take n

/-- `Iterator::operator*`. -/
def request (b : Batch) (offset : Nat) : Request :=
  let size := ofLe (b.bytes (offset + 16) 8)
  { clientId := ofLe (b.bytes offset 4)
    id := ofLe (b.bytes (offset + 8) 8)
    size := size
    payload := b.bytes (offset + 24) size }

/-- `Iterator::operator++`. -/
def next (b : Batch) (offset : Nat) : Nat :=
  (offset + Request.bufferSize (b.request offset).size) % 2 ^ 64

/-- `Iterator::done`, which is only updated by `operator++`. -/
def done (b : Batch) (offset : Nat) : Bool := b.raw.length ≤ offset

/-- The requests from an offset on. -/
inductive Encodes (b : Batch) : Nat → List Request → Prop where
  | done {offset : Nat} (h : b.done offset = true) : Encodes b offset []
  | next {offset : Nat} {rs : List Request} (h : b.done offset = false)
      (hn : Encodes b (b.next offset) rs) : Encodes b offset (b.request offset :: rs)

namespace Encodes

/-- A batch encodes one list of requests at most. -/
theorem unique {offset : Nat} {rs rs' : List Request} (h : Encodes b offset rs)
    (h' : Encodes b offset rs') : rs = rs' := by
  induction h generalizing rs' with
  | done h =>
      cases h' with
      | done _ => rfl
      | next hd _ => rw [h] at hd; cases hd
  | next h _ ih =>
      cases h' with
      | done hd => rw [h] at hd; cases hd
      | next _ hn => rw [ih hn]

/-- A batch without bytes encodes no request. -/
theorem eq_nil {offset : Nat} {rs : List Request} (h : Encodes b offset rs) (hb : b.raw = []) :
    rs = [] := by
  cases h with
  | done _ => rfl
  | next h _ =>
      rw [Batch.done, hb] at h
      exact absurd (Nat.zero_le _) (of_decide_eq_false h)

end Encodes

/-! ### Going through a batch -/

/-- The requests `visited` come before the offset. -/
def Visited (b : Batch) (visited : List Request) (offset : Nat) : Prop :=
  ∀ rs, Encodes b offset rs → Encodes b 0 (visited ++ rs)

theorem visited_nil (b : Batch) : b.Visited [] 0 := fun _ h => h

theorem Visited.next {visited : List Request} {offset : Nat} (h : b.Visited visited offset)
    (hd : b.done offset = false) : b.Visited (visited ++ [b.request offset]) (b.next offset) := by
  intro rs hrs
  rw [List.append_assoc]
  exact h _ (.next hd hrs)

/-- The last request. -/
theorem Visited.last {visited : List Request} {offset : Nat} (h : b.Visited visited offset)
    (hd : b.done offset = false) (hn : b.done (b.next offset) = true) :
    Encodes b 0 (visited ++ [b.request offset]) := h _ (.next hd (.done hn))

/-- What a caller that asks for a request before it tests `done` gets out of a batch. -/
def Polled (b : Batch) (rs : List Request) : Prop :=
  b.raw = [] ∧ rs = [b.request 0] ∨ b.raw ≠ [] ∧ Encodes b 0 rs

/-- What is polled of a batch is what it encodes. -/
theorem Polled.encodes {rs : List Request} (h : b.Polled rs) (hb : b.raw ≠ []) :
    Encodes b 0 rs := by
  rcases h with ⟨he, -⟩ | ⟨-, h⟩
  · exact absurd he hb
  · exact h

theorem polled_encodes {bs : List Batch} {rss : List (List Request)}
    (h : List.Forall₂ Polled bs rss) (hb : ∀ b ∈ bs, b.raw ≠ []) :
    List.Forall₂ (fun b rs => Encodes b 0 rs) bs rss := by
  induction h with
  | nil => exact .nil
  | cons hp _ ih =>
      refine .cons (hp.encodes (hb _ List.mem_cons_self)) (ih fun b hm => ?_)
      exact hb b (List.mem_cons_of_mem _ hm)

/-- Each batch without bytes yields one request too many. -/
theorem length_polled {bs : List Batch} {rss rss' : List (List Request)}
    (h : List.Forall₂ Polled bs rss) (h' : List.Forall₂ (fun b rs => Encodes b 0 rs) bs rss') :
    rss.flatten.length = rss'.flatten.length + (bs.filter fun b => b.raw = []).length := by
  induction h generalizing rss' with
  | nil =>
      cases h'
      rfl
  | @cons b rs bs rss hp _ ih =>
      obtain ⟨rs', rss₁, he, h₁, rfl⟩ : ∃ rs' rss₁, Encodes b 0 rs' ∧
          List.Forall₂ (fun b rs => Encodes b 0 rs) bs rss₁ ∧ rss' = rs' :: rss₁ := by
        cases h' with
        | cons he h₁ => exact ⟨_, _, he, h₁, rfl⟩
      rw [List.flatten_cons, List.flatten_cons, List.length_append, List.length_append, ih h₁]
      rcases hp with ⟨hb, rfl⟩ | ⟨hb, hp⟩
      · rw [he.eq_nil hb, List.filter_cons_of_pos (by simpa using hb), List.length_cons]
        simp only [List.length_cons, List.length_nil]
        omega
      · rw [hp.unique he, List.filter_cons_of_neg (by simpa using hb)]
        omega

end Batch

end Ubft.Server
