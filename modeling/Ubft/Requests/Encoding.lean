import Ubft.Requests.Validity

/-!
# Requests — filling a batch

The second half of `Server::pollProposable`: the requests of clients are copied in the slot that
consensus gives, through the iterator of the batch.  The iterator finds the next request with the
size that was just written, in a buffer that holds anything.

A slot of the size of the requests is filled exactly, and what it then encodes is the requests
(`fill_encodes`).
-/

namespace Ubft.Requests

open Server (Batch Request)
open Server.Batch (Encodes)

/-- `rpc::Server::Request`: its buffer is as large as its size says. -/
structure ClientRequest where
  clientId : Nat
  id : Nat
  payload : Bytes
  clientId_lt : clientId < 2 ^ 32
  id_lt : id < 2 ^ 64

namespace ClientRequest

/-- The size of the payload alone. -/
def size (r : ClientRequest) : Nat := r.payload.length

/-- What an iterator reads of it. -/
def read (r : ClientRequest) : Request := ⟨r.clientId, r.id, r.size, r.payload⟩

end ClientRequest

/-- The size of the requests encoded. -/
def encodedSize (rs : List ClientRequest) : Nat :=
  (rs.map fun r => Request.headerSize + r.size).sum

/-- What the assertions of `fill` say. -/
inductive FillError where
  /-- "Should be able to copy ALL requests." -/
  | notAll
  /-- "The requests should fit perfectly the batch." -/
  | notPerfectly
  deriving DecidableEq, Repr

/-- A copy to an address in the batch. -/
def store (b : Batch) (offset : Nat) (xs : Bytes) : Batch :=
  let memory := Layout.write (b.raw ++ b.beyond) offset xs
  ⟨memory.take b.raw.length, memory.drop b.raw.length⟩

/-- The body of the loop: the fields of a request, through the iterator. -/
def put (b : Batch) (offset : Nat) (r : ClientRequest) : Batch :=
  let b := store b offset (le 4 r.clientId)
  let b := store b (offset + 8) (le 8 r.id)
  let b := store b (offset + 16) (le 8 r.size)
  store b (offset + 24) r.payload

/-- The loop, from an offset on, and the test after it. -/
def fillFrom (b : Batch) (offset : Nat) : List ClientRequest → Except FillError Batch
  | [] => if b.done offset then .ok b else .error .notPerfectly
  | r :: rs =>
    if b.done offset then .error .notAll
    else fillFrom (put b offset r) ((put b offset r).next offset) rs

/-- `fill`: the requests are written one after the other from the front. -/
def fill (b : Batch) (rs : List ClientRequest) : Except FillError Batch := fillFrom b 0 rs

/-! ### Sizes -/

theorem encodedSize_cons (r : ClientRequest) (rs : List ClientRequest) :
    encodedSize (r :: rs) = Request.headerSize + r.size + encodedSize rs := List.sum_cons

/-! ### A request -/

section

variable {raw u v w xs beyond : Bytes} {offset : Nat}

/-- A store replaces as many bytes. -/
theorem store_eq (hraw : raw = u ++ (v ++ w)) (hoff : offset = u.length)
    (hlen : xs.length = v.length) : store ⟨raw, beyond⟩ offset xs = ⟨u ++ (xs ++ w), beyond⟩ := by
  subst hraw hoff
  have hw : Layout.write (u ++ (v ++ w) ++ beyond) u.length xs = u ++ (xs ++ w) ++ beyond := by
    rw [Layout.write, hlen]
    simp [List.append_assoc, List.drop_append]
  have hl : (u ++ (v ++ w)).length = (u ++ (xs ++ w)).length := by
    simp only [List.length_append, hlen]
  simp only [store, hw, hl, List.take_left', List.drop_left']

theorem bytes_eq {n : Nat} (hraw : raw = u ++ (v ++ w)) (hoff : offset = u.length)
    (hn : v.length = n) : (⟨raw, beyond⟩ : Batch).bytes offset n = v := by
  subst hraw hoff hn
  simp [Batch.bytes, List.append_assoc]

end

/-- A request as it is written; the padding is what was there. -/
def encode (r : ClientRequest) (padding : Bytes) : Bytes :=
  le 4 r.clientId ++ padding ++ le 8 r.id ++ le 8 r.size ++ r.payload

section

variable {pre room rest padding : Bytes} {r : ClientRequest}

theorem length_encode (hp : padding.length = 4) :
    (encode r padding).length = Request.headerSize + r.size := by
  simp only [encode, List.length_append, length_le, hp]
  rfl

theorem exists_split {n : Nat} (room : Bytes) (h : n ≤ room.length) :
    ∃ v w : Bytes, room = v ++ w ∧ v.length = n :=
  ⟨room.take n, room.drop n, (List.take_append_drop n room).symm, List.length_take_of_le h⟩

/-- **A request is put** in the room it needs, and nothing else is written. -/
theorem put_eq (h : Request.headerSize + r.size ≤ room.length) (pre beyond : Bytes) :
    ∃ padding rest, padding.length = 4 ∧ room.length = Request.headerSize + r.size + rest.length ∧
      put ⟨pre ++ room, beyond⟩ pre.length r = ⟨pre ++ (encode r padding ++ rest), beyond⟩ := by
  rw [Request.headerSize] at h
  obtain ⟨clientId, room, rfl, hc⟩ := exists_split (n := 4) room (by omega)
  rw [List.length_append] at h
  obtain ⟨padding, room, rfl, hp⟩ := exists_split (n := 4) room (by omega)
  rw [List.length_append] at h
  obtain ⟨id, room, rfl, hi⟩ := exists_split (n := 8) room (by omega)
  rw [List.length_append] at h
  obtain ⟨size, room, rfl, hs⟩ := exists_split (n := 8) room (by omega)
  rw [List.length_append] at h
  obtain ⟨payload, rest, rfl, hd⟩ := exists_split (n := r.size) room (by omega)
  refine ⟨padding, rest, hp, ?_, ?_⟩
  · simp only [List.length_append, hc, hp, hi, hs, hd, Request.headerSize]
    omega
  · have h₁ : store ⟨pre ++ (clientId ++ (padding ++ id ++ size ++ payload ++ rest)), beyond⟩
        pre.length (le 4 r.clientId) =
          ⟨pre ++ (le 4 r.clientId ++ (padding ++ id ++ size ++ payload ++ rest)), beyond⟩ :=
      store_eq rfl rfl (by rw [length_le, hc])
    have h₂ : store ⟨pre ++ le 4 r.clientId ++ padding ++ (id ++ (size ++ payload ++ rest)),
        beyond⟩ (pre.length + 8) (le 8 r.id) =
          ⟨pre ++ le 4 r.clientId ++ padding ++ (le 8 r.id ++ (size ++ payload ++ rest)),
            beyond⟩ :=
      store_eq rfl (by simp only [List.length_append, length_le, hp]) (by rw [length_le, hi])
    have h₃ : store ⟨pre ++ le 4 r.clientId ++ padding ++ le 8 r.id ++
        (size ++ (payload ++ rest)), beyond⟩ (pre.length + 16) (le 8 r.size) =
          ⟨pre ++ le 4 r.clientId ++ padding ++ le 8 r.id ++ (le 8 r.size ++ (payload ++ rest)),
            beyond⟩ :=
      store_eq rfl (by simp only [List.length_append, length_le, hp]) (by rw [length_le, hs])
    have h₄ : store ⟨pre ++ le 4 r.clientId ++ padding ++ le 8 r.id ++ le 8 r.size ++
        (payload ++ rest), beyond⟩ (pre.length + 24) r.payload =
          ⟨pre ++ le 4 r.clientId ++ padding ++ le 8 r.id ++ le 8 r.size ++ (r.payload ++ rest),
            beyond⟩ :=
      store_eq rfl (by simp only [List.length_append, length_le, hp]) hd.symm
    simp only [List.append_assoc] at h₁ h₂ h₃ h₄
    simp only [put, encode, List.append_assoc, h₁, h₂, h₃, h₄]

/-- **A request is read** as it was put. -/
theorem request_encode (hp : padding.length = 4) (hsize : r.size < 2 ^ 64)
    (pre rest beyond : Bytes) :
    (⟨pre ++ (encode r padding ++ rest), beyond⟩ : Batch).request pre.length = r.read := by
  obtain ⟨raw, hraw⟩ : ∃ raw, raw = pre ++ (encode r padding ++ rest) := ⟨_, rfl⟩
  rw [← hraw]
  simp only [encode, List.append_assoc] at hraw
  have hc : (⟨raw, beyond⟩ : Batch).bytes pre.length 4 = le 4 r.clientId :=
    bytes_eq hraw rfl (length_le _ _)
  have hi : (⟨raw, beyond⟩ : Batch).bytes (pre.length + 8) 8 = le 8 r.id :=
    bytes_eq (u := pre ++ le 4 r.clientId ++ padding) (w := le 8 r.size ++ (r.payload ++ rest))
      (by simp only [hraw, List.append_assoc])
      (by simp only [List.length_append, length_le, hp]) (length_le _ _)
  have hs : (⟨raw, beyond⟩ : Batch).bytes (pre.length + 16) 8 = le 8 r.size :=
    bytes_eq (u := pre ++ le 4 r.clientId ++ padding ++ le 8 r.id) (w := r.payload ++ rest)
      (by simp only [hraw, List.append_assoc])
      (by simp only [List.length_append, length_le, hp]) (length_le _ _)
  have hd : (⟨raw, beyond⟩ : Batch).bytes (pre.length + 24) r.size = r.payload :=
    bytes_eq (u := pre ++ le 4 r.clientId ++ padding ++ le 8 r.id ++ le 8 r.size) (w := rest)
      (by simp only [hraw, List.append_assoc])
      (by simp only [List.length_append, length_le, hp]) rfl
  rw [Batch.request, hc, hi, hs, ofLe_le_of_lt r.clientId_lt, ofLe_le_of_lt r.id_lt,
    ofLe_le_of_lt hsize, hd]
  rfl

theorem next_encode (hp : padding.length = 4) {pre rest : Bytes}
    (hlt : (pre ++ (encode r padding ++ rest)).length < 2 ^ 63) (beyond : Bytes) :
    (⟨pre ++ (encode r padding ++ rest), beyond⟩ : Batch).next pre.length =
      (pre ++ encode r padding).length := by
  have hlen := length_encode (r := r) hp
  rw [Request.headerSize] at hlen
  simp only [List.length_append] at hlt
  rw [Batch.next, request_encode hp (by omega), Request.bufferSize, Request.headerSize,
    List.length_append, hlen]
  change (_ + (24 + r.size) % _) % _ = _
  omega

end

/-! ### The requests -/

/-- The loop fills the room that the requests need, and they are read back from there. -/
theorem fillFrom_encodes {rs : List ClientRequest} (pre room : Bytes)
    (h : room.length = encodedSize rs) (hlt : (pre ++ room).length < 2 ^ 63) (beyond : Bytes) :
    ∃ filled, filled.length = room.length ∧
      fillFrom ⟨pre ++ room, beyond⟩ pre.length rs = .ok ⟨pre ++ filled, beyond⟩ ∧
      ∀ beyond', Encodes ⟨pre ++ filled, beyond'⟩ pre.length (rs.map ClientRequest.read) := by
  induction rs generalizing pre room with
  | nil =>
      obtain rfl := List.length_eq_zero_iff.mp h
      have hdone : ∀ beyond, (⟨pre ++ [], beyond⟩ : Batch).done pre.length = true :=
        fun beyond => (RequestLog.done_append pre [] beyond).mpr rfl
      exact ⟨[], rfl, if_pos (hdone beyond), fun beyond' => .done (hdone beyond')⟩
  | cons r rs ih =>
      rw [encodedSize_cons] at h
      obtain ⟨padding, rest, hp, hroom, hput⟩ :=
        put_eq (r := r) (h ▸ Nat.le_add_right _ _) pre beyond
      have hlen := length_encode (r := r) hp
      have hlt' : (pre ++ (encode r padding ++ rest)).length < 2 ^ 63 := by
        rw [List.length_append] at hlt
        rw [List.length_append, List.length_append, hlen, ← hroom]
        exact hlt
      have hsize : r.size < 2 ^ 64 := by
        rw [List.length_append] at hlt
        omega
      -- the next request goes after this one
      obtain ⟨filled, hfilled, hfill, hread⟩ := ih (pre ++ encode r padding) rest
        (by omega) (by rw [List.append_assoc]; exact hlt')
      refine ⟨encode r padding ++ filled, ?_, ?_, fun beyond' => ?_⟩
      · rw [List.length_append, hfilled, hlen, hroom]
      · have hdone : ¬ (⟨pre ++ room, beyond⟩ : Batch).done pre.length = true := by
          rw [RequestLog.done_append]
          rintro rfl
          rw [Request.headerSize] at hroom
          exact absurd hroom (by simp only [List.length_nil]; omega)
        rw [fillFrom, if_neg hdone, hput, next_encode hp hlt' beyond, ← List.append_assoc, hfill,
          List.append_assoc]
      · have hread' := hread beyond'
        have hlt'' : (pre ++ (encode r padding ++ filled)).length < 2 ^ 63 := by
          simp only [List.length_append, hfilled] at hlt' ⊢
          exact hlt'
        rw [← next_encode hp hlt'' beyond', List.append_assoc] at hread'
        rw [List.map_cons, ← request_encode hp hsize pre filled beyond']
        refine .next (Bool.eq_false_iff.mpr fun hd => ?_) hread'
        have hnil := (RequestLog.done_append pre _ beyond').mp hd
        have hzero := congrArg List.length (List.append_eq_nil_iff.mp hnil).1
        rw [hlen, Request.headerSize, List.length_nil] at hzero
        omega

/-- **Filling a slot.**  Whatever the slot holds, requests that are as large as it is are all
copied, it ends with the last one, nothing is written after it, and the slot encodes them. -/
theorem fill_encodes (p : Payload) (rs : List ClientRequest) (beyond : Bytes)
    (h : encodedSize rs = p.bytes.length) :
    ∃ filled, filled.length = p.bytes.length ∧ fill ⟨p.bytes, beyond⟩ rs = .ok ⟨filled, beyond⟩ ∧
      ∀ beyond', Encodes ⟨filled, beyond'⟩ 0 (rs.map ClientRequest.read) :=
  fillFrom_encodes [] p.bytes h.symm p.size_lt beyond

/-- Two requests in a slot that holds garbage. -/
theorem fill_encodes_two : ∃ filled, filled.length = 51 ∧
    fill ⟨List.replicate 51 255, []⟩ [⟨7, 0, [1, 2], by decide, by decide⟩,
      ⟨8, 5, [3], by decide, by decide⟩] = .ok ⟨filled, []⟩ ∧
    ∀ beyond', Encodes ⟨filled, beyond'⟩ 0 [⟨7, 0, 2, [1, 2]⟩, ⟨8, 5, 1, [3]⟩] :=
  fill_encodes ⟨List.replicate 51 255, by decide⟩ [⟨7, 0, [1, 2], by decide, by decide⟩,
    ⟨8, 5, [3], by decide, by decide⟩] [] (by decide)

end Ubft.Requests
