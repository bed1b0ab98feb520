import Ubft.Requests.Log
import Ubft.Support.Layout

/-!
# Requests — the validity of a batch

A batch is the payload of a Prepare, any bytes.  `isValid` goes through it as far as the requests
are known, and trusts the sizes and the clients it reads there: it reads past the end of a payload
that stops in the middle of a request, and throws for the client -1.

`validated_iff` says for which payloads it does neither.
-/

namespace Ubft.Requests

open Server (Batch Request)
open Layout (read_append_left read_append_right)

/-- The payload of a Prepare; no object is larger than half the address space. -/
structure Payload where
  bytes : Bytes
  size_lt : bytes.length < 2 ^ 63

namespace RequestLog

/-- The request that bytes begin with. -/
def first (bs : Bytes) : Request := (⟨bs, []⟩ : Batch).request 0

/-- The bytes of a request: a header and as much as it announces.  It is stored. -/
structure Stores (l : RequestLog) (chunk : Bytes) : Prop where
  header : Request.headerSize ≤ chunk.length
  size : chunk.length = Request.headerSize + (first chunk).size
  stored : ∃ c, l.find? (first chunk).clientId = some c ∧
    c.requests.find? (first chunk).id = some (first chunk).payload

/-- A concatenation of requests that are stored. -/
def Concatenation (l : RequestLog) (raw : Bytes) : Prop :=
  ∃ chunks : List Bytes, raw = chunks.flatten ∧ ∀ chunk ∈ chunks, l.Stores chunk

/-- A request that is not stored, as far as it has to be read. -/
inductive Refused (l : RequestLog) (bs : Bytes) : Prop where
  | client (hlen : 4 ≤ bs.length) (hid : (first bs).clientId ≠ 2 ^ 32 - 1)
      (h : l.find? (first bs).clientId = none)
  | id {c : SingleClientRequests} (hlen : 16 ≤ bs.length)
      (hc : l.find? (first bs).clientId = some c) (h : c.requests.find? (first bs).id = none)
  | size {c : SingleClientRequests} {buffer : Bytes} (hlen : 24 ≤ bs.length)
      (hc : l.find? (first bs).clientId = some c)
      (hb : c.requests.find? (first bs).id = some buffer) (h : buffer.length ≠ (first bs).size)
  | payload {c : SingleClientRequests} {buffer : Bytes}
      (hlen : 24 + (first bs).size ≤ bs.length) (hc : l.find? (first bs).clientId = some c)
      (hb : c.requests.find? (first bs).id = some buffer) (h : buffer ≠ (first bs).payload)

/-- Requests that are stored, and then nothing or one that is refused. -/
def Readable (l : RequestLog) (raw : Bytes) : Prop :=
  ∃ (chunks : List Bytes) (rest : Bytes), raw = chunks.flatten ++ rest ∧
    (∀ chunk ∈ chunks, l.Stores chunk) ∧ (rest = [] ∨ l.Refused rest)

/-- `isValid` ends without an error, reads the payload only, and is right. -/
def Validated (l : RequestLog) (raw beyond : Bytes) : Prop :=
  ∃ (rounds : Nat) (reads : List Span) (result : Bool),
    l.isValid ⟨raw, beyond⟩ rounds = some (reads, .ok result) ∧
      (∀ span ∈ reads, span.1 + span.2 ≤ raw.length) ∧ (result = true ↔ l.Concatenation raw)

variable {l : RequestLog} {pre bs rest beyond chunk : Bytes}

/-! ### Clients -/

theorem clientId_lt (b : Batch) (offset : Nat) : (b.request offset).clientId < 2 ^ 32 := by
  calc ofLe (b.bytes offset 4) < 256 ^ (b.bytes offset 4).length := ofLe_lt _
    _ ≤ 256 ^ 4 := Nat.pow_le_pow_right (by decide) (List.length_take_le _ _)

/-- The client -1 is looked for in the vector, whatever its size. -/
theorem clientExists_eq {clientId : Nat} (h : clientId < 2 ^ 32) :
    l.clientExists clientId =
      if clientId = 2 ^ 32 - 1 then .error (.outOfRange clientId)
      else .ok (l.find? clientId).isSome := by
  have hlen := l.length_lt
  by_cases hs : l.clientRequests.length ≤ index clientId
  · have hno : l.clientRequests[index clientId]? = none := List.getElem?_eq_none hs
    rw [clientExists, client, find?, hno]
    split
    · next hlt =>
        rw [if_neg]
        · rfl
        · rintro rfl
          have hzero : (index (2 ^ 32 - 1) + 1) % 2 ^ 64 = 0 := by decide
          exact Nat.not_lt_zero _ (hzero ▸ hlt)
    · next hge =>
        have hwrap : 2 ^ 64 ≤ index clientId + 1 := by
          by_contra hno
          rw [Nat.mod_eq_of_lt (Nat.not_le.mp hno)] at hge
          exact hge (Nat.lt_succ_of_le hs)
        have hid : clientId = 2 ^ 32 - 1 := by
          rw [index] at hwrap
          split at hwrap <;> omega
        rw [if_pos hid]
        rfl
  · have hlt := Nat.not_le.mp hs
    have hsmall : clientId < 2 ^ 31 := by
      by_contra hno
      rw [index, if_neg hno] at hlt
      omega
    have hne : clientId ≠ 2 ^ 32 - 1 := by omega
    have hmod : (index clientId + 1) % 2 ^ 64 = index clientId + 1 := Nat.mod_eq_of_lt (by omega)
    rw [clientExists, client, find?, hmod, if_neg (Nat.not_lt.mpr hlt), if_neg hne,
      List.getElem?_eq_getElem hlt]
    rfl

/-! ### Bytes -/

theorem bytes_append (pre beyond : Bytes) {off n : Nat} (h : off + n ≤ bs.length) :
    (⟨pre ++ bs, beyond⟩ : Batch).bytes (pre.length + off) n = (⟨bs, []⟩ : Batch).bytes off n := by
  calc Layout.read (pre ++ bs ++ beyond) (pre.length + off) n
      = Layout.read (pre ++ (bs ++ beyond)) (pre.length + off) n := by rw [List.append_assoc]
    _ = Layout.read (bs ++ beyond) off n := read_append_right _ _ _ _
    _ = Layout.read bs off n := read_append_left h _
    _ = Layout.read (bs ++ []) off n := by rw [List.append_nil]

theorem request_clientId (pre beyond : Bytes) (h : 4 ≤ bs.length) :
    ((⟨pre ++ bs, beyond⟩ : Batch).request pre.length).clientId = (first bs).clientId :=
  congrArg ofLe (bytes_append pre beyond ((Nat.zero_add 4).le.trans h))

theorem request_id (pre beyond : Bytes) (h : 16 ≤ bs.length) :
    ((⟨pre ++ bs, beyond⟩ : Batch).request pre.length).id = (first bs).id :=
  congrArg ofLe (bytes_append pre beyond h)

theorem request_size (pre beyond : Bytes) (h : 24 ≤ bs.length) :
    ((⟨pre ++ bs, beyond⟩ : Batch).request pre.length).size = (first bs).size :=
  congrArg ofLe (bytes_append pre beyond h)

theorem request_payload (pre beyond : Bytes) (h : 24 + (first bs).size ≤ bs.length) :
    ((⟨pre ++ bs, beyond⟩ : Batch).request pre.length).payload = (first bs).payload := by
  change Batch.bytes _ (pre.length + 24) (Batch.request _ _).size = _
  rw [request_size pre beyond ((Nat.le_add_right _ _).trans h), bytes_append pre beyond h]
  rfl

/-- What lies before a request and after it does not matter. -/
theorem request_eq (pre beyond : Bytes) (h : 24 + (first bs).size ≤ bs.length) :
    (⟨pre ++ bs, beyond⟩ : Batch).request pre.length = first bs := by
  have hheader : 24 ≤ bs.length := (Nat.le_add_right _ _).trans h
  have hc := request_clientId pre beyond (Nat.le_trans (by decide) hheader)
  have hi := request_id pre beyond (Nat.le_trans (by decide) hheader)
  have hs := request_size pre beyond hheader
  have hp := request_payload pre beyond h
  cases hr : (⟨pre ++ bs, beyond⟩ : Batch).request pre.length
  cases hf : first bs
  rw [hr, hf] at hc hi hs hp
  cases hc
  cases hi
  cases hs
  cases hp
  rfl

/-- What is behind may be part of the batch or not. -/
theorem request_append (xs ys zs : Bytes) (offset : Nat) :
    (⟨xs ++ ys, zs⟩ : Batch).request offset = (⟨xs, ys ++ zs⟩ : Batch).request offset := by
  simp only [Batch.request, Batch.bytes, List.append_assoc]

/-- A chunk is a header and its payload. -/
theorem Stores.length_eq (h : l.Stores chunk) : 24 + (first chunk).size = chunk.length :=
  h.size.symm

/-- A request is in its own bytes. -/
theorem first_take (h : 24 + (first bs).size ≤ bs.length) :
    first (bs.take (24 + (first bs).size)) = first bs := by
  have hlen : (bs.take (24 + (first bs).size)).length = 24 + (first bs).size := by
    rw [List.length_take, Nat.min_eq_left h]
  have hfirst : (⟨[] ++ bs.take (24 + (first bs).size),
      bs.drop (24 + (first bs).size) ++ []⟩ : Batch).request ([] : Bytes).length = first bs := by
    rw [List.nil_append, ← request_append, List.take_append_drop]
    rfl
  have hsize : (first (bs.take (24 + (first bs).size))).size = (first bs).size := by
    rw [← request_size [] _ (by rw [hlen]; exact Nat.le_add_right _ _), hfirst]
  exact (request_eq [] _ (by rw [hsize, hlen])).symm.trans hfirst

/-- A request that is there is stored. -/
theorem stores_take {c : SingleClientRequests} (h : 24 + (first bs).size ≤ bs.length)
    (hc : l.find? (first bs).clientId = some c)
    (hb : c.requests.find? (first bs).id = some (first bs).payload) :
    l.Stores (bs.take (24 + (first bs).size)) := by
  have hlen : (bs.take (24 + (first bs).size)).length = 24 + (first bs).size := by
    rw [List.length_take, Nat.min_eq_left h]
  refine ⟨?_, ?_, c, ?_, ?_⟩
  · rw [hlen]
    exact Nat.le_add_right _ _
  · rw [first_take h, hlen, Request.headerSize]
  · rw [first_take h]
    exact hc
  · rw [first_take h]
    exact hb

theorem Stores.length_payload (h : l.Stores chunk) :
    (first chunk).payload.length = (first chunk).size := by
  refine Layout.length_read ?_
  rw [List.append_nil]
  exact h.length_eq.le

theorem Stores.first_append (h : l.Stores chunk) (rest : Bytes) :
    first (chunk ++ rest) = first chunk := by
  rw [first, request_append]
  exact request_eq [] _ h.length_eq.le

/-! ### Concatenations -/

theorem Stores.concatenation_iff (h : l.Stores chunk) (rest : Bytes) :
    l.Concatenation (chunk ++ rest) ↔ l.Concatenation rest := by
  constructor
  · rintro ⟨chunks, hflat, hall⟩
    cases chunks with
    | nil =>
        have hnil : chunk = [] := (List.append_eq_nil_iff.mp hflat).1
        exact absurd (hnil ▸ h.header) (by decide)
    | cons chunk' chunks =>
        rw [List.flatten_cons] at hflat
        have h' := hall chunk' List.mem_cons_self
        -- both begin with the same header
        have hfirst : first chunk = first chunk' := by
          rw [← h.first_append rest, hflat, h'.first_append]
        have hlen : chunk.length = chunk'.length := by rw [h.size, h'.size, hfirst]
        obtain ⟨-, rfl⟩ := List.append_inj hflat hlen
        exact ⟨chunks, rfl, fun c hc => hall c (List.mem_cons_of_mem _ hc)⟩
  · rintro ⟨chunks, rfl, hall⟩
    refine ⟨chunk :: chunks, (List.flatten_cons ..).symm, fun c hc => ?_⟩
    rcases List.mem_cons.mp hc with rfl | hc
    · exact h
    · exact hall c hc

/-- A batch that begins with another request. -/
theorem Refused.not_concatenation (h : l.Refused bs) : ¬ l.Concatenation bs := by
  rintro ⟨chunks, hflat, hall⟩
  cases chunks with
  | nil =>
      cases hflat
      cases h with
      | client hlen | id hlen | size hlen => exact absurd hlen (by decide)
      | payload hlen => exact absurd ((Nat.le_add_right _ _).trans hlen) (by decide)
  | cons chunk chunks =>
      have hs := hall chunk List.mem_cons_self
      have hfirst : first bs = first chunk := by
        rw [hflat, List.flatten_cons, hs.first_append]
      obtain ⟨c, hc, hb⟩ := hs.stored
      rw [← hfirst] at hc hb
      cases h with
      | client _ _ hno =>
          rw [hno] at hc
          cases hc
      | id _ hc' hno =>
          cases hc'.symm.trans hc
          rw [hno] at hb
          cases hb
      | size _ hc' hb' hne =>
          cases hc'.symm.trans hc
          cases hb'.symm.trans hb
          rw [hfirst] at hne
          exact hne hs.length_payload
      | payload _ hc' hb' hne =>
          cases hc'.symm.trans hc
          cases hb'.symm.trans hb
          exact hne rfl

/-! ### Rounds -/

theorem done_append (pre bs beyond : Bytes) :
    (⟨pre ++ bs, beyond⟩ : Batch).done pre.length = true ↔ bs = [] := by
  rw [Batch.done, decide_eq_true_iff, List.length_append]
  refine ⟨fun h => List.length_eq_zero_iff.mp (by omega), ?_⟩
  rintro rfl
  exact Nat.le_refl _

/-- What is read lies before an offset. -/
def ReadsBelow (bound : Nat) (reads : List Span) : Prop :=
  ∀ span ∈ reads, span.1 + span.2 ≤ bound

section Round

variable {b : Batch} {offset : Nat} {c : SingleClientRequests} {buffer : Bytes}

/-- **The four answers**: a client that is not known, -/
theorem checkRequest_client (hid : (b.request offset).clientId ≠ 2 ^ 32 - 1)
    (h : l.find? (b.request offset).clientId = none) :
    l.checkRequest b offset = ([(offset, 4)], .ok false) := by
  rw [checkRequest, clientExists_eq (clientId_lt b offset), if_neg hid, h]
  rfl

theorem clientExists_of_find {clientId : Nat} (hid : clientId < 2 ^ 32)
    (h : l.find? clientId = some c) : l.clientExists clientId = .ok true := by
  have hne : clientId ≠ 2 ^ 32 - 1 := by
    rintro rfl
    have hout : l.clientRequests[index (2 ^ 32 - 1)]? = none :=
      List.getElem?_eq_none (l.length_lt.le.trans (by decide))
    rw [find?, hout] at h
    cases h
  rw [clientExists_eq hid, if_neg hne, h]
  rfl

/-- a request that is not there, -/
theorem checkRequest_id (hc : l.find? (b.request offset).clientId = some c)
    (h : c.requests.find? (b.request offset).id = none) :
    l.checkRequest b offset = ([(offset, 4), (offset + 8, 8)], .ok false) := by
  rw [checkRequest, clientExists_of_find (clientId_lt b offset) hc, hc, Option.bind_some, h]

/-- one of another size, -/
theorem checkRequest_size (hc : l.find? (b.request offset).clientId = some c)
    (hb : c.requests.find? (b.request offset).id = some buffer)
    (h : buffer.length ≠ (b.request offset).size) :
    l.checkRequest b offset =
      ([(offset, 4), (offset + 8, 8), (offset + 16, 8)], .ok false) := by
  rw [checkRequest, clientExists_of_find (clientId_lt b offset) hc, hc, Option.bind_some, hb]
  exact if_pos h

/-- or one that is compared. -/
theorem checkRequest_payload (hc : l.find? (b.request offset).clientId = some c)
    (hb : c.requests.find? (b.request offset).id = some buffer)
    (h : buffer.length = (b.request offset).size) :
    l.checkRequest b offset =
      ([(offset, 4), (offset + 8, 8), (offset + 16, 8), (offset + 24, (b.request offset).size)],
        .ok (buffer = (b.request offset).payload)) := by
  rw [checkRequest, clientExists_of_find (clientId_lt b offset) hc, hc, Option.bind_some, hb]
  exact if_neg (not_not_intro h)

/-- What a round does. -/
theorem checkRequest_cases (l : RequestLog) (b : Batch) (offset : Nat) :
    (∃ reads e, l.checkRequest b offset = (reads, .error e)) ∨
      (b.request offset).clientId ≠ 2 ^ 32 - 1 ∧ l.find? (b.request offset).clientId = none ∨
      ∃ c, l.find? (b.request offset).clientId = some c ∧
        (c.requests.find? (b.request offset).id = none ∨
          ∃ buffer, c.requests.find? (b.request offset).id = some buffer) := by
  by_cases hid : (b.request offset).clientId = 2 ^ 32 - 1
  · rw [checkRequest, clientExists_eq (clientId_lt b offset), if_pos hid]
    exact .inl ⟨_, _, rfl⟩
  · cases hc : l.find? (b.request offset).clientId with
    | none => exact .inr (.inl ⟨hid, rfl⟩)
    | some c =>
        refine .inr (.inr ⟨c, rfl, ?_⟩)
        cases hb : c.requests.find? (b.request offset).id with
        | none => exact .inl rfl
        | some buffer => exact .inr ⟨buffer, rfl⟩

end Round

/-- A request that is stored. -/
theorem checkRequest_stores (h : l.Stores chunk) (pre rest beyond : Bytes) :
    ∃ reads, l.checkRequest ⟨pre ++ (chunk ++ rest), beyond⟩ pre.length = (reads, .ok true) ∧
      ReadsBelow (pre.length + chunk.length) reads := by
  obtain ⟨c, hc, hb⟩ := h.stored
  have hreq : (⟨pre ++ (chunk ++ rest), beyond⟩ : Batch).request pre.length = first chunk := by
    rw [← List.append_assoc, request_append]
    exact request_eq pre _ h.length_eq.le
  rw [← hreq] at hc hb
  have hcheck := checkRequest_payload hc hb (by rw [hreq, h.length_payload])
  rw [decide_eq_true rfl] at hcheck
  refine ⟨_, hcheck, ?_⟩
  have hlen := h.length_eq
  rw [hreq]
  simp only [ReadsBelow, List.forall_mem_cons]
  refine ⟨?_, ?_, ?_, ?_, nofun⟩ <;> omega

theorem next_stores (h : l.Stores chunk) (pre rest beyond : Bytes)
    (hlt : (pre ++ (chunk ++ rest)).length < 2 ^ 63) :
    (⟨pre ++ (chunk ++ rest), beyond⟩ : Batch).next pre.length = (pre ++ chunk).length := by
  have hreq : (⟨pre ++ (chunk ++ rest), beyond⟩ : Batch).request pre.length = first chunk := by
    rw [← List.append_assoc, request_append]
    exact request_eq pre _ h.length_eq.le
  have hlen := h.length_eq
  simp only [List.length_append] at hlt
  rw [Batch.next, hreq, Request.bufferSize, Request.headerSize, hlen, List.length_append,
    Nat.mod_eq_of_lt (by omega : chunk.length < 2 ^ 64), Nat.mod_eq_of_lt (by omega)]

/-- A request that is refused. -/
theorem checkRequest_refused (h : l.Refused bs) (pre beyond : Bytes) :
    ∃ reads, l.checkRequest ⟨pre ++ bs, beyond⟩ pre.length = (reads, .ok false) ∧
      ReadsBelow (pre.length + bs.length) reads := by
  cases h with
  | client hlen hid h =>
      rw [← request_clientId pre beyond hlen] at hid h
      refine ⟨_, checkRequest_client hid h, ?_⟩
      simp only [ReadsBelow, List.forall_mem_cons]
      exact ⟨by omega, nofun⟩
  | id hlen hc h =>
      rw [← request_clientId pre beyond (Nat.le_trans (by decide) hlen)] at hc
      rw [← request_id pre beyond hlen] at h
      refine ⟨_, checkRequest_id hc h, ?_⟩
      simp only [ReadsBelow, List.forall_mem_cons]
      exact ⟨by omega, by omega, nofun⟩
  | size hlen hc hb h =>
      rw [← request_clientId pre beyond (Nat.le_trans (by decide) hlen)] at hc
      rw [← request_id pre beyond (Nat.le_trans (by decide) hlen)] at hb
      rw [← request_size pre beyond hlen] at h
      refine ⟨_, checkRequest_size hc hb h, ?_⟩
      simp only [ReadsBelow, List.forall_mem_cons]
      exact ⟨by omega, by omega, by omega, nofun⟩
  | @payload c buffer hlen hc hb h =>
      have hreq := request_eq pre beyond hlen
      rw [← hreq] at hc hb h
      by_cases hs : buffer.length = (first bs).size
      · have hcheck := checkRequest_payload hc hb (by rw [hreq, hs])
        rw [decide_eq_false h] at hcheck
        refine ⟨_, hcheck, ?_⟩
        rw [hreq]
        simp only [ReadsBelow, List.forall_mem_cons]
        refine ⟨?_, ?_, ?_, ?_, nofun⟩ <;> omega
      · refine ⟨_, checkRequest_size hc hb (by rw [hreq]; exact hs), ?_⟩
        simp only [ReadsBelow, List.forall_mem_cons]
        exact ⟨by omega, by omega, by omega, nofun⟩

/-- A round that stays in the payload. -/
theorem checkRequest_inside {pre beyond : Bytes} {reads : List Span} {result : Bool}
    (h : l.checkRequest ⟨pre ++ bs, beyond⟩ pre.length = (reads, .ok result))
    (hr : ReadsBelow (pre ++ bs).length reads) :
    result = false ∧ l.Refused bs ∨
      result = true ∧ ∃ chunk rest, bs = chunk ++ rest ∧ l.Stores chunk := by
  have hlen : ∀ off n, (pre.length + off, n) ∈ reads → off + n ≤ bs.length := by
    intro off n hm
    have := hr _ hm
    rw [List.length_append] at this
    omega
  rcases checkRequest_cases l ⟨pre ++ bs, beyond⟩ pre.length with
    ⟨_, _, he⟩ | ⟨hid, hno⟩ | ⟨c, hc, hno | ⟨buffer, hb⟩⟩
  · cases h.symm.trans he
  · cases h.symm.trans (checkRequest_client hid hno)
    have h₀ : 4 ≤ bs.length := hlen 0 4 List.mem_cons_self
    rw [request_clientId pre beyond h₀] at hid hno
    exact .inl ⟨rfl, .client h₀ hid hno⟩
  · cases h.symm.trans (checkRequest_id hc hno)
    have h₀ : 16 ≤ bs.length := hlen 8 8 (by simp)
    rw [request_clientId pre beyond (Nat.le_trans (by decide) h₀)] at hc
    rw [request_id pre beyond h₀] at hno
    exact .inl ⟨rfl, .id h₀ hc hno⟩
  · by_cases hs : buffer.length = ((⟨pre ++ bs, beyond⟩ : Batch).request pre.length).size
    · cases h.symm.trans (checkRequest_payload hc hb hs)
      have hheader : 24 ≤ bs.length := hlen 16 8 (by simp)
      have h₀ : 24 + (first bs).size ≤ bs.length := by
        rw [← request_size pre beyond hheader]
        exact hlen 24 _ (by simp)
      have hreq := request_eq pre beyond h₀
      rw [hreq] at hc hb hs ⊢
      by_cases hp : buffer = (first bs).payload
      · exact .inr ⟨decide_eq_true hp, bs.take (24 + (first bs).size),
          bs.drop (24 + (first bs).size), (List.take_append_drop _ _).symm,
          stores_take h₀ hc (hp ▸ hb)⟩
      · exact .inl ⟨decide_eq_false hp, .payload h₀ hc hb hp⟩
    · cases h.symm.trans (checkRequest_size hc hb hs)
      have h₀ : 24 ≤ bs.length := hlen 16 8 (by simp)
      rw [request_clientId pre beyond (Nat.le_trans (by decide) h₀)] at hc
      rw [request_id pre beyond (Nat.le_trans (by decide) h₀)] at hb
      rw [request_size pre beyond h₀] at hs
      exact .inl ⟨rfl, .size h₀ hc hb hs⟩

/-! ### The loop -/

theorem readsBelow_append {bound : Nat} {xs ys : List Span} :
    ReadsBelow bound (xs ++ ys) ↔ ReadsBelow bound xs ∧ ReadsBelow bound ys :=
  List.forall_mem_append

/-- What is readable is read, and nothing else. -/
theorem exists_isValidFrom {chunks : List Bytes} (hall : ∀ chunk ∈ chunks, l.Stores chunk)
    (hrest : rest = [] ∨ l.Refused rest) (pre beyond : Bytes) {bound : Nat}
    (hb : (pre ++ (chunks.flatten ++ rest)).length = bound) (hlt : bound < 2 ^ 63) :
    ∃ rounds reads,
      l.isValidFrom ⟨pre ++ (chunks.flatten ++ rest), beyond⟩ rounds pre.length =
          some (reads, .ok (rest = [])) ∧ ReadsBelow bound reads := by
  induction chunks generalizing pre with
  | nil =>
      rw [List.flatten_nil, List.nil_append] at hb ⊢
      rcases hrest with rfl | hrest
      · refine ⟨1, [], ?_, nofun⟩
        rw [isValidFrom, if_pos ((done_append pre [] beyond).mpr rfl)]
        rfl
      · obtain ⟨reads, hcheck, hreads⟩ := checkRequest_refused hrest pre beyond
        have hne : rest ≠ [] := fun he => hrest.not_concatenation (he ▸ ⟨[], rfl, nofun⟩)
        refine ⟨1, reads, ?_, ?_⟩
        · rw [isValidFrom, if_neg fun hd => hne ((done_append pre rest beyond).mp hd), hcheck,
            decide_eq_false hne]
        · rw [← hb, List.length_append]
          exact hreads
  | cons chunk chunks ih =>
      have hs := hall chunk List.mem_cons_self
      have hassoc : pre ++ ((chunk :: chunks).flatten ++ rest) =
          (pre ++ chunk) ++ (chunks.flatten ++ rest) := by
        simp only [List.flatten_cons, List.append_assoc]
      obtain ⟨rounds, reads, hrun, hreads⟩ :=
        ih (fun c hc => hall c (List.mem_cons_of_mem _ hc)) (pre ++ chunk) (hassoc ▸ hb)
      rw [List.flatten_cons, List.append_assoc] at hb ⊢
      obtain ⟨reads₀, hcheck, hreads₀⟩ :=
        checkRequest_stores hs pre (chunks.flatten ++ rest) beyond
      have hnext := next_stores hs pre (chunks.flatten ++ rest) beyond (hb ▸ hlt)
      have hne : chunk ++ (chunks.flatten ++ rest) ≠ [] := fun he => by
        have hnil : chunk = [] := (List.append_eq_nil_iff.mp he).1
        exact absurd (hnil ▸ hs.header) (by decide)
      refine ⟨rounds + 1, reads₀ ++ reads, ?_, readsBelow_append.mpr ⟨?_, hreads⟩⟩
      · rw [isValidFrom, if_neg fun hd => hne ((done_append pre _ beyond).mp hd), hcheck]
        dsimp only
        rw [hnext, ← List.append_assoc pre chunk, hrun]
        rfl
      · intro span hm
        refine (hreads₀ span hm).trans ?_
        rw [← hb]
        simp only [List.length_append]
        omega

/-- What is read without leaving the payload is readable. -/
theorem readable_of_isValidFrom (pre : Bytes) {beyond : Bytes} {bound rounds : Nat} {reads : List Span}
    {result : Bool} (hb : (pre ++ bs).length = bound) (hlt : bound < 2 ^ 63)
    (hrun : l.isValidFrom ⟨pre ++ bs, beyond⟩ rounds pre.length = some (reads, .ok result))
    (hreads : ReadsBelow bound reads) : l.Readable bs := by
  induction rounds generalizing pre bs reads with
  | zero => cases hrun
  | succ rounds ih =>
      rw [isValidFrom] at hrun
      split at hrun
      · next hd =>
          obtain rfl := (done_append pre bs beyond).mp hd
          exact ⟨[], [], rfl, nofun, .inl rfl⟩
      · split at hrun
        · next reads₀ hcheck =>
            obtain ⟨⟨reads₁, _⟩, hrun₁, he⟩ := Option.map_eq_some_iff.mp hrun
            cases he
            obtain ⟨hreads₀, hreads₁⟩ := readsBelow_append.mp hreads
            rcases checkRequest_inside hcheck (hb ▸ hreads₀) with ⟨he, -⟩ | ⟨-, chunk, rest, rfl, hs⟩
            · cases he
            · rw [next_stores hs pre rest beyond (hb ▸ hlt), ← List.append_assoc] at hrun₁
              obtain ⟨chunks, tail, rfl, hall, htail⟩ :=
                ih (pre ++ chunk) (by rw [List.append_assoc]; exact hb) hrun₁ hreads₁
              refine ⟨chunk :: chunks, tail, ?_, fun c hc => ?_, htail⟩
              · rw [List.flatten_cons, List.append_assoc]
              · rcases List.mem_cons.mp hc with rfl | hc
                · exact hs
                · exact hall c hc
        · next hcheck =>
            have hcheck' := Option.some.inj hrun
            rcases checkRequest_inside hcheck' (hb ▸ hreads) with ⟨-, hrefused⟩ | ⟨rfl, -⟩
            · exact ⟨[], bs, rfl, nofun, .inr hrefused⟩
            · exact absurd hcheck' (hcheck _)

/-- By induction on the requests in front. -/
theorem concatenation_iff {chunks : List Bytes} (hall : ∀ chunk ∈ chunks, l.Stores chunk)
    (hrest : rest = [] ∨ l.Refused rest) :
    l.Concatenation (chunks.flatten ++ rest) ↔ rest = [] := by
  induction chunks with
  | nil =>
      rcases hrest with rfl | hrest
      · exact ⟨fun _ => rfl, fun _ => ⟨[], rfl, nofun⟩⟩
      · refine ⟨fun hc => absurd hc hrest.not_concatenation, ?_⟩
        rintro rfl
        exact ⟨[], rfl, nofun⟩
  | cons chunk chunks ih =>
      rw [List.flatten_cons, List.append_assoc,
        (hall chunk List.mem_cons_self).concatenation_iff]
      exact ih fun c hc => hall c (List.mem_cons_of_mem _ hc)

/-- **Validity.**  Whatever the bytes of a Prepare, its batch is checked without an error and
without a read beyond them, and is valid when it is a concatenation of requests that are stored,
if and only if the first request that is not stored, if any, is not of the client -1 and shows it
before the bytes end. -/
theorem validated_iff (l : RequestLog) (p : Payload) (beyond : Bytes) :
    l.Validated p.bytes beyond ↔ l.Readable p.bytes := by
  constructor
  · rintro ⟨rounds, reads, result, hrun, hreads, -⟩
    exact readable_of_isValidFrom [] rfl p.size_lt hrun hreads
  · rintro ⟨chunks, rest, hp, hall, hrest⟩
    have hb : ([] ++ (chunks.flatten ++ rest)).length = p.bytes.length := congrArg _ hp.symm
    obtain ⟨rounds, reads, hrun, hreads⟩ :=
      exists_isValidFrom hall hrest [] beyond hb p.size_lt
    rw [List.nil_append, ← hp] at hrun
    refine ⟨rounds, reads, Decidable.decide (rest = []), hrun, hreads, ?_⟩
    rw [decide_eq_true_iff, hp]
    exact (concatenation_iff hall hrest).symm

/-- A request of the client -1, without a payload. -/
def Example.minusOne : Payload :=
  ⟨le 4 (2 ^ 32 - 1) ++ le 4 0 ++ le 8 0 ++ le 8 0, by decide⟩

/-- It is looked up in the vector, which throws. -/
theorem not_validated : ¬ ∀ (l : RequestLog) (p : Payload) (beyond : Bytes),
    l.Validated p.bytes beyond := by
  intro h
  obtain ⟨rounds, reads, result, hrun, -⟩ := h (start 1 8 (by decide)) Example.minusOne []
  cases rounds with
  | zero => cases hrun
  | succ rounds =>
      have hthrown : (start 1 8 (by decide)).isValid ⟨Example.minusOne.bytes, []⟩ (rounds + 1) =
          some ([(0, 4)], .error (.outOfRange (2 ^ 32 - 1))) := rfl
      rw [hthrown] at hrun
      cases hrun

end RequestLog

end Ubft.Requests
