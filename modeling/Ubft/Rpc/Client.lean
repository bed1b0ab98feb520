import Ubft.Support.Bytes
import Ubft.Support.Runs
import Ubft.Store.Tail

/-!
# Rpc — the client

`rpc/client.hpp`'s `Client`, as far as responses go: what is sent to the servers, and the
signatures of the slow path, are left out.  `tick` polls the servers in turn; an operation polls
one of them.

The client counts messages, not servers.  What it returns was sent by a majority of the servers
in the runs where no server is counted twice and all responses are the first one (`Counts`).
-/

namespace Ubft.Rpc

/-! ### Responses -/

/-- `internal::Response`: a buffer with room for the request's id. -/
structure Response where
  raw : Bytes
  long : 8 ≤ raw.length
  deriving DecidableEq

namespace Response

/-- A response and the identifier in front of it. -/
def bufferSize (size : Nat) : Nat := 8 + size

/-- `none` is "Buffer too small!". -/
def tryFrom (buffer : Bytes) : Option Response :=
  if h : 8 ≤ buffer.length then some ⟨buffer, h⟩ else none

/-- The identifier of the request that is answered, in the first eight bytes. -/
def requestId (r : Response) : Nat := ofLe (r.raw.take 8)

/-- From `begin` to `end`. -/
def content (r : Response) : Bytes := r.raw.drop 8

/-- `Buffer::operator==` compares as many bytes as the left buffer has; `beyond` is what follows
the right one in memory. -/
def same (r first : Response) (beyond : Bytes) : Bool :=
  r.raw = (first.raw ++ beyond).take r.raw.length

end Response

/-- What a client throws, and the one thing it does without throwing. -/
inductive Error where
  /-- "Resize tried to reallocate beyond the initial size." -/
  | resize
  /-- "Buffer too small!" -/
  | tooSmall
  /-- "Byzantine behavior, responses did not match." -/
  | mismatch
  /-- Nothing is thrown: a response is written outside of the array. -/
  | outsideResponses
  | emplace (e : EmplaceError)
  deriving DecidableEq, Repr

/-! ### Requests -/

/-- The size of the array of responses of one request. -/
def maxNbServers : Nat := 5

/-- `RequestData`.  `responses` is the part of the array that is filled, each response with the
server it came from, which the source does not keep. -/
structure RequestData where
  quorum : Nat
  responses : List (Nat × Response) := []
  allIdentical : Bool := true

namespace RequestData

/-- A majority of the servers has to answer. -/
def of (nbServers : Nat) : RequestData := { quorum := nbServers / 2 + 1 }

/-- Whether the responses are still identical once `r` comes in. -/
def identicalWith (d : RequestData) (r : Response) (beyond : Bytes) : Bool :=
  match d.responses.head? with
  | none => true
  | some first => d.allIdentical && r.same first.2 beyond

/-- The response is compared with the first one and joins the array. -/
def newResponse (d : RequestData) (server : Nat) (r : Response) (beyond : Bytes) :
    Except Error RequestData :=
  if d.responses.length < maxNbServers then
    .ok { d with
      allIdentical := d.identicalWith r beyond
      responses := d.responses ++ [(server, r)] }
  else .error .outsideResponses

/-- The content of the first response, once a quorum answered alike. -/
def poll (d : RequestData) : Except Error (Option Bytes) :=
  if d.responses.length < d.quorum then .ok none
  else if d.allIdentical then .ok (d.responses.head?.map (·.2.content))
  else .error .mismatch

end RequestData

/-! ### The client -/

/-- `received` is the history of the responses polled, the latest first, each with its server. -/
structure Client where
  window : Nat
  nbServers : Nat
  maxRequestSize : Nat
  maxResponseSize : Nat
  nextRequest : Nat := 0
  nextResponse : Nat → Nat := fun _ => 0
  requests : TailMap RequestData := ⟨window, .empty, 0⟩
  requestsBeingWritten : List Nat := []
  received : List (Nat × Response) := []

namespace Client

/-- The request gets the next identifier and waits for `post`. -/
def getSlot (s : Client) (size : Nat) : Except Error Client :=
  if s.maxRequestSize < size then .error .resize
  else .ok { s with
    nextRequest := (s.nextRequest + 1) % 2 ^ 64
    requestsBeingWritten := s.requestsBeingWritten ++ [s.nextRequest] }

/-- The loop of `post`. -/
def emplaceAll (nbServers : Nat) : TailMap RequestData → List Nat →
    Except Error (TailMap RequestData)
  | t, [] => .ok t
  | t, i :: is =>
    match t.tryEmplaceWord i (.of nbServers) with
    | .error e => .error (.emplace e)
    | .ok (t, _) => emplaceAll nbServers t is

/-- Every request being written joins the requests that wait for an answer. -/
def post (s : Client) : Except Error Client := do
  return { s with
    requests := ← emplaceAll s.nbServers s.requests s.requestsBeingWritten
    requestsBeingWritten := [] }

/-- A response that was polled. -/
def handleResponse (s : Client) (server : Nat) (r : Response) (beyond : Bytes) :
    Except Error Client :=
  let s := { s with
    nextResponse := Function.update s.nextResponse server ((r.requestId + 1) % 2 ^ 64)
    received := (server, r) :: s.received }
  match s.requests.find? r.requestId with
  | none => .ok s
  | some d => do
    let d ← d.newResponse server r beyond
    return { s with requests := s.requests.modify r.requestId fun _ => d }

/-- Only servers that have not responded to all requests are polled. -/
def Polls (s : Client) (server : Nat) : Prop :=
  server < s.nbServers ∧ s.nextResponse server < s.nextRequest

instance (s : Client) (server : Nat) : Decidable (s.Polls server) :=
  inferInstanceAs (Decidable (_ ∧ _))

/-- The round of `pollResponses` for a server. -/
def pollResponse (s : Client) (server : Nat) (polled : Option Bytes) (beyond : Bytes) :
    Except Error Client :=
  if s.Polls server then
    match polled with
    | none => .ok s
    | some buffer =>
      if Response.bufferSize s.maxResponseSize < buffer.length then .error .resize
      else
        match Response.tryFrom buffer with
        | none => .error .tooSmall
        | some r => s.handleResponse server r beyond
  else .ok s

/-- `poll`, with the id of the request that was answered. -/
def poll (s : Client) : Except Error (Client × Option (Nat × Bytes)) :=
  match s.requests.first? with
  | none => .ok (s, none)
  | some (i, d) => do
    match ← d.poll with
    | none => return (s, none)
    | some bytes =>
      return ({ s with requests := { s.requests with map := s.requests.map.popFront } },
        some (i, bytes))

/-! ### Runs -/

/-- What the environment answers: the bytes received, and those that follow in memory. -/
inductive Op where
  | getSlot (size : Nat)
  | post
  | pollResponse (server : Nat) (polled : Option Bytes) (beyond : Bytes)
  | poll
  deriving DecidableEq

/-- One call on the client. -/
def apply (s : Client) : Op → Except Error Client
  | .getSlot size => s.getSlot size
  | .post => s.post
  | .pollResponse server polled beyond => s.pollResponse server polled beyond
  | .poll => do return (← s.poll).1

/-- A client that made no request, whatever its parameters. -/
def Init (s : Client) : Prop :=
  ∃ window nbServers maxRequestSize maxResponseSize,
    s = { window, nbServers, maxRequestSize, maxResponseSize }

/-- A call that throws nothing. -/
def Step (s : Client) (op : Op) (s' : Client) : Prop := s.apply op = .ok s'

/-- The response that an operation counts, with the request it is for. -/
def counting (s : Client) : Op → Option (Nat × Response × RequestData)
  | .pollResponse server (some buffer) _ =>
    if s.Polls server then
      (Response.tryFrom buffer).bind fun r =>
        (s.requests.find? r.requestId).map fun d => (server, r, d)
    else none
  | _ => none

/-- A response that is counted is the first one of its server for the request, it is the one that
came first, and it is among the five first ones. -/
def Counts (s : Client) (op : Op) : Prop :=
  ∀ vote ∈ s.counting op,
    vote.1 ∉ vote.2.2.responses.map Prod.fst ∧
    (∀ first ∈ vote.2.2.responses.head?, vote.2.1 = first.2) ∧
    (s.nbServers ≤ maxNbServers ∨ vote.2.2.responses.length < maxNbServers)

instance (s : Client) (op : Op) : Decidable (s.Counts op) :=
  inferInstanceAs (Decidable (∀ vote ∈ s.counting op, _ ∧ (∀ first ∈ _, _) ∧ _))

/-- The servers that are not faulty answer each request once, and alike. -/
def Behaves (faulty : List Nat) (answer : Nat → Bytes) (s : Client) : Op → Prop
  | .pollResponse server (some buffer) _ => server ∉ faulty →
    ∃ r ∈ Response.tryFrom buffer, r.content = answer r.requestId ∧
      ∀ v ∈ s.received, v.1 = server → v.2.requestId ≠ r.requestId
  | _ => True

instance (faulty : List Nat) (answer : Nat → Bytes) (s : Client) (op : Op) :
    Decidable (Behaves faulty answer s op) := by
  unfold Behaves
  split <;> infer_instance

/-- A majority of the servers sent that response. -/
def Answered (s : Client) (i : Nat) (bytes : Bytes) : Prop :=
  ∃ servers : List Nat, servers.Nodup ∧ s.nbServers / 2 + 1 ≤ servers.length ∧
    ∀ v ∈ servers, v < s.nbServers ∧
      ∃ r, (v, r) ∈ s.received ∧ r.requestId = i ∧ r.content = bytes

/-- What the client promises in a state, whatever comes next. -/
structure Safe (next : Op → Prop) (s : Client) : Prop where
  quorum : ∀ s' i bytes, s.poll = .ok (s', some (i, bytes)) → s.Answered i bytes
  inside : ∀ op, next op → s.apply op ≠ .error .outsideResponses
  matching : s.poll ≠ .error .mismatch

/-! ### What is counted -/

/-- What a request knows was sent: the first response, by servers that are counted once. -/
structure Valid (s : Client) (i : Nat) (d : RequestData) : Prop where
  quorum : d.quorum = s.nbServers / 2 + 1
  identical : d.allIdentical = true
  nodup : (d.responses.map Prod.fst).Nodup
  votes : ∀ v ∈ d.responses, v.1 < s.nbServers ∧ v ∈ s.received ∧ v.2.requestId = i
  alike : ∀ v ∈ d.responses, ∀ first ∈ d.responses.head?, v.2 = first.2

variable {s s' : Client}

theorem valid_of (s : Client) (i : Nat) : s.Valid i (.of s.nbServers) :=
  ⟨rfl, rfl, .nil, fun _ hv => (nomatch hv), fun _ hv => (nomatch hv)⟩

/-- More responses may have been received. -/
theorem Valid.mono {i : Nat} {d : RequestData} (h : s.Valid i d)
    (hn : s'.nbServers = s.nbServers) (hr : s.received ⊆ s'.received) : s'.Valid i d := by
  refine ⟨hn ▸ h.quorum, h.identical, h.nodup, fun v hv => ?_, h.alike⟩
  obtain ⟨hlt, hmem, hi⟩ := h.votes v hv
  exact ⟨hn ▸ hlt, hr hmem, hi⟩

/-- A response is the same as itself. -/
theorem same_self (r : Response) (beyond : Bytes) : r.same r beyond = true := by
  rw [Response.same, List.take_left]
  exact decide_eq_true rfl

/-- Comparing with the first response. -/
theorem identicalWith_first {d : RequestData} {r : Response} (h : d.allIdentical = true)
    (hr : ∀ first ∈ d.responses.head?, r = first.2) (beyond : Bytes) :
    d.identicalWith r beyond = true := by
  unfold RequestData.identicalWith
  split
  · rfl
  · next first hf =>
      obtain rfl := hr first hf
      rw [h, same_self]
      rfl

/-- There is room for the response of another server. -/
theorem Valid.room {i server : Nat} {d : RequestData} (h : s.Valid i d)
    (hs : server < s.nbServers) (hnew : server ∉ d.responses.map Prod.fst) :
    d.responses.length < s.nbServers := by
  have hsub : server :: d.responses.map Prod.fst ⊆ List.range s.nbServers := by
    intro v hv
    rw [List.mem_range]
    rcases List.mem_cons.mp hv with rfl | hv
    · exact hs
    · obtain ⟨w, hw, rfl⟩ := List.mem_map.mp hv
      exact (h.votes w hw).1
  have hle := (List.subperm_of_subset (List.nodup_cons.mpr ⟨hnew, h.nodup⟩) hsub).length_le
  rw [List.length_cons, List.length_map, List.length_range] at hle
  exact hle

/-- A response that counts is recorded. -/
theorem Valid.newResponse {server : Nat} {r : Response} {d : RequestData}
    (h : s.Valid r.requestId d) (hs : server < s.nbServers)
    (hnew : server ∉ d.responses.map Prod.fst)
    (hfirst : ∀ first ∈ d.responses.head?, r = first.2) (hr : (server, r) ∈ s.received)
    (hroom : s.nbServers ≤ maxNbServers ∨ d.responses.length < maxNbServers) (beyond : Bytes) :
    ∃ d', d.newResponse server r beyond = .ok d' ∧ s.Valid r.requestId d' := by
  -- each server is recorded once, so that the array has room
  have hlt : d.responses.length < maxNbServers := by
    rcases hroom with hn | hlt
    · exact Nat.lt_of_lt_of_le (h.room hs hnew) hn
    · exact hlt
  refine ⟨_, if_pos hlt, h.quorum, ?_, ?_, fun v hv => ?_, fun v hv first hf => ?_⟩
  · exact identicalWith_first h.identical hfirst beyond
  · rw [List.map_append, List.nodup_append]
    refine ⟨h.nodup, List.nodup_singleton _, fun a ha b hb => ?_⟩
    rw [List.mem_singleton.mp hb]
    rintro rfl
    exact hnew ha
  · rcases List.mem_append.mp hv with hv | hv
    · exact h.votes v hv
    · rw [List.mem_singleton.mp hv]
      exact ⟨hs, hr, rfl⟩
  · -- the first response does not change once there is one
    cases hd : d.responses with
    | nil =>
        rw [hd] at hv hf
        cases hf
        rw [List.mem_singleton.mp hv]
    | cons first' rest =>
        rw [hd] at hv hf
        cases hf
        have hh : first ∈ d.responses.head? := by rw [hd]; rfl
        rcases List.mem_append.mp hv with hv | hv
        · exact h.alike v (hd ▸ hv) first hh
        · rw [List.mem_singleton.mp hv]
          exact hfirst first hh

/-- What is pending is valid. -/
def Counted (s : Client) : Prop := ∀ i d, s.requests.find? i = some d → s.Valid i d

/-- New requests have no answers. -/
theorem counted_emplaceAll {is : List Nat} {t t' : TailMap RequestData}
    (h : emplaceAll s.nbServers t is = .ok t')
    (ht : ∀ i d, t.find? i = some d → s.Valid i d) :
    ∀ i d, t'.find? i = some d → s.Valid i d := by
  induction is generalizing t with
  | nil => cases h; exact ht
  | cons k is ih =>
      rw [emplaceAll] at h
      split at h
      · cases h
      · next t₁ b heq =>
          refine ih h fun i d hd => ?_
          cases b with
          | false =>
              rcases TailMap.tryEmplaceWord_cases heq with ⟨-, rfl, -⟩ | ⟨hb, -⟩
              · exact ht i d hd
              · cases hb
          | true =>
              rcases TailMap.find?_tryEmplaceWord_cases heq hd with ⟨-, rfl⟩ | hd
              · exact valid_of s i
              · exact ht i d hd

/-- A response that is polled: it counts when it is for a request that is pending. -/
theorem handleResponse_counts {server : Nat} {r : Response} (h : s.Counted)
    (hs : server < s.nbServers)
    (hc : ∀ d, s.requests.find? r.requestId = some d → server ∉ d.responses.map Prod.fst ∧
      (∀ first ∈ d.responses.head?, r = first.2) ∧
      (s.nbServers ≤ maxNbServers ∨ d.responses.length < maxNbServers)) (beyond : Bytes) :
    ∃ s', s.handleResponse server r beyond = .ok s' ∧ s'.Counted := by
  unfold handleResponse
  simp only
  have hsub : s.received ⊆ (server, r) :: s.received := List.subset_cons_self ..
  cases hd : s.requests.find? r.requestId with
  | none => exact ⟨_, rfl, fun i d hi => (h i d hi).mono rfl hsub⟩
  | some d =>
      obtain ⟨hnew, hfirst, hroom⟩ := hc d hd
      have hv : Valid { s with
          nextResponse := Function.update s.nextResponse server ((r.requestId + 1) % 2 ^ 64)
          received := (server, r) :: s.received } r.requestId d :=
        (h r.requestId d hd).mono rfl hsub
      obtain ⟨d', hd', hv'⟩ := hv.newResponse hs hnew hfirst List.mem_cons_self hroom beyond
      refine ⟨_, bind_eq_ok.mpr ⟨d', hd', rfl⟩, fun i x hi => ?_⟩
      have hi : (s.requests.modify r.requestId fun _ => d').find? i = some x := hi
      rw [TailMap.find?_modify] at hi
      split at hi
      · next heq =>
          rw [hd] at hi
          cases hi
          subst heq
          exact hv'.mono rfl (List.Subset.refl _)
      · exact (h i x hi).mono rfl hsub

/-- **Responses.**  One that counts is recorded, and it finds a place in the array. -/
theorem pollResponse_counts {server : Nat} {polled : Option Bytes} {beyond : Bytes}
    (h : s.Counted) (hc : s.Counts (.pollResponse server polled beyond)) :
    s.pollResponse server polled beyond ≠ .error .outsideResponses ∧
      ∀ s', s.pollResponse server polled beyond = .ok s' → s'.Counted := by
  unfold pollResponse
  split
  · next hp =>
      split
      · exact ⟨nofun, fun s' hs => by cases hs; exact h⟩
      · next buffer =>
          split
          · exact ⟨nofun, nofun⟩
          · split
            · exact ⟨nofun, nofun⟩
            · next r hr =>
                have hcounting : ∀ d, s.requests.find? r.requestId = some d →
                    (server, r, d) ∈ s.counting (.pollResponse server (some buffer) beyond) := by
                  intro d hd
                  rw [counting, if_pos hp, hr, Option.bind_some, hd]
                  rfl
                obtain ⟨s', hs', hi⟩ :=
                  handleResponse_counts h hp.1 (fun d hd => hc _ (hcounting d hd)) beyond
                rw [hs']
                exact ⟨nofun, fun s'' hs => by cases hs; exact hi⟩
  · exact ⟨nofun, fun s' hs => by cases hs; exact h⟩

/-- Polling only takes requests away. -/
theorem counted_poll {o : Option (Nat × Bytes)} (h : s.Counted) (hp : s.poll = .ok (s', o)) :
    s'.Counted := by
  unfold poll at hp
  split at hp
  · cases hp; exact h
  · obtain ⟨answer, -, hp⟩ := bind_eq_ok.mp hp
    split at hp
    · cases hp; exact h
    · cases hp
      exact fun i d hi => (h i d (OrdMap.find?_of_popFront hi)).mono rfl (List.Subset.refl _)

/-- A call that counts right keeps the answers counted. -/
theorem counted_step {op : Op} (h : s.Counted) (hc : s.Counts op) (hs : s.Step op s') :
    s'.Counted := by
  cases op with
  | getSlot size =>
      unfold Step apply getSlot at hs
      simp only at hs
      split at hs
      · cases hs
      · cases hs
        exact fun i d hi => (h i d hi).mono rfl (List.Subset.refl _)
  | post =>
      obtain ⟨t, ht, hs⟩ := bind_eq_ok.mp hs
      cases hs
      exact fun i d hi => (counted_emplaceAll ht h i d hi).mono rfl (List.Subset.refl _)
  | pollResponse server polled beyond => exact (pollResponse_counts h hc).2 s' hs
  | poll =>
      obtain ⟨⟨s₁, o⟩, hp, hs⟩ := bind_eq_ok.mp hs
      cases hs
      exact counted_poll h hp

theorem counted_of_reachable (h : Reachable Init Step Counts s) : s.Counted := by
  refine h.induct (P := Counted) (fun s hs => ?_) fun s op s' _ hi hc hs => counted_step hi hc hs
  obtain ⟨window, nbServers, maxRequestSize, maxResponseSize, rfl⟩ := hs
  exact fun i d hi => (nomatch hi)

/-- What is returned is the first response, and its voters are a majority. -/
theorem Valid.answered {i : Nat} {d : RequestData} {bytes : Bytes} (h : s.Valid i d)
    (hp : d.poll = .ok (some bytes)) : s.Answered i bytes := by
  unfold RequestData.poll at hp
  split at hp
  · cases hp
  · next hq =>
      rw [if_pos h.identical] at hp
      obtain ⟨first, hfirst, rfl⟩ := Option.map_eq_some_iff.mp (Except.ok.inj hp)
      refine ⟨d.responses.map Prod.fst, h.nodup, ?_, fun v hv => ?_⟩
      · rw [List.length_map, ← h.quorum]
        exact Nat.not_lt.mp hq
      · obtain ⟨⟨server, r⟩, hw, rfl⟩ := List.mem_map.mp hv
        obtain ⟨hlt, hmem, hi⟩ := h.votes _ hw
        refine ⟨hlt, r, hmem, hi, ?_⟩
        rw [show r = first.2 from h.alike _ hw first hfirst]

theorem Valid.matching {i : Nat} {d : RequestData} (h : s.Valid i d) :
    d.poll ≠ .error .mismatch := by
  unfold RequestData.poll
  rw [if_pos h.identical]
  split <;> exact nofun

theorem emplaceAll_inside {n : Nat} {is : List Nat} {t : TailMap RequestData} :
    emplaceAll n t is ≠ .error .outsideResponses := by
  induction is generalizing t with
  | nil => exact nofun
  | cons i is ih =>
      rw [emplaceAll]
      split
      · exact nofun
      · exact ih

/-- An error of `poll` is that of a request. -/
theorem poll_eq_error {e : Error} (h : s.poll = .error e) :
    ∃ i d, s.requests.find? i = some d ∧ d.poll = .error e := by
  unfold poll at h
  split at h
  · cases h
  · next i d hf =>
      refine ⟨i, d, OrdMap.find?_of_first? hf, ?_⟩
      cases hp : d.poll with
      | error e' => rw [hp] at h; cases h; rfl
      | ok o => rw [hp] at h; cases o <;> cases h

theorem poll_inside (d : RequestData) : d.poll ≠ .error .outsideResponses := by
  unfold RequestData.poll
  split
  · exact nofun
  · split <;> exact nofun

/-- No response is written outside of its array. -/
theorem Counted.inside {op : Op} (h : s.Counted) (hc : s.Counts op) :
    s.apply op ≠ .error .outsideResponses := by
  cases op with
  | getSlot size =>
      unfold apply getSlot
      simp only
      split <;> exact nofun
  | post =>
      unfold apply post
      intro he
      -- what is emplaced is empty
      cases ht : emplaceAll s.nbServers s.requests s.requestsBeingWritten with
      | error e =>
          rw [ht] at he
          cases he
          exact emplaceAll_inside ht
      | ok t => rw [ht] at he; cases he
  | pollResponse server polled beyond => exact (pollResponse_counts h hc).1
  | poll =>
      unfold apply
      intro he
      cases hp : s.poll with
      | error e =>
          rw [hp] at he
          cases he
          obtain ⟨i, d, -, hd⟩ := poll_eq_error hp
          exact poll_inside d hd
      | ok o => rw [hp] at he; cases he

/-- **Response quorum.**  As long as what is counted counts, the client returns what a majority of
the servers sent, stays within the array and never finds that the responses do not match. -/
theorem safe_of_counts (h : Reachable Init Step Counts s) : Safe s.Counts s := by
  have hi := counted_of_reachable h
  refine ⟨fun s' i bytes hp => ?_, fun op hc => hi.inside hc, fun hp => ?_⟩
  · unfold poll at hp
    split at hp
    · cases hp
    · next d hf =>
        obtain ⟨answer, hd, hp⟩ := bind_eq_ok.mp hp
        split at hp
        · cases hp
        · cases hp
          exact (hi i d (OrdMap.find?_of_first? hf)).answered hd
  · obtain ⟨i, d, hd, he⟩ := poll_eq_error hp
    exact (hi i d hd).matching he

end Client

namespace Example

open Client

/-- A response to request `id`. -/
def response (id : Nat) (content : Bytes) : Bytes := le 8 id ++ content

/-- A client of three servers posts two requests. -/
def posting : List Op := [.getSlot 1, .getSlot 1, .post]

/-- Server 0 forges a response to request 0, twice. -/
def forging : List Op :=
  posting ++ [.pollResponse 0 (some (response 0 [9])) [], .pollResponse 1 none [],
    .pollResponse 2 none [], .pollResponse 0 (some (response 0 [9])) []]

/-- Servers 0 and 1 answer request 0. -/
def answering : List Op :=
  posting ++ [.pollResponse 0 (some (response 0 [7])) [], .pollResponse 1 (some (response 0 [7])) []]

/-- Three servers, a window of two. -/
def client : Client := { window := 2, nbServers := 3, maxRequestSize := 8, maxResponseSize := 8 }

/-- The forged response is returned, and only server 0 was polled. -/
def forged (s : Client) : Bool :=
  match s.poll with
  | .ok (_, some (0, [9])) => s.nbServers == 3 && s.received.all fun v => v.1 == 0
  | _ => false

/-- The response is returned. -/
def answered (s : Client) : Bool :=
  match s.poll with
  | .ok (_, some (0, [7])) => true
  | _ => false

theorem forged_cases {s : Client} (h : forged s = true) :
    (∃ s', s.poll = .ok (s', some (0, [9]))) ∧ s.nbServers = 3 ∧ ∀ v ∈ s.received, v.1 = 0 := by
  unfold forged at h
  split at h
  · next s' hp =>
      obtain ⟨hn, hv⟩ := Bool.and_eq_true_iff.mp h
      exact ⟨⟨s', hp⟩, beq_iff_eq.mp hn, fun v hm => beq_iff_eq.mp (List.all_eq_true.mp hv v hm)⟩
  · cases h

theorem answered_cases {s : Client} (h : answered s = true) :
    ∃ s', s.poll = .ok (s', some (0, [7])) := by
  unfold answered at h
  split at h
  · next s' hp => exact ⟨s', hp⟩
  · cases h

end Example

namespace Client

/-- One server of three has its forged response returned. -/
theorem forged_returned :
    ¬ ∀ (s : Client) (faulty : List Nat) (answer : Nat → Bytes),
        faulty.length ≤ (s.nbServers - 1) / 2 →
        Reachable Init Step (Behaves faulty answer) s → Safe (Behaves faulty answer s) s := by
  intro h
  obtain ⟨s, hr, hs⟩ : ∃ s, Reachable Init Step (Behaves [0] fun _ => [7]) s ∧
      Example.forged s = true :=
    exists_reachable Example.client ⟨2, 3, 8, 8, rfl⟩ Example.forging (by decide +kernel)
  obtain ⟨⟨s', hp⟩, hn, hv⟩ := Example.forged_cases hs
  obtain ⟨servers, hnodup, hlen, hsent⟩ := (h s [0] _ (by rw [hn]; decide) hr).quorum s' 0 [9] hp
  have hsub : servers ⊆ [0] := by
    intro v hm
    obtain ⟨-, r, hr, -⟩ := hsent v hm
    exact List.mem_singleton.mpr (hv _ hr)
  have hle := (List.subperm_of_subset hnodup hsub).length_le
  rw [hn] at hlen
  exact absurd (Nat.le_trans hlen hle) (by decide)

/-- Two servers of three answer. -/
theorem safe_of_counts_two : ∃ s s' : Client, s.poll = .ok (s', some (0, [7])) ∧
    Safe s.Counts s := by
  obtain ⟨s, hr, hs⟩ : ∃ s, Reachable Init Step Counts s ∧ Example.answered s = true :=
    exists_reachable Example.client ⟨2, 3, 8, 8, rfl⟩ Example.answering (by decide +kernel)
  obtain ⟨s', hp⟩ := Example.answered_cases hs
  exact ⟨s, s', hp, safe_of_counts hr⟩

end Client

end Ubft.Rpc
