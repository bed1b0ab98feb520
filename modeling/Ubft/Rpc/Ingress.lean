import Ubft.Consensus.Definitions
import Ubft.Rpc.Request
import Ubft.Store.Tail

/-!
# Rpc — the ingress

`rpc/internal/ingress.hpp`'s `RequestStateMachine` and `ClientRequestIngress`: the requests of one
client, received from it, echoed by the followers or verified with their signatures, and the cursors
they are polled with.  A request is the bytes of its buffer (`RawRequest`), as `Request::tryFrom`
accepted it; an id has 64 bits.

The vectors with an element for each follower are functions on `Fin cfg.nbFollowers`: the server
passes the index of a server it is connected to.
-/

namespace Ubft.Rpc

/-- A `Request` that `tryFrom` accepted. -/
structure RawRequest where
  raw : Bytes
  accepted : raw.length = 24 + ofLe (Layout.read raw 16 8)
  deriving DecidableEq

namespace RawRequest

variable {r r' : RawRequest}

/-- The second word of the raw request. -/
def id (r : RawRequest) : Nat := ofLe (Layout.read r.raw 8 8)

/-- `Buffer::operator==` compares as many bytes as the left buffer has; `beyond` is what follows the
right one in memory. -/
def same (r r' : RawRequest) (beyond : Bytes) : Bool :=
  r.raw = (r'.raw ++ beyond).take r.raw.length

/-- A raw request has its header. -/
theorem header_le (r : RawRequest) : 24 ≤ r.raw.length := by
  rw [r.accepted]
  exact Nat.le_add_right ..

/-- An identifier is on 64 bits. -/
theorem id_lt (r : RawRequest) : r.id < 2 ^ 64 := by
  have h := ofLe_lt (Layout.read r.raw 8 8)
  rwa [Layout.length_read ((by decide : 8 + 8 ≤ 24).trans r.header_le)] at h

/-- The size is among the bytes compared, so that nothing beyond is. -/
theorem same_iff (beyond : Bytes) : r.same r' beyond = true ↔ r = r' := by
  rw [same, decide_eq_true_iff]
  constructor
  · intro h
    have hsize : Layout.read r.raw 16 8 = Layout.read r'.raw 16 8 := by
      rw [h, Layout.read_take r.header_le, Layout.read_append_left r'.header_le]
    have hlen : r.raw.length = r'.raw.length := by rw [r.accepted, r'.accepted, hsize]
    rw [hlen, List.take_left'] at h
    · cases r
      cases r'
      cases h
      rfl
    · rfl
  · rintro rfl
    exact (List.take_left' rfl).symm

end RawRequest

namespace Ingress

open Consensus (DynamicBitset)

/-! ### The requests -/

/-- The window, and the servers.  `DynamicBitset` throws above its capacity. -/
structure Config where
  window : Nat
  unanimitySize : Nat
  window_pos : 0 < window
  window_lt : window < 2 ^ 64
  unanimity_pos : 0 < unanimitySize
  unanimity_le : unanimitySize ≤ DynamicBitset.maxCapacity

/-- The other servers of a unanimous echo. -/
def Config.nbFollowers (cfg : Config) : Nat := cfg.unanimitySize - 1

/-- What a server knows about one request: who echoed it, and its signature. -/
structure RequestStateMachine where
  req : RawRequest
  /-- Its capacity is the size of unanimity, its last bit the server's own. -/
  echoes : DynamicBitset
  signature : Option Signature

namespace RequestStateMachine

/-- The constructor. -/
def of (unanimitySize : Nat) (req : RawRequest) (signature : Option Signature) :
    RequestStateMachine where
  req := req
  echoes := (DynamicBitset.empty unanimitySize).set (unanimitySize - 1)
  signature := signature

/-- `same_iff` is what the requests are compared with. -/
def echoed (m : RequestStateMachine) (echo : RawRequest) (followerIdx : Nat) :
    RequestStateMachine × Bool :=
  if m.echoes.get followerIdx then (m, false)
  else if echo ≠ m.req then (m, false)
  else ({ m with echoes := m.echoes.set followerIdx }, true)

/-- A verified signature was found. -/
def checkedSignature (m : RequestStateMachine) (sig : Signature) : RequestStateMachine :=
  { m with signature := some sig }

/-- In the optimistic mode at once, else by the echoes or by the signature. -/
def proposable (m : RequestStateMachine) (fastPath optimistic : Bool) : Bool :=
  if optimistic then true
  else if fastPath then m.echoes.full
  else m.signature.isSome

@[simp] theorem req_echoed (m : RequestStateMachine) (echo : RawRequest) (f : Nat) :
    (m.echoed echo f).1.req = m.req := by
  unfold echoed
  split
  · rfl
  · split <;> rfl

/-- **An echo is recorded** when it is the request. -/
theorem get_echoed (m : RequestStateMachine) (echo : RawRequest) (f k : Nat) :
    (m.echoed echo f).1.echoes.get k = true ↔
      m.echoes.get k = true ∨ k = f ∧ echo = m.req := by
  unfold echoed
  split
  · next h =>
      refine ⟨.inl, ?_⟩
      rintro (hk | ⟨rfl, -⟩)
      · exact hk
      · exact h
  · split
    · next hne => exact ⟨.inl, fun h => h.elim id fun h => absurd h.2 hne⟩
    · next heq =>
        rw [DynamicBitset.get_set, not_not.mp heq]
        exact ⟨fun h => h.symm.imp_right fun h => ⟨h, rfl⟩, fun h => (h.imp_right (·.1)).symm⟩

/-- An echo does not resize the bitset. -/
theorem capacity_echoed (m : RequestStateMachine) (echo : RawRequest) (f : Nat) :
    (m.echoed echo f).1.echoes.capacity = m.echoes.capacity := by
  unfold echoed
  split
  · rfl
  · split
    · rfl
    · exact DynamicBitset.capacity_set ..

end RequestStateMachine

/-- What a worker enqueues. -/
structure VerifiedSignature where
  request : RawRequest
  signature : Signature
  valid : Bool
  deriving DecidableEq

/-- What the ingress throws. -/
inductive Error where
  /-- "Byzantine behavior: client sent request twice." -/
  | sentTwice
  /-- "Byzantine behavior: client re-sent a past request." -/
  | reSent
  /-- "Byzantine Behavior: invalid signature received." -/
  | invalidSignature
  /-- Nothing is thrown: an entry that does not exist is accessed. -/
  | noEntry
  deriving DecidableEq, Repr

/-! ### The ingress of a client -/

/-- One client's requests in a window of identifiers, and five cursors over them. -/
structure ClientRequestIngress (cfg : Config) where
  pollableBelow : Nat := cfg.window
  nextPollReceived : Nat := 0
  nextPollToEcho : Fin cfg.nbFollowers → Nat := fun _ => 0
  nextPollToForward : Fin cfg.nbFollowers → Nat := fun _ => 0
  nextPollProposable : Nat := 0
  verifiedSignatures : List VerifiedSignature := []
  requests : TailMap RequestStateMachine := ⟨cfg.window, .empty, 0⟩
  bufferedRequests : Fin cfg.nbFollowers → TailQueue RawRequest := fun _ => ⟨cfg.window, []⟩

namespace ClientRequestIngress

variable {cfg : Config}

/-- An echo is counted, or parked until the client's request is there. -/
def fromFollower (s : ClientRequestIngress cfg) (req : RawRequest) (f : Fin cfg.nbFollowers) :
    ClientRequestIngress cfg :=
  match s.requests.find? req.id with
  | none => { s with
      bufferedRequests :=
        Function.update s.bufferedRequests f ((s.bufferedRequests f).emplaceBack req) }
  | some _ => { s with requests := s.requests.modify req.id fun m => (m.echoed req f).1 }

/-- The body of the loop of `fromClient`. -/
def replayEcho (id : Nat) (s : ClientRequestIngress cfg) (f : Fin cfg.nbFollowers) :
    ClientRequestIngress cfg :=
  let buffer := (s.bufferedRequests f).popWhile fun r => decide (r.id < id)
  match buffer.items with
  | [] => { s with bufferedRequests := Function.update s.bufferedRequests f buffer }
  | front :: _ =>
    if front.id = id then
      { s with
        bufferedRequests := Function.update s.bufferedRequests f buffer.popFront
      }.fromFollower front f
    else { s with bufferedRequests := Function.update s.bufferedRequests f buffer }

/-- A request enters once, and the echoes parked for it are replayed. -/
def fromClient (s : ClientRequestIngress cfg) (req : RawRequest) :
    Except Error (ClientRequestIngress cfg) :=
  if (s.requests.find? req.id).isSome then .error .sentTwice
  else
    match s.requests.tryEmplaceWord req.id (.of cfg.unanimitySize req none) with
    | .error _ => .error .reSent
    | .ok (requests, _) =>
      .ok ((List.finRange cfg.nbFollowers).foldl (replayEcho req.id) { s with requests })

/-- The body of the loop of `pollVerifiedSignatures`. -/
def handleVerified (s : ClientRequestIngress cfg) (v : VerifiedSignature) :
    Except Error (ClientRequestIngress cfg) :=
  if v.valid = false then .error .invalidSignature
  else
    match s.requests.find? v.request.id with
    | none =>
      match s.requests.tryEmplaceWord v.request.id
          (.of cfg.unanimitySize v.request (some v.signature)) with
      -- "TODO: Signatures verified OoO, discarded."
      | .error _ => .ok s
      | .ok (requests, _) => .ok { s with requests }
    | some _ => .ok { s with
        requests := s.requests.modify v.request.id (·.checkedSignature v.signature) }

/-- What the workers verified is taken from their queue in its order. -/
def pollVerifiedSignatures (s : ClientRequestIngress cfg) :
    Except Error (ClientRequestIngress cfg) :=
  s.verifiedSignatures.foldlM handleVerified { s with verifiedSignatures := [] }

/-- "We jump over gaps", when there are requests. -/
def jump (s : ClientRequestIngress cfg) (next : Nat) : Option Nat :=
  s.requests.first?.map fun first => if next < first.1 then first.1 else next

/-- The next received request, below what the window allows. -/
def pollReceived (s : ClientRequestIngress cfg) : ClientRequestIngress cfg × Option RawRequest :=
  match s.jump s.nextPollReceived with
  | none => (s, none)
  | some next =>
    match s.requests.find? next with
    | none => ({ s with nextPollReceived := next }, none)
    | some m =>
      if s.pollableBelow ≤ next then ({ s with nextPollReceived := next }, none)
      else ({ s with nextPollReceived := (next + 1) % 2 ^ 64 }, some m.req)

/-- The next request that the follower `i` has not got an echo of. -/
def pollToEcho (s : ClientRequestIngress cfg) (i : Fin cfg.nbFollowers) :
    ClientRequestIngress cfg × Option RawRequest :=
  let set next := { s with nextPollToEcho := Function.update s.nextPollToEcho i next }
  match s.jump (s.nextPollToEcho i) with
  | none => (s, none)
  | some next =>
    if s.nextPollReceived ≤ next then (set next, none)
    else
      match s.requests.find? next with
      | none => (set next, none)
      | some m => (set ((next + 1) % 2 ^ 64), some m.req)

/-- The next request to forward, once it is signed. -/
def pollToForward (s : ClientRequestIngress cfg) (i : Fin cfg.nbFollowers) :
    Except Error (ClientRequestIngress cfg × Option (RawRequest × Signature)) :=
  let set next := { s with nextPollToForward := Function.update s.nextPollToForward i next }
  match s.jump (s.nextPollToForward i) with
  | none => .ok (s, none)
  | some next =>
    match s.requests.find? next with
    -- `it->second` is evaluated, to tell what was not forwarded
    | none => .error .noEntry
    | some m =>
      match m.signature with
      | none => .ok (set next, none)
      | some sig => .ok (set ((next + 1) % 2 ^ 64), some (m.req, sig))

/-- The next request that may be proposed. -/
def pollProposable (s : ClientRequestIngress cfg) (fastPath optimistic : Bool) :
    ClientRequestIngress cfg × Option RawRequest :=
  match s.jump s.nextPollProposable with
  | none => (s, none)
  | some next =>
    if s.nextPollReceived ≤ next then ({ s with nextPollProposable := next }, none)
    else
      match s.requests.find? next with
      | none => ({ s with nextPollProposable := next }, none)
      | some m =>
        if m.proposable fastPath optimistic then
          ({ s with nextPollProposable := (next + 1) % 2 ^ 64 }, some m.req)
        else ({ s with nextPollProposable := next }, none)

/-- The window opens behind the executed request. -/
def executed (s : ClientRequestIngress cfg) (id : Nat) : ClientRequestIngress cfg :=
  { s with pollableBelow := (id + cfg.window + 1) % 2 ^ 64 }

/-! ### What a poll does -/

variable {s s' : ClientRequestIngress cfg} {next next' : Nat} {r : Option RawRequest}
  {i : Fin cfg.nbFollowers}

/-- **A jump** is to the first request, and over none. -/
theorem jump_cases (h : s.jump next = some next') :
    next' = next ∨ next < next' ∧ (∃ m, s.requests.find? next' = some m) ∧
      ∀ k m, s.requests.find? k = some m → next' ≤ k := by
  obtain ⟨first, hfirst, rfl⟩ := Option.map_eq_some_iff.mp h
  split
  · next hlt =>
      exact .inr ⟨hlt, ⟨first.2, OrdMap.find?_of_first? hfirst⟩,
        fun k m hk => OrdMap.first?_le hfirst hk⟩
  · exact .inl rfl

theorem le_jump (h : s.jump next = some next') : next ≤ next' := by
  rcases jump_cases h with rfl | ⟨hlt, -⟩
  · exact Nat.le_refl _
  · exact hlt.le

/-- **What `pollReceived` does.** -/
theorem pollReceived_cases (h : s.pollReceived = (s', r)) :
    (s' = s ∧ r = none) ∨ ∃ next, s.jump s.nextPollReceived = some next ∧
      ((s' = { s with nextPollReceived := next } ∧ r = none) ∨
        ∃ m, s.requests.find? next = some m ∧ next < s.pollableBelow ∧
          s' = { s with nextPollReceived := (next + 1) % 2 ^ 64 } ∧ r = some m.req) := by
  unfold pollReceived at h
  split at h
  · cases h
    exact .inl ⟨rfl, rfl⟩
  · next next hjump =>
      refine .inr ⟨next, hjump, ?_⟩
      split at h
      · cases h
        exact .inl ⟨rfl, rfl⟩
      · next m hm =>
          split at h
          · cases h
            exact .inl ⟨rfl, rfl⟩
          · next hlt =>
              cases h
              exact .inr ⟨m, hm, Nat.not_le.mp hlt, rfl, rfl⟩

/-- **What `pollToEcho` does.** -/
theorem pollToEcho_cases (h : s.pollToEcho i = (s', r)) :
    (s' = s ∧ r = none) ∨ ∃ next, s.jump (s.nextPollToEcho i) = some next ∧
      ((s' = { s with nextPollToEcho := Function.update s.nextPollToEcho i next } ∧ r = none) ∨
        ∃ m, s.requests.find? next = some m ∧ next < s.nextPollReceived ∧
          s' = { s with
            nextPollToEcho := Function.update s.nextPollToEcho i ((next + 1) % 2 ^ 64) } ∧
          r = some m.req) := by
  unfold pollToEcho at h
  dsimp only at h
  split at h
  · cases h
    exact .inl ⟨rfl, rfl⟩
  · next next hjump =>
      refine .inr ⟨next, hjump, ?_⟩
      split at h
      · cases h
        exact .inl ⟨rfl, rfl⟩
      · next hlt =>
          split at h
          · cases h
            exact .inl ⟨rfl, rfl⟩
          · next m hm =>
              cases h
              exact .inr ⟨m, hm, Nat.not_le.mp hlt, rfl, rfl⟩

/-- **What `pollToForward` does.** -/
theorem pollToForward_cases {r : Option (RawRequest × Signature)}
    (h : s.pollToForward i = .ok (s', r)) :
    (s' = s ∧ r = none ∧ s.jump (s.nextPollToForward i) = none) ∨
    ∃ next m, s.jump (s.nextPollToForward i) = some next ∧ s.requests.find? next = some m ∧
      ((m.signature = none ∧ r = none ∧
          s' = { s with nextPollToForward := Function.update s.nextPollToForward i next }) ∨
        ∃ sig, m.signature = some sig ∧ r = some (m.req, sig) ∧
          s' = { s with
            nextPollToForward :=
              Function.update s.nextPollToForward i ((next + 1) % 2 ^ 64) }) := by
  unfold pollToForward at h
  dsimp only at h
  split at h
  · next hjump =>
      cases h
      exact .inl ⟨rfl, rfl, hjump⟩
  · next next hjump =>
      split at h
      · cases h
      · next m hm =>
          refine .inr ⟨next, m, hjump, hm, ?_⟩
          split at h
          · next hsig =>
              cases h
              exact .inl ⟨hsig, rfl, rfl⟩
          · next sig hsig =>
              cases h
              exact .inr ⟨sig, hsig, rfl, rfl⟩

/-- **What `pollProposable` does.** -/
theorem pollProposable_cases {fastPath optimistic : Bool}
    (h : s.pollProposable fastPath optimistic = (s', r)) :
    (s' = s ∧ r = none) ∨ ∃ next, s.jump s.nextPollProposable = some next ∧
      ((s' = { s with nextPollProposable := next } ∧ r = none) ∨
        ∃ m, s.requests.find? next = some m ∧ next < s.nextPollReceived ∧
          m.proposable fastPath optimistic = true ∧
          s' = { s with nextPollProposable := (next + 1) % 2 ^ 64 } ∧ r = some m.req) := by
  unfold pollProposable at h
  split at h
  · cases h
    exact .inl ⟨rfl, rfl⟩
  · next next hjump =>
      refine .inr ⟨next, hjump, ?_⟩
      split at h
      · cases h
        exact .inl ⟨rfl, rfl⟩
      · next hlt =>
          split at h
          · cases h
            exact .inl ⟨rfl, rfl⟩
          · next m hm =>
              split at h
              · next hp =>
                  cases h
                  exact .inr ⟨m, hm, Nat.not_le.mp hlt, hp, rfl, rfl⟩
              · cases h
                exact .inl ⟨rfl, rfl⟩

/-! ### What a poll leaves -/

theorem pollReceived_fst (s : ClientRequestIngress cfg) :
    ∃ next, s.pollReceived.1 = { s with nextPollReceived := next } := by
  obtain ⟨s', r, h⟩ : ∃ s' r, s.pollReceived = (s', r) := ⟨_, _, rfl⟩
  rw [h]
  rcases pollReceived_cases h with ⟨rfl, -⟩ | ⟨next, -, ⟨rfl, -⟩ | ⟨m, -, -, rfl, -⟩⟩
  all_goals exact ⟨_, rfl⟩

theorem pollToEcho_fst (s : ClientRequestIngress cfg) (i : Fin cfg.nbFollowers) :
    ∃ next, (s.pollToEcho i).1 = { s with nextPollToEcho := next } := by
  obtain ⟨s', r, h⟩ : ∃ s' r, s.pollToEcho i = (s', r) := ⟨_, _, rfl⟩
  rw [h]
  rcases pollToEcho_cases h with ⟨rfl, -⟩ | ⟨next, -, ⟨rfl, -⟩ | ⟨m, -, -, rfl, -⟩⟩
  all_goals exact ⟨_, rfl⟩

theorem pollProposable_fst (s : ClientRequestIngress cfg) (fastPath optimistic : Bool) :
    ∃ next, (s.pollProposable fastPath optimistic).1 = { s with nextPollProposable := next } := by
  obtain ⟨s', r, h⟩ : ∃ s' r, s.pollProposable fastPath optimistic = (s', r) := ⟨_, _, rfl⟩
  rw [h]
  rcases pollProposable_cases h with ⟨rfl, -⟩ | ⟨next, -, ⟨rfl, -⟩ | ⟨m, -, -, -, rfl, -⟩⟩
  all_goals exact ⟨_, rfl⟩

end ClientRequestIngress

namespace Example

/-- A leader and a follower. -/
def config : Config where
  window := 2
  unanimitySize := 2
  window_pos := by decide
  window_lt := by decide
  unanimity_pos := by decide
  unanimity_le := by decide

/-- A request of client 3, of one byte. -/
def request (id payload : UInt8) : RawRequest where
  raw := [3, 0, 0, 0, 0, 0, 0, 0, id, 0, 0, 0, 0, 0, 0, 0, 1, 0, 0, 0, 0, 0, 0, 0, payload]
  accepted := (by decide : 25 = 24 + ofLe [1, 0, 0, 0, 0, 0, 0, 0])

/-- The only follower. -/
def follower : Fin config.nbFollowers := ⟨0, Nat.one_pos⟩

end Example

end Ingress

end Ubft.Rpc
