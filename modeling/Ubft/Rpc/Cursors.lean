import Ubft.Rpc.Ingress

/-!
# Rpc — the cursors of the ingress

Runs of the ingress of a client, with what each of its methods was given and returned (`History`).
Three cursors follow the requests, and each one jumps on its own to the first that is still there.

A request that is inserted has a larger id than those before, so that no cursor has passed it; and
one below the cursor of `pollReceived` was returned by it, even when the cursors jumped over ids
that were never there (`Inv.returned`).
-/

namespace Ubft.Rpc.Ingress

/-- The ids returned along a cursor. -/
structure Cursor (ids : List Nat) (next : Nat) : Prop where
  increasing : ids.Pairwise (· < ·)
  lt : ∀ id ∈ ids, id < next

namespace Cursor

variable {ids : List Nat} {next next' : Nat}

theorem nil (next : Nat) : Cursor [] next := ⟨.nil, nofun⟩

theorem mono (h : Cursor ids next) (hle : next ≤ next') : Cursor ids next' :=
  ⟨h.increasing, fun id hid => (h.lt id hid).trans_le hle⟩

/-- The id at the cursor is returned. -/
theorem concat (h : Cursor ids next) (hle : next ≤ next') : Cursor (ids ++ [next']) (next' + 1) := by
  refine ⟨List.pairwise_append.mpr ⟨h.increasing, List.pairwise_singleton _ _, ?_⟩, ?_⟩
  · intro id hid id' hid'
    obtain rfl := List.mem_singleton.mp hid'
    exact (h.lt id hid).trans_le hle
  · intro id hid
    rcases List.mem_append.mp hid with hid | hid
    · exact (h.lt id hid).trans_le (hle.trans (Nat.le_succ _))
    · exact Nat.lt_succ_of_le (List.mem_singleton.mp hid).le

end Cursor

/-! ### Runs -/

/-- What `pollProposable` returned, and in which mode. -/
structure Proposal where
  req : RawRequest
  fastPath : Bool
  optimistic : Bool
  deriving DecidableEq

/-- An ingress, the echoes that it was given and what it returned, in order; each request returned
by `pollReceived` with the id that was executed last. -/
structure History (cfg : Config) where
  ingress : ClientRequestIngress cfg := {}
  lastExecuted : Option Nat := none
  echoes : List (Fin cfg.nbFollowers × RawRequest) := []
  received : List (RawRequest × Option Nat) := []
  echoed : Fin cfg.nbFollowers → List RawRequest := fun _ => []
  forwarded : Fin cfg.nbFollowers → List (RawRequest × Signature) := fun _ => []
  proposed : List Proposal := []

/-- The calls of the server and of its workers, in any order. -/
inductive Op (cfg : Config) where
  | fromClient (req : RawRequest)
  | fromFollower (req : RawRequest) (f : Fin cfg.nbFollowers)
  /-- A worker enqueues a signature. -/
  | verified (v : VerifiedSignature)
  | pollVerifiedSignatures
  | pollReceived
  | pollToEcho (leaderIndex : Fin cfg.nbFollowers)
  | pollToForward (destIndex : Fin cfg.nbFollowers)
  | pollProposable (fastPath optimistic : Bool)
  | executed (id : Nat)

namespace History

variable {cfg : Config} {h h' : History cfg}

/-- An ingress that takes one call; what was echoed and polled is logged. -/
def next (h : History cfg) : Op cfg → Except Error (History cfg)
  | .fromClient req => do
    let ingress ← h.ingress.fromClient req
    return { h with ingress }
  | .fromFollower req f => .ok { h with
      ingress := h.ingress.fromFollower req f
      echoes := (f, req) :: h.echoes }
  | .verified v => .ok { h with
      ingress := { h.ingress with
        verifiedSignatures := h.ingress.verifiedSignatures ++ [v] } }
  | .pollVerifiedSignatures => do
    let ingress ← h.ingress.pollVerifiedSignatures
    return { h with ingress }
  | .pollReceived =>
    let (ingress, r) := h.ingress.pollReceived
    .ok { h with
      ingress
      received := h.received ++ r.toList.map (·, h.lastExecuted) }
  | .pollToEcho i =>
    let (ingress, r) := h.ingress.pollToEcho i
    .ok { h with
      ingress
      echoed := Function.update h.echoed i (h.echoed i ++ r.toList) }
  | .pollToForward i => do
    let (ingress, r) ← h.ingress.pollToForward i
    return { h with
      ingress
      forwarded := Function.update h.forwarded i (h.forwarded i ++ r.toList) }
  | .pollProposable fastPath optimistic =>
    let (ingress, r) := h.ingress.pollProposable fastPath optimistic
    .ok { h with
      ingress
      proposed := h.proposed ++ r.toList.map (⟨·, fastPath, optimistic⟩) }
  | .executed id => .ok { h with
      ingress := h.ingress.executed id
      lastExecuted := some id }

/-- Nothing arrived. -/
def Init (h : History cfg) : Prop := h = {}

/-- A call that throws nothing. -/
def Step (h : History cfg) (op : Op cfg) (h' : History cfg) : Prop := h.next op = .ok h'

/-- Where `pollReceived` stops when `id` was executed last. -/
def bound (cfg : Config) : Option Nat → Nat
  | none => cfg.window
  | some id => id + cfg.window + 1

/-! ### The invariant -/

/-- The cursors follow the requests, and no echo is counted that did not come. -/
structure Inv (h : History cfg) : Prop where
  keyed : ∀ k m, h.ingress.requests.find? k = some m → m.req.id = k
  le_min : ∀ k m, h.ingress.requests.find? k = some m → k ≤ h.ingress.requests.min
  /-- The last request is there, once there was one. -/
  last : (∃ m, h.ingress.requests.find? h.ingress.requests.min = some m) ∨
    (∀ k, h.ingress.requests.find? k = none) ∧ h.ingress.requests.min = 0 ∧
      h.ingress.nextPollReceived = 0
  next_le : h.ingress.nextPollReceived ≤ h.ingress.requests.min + 1
  next_lt : h.ingress.nextPollReceived < 2 ^ 64
  capacity : ∀ k m, h.ingress.requests.find? k = some m →
    m.echoes.capacity = cfg.unanimitySize
  credited : ∀ k m, h.ingress.requests.find? k = some m → ∀ f, m.echoes.get f = true →
    f = cfg.unanimitySize - 1 ∨ ∃ i : Fin cfg.nbFollowers, i.val = f ∧ (i, m.req) ∈ h.echoes
  parked : ∀ i, ∀ r ∈ (h.ingress.bufferedRequests i).items, (i, r) ∈ h.echoes
  returned : ∀ k m, h.ingress.requests.find? k = some m → k < h.ingress.nextPollReceived →
    m.req ∈ h.received.map (·.1)
  pollable : h.ingress.pollableBelow ≤ bound cfg h.lastExecuted
  pollable_lt : h.ingress.pollableBelow < 2 ^ 64
  received : Cursor (h.received.map (·.1.id)) h.ingress.nextPollReceived
  bounded : ∀ e ∈ h.received, e.1.id < bound cfg e.2
  echoed : ∀ i, Cursor ((h.echoed i).map (·.id)) (h.ingress.nextPollToEcho i)
  echoed_sub : ∀ i, ∀ r ∈ h.echoed i, r ∈ h.received.map (·.1)
  proposed : Cursor (h.proposed.map (·.req.id)) h.ingress.nextPollProposable
  proposed_sub : ∀ p ∈ h.proposed, p.req ∈ h.received.map (·.1)
  unanimous : ∀ p ∈ h.proposed, p.fastPath = true → p.optimistic = false →
    ∀ i, (i, p.req) ∈ h.echoes

theorem inv_init : Inv ({} : History cfg) where
  keyed := nofun
  le_min := nofun
  last := .inr ⟨fun _ => rfl, rfl, rfl⟩
  next_le := Nat.zero_le _
  next_lt := Nat.two_pow_pos _
  capacity := nofun
  credited := nofun
  parked := nofun
  returned := nofun
  pollable := Nat.le_refl _
  pollable_lt := cfg.window_lt
  received := .nil _
  bounded := nofun
  echoed _ := .nil _
  echoed_sub := nofun
  proposed := .nil _
  proposed_sub := nofun
  unanimous := nofun

namespace Inv

/-- An entry changes, not its request, and the echoes that it gets were given. -/
theorem modify (hi : h.Inv) {k : Nat} {g : RequestStateMachine → RequestStateMachine}
    (hreq : ∀ m, (g m).req = m.req)
    (hcap : ∀ m, (g m).echoes.capacity = m.echoes.capacity)
    (hget : ∀ m f, (g m).echoes.get f = true → m.echoes.get f = true ∨
      ∃ i : Fin cfg.nbFollowers, i.val = f ∧ (i, m.req) ∈ h.echoes) :
    Inv { h with ingress := { h.ingress with requests := h.ingress.requests.modify k g } } := by
  have hfind : ∀ k' m', (h.ingress.requests.modify k g).find? k' = some m' →
      ∃ m, h.ingress.requests.find? k' = some m ∧ (m' = m ∨ m' = g m) := by
    intro k' m' hm'
    rw [TailMap.find?_modify] at hm'
    split at hm'
    · next hk =>
        obtain ⟨m, hm, rfl⟩ := Option.map_eq_some_iff.mp hm'
        exact ⟨m, hk ▸ hm, .inr rfl⟩
    · exact ⟨m', hm', .inl rfl⟩
  refine { hi with
    keyed := ?_
    le_min := ?_
    last := ?_
    capacity := ?_
    credited := ?_
    returned := ?_ }
  · intro k' m' hm'
    obtain ⟨m, hm, rfl | rfl⟩ := hfind k' m' hm'
    · exact hi.keyed k' _ hm
    · rw [hreq]
      exact hi.keyed k' m hm
  · intro k' m' hm'
    obtain ⟨m, hm, -⟩ := hfind k' m' hm'
    exact hi.le_min k' m hm
  · rcases hi.last with ⟨m, hm⟩ | ⟨hnone, hzero⟩
    · refine .inl ?_
      change ∃ m', (h.ingress.requests.modify k g).find? h.ingress.requests.min = some m'
      rw [TailMap.find?_modify]
      split
      · next hk => exact ⟨g m, by rw [← hk, hm]; rfl⟩
      · exact ⟨m, hm⟩
    · refine .inr ⟨fun k' => ?_, hzero⟩
      change (h.ingress.requests.modify k g).find? k' = none
      rw [TailMap.find?_modify, hnone, hnone]
      exact ite_self _
  · intro k' m' hm'
    obtain ⟨m, hm, rfl | rfl⟩ := hfind k' m' hm'
    · exact hi.capacity k' _ hm
    · rw [hcap]
      exact hi.capacity k' m hm
  · intro k' m' hm' f hf
    obtain ⟨m, hm, rfl | rfl⟩ := hfind k' m' hm'
    · exact hi.credited k' _ hm f hf
    · rw [hreq]
      rcases hget m f hf with hf | hf
      · exact hi.credited k' m hm f hf
      · exact .inr hf
  · intro k' m' hm' hlt
    obtain ⟨m, hm, rfl | rfl⟩ := hfind k' m' hm'
    · exact hi.returned k' _ hm hlt
    · rw [hreq]
      exact hi.returned k' m hm hlt

/-- **A new request** has a larger id than the cursor of `pollReceived` passed. -/
theorem next_le_of_notMem (hi : h.Inv) {k : Nat} (hno : h.ingress.requests.find? k = none)
    (hmin : h.ingress.requests.min ≤ k) : h.ingress.nextPollReceived ≤ k := by
  rcases hi.last with ⟨m, hm⟩ | ⟨-, -, hzero⟩
  · have hne : h.ingress.requests.min ≠ k := by
      rintro rfl
      exact nomatch hno.symm.trans hm
    exact hi.next_le.trans (Nat.succ_le_of_lt (Nat.lt_of_le_of_ne hmin hne))
  · rw [hzero]
    exact Nat.zero_le k

/-- A request that is new enters. -/
theorem insert (hi : h.Inv) {req : RawRequest} {sig : Option Signature}
    {requests : TailMap RequestStateMachine} {b : Bool}
    (hno : h.ingress.requests.find? req.id = none)
    (he : h.ingress.requests.tryEmplaceWord req.id (.of cfg.unanimitySize req sig) =
      .ok (requests, b)) :
    Inv { h with ingress := { h.ingress with requests } } := by
  rcases TailMap.tryEmplaceWord_cases he with ⟨-, -, -, w, hw⟩ | ⟨-, hmin, hkey, -, hmap, -⟩
  · exact nomatch hno.symm.trans hw
  have hfind : ∀ k m, requests.find? k = some m →
      (k = req.id ∧ m = .of cfg.unanimitySize req sig) ∨
        h.ingress.requests.find? k = some m := by
    intro k m hm
    rw [TailMap.find?, hmap, OrdMap.find?_insert] at hm
    split at hm
    · next hk => exact .inl ⟨hk, (Option.some.inj hm).symm⟩
    · exact .inr (TailMap.find?_of_skipWord hm)
  have hpass := hi.next_le_of_notMem hno hmin
  refine { hi with
    keyed := ?_
    le_min := ?_
    last := .inl ?_
    next_le := ?_
    capacity := ?_
    credited := ?_
    returned := ?_ }
  · intro k m hm
    rcases hfind k m hm with ⟨rfl, rfl⟩ | hm
    · rfl
    · exact hi.keyed k m hm
  · intro k m hm
    change k ≤ requests.min
    rw [hkey]
    rcases hfind k m hm with ⟨rfl, -⟩ | hm
    · exact Nat.le_refl _
    · exact (hi.le_min k m hm).trans hmin
  · refine ⟨.of cfg.unanimitySize req sig, ?_⟩
    change requests.map.find? requests.min = _
    rw [hkey, hmap, OrdMap.find?_insert_self]
  · change h.ingress.nextPollReceived ≤ requests.min + 1
    rw [hkey]
    exact hpass.trans (Nat.le_succ _)
  · intro k m hm
    rcases hfind k m hm with ⟨-, rfl⟩ | hm
    · exact Consensus.DynamicBitset.capacity_set ..
    · exact hi.capacity k m hm
  · intro k m hm f hf
    rcases hfind k m hm with ⟨-, rfl⟩ | hm
    · rcases (Consensus.DynamicBitset.get_set _ _ _).mp hf with hf | hf
      · exact .inl hf
      · cases hf
    · exact hi.credited k m hm f hf
  · intro k m hm hlt
    rcases hfind k m hm with ⟨rfl, -⟩ | hm
    · exact absurd hlt (Nat.not_lt.mpr hpass)
    · exact hi.returned k m hm hlt

/-- Echoes that were given are parked. -/
theorem park (hi : h.Inv) {i : Fin cfg.nbFollowers} {q : TailQueue RawRequest}
    (hq : ∀ r ∈ q.items, (i, r) ∈ h.echoes) :
    Inv { h with ingress := { h.ingress with
      bufferedRequests := Function.update h.ingress.bufferedRequests i q } } := by
  refine { hi with parked := fun i' r hr => ?_ }
  change r ∈ (Function.update h.ingress.bufferedRequests i q i').items at hr
  by_cases heq : i' = i
  · subst heq
    rw [Function.update_self] at hr
    exact hq r hr
  · rw [Function.update_of_ne heq] at hr
    exact hi.parked i' r hr

/-- An echo is counted or parked. -/
theorem fromFollower (hi : h.Inv) {req : RawRequest} {i : Fin cfg.nbFollowers}
    (hreq : (i, req) ∈ h.echoes) : Inv { h with ingress := h.ingress.fromFollower req i } := by
  unfold ClientRequestIngress.fromFollower
  split
  · refine hi.park fun r hr => ?_
    rcases List.mem_append.mp hr with hr | hr
    · refine hi.parked i r ?_
      split at hr
      · exact List.mem_of_mem_drop hr
      · exact hr
    · exact List.mem_singleton.mp hr ▸ hreq
  · refine hi.modify (fun m => m.req_echoed req i) (fun m => m.capacity_echoed req i)
      fun m f hf => ?_
    rcases (m.get_echoed req i f).mp hf with hf | ⟨rfl, rfl⟩
    · exact .inl hf
    · exact .inr ⟨i, rfl, hreq⟩

theorem replayEcho (hi : h.Inv) (id : Nat) (i : Fin cfg.nbFollowers) :
    Inv { h with ingress := h.ingress.replayEcho id i } := by
  have hq : ∀ r ∈ ((h.ingress.bufferedRequests i).popWhile fun r => decide (r.id < id)).items,
      (i, r) ∈ h.echoes := fun r hr =>
    hi.parked i r ((List.dropWhile_sublist _).mem hr)
  unfold ClientRequestIngress.replayEcho
  dsimp only
  split
  · exact hi.park hq
  · next front items hitems =>
      split
      · have hpop := hi.park (i := i)
          (q := ((h.ingress.bufferedRequests i).popWhile fun r => decide (r.id < id)).popFront)
          fun r hr => hq r (List.mem_of_mem_drop hr)
        exact hpop.fromFollower (hq front (hitems ▸ List.mem_cons_self))
      · exact hi.park hq

theorem replayEchoes (hi : h.Inv) (id : Nat) (is : List (Fin cfg.nbFollowers)) :
    Inv { h with ingress := is.foldl (ClientRequestIngress.replayEcho id) h.ingress } := by
  induction is generalizing h with
  | nil => exact hi
  | cons i is ih => exact ih (hi.replayEcho id i)

/-- A request of the client enters. -/
theorem fromClient (hi : h.Inv) {req : RawRequest} {s : ClientRequestIngress cfg}
    (hs : h.ingress.fromClient req = .ok s) : Inv { h with ingress := s } := by
  unfold ClientRequestIngress.fromClient at hs
  split at hs
  · cases hs
  · next hno =>
      split at hs
      · cases hs
      · next requests b he =>
          cases hs
          have hno := Option.not_isSome_iff_eq_none.mp hno
          exact (hi.insert hno he).replayEchoes req.id _

/-- A verified signature enters with its request. -/
theorem handleVerified (hi : h.Inv) {v : VerifiedSignature} {s : ClientRequestIngress cfg}
    (hs : h.ingress.handleVerified v = .ok s) : Inv { h with ingress := s } := by
  unfold ClientRequestIngress.handleVerified at hs
  split at hs
  · cases hs
  · split at hs
    · next hno =>
        split at hs
        · cases hs
          exact hi
        · next requests b he =>
            cases hs
            exact hi.insert hno he
    · cases hs
      exact hi.modify (fun _ => rfl) (fun _ => rfl) fun _ _ hf => .inl hf

/-- Over all that were verified. -/
theorem pollVerifiedSignatures (hi : h.Inv) {s : ClientRequestIngress cfg}
    (hs : h.ingress.pollVerifiedSignatures = .ok s) : Inv { h with ingress := s } := by
  unfold ClientRequestIngress.pollVerifiedSignatures at hs
  have hloop : ∀ (vs : List VerifiedSignature) (h : History cfg), h.Inv →
      vs.foldlM ClientRequestIngress.handleVerified h.ingress = .ok s →
      Inv { h with ingress := s } := by
    intro vs
    induction vs with
    | nil =>
        intro h hi hs
        cases hs
        exact hi
    | cons v vs ih =>
        intro h hi hs
        obtain ⟨s₁, h₁, h₂⟩ := bind_eq_ok.mp hs
        exact ih { h with ingress := s₁ } (hi.handleVerified h₁) h₂
  exact hloop _ { h with ingress := { h.ingress with verifiedSignatures := [] } } { hi with } hs

/-! ### Polls -/

/-- **A request below the cursor** was returned; one that is not there yet is not passed. -/
theorem jumpReceived (hi : h.Inv) {next : Nat}
    (hj : h.ingress.jump h.ingress.nextPollReceived = some next) :
    Inv { h with ingress := { h.ingress with nextPollReceived := next } } := by
  rcases ClientRequestIngress.jump_cases hj with rfl | ⟨hlt, ⟨m, hm⟩, hfirst⟩
  · exact hi
  · refine { hi with
      last := ?_
      next_le := (hi.le_min next m hm).trans (Nat.le_succ _)
      next_lt := ?_
      returned := fun k m' hm' hk => absurd (hfirst k m' hm') (Nat.not_le.mpr hk)
      received := hi.received.mono hlt.le }
    · rcases hi.last with hlast | ⟨hnone, -⟩
      · exact .inl hlast
      · exact nomatch (hnone next).symm.trans hm
    · rw [← hi.keyed next m hm]
      exact m.req.id_lt

/-- The cursor passes the request that it returns. -/
theorem returnReceived (hi : h.Inv) {m : RequestStateMachine}
    (hm : h.ingress.requests.find? h.ingress.nextPollReceived = some m)
    (hlt : h.ingress.nextPollReceived < h.ingress.pollableBelow) :
    Inv { h with
      ingress := { h.ingress with
        nextPollReceived := (h.ingress.nextPollReceived + 1) % 2 ^ 64 }
      received := h.received ++ [(m.req, h.lastExecuted)] } := by
  have hword : h.ingress.nextPollReceived + 1 < 2 ^ 64 := by
    have := hi.pollable_lt
    omega
  have hid := hi.keyed _ m hm
  have hmap : (h.received ++ [(m.req, h.lastExecuted)]).map (·.1) =
      h.received.map (·.1) ++ [m.req] := List.map_append ..
  rw [Nat.mod_eq_of_lt hword]
  refine { hi with
    last := ?_
    next_le := Nat.succ_le_succ (hi.le_min _ m hm)
    next_lt := hword
    returned := ?_
    received := ?_
    bounded := ?_
    echoed_sub := ?_
    proposed_sub := ?_ }
  · rcases hi.last with hlast | ⟨hnone, -⟩
    · exact .inl hlast
    · exact nomatch (hnone _).symm.trans hm
  · intro k m' hm' hk
    rw [hmap, List.mem_append]
    rcases Nat.lt_succ_iff_lt_or_eq.mp hk with hk | rfl
    · exact .inl (hi.returned k m' hm' hk)
    · cases hm.symm.trans hm'
      exact .inr List.mem_cons_self
  · rw [List.map_append, List.map_singleton, hid]
    exact hi.received.concat (Nat.le_refl _)
  · intro e he
    rcases List.mem_append.mp he with he | he
    · exact hi.bounded e he
    · obtain rfl := List.mem_singleton.mp he
      rw [hid]
      exact hlt.trans_le hi.pollable
  · intro i r hr
    rw [hmap]
    exact List.mem_append_left _ (hi.echoed_sub i r hr)
  · intro p hp
    rw [hmap]
    exact List.mem_append_left _ (hi.proposed_sub p hp)

/-- Requests are returned in the order of their identifiers. -/
theorem pollReceived (hi : h.Inv) (hs : Step h .pollReceived h') : h'.Inv := by
  dsimp only [Step, next] at hs
  cases hp : h.ingress.pollReceived with
  | mk s r =>
  rw [hp] at hs
  cases hs
  rcases ClientRequestIngress.pollReceived_cases hp with ⟨rfl, rfl⟩ |
      ⟨next, hj, ⟨rfl, rfl⟩ | ⟨m, hm, hlt, rfl, rfl⟩⟩
  · rw [Option.toList_none, List.map_nil, List.append_nil]
    exact hi
  · rw [Option.toList_none, List.map_nil, List.append_nil]
    exact hi.jumpReceived hj
  · exact (hi.jumpReceived hj).returnReceived hm hlt

theorem pollToEcho (hi : h.Inv) {i : Fin cfg.nbFollowers} (hs : Step h (.pollToEcho i) h') :
    h'.Inv := by
  dsimp only [Step, next] at hs
  cases hp : h.ingress.pollToEcho i with
  | mk s r =>
  rw [hp] at hs
  cases hs
  -- the cursors of the other leaders stay
  have hkeep : ∀ {next : Nat} {rs : List RawRequest}, Cursor (rs.map (·.id)) next →
      (∀ r ∈ rs, r ∈ h.received.map (·.1)) →
      Inv { h with
        ingress := { h.ingress with
          nextPollToEcho := Function.update h.ingress.nextPollToEcho i next }
        echoed := Function.update h.echoed i rs } := by
    intro next rs hrs hsub
    refine { hi with echoed := fun j => ?_, echoed_sub := fun j => ?_ }
    · by_cases hj : j = i
      · subst hj
        simp only [Function.update_self]
        exact hrs
      · simp only [Function.update_of_ne hj]
        exact hi.echoed j
    · by_cases hj : j = i
      · subst hj
        simp only [Function.update_self]
        exact hsub
      · simp only [Function.update_of_ne hj]
        exact hi.echoed_sub j
  rcases ClientRequestIngress.pollToEcho_cases hp with ⟨rfl, rfl⟩ |
      ⟨next, hj, ⟨rfl, rfl⟩ | ⟨m, hm, hlt, rfl, rfl⟩⟩
  · have h₀ := hkeep (hi.echoed i) (hi.echoed_sub i)
    rw [Function.update_eq_self] at h₀
    rwa [Option.toList_none, List.append_nil]
  · rw [Option.toList_none, List.append_nil]
    exact hkeep ((hi.echoed i).mono (ClientRequestIngress.le_jump hj)) (hi.echoed_sub i)
  · have hword : next + 1 < 2 ^ 64 := Nat.lt_of_le_of_lt hlt hi.next_lt
    rw [Nat.mod_eq_of_lt hword]
    refine hkeep ?_ fun r hr => ?_
    · rw [List.map_append, Option.toList_some, List.map_singleton, hi.keyed next m hm]
      exact (hi.echoed i).concat (ClientRequestIngress.le_jump hj)
    · rcases List.mem_append.mp hr with hr | hr
      · exact hi.echoed_sub i r hr
      · obtain rfl := List.mem_singleton.mp hr
        exact hi.returned next m hm hlt

/-- **Unanimity.**  When all echoes are recorded, every follower sent the request itself. -/
theorem echoed_of_full (hi : h.Inv) {k : Nat} {m : RequestStateMachine}
    (hm : h.ingress.requests.find? k = some m) (hfull : m.echoes.full = true)
    (i : Fin cfg.nbFollowers) : (i, m.req) ∈ h.echoes := by
  have hpos := cfg.unanimity_pos
  have hlen : m.echoes.bits.length = cfg.unanimitySize :=
    (of_decide_eq_true hfull).trans (hi.capacity k m hm)
  have hsub : m.echoes.bits ⊆ List.range cfg.unanimitySize := by
    intro f hf
    rw [List.mem_range]
    rcases hi.credited k m hm f (decide_eq_true hf) with rfl | ⟨j, rfl, -⟩
    · omega
    · have := j.isLt
      unfold Config.nbFollowers at this
      omega
  have hperm := (List.subperm_of_subset m.echoes.nodup hsub).perm_of_length_le
    (by rw [List.length_range, hlen])
  have hlt : i.val < cfg.unanimitySize - 1 := i.isLt
  have hmem : i.val ∈ m.echoes.bits := hperm.symm.subset (List.mem_range.mpr (by omega))
  rcases hi.credited k m hm i.val (decide_eq_true hmem) with hlast | ⟨j, hj, hecho⟩
  · exact absurd hlast hlt.ne
  · rwa [Fin.ext hj] at hecho

theorem pollProposable (hi : h.Inv) {fastPath optimistic : Bool}
    (hs : Step h (.pollProposable fastPath optimistic) h') : h'.Inv := by
  dsimp only [Step, next] at hs
  cases hp : h.ingress.pollProposable fastPath optimistic with
  | mk s r =>
  rw [hp] at hs
  cases hs
  rcases ClientRequestIngress.pollProposable_cases hp with ⟨rfl, rfl⟩ |
      ⟨next, hj, ⟨rfl, rfl⟩ | ⟨m, hm, hlt, hprop, rfl, rfl⟩⟩
  · rw [Option.toList_none, List.map_nil, List.append_nil]
    exact hi
  · rw [Option.toList_none, List.map_nil, List.append_nil]
    exact { hi with proposed := hi.proposed.mono (ClientRequestIngress.le_jump hj) }
  · have hword : next + 1 < 2 ^ 64 := Nat.lt_of_le_of_lt hlt hi.next_lt
    rw [Nat.mod_eq_of_lt hword]
    refine { hi with proposed := ?_, proposed_sub := fun p hp => ?_, unanimous := fun p hp => ?_ }
    · rw [List.map_append, Option.toList_some, List.map_singleton, List.map_singleton,
        hi.keyed next m hm]
      exact hi.proposed.concat (ClientRequestIngress.le_jump hj)
    · rcases List.mem_append.mp hp with hp | hp
      · exact hi.proposed_sub p hp
      · obtain rfl := List.mem_singleton.mp hp
        exact hi.returned next m hm hlt
    · rcases List.mem_append.mp hp with hp | hp
      · exact hi.unanimous p hp
      · obtain rfl := List.mem_singleton.mp hp
        intro hfast hopt i
        simp only at hfast hopt
        subst hfast hopt
        exact hi.echoed_of_full hm hprop i

theorem step (hi : h.Inv) {op : Op cfg} (hs : Step h op h') : h'.Inv := by
  cases op with
  | fromClient req =>
      obtain ⟨s, h₁, he⟩ := bind_eq_ok.mp hs
      cases he
      exact hi.fromClient h₁
  | fromFollower req f =>
      cases hs
      have hgiven : Inv { h with echoes := (f, req) :: h.echoes } := { hi with
        credited := fun k m hm g hg => (hi.credited k m hm g hg).imp_right
          fun ⟨i, hig, hmem⟩ => ⟨i, hig, List.mem_cons_of_mem _ hmem⟩
        parked := fun i r hr => List.mem_cons_of_mem _ (hi.parked i r hr)
        unanimous := fun p hp hf ho i => List.mem_cons_of_mem _ (hi.unanimous p hp hf ho i) }
      exact hgiven.fromFollower List.mem_cons_self
  | verified v =>
      cases hs
      exact { hi with }
  | pollVerifiedSignatures =>
      obtain ⟨s, h₁, he⟩ := bind_eq_ok.mp hs
      cases he
      exact hi.pollVerifiedSignatures h₁
  | pollReceived => exact hi.pollReceived hs
  | pollToEcho i => exact hi.pollToEcho hs
  | pollToForward i =>
      obtain ⟨⟨s, r⟩, h₁, he⟩ := bind_eq_ok.mp hs
      cases he
      rcases ClientRequestIngress.pollToForward_cases h₁ with ⟨rfl, -⟩ |
          ⟨next, m, -, -, ⟨-, -, rfl⟩ | ⟨sig, -, -, rfl⟩⟩
      all_goals exact { hi with }
  | pollProposable fastPath optimistic => exact hi.pollProposable hs
  | executed id =>
      cases hs
      exact { hi with
        pollable := Nat.mod_le _ _
        pollable_lt := Nat.mod_lt _ (Nat.two_pow_pos _) }

end Inv

theorem inv_of_reachable {good : History cfg → Op cfg → Prop} (h' : Reachable Init Step good h) :
    h.Inv :=
  h'.induct (P := Inv) (fun _ hs => hs ▸ inv_init) fun _ _ _ _ hi _ hs => hi.step hs

/-- **The cursors**, in every run.  The ids returned along each of them increase; what is echoed or
proposed was received before; a request is received within the window of what was executed last; and
what is proposed on the fast path was echoed as it is by every follower. -/
theorem ordered_of_reachable (hr : Reachable Init Step (Always (ι := Op cfg)) h) :
    (h.received.map (·.1.id)).Pairwise (· < ·) ∧
      (∀ i, ((h.echoed i).map (·.id)).Pairwise (· < ·)) ∧
      (h.proposed.map (·.req.id)).Pairwise (· < ·) ∧
      (∀ i, ∀ r ∈ h.echoed i, r ∈ h.received.map (·.1)) ∧
      (∀ p ∈ h.proposed, p.req ∈ h.received.map (·.1)) ∧
      (∀ e ∈ h.received, e.1.id < bound cfg e.2) ∧
      ∀ p ∈ h.proposed, p.fastPath = true → p.optimistic = false →
        ∀ i, (i, p.req) ∈ h.echoes := by
  have hi := inv_of_reachable hr
  exact ⟨hi.received.increasing, fun i => (hi.echoed i).increasing, hi.proposed.increasing,
    hi.echoed_sub, hi.proposed_sub, hi.bounded, hi.unanimous⟩

end History

namespace Example

/-- The follower echoes request 1 before the client sends it. -/
def echoing : List (Op config) :=
  [.fromFollower (request 1 7) follower, .fromClient (request 1 7), .pollReceived,
    .pollProposable true false]

end Example

/-- Request 1 is proposed, which the follower has echoed. -/
theorem ordered_echoing : ∃ h : History Example.config,
    Reachable History.Init History.Step Always h ∧
      h.proposed = [⟨Example.request 1 7, true, false⟩] ∧
      Example.request 1 7 ∈ h.received.map (·.1) ∧ ∀ i, (i, Example.request 1 7) ∈ h.echoes := by
  obtain ⟨h, hr, hp⟩ : ∃ h : History Example.config,
      Reachable History.Init History.Step (fun _ _ => True) h ∧
        decide (h.proposed = [⟨Example.request 1 7, true, false⟩]) = true :=
    exists_reachable {} rfl Example.echoing (by decide +kernel)
  have hp := of_decide_eq_true hp
  obtain ⟨-, -, -, -, hsub, -, hall⟩ := History.ordered_of_reachable hr.always
  have hmem : (⟨Example.request 1 7, true, false⟩ : Proposal) ∈ h.proposed :=
    hp ▸ List.mem_cons_self
  exact ⟨h, hr.always, hp, hsub _ hmem, hall _ hmem rfl rfl⟩

end Ubft.Rpc.Ingress
