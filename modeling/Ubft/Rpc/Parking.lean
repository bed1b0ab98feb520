import Ubft.Rpc.Cursors

/-!
# Rpc — echoes and requests in any order

At the leader an echo may arrive before the request, and is then parked in a queue of its follower,
of `window` echoes, until a request comes with its id or a larger one.  What is parked is a few
echoes that no request will ask for any more, and then those that are ahead of the requests
(`Settled.parked`): a push that finds the queue full drops one of the former, as there are no more
than `window` of the latter.

So what is recorded depends on what arrived and not on the order (`echoes_of_interleavings`).
-/

namespace Ubft.Rpc.Ingress

/-- In the order of their ids. -/
def Increasing (rs : List RawRequest) : Prop := rs.Pairwise fun r r' => r.id < r'.id

instance (rs : List RawRequest) : Decidable (Increasing rs) :=
  inferInstanceAs (Decidable (List.Pairwise _ _))

/-! ### Draining a queue -/

/-- What the loop of `fromClient` leaves of a queue. -/
def drain (q : TailQueue RawRequest) (id : Nat) : TailQueue RawRequest :=
  let buffer := q.popWhile fun r => decide (r.id < id)
  match buffer.items with
  | [] => buffer
  | front :: _ => if front.id = id then buffer.popFront else buffer

/-- The echo that it takes from the queue. -/
def awaited (q : TailQueue RawRequest) (id : Nat) : Option RawRequest :=
  (q.popWhile fun r => decide (r.id < id)).items.head?.filter fun r => decide (r.id = id)

@[simp] theorem tail_drain (q : TailQueue RawRequest) (id : Nat) :
    (drain q id).tail = q.tail := by
  unfold drain
  dsimp only
  split
  · rfl
  · split <;> rfl

section

variable {rs stale : List RawRequest} {id : Nat}

/-- In increasing order, popping while below is filtering. -/
theorem popWhile_increasing (h : Increasing rs) (id : Nat) :
    rs.dropWhile (fun r => decide (r.id < id)) = rs.filter fun r => decide (id ≤ r.id) := by
  induction rs with
  | nil => rfl
  | cons r rs ih =>
      obtain ⟨hr, hrs⟩ := List.pairwise_cons.mp h
      by_cases hlt : r.id < id
      · rw [List.dropWhile_cons_of_pos (by simpa using hlt), ih hrs,
          List.filter_cons_of_neg (by simpa using hlt)]
      · rw [List.dropWhile_cons_of_neg (by simpa using hlt)]
        refine (List.filter_eq_self.mpr fun x hx => decide_eq_true ?_).symm
        rcases List.mem_cons.mp hx with rfl | hx
        · exact Nat.not_lt.mp hlt
        · exact (Nat.not_lt.mp hlt).trans (hr x hx).le

/-- The stale echoes are popped, and those in order up to the id. -/
theorem popWhile_append (hs : ∀ r ∈ stale, r.id < id) (h : Increasing rs) :
    (stale ++ rs).dropWhile (fun r => decide (r.id < id)) =
      rs.filter fun r => decide (id ≤ r.id) := by
  rw [List.dropWhile_append_of_pos fun r hr => decide_eq_true (hs r hr)]
  exact popWhile_increasing h id

/-- What is stale is popped first. -/
theorem items_popWhile {q : TailQueue RawRequest} (hq : q.items = stale ++ rs)
    (hs : ∀ r ∈ stale, r.id < id) (h : Increasing rs) :
    (q.popWhile fun r => decide (r.id < id)).items = rs.filter fun r => decide (id ≤ r.id) := by
  rw [TailQueue.popWhile, hq]
  exact popWhile_append hs h

/-- A drained queue is left with the later echoes. -/
theorem items_drain {q : TailQueue RawRequest} (hq : q.items = stale ++ rs)
    (hs : ∀ r ∈ stale, r.id < id) (h : Increasing rs) :
    (drain q id).items = rs.filter fun r => decide (id < r.id) := by
  have hpop := items_popWhile hq hs h
  have hrest : rs.filter (fun r => decide (id < r.id)) =
      (rs.filter fun r => decide (id ≤ r.id)).filter fun r => decide (id < r.id) := by
    rw [List.filter_filter]
    refine List.filter_congr fun r _ => ?_
    rw [← Bool.decide_and, decide_eq_decide]
    omega
  have hsorted : Increasing (rs.filter fun r => decide (id ≤ r.id)) := h.filter _
  rw [hrest]
  unfold drain
  dsimp only
  rw [hpop]
  cases hl : rs.filter fun r => decide (id ≤ r.id) with
  | nil =>
      rw [hpop, hl]
      rfl
  | cons front rest =>
      rw [hl] at hsorted
      have hrest : ∀ r ∈ rest, front.id < r.id := (List.pairwise_cons.mp hsorted).1
      have hfront : id ≤ front.id := by
        have := List.mem_filter.mp (hl ▸ List.mem_cons_self : front ∈ rs.filter _)
        exact of_decide_eq_true this.2
      dsimp only
      split
      · next heq =>
          rw [List.filter_cons_of_neg (by simp [heq]), List.filter_eq_self.mpr]
          · rw [TailQueue.popFront, hpop, hl]
            rfl
          · exact fun r hr => decide_eq_true (heq ▸ hrest r hr)
      · next hne =>
          rw [hpop, hl, List.filter_eq_self.mpr]
          intro r hr
          refine decide_eq_true ?_
          rcases List.mem_cons.mp hr with rfl | hr
          · omega
          · exact hfront.trans_lt (hrest r hr)

/-- The awaited echo is the one with the identifier. -/
theorem awaited_eq_some {q : TailQueue RawRequest} (hq : q.items = stale ++ rs)
    (hs : ∀ r ∈ stale, r.id < id) (h : Increasing rs) {r : RawRequest} :
    awaited q id = some r ↔ r ∈ rs ∧ r.id = id := by
  have hpop := items_popWhile hq hs h
  have hsorted : Increasing (rs.filter fun r => decide (id ≤ r.id)) := h.filter _
  rw [awaited, hpop, Option.filter_eq_some_iff, decide_eq_true_iff]
  refine and_congr_left fun hid => ⟨fun hhead => ?_, fun hr => ?_⟩
  · exact (List.mem_filter.mp (List.mem_of_mem_head? hhead)).1
  · have hmem : r ∈ rs.filter fun r => decide (id ≤ r.id) :=
      List.mem_filter.mpr ⟨hr, decide_eq_true hid.ge⟩
    cases hl : rs.filter fun r => decide (id ≤ r.id) with
    | nil =>
        rw [hl] at hmem
        cases hmem
    | cons front rest =>
        rw [hl] at hmem hsorted
        rcases List.mem_cons.mp hmem with rfl | hrest
        · rfl
        · have hlt := (List.pairwise_cons.mp hsorted).1 r hrest
          have := List.mem_filter.mp (hl ▸ List.mem_cons_self : front ∈ rs.filter _)
          have hle : id ≤ front.id := of_decide_eq_true this.2
          omega

end

/-! ### Storing a request -/

/-- What is done to the requests, without their echoes. -/
def stored (t : TailMap RawRequest) (r : RawRequest) : TailMap RawRequest :=
  { t with map := (t.skipWord r.id).insert r.id r, min := r.id }

namespace ClientRequestIngress

variable {cfg : Config} {s : ClientRequestIngress cfg} {req : RawRequest}

/-- The requests that are there. -/
def present (s : ClientRequestIngress cfg) : TailMap RawRequest := s.requests.mapValues (·.req)

/-- With a request more, which is not there and not past. -/
def emplace (s : ClientRequestIngress cfg) (req : RawRequest) (signature : Option Signature) :
    ClientRequestIngress cfg := { s with
  requests := { s.requests with
    map := (s.requests.skipWord req.id).insert req.id (.of cfg.unanimitySize req signature)
    min := req.id } }

theorem find?_emplace_self (s : ClientRequestIngress cfg) (req : RawRequest)
    (signature : Option Signature) :
    (s.emplace req signature).requests.find? req.id = some (.of cfg.unanimitySize req signature) :=
  OrdMap.find?_insert_self ..

/-- A request that is found was there, or is the new one. -/
theorem find?_of_emplace {signature : Option Signature} {k : Nat} {m : RequestStateMachine}
    (hk : k ≠ req.id) (hm : (s.emplace req signature).requests.find? k = some m) :
    s.requests.find? k = some m :=
  TailMap.find?_of_skipWord ((OrdMap.find?_insert_of_ne _ _ hk).symm.trans hm)

/-- The window may lose its oldest request. -/
theorem present_emplace (s : ClientRequestIngress cfg) (req : RawRequest)
    (signature : Option Signature) :
    (s.emplace req signature).present = stored s.present req := by
  refine congrArg (fun map => (⟨s.requests.tail, map, req.id⟩ : TailMap RawRequest)) ?_
  rw [present, TailMap.skipWord_mapValues]
  exact OrdMap.map_insert ..

/-- **What `fromClient` does** when the request is new and not past. -/
theorem fromClient_of_notMem (hno : s.requests.find? req.id = none)
    (hmin : s.requests.min ≤ req.id) :
    s.fromClient req = .ok
      ((List.finRange cfg.nbFollowers).foldl (replayEcho req.id) (s.emplace req none)) := by
  unfold fromClient
  rw [hno, TailMap.tryEmplaceWord_of_notMem _ hno, if_neg (Nat.not_lt.mpr hmin)]
  rfl

end ClientRequestIngress

/-! ### The replay -/

section

variable {cfg : Config} {s s' : ClientRequestIngress cfg} {id : Nat}

/-- The followers `is` had their queues drained, and the echoes that the request `id` was waiting
for are recorded. -/
structure Replayed (id : Nat) (is : List (Fin cfg.nbFollowers))
    (s s' : ClientRequestIngress cfg) : Prop where
  parked : ∀ i, s'.bufferedRequests i =
    if i ∈ is then drain (s.bufferedRequests i) id else s.bufferedRequests i
  shape : s'.present = s.present
  other : ∀ k, k ≠ id → s'.requests.find? k = s.requests.find? k
  credited : ∀ m, s.requests.find? id = some m → ∃ m', s'.requests.find? id = some m' ∧
    m'.req = m.req ∧ ∀ g, m'.echoes.get g = true ↔
      m.echoes.get g = true ∨ ∃ i ∈ is, i.val = g ∧ awaited (s.bufferedRequests i) id = some m.req

/-- An echo does not change the request. -/
theorem mapValues_modify (t : TailMap RequestStateMachine) {k : Nat}
    {g : RequestStateMachine → RequestStateMachine} (h : ∀ m, (g m).req = m.req) :
    (t.modify k g).mapValues (·.req) = t.mapValues (·.req) :=
  congrArg (fun map => (⟨t.tail, map, t.min⟩ : TailMap RawRequest)) (t.map.map_modify _ h)

/-- The echo parked for the request is counted, one follower at a time. -/
theorem replayed_replayEcho (hm : (s.requests.find? id).isSome) (i : Fin cfg.nbFollowers) :
    Replayed id [i] s (s.replayEcho id i) := by
  obtain ⟨m, hm⟩ := Option.isSome_iff_exists.mp hm
  have hparked : ∀ q : TailQueue RawRequest, q = drain (s.bufferedRequests i) id → ∀ j,
      Function.update s.bufferedRequests i q j =
        if j ∈ [i] then drain (s.bufferedRequests j) id else s.bufferedRequests j := by
    rintro q rfl j
    by_cases hj : j = i
    · subst hj
      rw [Function.update_self, if_pos List.mem_cons_self]
    · rw [Function.update_of_ne hj, if_neg fun h => hj (List.mem_singleton.mp h)]
  -- nothing is credited to the request
  have hkeep : awaited (s.bufferedRequests i) id = none →
      ∀ q, q = drain (s.bufferedRequests i) id →
        Replayed id [i] s { s with
          bufferedRequests := Function.update s.bufferedRequests i q } := by
    intro hnone q hq
    refine ⟨hparked q hq, rfl, fun _ _ => rfl, fun m hm => ⟨m, hm, rfl, fun g => ?_⟩⟩
    refine ⟨.inl, fun h => h.elim (fun h => h) ?_⟩
    rintro ⟨j, hj, -, hj'⟩
    rw [List.mem_singleton.mp hj, hnone] at hj'
    cases hj'
  unfold ClientRequestIngress.replayEcho
  dsimp only
  split
  · next hnil =>
      refine hkeep ?_ _ ?_
      · rw [awaited, hnil]
        rfl
      · unfold drain
        dsimp only
        rw [hnil]
  · next front rest hcons =>
      split
      · next heq =>
          have hawaited : awaited (s.bufferedRequests i) id = some front := by
            rw [awaited, hcons, List.head?_cons, Option.filter_some, if_pos (decide_eq_true heq)]
          have hdrain : ((s.bufferedRequests i).popWhile fun r => decide (r.id < id)).popFront =
              drain (s.bufferedRequests i) id := by
            unfold drain
            dsimp only
            rw [hcons]
            exact (if_pos heq).symm
          have hfind : s.requests.find? front.id = some m := heq ▸ hm
          unfold ClientRequestIngress.fromFollower
          dsimp only
          rw [hfind, heq]
          dsimp only
          refine ⟨hparked _ hdrain, mapValues_modify _ fun m => m.req_echoed front i,
            fun k hk => ?_, fun m' hm' => ⟨(m'.echoed front i).1, ?_, m'.req_echoed front i,
              fun g => ?_⟩⟩
          · change (s.requests.modify id _).find? k = _
            rw [TailMap.find?_modify, if_neg hk]
          · change (s.requests.modify id _).find? id = _
            rw [TailMap.find?_modify, if_pos rfl, hm']
            rfl
          · rw [m'.get_echoed front i]
            refine or_congr_right ⟨?_, ?_⟩
            · rintro ⟨rfl, hreq⟩
              exact ⟨i, List.mem_cons_self, rfl, hreq ▸ hawaited⟩
            · rintro ⟨j, hj, rfl, hj'⟩
              obtain rfl := List.mem_singleton.mp hj
              exact ⟨rfl, Option.some.inj (hawaited.symm.trans hj')⟩
      · next hne =>
          refine hkeep ?_ _ ?_
          · rw [awaited, hcons, List.head?_cons, Option.filter_some,
              if_neg (by simpa using hne)]
          · unfold drain
            dsimp only
            rw [hcons]
            exact (if_neg hne).symm

theorem replayed_foldl {is : List (Fin cfg.nbFollowers)} (hn : is.Nodup)
    (hm : (s.requests.find? id).isSome) :
    Replayed id is s (is.foldl (ClientRequestIngress.replayEcho id) s) := by
  induction is generalizing s with
  | nil =>
      refine ⟨fun i => (if_neg List.not_mem_nil).symm, rfl, fun _ _ => rfl,
        fun m hm => ⟨m, hm, rfl, fun g => ⟨.inl, fun h => h.elim (fun h => h) ?_⟩⟩⟩
      rintro ⟨j, hj, -⟩
      cases hj
  | cons i is ih =>
      obtain ⟨hi, hn⟩ := List.nodup_cons.mp hn
      have h₁ := replayed_replayEcho hm i
      obtain ⟨m, hm⟩ := Option.isSome_iff_exists.mp hm
      obtain ⟨m₁, hm₁, -⟩ := h₁.credited m hm
      have h₂ := ih hn (Option.isSome_iff_exists.mpr ⟨m₁, hm₁⟩)
      rw [List.foldl_cons]
      refine ⟨fun j => ?_, h₂.shape.trans h₁.shape,
        fun k hk => (h₂.other k hk).trans (h₁.other k hk), fun m hm => ?_⟩
      · rw [h₂.parked, h₁.parked]
        by_cases hj : j = i
        · subst hj
          rw [if_neg hi, if_pos List.mem_cons_self, if_pos List.mem_cons_self]
        · rw [if_neg fun h => hj (List.mem_singleton.mp h)]
          simp only [List.mem_cons, hj, false_or]
      · obtain ⟨m₁, hm₁, hreq₁, hget₁⟩ := h₁.credited m hm
        obtain ⟨m₂, hm₂, hreq₂, hget₂⟩ := h₂.credited m₁ hm₁
        have hne : ∀ {j}, j ∈ is → j ≠ i := fun hj h => hi (h ▸ hj)
        refine ⟨m₂, hm₂, hreq₂.trans hreq₁, fun g => ?_⟩
        rw [hget₂, hget₁, hreq₁, or_assoc]
        refine or_congr_right ⟨?_, ?_⟩
        · rintro (⟨j, hj, hjg, ha⟩ | ⟨j, hj, hjg, ha⟩)
          · exact ⟨j, List.mem_singleton.mp hj ▸ List.mem_cons_self, hjg, ha⟩
          · rw [h₁.parked, if_neg fun h => hne hj (List.mem_singleton.mp h)] at ha
            exact ⟨j, List.mem_cons_of_mem _ hj, hjg, ha⟩
        · rintro ⟨j, hj, hjg, ha⟩
          rcases List.mem_cons.mp hj with rfl | hj
          · exact .inl ⟨j, List.mem_cons_self, hjg, ha⟩
          · refine .inr ⟨j, hj, hjg, ?_⟩
            rw [h₁.parked, if_neg fun h => hne hj (List.mem_singleton.mp h)]
            exact ha

end

/-! ### What arrives -/

/-- What a leader receives of a client and its followers. -/
inductive Arrival (cfg : Config) where
  | request (req : RawRequest)
  | echo (req : RawRequest) (f : Fin cfg.nbFollowers)

section

variable {cfg : Config}

/-- The requests among the arrivals, in their order. -/
def requestsOf (as : List (Arrival cfg)) : List RawRequest :=
  as.filterMap fun
    | .request r => some r
    | .echo _ _ => none

/-- The echoes of the follower `i` among the arrivals, in their order. -/
def echoesOf (as : List (Arrival cfg)) (i : Fin cfg.nbFollowers) : List RawRequest :=
  as.filterMap fun
    | .request _ => none
    | .echo r f => if f = i then some r else none

/-- The echoes of a follower that the client's requests have not reached. -/
def ahead (as : List (Arrival cfg)) (i : Fin cfg.nbFollowers) : List RawRequest :=
  (echoesOf as i).filter fun r => decide (∀ q ∈ requestsOf as, q.id < r.id)

/-- At any time, a follower is at most `window` requests ahead. -/
def Within (as : List (Arrival cfg)) : Prop :=
  ∀ pre ∈ as.inits, ∀ i, (ahead pre i).length ≤ cfg.window

instance (as : List (Arrival cfg)) : Decidable (Within as) :=
  inferInstanceAs (Decidable (∀ pre ∈ as.inits, ∀ i, (ahead pre i).length ≤ cfg.window))

namespace ClientRequestIngress

/-- A request or an echo comes in. -/
def arrive (s : ClientRequestIngress cfg) : Arrival cfg → Except Error (ClientRequestIngress cfg)
  | .request r => s.fromClient r
  | .echo r f => .ok (s.fromFollower r f)

end ClientRequestIngress

variable {as pre : List (Arrival cfg)} {req r : RawRequest} {f i : Fin cfg.nbFollowers}

@[simp] theorem requestsOf_request :
    requestsOf (pre ++ [.request req]) = requestsOf pre ++ [req] :=
  List.filterMap_append ..

@[simp] theorem requestsOf_echo : requestsOf (pre ++ [.echo r f]) = requestsOf pre :=
  (List.filterMap_append ..).trans (List.append_nil _)

@[simp] theorem echoesOf_request : echoesOf (pre ++ [.request req]) i = echoesOf pre i :=
  (List.filterMap_append ..).trans (List.append_nil _)

theorem echoesOf_echo :
    echoesOf (pre ++ [.echo r f]) i = echoesOf pre i ++ if f = i then [r] else [] := by
  refine (List.filterMap_append ..).trans (congrArg (echoesOf pre i ++ ·) ?_)
  by_cases h : f = i
  · simp [h]
  · simp [h]

theorem echoesOf_echo_of_ne (h : i ≠ f) : echoesOf (pre ++ [.echo r f]) i = echoesOf pre i := by
  rw [echoesOf_echo, if_neg (Ne.symm h), List.append_nil]

theorem echoesOf_echo_self : echoesOf (pre ++ [.echo r f]) f = echoesOf pre f ++ [r] := by
  rw [echoesOf_echo, if_pos rfl]

/-- An echo is ahead when no request of its identifier, or a later one, came. -/
theorem mem_ahead : r ∈ ahead pre i ↔ r ∈ echoesOf pre i ∧ ∀ q ∈ requestsOf pre, q.id < r.id := by
  rw [ahead, List.mem_filter, decide_eq_true_iff]

/-- A request leaves only the later echoes ahead. -/
theorem ahead_request : ahead (pre ++ [.request req]) i =
    (ahead pre i).filter fun r => decide (req.id < r.id) := by
  rw [ahead, ahead, echoesOf_request, requestsOf_request, List.filter_filter]
  refine List.filter_congr fun r _ => ?_
  rw [← Bool.decide_and, decide_eq_decide]
  simp only [List.forall_mem_append, List.forall_mem_singleton, and_comm]

/-- An echo of another follower. -/
theorem ahead_echo_of_ne (h : i ≠ f) : ahead (pre ++ [.echo r f]) i = ahead pre i := by
  rw [ahead, echoesOf_echo_of_ne h, requestsOf_echo]
  rfl

/-- An echo of the follower itself. -/
theorem ahead_echo_self : ahead (pre ++ [.echo r f]) f =
    ahead pre f ++ if ∀ q ∈ requestsOf pre, q.id < r.id then [r] else [] := by
  rw [ahead, echoesOf_echo_self, requestsOf_echo, List.filter_append, List.filter_singleton]
  by_cases h : ∀ q ∈ requestsOf pre, q.id < r.id
  · rw [if_pos h, decide_eq_true h]
    rfl
  · rw [if_neg h, decide_eq_false h]
    rfl

/-- A follower whose next echo is not ahead has none that is. -/
theorem ahead_eq_nil (h : Increasing (echoesOf pre f ++ [r]))
    (hr : ¬∀ q ∈ requestsOf pre, q.id < r.id) : ahead pre f = [] := by
  refine List.eq_nil_iff_forall_not_mem.mpr fun r' hr' => hr fun q hq => ?_
  obtain ⟨hecho, hreq⟩ := mem_ahead.mp hr'
  have hlt := (List.pairwise_append.mp h).2.2 r' hecho r (List.mem_singleton.mpr rfl)
  exact (hreq q hq).trans hlt

end

/-! ### The invariant -/

section

variable {cfg : Config} {as pre : List (Arrival cfg)} {s s' : ClientRequestIngress cfg}
  {req r : RawRequest} {f : Fin cfg.nbFollowers}

/-- After `pre`, what is stored depends on the requests alone, and an echo is recorded or parked
whichever came first. -/
structure Settled (pre : List (Arrival cfg)) (s : ClientRequestIngress cfg) : Prop where
  tail : ∀ i, (s.bufferedRequests i).tail = cfg.window
  keyed : ∀ k m, s.requests.find? k = some m → m.req.id = k ∧ m.req ∈ requestsOf pre
  min : s.requests.min = 0 ∨ ∃ q ∈ requestsOf pre, q.id = s.requests.min
  shape : s.present = (requestsOf pre).foldl stored ⟨cfg.window, .empty, 0⟩
  parked : ∀ i, ∃ stale, (s.bufferedRequests i).items = stale ++ ahead pre i ∧
    ∀ r ∈ stale, ∃ q ∈ requestsOf pre, r.id ≤ q.id
  credited : ∀ k m, s.requests.find? k = some m → ∀ g, m.echoes.get g = true ↔
    g = cfg.unanimitySize - 1 ∨ ∃ i : Fin cfg.nbFollowers, i.val = g ∧ m.req ∈ echoesOf pre i

theorem settled_init : Settled ([] : List (Arrival cfg)) {} where
  tail _ := rfl
  keyed := nofun
  min := .inl rfl
  shape := rfl
  parked _ := ⟨[], rfl, nofun⟩
  credited := nofun

namespace Settled

section

variable (hlt : ∀ q ∈ requestsOf pre, q.id < req.id)

include hlt

/-- The identifiers increase, so the next request is new. -/
theorem notMem (h : Settled pre s) : s.requests.find? req.id = none := by
  cases hf : s.requests.find? req.id with
  | none => rfl
  | some m =>
      obtain ⟨hid, hmem⟩ := h.keyed req.id m hf
      exact absurd hid (hlt m.req hmem).ne

theorem min_le (h : Settled pre s) : s.requests.min ≤ req.id := by
  rcases h.min with hzero | ⟨q, hq, hid⟩
  · rw [hzero]
    exact Nat.zero_le _
  · rw [← hid]
    exact (hlt q hq).le

/-- The queue holds the echoes ahead, behind some stale ones. -/
theorem parked_below (h : Settled pre s) (i : Fin cfg.nbFollowers) :
    ∃ stale, (s.bufferedRequests i).items = stale ++ ahead pre i ∧
      ∀ r ∈ stale, r.id < req.id := by
  obtain ⟨stale, hitems, hstale⟩ := h.parked i
  refine ⟨stale, hitems, fun r hr => ?_⟩
  obtain ⟨q, hq, hle⟩ := hstale r hr
  exact hle.trans_lt (hlt q hq)

/-- The echo of the request itself is the one that is awaited. -/
theorem awaited_iff (h : Settled pre s) (i : Fin cfg.nbFollowers)
    (hecho : Increasing (echoesOf pre i)) :
    awaited (s.bufferedRequests i) req.id = some req ↔ req ∈ echoesOf pre i := by
  obtain ⟨stale, hitems, hbelow⟩ := h.parked_below hlt i
  rw [awaited_eq_some hitems hbelow (hecho.filter _), mem_ahead]
  exact ⟨fun ha => ha.1.1, fun ha => ⟨⟨ha, hlt⟩, rfl⟩⟩

end

/-- The next request is stored with the echoes that were parked for it. -/
theorem request (h : Settled pre s) (hreqs : Increasing (requestsOf pre ++ [req]))
    (hechoes : ∀ i, Increasing (echoesOf pre i)) :
    ∃ s', s.fromClient req = .ok s' ∧ Settled (pre ++ [.request req]) s' := by
  have hlt : ∀ q ∈ requestsOf pre, q.id < req.id := fun q hq =>
    (List.pairwise_append.mp hreqs).2.2 q hq req (List.mem_singleton.mpr rfl)
  have hrun := ClientRequestIngress.fromClient_of_notMem (h.notMem hlt) (h.min_le hlt)
  obtain ⟨s', hs'⟩ : ∃ s', s' = (List.finRange cfg.nbFollowers).foldl
      (ClientRequestIngress.replayEcho req.id) (s.emplace req none) := ⟨_, rfl⟩
  rw [← hs'] at hrun
  have hnew := s.find?_emplace_self req none
  have hreplay := replayed_foldl (List.nodup_finRange cfg.nbFollowers)
    (Option.isSome_iff_exists.mpr ⟨_, hnew⟩)
  rw [← hs'] at hreplay
  have hcases : ∀ k m, s'.requests.find? k = some m →
      (k = req.id ∧ m.req = req ∧ ∀ g, m.echoes.get g = true ↔
        g = cfg.unanimitySize - 1 ∨ ∃ i : Fin cfg.nbFollowers, i.val = g ∧ req ∈ echoesOf pre i) ∨
      s.requests.find? k = some m := by
    intro k m hm
    by_cases hk : k = req.id
    · obtain ⟨m', hm', hreq, hget⟩ := hreplay.credited _ hnew
      rw [hk, hm'] at hm
      cases hm
      refine .inl ⟨hk, hreq, fun g => (hget g).trans (or_congr ?_ ?_)⟩
      · exact (Consensus.DynamicBitset.get_set _ _ _).trans (or_iff_left nofun)
      · refine exists_congr fun i => ?_
        rw [and_iff_right (List.mem_finRange i)]
        exact and_congr_right fun _ => h.awaited_iff hlt i (hechoes i)
    · rw [hreplay.other k hk] at hm
      exact .inr (ClientRequestIngress.find?_of_emplace hk hm)
  have hshape := hreplay.shape.trans (s.present_emplace req none)
  refine ⟨s', hrun, ?_, ?_, .inr ?_, ?_, ?_, ?_⟩
  · intro i
    rw [hreplay.parked, if_pos (List.mem_finRange i), tail_drain]
    exact h.tail i
  · intro k m hm
    rw [requestsOf_request]
    rcases hcases k m hm with ⟨rfl, hreq, -⟩ | hm
    · rw [hreq]
      exact ⟨rfl, List.mem_append_right _ List.mem_cons_self⟩
    · obtain ⟨hid, hmem⟩ := h.keyed k m hm
      exact ⟨hid, List.mem_append_left _ hmem⟩
  · refine ⟨req, ?_, (congrArg TailMap.min hshape).symm⟩
    rw [requestsOf_request]
    exact List.mem_append_right _ List.mem_cons_self
  · rw [requestsOf_request, List.foldl_append, ← h.shape]
    exact hshape
  · intro i
    obtain ⟨stale, hitems, hbelow⟩ := h.parked_below hlt i
    refine ⟨[], ?_, nofun⟩
    rw [hreplay.parked, if_pos (List.mem_finRange i), ahead_request, List.nil_append]
    exact items_drain hitems hbelow ((hechoes i).filter _)
  · intro k m hm g
    simp only [echoesOf_request]
    rcases hcases k m hm with ⟨-, hreq, hget⟩ | hm
    · rw [hreq]
      exact hget g
    · exact h.credited k m hm g

/-- A push that finds the queue full drops an echo that no request will ask for. -/
theorem park (h : Settled pre s) (hechoes : Increasing (echoesOf pre f ++ [r]))
    (hw : (ahead (pre ++ [.echo r f]) f).length ≤ cfg.window) :
    ∃ stale, ((s.bufferedRequests f).emplaceBack r).items =
      stale ++ ahead (pre ++ [.echo r f]) f ∧ ∀ r ∈ stale, ∃ q ∈ requestsOf pre, r.id ≤ q.id := by
  obtain ⟨stale, hitems, hstale⟩ := h.parked f
  rw [ahead_echo_self] at hw ⊢
  rw [TailQueue.emplaceBack, h.tail, hitems]
  by_cases hr : ∀ q ∈ requestsOf pre, q.id < r.id
  · rw [if_pos hr] at hw ⊢
    dsimp only
    split
    · next hfull =>
        cases stale with
        | nil =>
            rw [List.length_append, List.length_singleton] at hw
            rw [List.nil_append] at hfull
            omega
        | cons old stale =>
            exact ⟨stale, List.append_assoc .., fun r hr => hstale r (List.mem_cons_of_mem _ hr)⟩
    · exact ⟨stale, List.append_assoc .., hstale⟩
  · obtain ⟨q, hq⟩ := not_forall.mp hr
    obtain ⟨hmem, hle⟩ := Classical.not_imp.mp hq
    have hlast : ∀ r' ∈ stale ++ [r], ∃ q ∈ requestsOf pre, r'.id ≤ q.id := by
      intro r' hr'
      rcases List.mem_append.mp hr' with hr' | hr'
      · exact hstale r' hr'
      · obtain rfl := List.mem_singleton.mp hr'
        exact ⟨q, hmem, Nat.not_lt.mp hle⟩
    rw [if_neg hr, ahead_eq_nil hechoes hr, List.append_nil, List.append_nil]
    dsimp only
    split
    · refine ⟨stale.drop 1 ++ [r], (List.append_nil _).symm, fun r' hr' => hlast r' ?_⟩
      exact ((List.drop_sublist 1 stale).append (List.Sublist.refl [r])).subset hr'
    · exact ⟨stale ++ [r], (List.append_nil _).symm, hlast⟩

/-- An echo of a request that is not there is parked. -/
theorem echo_parked (h : Settled pre s) (hechoes : Increasing (echoesOf pre f ++ [r]))
    (hw : (ahead (pre ++ [.echo r f]) f).length ≤ cfg.window)
    (hno : s.requests.find? r.id = none) :
    Settled (pre ++ [.echo r f]) { s with
      bufferedRequests :=
        Function.update s.bufferedRequests f ((s.bufferedRequests f).emplaceBack r) } := by
  have hother : ∀ k m, s.requests.find? k = some m → m.req ≠ r := by
    rintro k m hm rfl
    rw [(h.keyed k m hm).1, hm] at hno
    cases hno
  refine ⟨fun i => ?_, ?_, ?_, ?_, fun i => ?_, fun k m hm g => ?_⟩
  · dsimp only
    by_cases hi : i = f
    · subst hi
      rw [Function.update_self]
      exact h.tail i
    · rw [Function.update_of_ne hi]
      exact h.tail i
  · rw [requestsOf_echo]
    exact h.keyed
  · rw [requestsOf_echo]
    exact h.min
  · rw [requestsOf_echo]
    exact h.shape
  · rw [requestsOf_echo]
    dsimp only
    by_cases hi : i = f
    · subst hi
      rw [Function.update_self]
      exact h.park hechoes hw
    · rw [Function.update_of_ne hi, ahead_echo_of_ne hi]
      exact h.parked i
  · rw [h.credited k m hm g]
    refine or_congr_right (exists_congr fun i => and_congr_right fun _ => ?_)
    rw [echoesOf_echo]
    split
    · rw [List.mem_append, List.mem_singleton, or_iff_left (hother k m hm)]
    · rw [List.append_nil]

/-- An echo of a request that is there is counted. -/
theorem echo_recorded (h : Settled pre s) {m₀ : RequestStateMachine}
    (hm₀ : s.requests.find? r.id = some m₀) :
    Settled (pre ++ [.echo r f])
      { s with requests := s.requests.modify r.id fun m => (m.echoed r f).1 } := by
  obtain ⟨hid, hmem⟩ := h.keyed r.id m₀ hm₀
  have hpast : ¬∀ q ∈ requestsOf pre, q.id < r.id := fun hall => (hall m₀.req hmem).ne hid
  have hfind : ∀ k m', (s.requests.modify r.id fun m => (m.echoed r f).1).find? k = some m' →
      ∃ m, s.requests.find? k = some m ∧ m'.req = m.req ∧ ∀ g, m'.echoes.get g = true ↔
        m.echoes.get g = true ∨ g = f ∧ r = m.req := by
    intro k m' hm'
    rw [TailMap.find?_modify] at hm'
    split at hm'
    · next hk =>
        obtain ⟨m, hm, rfl⟩ := Option.map_eq_some_iff.mp hm'
        exact ⟨m, hk ▸ hm, m.req_echoed r f, m.get_echoed r f⟩
    · next hk =>
        refine ⟨m', hm', rfl, fun g => (or_iff_left ?_).symm⟩
        rintro ⟨-, rfl⟩
        exact hk (h.keyed k m' hm').1.symm
  refine ⟨h.tail, fun k m' hm' => ?_, ?_, ?_, fun i => ?_, fun k m' hm' g => ?_⟩
  · obtain ⟨m, hm, hreq, -⟩ := hfind k m' hm'
    rw [hreq, requestsOf_echo]
    exact h.keyed k m hm
  · rw [requestsOf_echo]
    exact h.min
  · rw [requestsOf_echo, ← h.shape]
    exact mapValues_modify _ fun m => m.req_echoed r f
  · rw [requestsOf_echo]
    by_cases hi : i = f
    · subst hi
      rw [ahead_echo_self, if_neg hpast, List.append_nil]
      exact h.parked i
    · rw [ahead_echo_of_ne hi]
      exact h.parked i
  · obtain ⟨m, hm, hreq, hget⟩ := hfind k m' hm'
    rw [hget, h.credited k m hm, or_assoc, hreq]
    refine or_congr_right ⟨?_, ?_⟩
    · rintro (⟨i, hi, hmem⟩ | ⟨rfl, rfl⟩)
      · exact ⟨i, hi, by rw [echoesOf_echo]; exact List.mem_append_left _ hmem⟩
      · refine ⟨f, rfl, ?_⟩
        rw [echoesOf_echo_self]
        exact List.mem_append_right _ List.mem_cons_self
    · rintro ⟨i, hi, hmem⟩
      rw [echoesOf_echo] at hmem
      rcases List.mem_append.mp hmem with hmem | hmem
      · exact .inl ⟨i, hi, hmem⟩
      · split at hmem
        · next hf =>
            exact .inr ⟨hf ▸ hi.symm, (List.mem_singleton.mp hmem).symm⟩
        · cases hmem

/-- The next echo of a follower is recorded when its request is there, and parked otherwise. -/
theorem echo (h : Settled pre s) (hechoes : Increasing (echoesOf pre f ++ [r]))
    (hw : (ahead (pre ++ [.echo r f]) f).length ≤ cfg.window) :
    Settled (pre ++ [.echo r f]) (s.fromFollower r f) := by
  unfold ClientRequestIngress.fromFollower
  split
  · next hno => exact h.echo_parked hechoes hw hno
  · next m₀ hm₀ => exact h.echo_recorded hm₀

end Settled

/-- **By induction on the arrivals.** -/
theorem settled_of_arrivals (hs : Settled pre s) (hreqs : Increasing (requestsOf (pre ++ as)))
    (hechoes : ∀ i, Increasing (echoesOf (pre ++ as) i)) (hw : Within (pre ++ as)) :
    ∃ s', as.foldlM ClientRequestIngress.arrive s = .ok s' ∧ Settled (pre ++ as) s' := by
  induction as generalizing pre s with
  | nil => exact ⟨s, rfl, (List.append_nil pre).symm ▸ hs⟩
  | cons a as ih =>
      have hcons : pre ++ a :: as = pre ++ [a] ++ as := List.append_cons pre a as
      have hinit : pre ++ [a] <+: pre ++ a :: as := ⟨as, hcons.symm⟩
      have hnext : ∃ s₁, s.arrive a = .ok s₁ ∧ Settled (pre ++ [a]) s₁ := by
        cases a with
        | request req =>
            have hsub := hreqs.sublist (hinit.sublist.filterMap _)
            refine hs.request ((congrArg Increasing requestsOf_request).mp hsub) fun i => ?_
            have hsub' := (hechoes i).sublist (hinit.sublist.filterMap _)
            exact (congrArg Increasing echoesOf_request).mp hsub'
        | echo r f =>
            have hsub := (hechoes f).sublist (hinit.sublist.filterMap _)
            refine ⟨_, rfl, hs.echo ?_ (hw _ ((List.mem_inits _ _).mpr hinit) f)⟩
            exact (congrArg Increasing echoesOf_echo_self).mp hsub
      obtain ⟨s₁, hs₁, hsettled⟩ := hnext
      rw [hcons] at hreqs hechoes hw ⊢
      obtain ⟨s', hs', hsettled'⟩ := ih hsettled hreqs hechoes hw
      exact ⟨s', (List.foldlM_cons ..).trans (bind_eq_ok.mpr ⟨s₁, hs₁, hs'⟩), hsettled'⟩

/-- **Order does not matter.**  Two orders of the same requests and the same echoes leave the same
requests, with the same echoes recorded: those of the followers that sent that very request.  An
echo of a request that did not come is still parked. -/
theorem echoes_of_interleavings {as' : List (Arrival cfg)}
    (hreqs : requestsOf as = requestsOf as') (hechoes : ∀ i, echoesOf as i = echoesOf as' i)
    (hreq : Increasing (requestsOf as)) (hecho : ∀ i, Increasing (echoesOf as i))
    (hw : Within as) (hw' : Within as') :
    ∃ s s', as.foldlM ClientRequestIngress.arrive {} = .ok s ∧
      as'.foldlM ClientRequestIngress.arrive {} = .ok s' ∧
      (∀ k, (s.requests.find? k).map (·.req) = (s'.requests.find? k).map (·.req)) ∧
      (∀ k m m', s.requests.find? k = some m → s'.requests.find? k = some m' →
        ∀ g, m.echoes.get g = m'.echoes.get g) ∧
      (∀ k m, s.requests.find? k = some m →
        ∀ i : Fin cfg.nbFollowers, m.echoes.get i = true ↔ m.req ∈ echoesOf as i) ∧
      ∀ i, ∀ r ∈ ahead as i, r ∈ (s.bufferedRequests i).items := by
  obtain ⟨s, hs, h⟩ := settled_of_arrivals settled_init hreq hecho hw
  have hreq' : Increasing (requestsOf as') := hreqs ▸ hreq
  have hecho' : ∀ i, Increasing (echoesOf as' i) := fun i => hechoes i ▸ hecho i
  obtain ⟨s', hs', h'⟩ := settled_of_arrivals settled_init hreq' hecho' hw'
  rw [List.nil_append] at h h'
  have hshape : ∀ k, (s.requests.find? k).map (·.req) = (s'.requests.find? k).map (·.req) := by
    intro k
    rw [← TailMap.find?_mapValues, ← TailMap.find?_mapValues]
    exact congrArg (·.find? k) (h.shape.trans (hreqs ▸ h'.shape.symm))
  refine ⟨s, s', hs, hs', hshape, fun k m m' hm hm' g => ?_, fun k m hm i => ?_, fun i r hr => ?_⟩
  · have hsame := hshape k
    rw [hm, hm'] at hsame
    have hreq : m.req = m'.req := Option.some.inj hsame
    rw [Bool.eq_iff_iff, h.credited k m hm g, h'.credited k m' hm' g, hreq]
    simp only [hechoes]
  · rw [h.credited k m hm i]
    refine ⟨?_, fun hmem => .inr ⟨i, rfl, hmem⟩⟩
    rintro (hlast | ⟨j, hj, hmem⟩)
    · have hlt : i.val < cfg.unanimitySize - 1 := i.isLt
      exact absurd hlast hlt.ne
    · rwa [Fin.ext hj] at hmem
  · obtain ⟨stale, hitems, -⟩ := h.parked i
    rw [hitems]
    exact List.mem_append_right _ hr

end

namespace Example

/-- Request 1, and its echo. -/
def late : List (Arrival config) :=
  [.request (request 0 7), .request (request 1 7), .echo (request 1 7) follower]

/-- The echo comes first. -/
def early : List (Arrival config) :=
  [.echo (request 1 7) follower, .request (request 0 7), .request (request 1 7)]

end Example

/-- Request 1 has the echo of the follower in both orders. -/
theorem echoes_late_early : ∃ s s' : ClientRequestIngress Example.config,
    Example.late.foldlM ClientRequestIngress.arrive {} = .ok s ∧
      Example.early.foldlM ClientRequestIngress.arrive {} = .ok s' ∧
      ∃ m m', s.requests.find? 1 = some m ∧ s'.requests.find? 1 = some m' ∧
        m.echoes.get Example.follower = true ∧ m'.echoes.get Example.follower = true := by
  have hreqs : requestsOf Example.late = requestsOf Example.early := by decide +kernel
  have hechoes : ∀ i, echoesOf Example.late i = echoesOf Example.early i := by decide +kernel
  obtain ⟨s, s', hs, hs', hshape, hsame, hrecorded, -⟩ := echoes_of_interleavings hreqs hechoes
    (by decide +kernel) (by decide +kernel) (by decide +kernel) (by decide +kernel)
  have hstored : ((Example.late.foldlM ClientRequestIngress.arrive {}).toOption.bind fun s =>
      (s.requests.find? 1).map (·.req)) = some (Example.request 1 7) := by decide +kernel
  rw [hs] at hstored
  obtain ⟨m, hm, hreq⟩ := Option.map_eq_some_iff.mp hstored
  obtain ⟨m', hm', -⟩ := Option.map_eq_some_iff.mp ((hshape 1).symm.trans hstored)
  have hecho : m.echoes.get Example.follower = true := by
    rw [hrecorded 1 m hm, hreq]
    decide +kernel
  exact ⟨s, s', hs, hs', m, m', hm, hm', hecho, (hsame 1 m m' hm hm' _).symm.trans hecho⟩

end Ubft.Rpc.Ingress
