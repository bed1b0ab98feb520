import Ubft.Rpc.Parking

/-!
# Rpc — toggling the slow path

A server polls one of the two links from a client, unsigned requests on the fast path and signed
ones on the slow path, and what it does not poll stays on the other link.  A verified signature of a
request that is there, or past, is let through; an unsigned copy is not, and `fromClient` calls the
client Byzantine.  A server that goes back to the fast path then accuses a correct client
(`not_tolerated`).

It happens exactly when an unsigned copy is polled that is not above every request stored with a
verified signature.  As long as none is, no toggle leads to it (`accused_of_reachable`).
-/

namespace Ubft.Rpc.Ingress

section

variable {cfg : Config}

/-! ### What is stored -/

/-- `log` is what was ever stored in a map, in order. -/
structure Logged (t : TailMap RawRequest) (log : List RawRequest) : Prop where
  increasing : Increasing log
  keyed : ∀ k r, t.find? k = some r → r.id = k
  present : ∀ k r, t.find? k = some r → r ∈ log
  le_min : ∀ r ∈ log, r.id ≤ t.min
  last : (∃ r, t.find? t.min = some r) ∨ log = [] ∧ t.min = 0

namespace Logged

variable {t : TailMap RawRequest} {log : List RawRequest} {r : RawRequest}

/-- A request that is new and not past joins the log. -/
theorem store (h : Logged t log) (hno : t.find? r.id = none) (hmin : t.min ≤ r.id) :
    Logged (stored t r) (log ++ [r]) := by
  have hfind : ∀ k x, (stored t r).find? k = some x →
      k = r.id ∧ x = r ∨ t.find? k = some x := by
    intro k x hx
    rw [TailMap.find?, stored, OrdMap.find?_insert] at hx
    split at hx
    · next hk => exact .inl ⟨hk, (Option.some.inj hx).symm⟩
    · exact .inr (TailMap.find?_of_skipWord hx)
  have hlt : ∀ x ∈ log, x.id < r.id := by
    intro x hx
    rcases h.last with ⟨y, hy⟩ | ⟨hnil, -⟩
    · refine (h.le_min x hx).trans_lt (lt_of_le_of_ne hmin ?_)
      intro heq
      rw [heq, hno] at hy
      cases hy
    · rw [hnil] at hx
      cases hx
  refine ⟨?_, fun k x hx => ?_, fun k x hx => ?_, fun x hx => ?_, .inl ⟨r, ?_⟩⟩
  · refine List.pairwise_append.mpr ⟨h.increasing, List.pairwise_singleton _ _, ?_⟩
    intro x hx y hy
    obtain rfl := List.mem_singleton.mp hy
    exact hlt x hx
  · rcases hfind k x hx with ⟨rfl, rfl⟩ | hx
    · rfl
    · exact h.keyed k x hx
  · rcases hfind k x hx with ⟨-, rfl⟩ | hx
    · exact List.mem_append_right _ List.mem_cons_self
    · exact List.mem_append_left _ (h.present k x hx)
  · rcases List.mem_append.mp hx with hx | hx
    · exact (hlt x hx).le
    · exact (congrArg RawRequest.id (List.mem_singleton.mp hx)).le
  · exact OrdMap.find?_insert_self ..

/-- An id is there, or past, when it is not above what was stored. -/
theorem refused (h : Logged t log) {x : RawRequest} (hx : x ∈ log) (hle : r.id ≤ x.id) :
    (t.find? r.id).isSome ∨ r.id < t.min := by
  rcases Nat.lt_or_ge r.id t.min with hlt | hge
  · exact .inr hlt
  · have heq : r.id = t.min := Nat.le_antisymm (hle.trans (h.le_min x hx)) hge
    rcases h.last with ⟨y, hy⟩ | ⟨hnil, -⟩
    · exact .inl (heq ▸ Option.isSome_iff_exists.mpr ⟨y, hy⟩)
    · rw [hnil] at hx
      cases hx

/-- A request of a later identifier than all those stored is taken. -/
theorem not_refused (h : Logged t log) (hlt : ∀ x ∈ log, x.id < r.id) :
    ¬((t.find? r.id).isSome ∨ r.id < t.min) := by
  rintro (hsome | hmin)
  · obtain ⟨x, hx⟩ := Option.isSome_iff_exists.mp hsome
    exact absurd (h.keyed _ x hx) (hlt x (h.present _ x hx)).ne
  · rcases h.last with ⟨x, hx⟩ | ⟨-, hzero⟩
    · have hid := h.keyed _ x hx
      exact absurd (hid ▸ hlt x (h.present _ x hx)) hmin.not_gt
    · rw [hzero] at hmin
      exact Nat.not_lt_zero _ hmin

end Logged

namespace ClientRequestIngress

variable {s s' : ClientRequestIngress cfg} {req : RawRequest}

/-- Only the requests are looked at. -/
theorem isSome_present (s : ClientRequestIngress cfg) (k : Nat) :
    (s.present.find? k).isSome = (s.requests.find? k).isSome := by
  rw [present, TailMap.find?_mapValues, Option.isSome_map]

/-- A request is accused when it is there, or past. -/
theorem fromClient_eq_error :
    (s.fromClient req = .error .sentTwice ∨ s.fromClient req = .error .reSent) ↔
      (s.present.find? req.id).isSome ∨ req.id < s.present.min := by
  rw [isSome_present]
  unfold fromClient
  cases hf : s.requests.find? req.id with
  | some m => exact ⟨fun _ => .inl rfl, fun _ => .inl rfl⟩
  | none =>
      rw [TailMap.tryEmplaceWord_of_notMem _ hf]
      change _ ↔ false = true ∨ req.id < s.requests.min
      by_cases hlt : req.id < s.requests.min
      · rw [if_pos hlt]
        exact ⟨fun _ => .inr hlt, fun _ => .inr rfl⟩
      · rw [if_neg hlt]
        exact ⟨nofun, fun h => h.elim nofun fun h => absurd h hlt⟩

theorem find?_present (hno : s.requests.find? req.id = none) : s.present.find? req.id = none := by
  rw [present, TailMap.find?_mapValues, hno]
  rfl

/-- A request of the client is new, or an error. -/
theorem present_fromClient (h : s.fromClient req = .ok s') :
    s.present.find? req.id = none ∧ s.present.min ≤ req.id ∧
      s'.present = stored s.present req := by
  have herror : ¬(s.fromClient req = .error .sentTwice ∨ s.fromClient req = .error .reSent) := by
    rintro (he | he) <;> exact nomatch h.symm.trans he
  obtain ⟨hno, hmin⟩ := not_or.mp (mt fromClient_eq_error.mpr herror)
  have hnone := Option.not_isSome_iff_eq_none.mp hno
  rw [isSome_present] at hno
  have hrun := fromClient_of_notMem (Option.not_isSome_iff_eq_none.mp hno) (Nat.not_lt.mp hmin)
  cases h.symm.trans hrun
  have hnew := Option.isSome_iff_exists.mpr ⟨_, s.find?_emplace_self req none⟩
  exact ⟨hnone, Nat.not_lt.mp hmin,
    (replayed_foldl (List.nodup_finRange cfg.nbFollowers) hnew).shape.trans
      (s.present_emplace req none)⟩

/-- A verified request is there already, is past, or is new. -/
theorem present_handleVerified {v : VerifiedSignature} (h : s.handleVerified v = .ok s') :
    s'.present = s.present ∨ s.present.find? v.request.id = none ∧
      s.present.min ≤ v.request.id ∧ s'.present = stored s.present v.request := by
  unfold handleVerified at h
  split at h
  · cases h
  · split at h
    · next hno =>
        rw [TailMap.tryEmplaceWord_of_notMem _ hno] at h
        by_cases hlt : v.request.id < s.requests.min
        · rw [if_pos hlt] at h
          cases h
          exact .inl rfl
        · rw [if_neg hlt] at h
          cases h
          exact .inr ⟨find?_present hno, Nat.not_lt.mp hlt, s.present_emplace _ (some v.signature)⟩
    · cases h
      exact .inl (mapValues_modify _ fun _ => rfl)

/-- The slow path accuses a client of an invalid signature only. -/
theorem handleVerified_eq_error {v : VerifiedSignature} {e : Error}
    (h : s.handleVerified v = .error e) : e = .invalidSignature := by
  unfold handleVerified at h
  split at h
  · cases h
    rfl
  · split at h
    · split at h <;> cases h
    · cases h

/-- A request that was not there, and is now. -/
def emplaced (s s' : ClientRequestIngress cfg) (req : RawRequest) : List RawRequest :=
  if (s.requests.find? req.id).isNone && (s'.requests.find? req.id).isSome then [req] else []

/-- Those that are emplaced in the loop of `pollVerifiedSignatures`. -/
def emplacedAll : ClientRequestIngress cfg → List VerifiedSignature → List RawRequest
  | _, [] => []
  | s, v :: vs =>
    match s.handleVerified v with
    | .error _ => []
    | .ok s' => emplaced s s' v.request ++ emplacedAll s' vs

theorem emplaced_eq_nil (h : s'.present = s.present) : emplaced s s' req = [] := by
  have hsome : (s'.requests.find? req.id).isSome = (s.requests.find? req.id).isSome := by
    rw [← isSome_present, ← isSome_present, h]
  rw [emplaced, hsome]
  cases s.requests.find? req.id <;> rfl

theorem emplaced_eq_singleton (hno : s.present.find? req.id = none)
    (h : s'.present = stored s.present req) : emplaced s s' req = [req] := by
  have hnone : (s.requests.find? req.id).isSome = false := by
    rw [← isSome_present, hno]
    rfl
  have hsome : (s'.requests.find? req.id).isSome = true := by
    rw [← isSome_present, h]
    exact congrArg Option.isSome (OrdMap.find?_insert_self ..)
  rw [emplaced, hsome, ← Option.not_isSome, hnone]
  rfl

/-- What the fast path stores is logged. -/
theorem logged_fromClient {log : List RawRequest} (hl : Logged s.present log)
    (h : s.fromClient req = .ok s') : Logged s'.present (log ++ emplaced s s' req) := by
  obtain ⟨hno, hmin, hshape⟩ := present_fromClient h
  rw [emplaced_eq_singleton hno hshape, hshape]
  exact hl.store hno hmin

/-- What the slow path stores is logged. -/
theorem logged_emplacedAll {vs : List VerifiedSignature} {log : List RawRequest}
    (hl : Logged s.present log) (h : vs.foldlM handleVerified s = .ok s') :
    Logged s'.present (log ++ emplacedAll s vs) := by
  induction vs generalizing s log with
  | nil =>
      cases h
      rwa [emplacedAll, List.append_nil]
  | cons v vs ih =>
      obtain ⟨s₁, h₁, h₂⟩ := bind_eq_ok.mp h
      rw [emplacedAll, h₁]
      dsimp only
      rw [← List.append_assoc]
      refine ih ?_ h₂
      rcases present_handleVerified h₁ with hshape | ⟨hno, hmin, hshape⟩
      · rwa [emplaced_eq_nil hshape, List.append_nil, hshape]
      · rw [emplaced_eq_singleton hno hshape, hshape]
        exact hl.store hno hmin

theorem foldlM_handleVerified_eq_error {vs : List VerifiedSignature} {e : Error}
    (h : vs.foldlM handleVerified s = .error e) : e = .invalidSignature := by
  induction vs generalizing s with
  | nil => cases h
  | cons v vs ih =>
      rw [List.foldlM_cons] at h
      cases h₁ : s.handleVerified v with
      | error e' =>
          rw [h₁] at h
          cases h
          exact handleVerified_eq_error h₁
      | ok s₁ =>
          rw [h₁] at h
          exact ih h

end ClientRequestIngress

/-! ### A server and a client -/

/-- A server and a correct client of it: what the client posted and signed, what is unread on the
two links, and the ingress of the client, with the requests that were ever stored, and those of
them that a verified signature brought. -/
structure Serving (cfg : Config) where
  posted : List RawRequest := []
  nextToOffload : Nat := 0
  unsigned : List RawRequest := []
  signed : List (RawRequest × Signature) := []
  slowPath : Bool := false
  /-- `client_signature_verification`. -/
  verifying : TailQueue (RawRequest × Signature) := ⟨cfg.window, []⟩
  history : History cfg := {}
  stored : List RawRequest := []
  storedSigned : List RawRequest := []

namespace Serving

/-- A link may lose what is unread, the oldest first. -/
inductive Event (cfg : Config) where
  /-- `Client::post`. -/
  | post (req : RawRequest)
  /-- `Client::pollSignatures`. -/
  | sign (req : RawRequest) (sig : Signature)
  | loseUnsigned
  | loseSigned
  /-- `Server::tick`, which may find nothing on the link that it polls. -/
  | tick (polled : Bool)
  /-- A worker verifies the oldest signature. -/
  | verify
  | toggleSlowPath (enable : Bool)
  /-- What else is done with the ingress. -/
  | ingress (op : Op cfg)

/-- The next unsigned request of the client's connection, if any. -/
def pollClientRequests (s : Serving cfg) : Except Error (Serving cfg) :=
  match s.unsigned with
  | [] => .ok s
  | req :: unsigned => do
    let history ← s.history.next (.fromClient req)
    return { s with
      unsigned
      history
      stored := s.stored ++ s.history.ingress.emplaced history.ingress req }

/-- A request whose signature is known is not verified again. -/
def enqueueSignatureVerification (s : Serving cfg) (req : RawRequest) (sig : Signature) :
    Serving cfg :=
  if (s.history.ingress.requests.find? req.id).any (·.signature.isSome) then s
  else { s with verifying := s.verifying.emplaceBack (req, sig) }

/-- The next signed request of the client's connection, if any. -/
def pollClientSignedRequests (s : Serving cfg) : Serving cfg :=
  match s.signed with
  | [] => s
  | (req, sig) :: signed => { s with signed }.enqueueSignatureVerification req sig

/-- `RequestIngress::tick`. -/
def ingressTick (s : Serving cfg) : Except Error (Serving cfg) := do
  let emplaced := { s.history.ingress with verifiedSignatures := [] }.emplacedAll
    s.history.ingress.verifiedSignatures
  let history ← s.history.next .pollVerifiedSignatures
  return { s with
    history
    stored := s.stored ++ emplaced
    storedSigned := s.storedSigned ++ emplaced }

/-- The slow path polls the signed requests and ticks the ingress, the fast path the others. -/
def tick (s : Serving cfg) (polled : Bool) : Except Error (Serving cfg) :=
  if s.slowPath then (if polled then s.pollClientSignedRequests else s).ingressTick
  else if polled then s.pollClientRequests
  else .ok s

/-- `verifies` is `Crypto::verify`, with the client's key. -/
def verify (verifies : RawRequest → Signature → Bool) (s : Serving cfg) :
    Except Error (Serving cfg) :=
  match s.verifying.items with
  | [] => .ok s
  | (req, sig) :: _ => do
    let history ← s.history.next (.verified ⟨req, sig, verifies req sig⟩)
    return { s with verifying := s.verifying.popFront, history }

/-- The client, the connections, the workers and the server take turns. -/
def next (verifies : RawRequest → Signature → Bool) (s : Serving cfg) :
    Event cfg → Except Error (Serving cfg)
  | .post req => .ok { s with posted := s.posted ++ [req], unsigned := s.unsigned ++ [req] }
  | .sign req sig => .ok { s with
      nextToOffload := req.id + 1
      signed := s.signed ++ [(req, sig)] }
  | .loseUnsigned => .ok { s with unsigned := s.unsigned.drop 1 }
  | .loseSigned => .ok { s with signed := s.signed.drop 1 }
  | .tick polled => s.tick polled
  | .verify => s.verify verifies
  | .toggleSlowPath enable => .ok { s with slowPath := enable }
  | .ingress op => do return { s with history := ← s.history.next op }

/-- Nothing was posted. -/
def Init (s : Serving cfg) : Prop := s = {}

/-- An event that throws nothing. -/
def Step (verifies : RawRequest → Signature → Bool) (s : Serving cfg) (e : Event cfg)
    (s' : Serving cfg) : Prop := s.next verifies e = .ok s'

/-- The client's requests come through the links. -/
def Other : Op cfg → Prop
  | .fromClient _ | .verified _ | .pollVerifiedSignatures => False
  | .fromFollower _ _ | .pollReceived | .pollToEcho _ | .pollToForward _ | .pollProposable _ _
  | .executed _ => True

instance : DecidablePred (Other : Op cfg → Prop)
  | .fromClient _ | .verified _ | .pollVerifiedSignatures => inferInstanceAs (Decidable False)
  | .fromFollower _ _ | .pollReceived | .pollToEcho _ | .pollToForward _ | .pollProposable _ _
  | .executed _ => inferInstanceAs (Decidable True)

/-- The client posts its requests in the order of their ids, and then signs them in that order,
each once; it may jump over gaps. -/
def Correct (verifies : RawRequest → Signature → Bool) (s : Serving cfg) : Event cfg → Prop
  | .post req => req.id = s.posted.length
  | .sign req sig => req ∈ s.posted ∧ s.nextToOffload ≤ req.id ∧ verifies req sig = true
  | .ingress op => Other op
  | .loseUnsigned | .loseSigned | .tick _ | .verify | .toggleSlowPath _ => True

instance (verifies : RawRequest → Signature → Bool) (s : Serving cfg) :
    DecidablePred (s.Correct verifies)
  | .post _ => inferInstanceAs (Decidable (_ = _))
  | .sign _ _ => inferInstanceAs (Decidable (_ ∧ _))
  | .ingress op => inferInstanceAs (Decidable (Other op))
  | .loseUnsigned | .loseSigned | .tick _ | .verify | .toggleSlowPath _ =>
    inferInstanceAs (Decidable True)

/-- An unsigned copy that is polled is above the requests stored with a verified signature. -/
def Above (s : Serving cfg) : Event cfg → Prop
  | .tick polled => polled = true → s.slowPath = false →
      ∀ req ∈ s.unsigned.head?, ∀ r ∈ s.storedSigned, r.id < req.id
  | .post _ | .sign _ _ | .loseUnsigned | .loseSigned | .verify | .toggleSlowPath _
  | .ingress _ => True

instance (s : Serving cfg) : DecidablePred s.Above
  | .tick _ => inferInstanceAs (Decidable (_ → _ → _))
  | .post _ | .sign _ _ | .loseUnsigned | .loseSigned | .verify | .toggleSlowPath _
  | .ingress _ => inferInstanceAs (Decidable True)

variable {verifies : RawRequest → Signature → Bool} {s s' : Serving cfg} {e : Event cfg}

/-! ### The invariant -/

/-- What was stored and did not come with a verified signature is below what is unread on the link
of the unsigned copies. -/
structure Inv (s : Serving cfg) : Prop where
  logged : Logged s.history.ingress.present s.stored
  lt_posted : ∀ r ∈ s.posted, r.id < s.posted.length
  unsigned_posted : ∀ r ∈ s.unsigned, r ∈ s.posted
  stored_posted : ∀ r ∈ s.stored, r ∉ s.storedSigned → r ∈ s.posted
  fifo : Increasing s.unsigned
  signed_stored : ∀ r ∈ s.storedSigned, r ∈ s.stored
  below : ∀ r ∈ s.stored, r ∈ s.storedSigned ∨ ∀ u ∈ s.unsigned, r.id < u.id

theorem inv_init : Inv ({} : Serving cfg) where
  logged := ⟨.nil, nofun, nofun, nofun, .inr ⟨rfl, rfl⟩⟩
  lt_posted := nofun
  unsigned_posted := nofun
  stored_posted := nofun
  fifo := .nil
  signed_stored := nofun
  below := nofun

/-- What else is done with the ingress leaves its requests. -/
theorem present_other {h h' : History cfg} {op : Op cfg} (ho : Other op)
    (hs : h.next op = .ok h') : h'.ingress.present = h.ingress.present := by
  cases op with
  | fromClient req => exact ho.elim
  | verified v => exact ho.elim
  | pollVerifiedSignatures => exact ho.elim
  | fromFollower req f =>
      cases hs
      dsimp only
      unfold ClientRequestIngress.fromFollower
      split
      · rfl
      · exact mapValues_modify _ fun m => m.req_echoed req f
  | pollReceived =>
      cases hs
      obtain ⟨_, hp⟩ := h.ingress.pollReceived_fst
      have hs := congrArg ClientRequestIngress.present hp
      exact hs
  | pollToEcho i =>
      cases hs
      obtain ⟨_, hp⟩ := h.ingress.pollToEcho_fst i
      have hs := congrArg ClientRequestIngress.present hp
      exact hs
  | pollToForward i =>
      obtain ⟨⟨s, r⟩, h₁, he⟩ := bind_eq_ok.mp hs
      cases he
      rcases ClientRequestIngress.pollToForward_cases h₁ with ⟨rfl, -⟩ |
          ⟨next, m, -, -, ⟨-, -, rfl⟩ | ⟨sig, -, -, rfl⟩⟩
      all_goals rfl
  | pollProposable fastPath optimistic =>
      cases hs
      obtain ⟨_, hp⟩ := h.ingress.pollProposable_fst fastPath optimistic
      have hs := congrArg ClientRequestIngress.present hp
      exact hs
  | executed id =>
      cases hs
      rfl

namespace Inv

/-- The copies that are polled, or lost, leave the link from its front. -/
theorem unsigned_drop (h : s.Inv) {unsigned : List RawRequest} (hsub : unsigned.Sublist s.unsigned) :
    Inv { s with unsigned } where
  logged := h.logged
  lt_posted := h.lt_posted
  unsigned_posted r hr := h.unsigned_posted r (hsub.mem hr)
  stored_posted := h.stored_posted
  fifo := h.fifo.sublist hsub
  signed_stored := h.signed_stored
  below r hr := (h.below r hr).imp_right fun hb u hu => hb u (hsub.mem hu)

/-- The client posts the next identifier. -/
theorem post (h : s.Inv) {req : RawRequest} (hid : req.id = s.posted.length) :
    Inv { s with posted := s.posted ++ [req], unsigned := s.unsigned ++ [req] } where
  logged := h.logged
  lt_posted r hr := by
    rw [List.length_append, List.length_singleton]
    rcases List.mem_append.mp hr with hr | hr
    · exact (h.lt_posted r hr).trans (Nat.lt_succ_self _)
    · rw [List.mem_singleton.mp hr, hid]
      exact Nat.lt_succ_self _
  unsigned_posted r hr := by
    rcases List.mem_append.mp hr with hr | hr
    · exact List.mem_append_left _ (h.unsigned_posted r hr)
    · exact List.mem_append_right _ hr
  stored_posted r hr hn := List.mem_append_left _ (h.stored_posted r hr hn)
  fifo := by
    refine List.pairwise_append.mpr ⟨h.fifo, List.pairwise_singleton _ _, fun r hr r' hr' => ?_⟩
    rw [List.mem_singleton.mp hr', hid]
    exact h.lt_posted r (h.unsigned_posted r hr)
  signed_stored := h.signed_stored
  below r hr := by
    by_cases hn : r ∈ s.storedSigned
    · exact .inl hn
    · refine .inr fun u hu => ?_
      rcases List.mem_append.mp hu with hu | hu
      · exact ((h.below r hr).resolve_left hn) u hu
      · rw [List.mem_singleton.mp hu, hid]
        exact h.lt_posted r (h.stored_posted r hr hn)

/-- The fast path takes a request. -/
theorem pollClientRequests (h : s.Inv) (hs : s.pollClientRequests = .ok s') : s'.Inv := by
  unfold Serving.pollClientRequests at hs
  split at hs
  · cases hs
    exact h
  · next req unsigned hlink =>
      obtain ⟨history, h₁, he⟩ := bind_eq_ok.mp hs
      obtain ⟨ingress, h₂, he'⟩ := bind_eq_ok.mp h₁
      cases he
      cases he'
      have hdrop := h.unsigned_drop (hlink ▸ List.sublist_cons_self req unsigned)
      have hlt := (List.pairwise_cons.mp (hlink ▸ h.fifo)).1
      have hnew : ∀ r ∈ s.history.ingress.emplaced ingress req, r = req := by
        intro r hr
        unfold ClientRequestIngress.emplaced at hr
        split at hr
        · exact List.mem_singleton.mp hr
        · cases hr
      exact { hdrop with
        logged := ClientRequestIngress.logged_fromClient h.logged h₂
        stored_posted := fun r hr hn => by
          rcases List.mem_append.mp hr with hr | hr
          · exact h.stored_posted r hr hn
          · rw [hnew r hr]
            exact h.unsigned_posted req (hlink ▸ List.mem_cons_self)
        signed_stored := fun r hr => List.mem_append_left _ (h.signed_stored r hr)
        below := fun r hr => by
          rcases List.mem_append.mp hr with hr | hr
          · exact hdrop.below r hr
          · rw [hnew r hr]
            exact .inr hlt }

/-- The slow path hands a request to the workers. -/
theorem pollClientSignedRequests (h : s.Inv) : s.pollClientSignedRequests.Inv := by
  unfold Serving.pollClientSignedRequests
  split
  · exact h
  · unfold enqueueSignatureVerification
    split
    · exact { h with }
    · exact { h with }

/-- The slow path takes what they verified. -/
theorem ingressTick (h : s.Inv) (hs : s.ingressTick = .ok s') : s'.Inv := by
  obtain ⟨history, h₁, he⟩ := bind_eq_ok.mp hs
  obtain ⟨ingress, h₂, he'⟩ := bind_eq_ok.mp h₁
  cases he
  cases he'
  exact { h with
    logged := ClientRequestIngress.logged_emplacedAll h.logged h₂
    stored_posted := fun r hr hn => by
      rcases List.mem_append.mp hr with hr | hr
      · exact h.stored_posted r hr fun hr' => hn (List.mem_append_left _ hr')
      · exact absurd (List.mem_append_right _ hr) hn
    signed_stored := fun r hr => by
      rcases List.mem_append.mp hr with hr | hr
      · exact List.mem_append_left _ (h.signed_stored r hr)
      · exact List.mem_append_right _ hr
    below := fun r hr => by
      rcases List.mem_append.mp hr with hr | hr
      · exact (h.below r hr).imp_left (List.mem_append_left _)
      · exact .inl (List.mem_append_right _ hr) }

theorem step (h : s.Inv) (hc : s.Correct verifies e) (hs : Step verifies s e s') : s'.Inv := by
  cases e with
  | post req =>
      cases hs
      exact h.post hc
  | sign req sig =>
      cases hs
      exact { h with }
  | loseUnsigned =>
      cases hs
      exact h.unsigned_drop (List.drop_sublist 1 _)
  | loseSigned =>
      cases hs
      exact { h with }
  | tick polled =>
      dsimp only [Step, next, Serving.tick] at hs
      split at hs
      · refine ingressTick ?_ hs
        split
        · exact h.pollClientSignedRequests
        · exact h
      · split at hs
        · exact h.pollClientRequests hs
        · cases hs
          exact h
  | verify =>
      dsimp only [Step, next, Serving.verify] at hs
      split at hs
      · cases hs
        exact h
      · cases hs
        exact { h with }
  | toggleSlowPath enable =>
      cases hs
      exact { h with }
  | ingress op =>
      obtain ⟨history, h₁, he⟩ := bind_eq_ok.mp hs
      cases he
      exact { h with logged := (present_other hc h₁).symm ▸ h.logged }

end Inv

/-! ### Accusations -/

/-- The errors that say that the client is Byzantine, for a copy that it sent. -/
def Accuses (verifies : RawRequest → Signature → Bool) (s : Serving cfg) (e : Event cfg) : Prop :=
  s.next verifies e = .error .sentTwice ∨ s.next verifies e = .error .reSent

/-- A step that throws nothing accuses nobody. -/
theorem not_accuses_of_ok (h : s.next verifies e = .ok s') : ¬s.Accuses verifies e := by
  rintro (he | he) <;> exact nomatch h.symm.trans he

theorem not_accuses_ingress {op : Op cfg} (ho : Other op) : ¬s.Accuses verifies (.ingress op) := by
  cases op with
  | fromClient req => exact ho.elim
  | verified v => exact ho.elim
  | pollVerifiedSignatures => exact ho.elim
  | fromFollower req f => exact not_accuses_of_ok rfl
  | pollReceived => exact not_accuses_of_ok rfl
  | pollToEcho i => exact not_accuses_of_ok rfl
  | pollProposable fastPath optimistic => exact not_accuses_of_ok rfl
  | executed id => exact not_accuses_of_ok rfl
  | pollToForward i =>
      cases hp : s.history.ingress.pollToForward i with
      | ok r => exact not_accuses_of_ok (bind_eq_ok.mpr ⟨_, bind_eq_ok.mpr ⟨r, hp, rfl⟩, rfl⟩)
      | error err =>
          have hnext : s.next verifies (.ingress (.pollToForward i)) = .error err :=
            bind_of_error (bind_of_error hp)
          have hno : err = .noEntry := by
            unfold ClientRequestIngress.pollToForward at hp
            dsimp only at hp
            split at hp
            · cases hp
            · split at hp
              · cases hp
                rfl
              · split at hp <;> cases hp
          subst hno
          rintro (ha | ha) <;> exact nomatch hnext.symm.trans ha

theorem not_accuses_ingressTick :
    ¬(s.ingressTick = .error .sentTwice ∨ s.ingressTick = .error .reSent) := by
  cases hp : s.history.ingress.pollVerifiedSignatures with
  | ok ingress =>
      obtain ⟨s', hok⟩ : ∃ s', s.ingressTick = .ok s' :=
        ⟨_, bind_eq_ok.mpr ⟨_, bind_eq_ok.mpr ⟨ingress, hp, rfl⟩, rfl⟩⟩
      rintro (ha | ha) <;> exact nomatch hok.symm.trans ha
  | error err =>
      have herror : s.ingressTick = .error err := bind_of_error (bind_of_error hp)
      obtain rfl := ClientRequestIngress.foldlM_handleVerified_eq_error hp
      rintro (ha | ha) <;> exact nomatch herror.symm.trans ha

/-- A copy is accused when the request is there, or past. -/
theorem accuses_cons {req : RawRequest} {unsigned : List RawRequest}
    (hlink : s.unsigned = req :: unsigned) :
    (s.pollClientRequests = .error .sentTwice ∨ s.pollClientRequests = .error .reSent) ↔
      (s.history.ingress.present.find? req.id).isSome ∨
        req.id < s.history.ingress.present.min := by
  rw [← ClientRequestIngress.fromClient_eq_error]
  unfold Serving.pollClientRequests
  rw [hlink]
  dsimp only
  cases hp : s.history.ingress.fromClient req with
  | ok ingress =>
      have hnext : s.history.next (.fromClient req) = .ok { s.history with ingress } :=
        bind_eq_ok.mpr ⟨ingress, hp, rfl⟩
      rw [hnext]
      exact ⟨fun h => h.elim nofun nofun, fun h => h.elim nofun nofun⟩
  | error err =>
      have hnext : s.history.next (.fromClient req) = .error err := bind_of_error hp
      rw [bind_of_error hnext]
      simp only [Except.error.injEq]

/-- **A tick accuses exactly when the request is not above those stored.** -/
theorem Inv.accuses_tick (h : s.Inv) (polled : Bool) :
    s.Accuses verifies (.tick polled) ↔ ¬s.Above (.tick polled) := by
  unfold Accuses next tick Above
  cases hslow : s.slowPath with
  | true => exact ⟨fun ha => absurd ha not_accuses_ingressTick, fun hn => absurd nofun hn⟩
  | false =>
      cases polled with
      | false => exact ⟨fun ha => ha.elim nofun nofun, fun hn => absurd nofun hn⟩
      | true =>
          cases hlink : s.unsigned with
          | nil =>
              have hok : s.pollClientRequests = .ok s := by
                unfold Serving.pollClientRequests
                rw [hlink]
              refine ⟨fun ha => ?_, fun hn => absurd (fun _ _ => nofun) hn⟩
              rcases ha with ha | ha <;> exact nomatch hok.symm.trans ha
          | cons req unsigned =>
              refine (accuses_cons hlink).trans ⟨fun hr ha => ?_, fun hn => ?_⟩
              · refine h.logged.not_refused (fun x hx => ?_) hr
                rcases h.below x hx with hx | hx
                · exact ha rfl rfl req rfl x hx
                · exact hx req (hlink ▸ List.mem_cons_self)
              · by_contra hr
                refine hn fun _ _ r hreq x hx => ?_
                cases hreq
                by_contra hle
                exact hr (h.logged.refused (h.signed_stored x hx) (Nat.not_lt.mp hle))

theorem Inv.accuses_iff (h : s.Inv) (hc : s.Correct verifies e) :
    s.Accuses verifies e ↔ ¬s.Above e := by
  have hnot : ∀ {P : Prop}, ¬s.Accuses verifies e → P → (s.Accuses verifies e ↔ ¬P) :=
    fun hn hp => ⟨fun ha => absurd ha hn, fun hn' => absurd hp hn'⟩
  cases e with
  | tick polled => exact h.accuses_tick polled
  | post req => exact hnot (not_accuses_of_ok rfl) trivial
  | sign req sig => exact hnot (not_accuses_of_ok rfl) trivial
  | loseUnsigned => exact hnot (not_accuses_of_ok rfl) trivial
  | loseSigned => exact hnot (not_accuses_of_ok rfl) trivial
  | toggleSlowPath enable => exact hnot (not_accuses_of_ok rfl) trivial
  | ingress op => exact hnot (not_accuses_ingress hc) trivial
  | verify =>
      refine hnot ?_ trivial
      unfold Accuses next Serving.verify
      cases s.verifying.items with
      | nil => exact not_or.mpr ⟨nofun, nofun⟩
      | cons v vs => exact not_or.mpr ⟨nofun, nofun⟩

/-- In every run of a correct client. -/
theorem inv_of_reachable {good : Serving cfg → Event cfg → Prop}
    (hg : ∀ s e, good s e → s.Correct verifies e)
    (hr : Reachable Init (Step verifies) good s) : s.Inv :=
  hr.induct (P := Inv) (fun _ hs => hs ▸ inv_init) fun s e _ _ hi hgood hs =>
    hi.step (hg s e hgood) hs

/-- **Toggles**, in every run of a correct client in which the unsigned copies that are polled are
above what was stored with a verified signature: each request is stored once, and the client is not
accused.  It is accused at the first copy that is not above. -/
theorem accused_of_reachable
    (hr : Reachable Init (Step verifies) (fun s e => s.Correct verifies e ∧ s.Above e) s) :
    Increasing s.stored ∧ (∀ e, s.Correct verifies e → s.Above e → ¬s.Accuses verifies e) ∧
      ∀ e, s.Correct verifies e → ¬s.Above e → s.Accuses verifies e := by
  have hi := inv_of_reachable (fun _ _ hg => hg.1) hr
  exact ⟨hi.logged.increasing, fun e hc ha => fun hacc => (hi.accuses_iff hc).mp hacc ha,
    fun e hc hn => (hi.accuses_iff hc).mpr hn⟩

end Serving

end

namespace Example

/-- A signature of zeros. -/
def sig : Signature := ⟨List.replicate 64 0, length_zeros⟩

/-- On the slow path, the server stores request 0 with its signature; then it is back on the fast
path. -/
def toggling : List (Serving.Event config) :=
  [.toggleSlowPath true, .post (request 0 7), .sign (request 0 7) sig, .tick true, .verify,
    .tick true, .toggleSlowPath false]

/-- The unsigned copy of request 0 is polled before the toggle. -/
def copied : List (Serving.Event config) :=
  [.post (request 0 7), .tick true, .toggleSlowPath true, .sign (request 0 7) sig, .tick true,
    .verify, .tick true, .toggleSlowPath false, .post (request 1 7), .tick true]

end Example

/-- The unsigned copy of request 0 is still on its link when its signature is verified. -/
theorem not_tolerated : ¬ ∀ (cfg : Config) (verifies : RawRequest → Signature → Bool)
    (s : Serving cfg) (e : Serving.Event cfg),
    Reachable Serving.Init (Serving.Step verifies) (fun s e => s.Correct verifies e) s →
      s.Correct verifies e → ¬s.Accuses verifies e := by
  intro hall
  obtain ⟨s, hr, hp⟩ : ∃ s : Serving Example.config,
      Reachable Serving.Init (Serving.Step fun _ _ => true)
        (fun s e => s.Correct (fun _ _ => true) e) s ∧
        decide (s.next (fun _ _ => true) (.tick true) matches .error .sentTwice) = true :=
    exists_reachable {} rfl Example.toggling (by decide +kernel)
  refine hall _ _ s (.tick true) hr trivial (.inl ?_)
  split at hp
  · next he => exact he
  · cases hp

/-- A run in which both paths store, in order. -/
theorem accused_copied : ∃ s : Serving Example.config,
    Reachable Serving.Init (Serving.Step fun _ _ => true)
        (fun s e => s.Correct (fun _ _ => true) e ∧ s.Above e) s ∧
      s.stored = [Example.request 0 7, Example.request 1 7] ∧ Increasing s.stored := by
  obtain ⟨s, hr, hp⟩ : ∃ s : Serving Example.config,
      Reachable Serving.Init (Serving.Step fun _ _ => true)
        (fun s e => s.Correct (fun _ _ => true) e ∧ s.Above e) s ∧
        decide (s.stored = [Example.request 0 7, Example.request 1 7]) = true :=
    exists_reachable {} rfl Example.copied (by decide +kernel)
  exact ⟨s, hr, of_decide_eq_true hp, (Serving.accused_of_reachable hr).1⟩

end Ubft.Rpc.Ingress
