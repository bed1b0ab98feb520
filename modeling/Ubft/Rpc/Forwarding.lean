import Ubft.Rpc.Cursors

/-!
# Rpc — forwarding signatures

`pollToForward` has a cursor for each follower, that runs ahead of the map with every request
forwarded.  When the request at the cursor is not in the map the iterator is at the end, and it is
dereferenced all the same, to format a text that nothing prints (`not_present`).

Up to there the requests are forwarded in order, each with its own signature
(`forwarded_of_reachable`).  The cursor is an id of 64 bits: past the last one it is at the first
again, and the jump leads it back to the last.
-/

namespace Ubft.Rpc.Ingress

namespace ClientRequestIngress

variable {cfg : Config} {s s' : ClientRequestIngress cfg} {i : Fin cfg.nbFollowers}

/-! ### The cursors stay -/

theorem nextPollToForward_fromFollower (s : ClientRequestIngress cfg) (req : RawRequest)
    (f : Fin cfg.nbFollowers) :
    (s.fromFollower req f).nextPollToForward = s.nextPollToForward := by
  unfold fromFollower
  split <;> rfl

theorem nextPollToForward_replayEcho (id : Nat) (s : ClientRequestIngress cfg)
    (f : Fin cfg.nbFollowers) :
    (s.replayEcho id f).nextPollToForward = s.nextPollToForward := by
  unfold replayEcho
  dsimp only
  split
  · rfl
  · split
    · exact nextPollToForward_fromFollower ..
    · rfl

theorem nextPollToForward_replayEchoes (id : Nat) (is : List (Fin cfg.nbFollowers))
    (s : ClientRequestIngress cfg) :
    (is.foldl (replayEcho id) s).nextPollToForward = s.nextPollToForward := by
  induction is generalizing s with
  | nil => rfl
  | cons i is ih =>
      rw [List.foldl_cons, ih]
      exact nextPollToForward_replayEcho id s i

theorem nextPollToForward_fromClient {req : RawRequest} (h : s.fromClient req = .ok s') :
    s'.nextPollToForward = s.nextPollToForward := by
  unfold fromClient at h
  split at h
  · cases h
  · split at h
    · cases h
    · next requests b _ =>
        cases h
        exact nextPollToForward_replayEchoes ..

theorem nextPollToForward_pollVerifiedSignatures (h : s.pollVerifiedSignatures = .ok s') :
    s'.nextPollToForward = s.nextPollToForward := by
  have hloop : ∀ (vs : List VerifiedSignature) (s : ClientRequestIngress cfg),
      vs.foldlM handleVerified s = .ok s' → s'.nextPollToForward = s.nextPollToForward := by
    intro vs
    induction vs with
    | nil =>
        intro s hs
        cases hs
        rfl
    | cons v vs ih =>
        intro s hs
        obtain ⟨s₁, h₁, h₂⟩ := bind_eq_ok.mp hs
        rw [ih s₁ h₂]
        unfold handleVerified at h₁
        split at h₁
        · cases h₁
        · split at h₁
          · split at h₁
            · cases h₁
              rfl
            · cases h₁
              rfl
          · cases h₁
            rfl
  exact hloop s.verifiedSignatures { s with verifiedSignatures := [] } h

/-! ### What comes next -/

/-- The request at the cursor, once it jumped. -/
def upcoming (s : ClientRequestIngress cfg) (i : Fin cfg.nbFollowers) :
    Option RequestStateMachine :=
  (s.jump (s.nextPollToForward i)).bind s.requests.find?

/-- An entry that does not exist is accessed when there are requests, and not the next one. -/
theorem pollToForward_eq_noEntry : s.pollToForward i = .error .noEntry ↔
    (s.jump (s.nextPollToForward i)).isSome ∧ s.upcoming i = none := by
  unfold pollToForward upcoming
  dsimp only
  cases hj : s.jump (s.nextPollToForward i) with
  | none => exact ⟨nofun, nofun⟩
  | some next =>
      dsimp only [Option.bind_some]
      cases hm : s.requests.find? next with
      | none => exact ⟨fun _ => ⟨rfl, rfl⟩, fun _ => rfl⟩
      | some m =>
          cases hsig : m.signature with
          | none =>
              simp only [hsig]
              exact ⟨nofun, nofun⟩
          | some sig =>
              simp only [hsig]
              exact ⟨nofun, nofun⟩

/-- Otherwise the next request is returned if it is signed. -/
theorem pollToForward_eq_ok (h : s.pollToForward i ≠ .error .noEntry) :
    ∃ s', s.pollToForward i =
      .ok (s', (s.upcoming i).bind fun m => m.signature.map fun sig => (m.req, sig)) := by
  unfold pollToForward upcoming at *
  dsimp only at *
  cases hj : s.jump (s.nextPollToForward i) with
  | none => exact ⟨_, rfl⟩
  | some next =>
      rw [hj] at h
      dsimp only [Option.bind_some] at *
      cases hm : s.requests.find? next with
      | none =>
          rw [hm] at h
          exact absurd rfl h
      | some m =>
          dsimp only [Option.bind_some]
          cases hsig : m.signature with
          | none => exact ⟨_, rfl⟩
          | some sig => exact ⟨_, rfl⟩

end ClientRequestIngress

/-! ### Runs -/

namespace History

variable {cfg : Config} {h h' : History cfg}

/-- The request that `pollToForward` looks up is there, if any is, and its id is not the last one
of 64 bits. -/
def Present (h : History cfg) : Op cfg → Prop
  | .pollToForward i => ∀ next ∈ h.ingress.jump (h.ingress.nextPollToForward i),
      (h.ingress.requests.find? next).isSome ∧ next + 1 < 2 ^ 64
  | _ => True

instance (h : History cfg) : DecidablePred h.Present
  | .pollToForward _ => inferInstanceAs (Decidable (∀ next ∈ _, _ ∧ _))
  | .fromClient _ | .fromFollower _ _ | .verified _ | .pollVerifiedSignatures | .pollReceived
  | .pollToEcho _ | .pollProposable _ _ | .executed _ => inferInstanceAs (Decidable True)

/-- The requests forwarded are below the cursor. -/
def Forwards (h : History cfg) : Prop :=
  ∀ i, Cursor ((h.forwarded i).map (·.1.id)) (h.ingress.nextPollToForward i)

/-- What is forwarded depends on the cursors alone. -/
theorem Forwards.congr (hf : h.Forwards)
    (hn : h'.ingress.nextPollToForward = h.ingress.nextPollToForward)
    (hl : h'.forwarded = h.forwarded) : h'.Forwards := by
  intro i
  rw [hn, hl]
  exact hf i

/-- The cursor passes the request that it forwards. -/
theorem Forwards.pollToForward (hf : h.Forwards) (hi : h.Inv) {i : Fin cfg.nbFollowers}
    (hp : h.Present (.pollToForward i)) (hs : Step h (.pollToForward i) h') : h'.Forwards := by
  obtain ⟨⟨s, r⟩, h₁, he⟩ := bind_eq_ok.mp hs
  cases he
  -- the cursors of the other followers stay
  have hkeep : ∀ {next : Nat} {rs : List (RawRequest × Signature)},
      Cursor (rs.map (·.1.id)) next → Forwards { h with
        ingress := { h.ingress with
          nextPollToForward := Function.update h.ingress.nextPollToForward i next }
        forwarded := Function.update h.forwarded i rs } := by
    intro next rs hrs j
    by_cases hj : j = i
    · subst hj
      simp only [Function.update_self]
      exact hrs
    · simp only [Function.update_of_ne hj]
      exact hf j
  rcases ClientRequestIngress.pollToForward_cases h₁ with ⟨rfl, rfl, -⟩ |
      ⟨next, m, hj, hm, ⟨-, rfl, rfl⟩ | ⟨sig, -, rfl, rfl⟩⟩
  · have h₀ := hkeep (hf i)
    rw [Function.update_eq_self] at h₀
    rwa [Option.toList_none, List.append_nil]
  · rw [Option.toList_none, List.append_nil]
    exact hkeep ((hf i).mono (ClientRequestIngress.le_jump hj))
  · rw [Nat.mod_eq_of_lt (hp next hj).2]
    refine hkeep ?_
    rw [List.map_append, Option.toList_some, List.map_singleton, hi.keyed next m hm]
    exact (hf i).concat (ClientRequestIngress.le_jump hj)

theorem Forwards.step (hf : h.Forwards) (hi : h.Inv) {op : Op cfg} (hp : h.Present op)
    (hs : Step h op h') : h'.Forwards := by
  cases op with
  | fromClient req =>
      obtain ⟨s, h₁, he⟩ := bind_eq_ok.mp hs
      cases he
      exact hf.congr (ClientRequestIngress.nextPollToForward_fromClient h₁) rfl
  | fromFollower req f =>
      cases hs
      exact hf.congr (ClientRequestIngress.nextPollToForward_fromFollower ..) rfl
  | verified v =>
      cases hs
      exact hf
  | pollVerifiedSignatures =>
      obtain ⟨s, h₁, he⟩ := bind_eq_ok.mp hs
      cases he
      exact hf.congr (ClientRequestIngress.nextPollToForward_pollVerifiedSignatures h₁) rfl
  | pollReceived =>
      cases hs
      obtain ⟨_, hp⟩ := h.ingress.pollReceived_fst
      have hn := congrArg ClientRequestIngress.nextPollToForward hp
      exact hf.congr hn rfl
  | pollToEcho i =>
      cases hs
      obtain ⟨_, hp⟩ := h.ingress.pollToEcho_fst i
      have hn := congrArg ClientRequestIngress.nextPollToForward hp
      exact hf.congr hn rfl
  | pollToForward i => exact hf.pollToForward hi hp hs
  | pollProposable fastPath optimistic =>
      cases hs
      obtain ⟨_, hp⟩ := h.ingress.pollProposable_fst fastPath optimistic
      have hn := congrArg ClientRequestIngress.nextPollToForward hp
      exact hf.congr hn rfl
  | executed id =>
      cases hs
      exact hf

/-- **Forwarding**, in every run that looks up requests that are there.  Those forwarded to a
follower increase; a poll that does as well returns the next request with the signature recorded for
it, or nothing; and an entry that does not exist is accessed exactly when there are requests, and
not the next one. -/
theorem forwarded_of_reachable (hr : Reachable Init Step Present h) (i : Fin cfg.nbFollowers) :
    ((h.forwarded i).map (·.1.id)).Pairwise (· < ·) ∧
      (∀ m ∈ h.ingress.upcoming i, h.ingress.requests.find? m.req.id = some m) ∧
      (h.Present (.pollToForward i) →
        ∃ s, h.ingress.pollToForward i = .ok (s, (h.ingress.upcoming i).bind fun m =>
          m.signature.map fun sig => (m.req, sig))) ∧
      (h.ingress.pollToForward i = .error .noEntry ↔
        (h.ingress.jump (h.ingress.nextPollToForward i)).isSome ∧ h.ingress.upcoming i = none) := by
  have hi := inv_of_reachable hr
  have hf : h.Forwards := by
    have hboth : h.Inv ∧ h.Forwards := by
      refine hr.induct (P := fun h => h.Inv ∧ h.Forwards) ?_ ?_
      · rintro h rfl
        exact ⟨inv_init, fun _ => .nil _⟩
      · rintro h op h' - ⟨hi, hf⟩ hp hs
        exact ⟨hi.step hs, hf.step hi hp hs⟩
    exact hboth.2
  have hno := h.ingress.pollToForward_eq_noEntry (i := i)
  refine ⟨(hf i).increasing, fun m hm => ?_, fun hp => ?_, hno⟩
  · obtain ⟨next, -, hnext⟩ := Option.bind_eq_some_iff.mp hm
    rwa [hi.keyed next m hnext]
  · refine ClientRequestIngress.pollToForward_eq_ok fun he => ?_
    obtain ⟨hsome, hnone⟩ := hno.mp he
    obtain ⟨next, hj⟩ := Option.isSome_iff_exists.mp hsome
    obtain ⟨m, hm⟩ := Option.isSome_iff_exists.mp (hp next hj).1
    rw [ClientRequestIngress.upcoming, hj, Option.bind_some, hm] at hnone
    cases hnone

end History

namespace Example

/-- A verified signature of zeros. -/
def signed (id payload : UInt8) : VerifiedSignature :=
  ⟨request id payload, ⟨List.replicate 64 0, length_zeros⟩, true⟩

/-- A request is verified, and forwarded. -/
def forwarding (id : UInt8) : List (Op config) :=
  [.verified (signed id 7), .pollVerifiedSignatures, .pollToForward follower]

end Example

/-- Once the only request is forwarded, the next poll accesses an entry that does not exist. -/
theorem not_present : ¬ ∀ (cfg : Config) (h : History cfg) (i : Fin cfg.nbFollowers),
    Reachable History.Init History.Step (Always (ι := Op cfg)) h →
      h.ingress.pollToForward i ≠ .error .noEntry := by
  intro hall
  obtain ⟨h, hr, hp⟩ : ∃ h : History Example.config,
      Reachable History.Init History.Step (fun _ _ => True) h ∧
        decide (h.ingress.pollToForward Example.follower matches .error .noEntry) = true :=
    exists_reachable {} rfl (Example.forwarding 1) (by decide +kernel)
  have hne := hall _ h Example.follower hr.always
  split at hp
  · next he => exact hne he
  · cases hp

/-- Two requests, one after the other. -/
theorem forwarded_signed : ∃ h : History Example.config,
    Reachable History.Init History.Step History.Present h ∧
      (h.forwarded Example.follower).map (·.1.id) = [1, 2] ∧
      ((h.forwarded Example.follower).map (·.1.id)).Pairwise (· < ·) := by
  obtain ⟨h, hr, hp⟩ : ∃ h : History Example.config,
      Reachable History.Init History.Step History.Present h ∧
        decide ((h.forwarded Example.follower).map (·.1.id) = [1, 2]) = true :=
    exists_reachable {} rfl (Example.forwarding 1 ++ Example.forwarding 2) (by decide +kernel)
  exact ⟨h, hr, of_decide_eq_true hp, (History.forwarded_of_reachable hr _).1⟩

end Ubft.Rpc.Ingress
