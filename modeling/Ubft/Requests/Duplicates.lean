import Ubft.Requests.Client
import Ubft.Store.Reinserting

/-!
# Requests — a request or a message added twice

`SingleClientRequests::addRequest` and `Certifier::acknowledge` take what `tryEmplace` answers for
the news that a request or a message is new.  It is right about every key but the last one, which
`present_of_reachable` says of both.
-/

namespace Ubft

universe u

open Requests (SingleClientRequests)

namespace VectorTailMap

variable {V : Type u} {r : VectorTailMap V} {l : List (Nat × V)} {key : Nat}

/-- The test `Certifier::acknowledge` begins with, on the messages of the tail. -/
def acknowledge {D : Type u} (msgTail : VectorTailMap D) (index : Nat) (d : D) :
    VectorTailMap D × Except String Unit :=
  match msgTail.tryEmplace index d with
  | .error e => (msgTail, .error e)
  | .ok (msgTail, false) => (msgTail, .error "Acknowledged messages out of order.")
  | .ok (msgTail, true) => (msgTail, .ok ())

/-- The acknowledgment throws, and the messages are what they were. -/
def Reports {D : Type u} (msgTail : VectorTailMap D) (index : Nat) (d : D) : Prop :=
  (msgTail.acknowledge index d).2 ≠ .ok () ∧ (msgTail.acknowledge index d).1 = msgTail

/-- A key that is there is reported, unless it is the last one emplaced. -/
theorem UpTo.reports_iff (h : UpTo r l) (hp : (r.find? key).isSome) (v : V) :
    r.Reports key v ↔ key ≠ r.min := by
  unfold Reports acknowledge
  rcases h.cases hp v with ⟨hk, he⟩ | ⟨hk, r', he⟩
  · rw [he]
    exact ⟨fun _ => hk, fun _ => ⟨nofun, rfl⟩⟩
  · rw [he]
    exact ⟨fun h => absurd rfl h.1, fun hne => absurd hk hne⟩

end VectorTailMap

namespace Requests.SingleClientRequests

/-- The request is not taken for a new one, and the requests are what they were. -/
def Reports (c : SingleClientRequests) (id : Nat) (request : Bytes) : Prop :=
  (c.addRequest id request).2 ≠ .ok true ∧ (c.addRequest id request).1.requests = c.requests

/-- A request that is there is told from a new one unless it is the last one, or refused before. -/
theorem reports_iff {c : SingleClientRequests} {l : List (Nat × Bytes)}
    (h : VectorTailMap.UpTo c.requests l) {id : Nat} (hp : (c.requests.find? id).isSome)
    (request : Bytes) :
    c.Reports id request ↔ id ≠ c.requests.min ∨ (∃ bound ∈ c.acceptBelow, bound ≤ id) ∨
      c.maxRequestSize < request.length := by
  unfold Reports
  by_cases hb : ∃ bound ∈ c.acceptBelow, bound ≤ id
  · rw [addRequest_refused request hb]
    exact ⟨fun _ => .inr (.inl hb), fun _ => ⟨nofun, rfl⟩⟩
  by_cases hl : request.length ≤ c.maxRequestSize
  · rw [addRequest_emplace hb hl]
    rcases h.cases hp request with ⟨hk, he⟩ | ⟨hk, r', he⟩
    · obtain ⟨hok, -, -, hmap⟩ := emplace_of_ok (s := c.setAcceptBelow (id + c.window)) hl he
      rw [hok, hmap]
      exact ⟨fun _ => .inl hk, fun _ => ⟨nofun, rfl⟩⟩
    · obtain ⟨hok, -⟩ := emplace_of_ok (s := c.setAcceptBelow (id + c.window)) hl he
      rw [hok]
      exact ⟨fun h => absurd rfl h.1, fun h => absurd hk (h.resolve_right fun h =>
        h.elim hb hl.not_gt)⟩
  · rw [addRequest_resize hb hl]
    exact ⟨fun _ => .inr (.inr (Nat.not_le.mp hl)), fun _ => ⟨nofun, rfl⟩⟩

end Requests.SingleClientRequests

namespace VectorTailMap

namespace Logged

variable {V : Type u}

/-- **Inserting a present key again**, in a map whose last key was never inserted again as long as
it was there: the iteration ends and is in order; a key that is there is found and changes nothing
exactly when it is not the last one; and so are a request added twice and a message acknowledged
twice, with the requests that `addRequest` refuses for other reasons. -/
theorem present_of_reachable {n : Nat} (hn : 0 < n) :
    (∀ (V : Type) (s : Logged V), Reachable (Init n) Step Apart s →
      s.map.Orderly ∧ ∀ key, (s.map.find? key).isSome → ∀ v,
        (s.map.tryEmplace key v = .ok (s.map, false) ↔ key ≠ s.map.min) ∧
          (s.map.Reports key v ↔ key ≠ s.map.min)) ∧
    ∀ (s : Logged Bytes) (c : SingleClientRequests), Reachable (Init n) Step Apart s →
      c.requests = s.map → ∀ id, (c.requests.find? id).isSome → ∀ request,
        (c.Reports id request ↔ id ≠ c.requests.min ∨ (∃ bound ∈ c.acceptBelow, bound ≤ id) ∨
          c.maxRequestSize < request.length) := by
  refine ⟨fun V s h => ?_, fun s c h hc id hp request => ?_⟩
  · obtain ⟨ht, l, hl⟩ := kempt_of_reachable hn h
    exact ⟨hl.orderly (ht.symm ▸ hn), fun key hp v => ⟨hl.present_iff hp v, hl.reports_iff hp v⟩⟩
  · obtain ⟨-, l, hl⟩ := kempt_of_reachable hn h
    rw [← hc] at hl
    exact Requests.SingleClientRequests.reports_iff hl hp request

instance (s : Logged V) : DecidablePred s.Apart
  | .tryEmplace key _ => decidable_of_iff (key = s.map.min → (s.map.find? key).isNone)
      (by rw [Option.isNone_iff_eq_none]; rfl)
  | .popFront | .clear => inferInstanceAs (Decidable True)

/-- The key 0 is inserted twice: its entry is its own successor, and no iteration ends. -/
theorem present_last : ¬ ∀ (n : Nat) (s : Logged Nat), 0 < n →
    Reachable (Init n) Step Always s →
      s.map.Orderly ∧ ∀ key, (s.map.find? key).isSome → ∀ v,
        s.map.tryEmplace key v = .ok (s.map, false) := by
  intro h
  obtain ⟨s, hs, hsee⟩ : ∃ s : Logged Nat,
      Reachable (Init 2) Step (fun _ _ => True) s ∧ (s.map.entries == none) = true :=
    exists_reachable _ rfl [.tryEmplace 0 7, .tryEmplace 0 8] (by decide +kernel)
  obtain ⟨l, hl, -⟩ := (h 2 s (by decide) hs.always).1
  rw [beq_iff_eq.mp hsee] at hl
  cases hl

/-- Inserting 3 again into a map with the keys 3 and 4. -/
theorem present_first : ∃ s : Logged Nat, s.map.Orderly ∧
    s.map.tryEmplace 3 9 = .ok (s.map, false) := by
  obtain ⟨s, hs, hsee⟩ : ∃ s : Logged Nat, Reachable (Init 4) Step Apart s ∧
      ((s.map.find? 3).isSome && (s.map.min == 4)) = true :=
    exists_reachable _ rfl [.tryEmplace 3 7, .tryEmplace 4 8] (by decide +kernel)
  obtain ⟨hp, hmin⟩ := (Bool.and_eq_true ..).mp hsee
  obtain ⟨horder, hkey⟩ := (present_of_reachable (n := 4) (by decide)).1 Nat s hs
  refine ⟨s, horder, (hkey 3 hp 9).1.mpr ?_⟩
  rw [beq_iff_eq.mp hmin]
  decide

end Logged

end VectorTailMap

end Ubft
