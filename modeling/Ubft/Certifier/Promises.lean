import Ubft.Certifier.Received
import Ubft.Certifier.Tail

/-!
# Certifier — the promises of a message

A promise is noted with its message when it arrives after the acknowledgement, and waits in the
buffer of its sender when it arrives before.  Either way it was sent by that peer for that index:
`Heard P` says so of every promise a certifier keeps, when `P` holds of the peers and indices it
heard of.  No operation notes a promise by itself, so that stays so (`Heard.apply`), and a promise
is polled when every peer was heard of (`Heard.polled`).
-/

namespace Ubft.Certifier

variable {M : Type} {cr : Crypto M} {s s' : Certifier M} {P P' : ProcId → Index → Prop}

/-- `P` holds of the peer of rank `r` and of the index `i`. -/
def Said (P : ProcId → Index → Prop) (receivers : List ProcId) (r : Nat) (i : Index) : Prop :=
  ∃ p, receivers[r]? = some p ∧ P p i

/-- The ranks kept with a message of index `i`, none of them twice. -/
structure Noted (P : ProcId → Index → Prop) (receivers : List ProcId) (i : Index)
    (ranks : List Nat) : Prop where
  said : ∀ r ∈ ranks, Said P receivers r i
  once : ranks.Nodup

/-- Every promise kept, with its message or in a buffer, is one of those `P` speaks of. -/
structure Heard (P : ProcId → Index → Prop) (s : Certifier M) : Prop where
  promised : ∀ i d, s.msgTail.find? i = some d → Noted P s.receivers i d.promised
  buffered : ∀ r, ∀ i ∈ s.bufferedPromises r, Said P s.receivers r i

section Noted

variable {receivers : List ProcId} {i : Index} {ranks : List Nat}

/-- The ranks of a message that has just been acknowledged. -/
theorem Noted.nil (P : ProcId → Index → Prop) (receivers : List ProcId) (i : Index) :
    Noted P receivers i [] :=
  ⟨fun _ h => (nomatch h), List.nodup_nil⟩

/-- A promise is noted once. -/
theorem Noted.receivedPromise {d : MessageData M} (hn : Noted P receivers i d.promised)
    {r : Nat} (hr : Said P receivers r i) :
    Noted P receivers i (d.receivedPromise r).1.promised := by
  unfold MessageData.receivedPromise
  split
  · exact hn
  · next hno =>
      refine ⟨fun r' hr' => ?_, List.nodup_cons.mpr ⟨hno, hn.once⟩⟩
      rcases List.mem_cons.mp hr' with rfl | hr'
      · exact hr
      · exact hn.said r' hr'

/-- **As many ranks as peers** are the ranks of all of them. -/
theorem Noted.everyone (hn : Noted P receivers i ranks) (hl : ranks.length = receivers.length) :
    ∀ p ∈ receivers, P p i := by
  intro p hp
  have hsub : ranks ⊆ List.range receivers.length := fun r hr => by
    obtain ⟨q, hq, -⟩ := hn.said r hr
    exact List.mem_range.mpr (List.getElem?_eq_some_iff.mp hq).1
  have hperm := (List.subperm_of_subset hn.once hsub).perm_of_length_le (by simp [hl])
  obtain ⟨r, hr⟩ := List.getElem?_of_mem hp
  have hlt : r < receivers.length := (List.getElem?_eq_some_iff.mp hr).1
  obtain ⟨q, hq, hsaid⟩ := hn.said r (hperm.mem_iff.mpr (List.mem_range.mpr hlt))
  obtain rfl : p = q := Option.some.inj (hr.symm.trans hq)
  exact hsaid

end Noted

namespace Heard

/-- More was heard. -/
theorem mono (hP : ∀ p i, P p i → P' p i) (h : Heard P s) : Heard P' s := by
  have hsaid : ∀ {r i}, Said P s.receivers r i → Said P' s.receivers r i :=
    fun ⟨p, hp, hi⟩ => ⟨p, hp, hP p _ hi⟩
  exact ⟨fun i d hd => ⟨fun r hr => hsaid ((h.promised i d hd).said r hr),
    (h.promised i d hd).once⟩, fun r i hi => hsaid (h.buffered r i hi)⟩

/-- A certifier that keeps some of the messages, and some of the promises in the buffers. -/
theorem of_sub (h : Heard P s) (hr : s'.receivers = s.receivers)
    (ht : ∀ i d', s'.msgTail.find? i = some d' →
      ∃ d, s.msgTail.find? i = some d ∧ d'.promised = d.promised)
    (hb : ∀ r, ∀ i ∈ s'.bufferedPromises r, i ∈ s.bufferedPromises r) : Heard P s' where
  promised i d' hd' := by
    obtain ⟨d, hd, he⟩ := ht i d' hd'
    rw [he, hr]
    exact h.promised i d hd
  buffered r i hi := by
    rw [hr]
    exact h.buffered r i (hb r i hi)

/-- A step that hears of no promise. -/
theorem elsewhere (h : Heard P s) (he : Elsewhere s s') : Heard P s' :=
  h.of_sub he.receivers (fun _ d hd => ⟨d, he.msgTail ▸ hd, rfl⟩) fun _ _ hi =>
    he.bufferedPromises ▸ hi

/-- What is known of one message changes. -/
theorem modify (h : Heard P s) {i : Index} {f : MessageData M → MessageData M}
    (hf : ∀ d, s.msgTail.find? i = some d → Noted P s.receivers i (f d).promised) :
    Heard P { s with msgTail := s.msgTail.modify i f } := by
  refine ⟨fun k d' hd' => ?_, h.buffered⟩
  change (s.msgTail.modify i f).find? k = some d' at hd'
  rw [TailMap.find?_modify] at hd'
  by_cases hk : k = i
  · rw [if_pos hk] at hd'
    obtain ⟨d, hd, rfl⟩ := Option.map_eq_some_iff.mp hd'
    exact hk ▸ hf d hd
  · rw [if_neg hk] at hd'
    exact h.promised k d' hd'

/-- A promise of a peer, for a message of the tail. -/
theorem promise (h : Heard P s) {i : Index} {r : Nat} (hr : Said P s.receivers r i) :
    Heard P { s with msgTail := s.msgTail.modify i (fun d => (d.receivedPromise r).1) } :=
  h.modify fun d hd => (h.promised i d hd).receivedPromise hr

/-- The same, when what is known of the message was read first. -/
theorem promise_const (h : Heard P s) {i : Index} {r : Nat} {d : MessageData M}
    (hd : s.msgTail.find? i = some d) (hr : Said P s.receivers r i) :
    Heard P { s with msgTail := s.msgTail.modify i (fun _ => (d.receivedPromise r).1) } :=
  h.modify fun _ _ => (h.promised i d hd).receivedPromise hr

/-- The buffer of a peer loses promises, or gains one that was heard of. -/
theorem buffer (h : Heard P s) {r : Nat} {is : List Index}
    (hi : ∀ i ∈ is, i ∈ s.bufferedPromises r ∨ Said P s.receivers r i) :
    Heard P { s with bufferedPromises := Function.update s.bufferedPromises r is } := by
  refine ⟨h.promised, fun r' i hm => ?_⟩
  change i ∈ Function.update s.bufferedPromises r is r' at hm
  by_cases hrr : r' = r
  · subst hrr
    rw [Function.update_self] at hm
    rcases hi i hm with hm | hs
    · exact h.buffered r' i hm
    · exact hs
  · rw [Function.update_of_ne hrr] at hm
    exact h.buffered r' i hm

/-! ### The operations on promises -/

/-- A buffered promise was said. -/
theorem replayPromise (h : Heard P s) {i : Index} {r : Nat}
    (hs : replayPromise i s r = .ok s') : Heard P s' := by
  have hsuffix := List.dropWhile_suffix (l := s.bufferedPromises r) fun k => decide (k < i)
  unfold Certifier.replayPromise at hs
  split at hs
  · cases hs
    exact h.buffer fun _ hm => nomatch hm
  · next k ks hdrop =>
      rw [hdrop] at hsuffix
      split at hs
      · cases hs
        exact h.buffer fun k' hm => .inl (hsuffix.mem hm)
      · next hki =>
          obtain rfl : k = i := not_not.mp hki
          have hsaid : Said P s.receivers r k := h.buffered r k (hsuffix.mem List.mem_cons_self)
          split at hs
          · cases hs; exact h
          · next d hd =>
              simp only at hs
              split at hs
              · cases hs
                have hb : ∀ k' ∈ ks, k' ∈ s.bufferedPromises r ∨ Said P s.receivers r k' :=
                  fun k' hm => .inl (hsuffix.mem (List.mem_cons_of_mem _ hm))
                exact (h.buffer hb).promise_const hd hsaid
              · cases hs

theorem replayPromises (h : Heard P s) {i : Index} {rs : List Nat}
    (hs : replayPromises i s rs = .ok s') : Heard P s' := by
  induction rs generalizing s with
  | nil => cases hs; exact h
  | cons r rs ih =>
      obtain ⟨s₁, h₁, h₂⟩ := bind_eq_ok.mp hs
      exact ih (h.replayPromise h₁) h₂

/-- The promises that arrived before the acknowledgement are noted with the message. -/
theorem acknowledge (h : Heard P s) {i : Index} {m : M} (hs : s.acknowledge cr i m = .ok s') :
    Heard P s' := by
  unfold Certifier.acknowledge at hs
  split at hs
  · cases hs
  · cases hs
  · next t ht =>
      obtain ⟨s₁, h₁, h₂⟩ := bind_eq_ok.mp hs
      cases h₂
      have h₀ : Heard P { s with msgTail := t } := by
        refine ⟨fun k d hd => ?_, h.buffered⟩
        rcases TailMap.find?_tryEmplaceWord_cases ht hd with ⟨-, rfl⟩ | hd
        · exact .nil P _ k
        · exact h.promised k d hd
      have h₂ : Heard P s₁ := by
        unfold Certifier.replayBufferedPromises at h₁
        split at h₁
        · exact h₀.replayPromises h₁
        · cases h₁; exact h₀
      have h₃ : Heard P (replayBufferedShares cr i s₁) :=
        h₂.elsewhere (elsewhere_replayBufferedShares i s₁)
      exact h₃.elsewhere ⟨rfl, rfl, rfl, rfl, rfl, rfl⟩

/-- A peer's message acknowledged on the spot stands for its promise. -/
theorem receivedImplicitPromise (h : Heard P s) {p : ProcId} {i : Index} (hp : P p i)
    (hs : s.receivedImplicitPromise p i = .ok s') : Heard P s' := by
  unfold Certifier.receivedImplicitPromise at hs
  split at hs
  · cases hs; exact h
  · split at hs
    · cases hs
    · next r hr =>
        cases hs
        obtain ⟨hlt, he, -⟩ := List.idxOf?_eq_some_iff.mp hr
        exact h.promise ⟨p, List.getElem?_eq_some_iff.mpr ⟨hlt, he⟩, hp⟩

/-- A promise that is said is heard. -/
theorem handlePromise (h : Heard P s) {i : Index} {r : Nat} (hr : Said P s.receivers r i)
    (hs : s.handlePromise i r = .ok s') : Heard P s' := by
  unfold Certifier.handlePromise at hs
  split at hs
  · next d hd =>
      simp only at hs
      split at hs
      · cases hs; exact h.promise_const hd hr
      · cases hs
  · simp only at hs
    split at hs
    · cases hs
    · cases hs
      refine h.buffer fun k hm => ?_
      rcases List.mem_append.mp hm with hm | hm
      · split at hm
        · exact .inl (List.mem_of_mem_drop hm)
        · exact .inl hm
      · exact .inr (List.mem_singleton.mp hm ▸ hr)

/-! ### Every operation -/

/-- A forgotten message's promises are forgotten. -/
theorem forgetMessages (h : Heard P s) (i : Option Index) : Heard P (s.forgetMessages i) := by
  cases i with
  | none => exact h.of_sub rfl (fun _ _ hd => nomatch hd) fun _ _ hm => hm
  | some i =>
      exact h.of_sub rfl (fun _ d hd => ⟨d, (forgetMessages_messages hd).2, rfl⟩)
        fun _ _ hm => hm

theorem handleVerifiedShare (h : Heard P s) {r : Nat} {sh : Share} {b : Bool}
    (hs : s.handleVerifiedShare r sh b = .ok s') : Heard P s' := by
  rcases handleVerifiedShare_cases hs with rfl | ⟨d, hd, -, rfl⟩
  · exact h
  · exact h.modify fun _ _ => h.promised _ d hd

theorem pollVerifiedShare (h : Heard P s) (hs : s.pollVerifiedShare = .ok s') : Heard P s' := by
  unfold Certifier.pollVerifiedShare at hs
  split at hs
  · next rest _ =>
      have h' : Heard P { s with verifiedShares := rest } := ⟨h.promised, h.buffered⟩
      exact h'.handleVerifiedShare hs
  · split at hs
    · next rest _ =>
        have h' : Heard P { s with myShares := rest } := ⟨h.promised, h.buffered⟩
        exact h'.handleVerifiedShare hs
    · cases hs; exact h

end Heard

/-- The promises an operation brings, each with the peer it is from. -/
def arrivals (s : Certifier M) : Op M → List (ProcId × Index)
  | .handlePromise i r => s.receivers[r]?.toList.map fun p => (p, i)
  | .receivedImplicitPromise p i => [(p, i)]
  | .acknowledge _ _ | .pollPromise | .pollCertificate | .forgetMessages _ | .toggleFastPath _
  | .toggleSlowPath _ | .handleShare _ _ | .startCheck _ | .finishCheck _ | .pollVerifiedShare
  | .offloadShareComputation | .computeShare _ | .pollComputedShares => []

/-- **No promise is made up**: those an operation leaves were there before or came with it. -/
theorem Heard.apply (h : Heard P s) {op : Op M} (ha : ∀ e ∈ s.arrivals op, P e.1 e.2)
    (hs : s.apply cr op = .ok s') : Heard P s' := by
  cases op with
  | acknowledge i m => exact h.acknowledge hs
  | receivedImplicitPromise p i =>
      exact h.receivedImplicitPromise (ha (p, i) List.mem_cons_self) hs
  | pollPromise =>
      cases hs
      obtain ⟨n, he, -⟩ := pollPromise_eq s
      rw [he]
      exact ⟨h.promised, h.buffered⟩
  | pollCertificate =>
      cases hs
      obtain ⟨n, he, -⟩ := pollCertificate_eq cr s
      rw [he]
      exact ⟨h.promised, h.buffered⟩
  | forgetMessages i => cases hs; exact h.forgetMessages i
  | toggleFastPath b => cases hs; exact ⟨h.promised, h.buffered⟩
  | toggleSlowPath b => cases hs; exact ⟨h.promised, h.buffered⟩
  | handlePromise i r =>
      simp only [Certifier.apply] at hs
      split at hs
      · next hr =>
          have hget : s.receivers[r]? = some s.receivers[r] := List.getElem?_eq_getElem hr
          refine h.handlePromise ⟨_, hget, ha (_, i) ?_⟩ hs
          simp [arrivals, hget]
      · cases hs; exact h
  | handleShare sh r =>
      simp only [Certifier.apply] at hs
      split at hs
      · exact h.elsewhere (elsewhere_handleShare hs)
      · cases hs; exact h
  | startCheck r => cases hs; exact h.elsewhere (elsewhere_startCheck s r)
  | finishCheck k => cases hs; exact h.elsewhere (elsewhere_finishCheck s k)
  | pollVerifiedShare => exact h.pollVerifiedShare hs
  | offloadShareComputation => exact h.elsewhere (elsewhere_offload hs)
  | computeShare k => cases hs; exact h.elsewhere (elsewhere_computeShare s k)
  | pollComputedShares => cases hs; exact h.elsewhere (elsewhere_pollComputedShares s)

/-- **A promise polled** was made by every peer. -/
theorem Heard.polled (h : Heard P s) {i : Index} (hp : s.pollPromise.2 = some i) :
    ∀ p ∈ s.receivers, P p i := by
  obtain ⟨n, -, -, hpoll⟩ := pollPromise_eq s
  obtain ⟨-, -, d, hd, hfull⟩ := hpoll i hp
  exact (h.promised i d hd).everyone (of_decide_eq_true hfull)

end Ubft.Certifier
