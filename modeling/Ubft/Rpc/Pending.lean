import Ubft.Rpc.Client

/-!
# Rpc — the requests that wait

A client's requests wait in a tail map of `window` ids, which drops the oldest one without a word
when a request comes that is too far ahead.  `getSlot` is to refuse before that, but the pool of
buffers it asks has no end.  Ids have 64 bits, and `id + window` may wrap for the oldest one, which
is then dropped whatever the room.  As long as neither happens (`Room`), every request waits until it
is answered, and they are answered in order (`unanswered_of_reachable`).
-/

namespace Ubft.Rpc

namespace Client

/-- A client, and what `poll` returned, each answer with the id of its request. -/
structure Answering where
  client : Client
  answered : List (Nat × Bytes) := []

namespace Answering

/-- A call; the answers of `poll` are kept. -/
def next (s : Answering) : Op → Except Error Answering
  | .poll => do
    let (client, o) ← s.client.poll
    return { client, answered := s.answered ++ o.toList }
  | op => do return { s with client := ← s.client.apply op }

/-- A fresh client that answered nothing. -/
def Init (s : Answering) : Prop := ∃ client : Client, client.Init ∧ s = { client }

/-- A call that throws nothing. -/
def Step (s : Answering) (op : Op) (s' : Answering) : Prop := s.next op = .ok s'

/-- Fewer than `window` requests were given a slot and not answered, and there is an id left; and no
request is posted behind another one, if the place of the oldest one wraps. -/
def Room (s : Answering) : Op → Prop
  | .getSlot _ => s.client.nextRequest < s.answered.length + s.client.window ∧
      s.client.nextRequest + 1 < 2 ^ 64
  | .post => s.client.requestsBeingWritten = [] ∨ s.client.nextRequest ≤ s.answered.length + 1 ∨
      s.answered.length + s.client.window < 2 ^ 64
  | .pollResponse _ _ _ | .poll => True

instance (s : Answering) : DecidablePred s.Room
  | .getSlot _ => inferInstanceAs (Decidable (_ ∧ _))
  | .post => inferInstanceAs (Decidable (_ ∨ _ ∨ _))
  | .pollResponse _ _ _ | .poll => inferInstanceAs (Decidable True)

/-- A server answered that to the request. -/
def Sent (s : Answering) (i : Nat) (bytes : Bytes) : Prop :=
  ∃ v ∈ s.client.received, v.2.requestId = i ∧ v.2.content = bytes

/-- Every request that was given a slot is written, waits, or was answered. -/
def Kept (s : Answering) : Prop :=
  ∀ i < s.client.nextRequest, i ∈ s.client.requestsBeingWritten ∨
    (s.client.requests.find? i).isSome ∨ i ∈ s.answered.map (·.1)

/-- The requests answered come before those that wait, and these before those written. -/
structure Inv (s : Answering) : Prop where
  answered : s.answered.map (·.1) = List.range s.answered.length
  sent : ∀ a ∈ s.answered, s.Sent a.1 a.2
  tail : s.client.requests.tail = s.client.window
  window : s.client.nextRequest ≤ s.answered.length + s.client.window
  posted : ∃ p, s.client.requests.min ≤ p ∧ p ≤ s.client.nextRequest ∧
    s.answered.length ≤ p ∧
    s.client.requestsBeingWritten = List.range' p (s.client.nextRequest - p) ∧
    ∀ i, (s.client.requests.find? i).isSome ↔ s.answered.length ≤ i ∧ i < p
  responses : ∀ i d, s.client.requests.find? i = some d →
    ∀ v ∈ d.responses, v ∈ s.client.received ∧ v.2.requestId = i

variable {s s' : Answering}

theorem inv_init (h : s.Init) : s.Inv := by
  obtain ⟨-, ⟨window, nbServers, maxRequestSize, maxResponseSize, rfl⟩, rfl⟩ := h
  exact ⟨rfl, nofun, rfl, Nat.zero_le _,
    ⟨0, le_rfl, le_rfl, le_rfl, rfl, fun i => ⟨nofun, fun h => absurd h.2 (Nat.not_lt_zero i)⟩⟩,
    nofun⟩

/-- Every request waits, is in flight, or was answered. -/
theorem Inv.kept (h : s.Inv) : s.Kept := by
  intro i hi
  obtain ⟨p, -, -, -, hwritten, hkeys⟩ := h.posted
  rcases Nat.lt_or_ge i s.answered.length with hlt | hge
  · exact .inr (.inr (by rw [h.answered]; exact List.mem_range.mpr hlt))
  · rcases Nat.lt_or_ge i p with hlt | hp
    · exact .inr (.inl ((hkeys i).mpr ⟨hge, hlt⟩))
    · refine .inl ?_
      rw [hwritten, List.mem_range'_1]
      omega

theorem Inv.getSlot (h : s.Inv) {size : Nat} (hr : s.Room (.getSlot size))
    (hs : s.Step (.getSlot size) s') : s'.Inv := by
  obtain ⟨c, hc, he⟩ := bind_eq_ok.mp hs
  cases he
  unfold Client.apply Client.getSlot at hc
  simp only at hc
  split at hc
  · cases hc
  · cases hc
    obtain ⟨p, hmin, hp, hlen, hwritten, hkeys⟩ := h.posted
    have hnext : (s.client.nextRequest + 1) % 2 ^ 64 = s.client.nextRequest + 1 :=
      Nat.mod_eq_of_lt hr.2
    refine ⟨h.answered, h.sent, h.tail, ?_, ⟨p, hmin, ?_, hlen, ?_, hkeys⟩, h.responses⟩
    · change (s.client.nextRequest + 1) % 2 ^ 64 ≤ _
      rw [hnext]
      exact hr.1
    · change p ≤ (s.client.nextRequest + 1) % 2 ^ 64
      rw [hnext]
      exact Nat.le_succ_of_le hp
    · change s.client.requestsBeingWritten ++ [s.client.nextRequest] =
        List.range' p ((s.client.nextRequest + 1) % 2 ^ 64 - p)
      rw [hnext, hwritten, Nat.succ_sub hp, List.range'_1_concat, Nat.add_sub_cancel' hp]

/-- A key that comes next pushes out none of those from `k` on, if they fit in the window with it and
the place of `k` does not wrap. -/
theorem find?_skipWord_next {k p : Nat} {t : TailMap RequestData}
    (hkeys : ∀ i, (t.find? i).isSome ↔ k ≤ i ∧ i < p) (hfit : p < k + t.tail)
    (hwrap : p ≤ k ∨ k + t.tail < 2 ^ 64) (i : Nat) :
    (t.skipWord p).find? i = t.find? i := by
  cases hi : t.find? i with
  | none =>
      cases hs : (t.skipWord p).find? i with
      | none => rfl
      | some d => exact nomatch hi.symm.trans (TailMap.find?_of_skipWord hs)
  | some d =>
      obtain ⟨hki, hip⟩ := (hkeys i).mp (by rw [hi]; rfl)
      have hlt : k + t.tail < 2 ^ 64 := hwrap.resolve_left (Nat.not_le.mpr (hki.trans_lt hip))
      refine TailMap.find?_skipWord_eq_some.mpr
        ⟨hi, k, hki, (hkeys k).mpr ⟨le_rfl, hki.trans_lt hip⟩, ?_⟩
      rwa [Nat.mod_eq_of_lt hlt]

/-- **Posting.**  Requests with the next ids, that fit in the window of those that wait, push none
of them out. -/
theorem emplaceAll_range {n k p m : Nat} {t : TailMap RequestData} (hk : k ≤ p) (hmin : t.min ≤ p)
    (hkeys : ∀ i, (t.find? i).isSome ↔ k ≤ i ∧ i < p) (hfit : p + m ≤ k + t.tail)
    (hwrap : m = 0 ∨ p + m ≤ k + 1 ∨ k + t.tail < 2 ^ 64) :
    ∃ t', emplaceAll n t (List.range' p m) = .ok t' ∧ t'.tail = t.tail ∧ t'.min ≤ p + m ∧
      ∀ i, t'.find? i = if p ≤ i ∧ i < p + m then some (.of n) else t.find? i := by
  induction m generalizing p t with
  | zero => exact ⟨t, rfl, rfl, hmin, fun i => (if_neg (by omega)).symm⟩
  | succ m ih =>
      have hno : t.find? p = none := by
        by_contra hne
        exact absurd ((hkeys p).mp (Option.isSome_iff_ne_none.mpr hne)).2 (Nat.lt_irrefl p)
      have hput := TailMap.tryEmplaceWord_of_notMem (.of n) hno
      let t₁ : TailMap RequestData :=
        { t with map := (t.skipWord p).insert p (.of n), min := p }
      replace hput : t.tryEmplaceWord p (.of n) = .ok (t₁, true) :=
        hput.trans (if_neg (Nat.not_lt.mpr hmin))
      have hfind : ∀ i, t₁.find? i = if i = p then some (.of n) else t.find? i := by
        intro i
        rw [TailMap.find?_tryEmplaceWord hput, find?_skipWord_next hkeys]
        · exact (Nat.lt_add_of_pos_right (Nat.succ_pos m)).trans_le hfit
        · exact (hwrap.resolve_left (Nat.succ_ne_zero m)).imp_left fun hle => by omega
      have hkeys₁ : ∀ i, (t₁.find? i).isSome ↔ k ≤ i ∧ i < p + 1 := by
        intro i
        rw [hfind]
        split
        · next hip => exact ⟨fun _ => ⟨hip ▸ hk, hip ▸ Nat.lt_succ_self i⟩, fun _ => rfl⟩
        · next hip =>
            rw [hkeys]
            omega
      obtain ⟨t', ht', htail, hmin', hf'⟩ := ih (t := t₁) (p := p + 1) (Nat.le_succ_of_le hk)
        (Nat.le_succ p) hkeys₁ (by change _ ≤ k + t.tail; omega)
        (by change _ ∨ _ ∨ k + t.tail < _; omega)
      refine ⟨t', ?_, htail, by omega, fun i => ?_⟩
      · rw [List.range'_succ, emplaceAll, hput]
        exact ht'
      · rw [hf', hfind]
        by_cases hip : i = p
        · rw [if_neg (by omega), if_pos hip, if_pos (by omega)]
        · rw [if_neg hip]
          congr 1
          exact propext ⟨fun h => by omega, fun h => by omega⟩

/-- Those that waited are in flight. -/
theorem Inv.post (h : s.Inv) (hr : s.Room .post) :
    ∃ c, s.client.post = .ok c ∧ Inv { s with client := c } := by
  obtain ⟨p, hmin, hp, hlen, hwritten, hkeys⟩ := h.posted
  obtain ⟨t, ht, htail, hmin', hfind⟩ := emplaceAll_range (n := s.client.nbServers)
    (m := s.client.nextRequest - p) hlen hmin hkeys
    (by rw [Nat.add_sub_cancel' hp, h.tail]; exact h.window)
    (by
      rw [Nat.add_sub_cancel' hp, h.tail]
      refine hr.imp_left fun hnil => ?_
      rw [hwritten] at hnil
      exact List.range'_eq_nil_iff.mp hnil)
  rw [Nat.add_sub_cancel' hp] at hmin' hfind
  refine ⟨_, bind_eq_ok.mpr ⟨t, hwritten ▸ ht, rfl⟩, h.answered, h.sent, htail.trans h.tail,
    h.window, ⟨s.client.nextRequest, hmin', le_rfl, hlen.trans hp, ?_, fun i => ?_⟩,
    fun i d hi => ?_⟩
  · rw [Nat.sub_self]
    rfl
  · change (t.find? i).isSome ↔ s.answered.length ≤ i ∧ i < s.client.nextRequest
    rw [hfind]
    split
    · next hi => exact ⟨fun _ => ⟨hlen.trans hi.1, hi.2⟩, fun _ => rfl⟩
    · rw [hkeys]
      omega
  · change t.find? i = some d at hi
    rw [hfind] at hi
    split at hi
    · cases hi
      exact fun _ hv => absurd hv List.not_mem_nil
    · exact h.responses i d hi

/-- Responses come to requests that wait, and leave the others as they are. -/
theorem Inv.handleResponse (h : s.Inv) {server : Nat} {r : Response} {beyond : Bytes} {c : Client}
    (hc : s.client.handleResponse server r beyond = .ok c) : Inv { s with client := c } := by
  have hsub : ∀ v, v ∈ s.client.received → v ∈ (server, r) :: s.client.received :=
    fun _ => List.mem_cons_of_mem _
  have hsent : ∀ a ∈ s.answered, ∃ v ∈ (server, r) :: s.client.received,
      v.2.requestId = a.1 ∧ v.2.content = a.2 := by
    intro a ha
    obtain ⟨v, hv, hva⟩ := h.sent a ha
    exact ⟨v, hsub v hv, hva⟩
  unfold Client.handleResponse at hc
  simp only at hc
  split at hc
  · cases hc
    exact ⟨h.answered, hsent, h.tail, h.window, h.posted,
      fun i d hi v hv => ⟨hsub v (h.responses i d hi v hv).1, (h.responses i d hi v hv).2⟩⟩
  · next d hd =>
      obtain ⟨d', hd', he⟩ := bind_eq_ok.mp hc
      cases he
      have hfind : ∀ i, (s.client.requests.modify r.requestId fun _ => d').find? i =
          if i = r.requestId then some d' else s.client.requests.find? i := by
        intro i
        rw [TailMap.find?_modify, hd]
        rfl
      refine ⟨h.answered, hsent, h.tail, h.window, ?_, fun i x hi v hv => ?_⟩
      · obtain ⟨p, hmin, hp, hlen, hwritten, hkeys⟩ := h.posted
        refine ⟨p, hmin, hp, hlen, hwritten, fun i => ?_⟩
        change ((s.client.requests.modify r.requestId fun _ => d').find? i).isSome ↔ _
        rw [hfind]
        split
        · next hi =>
            rw [← hkeys, hi, hd]
            exact ⟨fun _ => rfl, fun _ => rfl⟩
        · exact hkeys i
      · change (s.client.requests.modify r.requestId fun _ => d').find? i = some x at hi
        rw [hfind] at hi
        split at hi
        · next hir =>
            cases hi
            unfold RequestData.newResponse at hd'
            split at hd'
            · cases hd'
              rcases List.mem_append.mp hv with hv | hv
              · obtain ⟨hv, hid⟩ := h.responses _ d hd v hv
                exact ⟨hsub v hv, hid.trans hir.symm⟩
              · rw [List.mem_singleton.mp hv]
                exact ⟨List.mem_cons_self, hir.symm⟩
            · cases hd'
        · exact ⟨hsub v (h.responses i x hi v hv).1, (h.responses i x hi v hv).2⟩

/-- A response is counted, for a request in flight. -/
theorem Inv.pollResponse (h : s.Inv) {server : Nat} {polled : Option Bytes} {beyond : Bytes}
    {c : Client} (hc : s.client.pollResponse server polled beyond = .ok c) :
    Inv { s with client := c } := by
  unfold Client.pollResponse at hc
  split at hc
  · split at hc
    · cases hc; exact h
    · split at hc
      · cases hc
      · split at hc
        · cases hc
        · exact h.handleResponse hc
  · cases hc; exact h

/-- What a request answers is one of its responses. -/
theorem sent_of_poll {d : RequestData} {bytes : Bytes} (h : d.poll = .ok (some bytes)) :
    ∃ v ∈ d.responses, v.2.content = bytes := by
  unfold RequestData.poll at h
  split at h
  · cases h
  · split at h
    · obtain ⟨first, hfirst, he⟩ := Option.map_eq_some_iff.mp (Except.ok.inj h)
      exact ⟨first, List.mem_of_mem_head? hfirst, he⟩
    · cases h

/-- **Polling.**  What is answered is the oldest request that waits. -/
theorem Inv.poll (h : s.Inv) (hs : s.Step .poll s') : s'.Inv := by
  obtain ⟨⟨c, o⟩, hc, he⟩ := bind_eq_ok.mp hs
  cases he
  unfold Client.poll at hc
  split at hc
  · cases hc
    rw [Option.toList_none, List.append_nil]
    exact h
  · next i d hfirst =>
      obtain ⟨answer, hd, hc⟩ := bind_eq_ok.mp hc
      split at hc
      · cases hc
        rw [Option.toList_none, List.append_nil]
        exact h
      · next bytes =>
          cases hc
          obtain ⟨p, hmin, hp, hlen, hwritten, hkeys⟩ := h.posted
          have hfound : s.client.requests.find? i = some d := OrdMap.find?_of_first? hfirst
          obtain ⟨hle, hip⟩ := (hkeys i).mp (by rw [hfound]; rfl)
          have hlt : s.answered.length < p := hle.trans_lt hip
          -- the oldest that waits is the one after those answered
          obtain ⟨d₀, hd₀⟩ := Option.isSome_iff_exists.mp
            ((hkeys s.answered.length).mpr ⟨le_rfl, hlt⟩)
          obtain rfl : i = s.answered.length :=
            le_antisymm (OrdMap.first?_le hfirst hd₀) hle
          have hpop : ∀ k x, s.client.requests.map.popFront.find? k = some x →
              s.client.requests.find? k = some x := fun k x => OrdMap.find?_of_popFront
          refine ⟨?_, fun a ha => ?_, h.tail, ?_, ⟨p, hmin, hp, ?_, hwritten, fun k => ?_⟩,
            fun k x hx => h.responses k x (hpop k x hx)⟩
          · rw [Option.toList_some, List.map_append, h.answered, List.length_append]
            exact List.range_succ.symm
          · rcases List.mem_append.mp ha with ha | ha
            · exact h.sent a ha
            · rw [Option.toList_some] at ha
              rw [List.mem_singleton.mp ha]
              obtain ⟨first, hmem, rfl⟩ := sent_of_poll hd
              obtain ⟨hv, hid⟩ := h.responses _ d hfound first hmem
              exact ⟨first, hv, hid, rfl⟩
          · rw [Option.toList_some, List.length_append]
            exact h.window.trans (Nat.add_le_add_right (Nat.le_succ _) _)
          · rw [Option.toList_some, List.length_append]
            exact hlt
          · rw [Option.toList_some, List.length_append, List.length_singleton]
            change (s.client.requests.map.popFront.find? k).isSome ↔ _
            rw [OrdMap.find?_popFront_of_first? hfirst]
            split
            · next hk => exact ⟨nofun, fun h => by omega⟩
            · next hk =>
                refine (hkeys k).trans ⟨fun h => ⟨?_, h.2⟩, fun h => ⟨by omega, h.2⟩⟩
                exact lt_of_le_of_ne h.1 (Ne.symm hk)

theorem Inv.step (h : s.Inv) {op : Op} (hr : s.Room op) (hs : s.Step op s') : s'.Inv := by
  cases op with
  | getSlot size => exact h.getSlot hr hs
  | post =>
      obtain ⟨c, hc, hi⟩ := h.post hr
      obtain ⟨c', hc', he⟩ := bind_eq_ok.mp hs
      obtain rfl := Except.ok.inj (hc.symm.trans hc')
      cases he
      exact hi
  | pollResponse server polled beyond =>
      obtain ⟨c, hc, he⟩ := bind_eq_ok.mp hs
      cases he
      exact h.pollResponse hc
  | poll => exact h.poll hs

theorem inv_of_reachable (h : Reachable Init Step Room s) : s.Inv :=
  h.induct (P := Inv) (fun _ => inv_init) fun _ _ _ _ hi hr hs => hi.step hr hs

end Answering

end Client

end Ubft.Rpc
