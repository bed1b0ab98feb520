import Ubft.Conn.ReaderWriterQueue
import Ubft.Support.Assoc
import Ubft.Support.Runs

/-!
# Conn — the contexted poller

`contexted-poller.hpp`: several contexts share a completion queue.  The `ContextedPoller` of one
takes first what the others forwarded to it, then polls the shared queue, keeps the completions of
its kind and forwards the others, on a queue for each pair of contexts.  The entries it keeps are
moved to the front of the vector of the caller while the others are read behind them.

`fillAll_spec` and `distribute_spec` are what the two loops do.  `distribute` returns when the queue
that it has to forward to has no room.
-/

namespace Ubft.Conn

/-- What is forwarded of a completion. -/
structure WC where
  wrId : Nat
  status : Nat
  deriving DecidableEq, Repr, Inhabited

/-- `ibv_wc`.  The `rest` of its fields is not forwarded. -/
structure IbvWc extends WC where
  rest : Nat
  deriving DecidableEq, Repr, Inhabited

/-- What the manager and its pollers throw. -/
inductive PollError (Kind : Type) where
  /-- "Already registered polling context with id ⟨kind⟩" -/
  | alreadyRegistered (kind : Kind)
  /-- "PollerManager is not finalized" -/
  | notFinalized
  /-- "This context kind was never registered." -/
  | neverRegistered
  /-- "No queue exists with kind ⟨kind⟩ (no ⟨value⟩) while polling ⟨context⟩" -/
  | noQueue (kind context : Kind)
  deriving DecidableEq, Repr

/-- The size that the queues are constructed with. -/
def QueueDepth : Nat := 1024

/-- `SpscQueue`, the vendored queue of one producer and one consumer. -/
abbrev SpscQueue := ReaderWriterQueue

/-- A queue goes from a context to another one. -/
abbrev QueueId (Kind : Type) := Kind × Kind

/-- The queues, by their contexts. -/
abbrev Queues (Kind : Type) := QueueId Kind → SpscQueue WC

/-- `ContextedPoller`, with the names of its queues for their addresses. -/
structure ContextedPoller (Kind : Type) where
  contextKind : Kind
  fromList : List (QueueId Kind)
  toMapping : List (Kind × QueueId Kind)
  deriving DecidableEq, Repr

/-- `PollerManager`.  `queues` are the keys of its map, in order. -/
structure PollerManager (Kind : Type) where
  contexts : List Kind := []
  done : Bool := false
  queues : List (QueueId Kind) := []
  pollers : List (Kind × ContextedPoller Kind) := []
  deriving DecidableEq, Repr

section

variable {Kind : Type} [LinearOrder Kind]

namespace PollerManager

/-- `registerContext`: a kind is registered once. -/
def registerContext (m : PollerManager Kind) (kind : Kind) :
    Except (PollError Kind) (PollerManager Kind) :=
  if kind ∈ m.contexts then .error (.alreadyRegistered kind)
  else .ok { m with contexts := m.contexts.orderedInsert (· ≤ ·) kind }

/-- All to all queues, but for those from a context to itself. -/
def allToAll (contexts : List Kind) : List (QueueId Kind) :=
  contexts.flatMap fun cidFrom => (contexts.filter (cidFrom ≠ ·)).map fun cidTo => (cidFrom, cidTo)

/-- Nothing while there are not as many contexts as expected: the function waits for them. -/
def endRegistrations (m : PollerManager Kind) (expectedNrContexts : Nat) :
    Option (PollerManager Kind) :=
  if m.contexts.length ≠ expectedNrContexts then none
  else if m.done then some m
  else some { m with done := true, queues := allToAll m.contexts }

/-- The poller that `getPoller` constructs. -/
def newPoller (m : PollerManager Kind) (contextKind : Kind) : ContextedPoller Kind where
  contextKind := contextKind
  fromList := m.queues.filter fun key => contextKind = key.2
  toMapping := (m.queues.filter fun key => contextKind = key.1).map fun key => (key.2, key)

/-- `getPoller`: the poller of a kind, made at the first call. -/
def getPoller (m : PollerManager Kind) (contextKind : Kind) :
    Except (PollError Kind) (ContextedPoller Kind × PollerManager Kind) :=
  if m.done = false then .error .notFinalized
  else if contextKind ∉ m.contexts then .error .neverRegistered
  else
    match m.pollers.lookup contextKind with
    | some poller => .ok (poller, m)
    | none =>
      let poller := m.newPoller contextKind
      .ok (poller, { m with pollers := (contextKind, poller) :: m.pollers })

end PollerManager

/-- The variables of a call: the vector of the caller, how many of its entries are set, and the
queues.  `sources` is the history of the contexts that the first entries come from. -/
structure Call (Kind : Type) where
  entries : List IbvWc
  index : Nat := 0
  queues : Queues Kind
  sources : List Kind := []

namespace Call

/-- The next entry is set to what was dequeued. -/
def receive (c : Call Kind) (key : QueueId Kind) (returned : WC) (queue : SpscQueue WC) :
    Call Kind where
  entries := c.entries.modify c.index fun entry => { entry with toWC := returned }
  index := c.index + 1
  queues := Function.update c.queues key queue
  sources := c.sources ++ [key.1]

/-- The `while` loop on one queue, and how many entries are still requested. -/
def fill (key : QueueId Kind) : Nat → Call Kind → Call Kind × Nat
  | 0, c => (c, 0)
  | n + 1, c =>
    match (c.queues key).tryDequeue with
    | none => (c, n + 1)
    | some (returned, queue) => fill key n (c.receive key returned queue)

/-- Goes over all the queues, and returns as soon as the request is fulfilled. -/
def fillAll : List (QueueId Kind) → Nat → Call Kind → Call Kind × Nat × Bool
  | [], n, c => (c, n, false)
  | key :: keys, n, c =>
    let (c, n) := c.fill key n
    if n = 0 then (c, n, true) else fillAll keys n c

/-- An entry is moved behind those that are kept. -/
def keep (c : Call Kind) (entry : IbvWc) : Call Kind :=
  { c with
    entries := c.entries.set c.index entry
    index := c.index + 1 }

/-- An entry was put in a queue. -/
def forward (c : Call Kind) (key : QueueId Kind) (queue : SpscQueue WC) : Call Kind :=
  { c with queues := Function.update c.queues key queue }

/-- The entries at the places `is` are kept or forwarded.  The result is false when the call
returns in the middle. -/
def distribute (unpackKind : Nat → Kind) (p : ContextedPoller Kind) :
    List Nat → Call Kind → Except (PollError Kind) (Call Kind × Bool)
  | [], c => .ok (c, true)
  | i :: is, c =>
    let entry := c.entries.getD i default
    let kind := unpackKind entry.wrId
    if kind = p.contextKind then distribute unpackKind p is (c.keep entry)
    else
      match p.toMapping.lookup kind with
      | none => .error (.noQueue kind p.contextKind)
      | some key =>
        match (c.queues key).tryEnqueue entry.toWC with
        | none => .ok (c, false)
        | some queue => distribute unpackKind p is (c.forward key queue)

end Call

/-- `operator()`: the call after it, with what it returns.  `poll` is what the shared queue answers
when it is polled, nothing if that fails. -/
def ContextedPoller.call (unpackKind : Nat → Kind) (p : ContextedPoller Kind)
    (entries : List IbvWc) (queues : Queues Kind) (poll : Option (List IbvWc)) :
    Except (PollError Kind) (Call Kind × Bool) :=
  let (c, _, returned) := Call.fillAll p.fromList entries.length { entries, queues }
  if returned then .ok (c, true)
  else
    match poll with
    | none => .ok ({ c with entries := c.entries.take c.index }, false)
    | some polled =>
      let entries := c.entries.take c.index ++ polled ++ c.entries.drop (c.index + polled.length)
      (Call.distribute unpackKind p (List.range' c.index polled.length) { c with entries }).map
        fun (c, ok) =>
          if ok then ({ c with entries := c.entries.take c.index }, true) else (c, false)

end

/-! ### The queues of the others -/

namespace Call

variable {Kind : Type} {c : Call Kind} {key : QueueId Kind} {keys : List (QueueId Kind)} {n : Nat}

/-- The call `c'` took `taken` of the queues, each with its context. -/
structure Filled (c c' : Call Kind) (taken : List (Kind × WC)) : Prop where
  length : c'.entries.length = c.entries.length
  index : c'.index = c.index + taken.length
  entries : (c'.entries.take c'.index).map IbvWc.toWC =
    (c.entries.take c.index).map IbvWc.toWC ++ taken.map Prod.snd
  sources : c'.sources = c.sources ++ taken.map Prod.fst

theorem Filled.refl (c : Call Kind) : Filled c c [] :=
  ⟨rfl, rfl, (List.append_nil _).symm, (List.append_nil _).symm⟩

theorem Filled.trans {c' c'' : Call Kind} {taken taken' : List (Kind × WC)}
    (h : Filled c c' taken) (h' : Filled c' c'' taken') : Filled c c'' (taken ++ taken') where
  length := h'.length.trans h.length
  index := by rw [h'.index, h.index, List.length_append, Nat.add_assoc]
  entries := by rw [h'.entries, h.entries, List.map_append, List.append_assoc]
  sources := by rw [h'.sources, h.sources, List.map_append, List.append_assoc]

variable [LinearOrder Kind]

/-- An entry is set behind those that are. -/
theorem filled_receive (key : QueueId Kind) (hlt : c.index < c.entries.length) (wc : WC)
    (queue : SpscQueue WC) : Filled c (c.receive key wc queue) [(key.1, wc)] where
  length := List.length_modify ..
  index := rfl
  entries := by
    have hlen : (c.entries.take c.index).length ≤ c.index := List.length_take_le ..
    rw [receive, List.take_add_one, List.take_modify, List.modify_eq_self hlen]
    simp [hlt]
  sources := rfl

/-- What `n` requests take of the queues `keys`, `n'` of them being left. -/
structure Took (keys : List (QueueId Kind)) (c c' : Call Kind) (n n' : Nat)
    (taken : List (Kind × WC)) : Prop extends Filled c c' taken where
  count : n' + taken.length = n
  queue : ∀ key ∈ keys, (c.queues key).toList =
    (taken.filter fun e => e.1 = key.1).map Prod.snd ++ (c'.queues key).toList
  others : ∀ key, key ∉ keys → c'.queues key = c.queues key
  origin : ∀ e ∈ taken, e.1 ∈ keys.map Prod.fst
  drained : (keys.map fun key => (c.queues key).toList.length).sum ≤ n →
    ∀ key ∈ keys, (c'.queues key).toList = []

theorem Took.zero (keys : List (QueueId Kind)) (c : Call Kind) : Took keys c c 0 0 [] where
  toFilled := .refl c
  count := rfl
  queue _ _ := rfl
  others _ _ := rfl
  origin := nofun
  drained hsum key hkey := by
    have hlength := List.sum_eq_zero_iff_forall_eq_nat.mp (Nat.le_zero.mp hsum) _
      (List.mem_map_of_mem (f := fun key => (c.queues key).toList.length) hkey)
    exact List.length_eq_zero_iff.mp hlength

theorem Took.cons {c₁ c₂ : Call Kind} {n₁ n₂ : Nat} {taken taken' : List (Kind × WC)}
    (h : Took [key] c c₁ n n₁ taken) (h' : Took keys c₁ c₂ n₁ n₂ taken')
    (hkey : key.1 ∉ keys.map Prod.fst) : Took (key :: keys) c c₂ n n₂ (taken ++ taken') where
  toFilled := h.toFilled.trans h'.toFilled
  count := by
    have hcount := h.count
    have hcount' := h'.count
    rw [List.length_append]
    omega
  queue := by
    have horigin : ∀ e ∈ taken, e.1 = key.1 := fun e he => List.mem_singleton.mp (h.origin e he)
    intro key' hkey'
    rw [List.filter_append, List.map_append]
    rcases List.mem_cons.mp hkey' with rfl | hkey'
    · -- nothing more is taken of this queue
      have hnone : taken'.filter (fun e => e.1 = key'.1) = [] :=
        List.filter_eq_nil_iff.mpr fun e he heq =>
          hkey ((decide_eq_true_eq.mp heq : e.1 = key'.1) ▸ h'.origin e he)
      rw [hnone, List.map_nil, List.append_nil,
        h'.others key' fun hmem => hkey (List.mem_map_of_mem hmem)]
      exact h.queue key' List.mem_cons_self
    · have hne : key.1 ≠ key'.1 := fun heq => hkey (heq ▸ List.mem_map_of_mem hkey')
      have hnone : taken.filter (fun e => e.1 = key'.1) = [] :=
        List.filter_eq_nil_iff.mpr fun e he heq =>
          hne ((horigin e he).symm.trans (decide_eq_true_eq.mp heq))
      rw [hnone, List.map_nil, List.nil_append, ← h'.queue key' hkey']
      rw [h.others key' fun hmem => hne (congrArg Prod.fst (List.mem_singleton.mp hmem)).symm]
  others key' hkey' := by
    rw [List.mem_cons, not_or] at hkey'
    rw [h'.others key' hkey'.2, h.others key' fun hmem => hkey'.1 (List.mem_singleton.mp hmem)]
  origin e he := by
    rcases List.mem_append.mp he with he | he
    · exact List.mem_cons.mpr (.inl (List.mem_singleton.mp (h.origin e he)))
    · exact List.mem_cons_of_mem _ (h'.origin e he)
  drained hsum := by
    have hnotMem : key ∉ keys := fun hmem => hkey (List.mem_map_of_mem hmem)
    rw [List.map_cons, List.sum_cons] at hsum
    have hfirst : (c₁.queues key).toList = [] := h.drained
      (by rw [List.map_singleton, List.sum_singleton]; omega) key List.mem_cons_self
    have htaken : (c.queues key).toList.length ≤ taken.length := by
      have hqueue := congrArg List.length (h.queue key List.mem_cons_self)
      rw [hfirst, List.append_nil, List.length_map] at hqueue
      exact hqueue ▸ List.length_filter_le ..
    have hrest : keys.map (fun key => (c₁.queues key).toList.length) =
        keys.map fun key => (c.queues key).toList.length :=
      List.map_congr_left fun key' hkey' => by
        rw [h.others key' fun hmem => hnotMem (List.mem_singleton.mp hmem ▸ hkey')]
    have hqueue := congrArg List.length (h.queue key List.mem_cons_self)
    have hcount := h.count
    have hle : taken.length = (c.queues key).toList.length := by
      have hall : taken.filter (fun e => e.1 = key.1) = taken :=
        List.filter_eq_self.mpr fun e he =>
          decide_eq_true_eq.mpr (List.mem_singleton.mp (h.origin e he))
      rw [hall, hfirst, List.append_nil, List.length_map] at hqueue
      exact hqueue.symm
    intro key' hkey'
    rcases List.mem_cons.mp hkey' with rfl | hkey'
    · rw [h'.others key' hnotMem, hfirst]
    · exact h'.drained (by rw [hrest]; omega) key' hkey'

/-- One queue. -/
theorem fill_spec (key : QueueId Kind) (hroom : c.index + n ≤ c.entries.length) :
    ∃ taken, Took [key] c (c.fill key n).1 n (c.fill key n).2 taken := by
  induction n generalizing c with
  | zero => exact ⟨[], .zero _ c⟩
  | succ n ih =>
      unfold fill
      rcases (c.queues key).tryDequeue_cases with ⟨hnone, hempty⟩ | ⟨wc, queue, hsome, hqueue⟩
      · rw [hnone]
        refine ⟨[], .refl c, rfl, fun _ _ => rfl, fun _ _ => rfl, nofun, fun _ key' hkey' => ?_⟩
        rw [List.mem_singleton.mp hkey', hempty]
      · rw [hsome]
        have hlt : c.index < c.entries.length := by omega
        have hfirst := filled_receive key hlt wc queue
        have hself : (c.receive key wc queue).queues key = queue := Function.update_self ..
        obtain ⟨taken, ht⟩ := ih (c := c.receive key wc queue)
          (by rw [hfirst.length]; exact (Nat.succ_add_eq_add_succ ..).trans_le hroom)
        refine ⟨(key.1, wc) :: taken, hfirst.trans ht.toFilled, ?_, ?_, ?_, ?_, ?_⟩
        · rw [List.length_cons, ← Nat.add_assoc, ht.count]
        · intro key' hkey'
          obtain rfl := List.mem_singleton.mp hkey'
          have hrest := ht.queue key' List.mem_cons_self
          rw [hself] at hrest
          rw [List.filter_cons, if_pos (decide_eq_true rfl), List.map_cons, hqueue,
            List.cons_append, ← hrest]
        · intro key' hkey'
          rw [ht.others key' hkey']
          exact Function.update_of_ne (fun heq => hkey' (List.mem_singleton.mpr heq)) ..
        · intro e he
          rcases List.mem_cons.mp he with rfl | he
          · exact List.mem_cons_self
          · exact ht.origin e he
        · intro hsum
          refine ht.drained ?_
          rw [List.map_singleton, List.sum_singleton] at hsum ⊢
          rw [hself]
          rw [hqueue, List.length_cons] at hsum
          exact Nat.le_of_succ_le_succ hsum

/-- **The queues.**  Nothing is requested any more when the loop returns early. -/
theorem fillAll_spec (keys : List (QueueId Kind)) (hkeys : (keys.map Prod.fst).Nodup)
    (hroom : c.index + n ≤ c.entries.length) :
    ∃ taken, Took keys c (fillAll keys n c).1 n (fillAll keys n c).2.1 taken ∧
      ((fillAll keys n c).2.2 = true → (fillAll keys n c).2.1 = 0) := by
  induction keys generalizing c n with
  | nil => exact ⟨[], ⟨.refl c, rfl, nofun, fun _ _ => rfl, nofun, fun _ => nofun⟩, nofun⟩
  | cons key keys ih =>
      obtain ⟨hkey, hkeys⟩ := List.nodup_cons.mp hkeys
      obtain ⟨taken, ht⟩ := fill_spec key hroom
      unfold fillAll
      generalize c.fill key n = r at ht ⊢
      obtain ⟨c₁, n₁⟩ := r
      dsimp only at ht ⊢
      split
      · next hzero =>
          subst hzero
          refine ⟨taken ++ [], ht.cons (.zero keys c₁) hkey, fun _ => rfl⟩
      · have hlength := ht.length
        have hindex := ht.index
        have hcount := ht.count
        obtain ⟨taken', ht', hdone⟩ := ih hkeys (c := c₁) (n := n₁) (by omega)
        exact ⟨taken ++ taken', ht.cons ht' hkey, hdone⟩

/-! ### The completions of the others -/

variable {unpackKind : Nat → Kind} {p : ContextedPoller Kind} {c' : Call Kind}

/-- The call `c'` kept and forwarded the completions `ws`. -/
structure Distributed (unpackKind : Nat → Kind) (context : Kind) (c c' : Call Kind)
    (ws : List IbvWc) : Prop where
  entries : c'.entries.take c'.index =
    c.entries.take c.index ++ ws.filter fun w => unpackKind w.wrId = context
  forwarded : ∀ k, k ≠ context → (c'.queues (context, k)).toList =
    (c.queues (context, k)).toList ++ (ws.filter fun w => unpackKind w.wrId = k).map IbvWc.toWC
  others : ∀ key, key.1 ≠ context ∨ key.2 = context → c'.queues key = c.queues key
  room : ∀ k, k ≠ context → (c.queues (context, k)).room =
    (c'.queues (context, k)).room + (ws.filter fun w => unpackKind w.wrId = k).length
  sources : c'.sources = c.sources

/-- The queue of the first completion of `rest` has no room. -/
def Full (unpackKind : Nat → Kind) (context : Kind) (c : Call Kind) (rest : List IbvWc) : Prop :=
  ∃ w rest', rest = w :: rest' ∧ unpackKind w.wrId ≠ context ∧
    (c.queues (context, unpackKind w.wrId)).room = 0

theorem Distributed.refl (unpackKind : Nat → Kind) (context : Kind) (c : Call Kind) :
    Distributed unpackKind context c c [] :=
  ⟨(List.append_nil _).symm, fun _ _ => (List.append_nil _).symm, fun _ _ => rfl, fun _ _ => rfl,
    rfl⟩

theorem queues_forward_self (c : Call Kind) (key : QueueId Kind) (queue : SpscQueue WC) :
    (c.forward key queue).queues key = queue := Function.update_self ..

theorem queues_forward_of_ne {key' : QueueId Kind} (h : key' ≠ key) (queue : SpscQueue WC) :
    (c.forward key queue).queues key' = c.queues key' := Function.update_of_ne h ..

/-- A completion of the polling context is kept. -/
theorem Distributed.keep {w : IbvWc} {ws : List IbvWc} {context : Kind}
    (hlt : c.index < c.entries.length) (hw : unpackKind w.wrId = context)
    (h : Distributed unpackKind context (c.keep w) c' ws) :
    Distributed unpackKind context c c' (w :: ws) where
  entries := by
    have htake : (c.keep w).entries.take (c.keep w).index = c.entries.take c.index ++ [w] := by
      rw [Call.keep, List.take_add_one, List.take_set,
        List.set_eq_of_length_le (List.length_take_le ..)]
      simp [hlt]
    rw [h.entries, htake, List.append_assoc, List.filter_cons, if_pos (decide_eq_true hw)]
    rfl
  forwarded k hk := by
    have hne : ¬ decide (unpackKind w.wrId = k) = true :=
      fun heq => hk (Eq.trans (of_decide_eq_true heq).symm hw)
    rw [h.forwarded k hk, List.filter_cons, if_neg hne]
    rfl
  others := h.others
  room k hk := by
    have hne : ¬ decide (unpackKind w.wrId = k) = true :=
      fun heq => hk (Eq.trans (of_decide_eq_true heq).symm hw)
    rw [List.filter_cons, if_neg hne]
    exact h.room k hk
  sources := h.sources

/-- Another is forwarded to its queue. -/
theorem Distributed.forward {w : IbvWc} {ws : List IbvWc} {context : Kind} {queue : SpscQueue WC}
    (hw : unpackKind w.wrId ≠ context)
    (hqueue : queue.toList = (c.queues (context, unpackKind w.wrId)).toList ++ [w.toWC])
    (hroom : (c.queues (context, unpackKind w.wrId)).room = queue.room + 1)
    (h : Distributed unpackKind context (c.forward (context, unpackKind w.wrId) queue) c' ws) :
    Distributed unpackKind context c c' (w :: ws) where
  entries := by
    rw [h.entries, List.filter_cons, if_neg fun heq => hw (decide_eq_true_eq.mp heq)]
    rfl
  forwarded k hk := by
    rw [h.forwarded k hk, List.filter_cons]
    by_cases heq : unpackKind w.wrId = k
    · subst heq
      rw [queues_forward_self, hqueue, if_pos (decide_eq_true rfl), List.append_assoc]
      rfl
    · rw [queues_forward_of_ne fun hkey => heq (congrArg Prod.snd hkey).symm,
        if_neg fun hk' => heq (of_decide_eq_true hk')]
  others key hkey := by
    rw [h.others key hkey]
    refine queues_forward_of_ne (fun heq => ?_) queue
    subst heq
    exact hkey.elim (fun hne => hne rfl) hw
  room k hk := by
    have hrest := h.room k hk
    rw [List.filter_cons]
    by_cases heq : unpackKind w.wrId = k
    · subst heq
      rw [queues_forward_self] at hrest
      rw [hroom, hrest, if_pos (decide_eq_true rfl), List.length_cons, Nat.add_assoc]
    · rw [queues_forward_of_ne fun hkey => heq (congrArg Prod.snd hkey).symm] at hrest
      rw [hrest, if_neg fun hk' => heq (of_decide_eq_true hk')]
  sources := h.sources

/-- **The loop** over the completions `ws` that were polled, which are behind the entries that are
kept.  It stops before the first one whose queue is full. -/
theorem distribute_spec {ws tail : List IbvWc} {i : Nat}
    (hto : ∀ w ∈ ws, unpackKind w.wrId ≠ p.contextKind →
      p.toMapping.lookup (unpackKind w.wrId) = some (p.contextKind, unpackKind w.wrId))
    (hws : c.entries.drop i = ws ++ tail) (hindex : c.index ≤ i) :
    ∃ c' ok done rest, distribute unpackKind p (List.range' i ws.length) c = .ok (c', ok) ∧
      ws = done ++ rest ∧ Distributed unpackKind p.contextKind c c' done ∧
      (ok = true → rest = []) ∧ (ok = false → Full unpackKind p.contextKind c' rest) := by
  induction ws generalizing c i with
  | nil => exact ⟨c, true, [], [], rfl, rfl, .refl .., fun _ => rfl, nofun⟩
  | cons w ws ih =>
      have hentry : c.entries.getD i default = w := by
        have hget : (c.entries.drop i)[0]? = some w := by rw [hws]; rfl
        rw [List.getElem?_drop, Nat.add_zero] at hget
        rw [List.getD_eq_getElem?_getD, hget, Option.getD_some]
      have hdrop : c.entries.drop (i + 1) = ws ++ tail := by
        rw [← List.drop_drop, hws]
        rfl
      have hlt : i < c.entries.length := by
        have hlength := congrArg List.length hws
        rw [List.length_drop, List.cons_append, List.length_cons] at hlength
        omega
      rw [List.length_cons, List.range'_succ, distribute, hentry]
      have hto' := fun w' hw' => hto w' (List.mem_cons_of_mem w hw')
      by_cases hw : unpackKind w.wrId = p.contextKind
      · rw [if_pos hw]
        obtain ⟨c', ok, done, rest, hrun, hsplit, hd, hok, hfull⟩ := ih
          (c := c.keep w) (i := i + 1) hto'
          (by rw [Call.keep, List.drop_set_of_lt (Nat.lt_succ_of_le hindex), hdrop])
          (Nat.succ_le_succ hindex)
        exact ⟨c', ok, w :: done, rest, hrun, congrArg (w :: ·) hsplit,
          hd.keep (Nat.lt_of_le_of_lt hindex hlt) hw, hok, hfull⟩
      · rw [if_neg hw, hto w List.mem_cons_self hw]
        dsimp only
        rcases (c.queues (p.contextKind, unpackKind w.wrId)).tryEnqueue_cases w.toWC with
          ⟨hnone, hroom⟩ | ⟨queue, hsome, hqueue, hroom⟩
        · rw [hnone]
          exact ⟨c, false, [], w :: ws, rfl, rfl, .refl .., nofun, fun _ => ⟨w, ws, rfl, hw, hroom⟩⟩
        · rw [hsome]
          obtain ⟨c', ok, done, rest, hrun, hsplit, hd, hok, hfull⟩ := ih
            (c := c.forward (p.contextKind, unpackKind w.wrId) queue) (i := i + 1) hto' hdrop
            (Nat.le_succ_of_le hindex)
          exact ⟨c', ok, w :: done, rest, hrun, congrArg (w :: ·) hsplit,
            hd.forward hw hqueue hroom, hok, hfull⟩

end Call

/-! ### The pollers of a manager -/

namespace PollerManager

variable {Kind : Type} [LinearOrder Kind] {m : PollerManager Kind} {contexts : List Kind}
  {j k : Kind}

/-- A queue from each context to each other one. -/
theorem mem_allToAll : (j, k) ∈ allToAll contexts ↔ j ∈ contexts ∧ k ∈ contexts ∧ j ≠ k := by
  simp only [allToAll, List.mem_flatMap, List.mem_map, List.mem_filter, decide_eq_true_eq,
    Prod.mk.injEq]
  constructor
  · rintro ⟨j', hj', k', ⟨hk', hne⟩, rfl, rfl⟩
    exact ⟨hj', hk', hne⟩
  · rintro ⟨hj, hk, hne⟩
    exact ⟨j, hj, k, ⟨hk, hne⟩, rfl, rfl⟩

theorem nodup_allToAll (h : contexts.Nodup) : (allToAll contexts).Nodup := by
  refine List.nodup_flatMap.mpr ⟨fun j _ => ?_, h.imp fun {j j'} hne key hj hj' => ?_⟩
  · exact (h.filter _).map fun k k' heq => congrArg Prod.snd heq
  · obtain ⟨k, -, rfl⟩ := List.mem_map.mp hj
    obtain ⟨k', -, heq⟩ := List.mem_map.mp hj'
    exact hne (congrArg Prod.fst heq).symm

/-- A manager whose registrations ended, with the pollers it gave. -/
structure Wired (m : PollerManager Kind) : Prop where
  done : m.done = true
  nodup : m.contexts.Nodup
  queues : m.queues = allToAll m.contexts
  pollers : ∀ e ∈ m.pollers, e.2 = m.newPoller e.1

/-- A poller takes from the queues that lead to it. -/
theorem Wired.mem_fromList (h : Wired m) {key : QueueId Kind} :
    key ∈ (m.newPoller k).fromList ↔
      key.1 ∈ m.contexts ∧ k ∈ m.contexts ∧ key.1 ≠ k ∧ key.2 = k := by
  obtain ⟨j, k'⟩ := key
  rw [newPoller, List.mem_filter, h.queues, mem_allToAll, decide_eq_true_eq]
  constructor
  · rintro ⟨⟨hj, hk, hne⟩, rfl⟩
    exact ⟨hj, hk, hne, rfl⟩
  · rintro ⟨hj, hk, hne, rfl⟩
    exact ⟨⟨hj, hk, hne⟩, rfl⟩

/-- No two of them are of one context. -/
theorem Wired.nodup_fromList (h : Wired m) (k : Kind) :
    ((m.newPoller k).fromList.map Prod.fst).Nodup := by
  have hnodup : (m.newPoller k).fromList.Nodup := by
    rw [newPoller, h.queues]
    exact (nodup_allToAll h.nodup).filter _
  refine hnodup.map_on fun key hkey key' hkey' heq => ?_
  have hsnd := (h.mem_fromList.mp hkey).2.2.2
  have hsnd' := (h.mem_fromList.mp hkey').2.2.2
  exact Prod.ext heq (hsnd.trans hsnd'.symm)

/-- What there is in the queues from the others. -/
theorem Wired.sum_fromList (h : Wired m) (hk : k ∈ m.contexts) (queues : Queues Kind) :
    ((m.newPoller k).fromList.map fun key => (queues key).toList.length).sum =
      ((m.contexts.filter (· ≠ k)).map fun j => (queues (j, k)).toList.length).sum := by
  have hperm : ((m.newPoller k).fromList.map Prod.fst).Perm (m.contexts.filter (· ≠ k)) := by
    refine (List.perm_ext_iff_of_nodup (h.nodup_fromList k) (h.nodup.filter _)).mpr fun j => ?_
    rw [List.mem_map, List.mem_filter, decide_eq_true_eq]
    constructor
    · rintro ⟨key, hkey, rfl⟩
      obtain ⟨hj, -, hne, -⟩ := h.mem_fromList.mp hkey
      exact ⟨hj, hne⟩
    · rintro ⟨hj, hne⟩
      exact ⟨(j, k), h.mem_fromList.mpr ⟨hj, hk, hne, rfl⟩, rfl⟩
  have hmap : ((m.newPoller k).fromList.map fun key => (queues key).toList.length) =
      ((m.newPoller k).fromList.map Prod.fst).map fun j => (queues (j, k)).toList.length := by
    rw [List.map_map]
    refine List.map_congr_left fun key hkey => ?_
    have hsnd := (h.mem_fromList.mp hkey).2.2.2
    rw [Function.comp_apply, ← hsnd]
  rw [hmap]
  exact (hperm.map _).sum_nat

/-- There is a queue to each other context. -/
theorem Wired.lookup_toMapping (h : Wired m) (hk : k ∈ m.contexts) (hj : j ∈ m.contexts)
    (hne : j ≠ k) : (m.newPoller k).toMapping.lookup j = some (k, j) := by
  have hmap : (m.newPoller k).toMapping =
      ((m.queues.filter fun key => k = key.1).map Prod.snd).map fun j => (j, (k, j)) := by
    rw [newPoller, List.map_map]
    refine List.map_congr_left fun key hkey => ?_
    have hfst : k = key.1 := of_decide_eq_true (List.mem_filter.mp hkey).2
    rw [hfst]
    rfl
  rw [hmap]
  refine Assoc.lookup_map_self (List.mem_map.mpr ⟨(k, j), List.mem_filter.mpr ⟨?_, ?_⟩, rfl⟩)
  · rw [h.queues]
    exact mem_allToAll.mpr ⟨hk, hj, hne.symm⟩
  · exact decide_eq_true rfl

/-- Every registered context gets the same poller, however often it asks. -/
theorem Wired.getPoller (h : Wired m) (hk : k ∈ m.contexts) :
    ∃ m', m.getPoller k = .ok (m.newPoller k, m') ∧ Wired m' ∧ m'.contexts = m.contexts := by
  rw [PollerManager.getPoller, if_neg (by rw [h.done]; decide), if_neg (not_not.mpr hk)]
  split
  · next poller hlookup =>
      have hpoller := h.pollers _ (Assoc.mem_of_lookup hlookup)
      exact ⟨m, by rw [← hpoller], h, rfl⟩
  · refine ⟨_, rfl, ⟨h.done, h.nodup, h.queues, fun e he => ?_⟩, rfl⟩
    rcases List.mem_cons.mp he with rfl | he
    · rfl
    · exact h.pollers e he

/-- The contexts of a manager are those registered, in order. -/
theorem nodup_registerContext {m' : PollerManager Kind} (h : m.contexts.Nodup)
    (hr : m.registerContext k = .ok m') :
    m'.contexts.Nodup ∧ (∀ j, j ∈ m'.contexts ↔ j = k ∨ j ∈ m.contexts) ∧
      m'.done = m.done ∧ m'.pollers = m.pollers := by
  unfold registerContext at hr
  split at hr
  · cases hr
  · next hnew =>
      cases hr
      have hperm := List.perm_orderedInsert (· ≤ ·) k m.contexts
      refine ⟨hperm.nodup_iff.mpr (List.nodup_cons.mpr ⟨hnew, h⟩), fun j => ?_, rfl, rfl⟩
      exact hperm.mem_iff.trans List.mem_cons

/-- **The pollers are wired once the registrations end.** -/
theorem wired_endRegistrations {m' : PollerManager Kind} {n : Nat} (h : m.contexts.Nodup)
    (hdone : m.done = false) (hpollers : m.pollers = []) (he : m.endRegistrations n = some m') :
    Wired m' ∧ m'.contexts = m.contexts := by
  unfold endRegistrations at he
  split at he
  · cases he
  · rw [hdone] at he
    cases he
    exact ⟨⟨rfl, h, rfl, fun e hmem => by rw [hpollers] at hmem; cases hmem⟩, rfl⟩

end PollerManager

/-! ### A call -/

open PollerManager (Wired)

/-- What a call of the context `k` made of the queues and the completions `ws` that it polled. -/
structure Called {Kind : Type} [LinearOrder Kind] (unpackKind : Nat → Kind) (contexts : List Kind)
    (k : Kind) (entries : List IbvWc) (queues : Queues Kind) (c : Call Kind)
    (taken : List (Kind × WC)) (ws done rest : List IbvWc) : Prop where
  split : ws = done ++ rest
  outcome : (rest = [] ∧ c.entries.map IbvWc.toWC = taken.map Prod.snd ++
    (done.filter fun w => unpackKind w.wrId = k).map IbvWc.toWC) ∨ Call.Full unpackKind k c rest
  sources : c.sources = taken.map Prod.fst
  origin : ∀ e ∈ taken, e.1 ∈ contexts ∧ e.1 ≠ k
  taken : ∀ j ∈ contexts, j ≠ k → (queues (j, k)).toList =
    (taken.filter fun e => e.1 = j).map Prod.snd ++ (c.queues (j, k)).toList
  forwarded : ∀ j, j ≠ k → (c.queues (k, j)).toList =
    (queues (k, j)).toList ++ (done.filter fun w => unpackKind w.wrId = j).map IbvWc.toWC
  others : ∀ i j, (i = j ∨ i ≠ k ∧ j ≠ k) → c.queues (i, j) = queues (i, j)
  room : ∀ j, j ≠ k → (queues (k, j)).room =
    (c.queues (k, j)).room + (done.filter fun w => unpackKind w.wrId = j).length
  drained :
    ((contexts.filter (· ≠ k)).map fun j => (queues (j, k)).toList.length).sum ≤ entries.length →
      ∀ j ∈ contexts, j ≠ k → (c.queues (j, k)).toList = []

section

variable {Kind : Type} [LinearOrder Kind] {unpackKind : Nat → Kind} {m : PollerManager Kind}
  {k : Kind} {entries : List IbvWc} {queues : Queues Kind} {c : Call Kind}
  {taken : List (Kind × WC)}

/-- How many completions are requested of the shared queue. -/
def requested (p : ContextedPoller Kind) (entries : List IbvWc) (queues : Queues Kind) : Nat :=
  (Call.fillAll p.fromList entries.length { entries, queues }).2.1

/-- A call that polls nothing. -/
theorem called_nil (unpackKind : Nat → Kind) (h : Wired m) (hk : k ∈ m.contexts) {n : Nat}
    (ht : Call.Took (m.newPoller k).fromList { entries, queues } c entries.length n taken)
    {b : List IbvWc} (hb : b = c.entries.take c.index) :
    Called unpackKind m.contexts k entries queues { c with entries := b } taken [] [] [] where
  split := rfl
  outcome := by
    have hentries := ht.entries
    rw [List.take_zero, List.map_nil, List.nil_append] at hentries
    exact .inl ⟨rfl, by rw [hb, hentries, List.filter_nil, List.map_nil, List.append_nil]⟩
  sources := ht.sources
  origin e he := by
    obtain ⟨key, hkey, hfst⟩ := List.mem_map.mp (ht.origin e he)
    obtain ⟨hj, -, hne, -⟩ := h.mem_fromList.mp hkey
    exact hfst ▸ ⟨hj, hne⟩
  taken j hj hne := ht.queue (j, k) (h.mem_fromList.mpr ⟨hj, hk, hne, rfl⟩)
  forwarded j hne := by
    rw [List.filter_nil, List.map_nil, List.append_nil]
    exact congrArg _ (ht.others (k, j) fun hkey => hne (h.mem_fromList.mp hkey).2.2.2)
  others i j hij := ht.others (i, j) fun hkey => by
    obtain ⟨-, -, hne, heq⟩ := h.mem_fromList.mp hkey
    rcases hij with rfl | ⟨-, hj⟩
    · exact hne heq
    · exact hj heq
  room j hne :=
    congrArg ReaderWriterQueue.room
      (ht.others (k, j) fun hkey => hne (h.mem_fromList.mp hkey).2.2.2).symm
  drained hsum j hj hne := by
    rw [← h.sum_fromList hk] at hsum
    exact ht.drained hsum (j, k) (h.mem_fromList.mpr ⟨hj, hk, hne, rfl⟩)

/-- A call that distributes what it polled, once it took what was forwarded. -/
theorem Called.distribute {c' c'' : Call Kind} {ws done rest : List IbvWc}
    (h : Called unpackKind m.contexts k entries queues c taken [] [] [])
    (hd : Call.Distributed unpackKind k c' c'' done) (hqueues : c'.queues = c.queues)
    (hsources : c'.sources = c.sources) (hsplit : ws = done ++ rest) {b : List IbvWc}
    (houtcome : (rest = [] ∧ b.map IbvWc.toWC = taken.map Prod.snd ++
      (done.filter fun w => unpackKind w.wrId = k).map IbvWc.toWC) ∨
      Call.Full unpackKind k c'' rest) :
    Called unpackKind m.contexts k entries queues { c'' with entries := b } taken ws done rest where
  split := hsplit
  outcome := houtcome
  sources := (hd.sources.trans hsources).trans h.sources
  origin := h.origin
  taken j hj hne := by
    rw [h.taken j hj hne, ← hqueues]
    dsimp only
    rw [hd.others (j, k) (.inl hne)]
  forwarded j hne := by
    have hbase := h.forwarded j hne
    rw [List.filter_nil, List.map_nil, List.append_nil, ← hqueues] at hbase
    rw [← hbase]
    exact hd.forwarded j hne
  others i j hij := by
    have hkey : i ≠ k ∨ j = k := by
      rcases hij with rfl | ⟨hi, -⟩
      · exact (em (i = k)).symm
      · exact .inl hi
    rw [← h.others i j hij, ← hqueues]
    exact hd.others (i, j) hkey
  room j hne := by
    have hbase := h.room j hne
    rw [List.filter_nil, List.length_nil, Nat.add_zero, ← hqueues] at hbase
    rw [hbase]
    exact hd.room j hne
  drained hsum j hj hne := by
    rw [← h.drained hsum j hj hne, ← hqueues]
    exact congrArg _ (hd.others (j, k) (.inl hne))

/-- **A call** takes what the others forwarded, then keeps or forwards the completions of registered
kinds that it polls, down to the first one whose queue is full. -/
theorem call_spec (h : Wired m) (hk : k ∈ m.contexts) (entries : List IbvWc)
    (queues : Queues Kind) (poll : Option (List IbvWc))
    (hkinds : ∀ ws ∈ poll, ∀ w ∈ ws, unpackKind w.wrId ∈ m.contexts)
    (hlength : ∀ ws ∈ poll, ws.length ≤ requested (m.newPoller k) entries queues) :
    ∃ c ok taken done rest,
      (m.newPoller k).call unpackKind entries queues poll = .ok (c, ok) ∧
        Called unpackKind m.contexts k entries queues c taken (poll.getD []) done rest := by
  obtain ⟨taken, ht, hdone⟩ := Call.fillAll_spec (c := { entries, queues }) (n := entries.length)
    (m.newPoller k).fromList (h.nodup_fromList k) (Nat.zero_add _).le
  unfold ContextedPoller.call
  unfold requested at hlength
  generalize Call.fillAll (m.newPoller k).fromList entries.length { entries, queues } = r
    at ht hdone hlength ⊢
  obtain ⟨c, n, returned⟩ := r
  have hindex : c.index = taken.length := ht.index.trans (Nat.zero_add _)
  have hcount : n + taken.length = entries.length := ht.count
  have hlen : c.entries.length = entries.length := ht.length
  dsimp only at ht hdone hlength hindex hlen ⊢
  cases returned with
  | true =>
      -- the vector is full, and nothing was to be polled
      have hzero : n = 0 := hdone rfl
      have hnil : poll.getD [] = [] := by
        cases poll with
        | none => rfl
        | some ws =>
            have hle := hlength ws rfl
            exact List.length_eq_zero_iff.mp (Nat.le_zero.mp (hzero ▸ hle))
      rw [if_pos rfl, hnil]
      refine ⟨c, true, taken, [], [], rfl, ?_⟩
      exact called_nil unpackKind h hk ht (List.take_of_length_le (by omega)).symm
  | false =>
      rw [if_neg nofun]
      cases poll with
      | none => exact ⟨_, false, taken, [], [], rfl, called_nil unpackKind h hk ht rfl⟩
      | some ws =>
          have hle := hlength ws rfl
          have htake : (c.entries.take c.index).length = c.index :=
            List.length_take_of_le (by omega)
          obtain ⟨c', ok, done, rest, hrun, hsplit, hd, hok, hfull⟩ := Call.distribute_spec
            (p := m.newPoller k)
            (c := { c with entries := c.entries.take c.index ++ ws ++
              c.entries.drop (c.index + ws.length) })
            (fun w (hw : w ∈ ws) hne => h.lookup_toMapping hk (hkinds ws rfl w hw) hne)
            (by rw [List.append_assoc, List.drop_append_of_le_length htake.symm.le,
              List.drop_of_length_le htake.le, List.nil_append]) (Nat.le_refl _)
          have hbase := called_nil unpackKind h hk ht rfl
          have hentries := hd.entries
          rw [List.append_assoc, List.take_left' htake] at hentries
          dsimp only
          rw [hrun]
          cases ok with
          | true =>
              refine ⟨_, true, taken, done, rest, rfl, ?_⟩
              refine hbase.distribute hd rfl rfl hsplit (.inl ⟨hok rfl, ?_⟩)
              have hkept := ht.entries
              rw [List.take_zero, List.map_nil, List.nil_append] at hkept
              rw [hentries, List.map_append, hkept]
              rfl
          | false =>
              refine ⟨c', false, taken, done, rest, rfl, ?_⟩
              exact hbase.distribute hd rfl rfl hsplit (.inr (hfull rfl))

end

end Ubft.Conn
