import Ubft.Server.Execution

/-!
# Server — checkpoints

The main loop of a server application: it executes the requests polled and, when
`pollToExecute` says so, checkpoints its state at once.  The state of the application is the
list of the requests it executed.

`pollToExecute` says so as soon as the batch of a checkpointing instance is fetched, hence with
its first request: the checkpoint leaves out the others.  The checkpoints are those of whole
instances as long as each batch has bytes, and those of the checkpointing instances one request
(`checkpoints_cover`).
-/

namespace Ubft

open Consensus (Config)
open Server (Batch Request)

/-- A server and its application; `triggered` is the history of the checkpoints, each with the
state of the application. -/
structure Caller where
  server : Server
  executed : List Request := []
  triggered : List (Nat × List Request) := []

namespace Caller

variable {cfg : Config} {c c' : Caller} {digest : List Request → Hash}

/-- Executes a request; a checkpoint follows when it is due. -/
def execute (cfg : Config) (digest : List Request → Hash) (c : Caller) (request : Request)
    (shouldCheckpoint : Bool) : Except Server.Error Caller :=
  let c := { c with executed := c.executed ++ [request] }
  if shouldCheckpoint then do
    let server ← c.server.checkpointAppState cfg (digest c.executed)
    return { c with
      server
      triggered := c.triggered ++ c.server.waitingForCheckpointAfter.toList.map (·, c.executed) }
  else .ok c

/-- A round of the loop over `pollToExecute`. -/
def poll (cfg : Config) (digest : List Request → Hash) (c : Caller) (beyond : Bytes) :
    Except Server.Error Caller := do
  match ← c.server.pollToExecute cfg beyond with
  | (server, none) => return { c with server }
  | (server, some (request, shouldCheckpoint)) =>
    execute cfg digest { c with server } request shouldCheckpoint

/-- A call on the server, or what goes on inside `tick`. -/
inductive Label where
  | tick
  /-- What goes on inside `tick`. -/
  | consensus (l : Consensus.Label)
  | poll (beyond : Bytes)

/-- The application polls only between the ticks. -/
def next (cfg : Config) (digest : List Request → Hash) (c : Caller) :
    Label → Except Server.Error Caller
  | .tick => do return { c with server := ← c.server.next cfg .tick }
  | .consensus l => do return { c with server := ← c.server.next cfg (.consensus l) }
  | .poll beyond =>
    match c.server.consensus.todo with
    | [] => c.poll cfg digest beyond
    | _ :: _ => .ok c

/-- A fresh server. -/
def Init (cfg : Config) (c : Caller) : Prop := ∃ s, s.Init cfg ∧ c = { server := s }

/-- A call that throws nothing. -/
def Step (cfg : Config) (digest : List Request → Hash) (c : Caller) (l : Label) (c' : Caller) :
    Prop := c.next cfg digest l = .ok c'

/-! ### The condition and the property -/

/-- The batch that a step fetches, with its instance. -/
def fetching (c : Caller) : Label → Option (Nat × Batch)
  | .poll beyond =>
    match c.server.consensus.todo, c.server.batch, c.server.consensus.core.decision with
    | [], none, some (i, raw) => some (i, ⟨raw, beyond⟩)
    | _, _, _ => none
  | _ => none

/-- A batch fetched has bytes, and one request when a checkpoint comes after it. -/
def Single (cfg : Config) (c : Caller) (l : Label) : Prop :=
  ∀ ib ∈ c.fetching l, ib.2.raw ≠ [] ∧
    (Consensus.shouldCheckpoint cfg ib.1 = true → ib.2.done (ib.2.next 0) = true)

instance (c : Caller) (l : Label) : Decidable (Single cfg c l) :=
  inferInstanceAs (Decidable (∀ ib ∈ c.fetching l, _))

/-- The batches gone through. -/
def finished (c : Caller) : List Batch :=
  if c.server.batch.isSome then c.server.fetched.dropLast else c.server.fetched

/-- The checkpoints due, `rss` being the requests of the instances. -/
def due (cfg : Config) (rss : List (List Request)) : List (Nat × List Request) :=
  ((List.range rss.length).filter (Consensus.shouldCheckpoint cfg)).map fun i =>
    (i, (rss.take (i + 1)).flatten)

/-- The checkpoints triggered are those of the checkpointing instances, each with the state that
the requests of the instances up to it lead to. -/
def Covers (cfg : Config) (c : Caller) : Prop :=
  ∃ rss, List.Forall₂ (fun b rs => Batch.Encodes b 0 rs) c.finished rss ∧
    c.triggered = due cfg rss ∧
    ∀ i < c.server.fetched.length, Consensus.shouldCheckpoint cfg i = true → i < rss.length

/-- A checkpoint is due at the end of its batch. -/
theorem due_append (rss : List (List Request)) (rs : List Request) :
    due cfg (rss ++ [rs]) = due cfg rss ++
      if Consensus.shouldCheckpoint cfg rss.length then [(rss.length, (rss ++ [rs]).flatten)]
      else [] := by
  unfold due
  rw [List.length_append, List.length_singleton, List.range_succ, List.filter_append,
    List.map_append]
  refine congrArg₂ _ (List.map_congr_left fun i hi => ?_) ?_
  · have hlt := List.mem_range.mp (List.mem_filter.mp hi).1
    rw [List.take_append_of_le_length hlt]
  · by_cases hc : Consensus.shouldCheckpoint cfg rss.length = true
    · rw [List.filter_cons_of_pos hc, if_pos hc, List.filter_nil, List.map_singleton,
        List.take_of_length_le (by simp)]
    · rw [List.filter_cons_of_neg hc, if_neg hc]
      rfl

/-! ### The invariant -/

/-- The batches fetched, the requests executed and the checkpoints triggered, when nothing but
`Single` batches is fetched. -/
inductive Covering (cfg : Config) : Option (Batch × Nat) → List Batch → List Request →
    List (Nat × List Request) → Prop where
  | idle {bs : List Batch} {rss : List (List Request)}
      (h : List.Forall₂ (fun b rs => Batch.Encodes b 0 rs) bs rss) :
      Covering cfg none bs rss.flatten (due cfg rss)
  | within {bs : List Batch} {rss : List (List Request)} {b : Batch} {offset : Nat}
      {visited : List Request} (h : List.Forall₂ (fun b rs => Batch.Encodes b 0 rs) bs rss)
      (hd : b.done offset = false) (hv : b.Visited visited offset)
      (hc : Consensus.shouldCheckpoint cfg bs.length = false) :
      Covering cfg (some (b, offset)) (bs ++ [b]) (rss.flatten ++ visited) (due cfg rss)

namespace Covering

variable {bs : List Batch} {rss : List (List Request)} {b : Batch} {offset : Nat}
  {visited : List Request}

/-- The last request of a batch. -/
theorem last (h : List.Forall₂ (fun b rs => Batch.Encodes b 0 rs) bs rss)
    (hd : b.done offset = false) (hv : b.Visited visited offset)
    (hn : b.done (b.next offset) = true) :
    Covering cfg none (bs ++ [b]) (rss.flatten ++ visited ++ [b.request offset])
      (due cfg rss ++ if Consensus.shouldCheckpoint cfg bs.length then
        [(bs.length, rss.flatten ++ visited ++ [b.request offset])] else []) := by
  have hf : rss.flatten ++ visited ++ [b.request offset] =
      (rss ++ [visited ++ [b.request offset]]).flatten := by
    rw [List.flatten_append, List.flatten_singleton, List.append_assoc]
  rw [hf, h.length_eq, ← due_append]
  exact .idle (List.rel_append h (.cons (hv.last hd hn) .nil))

/-- A request of a batch after which no checkpoint comes. -/
theorem next (h : List.Forall₂ (fun b rs => Batch.Encodes b 0 rs) bs rss)
    (hd : b.done offset = false) (hv : b.Visited visited offset)
    (hc : Consensus.shouldCheckpoint cfg bs.length = false) :
    Covering cfg (if b.done (b.next offset) then none else some (b, b.next offset)) (bs ++ [b])
      (rss.flatten ++ visited ++ [b.request offset]) (due cfg rss) := by
  split
  · next hn =>
      have hl : Covering cfg none _ _ _ := last h hd hv hn
      rwa [hc, if_neg Bool.false_ne_true, List.append_nil] at hl
  · next hn =>
      rw [List.append_assoc]
      exact .within h (Bool.eq_false_of_not_eq_true hn) (hv.next hd) hc

end Covering

/-- The caller knows how many batches it fetched, and checkpoints at once. -/
structure Covered (cfg : Config) (c : Caller) : Prop where
  expected : c.server.nextExpectedBatch = c.server.fetched.length
  waiting : c.server.waitingForCheckpointAfter = none
  covering : Covering cfg c.server.batch c.server.fetched c.executed c.triggered

/-- What is checkpointed covers what was executed. -/
theorem Covered.covers (h : Covered cfg c) : Covers cfg c := by
  have hc := h.covering
  unfold Covers finished
  generalize c.server.batch = batch at hc ⊢
  generalize c.server.fetched = fetched at hc ⊢
  generalize c.executed = executed at hc
  generalize c.triggered = triggered at hc ⊢
  cases hc with
  | @idle _ rss h => exact ⟨rss, h, rfl, fun i hi _ => h.length_eq ▸ hi⟩
  | @within bs rss b offset visited h hd hv hc =>
      refine ⟨rss, ?_, rfl, fun i hi hi' => ?_⟩
      · simpa using h
      · rw [← h.length_eq]
        rw [List.length_append, List.length_singleton] at hi
        refine Nat.lt_of_le_of_ne (Nat.le_of_lt_succ hi) ?_
        rintro rfl
        rw [hc] at hi'
        cases hi'

/-- A replica that goes on does not touch the batches. -/
theorem batches_of_inner {s s' : Server} {l : Server.Label} (h : s.Step cfg l s')
    (hl : l = .tick ∨ ∃ l', l = .consensus l') : ∃ m, s' = { s with consensus := m } := by
  have hc : ∀ {l' : Consensus.Label}, s.stepConsensus cfg l' = .ok s' →
      ∃ m, s' = { s with consensus := m } := by
    intro l' h
    obtain ⟨m, -, h⟩ := bind_eq_ok.mp h
    cases h
    exact ⟨m, rfl⟩
  rcases hl with rfl | ⟨l', rfl⟩
  · simp only [Server.Step, Server.next, Server.tick] at h
    split at h
    · cases h
    · split at h
      · cases h
      · exact hc h
  · simp only [Server.Step, Server.next] at h
    split at h
    · exact hc h
    · cases h; exact ⟨_, rfl⟩

/-- A request after which no checkpoint is due. -/
theorem execute_idle {request : Request} (h : c.execute cfg digest request false = .ok c') :
    c' = { c with executed := c.executed ++ [request] } := by
  cases h
  rfl

/-- A request with which a checkpoint is due. -/
theorem execute_checkpoint {request : Request} {i : Nat}
    (hw : c.server.waitingForCheckpointAfter = some i)
    (h : c.execute cfg digest request true = .ok c') :
    ∃ core, c' = {
      server := { c.server with
        consensus := { c.server.consensus with core }
        waitingForCheckpointAfter := none }
      executed := c.executed ++ [request]
      triggered := c.triggered ++ [(i, c.executed ++ [request])] } := by
  obtain ⟨s, hs, h⟩ := bind_eq_ok.mp h
  simp only [Server.checkpointAppState, hw] at hs
  obtain ⟨core, -, hs⟩ := bind_eq_ok.mp hs
  cases hs
  cases h
  rw [hw]
  exact ⟨core, rfl⟩

/-- A batch that is fetched and asks for a checkpoint has one request. -/
theorem single_fetched {i : Nat} {b : Batch} (hg : Single cfg c (.poll b.beyond))
    (ht : c.server.consensus.todo = []) (hb : c.server.batch = none)
    (hd : c.server.consensus.core.decision = some (i, b.raw)) :
    b.raw ≠ [] ∧ (Consensus.shouldCheckpoint cfg i = true → b.done (b.next 0) = true) := by
  refine hg (i, b) ?_
  simp only [fetching, ht, hb, hd]
  exact rfl

/-- The first request of a batch, which is the last one when a checkpoint is due. -/
theorem Covered.fetch (h : Covered cfg c) {b : Batch} {core : Consensus}
    (hg : b.raw ≠ [] ∧ (Consensus.shouldCheckpoint cfg c.server.fetched.length = true →
      b.done (b.next 0) = true)) (hb : c.server.batch = none)
    (hx : execute cfg digest { c with
        server := ((c.server.emplaceBatch cfg core c.server.fetched.length b).pollRequest b 0).1 }
      (b.request 0) (c.server.emplaceBatch cfg core c.server.fetched.length
        b).waitingForCheckpointAfter.isSome = .ok c') : Covered cfg c' := by
  have hw : (c.server.emplaceBatch cfg core c.server.fetched.length
      b).waitingForCheckpointAfter = if Consensus.shouldCheckpoint cfg c.server.fetched.length
        then some c.server.fetched.length else none := by
    rw [Server.emplaceBatch, h.waiting]
  have hlen : c.server.fetched.length + 1 = (c.server.fetched ++ [b]).length := by
    rw [List.length_append, List.length_singleton]
  have hd : b.done 0 = false :=
    decide_eq_false fun hl => hg.1 (List.eq_nil_of_length_eq_zero (Nat.le_zero.mp hl))
  obtain ⟨rss, hrss, he, htr⟩ : ∃ rss,
      List.Forall₂ (fun b rs => Batch.Encodes b 0 rs) c.server.fetched rss ∧
        c.executed = rss.flatten ∧ c.triggered = due cfg rss := by
    have hc := h.covering
    rw [hb] at hc
    generalize c.server.fetched = bs at hc ⊢
    generalize c.executed = executed at hc ⊢
    generalize c.triggered = triggered at hc ⊢
    cases hc with
    | idle h => exact ⟨_, h, rfl, rfl⟩
  -- whether the batch is the last of its interval
  by_cases hc : Consensus.shouldCheckpoint cfg c.server.fetched.length = true
  · rw [hw, if_pos hc] at hx
    obtain ⟨core', rfl⟩ := execute_checkpoint (hw.trans (if_pos hc)) hx
    refine ⟨hlen, rfl, ?_⟩
    have hl : Covering cfg none _ _ _ := .last hrss hd (Batch.visited_nil b) (hg.2 hc)
    rw [if_pos hc, List.append_nil, ← he, ← htr] at hl
    change Covering cfg (if _ then _ else _) _ _ _
    rw [if_pos (hg.2 hc)]
    exact hl
  · rw [hw, if_neg hc] at hx
    rw [execute_idle hx]
    refine ⟨hlen, hw.trans (if_neg hc), ?_⟩
    have hn : Covering cfg (if _ then _ else _) _ _ _ :=
      .next hrss hd (Batch.visited_nil b) (Bool.eq_false_of_not_eq_true hc)
    rw [List.append_nil, ← he, ← htr] at hn
    exact hn

/-- **What a round of the loop keeps.** -/
theorem Covered.poll (h : Covered cfg c) {beyond : Bytes} (hg : Single cfg c (.poll beyond))
    (ht : c.server.consensus.todo = []) (hs : c.poll cfg digest beyond = .ok c') :
    Covered cfg c' := by
  obtain ⟨⟨s, r⟩, hp, hs⟩ := bind_eq_ok.mp hs
  rcases Server.pollToExecute_cases hp with ⟨b, offset, hb, rfl, rfl⟩ | ⟨-, rfl, rfl⟩ |
    ⟨i, b, core, hb, rfl, hd, -, hi, rfl, rfl⟩
  · have hx : execute cfg digest { c with server := (c.server.pollRequest b offset).1 }
        (b.request offset) c.server.waitingForCheckpointAfter.isSome = .ok c' := hs
    rw [h.waiting] at hx
    rw [execute_idle hx]
    refine ⟨h.expected, h.waiting, ?_⟩
    have hc := h.covering
    rw [hb] at hc
    change Covering cfg (if _ then _ else _) c.server.fetched (c.executed ++ _) c.triggered
    generalize c.server.fetched = fetched at hc ⊢
    generalize c.executed = executed at hc ⊢
    generalize c.triggered = triggered at hc ⊢
    cases hc with
    | within h hd hv hc => exact .next h hd hv hc
  · cases hs
    exact ⟨h.expected, h.waiting, h.covering⟩
  · rw [h.expected] at hi
    subst hi
    exact h.fetch (single_fetched hg ht hb hd) hb hs

theorem Covered.step (h : Covered cfg c) {l : Label} (hg : Single cfg c l)
    (hs : c.Step cfg digest l c') : Covered cfg c' := by
  have inner : ∀ {l' : Server.Label}, (l' = .tick ∨ ∃ l, l' = .consensus l) →
      (do return { c with server := ← c.server.next cfg l' }) = Except.ok c' →
        Covered cfg c' := by
    intro l' hl hx
    obtain ⟨s, hn, hx⟩ := bind_eq_ok.mp hx
    cases hx
    obtain ⟨m, rfl⟩ := batches_of_inner hn hl
    exact ⟨h.expected, h.waiting, h.covering⟩
  unfold Step at hs
  cases l with
  | tick => exact inner (.inl rfl) hs
  | consensus l => exact inner (.inr ⟨l, rfl⟩) hs
  | poll beyond =>
      simp only [next] at hs
      split at hs
      · next ht => exact h.poll hg ht hs
      · cases hs; exact h

/-! ### The server of a caller -/

theorem todo_pollToExecute {s s' : Server} {beyond : Bytes} {r : Option (Request × Bool)}
    (h : s.pollToExecute cfg beyond = .ok (s', r)) : s'.consensus.todo = s.consensus.todo := by
  rcases Server.pollToExecute_cases h with ⟨b, offset, -, rfl, -⟩ | ⟨-, rfl, -⟩ |
    ⟨i, b, core, -, -, -, -, -, rfl, -⟩ <;> rfl

/-- A round of the loop is at most two steps of the server. -/
theorem server_step {l : Label}
    (hr : Reachable (Server.Init cfg) (Server.Step cfg) Always c.server)
    (hs : c.Step cfg digest l c') :
    Reachable (Server.Init cfg) (Server.Step cfg) Always c'.server := by
  unfold Step at hs
  cases l with
  | tick =>
      obtain ⟨s, hn, hs⟩ := bind_eq_ok.mp hs
      cases hs
      exact hr.step trivial hn
  | consensus l =>
      obtain ⟨s, hn, hs⟩ := bind_eq_ok.mp hs
      cases hs
      exact hr.step trivial hn
  | poll beyond =>
      simp only [next] at hs
      split at hs
      · next ht =>
          obtain ⟨⟨s, r⟩, hp, hs⟩ := bind_eq_ok.mp hs
          have hn : c.server.Step cfg (.pollToExecute beyond) s := by
            simp only [Server.Step, Server.next, ht]
            exact bind_eq_ok.mpr ⟨_, hp, rfl⟩
          have h₁ := hr.step trivial hn
          cases r with
          | none => cases hs; exact h₁
          | some rc =>
              obtain ⟨request, flag⟩ := rc
              cases flag with
              | false => cases hs; exact h₁
              | true =>
                  obtain ⟨s₂, hc, hs⟩ := bind_eq_ok.mp hs
                  cases hs
                  have hn₂ : s.Step cfg (.checkpointAppState
                      (digest (c.executed ++ [request]))) s₂ := by
                    simp only [Server.Step, Server.next, todo_pollToExecute hp, ht]
                    exact hc
                  exact h₁.step trivial hn₂
      · cases hs; exact hr

/-- The caller's run is one of the server. -/
theorem server_of_reachable {good : Caller → Label → Prop}
    (h : Reachable (Init cfg) (Step cfg digest) good c) :
    Reachable (Server.Init cfg) (Server.Step cfg) Always c.server := by
  refine h.induct (P := fun c => Reachable (Server.Init cfg) (Server.Step cfg) Always c.server)
    (fun c hc => ?_) fun c l c' _ hr _ hs => server_step hr hs
  obtain ⟨s, hs, rfl⟩ := hc
  exact .init hs

/-- **A checkpoint covers whole instances**, as long as each batch fetched has bytes, and one
request when a checkpoint comes after it. -/
theorem checkpoints_cover (h : Reachable (Init cfg) (Step cfg digest) (Single cfg) c) :
    Consensus.decided c.server.consensus.core.log =
        (List.range c.server.fetched.length).zip (c.server.fetched.map Batch.raw) ∧
      Covers cfg c := by
  refine ⟨Server.decided_eq_zip (server_of_reachable h), Covered.covers ?_⟩
  refine h.induct (fun c hc => ?_) fun c l c' _ hi hg hs => hi.step hg hs
  obtain ⟨s, ⟨requestLog, rfl⟩, rfl⟩ := hc
  have h₀ : Covering cfg none [] ([] : List (List Request)).flatten (due cfg []) := .idle .nil
  exact ⟨rfl, rfl, h₀⟩

/-! ### A checkpoint in the middle of a batch -/

namespace Example

open Consensus.Deployment
open Server.Example (prepared committed request)

/-- Replica 1 of three.  A checkpoint comes after each instance. -/
def follower : Config := Consensus.Deployment.replica 3 1 2 2 Consensus.Deployment.one_lt_three

/-- A batch is decided and executed. -/
def deciding (batch : Bytes) : List Label :=
  .tick :: (prepared batch).map .consensus ++ .tick :: committed.map .consensus ++
    [.poll [], .poll []]

/-- The requests of a batch were all executed, and one was when the checkpoint was triggered. -/
def executedAll (b : Bytes) (c : Caller) : Bool :=
  c.server.batch.isNone && c.server.fetched == [⟨b, []⟩] &&
    c.triggered == [(0, [Batch.request ⟨b, []⟩ 0])]

/-- A run that executes the batch `b`. -/
theorem exists_executed {good : Caller → Label → Prop} [∀ c l, Decidable (good c l)] {b : Bytes}
    (h : (runs (guarded (next follower fun _ => []) good)
      { server := { consensus := ⟨.start follower allKnown, []⟩ } } (deciding b)).any
        (executedAll b) = true) :
    ∃ c, Reachable (Init follower) (Step follower fun _ => []) good c ∧ c.server.batch = none ∧
      c.server.fetched = [⟨b, []⟩] ∧ c.triggered = [(0, [Batch.request ⟨b, []⟩ 0])] := by
  obtain ⟨c, hc, he⟩ : ∃ c, Reachable (Init follower) (Step follower fun _ => []) good c ∧
      executedAll b c = true := exists_reachable _ ⟨_, ⟨allKnown, rfl⟩, rfl⟩ _ h
  simp only [executedAll, Bool.and_eq_true, Option.isNone_iff_eq_none, beq_iff_eq] at he
  exact ⟨c, hc, he.1.1, he.1.2, he.2⟩

/-- Two requests. -/
def two : Bytes := request 1 ++ request 2

theorem encodes_two : Batch.Encodes ⟨two, []⟩ 0
    [Batch.request ⟨two, []⟩ 0, Batch.request ⟨two, []⟩ 26] := by
  refine .next (by decide) (.next (by decide) (.done (by decide)))

end Example

/-- The checkpoint of a batch of two requests leaves out the second. -/
theorem not_checkpoints_cover :
    ¬ ∀ (cfg : Config) (digest : List Request → Hash) (c : Caller),
        Reachable (Init cfg) (Step cfg digest) Always c →
          Consensus.decided c.server.consensus.core.log =
              (List.range c.server.fetched.length).zip (c.server.fetched.map Batch.raw) ∧
            Covers cfg c := by
  intro h
  obtain ⟨c, hc, hb, hf, ht⟩ : ∃ c, Reachable (Init Example.follower)
      (Step Example.follower fun _ => []) (fun _ _ => True) c ∧ c.server.batch = none ∧
        c.server.fetched = [⟨Example.two, []⟩] ∧ _ :=
    Example.exists_executed (by decide +kernel)
  obtain ⟨-, rss, he, hd, -⟩ := h _ _ c hc.always
  rw [finished, hb, hf] at he
  cases he with
  | cons he hn =>
      cases hn
      rw [he.unique Example.encodes_two, ht] at hd
      exact absurd hd (by decide)

/-- The checkpoint of a batch of one request. -/
theorem checkpoints_cover_one : ∃ c : Caller,
    c.triggered = [(0, [Batch.request ⟨Server.Example.request 1, []⟩ 0])] ∧
      Covers Example.follower c := by
  obtain ⟨c, hc, -, -, ht⟩ : ∃ c, Reachable (Init Example.follower)
      (Step Example.follower fun _ => []) (Single Example.follower) c ∧ c.server.batch = none ∧
        c.server.fetched = [⟨Server.Example.request 1, []⟩] ∧ _ :=
    Example.exists_executed (by decide +kernel)
  exact ⟨c, ht, (checkpoints_cover hc).2⟩

end Caller

end Ubft
