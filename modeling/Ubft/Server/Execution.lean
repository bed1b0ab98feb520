import Ubft.Consensus.Instances
import Ubft.Server.Batch

/-!
# Server — execution

`server.hpp`'s `Server`, over the replica of `Consensus.Machine`.  `tick` polls the network and
proposes; in between the caller polls the requests to execute and checkpoints the state of the
application.

`pollToExecute` reads a request before it tests whether there is one: a decided batch without
bytes, as a view change leaves in a gap, yields what follows it in memory.  The requests returned
are those of the decided batches if and only if no batch is so (`executed_in_order_iff`).
-/

namespace Ubft

namespace Consensus

/-- Whether a checkpoint comes after an instance, the third thing that `pollDecision` returns. -/
def shouldCheckpoint (cfg : Config) (i : Nat) : Bool := i % (cfg.window / 2) = cfg.window / 2 - 1

end Consensus

namespace Server

open Consensus (Config)

/-- What a server throws, the errors of consensus included. -/
inductive Error where
  /-- "Cannot tick before having checkpointed the app state." -/
  | tickBeforeCheckpoint
  /-- "Cannot tick before having fully consummed last batch." -/
  | tickBeforeConsumed
  /-- "Missed a decision and state transfer not implemented." -/
  | missedDecision
  /-- "No checkpoint expected." -/
  | noCheckpointExpected
  | consensus (e : Consensus.Error)
  deriving DecidableEq, Repr

/-- An error of the replica is not caught. -/
def lift {α : Type} : Except Consensus.Error α → Except Error α
  | .ok a => .ok a
  | .error e => .error (.consensus e)

end Server

open Consensus (Config)
open Server

/-- The state of a server.  The batch comes with the offset of its iterator.  `fetched` and
`returned` are the history of the batches polled and of the requests returned. -/
structure Server where
  consensus : Consensus.Machine
  nextExpectedBatch : Nat := 0
  waitingForCheckpointAfter : Option Nat := none
  batch : Option (Batch × Nat) := none
  fetched : List Batch := []
  returned : List Request := []

namespace Server

variable {cfg : Config} {s s' : Server}

/-- A new batch; `core` is the replica that decided it. -/
def emplaceBatch (cfg : Config) (s : Server) (core : Consensus) (i : Nat) (b : Batch) : Server :=
  { s with
    consensus := { s.consensus with core }
    nextExpectedBatch := i + 1
    waitingForCheckpointAfter :=
      if Consensus.shouldCheckpoint cfg i then some i else s.waitingForCheckpointAfter
    fetched := s.fetched ++ [b] }

/-- The beginning of `pollToExecute`, when there is an instance decided. -/
def fetch (cfg : Config) (s : Server) (i : Nat) (b : Batch) : Except Error Server := do
  let core ← lift s.consensus.core.pollDecision
  if s.nextExpectedBatch ≠ i then .error .missedDecision
  else .ok (s.emplaceBatch cfg core i b)

/-- The end of `pollToExecute`: the request at the iterator, and whether a checkpoint is due. -/
def pollRequest (s : Server) (b : Batch) (offset : Nat) : Server × (Request × Bool) :=
  ({ s with
    batch := if b.done (b.next offset) then none else some (b, b.next offset)
    returned := s.returned ++ [b.request offset] },
    (b.request offset, s.waitingForCheckpointAfter.isSome))

/-- `pollToExecute`; `beyond` is what follows a new batch in memory. -/
def pollToExecute (cfg : Config) (s : Server) (beyond : Bytes) :
    Except Error (Server × Option (Request × Bool)) :=
  match s.batch with
  | some (b, offset) => .ok ((s.pollRequest b offset).1, some (s.pollRequest b offset).2)
  | none =>
    match s.consensus.core.decision with
    | none => .ok (s, none)
    | some (i, raw) => do
      let s ← s.fetch cfg i ⟨raw, beyond⟩
      return ((s.pollRequest ⟨raw, beyond⟩ 0).1, some (s.pollRequest ⟨raw, beyond⟩ 0).2)

/-- The digest of the application's state goes to consensus. -/
def checkpointAppState (cfg : Config) (s : Server) (digest : Hash) : Except Error Server :=
  match s.waitingForCheckpointAfter with
  | none => .error .noCheckpointExpected
  | some i => do
    let core ← lift (Consensus.triggerCheckpoint cfg s.consensus.core i digest)
    return { s with consensus := { s.consensus with core }, waitingForCheckpointAfter := none }

/-- A step of the replica. -/
def stepConsensus (cfg : Config) (s : Server) (l : Consensus.Label) : Except Error Server := do
  return { s with consensus := ← lift (s.consensus.next cfg l) }

/-- The beginning of `tick`. -/
def tick (cfg : Config) (s : Server) : Except Error Server :=
  if s.waitingForCheckpointAfter.isSome then .error .tickBeforeCheckpoint
  else if s.batch.isSome then .error .tickBeforeConsumed
  else s.stepConsensus cfg (.call .tick)

/-- What the replica does, the three calls that are made otherwise apart. -/
def Inner : Consensus.Label → Prop
  | .call .tick | .call .pollDecision | .call (.triggerCheckpoint _ _) => False
  | _ => True

instance : DecidablePred Inner
  | .call .tick | .call .pollDecision | .call (.triggerCheckpoint _ _) => .isFalse id
  | .call (.getSlot _) | .call .propose | .call (.toggleSlowPath _) | .call .changeView
  | .exec _ | .prepareCertifier _ | .vcStateCertifier _ _ | .checkpointCertifier _
  | .cbCheckpointCertifier _ _ | .startVerification _ | .finishVerification _
  | .requests _ => .isTrue trivial

/-- The calls on a server. -/
inductive Label where
  | tick
  /-- Also the proposals that `tick` makes. -/
  | consensus (l : Consensus.Label)
  | pollToExecute (beyond : Bytes)
  | checkpointAppState (digest : Hash)

/-- One step; the caller waits for the thread to return. -/
def next (cfg : Config) (s : Server) : Label → Except Error Server
  | .tick => s.tick cfg
  | .consensus l => if Inner l then s.stepConsensus cfg l else .ok s
  | .pollToExecute beyond =>
    match s.consensus.todo with
    | [] => do return (← s.pollToExecute cfg beyond).1
    | _ :: _ => .ok s
  | .checkpointAppState digest =>
    match s.consensus.todo with
    | [] => s.checkpointAppState cfg digest
    | _ :: _ => .ok s

/-- A server over a fresh consensus. -/
def Init (cfg : Config) (s : Server) : Prop :=
  ∃ requestLog, s = { consensus := ⟨.start cfg requestLog, []⟩ }

/-- A call that throws nothing. -/
def Step (cfg : Config) (s : Server) (l : Label) (s' : Server) : Prop := s.next cfg l = .ok s'

/-! ### What a step does -/

theorem lift_eq_ok {α : Type} {x : Except Consensus.Error α} {a : α} (h : lift x = .ok a) :
    x = .ok a := by
  cases x with
  | ok _ => cases h; rfl
  | error e => cases h

/-- What a step does.  A batch is fetched together with its first request. -/
inductive Does (cfg : Config) (s : Server) : Server → Prop where
  | idle : Does cfg s s
  | consensus {l : Consensus.Label} {m : Consensus.Machine} (hl : l ≠ .call .pollDecision)
      (h : s.consensus.Step cfg l m) : Does cfg s { s with consensus := m }
  | request {b : Batch} {offset : Nat} (hb : s.batch = some (b, offset)) :
      Does cfg s (s.pollRequest b offset).1
  | fetch {i : Nat} {b : Batch} {core : Consensus} (hb : s.batch = none)
      (ht : s.consensus.todo = []) (hd : s.consensus.core.decision = some (i, b.raw))
      (h : s.consensus.core.pollDecision = .ok core) (hi : s.nextExpectedBatch = i) :
      Does cfg s ((s.emplaceBatch cfg core i b).pollRequest b 0).1
  | checkpoint {i : Nat} {digest : Hash} {core : Consensus}
      (ht : s.consensus.todo = []) (hw : s.waitingForCheckpointAfter = some i)
      (h : Consensus.triggerCheckpoint cfg s.consensus.core i digest = .ok core) :
      Does cfg s { s with
        consensus := { s.consensus with core }
        waitingForCheckpointAfter := none }

theorem does_stepConsensus {l : Consensus.Label} (hl : l ≠ .call .pollDecision)
    (h : s.stepConsensus cfg l = .ok s') : Does cfg s s' := by
  obtain ⟨m, hm, h⟩ := bind_eq_ok.mp h
  cases h
  exact .consensus hl (lift_eq_ok hm)

/-- `pollToExecute` goes on with a batch, has nothing to return, or fetches a batch. -/
theorem pollToExecute_cases {beyond : Bytes} {r : Option (Request × Bool)}
    (h : s.pollToExecute cfg beyond = .ok (s', r)) :
    (∃ b offset, s.batch = some (b, offset) ∧ s' = (s.pollRequest b offset).1 ∧
      r = some (s.pollRequest b offset).2) ∨
    (s.batch = none ∧ s' = s ∧ r = none) ∨
    ∃ i b core, s.batch = none ∧ b.beyond = beyond ∧
      s.consensus.core.decision = some (i, b.raw) ∧ s.consensus.core.pollDecision = .ok core ∧
      s.nextExpectedBatch = i ∧ s' = ((s.emplaceBatch cfg core i b).pollRequest b 0).1 ∧
      r = some ((s.emplaceBatch cfg core i b).pollRequest b 0).2 := by
  unfold pollToExecute at h
  split at h
  · next b offset hb => cases h; exact .inl ⟨b, offset, hb, rfl, rfl⟩
  · next hb =>
      split at h
      · cases h; exact .inr (.inl ⟨hb, rfl, rfl⟩)
      · next i raw hd =>
          obtain ⟨s₁, h₁, h⟩ := bind_eq_ok.mp h
          cases h
          obtain ⟨core, hc, h₁⟩ := bind_eq_ok.mp h₁
          split at h₁
          · cases h₁
          · next hi =>
              cases h₁
              exact .inr (.inr ⟨i, ⟨raw, beyond⟩, core, hb, rfl, hd, lift_eq_ok hc,
                not_not.mp hi, rfl, rfl⟩)

/-- A batch is fetched, or its next request executed. -/
theorem does_pollToExecute {beyond : Bytes} {r : Option (Request × Bool)}
    (ht : s.consensus.todo = []) (h : s.pollToExecute cfg beyond = .ok (s', r)) :
    Does cfg s s' := by
  rcases pollToExecute_cases h with ⟨b, offset, hb, rfl, -⟩ | ⟨-, rfl, -⟩ |
    ⟨i, b, core, hb, -, hd, hc, hi, rfl, -⟩
  · exact .request hb
  · exact .idle
  · exact .fetch hb ht hd hc hi

/-- A checkpoint executes nothing. -/
theorem does_checkpointAppState {digest : Hash} (ht : s.consensus.todo = [])
    (h : s.checkpointAppState cfg digest = .ok s') : Does cfg s s' := by
  unfold checkpointAppState at h
  split at h
  · cases h
  · next hw =>
      obtain ⟨core, hc, h⟩ := bind_eq_ok.mp h
      cases h
      exact .checkpoint ht hw (lift_eq_ok hc)

theorem does_of_step {l : Label} (h : s.Step cfg l s') : Does cfg s s' := by
  unfold Step at h
  cases l with
  | tick =>
      simp only [next, tick] at h
      split at h
      · cases h
      · split at h
        · cases h
        · exact does_stepConsensus (l := .call .tick) nofun h
  | consensus l =>
      simp only [next] at h
      split at h
      · next hl =>
          refine does_stepConsensus ?_ h
          rintro rfl
          exact hl
      · cases h; exact .idle
  | pollToExecute beyond =>
      simp only [next] at h
      split at h
      · next ht =>
          obtain ⟨⟨s₁, r⟩, h₁, h⟩ := bind_eq_ok.mp h
          cases h
          exact does_pollToExecute ht h₁
      · cases h; exact .idle
  | checkpointAppState digest =>
      simp only [next] at h
      split at h
      · next ht => exact does_checkpointAppState ht h
      · cases h; exact .idle

/-- A call that returns at once. -/
theorem step_of_call {m : Consensus.Machine} {c : Consensus.Call} {core : Consensus}
    (ht : m.todo = []) (h : Consensus.call cfg m.core c = .ok (core, [])) :
    m.Step cfg (.call c) { m with core } := by
  obtain ⟨s, todo⟩ := m
  subst ht
  exact bind_eq_ok.mpr ⟨_, h, rfl⟩

/-- The server polls a decision as any caller does. -/
theorem step_pollDecision {m : Consensus.Machine} {core : Consensus} (ht : m.todo = [])
    (h : m.core.pollDecision = .ok core) : m.Step cfg (.call .pollDecision) { m with core } := by
  have hc : Consensus.call cfg m.core .pollDecision = .ok (core, []) :=
    bind_eq_ok.mpr ⟨core, h, rfl⟩
  exact step_of_call ht hc

/-- And so it triggers a checkpoint. -/
theorem step_triggerCheckpoint {m : Consensus.Machine} {i : Nat} {digest : Hash}
    {core : Consensus} (ht : m.todo = [])
    (h : Consensus.triggerCheckpoint cfg m.core i digest = .ok core) :
    m.Step cfg (.call (.triggerCheckpoint i digest)) { m with core } := by
  have hc : Consensus.call cfg m.core (.triggerCheckpoint i digest) = .ok (core, []) :=
    bind_eq_ok.mpr ⟨core, h, rfl⟩
  exact step_of_call ht hc

/-- Each step is one of the replica, or none. -/
theorem Does.consensus_step (h : Does cfg s s') :
    s'.consensus = s.consensus ∨ ∃ l, s.consensus.Step cfg l s'.consensus := by
  cases h with
  | idle => exact .inl rfl
  | consensus _ h => exact .inr ⟨_, h⟩
  | request _ => exact .inl rfl
  | fetch _ ht _ h _ => exact .inr ⟨_, step_pollDecision ht h⟩
  | checkpoint ht _ h => exact .inr ⟨_, step_triggerCheckpoint ht h⟩

/-- The replica of a server is one. -/
theorem consensus_of_reachable {good : Server → Label → Prop}
    (h : Reachable (Init cfg) (Step cfg) good s) :
    Reachable (Consensus.Machine.Init cfg) (Consensus.Machine.Step cfg) Always s.consensus := by
  refine h.induct (P := fun s => Reachable (Consensus.Machine.Init cfg)
    (Consensus.Machine.Step cfg) Always s.consensus) (fun s hs => ?_) fun s l s' _ hr _ hs => ?_
  · obtain ⟨requestLog, rfl⟩ := hs
    exact .init ⟨requestLog, rfl⟩
  · rcases (does_of_step hs).consensus_step with he | ⟨l', hl⟩
    · exact he ▸ hr
    · exact hr.step trivial hl

/-! ### The requests returned -/

/-- The requests returned are those polled from the batches fetched, the last of which may still
be gone through. -/
inductive Drains : Option (Batch × Nat) → List Batch → List Request → Prop where
  | idle {bs : List Batch} {rss : List (List Request)} (h : List.Forall₂ Batch.Polled bs rss) :
      Drains none bs rss.flatten
  | within {bs : List Batch} {rss : List (List Request)} {b : Batch} {offset : Nat}
      {visited : List Request} (h : List.Forall₂ Batch.Polled bs rss)
      (hd : b.done offset = false) (hv : b.Visited visited offset) :
      Drains (some (b, offset)) (bs ++ [b]) (rss.flatten ++ visited)

namespace Drains

variable {bs : List Batch} {rss : List (List Request)} {b : Batch} {offset : Nat}
  {visited returned : List Request}

theorem append (h : List.Forall₂ Batch.Polled bs rss) {rs : List Request} (hr : b.Polled rs) :
    Drains none (bs ++ [b]) (rss.flatten ++ rs) := by
  have hf : rss.flatten ++ rs = (rss ++ [rs]).flatten := by
    rw [List.flatten_append, List.flatten_singleton]
  rw [hf]
  exact .idle (List.rel_append h (.cons hr .nil))

/-- A request of the last batch. -/
theorem next (h : List.Forall₂ Batch.Polled bs rss) (hd : b.done offset = false)
    (hv : b.Visited visited offset) :
    Drains (if b.done (b.next offset) then none else some (b, b.next offset)) (bs ++ [b])
      (rss.flatten ++ visited ++ [b.request offset]) := by
  rw [List.append_assoc]
  split
  · next hn =>
      refine append h (.inr ⟨?_, hv.last hd hn⟩)
      intro hb
      rw [Batch.done, hb] at hd
      exact of_decide_eq_false hd (Nat.zero_le _)
  · next hn => exact .within h (Bool.eq_false_of_not_eq_true hn) (hv.next hd)

/-- The first request of a new batch, which may have none. -/
theorem first (h : Drains none bs returned) (b : Batch) :
    Drains (if b.done (b.next 0) then none else some (b, b.next 0)) (bs ++ [b])
      (returned ++ [b.request 0]) := by
  cases h with
  | @idle _ rss h =>
      by_cases hb : b.raw = []
      · rw [if_pos (by rw [Batch.done, hb]; exact decide_eq_true (Nat.zero_le _))]
        exact append h (.inl ⟨hb, rfl⟩)
      · have hd : b.done 0 = false :=
          decide_eq_false fun hl => hb (List.eq_nil_of_length_eq_zero (Nat.le_zero.mp hl))
        have hn := next h hd (Batch.visited_nil b)
        rwa [List.append_nil] at hn

end Drains

/-- The batches fetched are those decided, and the requests returned are theirs. -/
structure Tracks (s : Server) : Prop where
  decided : (Consensus.decided s.consensus.core.log).map Prod.snd = s.fetched.map Batch.raw
  drains : Drains s.batch s.fetched s.returned

/-- What is executed is the next request. -/
theorem Tracks.does (h : Tracks s) (hs : Does cfg s s') : Tracks s' := by
  obtain ⟨hd, hr⟩ := h
  cases hs with
  | idle => exact ⟨hd, hr⟩
  | consensus hl hs =>
      refine ⟨?_, hr⟩
      rcases Consensus.Machine.decided_step hs with ⟨he, -⟩ | ⟨he, -⟩
      · exact (congrArg _ he).trans hd
      · exact absurd he hl
  | @request b offset hb =>
      refine ⟨hd, ?_⟩
      rw [hb] at hr
      generalize hf : s.fetched = bs at hr
      generalize ht : s.returned = rs at hr
      -- `pollToExecute` goes on in the batch that it has
      cases hr with
      | within h hdone hv =>
          have hn := Drains.next h hdone hv
          rw [← hf, ← ht] at hn
          exact hn
  | @fetch i b core hb ht hdec hp hi =>
      rw [hb] at hr
      -- the batch decided is the one fetched
      refine ⟨?_, hr.first b⟩
      change (Consensus.decided core.log).map Prod.snd = (s.fetched ++ [b]).map Batch.raw
      rw [List.map_append, ← hd]
      rw [Consensus.decided_pollDecision hp hdec, List.map_append]
      rfl
  | checkpoint ht hw hs =>
      refine ⟨?_, hr⟩
      have hs' : s.consensus.Step cfg (.call (.triggerCheckpoint _ _)) _ :=
        step_triggerCheckpoint ht hs
      rcases Consensus.Machine.decided_step hs' with ⟨he, -⟩ | ⟨he, -⟩
      · exact (congrArg _ he).trans hd
      · cases he

theorem tracks_of_reachable {good : Server → Label → Prop}
    (h : Reachable (Init cfg) (Step cfg) good s) : Tracks s := by
  refine h.induct (fun s hs => ?_) fun s l s' _ ht _ hs => ht.does (does_of_step hs)
  obtain ⟨requestLog, rfl⟩ := hs
  exact ⟨rfl, .idle .nil⟩

/-- The batches fetched are those of the instances decided, one after the other. -/
theorem decided_eq_zip {good : Server → Label → Prop}
    (h : Reachable (Init cfg) (Step cfg) good s) :
    Consensus.decided s.consensus.core.log =
      (List.range s.fetched.length).zip (s.fetched.map Batch.raw) := by
  have hd := (tracks_of_reachable h).decided
  refine List.zip_of_prod ?_ hd
  have hr := Consensus.Machine.decided_of_reachable (consensus_of_reachable h)
  rw [← Consensus.map_fst_decided] at hr
  rw [hr]
  refine congrArg List.range ?_
  have hl := congrArg List.length hr
  rw [List.length_range, List.length_map] at hl
  rw [← hl, ← List.length_map (f := Prod.snd), hd, List.length_map]

/-- The requests returned are those that the batches fetched encode. -/
def InOrder (s : Server) : Prop :=
  ∃ rss, List.Forall₂ (fun b rs => Batch.Encodes b 0 rs) s.fetched rss ∧ s.returned = rss.flatten

/-- **Execution order.**  The batches are fetched in the order of their instances; when none is
being gone through, the requests returned are theirs if and only if each batch has bytes. -/
theorem executed_in_order_iff (h : Reachable (Init cfg) (Step cfg) Always s)
    (hb : s.batch = none) :
    Consensus.decided s.consensus.core.log =
        (List.range s.fetched.length).zip (s.fetched.map Batch.raw) ∧
      (InOrder s ↔ ∀ b ∈ s.fetched, b.raw ≠ []) := by
  refine ⟨decided_eq_zip h, ?_⟩
  have hd := (tracks_of_reachable h).drains
  rw [hb] at hd
  obtain ⟨rss, hp, hr⟩ : ∃ rss, List.Forall₂ Batch.Polled s.fetched rss ∧
      s.returned = rss.flatten := by
    generalize s.fetched = bs at hd ⊢
    generalize s.returned = rs at hd ⊢
    cases hd with
    | idle hp => exact ⟨_, hp, rfl⟩
  constructor
  · rintro ⟨rss', he, hr'⟩ b hm hnil
    have hl := Batch.length_polled hp he
    rw [← hr, ← hr'] at hl
    have hf : (s.fetched.filter fun b => b.raw = []).length = 0 := Nat.left_eq_add.mp hl
    have hm' : b ∈ s.fetched.filter fun b => b.raw = [] :=
      List.mem_filter.mpr ⟨hm, decide_eq_true hnil⟩
    rw [List.eq_nil_of_length_eq_zero hf] at hm'
    cases hm'
  · exact fun hne => ⟨rss, Batch.polled_encodes hp hne, hr⟩

/-! ### A batch without bytes -/

namespace Example

open Consensus.Deployment

/-- Replica 1 of three, which does not lead view 0. -/
def follower : Config := replica 3 1 4 2 one_lt_three

/-- The leader proposes a batch, which all promise. -/
def prepared (batch : Bytes) : List Consensus.Label :=
  drain 2 ++ .exec { cb := some (0, .prepare ⟨0, 0, batch⟩) } :: drain 20 ++
    [.prepareCertifier (.handlePromise 0 1)]

/-- All FastCommit it. -/
def committed : List Consensus.Label :=
  List.replicate 20 (.exec { fastCommit := some (some ⟨0, 0⟩) })

/-- The batch is decided, and a request polled. -/
def deciding (batch : Bytes) : List Label :=
  .tick :: (prepared batch).map .consensus ++ .tick :: committed.map .consensus ++
    [.pollToExecute []]

/-- A request of client 9. -/
def request (id : Nat) : Bytes := le 4 9 ++ le 4 0 ++ le 8 id ++ le 8 2 ++ [5, 6]

/-- A batch was fetched, and yielded one request. -/
def drained (b : Bytes) (s : Server) : Bool :=
  s.batch.isNone && s.fetched == [⟨b, []⟩] && s.returned.length == 1

/-- A run that drains the batch `b`. -/
theorem exists_drained {b : Bytes}
    (h : (runs (guarded (next follower) fun _ _ => True)
      { consensus := ⟨.start follower allKnown, []⟩ } (deciding b)).any (drained b) =
        true) :
    ∃ s, Reachable (Init follower) (Step follower) Always s ∧ s.batch = none ∧
      s.fetched = [⟨b, []⟩] ∧ s.returned.length = 1 := by
  obtain ⟨s, hs, hd⟩ : ∃ s, Reachable (Init follower) (Step follower) (fun _ _ => True) s ∧
      drained b s = true := exists_reachable _ ⟨allKnown, rfl⟩ _ h
  simp only [drained, Bool.and_eq_true, Option.isNone_iff_eq_none, beq_iff_eq] at hd
  exact ⟨s, hs.always, hd.1.1, hd.1.2, hd.2⟩

end Example

/-- A replica that decides a batch without bytes executes a request that nobody sent. -/
theorem not_executed_in_order :
    ¬ ∀ (cfg : Config) (s : Server), Reachable (Init cfg) (Step cfg) Always s → s.batch = none →
        Consensus.decided s.consensus.core.log =
          (List.range s.fetched.length).zip (s.fetched.map Batch.raw) ∧ InOrder s := by
  intro h
  obtain ⟨s, hs, hb, hf, hl⟩ := Example.exists_drained (b := []) (by decide +kernel)
  obtain ⟨-, rss, he, hr⟩ := h _ s hs hb
  rw [hf] at he
  cases he with
  | cons he hn =>
      cases hn
      rw [hr, he.eq_nil rfl] at hl
      cases hl

/-- A batch of one request. -/
theorem executed_in_order_one : ∃ s : Server, s.fetched = [⟨Example.request 1, []⟩] ∧ InOrder s := by
  obtain ⟨s, hs, hb, hf, -⟩ := Example.exists_drained (b := Example.request 1) (by decide +kernel)
  refine ⟨s, hf, (executed_in_order_iff hs hb).2.mpr ?_⟩
  rw [hf]
  intro b hm
  cases List.mem_singleton.mp hm
  decide

end Server

end Ubft
