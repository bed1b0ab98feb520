import Ubft.Broadcast.Accusations
import Ubft.Broadcast.Broadcaster

/-!
# Broadcast — where the computations are

The index of a message is in one place: its computation is queued, or in the queue of the thread
pool, or run by a worker; or its signature is in the queue of the worker, or sent.  A step moves an
index from one place to the next, or loses one that is not of the tail any longer (`Moves`).

In every run `buffer_pool` is large enough, and no worker takes a buffer from it or gives one back
(`buffers_of_reachable`).  The receivers get what a correct broadcaster sends, and no signature is
lost of a message of the tail (`sends_of_reachable`).
-/

namespace Ubft.Broadcast

open ThreadPool (KeyedPriorityQueue LockingThreadPool Worker UpdatablePriorityQueue)

namespace Broadcaster

variable {P : Type} {cr : Crypto} {sign : Hash → Signature} {Q : KeyedPriorityQueue P}
  {s s' : Broadcaster P} {i : Input} {w : Nat}

/-! ### Where the computations are -/

/-- The computations, in the order of their indices but for those that run. -/
def queuedJobs (s : Broadcaster P) : List (Nat × Bytes) :=
  s.threadPool.queueOf s.taskQueue ++ s.queuedSignatureComputations.items

/-- The computations that are not done: queued, or in the thread pool. -/
def jobs (s : Broadcaster P) : List (Nat × Bytes) :=
  s.queuedJobs ++ s.threadPool.runningTasks s.taskQueue

/-- The signatures computed, polled or not. -/
def signed (s : Broadcaster P) : List ComputedSignature :=
  s.computedSignatures.flatten ++ s.signatures

/-- The indices of the messages that have a computation, done or not. -/
def indices (s : Broadcaster P) : List Nat :=
  s.jobs.map Prod.fst ++ s.signed.map (·.index)

/-- How many signatures are in the queues that `try_dequeue` found empty. -/
def missed (unseen : List Nat) (computed : List (List ComputedSignature)) : Nat :=
  (computed.mapIdx fun k l => if k ∈ unseen then 0 else l.length).sum

/-- What bounds the buffers. -/
def Bounded (s : Broadcaster P) : Prop :=
  match s.phase with
  | .idle => (s.threadPool.queueOf s.taskQueue).length +
      (s.threadPool.runningTasks s.taskQueue).length + s.computedSignatures.flatten.length ≤
        maxOutstanding s.tail s.threadPool
  | .offloading => True
  | .polling unseen => (s.threadPool.queueOf s.taskQueue).length +
      (s.threadPool.runningTasks s.taskQueue).length + missed unseen s.computedSignatures ≤
        maxOutstanding s.tail s.threadPool

/-- The invariant of the broadcaster: each message has one computation at most, with its bytes. -/
structure Sound (cr : Crypto) (sign : Hash → Signature) (Q : KeyedPriorityQueue P)
    (s : Broadcaster P) : Prop where
  threadPool : s.threadPool.Sound Q
  taskQueue : ∃ q, s.threadPool.tasks.queues[s.taskQueue]? = some q ∧ q.tail = s.tail
  producers : s.computedSignatures.length = s.threadPool.workers.length
  nextIndex : s.messages.length = s.nextIndex
  messages : ∀ (k : Nat) m, s.messages[k]? = some m → ∃ data, m = encode k data
  tail : 0 < s.tail ∧ s.queuedSignatureComputations.tail = s.tail
  queued : s.queuedSignatureComputations.items.length ≤ s.tail
  ordered : (s.queuedJobs.map Prod.fst).Pairwise (· < ·)
  nodup : s.indices.Nodup
  jobs : ∀ j ∈ s.jobs, s.messages[j.1]? = some (encode j.1 j.2)
  signed : ∀ c ∈ s.signed,
    s.messages[c.index]?.map (fun m => sign (cr.blake3 m)) = some c.signature
  covered : ∀ k < s.nextIndex, s.nextIndex ≤ k + s.tail → k ∈ s.indices
  bounded : s.Bounded
  bufferPool : s.bufferPool = s.tail + 1 + maxOutstanding s.tail s.threadPool

/-! ### Counting -/

/-- All the lists are still to be seen. -/
theorem missed_nil (l : List (List ComputedSignature)) : missed [] l = l.flatten.length := by
  rw [missed, List.length_flatten]
  refine congrArg List.sum (List.ext_getElem? fun k => ?_)
  rw [List.getElem?_mapIdx, List.getElem?_map]
  exact congrFun (congrArg Option.map (funext fun _ => if_neg List.not_mem_nil)) _

theorem missed_range (l : List (List ComputedSignature)) :
    missed (List.range l.length) l = 0 := by
  refine List.sum_eq_zero fun n hn => ?_
  obtain ⟨k, hk, rfl⟩ := List.mem_mapIdx.mp hn
  exact if_pos (List.mem_range.mpr hk)

theorem missed_set {l : List (List ComputedSignature)} {a : List ComputedSignature}
    (h : l[w]? = some a) (b : List ComputedSignature) (unseen : List Nat) :
    missed unseen (l.set w b) ≤ missed unseen l + (b.length - a.length) := by
  have hsum := sum_set_add (l := l.mapIdx fun k l => if k ∈ unseen then 0 else l.length) (k := w)
    (a := if w ∈ unseen then 0 else a.length) (by rw [List.getElem?_mapIdx, h]; rfl)
    (if w ∈ unseen then 0 else b.length)
  rw [missed, List.mapIdx_set]
  change _ ≤ (l.mapIdx fun k l => if k ∈ unseen then 0 else l.length).sum + _
  by_cases hw : w ∈ unseen
  · rw [if_pos hw] at hsum ⊢
    rw [if_pos hw] at hsum
    omega
  · rw [if_neg hw] at hsum ⊢
    rw [if_neg hw] at hsum
    omega

/-- An element goes last in one of the lists. -/
theorem flatten_set_perm {α : Type} {l : List (List α)} {a : List α} (h : l[w]? = some a) (c : α) :
    (l.set w (a ++ [c])).flatten.Perm (c :: l.flatten) := by
  have hp := flatMap_set_perm h (a ++ [c]) id
  rw [List.flatMap_id, List.flatMap_id] at hp
  exact (List.perm_append_left_iff a).mp
    (hp.trans (List.Perm.of_eq (List.append_assoc a [c] _)))

/-- An empty list misses nothing. -/
theorem missed_erase {l : List (List ComputedSignature)} (h : l[w]? = some [])
    (unseen : List Nat) : missed (unseen.erase w) l = missed unseen l := by
  refine congrArg List.sum (List.ext_getElem? fun k => ?_)
  rw [List.getElem?_mapIdx, List.getElem?_mapIdx]
  by_cases hk : k = w
  · rw [hk, h]
    exact congrArg some ((ite_self _).trans (ite_self _).symm)
  · simp only [List.mem_erase_of_ne hk]

/-- How many computations the thread pool has, and signatures that are not polled. -/
def outstanding (s : Broadcaster P) (unseen : List Nat) : Nat :=
  (s.threadPool.queueOf s.taskQueue).length + (s.threadPool.runningTasks s.taskQueue).length +
    missed unseen s.computedSignatures

/-- Fewer computations are outstanding. -/
theorem Bounded.mono (hb : s.Bounded) (hphase : s'.phase = s.phase) (ht : s'.tail = s.tail)
    (hw : s'.threadPool.workers.length = s.threadPool.workers.length)
    (hle : ∀ unseen, s'.outstanding unseen ≤ s.outstanding unseen) : s'.Bounded := by
  have hmax : maxOutstanding s'.tail s'.threadPool = maxOutstanding s.tail s.threadPool := by
    rw [maxOutstanding, maxOutstanding, ht, hw]
  unfold Bounded at hb ⊢
  rw [hphase, hmax]
  cases hp : s.phase with
  | idle =>
      rw [hp] at hb
      dsimp only at hb ⊢
      rw [← missed_nil] at hb ⊢
      exact (hle []).trans hb
  | offloading => trivial
  | polling unseen =>
      rw [hp] at hb
      exact (hle unseen).trans hb

/-! ### What a step does -/

/-- The queue of the tasks, when one is enqueued. -/
theorem pushed_eq (tail : Nat) (queue : List (Nat × Bytes)) (c : Nat × Bytes) :
    ∃ lost, lost ++ LockingThreadPool.pushed tail queue c = queue ++ [c] ∧
      (lost = [] ∨ ∃ x rest, lost = [x] ∧ queue ++ [c] = x :: rest ∧ tail ≤ rest.length) := by
  unfold LockingThreadPool.pushed
  split
  · next hlt =>
      obtain ⟨x, rest, hx⟩ : ∃ x rest, queue ++ [c] = x :: rest := by
        cases queue with
        | nil => exact ⟨c, [], rfl⟩
        | cons x q => exact ⟨x, q ++ [c], rfl⟩
      refine ⟨[x], by rw [hx]; rfl, .inr ⟨x, rest, rfl, hx, ?_⟩⟩
      have hl := congrArg List.length hx
      rw [List.length_append, List.length_singleton, List.length_cons] at hl
      omega
  · exact ⟨[], rfl, .inl rfl⟩

/-- The queue of the computations, when one is emplaced. -/
theorem emplaceBack_eq {q : TailQueue (Nat × Bytes)} (hq : 0 < q.tail)
    (hle : q.items.length ≤ q.tail) (c : Nat × Bytes) :
    ∃ lost, lost ++ (q.emplaceBack c).items = q.items ++ [c] ∧
      (q.emplaceBack c).items.length ≤ q.tail ∧
        (lost = [] ∨ ∃ x rest, lost = [x] ∧ q.items = x :: rest ∧ q.tail = rest.length + 1) := by
  unfold TailQueue.emplaceBack
  dsimp only
  split
  · next hl =>
      rcases hi : q.items with _ | ⟨x, rest⟩
      · rw [hi] at hl
        exact absurd hl (Nat.ne_of_lt hq)
      · rw [hi, List.length_cons] at hl
        refine ⟨[x], rfl, ?_, .inr ⟨x, rest, rfl, rfl, hl.symm⟩⟩
        rw [List.drop_one, List.tail_cons, List.length_append, List.length_singleton, hl]
  · next hl =>
      refine ⟨[], rfl, ?_, .inl rfl⟩
      rw [List.length_append, List.length_singleton]
      omega

/-- Computations and signatures move, those of `fresh` come, and those of `lost` are not required
any longer. -/
structure Moves (s s' : Broadcaster P) (fresh lost : List Nat) : Prop where
  tail : s'.tail = s.tail
  perm : (lost ++ s'.indices).Perm (fresh ++ s.indices)
  mono : s.nextIndex ≤ s'.nextIndex
  mem_fresh : ∀ k, k ∈ fresh ↔ s.nextIndex ≤ k ∧ k < s'.nextIndex
  nodup : fresh.Nodup
  old : ∀ k ∈ lost, k + s.tail < s'.nextIndex

/-- Indices are lost that are out of the tail. -/
theorem Moves.of_eq {lost : List Nat} (ht : s'.tail = s.tail) (hn : s'.nextIndex = s.nextIndex)
    (hp : (lost ++ s'.indices).Perm s.indices) (ho : ∀ k ∈ lost, k + s.tail < s.nextIndex) :
    Moves s s' [] lost :=
  ⟨ht, hp, hn.ge, fun k => ⟨fun hk => absurd hk List.not_mem_nil, fun hk => by omega⟩,
    List.nodup_nil, fun k hk => hn ▸ ho k hk⟩

namespace Sound

/-- Only what was broadcast is computed. -/
theorem lt_nextIndex (h : s.Sound cr sign Q) {k : Nat} (hk : k ∈ s.indices) :
    k < s.nextIndex := by
  rw [← h.nextIndex]
  rcases List.mem_append.mp hk with hk | hk
  · obtain ⟨j, hj, rfl⟩ := List.mem_map.mp hk
    exact (List.getElem?_eq_some_iff.mp (h.jobs j hj)).choose
  · obtain ⟨c, hc, rfl⟩ := List.mem_map.mp hk
    obtain ⟨m, hm, -⟩ := Option.map_eq_some_iff.mp (h.signed c hc)
    exact (List.getElem?_eq_some_iff.mp hm).choose

theorem queuedJobs_lt (h : s.Sound cr sign Q) : ∀ k ∈ s.queuedJobs.map Prod.fst, k < s.nextIndex :=
  fun _ hk => h.lt_nextIndex (List.mem_append_left _ (List.map_append ▸ List.mem_append_left _ hk))

/-- The queue is no longer than the tail. -/
theorem length_queueOf (h : s.Sound cr sign Q) :
    (s.threadPool.queueOf s.taskQueue).length ≤ s.tail := by
  obtain ⟨q, hq, ht⟩ := h.taskQueue
  rw [LockingThreadPool.queueOf, hq, ← ht]
  exact h.threadPool.bounded _ q hq

/-- What is kept when computations and signatures move. -/
theorem moves (h : s.Sound cr sign Q) {fresh lost : List Nat} (hm : Moves s s' fresh lost) :
    s'.indices.Nodup ∧ ∀ k < s'.nextIndex, s'.nextIndex ≤ k + s'.tail → k ∈ s'.indices := by
  constructor
  · have hf : (fresh ++ s.indices).Nodup :=
      List.nodup_append.mpr ⟨hm.nodup, h.nodup, fun a ha b hb he => by
        have hge := ((hm.mem_fresh a).mp ha).1
        have hlt := h.lt_nextIndex hb
        omega⟩
    exact (List.nodup_append.mp (hm.perm.nodup_iff.mpr hf)).2.1
  · intro k hk hle
    rw [hm.tail] at hle
    have hmem : k ∈ fresh ++ s.indices := by
      rcases Nat.lt_or_ge k s.nextIndex with hlt | hge
      · exact List.mem_append_right _ (h.covered k hlt (hm.mono.trans hle))
      · exact List.mem_append_left _ ((hm.mem_fresh k).mpr ⟨hge, hk⟩)
    rcases List.mem_append.mp (hm.perm.mem_iff.mpr hmem) with hl | hi
    · exact absurd (hm.old k hl) (Nat.not_lt.mpr hle)
    · exact hi

theorem broadcast (h : s.Sound cr sign Q) {data : Bytes} (hi : s.phase = .idle)
    (hb : s.broadcast data = .ok s') : s'.Sound cr sign Q := by
  unfold Broadcaster.broadcast at hb
  split at hb
  · cases hb
  · cases hb
    obtain ⟨lost, hl, hle, hlost⟩ := emplaceBack_eq (h.tail.2 ▸ h.tail.1)
      (h.tail.2 ▸ h.queued) (s.nextIndex, data)
    have hold : ∀ j ∈ s.jobs ++ [(s.nextIndex, data)],
        (s.messages ++ [encode s.nextIndex data])[j.1]? = some (encode j.1 j.2) := by
      intro j hj
      rcases List.mem_append.mp hj with hj | hj
      · have hm := h.jobs j hj
        rw [List.getElem?_append_left (List.getElem?_eq_some_iff.mp hm).choose, hm]
      · rw [List.mem_singleton.mp hj, ← h.nextIndex, List.getElem?_concat_length]
    let s' : Broadcaster P := { s with
      nextIndex := s.nextIndex + 1
      messages := s.messages ++ [encode s.nextIndex data]
      bufferPool := max s.bufferPool (s.live + 1)
      queuedSignatureComputations := s.queuedSignatureComputations.emplaceBack (s.nextIndex, data)
      messageBufferPool := max s.messageBufferPool (s.held + 1)
      held := s.held + 1 }
    have hmoves : Moves s s' [s.nextIndex] (lost.map Prod.fst) := by
      refine ⟨rfl, ?_, Nat.le_succ _, fun k => ?_, List.nodup_singleton _, fun k hk => ?_⟩
      · refine List.perm_iff_count.mpr fun a => ?_
        have hc := congrArg (fun l => (l.map Prod.fst).count a) hl
        simp only [s', indices, Broadcaster.jobs, queuedJobs, Broadcaster.signed, List.map_append,
          List.count_append, List.map_cons, List.map_nil] at hc ⊢
        omega
      · rw [List.mem_singleton]
        constructor
        · rintro rfl
          exact ⟨Nat.le_refl _, Nat.lt_succ_self _⟩
        · exact fun hk => Nat.le_antisymm (Nat.le_of_lt_succ hk.2) hk.1
      · rcases hlost with rfl | ⟨x, rest, rfl, hitems, htail⟩
        · cases hk
        · rw [List.map_singleton, List.mem_singleton] at hk
          have hq := h.ordered
          have hlt := h.queuedJobs_lt
          rw [queuedJobs, hitems, List.map_append, List.map_cons] at hq hlt
          have hroom := add_length_lt (List.pairwise_append.mp hq).2.1
            fun y hy => hlt y (List.mem_append_right _ hy)
          rw [List.length_map] at hroom
          rw [hk, ← h.tail.2, htail]
          exact Nat.succ_lt_succ hroom
    have hk := h.moves hmoves
    exact
      { threadPool := h.threadPool
        taskQueue := h.taskQueue
        producers := h.producers
        nextIndex := by
          change (s.messages ++ [_]).length = s.nextIndex + 1
          rw [List.length_append, h.nextIndex, List.length_singleton]
        messages := by
          intro k m hm
          change (s.messages ++ [_])[k]? = some m at hm
          rcases Nat.lt_or_ge k s.messages.length with hlt | hge
          · rw [List.getElem?_append_left hlt] at hm
            exact h.messages k m hm
          · have hlt := (List.getElem?_eq_some_iff.mp hm).choose
            rw [List.length_append, List.length_singleton] at hlt
            obtain rfl : k = s.messages.length := Nat.le_antisymm (Nat.le_of_lt_succ hlt) hge
            rw [List.getElem?_concat_length] at hm
            cases hm
            exact ⟨data, by rw [h.nextIndex]⟩
        tail := h.tail
        queued := h.tail.2 ▸ hle
        ordered := by
          have hq : (s.queuedJobs ++ [(s.nextIndex, data)]).map Prod.fst |>.Pairwise (· < ·) := by
            rw [List.map_append]
            exact List.pairwise_append.mpr ⟨h.ordered, List.pairwise_singleton _ _, fun a ha b hb =>
              List.mem_singleton.mp hb ▸ h.queuedJobs_lt a ha⟩
          refine hq.sublist (List.Sublist.map _ ?_)
          rw [queuedJobs, queuedJobs, List.append_assoc, ← hl]
          exact (List.sublist_append_right _ _).append_left _
        nodup := hk.1
        jobs := by
          intro j hj
          refine hold j ?_
          rcases List.mem_append.mp hj with hj | hj
          · rcases List.mem_append.mp hj with hj | hj
            · exact List.mem_append_left _ (List.mem_append_left _ (List.mem_append_left _ hj))
            · rcases TailQueue.mem_emplaceBack hj with hj | rfl
              · exact List.mem_append_left _ (List.mem_append_left _ (List.mem_append_right _ hj))
              · exact List.mem_append_right _ (List.mem_singleton_self _)
          · exact List.mem_append_left _ (List.mem_append_right _ hj)
        signed := by
          intro c hc
          have hm := h.signed c hc
          obtain ⟨m, hget, -⟩ := Option.map_eq_some_iff.mp hm
          change (s.messages ++ [_])[c.index]?.map _ = _
          rw [List.getElem?_append_left (List.getElem?_eq_some_iff.mp hget).choose]
          exact hm
        covered := hk.2
        bounded := by
          have hb := h.bounded
          unfold Bounded at hb ⊢
          rw [hi] at hb
          change match s.phase with | .idle => _ | .offloading => _ | .polling _ => _
          rw [hi]
          exact hb
        bufferPool := by
          have hb := h.bounded
          unfold Bounded at hb
          rw [hi] at hb
          change max s.bufferPool (s.live + 1) = _
          rw [h.bufferPool]
          refine Nat.max_eq_left ?_
          have hlive := h.queued
          unfold live
          dsimp only at hb
          omega }

/-- What is known of the computations and the signatures that only move. -/
theorem of_moves (h : s.Sound cr sign Q) {lost : List Nat} (hm : Moves s s' [] lost)
    (hmessages : s'.messages = s.messages) (hnext : s'.nextIndex = s.nextIndex)
    (hjobs : ∀ j ∈ s'.jobs, j ∈ s.jobs)
    (hsigned : ∀ c ∈ s'.signed, c ∈ s.signed ∨ ∃ j ∈ s.jobs,
      c = ⟨j.1, sign (cr.blake3 (encode j.1 j.2))⟩) :
    s'.messages.length = s'.nextIndex ∧ s'.indices.Nodup ∧
      (∀ j ∈ s'.jobs, s'.messages[j.1]? = some (encode j.1 j.2)) ∧
      (∀ c ∈ s'.signed,
        s'.messages[c.index]?.map (fun m => sign (cr.blake3 m)) = some c.signature) ∧
      ∀ k < s'.nextIndex, s'.nextIndex ≤ k + s'.tail → k ∈ s'.indices := by
  obtain ⟨hn, hc⟩ := h.moves hm
  rw [hmessages]
  refine ⟨hnext ▸ h.nextIndex, hn, fun j hj => h.jobs j (hjobs j hj), fun c hc => ?_, hc⟩
  rcases hsigned c hc with hc | ⟨j, hj, rfl⟩
  · exact h.signed c hc
  · rw [h.jobs j hj]
    rfl

/-- The next computation is handed to the thread pool. -/
theorem offload (hQ : Q.Correct) (h : s.Sound cr sign Q)
    (ho : s.offloadSignatureComputation Q = .ok s') : s'.Sound cr sign Q := by
  unfold offloadSignatureComputation at ho
  split at ho
  · next c rest hphase hitems =>
      obtain ⟨threadPool, hpool, rfl⟩ := map_eq_ok.mp ho
      have hstep := mapError_eq_ok.mp hpool
      have hs := h.threadPool.step hQ hstep
      cases LockingThreadPool.sees hQ h.threadPool hstep s.taskQueue with
      | nothing _ _ _ hno => exact absurd rfl hno
      | enqueued _ q hq hq' hw =>
          obtain ⟨_, hq₀, htail⟩ := h.taskQueue
          obtain rfl := Option.some.inj (hq.symm.trans hq₀)
          obtain ⟨lost, hl, hlost⟩ := pushed_eq q.tail q.queue c
          let s' : Broadcaster P := { s with
            threadPool, queuedSignatureComputations := s.queuedSignatureComputations.popFront }
          have hqueue : s.threadPool.queueOf s.taskQueue = q.queue := by
            rw [LockingThreadPool.queueOf, hq]
            rfl
          have hqueue' : threadPool.queueOf s.taskQueue =
              LockingThreadPool.pushed q.tail q.queue c := by
            rw [LockingThreadPool.queueOf, hq']
            rfl
          have hrun : threadPool.runningTasks s.taskQueue = s.threadPool.runningTasks s.taskQueue :=
            LockingThreadPool.runningTasks_eq (congrArg _ hw)
          have hfront : lost ++ s'.queuedJobs = s.queuedJobs := by
            change lost ++ (threadPool.queueOf s.taskQueue ++
              s.queuedSignatureComputations.items.drop 1) = _
            rw [hqueue', ← List.append_assoc, hl, queuedJobs, hqueue, hitems, List.append_assoc]
            rfl
          have hm : Moves s s' [] (lost.map Prod.fst) := by
            refine .of_eq rfl rfl (List.Perm.of_eq ?_) fun k hk => ?_
            · rw [indices, indices, Broadcaster.jobs, Broadcaster.jobs, ← hfront, List.map_append,
                List.map_append, List.map_append]
              simp only [List.append_assoc]
              rw [← hrun]
              rfl
            · rcases hlost with rfl | ⟨x, rest, rfl, hx, hle⟩
              · cases hk
              · rw [List.map_singleton, List.mem_singleton] at hk
                have ho := h.ordered
                have hlt := h.queuedJobs_lt
                rw [queuedJobs, hqueue, hitems, List.append_cons, hx, List.cons_append,
                  List.map_cons] at ho hlt
                have hroom := add_length_lt ho hlt
                rw [List.length_map, List.length_append] at hroom
                rw [hk, ← htail]
                omega
          have hsub : ∀ j ∈ s'.jobs, j ∈ s.jobs := by
            intro j hj
            rw [Broadcaster.jobs, ← hfront, ← hrun]
            rcases List.mem_append.mp hj with hj | hj
            · exact List.mem_append_left _ (List.mem_append_right _ hj)
            · exact List.mem_append_right _ hj
          obtain ⟨hnext, hnodup, hjobs, hsigned, hcovered⟩ :=
            h.of_moves hm rfl rfl hsub fun c hc => .inl hc
          have hlen : threadPool.workers.length = s.threadPool.workers.length :=
            congrArg List.length hw
          refine
            { threadPool := hs
              taskQueue := ⟨_, hq', htail⟩
              producers := h.producers.trans hlen.symm
              nextIndex := hnext
              messages := h.messages
              tail := h.tail
              queued := ?_
              ordered := ?_
              nodup := hnodup
              jobs := hjobs
              signed := hsigned
              covered := hcovered
              bounded := ?_
              bufferPool := ?_ }
          · change (s.queuedSignatureComputations.items.drop 1).length ≤ s.tail
            rw [List.length_drop]
            exact (Nat.sub_le _ _).trans h.queued
          · have ho := h.ordered
            rw [← hfront, List.map_append] at ho
            exact (List.pairwise_append.mp ho).2.1
          · unfold Bounded
            change match s.phase with | .idle => _ | .offloading => _ | .polling _ => _
            rw [hphase]
            trivial
          · rw [maxOutstanding, hlen]
            exact h.bufferPool
  · next hphase hitems =>
      cases ho
      refine { h with bounded := ?_ }
      change (s.threadPool.queueOf s.taskQueue).length +
        (s.threadPool.runningTasks s.taskQueue).length + missed s.producers s.computedSignatures ≤ _
      rw [Broadcaster.producers, missed_range, Nat.add_zero]
      exact Nat.add_le_add h.length_queueOf (LockingThreadPool.length_runningTasks_le ..)
  · cases ho

/-- The signatures that are dequeued are sent, or not required any longer. -/
theorem dequeue (h : s.Sound cr sign Q) (hd : s.dequeue w = .ok s') : s'.Sound cr sign Q := by
  unfold Broadcaster.dequeue at hd
  split at hd
  · next unseen computed rest hphase hget =>
      have hd := Except.ok.inj hd
      have hflat := flatMap_set_perm hget rest id
      rw [List.flatMap_id, List.flatMap_id] at hflat
      have hcount := ((hflat.map (·.index)).count_eq ·)
      simp only [id, List.cons_append, List.map_cons, List.map_append, List.count_cons,
        List.count_append] at hcount
      have hmem : ∀ c ∈ (s.computedSignatures.set w rest).flatten,
          c ∈ s.computedSignatures.flatten := by
        intro c hc
        rcases List.mem_append.mp (hflat.mem_iff.mp (List.mem_append_right _ hc)) with hr | hf
        · exact List.mem_flatten.mpr ⟨_, List.mem_of_getElem? hget, List.mem_cons_of_mem _ hr⟩
        · exact hf
      have hfirst : computed ∈ s.computedSignatures.flatten :=
        List.mem_flatten.mpr ⟨_, List.mem_of_getElem? hget, List.mem_cons_self⟩
      have hbounded : (s.threadPool.queueOf s.taskQueue).length +
          (s.threadPool.runningTasks s.taskQueue).length +
            missed s.producers (s.computedSignatures.set w rest) ≤
              maxOutstanding s.tail s.threadPool := by
        have hlen : (s.computedSignatures.set w rest).length = s.computedSignatures.length :=
          List.length_set
        rw [Broadcaster.producers, ← hlen, missed_range, Nat.add_zero]
        exact Nat.add_le_add h.length_queueOf (LockingThreadPool.length_runningTasks_le ..)
      unfold sendSignature at hd
      split at hd
      · have hm : Moves s s' [] [] := by
          subst hd
          refine .of_eq rfl rfl (List.perm_iff_count.mpr fun a => ?_) (fun k hk => by cases hk)
          have hc := hcount a
          simp only [indices, Broadcaster.jobs, queuedJobs, Broadcaster.signed, List.map_append,
            List.count_append, List.map_cons, List.map_nil, List.count_cons, List.count_nil]
          omega
        obtain ⟨hnext, hnodup, hjobs, hsigned, hcovered⟩ :=
          h.of_moves hm (by rw [← hd]) (by rw [← hd]) (fun j hj => by rw [← hd] at hj; exact hj)
            fun c hc => .inl (by
              rw [← hd] at hc
              rcases List.mem_append.mp hc with hc | hc
              · exact List.mem_append_left _ (hmem c hc)
              · rcases List.mem_append.mp hc with hc | hc
                · exact List.mem_append_right _ hc
                · exact List.mem_append_left _ (List.mem_singleton.mp hc ▸ hfirst))
        subst hd
        exact { h with
          producers := List.length_set.trans h.producers, nodup := hnodup, jobs := hjobs
          signed := hsigned, covered := hcovered, bounded := hbounded }
      · next hout =>
          have hm : Moves s s' [] [computed.index] := by
            subst hd
            refine .of_eq rfl rfl (List.perm_iff_count.mpr fun a => ?_) fun k hk => ?_
            · have hc := hcount a
              simp only [indices, Broadcaster.jobs, queuedJobs, Broadcaster.signed, List.map_append,
                List.count_append, List.count_cons, List.count_nil]
              omega
            · rw [List.mem_singleton.mp hk]
              dsimp only at hout
              omega
          obtain ⟨hnext, hnodup, hjobs, hsigned, hcovered⟩ :=
            h.of_moves hm (by rw [← hd]) (by rw [← hd]) (fun j hj => by rw [← hd] at hj; exact hj)
              fun c hc => .inl (by
                rw [← hd] at hc
                rcases List.mem_append.mp hc with hc | hc
                · exact List.mem_append_left _ (hmem c hc)
                · exact List.mem_append_right _ hc)
          subst hd
          exact { h with
            producers := List.length_set.trans h.producers, nodup := hnodup, jobs := hjobs
            signed := hsigned, covered := hcovered, bounded := hbounded }
  · cases hd

/-- A worker's list is passed by. -/
theorem miss (h : s.Sound cr sign Q) (hm : s.miss w = .ok s') : s'.Sound cr sign Q := by
  unfold Broadcaster.miss at hm
  split at hm
  · next unseen hphase hget =>
      cases hm
      refine { h with bounded := ?_ }
      have hb := h.bounded
      unfold Bounded at hb
      rw [hphase] at hb
      change (s.threadPool.queueOf s.taskQueue).length +
        (s.threadPool.runningTasks s.taskQueue).length +
          missed (unseen.erase w) s.computedSignatures ≤ _
      rw [missed_erase hget]
      exact hb
  · cases hm

theorem polled (h : s.Sound cr sign Q) (hp : s.polled = .ok s') : s'.Sound cr sign Q := by
  unfold Broadcaster.polled at hp
  split at hp
  · next hphase =>
      cases hp
      refine { h with bounded := ?_ }
      have hb := h.bounded
      unfold Bounded at hb
      rw [hphase] at hb
      dsimp only at hb
      rw [missed_nil] at hb
      exact hb
  · cases hp

/-- A worker is done with a task of the queue, and its signature goes last in its own. -/
theorem sign_cases (hQ : Q.Correct) (h : s.Sound cr sign Q)
    (hs : s.signComputation cr sign w = .ok s') :
    ∃ threadPool j l, LockingThreadPool.Step Q s.threadPool (.finish w) threadPool ∧
      (s.threadPool.runningTasks s.taskQueue).Perm
        (j :: threadPool.runningTasks s.taskQueue) ∧
      threadPool.tasks.queues[s.taskQueue]? = s.threadPool.tasks.queues[s.taskQueue]? ∧
      threadPool.workers.length = s.threadPool.workers.length ∧
      s.computedSignatures[w]? = some l ∧
      s' = { s with
        threadPool
        computedSignatures := s.computedSignatures.set w
          (l ++ [⟨j.1, sign (cr.blake3 (encode j.1 j.2))⟩]) } := by
  unfold Broadcaster.signComputation at hs
  split at hs
  · next id index data hworker =>
      split at hs
      · next hid =>
          subst hid
          obtain ⟨threadPool, hpool, hs⟩ := map_eq_ok.mp hs
          have hstep : LockingThreadPool.Step Q s.threadPool (.finish w) threadPool :=
            mapError_eq_ok.mp hpool
          cases LockingThreadPool.sees hQ h.threadPool hstep s.taskQueue with
          | nothing _ _ _ hno => exact absurd ⟨_, hworker⟩ hno
          | finished _ t hr hq hw =>
              rw [hworker] at hr
              cases hr
              obtain ⟨l, hget⟩ : ∃ l, s.computedSignatures[w]? = some l :=
                ⟨_, List.getElem?_eq_getElem
                  (h.producers ▸ (List.getElem?_eq_some_iff.mp hworker).choose)⟩
              refine ⟨threadPool, (index, data), l, hstep,
                LockingThreadPool.runningTasks_finish hworker hw, hq, ?_, hget, ?_⟩
              · rw [hw, List.length_set]
              · rw [← hs, List.modify_eq_set, hget]
                rfl
      · cases hs
  · cases hs

/-- A worker hands its signature over. -/
theorem signComputation (hQ : Q.Correct) (h : s.Sound cr sign Q)
    (hs : s.signComputation cr sign w = .ok s') : s'.Sound cr sign Q := by
  obtain ⟨threadPool, j, l, hstep, hrun, hq, hlen, hget, hs⟩ := h.sign_cases hQ hs
  have hqueue : threadPool.queueOf s.taskQueue = s.threadPool.queueOf s.taskQueue := by
    rw [LockingThreadPool.queueOf, hq]
    rfl
  have hflat := flatten_set_perm hget
    (⟨j.1, sign (cr.blake3 (encode j.1 j.2))⟩ : ComputedSignature)
  have hm : Moves s s' [] [] := by
    rw [hs]
    refine .of_eq rfl rfl (List.perm_iff_count.mpr fun a => ?_) fun k hk => by cases hk
    have hc := (hflat.map (·.index)).count_eq a
    have hr := (hrun.map Prod.fst).count_eq a
    simp only [indices, Broadcaster.jobs, queuedJobs, Broadcaster.signed, List.map_append,
      List.count_append, List.count_nil, hqueue, List.map_cons, List.count_cons] at hc hr ⊢
    omega
  have hsub : ∀ j ∈ s'.jobs, j ∈ s.jobs := by
    intro j hj
    rw [hs] at hj
    rcases List.mem_append.mp hj with hj | hj
    · rcases List.mem_append.mp hj with hj | hj
      · change j ∈ threadPool.queueOf s.taskQueue at hj
        rw [hqueue] at hj
        exact List.mem_append_left _ (List.mem_append_left _ hj)
      · exact List.mem_append_left _ (List.mem_append_right _ hj)
    · exact List.mem_append_right _ (hrun.mem_iff.mpr (List.mem_cons_of_mem _ hj))
  have hsub' : ∀ c ∈ s'.signed, c ∈ s.signed ∨ ∃ j ∈ s.jobs,
      c = ⟨j.1, sign (cr.blake3 (encode j.1 j.2))⟩ := by
    intro c hc
    rw [hs] at hc
    rcases List.mem_append.mp hc with hc | hc
    · rcases List.mem_cons.mp (hflat.mem_iff.mp hc) with rfl | hc
      · exact .inr ⟨_, List.mem_append_right _ (hrun.mem_iff.mpr List.mem_cons_self), rfl⟩
      · exact .inl (List.mem_append_left _ hc)
    · exact .inl (List.mem_append_right _ hc)
  obtain ⟨hnext, hnodup, hjobs, hsigned, hcovered⟩ :=
    h.of_moves hm (by rw [hs]) (by rw [hs]) hsub hsub'
  subst hs
  refine
    { threadPool := h.threadPool.step hQ hstep
      taskQueue := ?_
      producers := List.length_set.trans (h.producers.trans hlen.symm)
      nextIndex := hnext
      messages := h.messages
      tail := h.tail
      queued := h.queued
      ordered := ?_
      nodup := hnodup
      jobs := hjobs
      signed := hsigned
      covered := hcovered
      bounded := h.bounded.mono rfl rfl hlen fun unseen => ?_
      bufferPool := ?_ }
  · obtain ⟨q, hq', ht⟩ := h.taskQueue
    exact ⟨q, hq.trans hq', ht⟩
  · change ((threadPool.queueOf s.taskQueue ++ _).map Prod.fst).Pairwise (· < ·)
    rw [hqueue]
    exact h.ordered
  · have hset := missed_set hget (l ++ [⟨j.1, sign (cr.blake3 (encode j.1 j.2))⟩]) unseen
    have hr := hrun.length_eq
    rw [List.length_append, List.length_singleton] at hset
    rw [List.length_cons] at hr
    unfold outstanding
    dsimp only
    rw [hqueue]
    omega
  · rw [maxOutstanding, hlen]
    exact h.bufferPool

/-- The others do not touch the queue, but for the workers that take a task. -/
theorem others (hQ : Q.Correct) (h : s.Sound cr sign Q)
    {op : LockingThreadPool.Op (Nat × Bytes)} {threadPool : LockingThreadPool (Nat × Bytes) P}
    (ho : s.Others op) (hstep : LockingThreadPool.Step Q s.threadPool op threadPool) :
    Sound cr sign Q { s with threadPool } := by
  have hs := h.threadPool.step hQ hstep
  obtain ⟨q₀, hq₀, ht⟩ := h.taskQueue
  cases LockingThreadPool.sees hQ h.threadPool hstep s.taskQueue with
  | enqueued => exact absurd rfl ho.2
  | cleared => exact absurd rfl ho.2
  | created tail hlen =>
      rw [List.getElem?_eq_none hlen.le] at hq₀
      cases hq₀
  | finished w t hr =>
      have hno : (s.threadPool.workers[w]?).all
        (fun w => (w.taskOf s.taskQueue).isNone) = true := ho
      rw [hr, Option.all_some, Worker.taskOf_running] at hno
      cases hno
  | taken w t q rest hq hqueue hq' hi hw =>
      obtain rfl := Option.some.inj (hq.symm.trans hq₀)
      have hrun := LockingThreadPool.runningTasks_take hi hw
      have hlen : threadPool.workers.length = s.threadPool.workers.length := by
        rw [hw, List.length_set]
      have hold : s.threadPool.queueOf s.taskQueue = t :: rest := by
        rw [LockingThreadPool.queueOf, hq, ← hqueue]
        rfl
      have hnew : threadPool.queueOf s.taskQueue = rest := by
        rw [LockingThreadPool.queueOf, hq']
        rfl
      have hm : Moves s { s with threadPool } [] [] := by
        refine .of_eq rfl rfl (List.perm_iff_count.mpr fun a => ?_) fun k hk => by cases hk
        have hr := (hrun.map Prod.fst).count_eq a
        simp only [indices, Broadcaster.jobs, queuedJobs, Broadcaster.signed, List.map_append,
          List.count_append, List.count_nil, hold, hnew, List.map_cons, List.count_cons] at hr ⊢
        omega
      obtain ⟨hnext, hnodup, hjobs, hsigned, hcovered⟩ := h.of_moves hm rfl rfl
        (fun j hj => by
          rw [Broadcaster.jobs, queuedJobs, hold]
          rcases List.mem_append.mp hj with hj | hj
          · change j ∈ threadPool.queueOf s.taskQueue ++ _ at hj
            rw [hnew] at hj
            exact List.mem_append_left _ (List.mem_cons_of_mem _ hj)
          · rcases List.mem_cons.mp (hrun.mem_iff.mp hj) with rfl | hj
            · exact List.mem_append_left _ List.mem_cons_self
            · exact List.mem_append_right _ hj)
        fun c hc => .inl hc
      refine { h with
        threadPool := hs
        taskQueue := ⟨_, hq', ht⟩
        producers := h.producers.trans hlen.symm
        ordered := ?_
        nodup := hnodup
        jobs := hjobs
        covered := hcovered
        bounded := h.bounded.mono rfl rfl hlen fun unseen => ?_
        bufferPool := ?_ }
      · have ho := h.ordered
        rw [queuedJobs, hold] at ho
        change ((threadPool.queueOf s.taskQueue ++ _).map Prod.fst).Pairwise (· < ·)
        rw [hnew]
        exact (List.pairwise_cons.mp ho).2
      · have hr := hrun.length_eq
        rw [List.length_cons] at hr
        unfold outstanding
        change (threadPool.queueOf s.taskQueue).length +
          (threadPool.runningTasks s.taskQueue).length + missed unseen s.computedSignatures ≤ _
        rw [hold, hnew, List.length_cons]
        omega
      · rw [maxOutstanding, hlen]
        exact h.bufferPool
  | nothing _ hq hw hno =>
      have hqueue : threadPool.queueOf s.taskQueue = s.threadPool.queueOf s.taskQueue := by
        rw [LockingThreadPool.queueOf, hq]
        rfl
      have hrun := LockingThreadPool.runningTasks_eq hw
      have hlen : threadPool.workers.length = s.threadPool.workers.length := by
        have hl := congrArg List.length hw
        rw [List.length_map, List.length_map] at hl
        exact hl
      have hjobs : Broadcaster.jobs { s with threadPool } = s.jobs := by
        rw [Broadcaster.jobs, Broadcaster.jobs, queuedJobs, queuedJobs, ← hqueue, ← hrun]
      have hindices : indices { s with threadPool } = s.indices := by
        rw [indices, indices, hjobs]
        rfl
      refine { h with
        threadPool := hs
        taskQueue := ⟨q₀, hq.trans hq₀, ht⟩
        producers := h.producers.trans hlen.symm
        ordered := ?_
        nodup := hindices ▸ h.nodup
        jobs := fun j hj => h.jobs j (hjobs ▸ hj)
        covered := fun k hk hle => hindices ▸ h.covered k hk hle
        bounded := h.bounded.mono rfl rfl hlen fun unseen => ?_
        bufferPool := ?_ }
      · change ((threadPool.queueOf s.taskQueue ++ _).map Prod.fst).Pairwise (· < ·)
        rw [hqueue]
        exact h.ordered
      · unfold outstanding
        rw [← hqueue, ← hrun]
      · rw [maxOutstanding, hlen]
        exact h.bufferPool

theorem create (hQ : Q.Correct) {threadPool : LockingThreadPool (Nat × Bytes) P}
    (h : threadPool.Sound Q) (hw : threadPool.waiting = none)
    {borrowedMessages tail maxMsgSize : Nat} (ht : 0 < tail) :
    (create Q threadPool borrowedMessages tail maxMsgSize).Sound cr sign Q := by
  have hstep : LockingThreadPool.Step Q threadPool (.initTaskQueue tail)
      (threadPool.initTaskQueue Q tail) := by
    unfold LockingThreadPool.Step LockingThreadPool.next
    rw [hw]
    rfl
  have hget : (threadPool.initTaskQueue Q tail).tasks.queues[threadPool.tasks.queues.length]? =
      some { tail } := List.getElem?_concat_length ..
  have hqueue : (threadPool.initTaskQueue Q tail).queueOf threadPool.tasks.queues.length = [] := by
    rw [LockingThreadPool.queueOf, hget]
    rfl
  have hrun : (threadPool.initTaskQueue Q tail).runningTasks threadPool.tasks.queues.length =
      [] := by
    refine List.filterMap_eq_nil_iff.mpr fun w hw => ?_
    cases w with
    | running id task => exact if_neg (Nat.ne_of_lt (h.exist id task hw))
    | idle => rfl
    | returned => rfl
  let s := Broadcaster.create Q threadPool borrowedMessages tail maxMsgSize
  have hcomputed : s.computedSignatures.flatten = [] := List.flatten_replicate_nil
  have hqueued : s.queuedJobs = [] := (List.append_nil _).trans hqueue
  have hjobs : s.jobs = [] := by
    rw [Broadcaster.jobs, hqueued]
    exact hrun
  have hsigned : s.signed = [] := (List.append_nil _).trans hcomputed
  have hindices : s.indices = [] := by
    rw [indices, hjobs, hsigned]
    rfl
  exact
    { threadPool := h.step hQ hstep
      taskQueue := ⟨_, hget, rfl⟩
      producers := List.length_replicate
      nextIndex := rfl
      messages := fun k m hm => by cases hm
      tail := ⟨ht, rfl⟩
      queued := Nat.zero_le _
      ordered := hqueued ▸ List.Pairwise.nil
      nodup := hindices ▸ List.nodup_nil
      jobs := fun j hj => absurd (hjobs ▸ hj) List.not_mem_nil
      signed := fun c hc => absurd (hsigned ▸ hc) List.not_mem_nil
      covered := fun k hk => absurd hk (Nat.not_lt_zero k)
      bounded := by
        change ((threadPool.initTaskQueue Q tail).queueOf threadPool.tasks.queues.length).length +
          ((threadPool.initTaskQueue Q tail).runningTasks threadPool.tasks.queues.length).length +
            s.computedSignatures.flatten.length ≤ _
        rw [hqueue, hrun, hcomputed]
        exact Nat.zero_le _
      bufferPool := rfl }

theorem step (hQ : Q.Correct) (h : s.Sound cr sign Q) (hs : Step cr sign Q s i s') :
    s'.Sound cr sign Q := by
  have free {e : Error} {x : Except Error (Broadcaster P)} {p : Prop} [Decidable p]
      (hx : (if p then x else .error e) = .ok s') : p ∧ x = .ok s' := by
    split at hx
    · next hp => exact ⟨hp, hx⟩
    · cases hx
  cases i with
  | broadcast data =>
      obtain ⟨hf, hb⟩ := free hs
      exact h.broadcast hf.1 hb
  | release => obtain ⟨-, hs⟩ := free hs; cases hs; exact { h with }
  | toggleSlowPath enable => obtain ⟨-, hs⟩ := free hs; cases hs; exact { h with }
  | tick =>
      obtain ⟨-, hs⟩ := free hs
      cases hs
      unfold tick
      split
      · exact { h with bounded := trivial }
      · exact h
  | offload => exact h.offload hQ hs
  | dequeue worker => exact h.dequeue hs
  | miss worker => exact h.miss hs
  | polled => exact h.polled hs
  | sign worker => exact h.signComputation hQ hs
  | threadPool op =>
      obtain ⟨ho, hs⟩ := free hs
      obtain ⟨threadPool, hp, rfl⟩ := map_eq_ok.mp hs
      exact h.others hQ ho (mapError_eq_ok.mp hp)

end Sound

/-! ### Runs -/

variable {threads borrowedMessages tail maxMsgSize : Nat}

theorem sound_of_reachable (hQ : Q.Correct) (ht : 0 < tail)
    (h : Reachable (Init Q threads borrowedMessages tail maxMsgSize) (Step cr sign Q)
      (Always (ι := Input)) s) : s.Sound cr sign Q := by
  refine h.induct (P := Sound cr sign Q) (fun s hi => ?_) fun s i s' _ hs _ hn => hs.step hQ hn
  obtain ⟨threadPool, hr, hw, rfl⟩ := hi
  exact .create hQ (LockingThreadPool.sound_of_reachable hQ hr) hw ht

/-- A worker does it. -/
def Input.OfWorker : Input → Prop
  | .sign _ | .threadPool (.wake _) | .threadPool (.finish _) => True
  | _ => False

/-- No worker takes a buffer or gives one back. -/
theorem Sound.live_eq (hQ : Q.Correct) (h : s.Sound cr sign Q) (hi : i.OfWorker)
    (hs : Step cr sign Q s i s') : s'.live = s.live := by
  cases i with
  | sign w =>
      obtain ⟨threadPool, j, l, -, hrun, hq, -, hget, rfl⟩ := h.sign_cases hQ hs
      have hr := hrun.length_eq
      have hf := (flatten_set_perm hget
        (⟨j.1, sign (cr.blake3 (encode j.1 j.2))⟩ : ComputedSignature)).length_eq
      rw [List.length_cons] at hr hf
      unfold live LockingThreadPool.queueOf
      dsimp only
      rw [hq]
      omega
  | threadPool op =>
      unfold Step next at hs
      dsimp only at hs
      split at hs
      · next ho =>
          obtain ⟨threadPool, hp, rfl⟩ := map_eq_ok.mp hs
          cases LockingThreadPool.sees hQ h.threadPool (mapError_eq_ok.mp hp) s.taskQueue with
          | enqueued => cases hi
          | cleared => cases hi
          | created => cases hi
          | finished w t hr =>
              have hno : (s.threadPool.workers[w]?).all
                (fun w => (w.taskOf s.taskQueue).isNone) = true := ho
              rw [hr, Option.all_some, Worker.taskOf_running] at hno
              cases hno
          | taken w t q rest hq hqueue hq' hidle hw =>
              have hr := (LockingThreadPool.runningTasks_take hidle hw).length_eq
              rw [List.length_cons] at hr
              unfold live LockingThreadPool.queueOf
              dsimp only
              rw [hq, hq', Option.elim_some, Option.elim_some, hqueue, List.length_cons, hr]
              dsimp only
              omega
          | nothing _ hq hw hno =>
              unfold live LockingThreadPool.queueOf
              rw [hq, LockingThreadPool.runningTasks_eq hw]
      · cases hs
  | _ => cases hi

/-- **The buffers.**  Whatever the broadcaster and the workers do, `buffer_pool` has the buffers its
constructor allocated, as many as are held at a time; and only the thread of the broadcaster takes
them and gives them back. -/
theorem buffers_of_reachable {s : Broadcaster {q : UpdatablePriorityQueue Nat // q.Valid}}
    (ht : 0 < tail)
    (h : Reachable (Init UpdatablePriorityQueue.keyedPriorityQueue threads borrowedMessages tail
      maxMsgSize) (Step cr sign UpdatablePriorityQueue.keyedPriorityQueue) (Always (ι := Input))
      s) :
    s.bufferPool = s.tail + 1 + maxOutstanding s.tail s.threadPool ∧
      (s.phase = .idle → s.live < s.bufferPool) ∧
      ∀ i s', i.OfWorker → Step cr sign UpdatablePriorityQueue.keyedPriorityQueue s i s' →
        s'.live = s.live := by
  have hs := sound_of_reachable UpdatablePriorityQueue.correct_keyedPriorityQueue ht h
  refine ⟨hs.bufferPool, fun hi => ?_, fun i s' hw hn =>
    hs.live_eq UpdatablePriorityQueue.correct_keyedPriorityQueue hw hn⟩
  have hb := hs.bounded
  have hq := hs.queued
  unfold Bounded at hb
  rw [hi] at hb
  dsimp only at hb
  rw [hs.bufferPool, live]
  omega

/-- What the senders of the broadcaster send under an index. -/
def sent (cr : Crypto) (sign : Hash → Signature) (s : Broadcaster P) (i : Index) :
    Option (Bytes × Signature) :=
  s.messages[i]?.map fun m => (m, sign (cr.blake3 m))

/-- **The signatures.**  The receivers get what a correct broadcaster sends: one message under each
index, and its signature once at most.  No signature of a message of the tail is lost, however often
the slow path is toggled: those that were not sent are being computed, or wait to be. -/
theorem sends_of_reachable {s : Broadcaster {q : UpdatablePriorityQueue Nat // q.Valid}}
    (ht : 0 < tail) (hv : ∀ h, cr.verify (sign h) h = true)
    (h : Reachable (Init UpdatablePriorityQueue.keyedPriorityQueue threads borrowedMessages tail
      maxMsgSize) (Step cr sign UpdatablePriorityQueue.keyedPriorityQueue) (Always (ι := Input)) s)
    (hn : s.nextIndex ≤ 2 ^ 64) :
    (∀ i m sig, s.sent cr sign i = some (m, sig) →
        index m = i ∧ cr.verify sig (cr.blake3 m) = true) ∧
      (∀ m ∈ s.messages, Sends (s.sent cr sign) (.message m)) ∧
      (∀ c ∈ s.signatures, Sends (s.sent cr sign) (.signature c.index c.signature)) ∧
      (s.signatures.map (·.index)).Nodup ∧
      ∀ k < s.nextIndex, s.nextIndex ≤ k + s.tail →
        k ∈ s.signatures.map (·.index) ∨ k ∈ s.computedSignatures.flatten.map (·.index) ∨
          k ∈ s.jobs.map Prod.fst := by
  have hs := sound_of_reachable UpdatablePriorityQueue.correct_keyedPriorityQueue ht h
  have hindex : ∀ (k : Nat) m, s.messages[k]? = some m → index m = k := by
    intro k m hm
    obtain ⟨data, rfl⟩ := hs.messages k m hm
    have hlt := (List.getElem?_eq_some_iff.mp hm).choose
    rw [hs.nextIndex] at hlt
    rw [index, encode, headerSize, List.take_left' (length_le 8 k), ofLe_le_of_lt]
    exact hlt.trans_le hn
  refine ⟨fun k m sig hk => ?_, fun m hm => ?_, fun c hc => ?_, ?_, fun k hk hle => ?_⟩
  · obtain ⟨m', hm, he⟩ := Option.map_eq_some_iff.mp hk
    cases he
    exact ⟨hindex k m hm, hv _⟩
  · obtain ⟨k, hk⟩ := List.mem_iff_getElem?.mp hm
    change (s.sent cr sign (index m)).map Prod.fst = some m
    rw [hindex k m hk, sent, hk]
    rfl
  · change (s.sent cr sign c.index).map Prod.snd = some c.signature
    rw [sent, Option.map_map]
    exact hs.signed c (List.mem_append_right _ hc)
  · have hd := (List.nodup_append.mp hs.nodup).2.1
    rw [signed, List.map_append] at hd
    exact (List.nodup_append.mp hd).2.1
  · have hm := hs.covered k hk hle
    rw [indices, signed, List.map_append, List.mem_append, List.mem_append] at hm
    rcases hm with hm | hm | hm
    · exact .inr (.inr hm)
    · exact .inr (.inl hm)
    · exact .inl hm

/-! ### A run -/

namespace Example

/-- A signature is the hash it signs. -/
def crypto : Crypto where
  blake3 := fun m => (m ++ List.replicate 32 0).take 32
  length_blake3 := length_take_padded
  verify := fun sig h => sig == h

/-- One worker, and a tail of two messages. -/
def start : Broadcaster {q : UpdatablePriorityQueue Nat // q.Valid} :=
  create UpdatablePriorityQueue.keyedPriorityQueue
    { tasks := { queuesSizes := UpdatablePriorityQueue.keyedPriorityQueue.empty }
      workers := List.replicate 1 .idle } 0 2 1

theorem init_start :
    Init UpdatablePriorityQueue.keyedPriorityQueue 1 0 2 1 start :=
  ⟨_, .init rfl, rfl, rfl⟩

/-- Three messages are broadcast, and the signature of one of the last two is sent when the slow
path is turned off; then the worker takes the other one. -/
def inputs : List Input :=
  [.toggleSlowPath true, .broadcast [7], .broadcast [8], .broadcast [9], .tick, .offload, .offload,
    .offload, .threadPool (.wake 0), .sign 0, .dequeue 0, .miss 0, .polled, .toggleSlowPath false,
    .threadPool (.wake 0)]

theorem exists_run : ∃ s, Reachable (Init UpdatablePriorityQueue.keyedPriorityQueue 1 0 2 1)
    (Step crypto id UpdatablePriorityQueue.keyedPriorityQueue) (Always (ι := Input)) s ∧
      s.phase = .idle ∧ s.tail = 2 ∧ s.bufferPool = 6 ∧ s.nextIndex = 3 ∧
        s.signatures = [⟨1, crypto.blake3 (encode 1 [8])⟩] := by
  obtain ⟨s, hs, hsee⟩ : ∃ s, Reachable (Init UpdatablePriorityQueue.keyedPriorityQueue 1 0 2 1)
      (Step crypto id UpdatablePriorityQueue.keyedPriorityQueue) (fun _ _ => True) s ∧
        decide (s.phase = .idle ∧ s.tail = 2 ∧ s.bufferPool = 6 ∧ s.nextIndex = 3 ∧
          s.signatures = [⟨1, crypto.blake3 (encode 1 [8])⟩]) = true :=
    exists_reachable start init_start inputs (by decide +kernel)
  exact ⟨s, hs, of_decide_eq_true hsee⟩

end Example

/-- Six buffers are enough. -/
theorem buffers_six : ∃ s : Broadcaster {q : UpdatablePriorityQueue Nat // q.Valid},
    s.nextIndex = 3 ∧ s.live < 6 := by
  obtain ⟨s, hs, hphase, -, hpool, hnext, -⟩ := Example.exists_run
  exact ⟨s, hnext, hpool ▸ (buffers_of_reachable Nat.two_pos hs).2.1 hphase⟩

/-- The signature that was not sent is not lost. -/
theorem sends_three : ∃ s : Broadcaster {q : UpdatablePriorityQueue Nat // q.Valid},
    s.signatures.map (·.index) = [1] ∧
      (2 ∈ s.computedSignatures.flatten.map (·.index) ∨ 2 ∈ s.jobs.map Prod.fst) := by
  obtain ⟨s, hs, -, htail, -, hnext, hsig⟩ := Example.exists_run
  have hindices : s.signatures.map (·.index) = [1] := by
    rw [hsig]
    rfl
  have h := (sends_of_reachable Nat.two_pos (fun _ => beq_self_eq_true _) hs
    (by rw [hnext]; decide)).2.2.2.2 2 (by rw [hnext]; decide) (by rw [hnext, htail]; decide)
  rw [hindices] at h
  exact ⟨s, hindices, h.resolve_left (by decide)⟩

end Broadcaster

end Ubft.Broadcast
