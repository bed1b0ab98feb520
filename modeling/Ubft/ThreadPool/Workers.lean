import Ubft.Support.Counting
import Ubft.ThreadPool.PriorityQueue

/-!
# ThreadPool — the workers

`LockingThreadPool` with its threads: workers that take a task under the mutex, run it outside, and
are counted in `running` meanwhile; and the thread that owns the handles, which alone creates,
enqueues and destroys.  A step is what a thread does between two points where another can run.

The destructor of a handle clears its queue under the mutex and then spins until no task of the
queue runs.  Once it is over, none of its tasks runs, is queued, or ever will be, so that what they
hold references to can be destroyed (`quiet_of_reachable`); and no handle has more tasks
outstanding than `maxOutstanding`, for which the buffers of its owner are allocated.

The constructor of a handle is the one function that takes no mutex.  Here it is a step like the
others, which it is when no worker is busy meanwhile (`Unshared`).
-/

namespace Ubft.ThreadPool

variable {T P : Type}

/-- Where the thread of a worker is. -/
inductive Worker (T : Type) where
  | idle
  | running (id : Nat) (task : T)
  | returned

/-- The worker runs a task of the queue. -/
def Worker.runs (id : Nat) : Worker T → Bool
  | .running id' _ => decide (id' = id)
  | _ => false

/-- `waiting` is the queue whose `clear` spins; `closed` are those whose handle is destroyed. -/
structure LockingThreadPool (T P : Type) where
  tasks : TailTaskQueues T P
  running : List Nat := []
  workers : List (Worker T)
  frozen : Bool := false
  stop : Bool := false
  waiting : Option Nat := none
  closed : List Nat := []

namespace LockingThreadPool

/-- What ends a step. -/
inductive Error where
  /-- Nothing is thrown: the thread is elsewhere, or waits. -/
  | blocked
  /-- "enqueue on stopped ThreadPool" -/
  | stopped
  | queues (e : ThreadPool.Error)
  deriving DecidableEq, Repr

/-- The steps of the threads. -/
inductive Op (T : Type) where
  | initTaskQueue (tail : Nat)
  | enqueue (id : Nat) (f : T)
  /-- `~TaskQueue`, up to the spin of `clear`. -/
  | destroy (id : Nat)
  /-- The spin sees that no task runs. -/
  | destroyed
  | freeze
  | unfreeze
  /-- `~LockingThreadPool`, up to the joins. -/
  | stop
  /-- A worker that waits on the condition wakes. -/
  | wake (worker : Nat)
  /-- A worker is done with its task. -/
  | finish (worker : Nat)

variable (Q : KeyedPriorityQueue P)

/-- `initTaskQueue`, as one step.  The source takes no mutex: with a worker in `pop` or counting a
task out at the same time, it is a data race, of which nothing is said here. -/
def initTaskQueue (s : LockingThreadPool T P) (tail : Nat) : LockingThreadPool T P :=
  { s with tasks := s.tasks.createQueue Q tail, running := s.running ++ [0] }

/-- `enqueue`, under the mutex. -/
def enqueue (s : LockingThreadPool T P) (id : Nat) (f : T) : Except Error (LockingThreadPool T P) :=
  if s.stop then .error .stopped
  else ((s.tasks.enqueue Q id f).mapError .queues).map fun tasks => { s with tasks }

/-- `clear`, up to its spin. -/
def clear (s : LockingThreadPool T P) (id : Nat) : Except Error (LockingThreadPool T P) :=
  ((s.tasks.clear Q id).mapError .queues).map fun tasks => { s with tasks, waiting := some id }

/-- `clear` returns, and with it the destructor. -/
def destroyed (s : LockingThreadPool T P) : Except Error (LockingThreadPool T P) :=
  match s.waiting with
  | none => .error .blocked
  | some id =>
    if s.running[id]? = some 0 then .ok { s with waiting := none, closed := id :: s.closed }
    else .error .blocked

/-- A worker returns, or takes a task, or goes on waiting. -/
def wake (s : LockingThreadPool T P) (worker : Nat) : Except Error (LockingThreadPool T P) :=
  match s.workers[worker]? with
  | some .idle =>
    if s.stop then .ok { s with workers := s.workers.set worker .returned }
    else if s.frozen ∨ s.tasks.tasks = 0 then .error .blocked
    else
      ((s.tasks.pop Q).mapError .queues).map fun (tasks, id, task) =>
        { s with
          tasks
          running := s.running.modify id (· + 1)
          workers := s.workers.set worker (.running id task) }
  | _ => .error .blocked

/-- The worker has run its task, and counts it out. -/
def finish (s : LockingThreadPool T P) (worker : Nat) : Except Error (LockingThreadPool T P) :=
  match s.workers[worker]? with
  | some (.running id _) =>
    .ok { s with
      running := s.running.modify id (· - 1)
      workers := s.workers.set worker .idle }
  | _ => .error .blocked

/-- The owner of the handles does one thing at a time, and uses a handle until it destroys it. -/
def next (s : LockingThreadPool T P) : Op T → Except Error (LockingThreadPool T P)
  | .initTaskQueue tail =>
    if s.waiting.isSome then .error .blocked else .ok (s.initTaskQueue Q tail)
  | .enqueue id f =>
    if s.waiting.isSome ∨ id ∈ s.closed then .error .blocked else s.enqueue Q id f
  | .destroy id => if s.waiting.isSome ∨ id ∈ s.closed then .error .blocked else s.clear Q id
  | .destroyed => s.destroyed
  | .freeze => if s.waiting.isSome then .error .blocked else .ok { s with frozen := true }
  | .unfreeze => if s.waiting.isSome then .error .blocked else .ok { s with frozen := false }
  | .stop => if s.waiting.isSome then .error .blocked else .ok { s with stop := true }
  | .wake worker => s.wake Q worker
  | .finish worker => s.finish worker

/-- What the constructor leaves: no queues, and workers that wait. -/
def Init (threads : Nat) (s : LockingThreadPool T P) : Prop :=
  s = { tasks := { queuesSizes := Q.empty }, workers := List.replicate threads .idle }

/-- An operation that throws nothing. -/
def Step (s : LockingThreadPool T P) (op : Op T) (s' : LockingThreadPool T P) : Prop :=
  s.next Q op = .ok s'

/-- The worker uses the queues, or can at any moment: it runs a task, which it will count out, or
there is one for it to take. -/
def busy (s : LockingThreadPool T P) : Worker T → Bool
  | .idle => !s.stop && !s.frozen && s.tasks.tasks != 0
  | .running _ _ => true
  | .returned => false

/-- A handle is created while no worker is busy. -/
def Unshared (s : LockingThreadPool T P) : Op T → Prop
  | .initTaskQueue _ => s.workers.any s.busy = false
  | _ => True

instance (s : LockingThreadPool T P) : DecidablePred s.Unshared
  | .initTaskQueue _ => inferInstanceAs (Decidable (s.workers.any s.busy = false))
  | .enqueue .. | .destroy _ | .destroyed | .freeze | .unfreeze | .stop | .wake _ | .finish _ =>
    .isTrue trivial

/-! ### What a step does -/

variable {Q} {s s' : LockingThreadPool T P} {i id : Nat} {f task : T} {op : Op T}

/-- How many workers run a task of the queue. -/
def runningOf (s : LockingThreadPool T P) (id : Nat) : Nat := s.workers.countP (Worker.runs id)

/-- The counters are those of the workers, each of which runs a task of a queue there is; a queue
has at most `tail` tasks, and none once `clear` emptied it; and a queue whose handle is destroyed
is quiet. -/
structure Sound (Q : KeyedPriorityQueue P) (s : LockingThreadPool T P) : Prop where
  balanced : s.tasks.Balanced Q
  counts : ∀ i : Nat, s.running[i]? = (s.tasks.queues[i]?).map fun _ => s.runningOf i
  exist : ∀ id task, Worker.running id task ∈ s.workers → id < s.tasks.queues.length
  bounded : ∀ (i : Nat) q, s.tasks.queues[i]? = some q → q.queue.length ≤ q.tail
  cleared : ∀ i, s.waiting = some i ∨ i ∈ s.closed →
    ∃ q, s.tasks.queues[i]? = some q ∧ q.queue = []
  quiet : ∀ i ∈ s.closed, s.runningOf i = 0

namespace Sound

theorem init (hQ : Q.Correct) {threads : Nat} (h : Init Q threads s) : s.Sound Q := by
  subst h
  refine ⟨⟨rfl, fun i => ?_⟩, fun i => rfl, fun id task hm => ?_, fun i q hq => ?_, fun i hi => ?_,
    fun i hi => ?_⟩
  · rw [hQ.empty]
    rfl
  · cases List.eq_of_mem_replicate hm
  · cases hq
  · rcases hi with hi | hi <;> cases hi
  · cases hi

/-- The queues change, but for those that are cleared. -/
theorem of_tasks (h : s.Sound Q) {tasks : TailTaskQueues T P} {j : Nat} {q q' : QueueTailPair T}
    (hb : tasks.Balanced Q) (hj : s.tasks.queues[j]? = some q)
    (hq : tasks.queues = s.tasks.queues.set j q') (hle : q'.queue.length ≤ q'.tail)
    (hno : s.waiting ≠ some j ∧ j ∉ s.closed) : Sound Q { s with tasks } := by
  have hlt := (List.getElem?_eq_some_iff.mp hj).choose
  have hget : ∀ i : Nat, tasks.queues[i]? = if i = j then some q' else s.tasks.queues[i]? := by
    intro i
    rw [hq]
    split
    · next hi => rw [hi, List.getElem?_set_self hlt]
    · next hi => rw [List.getElem?_set_ne (Ne.symm hi)]
  refine ⟨hb, fun i => ?_, fun id task hm => ?_, fun i p hp => ?_, fun i hi => ?_, h.quiet⟩
  · rw [h.counts i]
    change _ = (tasks.queues[i]?).map _
    rw [hget]
    split
    · next hi => rw [hi, hj]; rfl
    · rfl
  · change id < tasks.queues.length
    rw [hq, List.length_set]
    exact h.exist id task hm
  · change tasks.queues[i]? = some p at hp
    rw [hget] at hp
    split at hp
    · cases hp; exact hle
    · exact h.bounded i p hp
  · obtain ⟨p, hp, he⟩ := h.cleared i hi
    refine ⟨p, ?_, he⟩
    change tasks.queues[i]? = _
    rw [hget, if_neg]
    · exact hp
    · rintro rfl
      exact hi.elim hno.1 hno.2

theorem initTaskQueue (hQ : Q.Correct) (h : s.Sound Q) (tail : Nat) :
    (s.initTaskQueue Q tail).Sound Q := by
  have hlen : s.running.length = s.tasks.queues.length := by
    refine Nat.le_antisymm ?_ ?_
    · refine List.getElem?_eq_none_iff.mp ?_
      rw [h.counts, List.getElem?_eq_none (Nat.le_refl _)]
      rfl
    · refine List.getElem?_eq_none_iff.mp ?_
      have hc := h.counts s.running.length
      rw [List.getElem?_eq_none (Nat.le_refl _)] at hc
      exact Option.map_eq_none_iff.mp hc.symm
  have hget : ∀ i : Nat, (s.tasks.queues ++ [({ tail } : QueueTailPair T)])[i]? =
      if i = s.tasks.queues.length then some { tail } else s.tasks.queues[i]? := by
    intro i
    split
    · next hi => rw [hi, List.getElem?_concat_length]
    · next hi =>
        rcases Nat.lt_or_ge i s.tasks.queues.length with hlt | hge
        · rw [List.getElem?_append_left hlt]
        · rw [List.getElem?_eq_none hge, List.getElem?_eq_none]
          rw [List.length_append, List.length_singleton]
          omega
  refine ⟨h.balanced.createQueue hQ tail, fun i => ?_, fun id task hm => ?_, fun i q hq => ?_,
    fun i hi => ?_, h.quiet⟩
  · change (s.running ++ [0])[i]? = ((s.tasks.queues ++ [({ tail } : QueueTailPair T)])[i]?).map _
    rw [hget]
    split
    · next hi =>
        rw [hi, ← hlen, List.getElem?_concat_length]
        -- no worker runs a task of a queue that was not there
        refine congrArg some (List.countP_eq_zero.mpr fun w hw hr => ?_).symm
        cases w with
        | running id task =>
            have hid := h.exist id task hw
            rw [of_decide_eq_true hr, hlen] at hid
            exact Nat.lt_irrefl _ hid
        | _ => cases hr
    · next hi =>
        rw [← hlen] at hi
        rcases Nat.lt_or_ge i s.running.length with hlt | hge
        · rw [List.getElem?_append_left hlt, h.counts]
          rfl
        · rw [List.getElem?_eq_none, List.getElem?_eq_none (hlen ▸ hge)]
          · rfl
          · rw [List.length_append, List.length_singleton]
            omega
  · change id < (s.tasks.queues ++ [_]).length
    rw [List.length_append]
    exact Nat.lt_add_right _ (h.exist id task hm)
  · change (s.tasks.queues ++ [_])[i]? = some q at hq
    rw [hget] at hq
    split at hq
    · cases hq; exact Nat.zero_le _
    · exact h.bounded i q hq
  · obtain ⟨q, hq, he⟩ := h.cleared i hi
    refine ⟨q, ?_, he⟩
    change (s.tasks.queues ++ [_])[i]? = some q
    rw [hget, if_neg (Nat.ne_of_lt (List.getElem?_eq_some_iff.mp hq).choose)]
    exact hq

/-- Nobody enqueues in a handle that is waited for, or that is gone. -/
theorem enqueue (hQ : Q.Correct) (h : s.Sound Q) (he : s.enqueue Q id f = .ok s')
    (hno : s.waiting ≠ some id ∧ id ∉ s.closed) : s'.Sound Q := by
  unfold LockingThreadPool.enqueue at he
  split at he
  · cases he
  · obtain ⟨tasks, ht, rfl⟩ := map_eq_ok.mp he
    obtain ⟨hb, q, hq, hset⟩ := TailTaskQueues.enqueue_cases hQ h.balanced (mapError_eq_ok.mp ht)
    have hle := h.bounded id q hq
    refine h.of_tasks hb hq hset ?_ hno
    change List.length (if _ then _ else _) ≤ q.tail
    split
    · rw [List.length_drop, List.length_append, List.length_singleton]
      exact hle
    · next hlt =>
        rw [List.length_append, List.length_singleton]
        exact Nat.not_lt.mp hlt

/-- Nobody clears a handle while it is waited for. -/
theorem clear (hQ : Q.Correct) (h : s.Sound Q) (hc : s.clear Q id = .ok s')
    (hno : s.waiting = none ∧ id ∉ s.closed) : s'.Sound Q := by
  obtain ⟨tasks, ht, rfl⟩ := map_eq_ok.mp hc
  obtain ⟨hb, q, hq, hset⟩ := TailTaskQueues.clear_cases hQ h.balanced (mapError_eq_ok.mp ht)
  have hs := h.of_tasks hb hq hset (Nat.zero_le _) ⟨by rw [hno.1]; rintro ⟨⟩, hno.2⟩
  refine { hs with cleared := fun i hi => ?_ }
  rcases hi with hi | hi
  · cases hi
    refine ⟨{ q with queue := [] }, ?_, rfl⟩
    change tasks.queues[id]? = _
    rw [hset, List.getElem?_set_self (List.getElem?_eq_some_iff.mp hq).choose]
  · exact hs.cleared i (.inr hi)

/-- The spin sees that no task of a queue without tasks runs. -/
theorem destroyed (h : s.Sound Q) (hd : s.destroyed = .ok s') : s'.Sound Q := by
  unfold LockingThreadPool.destroyed at hd
  split at hd
  · cases hd
  · next id hw =>
      split at hd
      · next hr =>
          cases hd
          have hzero : s.runningOf id = 0 := by
            rw [h.counts] at hr
            obtain ⟨_, -, hz⟩ := Option.map_eq_some_iff.mp hr
            exact hz
          refine { h with cleared := fun i hi => ?_, quiet := fun i hi => ?_ }
          · rcases hi with hi | hi
            · cases hi
            · rcases List.mem_cons.mp hi with rfl | hi
              · exact h.cleared i (.inl hw)
              · exact h.cleared i (.inr hi)
          · rcases List.mem_cons.mp hi with rfl | hi
            · exact hzero
            · exact h.quiet i hi
      · cases hd

theorem runningOf_set (s₁ : LockingThreadPool T P) {w : Nat} {a b : Worker T}
    (hw : s.workers[w]? = some a) (h' : s₁.workers = s.workers.set w b) (i : Nat) :
    s₁.runningOf i + (if a.runs i then 1 else 0) = s.runningOf i + if b.runs i then 1 else 0 := by
  rw [runningOf, h']
  exact countP_set_add hw b (Worker.runs i)

theorem getElem?_modify (l : List Nat) (g : Nat → Nat) (i j : Nat) :
    (l.modify i g)[j]? = (l[j]?).map fun n => if i = j then g n else n :=
  List.getElem?_modify g i l j

/-- A queue that has tasks was not destroyed, and is not being destroyed. -/
theorem alive (h : s.Sound Q) {id : Nat} {q : QueueTailPair T}
    (hq : s.tasks.queues[id]? = some q) (hne : q.queue ≠ []) :
    s.waiting ≠ some id ∧ id ∉ s.closed := by
  refine not_or.mp fun hc => ?_
  obtain ⟨q', hq', he⟩ := h.cleared id hc
  rw [hq] at hq'
  cases hq'
  exact hne he

/-- The thread of a worker returns. -/
theorem returned (h : s.Sound Q) {w : Nat} (hw : s.workers[w]? = some .idle) :
    Sound Q { s with workers := s.workers.set w .returned } := by
  have hrun : ∀ i, runningOf { s with workers := s.workers.set w .returned } i = s.runningOf i :=
    fun i => runningOf_set { s with workers := s.workers.set w .returned } hw rfl i
  refine ⟨h.balanced, fun i => ?_, fun id task hm => ?_, h.bounded, h.cleared, fun i hi => ?_⟩
  · rw [hrun]
    exact h.counts i
  · rcases List.mem_or_eq_of_mem_set hm with hm | hm
    · exact h.exist id task hm
    · cases hm
  · rw [hrun]
    exact h.quiet i hi

/-- A worker runs a task of a queue that is not being destroyed. -/
theorem started (h : s.Sound Q) {w id : Nat} {task : T} (hw : s.workers[w]? = some .idle)
    (hid : id < s.tasks.queues.length) (hopen : id ∉ s.closed) :
    Sound Q { s with
      running := s.running.modify id (· + 1)
      workers := s.workers.set w (.running id task) } := by
  have hrun : ∀ j, runningOf { s with
      running := s.running.modify id (· + 1)
      workers := s.workers.set w (.running id task) } j =
        s.runningOf j + if id = j then 1 else 0 := by
    intro j
    have he := runningOf_set { s with
      running := s.running.modify id (· + 1)
      workers := s.workers.set w (.running id task) } hw rfl j
    simpa [Worker.runs] using he
  refine ⟨h.balanced, fun j => ?_, fun id' task' hm => ?_, h.bounded, h.cleared, fun j hj => ?_⟩
  · rw [hrun]
    change (s.running.modify id (· + 1))[j]? = _
    rw [getElem?_modify, h.counts j, Option.map_map]
    refine congrArg (Option.map · _) (funext fun _ => ?_)
    change (if id = j then s.runningOf j + 1 else s.runningOf j) = _
    split <;> rfl
  · rcases List.mem_or_eq_of_mem_set hm with hm | hm
    · exact h.exist id' task' hm
    · cases hm
      exact hid
  · rw [hrun, if_neg, h.quiet j hj]
    rintro rfl
    exact hopen hj

/-- A worker takes a task or stops. -/
theorem wake (hQ : Q.Correct) (h : s.Sound Q) {w : Nat} (hs : s.wake Q w = .ok s') :
    s'.Sound Q := by
  unfold LockingThreadPool.wake at hs
  split at hs
  · next hw =>
      split at hs
      · cases hs
        exact h.returned hw
      · split at hs
        · cases hs
        · next hno =>
            obtain ⟨⟨tasks, id, task⟩, ht, rfl⟩ := map_eq_ok.mp hs
            have hpop := mapError_eq_ok.mp ht
            rcases TailTaskQueues.pop_cases hQ h.balanced with ⟨hz, -⟩ |
              ⟨i, q, t, rest, tasks', hq, hqueue, -, hpop', hset, hb⟩
            · exact absurd (.inr hz) hno
            rw [hpop] at hpop'
            cases hpop'
            have hbound := h.bounded id q hq
            rw [hqueue, List.length_cons] at hbound
            have hopen := h.alive hq (hqueue ▸ List.cons_ne_nil _ _)
            have hs' := h.of_tasks hb hq hset (Nat.le_of_succ_le hbound) hopen
            refine hs'.started hw ?_ hopen.2
            change id < tasks.queues.length
            rw [hset, List.length_set]
            exact (List.getElem?_eq_some_iff.mp hq).choose
  · cases hs

/-- A worker is done with its task. -/
theorem finish (h : s.Sound Q) {w : Nat} (hs : s.finish w = .ok s') : s'.Sound Q := by
  unfold LockingThreadPool.finish at hs
  split at hs
  · next id task hw =>
      cases hs
      have hrun : ∀ j, runningOf { s with
          running := s.running.modify id (· - 1), workers := s.workers.set w .idle } j =
            s.runningOf j - if id = j then 1 else 0 := by
        intro j
        have he := runningOf_set { s with
          running := s.running.modify id (· - 1), workers := s.workers.set w .idle } hw rfl j
        simp only [Worker.runs, decide_eq_true_eq, Bool.false_eq_true, if_false] at he
        omega
      refine ⟨h.balanced, fun j => ?_, fun id' task' hm => ?_, h.bounded, h.cleared, fun j hj => ?_⟩
      · rw [hrun]
        change (s.running.modify id (· - 1))[j]? = _
        rw [getElem?_modify, h.counts, Option.map_map]
        refine congrArg (Option.map · _) (funext fun _ => ?_)
        change (if id = j then s.runningOf j - 1 else s.runningOf j) = _
        split <;> rfl
      · rcases List.mem_or_eq_of_mem_set hm with hm | hm
        · exact h.exist id' task' hm
        · cases hm
      · rw [hrun, h.quiet j hj, Nat.zero_sub]
  · cases hs

end Sound

/-! ### Runs -/

/-- Whatever goes on keeps the pool sound. -/
theorem Sound.step (hQ : Q.Correct) (hs : s.Sound Q) (hn : Step Q s op s') : s'.Sound Q := by
  have free {e : Error} {x : Except Error (LockingThreadPool T P)} {p : Prop} [Decidable p]
      (hx : (if p then .error e else x) = .ok s') : ¬ p ∧ x = .ok s' := by
    split at hx
    · cases hx
    · next hp => exact ⟨hp, hx⟩
  have idle {w : Option Nat} (hw : ¬ w.isSome) : w = none := by
    cases w with
    | none => rfl
    | some _ => exact absurd rfl hw
  cases op with
  | initTaskQueue tail =>
      obtain ⟨-, he⟩ := free hn
      cases he
      exact hs.initTaskQueue hQ tail
  | enqueue id f =>
      obtain ⟨hno, he⟩ := free hn
      rw [not_or] at hno
      refine hs.enqueue hQ he ⟨?_, hno.2⟩
      rw [idle hno.1]
      rintro ⟨⟩
  | destroy id =>
      obtain ⟨hno, he⟩ := free hn
      rw [not_or] at hno
      exact hs.clear hQ he ⟨idle hno.1, hno.2⟩
  | destroyed => exact hs.destroyed hn
  | freeze => obtain ⟨-, he⟩ := free hn; cases he; exact { hs with }
  | unfreeze => obtain ⟨-, he⟩ := free hn; cases he; exact { hs with }
  | stop => obtain ⟨-, he⟩ := free hn; cases he; exact { hs with }
  | wake w => exact hs.wake hQ hn
  | finish w => exact hs.finish hn

theorem sound_of_reachable (hQ : Q.Correct) {threads : Nat}
    {good : LockingThreadPool T P → Op T → Prop}
    (h : Reachable (Init Q threads) (Step Q) good s) : s.Sound Q :=
  h.induct (P := Sound Q) (fun _ hi => .init hQ hi) fun _ _ _ _ hs _ hn => hs.step hQ hn

/-- The spin of `clear` ends when the tasks of the queue that run are done. -/
theorem Sound.destroys (h : s.Sound Q) (hw : s.waiting = some id) :
    ∃ (ws : List Nat) (s' : LockingThreadPool T P),
      runs (fun s op => (s.next Q op).toOption) s (ws.map .finish ++ [.destroyed]) = some s' ∧
        id ∈ s'.closed := by
  induction hn : s.runningOf id generalizing s with
  | zero =>
      obtain ⟨q, hq, -⟩ := h.cleared id (.inl hw)
      have hzero : s.running[id]? = some 0 := by rw [h.counts, hq, ← hn]; rfl
      refine ⟨[], { s with waiting := none, closed := id :: s.closed }, ?_, List.mem_cons_self⟩
      rw [List.map_nil, List.nil_append, runs]
      change (s.destroyed.toOption).bind _ = _
      rw [LockingThreadPool.destroyed, hw]
      dsimp only
      rw [if_pos hzero]
      rfl
  | succ n ih =>
      have hpos : 0 < s.workers.countP (Worker.runs id) := by
        change 0 < s.runningOf id
        rw [hn]
        exact Nat.succ_pos n
      obtain ⟨a, ha, hr⟩ := List.countP_pos_iff.mp hpos
      cases a with
      | running id' task =>
          obtain rfl : id' = id := of_decide_eq_true hr
          obtain ⟨w, hwk⟩ := List.mem_iff_getElem?.mp ha
          let s₁ : LockingThreadPool T P := { s with
            running := s.running.modify id' (· - 1), workers := s.workers.set w .idle }
          have hs₁ : s.finish w = .ok s₁ := by
            unfold LockingThreadPool.finish
            rw [hwk]
          have hc := runningOf_set s₁ hwk rfl id'
          simp only [Worker.runs, decide_true, if_true, Bool.false_eq_true, if_false] at hc
          obtain ⟨ws, s', hrun, hm⟩ := ih (h.finish hs₁) hw (by omega)
          refine ⟨w :: ws, s', ?_, hm⟩
          rw [List.map_cons, List.cons_append, runs]
          change (s.finish w).toOption.bind _ = _
          rw [hs₁]
          exact hrun
      | idle => cases hr
      | returned => cases hr

/-- **The workers**, in every run of the pool over the heap whose handles are created while no worker
is busy.  The counters are those of the tasks that run; a worker that wakes finds a task; no queue
has more than `maxOutstanding` tasks queued or running; a queue whose handle is destroyed has none;
and the destructor of a handle ends when the tasks of its queue that run do. -/
theorem quiet_of_reachable {s : LockingThreadPool T
      {q : UpdatablePriorityQueue Nat // q.Valid}} {threads : Nat}
    (h : Reachable (Init UpdatablePriorityQueue.keyedPriorityQueue threads)
      (Step UpdatablePriorityQueue.keyedPriorityQueue) Unshared s) :
    (∀ id q, s.tasks.queues[id]? = some q → s.running[id]? = some (s.runningOf id) ∧
        q.queue.length + s.runningOf id ≤ q.tail + s.workers.length) ∧
      (∀ w, s.workers[w]? = some .idle → s.stop = false → s.frozen = false → s.tasks.tasks ≠ 0 →
        ∃ s', s.wake UpdatablePriorityQueue.keyedPriorityQueue w = .ok s') ∧
      (∀ id ∈ s.closed, s.runningOf id = 0 ∧ ∃ q, s.tasks.queues[id]? = some q ∧ q.queue = []) ∧
      ∀ id, s.waiting = some id → ∃ (ws : List Nat) (s' : LockingThreadPool T _),
        runs (fun s op => (s.next UpdatablePriorityQueue.keyedPriorityQueue op).toOption) s
          (ws.map .finish ++ [.destroyed]) = some s' ∧ id ∈ s'.closed := by
  have hs := sound_of_reachable UpdatablePriorityQueue.correct_keyedPriorityQueue h
  refine ⟨fun id q hq => ⟨?_, ?_⟩, fun w hw hstop hfrozen htasks => ?_, fun id hid => ?_,
    fun id hw => hs.destroys hw⟩
  · rw [hs.counts, hq]
    rfl
  · exact Nat.add_le_add (hs.bounded id q hq) List.countP_le_length
  · rcases TailTaskQueues.pop_cases UpdatablePriorityQueue.correct_keyedPriorityQueue hs.balanced
      with ⟨hz, -⟩ | ⟨i, q, t, rest, tasks, -, -, -, hpop, -⟩
    · exact absurd hz htasks
    · unfold LockingThreadPool.wake
      rw [hw]
      dsimp only
      rw [if_neg (by rw [hstop]; rintro ⟨⟩), if_neg (by rw [hfrozen]; simpa using htasks), hpop]
      exact ⟨_, rfl⟩
  · exact ⟨hs.quiet id hid, hs.cleared id (.inr hid)⟩

/-- The handle of a queue is destroyed while one of its tasks runs and one is queued. -/
theorem quiet_two : ∃ s : LockingThreadPool Nat {q : UpdatablePriorityQueue Nat // q.Valid},
    s.workers.length = 2 ∧ s.closed = [1] ∧ s.runningOf 1 = 0 := by
  obtain ⟨s, hs, hsee⟩ : ∃ s : LockingThreadPool Nat {q : UpdatablePriorityQueue Nat // q.Valid},
      Reachable (Init UpdatablePriorityQueue.keyedPriorityQueue 2)
        (Step UpdatablePriorityQueue.keyedPriorityQueue) Unshared s ∧
        decide (s.workers.length = 2 ∧ s.closed = [1]) = true :=
    exists_reachable _ rfl [.initTaskQueue 2, .initTaskQueue 2, .enqueue 1 7, .enqueue 1 8,
      .enqueue 0 5, .wake 0, .destroy 1, .wake 1, .finish 0, .destroyed] (by decide +kernel)
  obtain ⟨hlen, hc⟩ := of_decide_eq_true hsee
  exact ⟨s, hlen, hc, ((quiet_of_reachable hs).2.2.1 1 (hc ▸ List.mem_singleton_self 1)).1⟩

end LockingThreadPool

end Ubft.ThreadPool
