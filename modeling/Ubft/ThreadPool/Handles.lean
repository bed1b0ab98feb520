import Ubft.ThreadPool.Workers

/-!
# ThreadPool — what a handle sees of the pool

A handle has one of the queues, and the workers that run a task of it.  Whatever a thread does to
the pool, the handle sees nothing, or a task that goes last and may push the first one out, or its
first task that a worker takes, or a task that is done, or its queue cleared (`sees`).
-/

namespace Ubft.ThreadPool

variable {T P : Type}

/-- The task of a queue that the worker runs. -/
def Worker.taskOf (id : Nat) : Worker T → Option T
  | .running id' task => if id' = id then some task else none
  | _ => none

theorem Worker.taskOf_running (id : Nat) (task : T) :
    (Worker.running id task).taskOf id = some task := if_pos rfl

namespace LockingThreadPool

/-- The tasks of a queue. -/
def queueOf (s : LockingThreadPool T P) (id : Nat) : List T :=
  (s.tasks.queues[id]?).elim [] (·.queue)

/-- The tasks of a queue that run. -/
def runningTasks (s : LockingThreadPool T P) (id : Nat) : List T :=
  s.workers.filterMap (Worker.taskOf id)

/-- A worker runs one task at most. -/
theorem length_runningTasks_le (s : LockingThreadPool T P) (id : Nat) :
    (s.runningTasks id).length ≤ s.workers.length :=
  List.length_filterMap_le _ _

/-- What a queue holds after a task is enqueued. -/
def pushed (tail : Nat) (queue : List T) (f : T) : List T :=
  if tail < queue.length + 1 then (queue ++ [f]).drop 1 else queue ++ [f]

/-- The step is one of the handle, or of a worker that runs a task of its queue. -/
def Concerns (s : LockingThreadPool T P) (id : Nat) : Op T → Prop
  | .initTaskQueue _ => s.tasks.queues.length = id
  | .enqueue id' _ | .destroy id' => id' = id
  | .finish w => ∃ task, s.workers[w]? = some (.running id task)
  | _ => False

/-- What the handle of a queue sees of a step. -/
inductive Sees (id : Nat) (s s' : LockingThreadPool T P) : Op T → Prop where
  | enqueued (f : T) (q : QueueTailPair T) (hq : s.tasks.queues[id]? = some q)
      (h : s'.tasks.queues[id]? = some { q with queue := pushed q.tail q.queue f })
      (hw : s'.workers = s.workers) : Sees id s s' (.enqueue id f)
  | taken (w : Nat) (t : T) (q : QueueTailPair T) (rest : List T)
      (hq : s.tasks.queues[id]? = some q) (ht : q.queue = t :: rest)
      (h : s'.tasks.queues[id]? = some { q with queue := rest })
      (hi : s.workers[w]? = some .idle) (hw : s'.workers = s.workers.set w (.running id t)) :
      Sees id s s' (.wake w)
  | finished (w : Nat) (t : T) (hr : s.workers[w]? = some (.running id t))
      (hq : s'.tasks.queues[id]? = s.tasks.queues[id]?)
      (hw : s'.workers = s.workers.set w .idle) : Sees id s s' (.finish w)
  | cleared (q : QueueTailPair T) (hq : s.tasks.queues[id]? = some q)
      (h : s'.tasks.queues[id]? = some { q with queue := [] })
      (hw : s'.workers = s.workers) : Sees id s s' (.destroy id)
  | created (tail : Nat) (hq : s.tasks.queues.length = id)
      (h : s'.tasks.queues[id]? = some { tail }) (hw : s'.workers = s.workers) :
      Sees id s s' (.initTaskQueue tail)
  | nothing (op : Op T) (hq : s'.tasks.queues[id]? = s.tasks.queues[id]?)
      (hw : s'.workers.map (Worker.taskOf id) = s.workers.map (Worker.taskOf id))
      (hno : ¬ s.Concerns id op) : Sees id s s' op

variable {Q : KeyedPriorityQueue P} {s s' : LockingThreadPool T P} {id : Nat} {op : Op T}

/-- What runs depends on the workers alone. -/
theorem runningTasks_eq (hw : s'.workers.map (Worker.taskOf id) =
    s.workers.map (Worker.taskOf id)) : s'.runningTasks id = s.runningTasks id := by
  have hmap : ∀ l : List (Worker T), l.filterMap (Worker.taskOf id) =
      (l.map (Worker.taskOf id)).reduceOption := fun l => by
    rw [List.reduceOption, List.filterMap_map]
    rfl
  rw [runningTasks, runningTasks, hmap, hmap, hw]

/-- A worker that runs nothing of the queue before nor after. -/
theorem map_taskOf_set {l : List (Worker T)} {w : Nat} {a b : Worker T} (h : l[w]? = some a)
    (ha : a.taskOf id = none) (hb : b.taskOf id = none) :
    (l.set w b).map (Worker.taskOf id) = l.map (Worker.taskOf id) := by
  rw [List.map_set, hb]
  refine List.ext_getElem? fun k => ?_
  rw [List.getElem?_set]
  split
  · next hk =>
      subst hk
      have hlt := (List.getElem?_eq_some_iff.mp h).choose
      rw [if_pos (by rw [List.length_map]; exact hlt), List.getElem?_map, h]
      exact congrArg some ha.symm
  · rfl

/-- **What a handle sees.** -/
theorem sees (hQ : Q.Correct) (hs : s.Sound Q) (h : Step Q s op s') (id : Nat) :
    Sees id s s' op := by
  have free {e : Error} {x : Except Error (LockingThreadPool T P)} {p : Prop} [Decidable p]
      (hx : (if p then .error e else x) = .ok s') : ¬ p ∧ x = .ok s' := by
    split at hx
    · cases hx
    · next hp => exact ⟨hp, hx⟩
  cases op with
  | initTaskQueue tail =>
      obtain ⟨-, he⟩ := free h
      cases he
      by_cases hid : s.tasks.queues.length = id
      · refine .created tail hid ?_ rfl
        change (s.tasks.queues ++ [_])[id]? = _
        rw [← hid, List.getElem?_concat_length]
      · refine .nothing _ ?_ rfl hid
        change (s.tasks.queues ++ [_])[id]? = _
        rcases Nat.lt_or_ge id s.tasks.queues.length with hlt | hge
        · rw [List.getElem?_append_left hlt]
        · rw [List.getElem?_eq_none hge, List.getElem?_eq_none]
          rw [List.length_append, List.length_singleton]
          omega
  | enqueue id' f =>
      obtain ⟨-, he⟩ := free h
      obtain ⟨-, he⟩ := free he
      obtain ⟨tasks, ht, rfl⟩ := map_eq_ok.mp he
      obtain ⟨-, q, hq, hset⟩ := TailTaskQueues.enqueue_cases hQ hs.balanced (mapError_eq_ok.mp ht)
      by_cases hid : id' = id
      · subst hid
        refine .enqueued f q hq ?_ rfl
        change tasks.queues[id']? = _
        rw [hset, List.getElem?_set_self (List.getElem?_eq_some_iff.mp hq).choose]
        rfl
      · refine .nothing _ ?_ rfl hid
        change tasks.queues[id]? = _
        rw [hset, List.getElem?_set_ne hid]
  | destroy id' =>
      obtain ⟨-, he⟩ := free h
      obtain ⟨tasks, ht, rfl⟩ := map_eq_ok.mp he
      obtain ⟨-, q, hq, hset⟩ := TailTaskQueues.clear_cases hQ hs.balanced (mapError_eq_ok.mp ht)
      by_cases hid : id' = id
      · subst hid
        refine .cleared q hq ?_ rfl
        change tasks.queues[id']? = _
        rw [hset, List.getElem?_set_self (List.getElem?_eq_some_iff.mp hq).choose]
      · refine .nothing _ ?_ rfl hid
        change tasks.queues[id]? = _
        rw [hset, List.getElem?_set_ne hid]
  | destroyed =>
      have hd : s.destroyed = .ok s' := h
      unfold LockingThreadPool.destroyed at hd
      split at hd
      · cases hd
      · split at hd
        · cases hd; exact .nothing _ rfl rfl (fun h => h)
        · cases hd
  | freeze => obtain ⟨-, he⟩ := free h; cases he; exact .nothing _ rfl rfl (fun h => h)
  | unfreeze => obtain ⟨-, he⟩ := free h; cases he; exact .nothing _ rfl rfl (fun h => h)
  | stop => obtain ⟨-, he⟩ := free h; cases he; exact .nothing _ rfl rfl (fun h => h)
  | wake w =>
      have hd : s.wake Q w = .ok s' := h
      unfold LockingThreadPool.wake at hd
      split at hd
      · next hw =>
          split at hd
          · cases hd
            exact .nothing _ rfl (map_taskOf_set hw rfl rfl) (fun h => h)
          · obtain ⟨hno, he⟩ := free hd
            obtain ⟨⟨tasks, id', task⟩, ht, rfl⟩ := map_eq_ok.mp he
            rcases TailTaskQueues.pop_cases hQ hs.balanced with ⟨hz, -⟩ |
              ⟨i, q, t, rest, tasks', hq, hqueue, -, hpop, hset, -⟩
            · exact absurd (.inr hz) hno
            rw [mapError_eq_ok.mp ht] at hpop
            cases hpop
            by_cases hid : id' = id
            · subst hid
              refine .taken w task q rest hq hqueue ?_ hw rfl
              change tasks.queues[id']? = _
              rw [hset, List.getElem?_set_self (List.getElem?_eq_some_iff.mp hq).choose]
            · refine .nothing _ ?_ (map_taskOf_set hw rfl (if_neg hid)) (fun h => h)
              change tasks.queues[id]? = _
              rw [hset, List.getElem?_set_ne hid]
      · cases hd
  | finish w =>
      have hd : s.finish w = .ok s' := h
      unfold LockingThreadPool.finish at hd
      split at hd
      · next id' task hw =>
          cases hd
          by_cases hid : id' = id
          · subst hid
            exact .finished w task hw rfl rfl
          · refine .nothing _ rfl (map_taskOf_set hw (if_neg hid) rfl) ?_
            rintro ⟨task', hr⟩
            rw [hw] at hr
            cases hr
            exact hid rfl
      · cases hd

theorem runningTasks_set (id : Nat) {w : Nat} {a b : Worker T} (h : s.workers[w]? = some a)
    (hw : s'.workers = s.workers.set w b) :
    ((a.taskOf id).toList ++ s'.runningTasks id).Perm
      ((b.taskOf id).toList ++ s.runningTasks id) := by
  rw [runningTasks, runningTasks, hw, List.filterMap_eq_flatMap_toList,
    List.filterMap_eq_flatMap_toList]
  exact flatMap_set_perm h b fun w => (w.taskOf id).toList

/-- A worker takes a task. -/
theorem runningTasks_take {w : Nat} {t : T} (hi : s.workers[w]? = some .idle)
    (hw : s'.workers = s.workers.set w (.running id t)) :
    (s'.runningTasks id).Perm (t :: s.runningTasks id) := by
  have hp := runningTasks_set id hi hw
  rw [Worker.taskOf_running] at hp
  exact hp

/-- A task is done. -/
theorem runningTasks_finish {w : Nat} {t : T} (hr : s.workers[w]? = some (.running id t))
    (hw : s'.workers = s.workers.set w .idle) :
    (s.runningTasks id).Perm (t :: s'.runningTasks id) := by
  have hp := runningTasks_set id hr hw
  rw [Worker.taskOf_running] at hp
  exact hp.symm

end LockingThreadPool

end Ubft.ThreadPool
