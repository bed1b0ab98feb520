import Ubft.Support.Assoc
import Ubft.Support.Runs

/-!
# ThreadPool — the task queues

`LockingThreadPool::TailTaskQueues`: queues of tasks of bounded size, a priority queue of their
sizes, and the number of the tasks in all of them.  Workers take the oldest task of a longest
queue; a queue that grows beyond its tail drops its oldest task.

The priority queue is a parameter, `Correct` what is relied on; `PriorityQueue` has the heap.
A task is told from the others by its queue and its rank among the tasks enqueued there, so that
`History` says where each of them went.
-/

namespace Ubft.ThreadPool

variable {T P : Type}

/-- `KeyedPriorityQueue<Index, size_t>`; `priority` is what it records for a key. -/
structure KeyedPriorityQueue (P : Type) where
  empty : P
  set : P → Nat → Nat → P
  increment : P → Nat → P
  decrement : P → Nat → P
  top : P → Nat
  priority : P → Nat → Option Nat

/-- A map of priorities, and `top` is a key of a largest one. -/
structure KeyedPriorityQueue.Correct (Q : KeyedPriorityQueue P) : Prop where
  empty : ∀ k, Q.priority Q.empty k = none
  set : ∀ p k n, Q.priority (Q.set p k n) = Function.update (Q.priority p) k (some n)
  increment : ∀ p k n, Q.priority p k = some n →
    Q.priority (Q.increment p k) = Function.update (Q.priority p) k (some (n + 1))
  decrement : ∀ p k n, Q.priority p k = some (n + 1) →
    Q.priority (Q.decrement p k) = Function.update (Q.priority p) k (some n)
  top : ∀ p k n, Q.priority p k = some n → ∃ m, Q.priority p (Q.top p) = some m ∧ n ≤ m

/-- The tasks of one handle, `tail` of them at most. -/
structure QueueTailPair (T : Type) where
  tail : Nat
  queue : List T := []

/-- A queue for each handle, and their sizes as priorities. -/
structure TailTaskQueues (T P : Type) where
  queues : List (QueueTailPair T) := []
  queuesSizes : P
  tasks : Nat := 0

/-- What `TailTaskQueues` throws, and what it does without throwing. -/
inductive Error where
  /-- "Empty queues." -/
  | emptyQueues
  /-- Nothing is thrown: there is no such queue. -/
  | noQueue
  /-- Nothing is thrown: the front of an empty queue. -/
  | noTask
  deriving DecidableEq, Repr

namespace TailTaskQueues

variable (Q : KeyedPriorityQueue P)

/-- Its index is the number of the queues before. -/
def createQueue (s : TailTaskQueues T P) (tail : Nat) : TailTaskQueues T P :=
  { s with
    queues := s.queues ++ [{ tail }]
    queuesSizes := Q.set s.queuesSizes s.queues.length 0 }

/-- When the queue was full, its oldest task goes. -/
def enqueue (s : TailTaskQueues T P) (index : Nat) (task : T) :
    Except Error (TailTaskQueues T P) :=
  match s.queues[index]? with
  | none => .error .noQueue
  | some q =>
    let queue := q.queue ++ [task]
    if q.tail < queue.length then
      .ok { s with queues := s.queues.set index { q with queue := queue.drop 1 } }
    else
      .ok { s with
        queues := s.queues.set index { q with queue }
        tasks := s.tasks + 1
        queuesSizes := Q.increment s.queuesSizes index }

/-- The oldest task of the longest queue. -/
def pop (s : TailTaskQueues T P) : Except Error (TailTaskQueues T P × Nat × T) :=
  if s.tasks = 0 then .error .emptyQueues
  else
    let top := Q.top s.queuesSizes
    match s.queues[top]? with
    | none => .error .noQueue
    | some q =>
      match q.queue with
      | [] => .error .noTask
      | task :: queue =>
        .ok ({ s with
          queues := s.queues.set top { q with queue }
          tasks := s.tasks - 1
          queuesSizes := Q.decrement s.queuesSizes top }, top, task)

/-- The tasks of one queue go at once. -/
def clear (s : TailTaskQueues T P) (index : Nat) : Except Error (TailTaskQueues T P) :=
  match s.queues[index]? with
  | none => .error .noQueue
  | some q =>
    .ok { s with
      queues := s.queues.set index { q with queue := [] }
      tasks := s.tasks - q.queue.length
      queuesSizes := Q.set s.queuesSizes index 0 }

/-- The counter and the priorities are those of the queues. -/
structure Balanced (s : TailTaskQueues T P) : Prop where
  tasks : s.tasks = (s.queues.map (·.queue.length)).sum
  priority : ∀ i, Q.priority s.queuesSizes i = s.queues[i]?.map (·.queue.length)

variable {Q} {s s' : TailTaskQueues T P} {i : Nat} {q : QueueTailPair T} {t : T}

/-- The tasks are counted queue by queue. -/
theorem sum_set {l : List (QueueTailPair T)} (h : l[i]? = some q) (q' : QueueTailPair T) :
    ((l.set i q').map (·.queue.length)).sum + q.queue.length =
      (l.map (·.queue.length)).sum + q'.queue.length := by
  induction l generalizing i with
  | nil => cases h
  | cons a l ih =>
      cases i with
      | zero =>
          cases h
          simp only [List.set_cons_zero, List.map_cons, List.sum_cons]
          omega
      | succ i =>
          have hi := ih (i := i) h
          simp only [List.set_cons_succ, List.map_cons, List.sum_cons]
          omega

/-- A queue is replaced, and its priority is. -/
theorem Balanced.set_queue (h : s.Balanced Q) (hi : s.queues[i]? = some q) (q' : QueueTailPair T)
    {p : P} (hp : Q.priority p = Function.update (Q.priority s.queuesSizes) i
      (some q'.queue.length)) {n : Nat} (hn : n + q.queue.length = s.tasks + q'.queue.length) :
    Balanced Q { queues := s.queues.set i q', queuesSizes := p, tasks := n } where
  tasks := by
    have hsum := sum_set hi q'
    rw [← h.tasks] at hsum
    change n = ((s.queues.set i q').map (·.queue.length)).sum
    omega
  priority j := by
    change Q.priority p j = (s.queues.set i q')[j]?.map _
    obtain ⟨hlt, -⟩ := List.getElem?_eq_some_iff.mp hi
    rw [hp]
    by_cases hj : j = i
    · rw [hj, Function.update_self, List.getElem?_set_self hlt]
      rfl
    · rw [Function.update_of_ne hj, List.getElem?_set_ne (Ne.symm hj), h.priority]

theorem Balanced.createQueue (hQ : Q.Correct) (h : s.Balanced Q) (tail : Nat) :
    Balanced Q (s.createQueue Q tail) where
  tasks := by
    have hsum : ((s.queues ++ [({ tail := tail } : QueueTailPair T)]).map (·.queue.length)).sum =
        s.tasks := by
      rw [h.tasks, List.map_append, List.sum_append]
      rfl
    exact hsum.symm
  priority j := by
    change Q.priority (Q.set s.queuesSizes s.queues.length 0) j =
      (s.queues ++ [({ tail := tail } : QueueTailPair T)])[j]?.map (·.queue.length)
    rw [hQ.set]
    rcases Nat.lt_trichotomy j s.queues.length with hj | rfl | hj
    · rw [Function.update_of_ne hj.ne, List.getElem?_append_left hj, h.priority]
    · rw [Function.update_self, List.getElem?_concat_length]
      rfl
    · rw [Function.update_of_ne hj.ne', h.priority, List.getElem?_eq_none hj.le,
        List.getElem?_eq_none (by rw [List.length_append]; exact hj)]

/-- **What enqueuing does**: the task goes last, and the first one goes when there is no room. -/
theorem enqueue_cases (hQ : Q.Correct) (h : s.Balanced Q) (he : s.enqueue Q i t = .ok s') :
    s'.Balanced Q ∧ ∃ q, s.queues[i]? = some q ∧
      s'.queues = s.queues.set i { q with queue :=
        if q.tail < q.queue.length + 1 then (q.queue ++ [t]).drop 1 else q.queue ++ [t] } := by
  unfold enqueue at he
  split at he
  · cases he
  · next q hq =>
      have hprio : Q.priority s.queuesSizes i = some q.queue.length := by
        rw [h.priority, hq]
        rfl
      simp only [List.length_append, List.length_singleton] at he
      refine ⟨?_, q, hq, ?_⟩
      · split at he
        · cases he
          refine h.set_queue hq _ ?_ ?_
          · refine (Function.update_eq_self_iff.mpr ?_).symm
            simp [hprio]
          · simp
        · cases he
          refine h.set_queue hq _ ?_ ?_
          · rw [hQ.increment _ _ _ hprio, List.length_append]
            rfl
          · simp only [List.length_append, List.length_singleton]
            omega
      · split at he
        · next hlt => cases he; rw [if_pos hlt]
        · next hlt => cases he; rw [if_neg hlt]

/-- **What popping does**: it takes the oldest task of a longest queue, if there is a task. -/
theorem pop_cases (hQ : Q.Correct) (h : s.Balanced Q) :
    (s.tasks = 0 ∧ s.pop Q = .error .emptyQueues) ∨
      ∃ i q t rest s', s.queues[i]? = some q ∧ q.queue = t :: rest ∧
        (∀ (j : Nat) (q' : QueueTailPair T), s.queues[j]? = some q' →
          q'.queue.length ≤ q.queue.length) ∧
        s.pop Q = .ok (s', i, t) ∧ s'.queues = s.queues.set i { q with queue := rest } ∧
          s'.Balanced Q := by
  by_cases ht : s.tasks = 0
  · exact .inl ⟨ht, if_pos ht⟩
  · have hlongest : ∀ (j : Nat) (q' : QueueTailPair T), s.queues[j]? = some q' →
        ∃ q : QueueTailPair T, s.queues[Q.top s.queuesSizes]? = some q ∧
          q'.queue.length ≤ q.queue.length := by
      intro j q' hj
      obtain ⟨m, hm, hle⟩ := hQ.top s.queuesSizes j q'.queue.length (by rw [h.priority, hj]; rfl)
      rw [h.priority] at hm
      obtain ⟨q, hq, rfl⟩ := Option.map_eq_some_iff.mp hm
      exact ⟨q, hq, hle⟩
    -- some queue has a task
    obtain ⟨q₀, hmem, hpos⟩ : ∃ q ∈ s.queues, 0 < q.queue.length := by
      obtain ⟨n, hn, hpos⟩ :=
        List.sum_pos_iff_exists_pos_nat.mp (h.tasks ▸ Nat.pos_of_ne_zero ht)
      obtain ⟨q, hq, rfl⟩ := List.mem_map.mp hn
      exact ⟨q, hq, hpos⟩
    obtain ⟨j, hj⟩ := List.mem_iff_getElem?.mp hmem
    obtain ⟨q, hq, hle⟩ := hlongest j q₀ hj
    obtain ⟨t, rest, hqueue⟩ := List.exists_cons_of_ne_nil
      (List.ne_nil_of_length_pos (hpos.trans_le hle))
    let s' : TailTaskQueues T P :=
      { queues := s.queues.set (Q.top s.queuesSizes) { q with queue := rest }
        queuesSizes := Q.decrement s.queuesSizes (Q.top s.queuesSizes)
        tasks := s.tasks - 1 }
    refine .inr ⟨Q.top s.queuesSizes, q, t, rest, s', hq, hqueue, fun j q' hj => ?_, ?_, rfl, ?_⟩
    · obtain ⟨q'', hq'', hle⟩ := hlongest j q' hj
      obtain rfl := Option.some.inj (hq.symm.trans hq'')
      exact hle
    · exact (if_neg ht).trans (by simp only [hq, hqueue]; rfl)
    · refine h.set_queue hq _ ?_ ?_
      · refine hQ.decrement _ _ _ ?_
        rw [h.priority, hq, Option.map_some, hqueue]
        rfl
      · rw [hqueue, List.length_cons]
        change s.tasks - 1 + (rest.length + 1) = s.tasks + rest.length
        omega

/-- What `clear` does: one queue is emptied. -/
theorem clear_cases (hQ : Q.Correct) (h : s.Balanced Q) (hc : s.clear Q i = .ok s') :
    s'.Balanced Q ∧ ∃ q, s.queues[i]? = some q ∧
      s'.queues = s.queues.set i { q with queue := [] } := by
  unfold clear at hc
  split at hc
  · cases hc
  · next q hq =>
      cases hc
      refine ⟨h.set_queue hq _ (hQ.set ..) ?_, q, hq, rfl⟩
      have hsum := sum_set hq { q with queue := [] }
      rw [← h.tasks] at hsum
      change s.tasks - q.queue.length + q.queue.length = s.tasks + 0
      change _ = s.tasks + 0 at hsum
      omega

end TailTaskQueues

/-! ### Where the tasks went -/

/-- A task, and how many were enqueued to its queue before. -/
structure Task (T : Type) where
  serial : Nat
  f : T
  deriving DecidableEq, Repr

/-- How a task left its queue. -/
inductive Fate where
  | returned
  | dropped
  | cleared
  deriving DecidableEq, Repr

/-- A task that left its queue. -/
structure Leaving (T : Type) where
  index : Nat
  task : Task T
  fate : Fate
  deriving DecidableEq, Repr

/-- The queues, what was enqueued to each of them, and what left them, in order. -/
structure History (T P : Type) where
  queues : TailTaskQueues (Task T) P
  entered : Nat → List T := fun _ => []
  left : List (Leaving T) := []

/-- The calls on the queues. -/
inductive Op (T : Type) where
  | createQueue (tail : Nat)
  | enqueue (index : Nat) (f : T)
  | pop
  | clear (index : Nat)

/-- The tasks in the order they were enqueued. -/
def inOrder (l : List T) : List (Task T) := l.mapIdx Task.mk

/-- The task that enqueuing one more drops. -/
def overflow (q : QueueTailPair T) (t : T) : List T :=
  if q.tail < q.queue.length + 1 then (q.queue ++ [t]).take 1 else []

namespace History

variable (Q : KeyedPriorityQueue P)

/-- A call, logged: what entered and how it left. -/
def next (s : History T P) : Op T → Except Error (History T P)
  | .createQueue tail => .ok { s with queues := s.queues.createQueue Q tail }
  | .enqueue i f => do
    let task : Task T := ⟨(s.entered i).length, f⟩
    let queues ← s.queues.enqueue Q i task
    return {
      queues
      entered := Function.update s.entered i (s.entered i ++ [f])
      left := s.left ++ (s.queues.queues[i]?.toList.flatMap (overflow · task)).map (⟨i, ·, .dropped⟩) }
  | .pop => do
    let (queues, i, task) ← s.queues.pop Q
    return { s with queues, left := s.left ++ [⟨i, task, .returned⟩] }
  | .clear i => do
    let queues ← s.queues.clear Q i
    return { s with
      queues
      left := s.left ++ (s.queues.queues[i]?.toList.flatMap (·.queue)).map (⟨i, ·, .cleared⟩) }

/-- No queue. -/
def Init (s : History T P) : Prop := s = { queues := { queuesSizes := Q.empty } }

/-- A call that throws nothing. -/
def Step (s : History T P) (op : Op T) (s' : History T P) : Prop := s.next Q op = .ok s'

/-- The tasks that left a queue. -/
def leftFrom (s : History T P) (i : Nat) : List (Task T) :=
  (s.left.filter fun l => decide (l.index = i)).map (·.task)

/-- The tasks that left a queue and those in it are those enqueued, in order. -/
structure Sound (s : History T P) : Prop where
  balanced : s.queues.Balanced Q
  order : ∀ i q, s.queues.queues[i]? = some q → s.leftFrom i ++ q.queue = inOrder (s.entered i)
  later : ∀ i, s.queues.queues.length ≤ i → s.entered i = [] ∧ s.leftFrom i = []
  dropped : ∀ l ∈ s.left, l.fate = .dropped → ∃ q, s.queues.queues[l.index]? = some q ∧
    l.task.serial + q.tail < (s.entered l.index).length

variable {Q} {s s' : History T P} {op : Op T}

/-- What leaves is logged at the end. -/
theorem leftFrom_append (s : History T P) (ls : List (Leaving T)) (i : Nat) :
    leftFrom { s with left := s.left ++ ls } i =
      s.leftFrom i ++ (ls.filter fun l => decide (l.index = i)).map (·.task) := by
  rw [leftFrom, List.filter_append, List.map_append]
  rfl

/-- What leaves a queue is counted there, and nowhere else. -/
theorem leftFrom_leave (s : History T P) (ts : List (Task T)) (fate : Fate) (i j : Nat) :
    leftFrom { s with left := s.left ++ ts.map (⟨i, ·, fate⟩) } j =
      s.leftFrom j ++ if j = i then ts else [] := by
  rw [leftFrom_append]
  congr 1
  split
  · next hji =>
      rw [List.filter_eq_self.mpr, List.map_map]
      · exact List.map_id' ts
      · intro l hl
        obtain ⟨t, -, rfl⟩ := List.mem_map.mp hl
        exact decide_eq_true hji.symm
  · next hji =>
      rw [List.filter_eq_nil_iff.mpr, List.map_nil]
      intro l hl
      obtain ⟨t, -, rfl⟩ := List.mem_map.mp hl
      exact fun h => hji (of_decide_eq_true h).symm

/-- A task that enters gets the next serial. -/
theorem inOrder_concat (l : List T) (f : T) :
    inOrder (l ++ [f]) = inOrder l ++ [⟨l.length, f⟩] := by
  simp [inOrder, List.mapIdx_concat]

/-- A task has its rank among those enqueued. -/
theorem rank_of_inOrder {l r : List (Task T)} {t : Task T} {e : List T}
    (h : l ++ t :: r = inOrder e) : t.serial = l.length ∧ e[t.serial]? = some t.f := by
  have hget : (inOrder e)[l.length]? = some t := by
    rw [← h, List.getElem?_append_right le_rfl, Nat.sub_self]
    rfl
  rw [inOrder, List.getElem?_mapIdx] at hget
  obtain ⟨f, hf, rfl⟩ := Option.map_eq_some_iff.mp hget
  exact ⟨rfl, hf⟩

theorem length_inOrder (e : List T) : (inOrder e).length = e.length := List.length_mapIdx

/-- **One queue changes**: `out` leaves its front, and `fs` comes to its end. -/
theorem Sound.replace (h : s.Sound Q) {i : Nat} {q q' : QueueTailPair (Task T)}
    (hi : s.queues.queues[i]? = some q) {queues : TailTaskQueues (Task T) P}
    (hb : queues.Balanced Q) (hq : queues.queues = s.queues.queues.set i q')
    (htail : q'.tail = q.tail) {out new : List (Task T)} {fs : List T} {fate : Fate}
    (ho : out ++ q'.queue = q.queue ++ new)
    (hn : inOrder (s.entered i ++ fs) = inOrder (s.entered i) ++ new)
    (hd : fate = .dropped → ∀ t ∈ out, t.serial + q.tail < (s.entered i ++ fs).length) :
    Sound Q {
      queues
      entered := Function.update s.entered i (s.entered i ++ fs)
      left := s.left ++ out.map (⟨i, ·, fate⟩) } := by
  obtain ⟨hlt, -⟩ := List.getElem?_eq_some_iff.mp hi
  have hself : queues.queues[i]? = some q' := by rw [hq, List.getElem?_set_self hlt]
  have hother : ∀ j, j ≠ i → queues.queues[j]? = s.queues.queues[j]? := fun j hj => by
    rw [hq, List.getElem?_set_ne (Ne.symm hj)]
  have hleft : ∀ j, leftFrom { s with left := s.left ++ out.map (⟨i, ·, fate⟩) } j =
      s.leftFrom j ++ if j = i then out else [] := leftFrom_leave s out fate i
  refine ⟨hb, fun j q₁ hj => ?_, fun j hj => ?_, fun l hl hf => ?_⟩
  · change leftFrom { s with left := s.left ++ out.map (⟨i, ·, fate⟩) } j ++ _ =
      inOrder (Function.update s.entered i (s.entered i ++ fs) j)
    rw [hleft]
    by_cases hji : j = i
    · subst hji
      obtain rfl := Option.some.inj (hself.symm.trans hj)
      rw [if_pos rfl, List.append_assoc, ho, ← List.append_assoc, h.order j q hi,
        Function.update_self, hn]
    · rw [if_neg hji, List.append_nil, Function.update_of_ne hji]
      exact h.order j q₁ ((hother j hji).symm.trans hj)
  · change queues.queues.length ≤ j at hj
    rw [hq, List.length_set] at hj
    have hji : j ≠ i := fun hji => absurd hlt (Nat.not_lt.mpr (hji ▸ hj))
    change Function.update s.entered i (s.entered i ++ fs) j = [] ∧
      leftFrom { s with left := s.left ++ out.map (⟨i, ·, fate⟩) } j = []
    rw [hleft, if_neg hji, List.append_nil, Function.update_of_ne hji]
    exact h.later j hj
  · rcases List.mem_append.mp hl with hl | hl
    · obtain ⟨q₁, hq₁, hlate⟩ := h.dropped l hl hf
      by_cases hji : l.index = i
      · obtain rfl := Option.some.inj (hi.symm.trans (hji ▸ hq₁))
        refine ⟨q', hji ▸ hself, ?_⟩
        change _ < (Function.update s.entered i (s.entered i ++ fs) l.index).length
        rw [hji] at hlate ⊢
        rw [Function.update_self, htail, List.length_append]
        exact hlate.trans_le (Nat.le_add_right ..)
      · refine ⟨q₁, (hother _ hji).trans hq₁, ?_⟩
        change _ < (Function.update s.entered i (s.entered i ++ fs) l.index).length
        rw [Function.update_of_ne hji]
        exact hlate
    · obtain ⟨t, ht, rfl⟩ := List.mem_map.mp hl
      refine ⟨q', hself, ?_⟩
      change _ < (Function.update s.entered i (s.entered i ++ fs) i).length
      rw [Function.update_self, htail]
      exact hd hf t ht

/-- Nothing entered a new queue. -/
theorem Sound.createQueue (hQ : Q.Correct) (h : s.Sound Q) (tail : Nat) :
    Sound Q { s with queues := s.queues.createQueue Q tail } := by
  refine ⟨h.balanced.createQueue hQ tail, fun i q hi => ?_, fun i hi => ?_, fun l hl hf => ?_⟩
  · change (s.queues.queues ++ [({ tail := tail } : QueueTailPair (Task T))])[i]? = some q at hi
    rcases Nat.lt_or_ge i s.queues.queues.length with hlt | hge
    · rw [List.getElem?_append_left hlt] at hi
      exact h.order i q hi
    · obtain ⟨he, hl⟩ := h.later i hge
      change s.leftFrom i ++ q.queue = inOrder (s.entered i)
      rw [List.getElem?_append_right hge] at hi
      rw [he, hl, List.mem_singleton.mp (List.mem_of_getElem? hi)]
      rfl
  · change (s.queues.queues ++ [({ tail := tail } : QueueTailPair (Task T))]).length ≤ i at hi
    rw [List.length_append] at hi
    exact h.later i (Nat.le_of_succ_le hi)
  · obtain ⟨q, hq, hlt⟩ := h.dropped l hl hf
    obtain ⟨hl, -⟩ := List.getElem?_eq_some_iff.mp hq
    exact ⟨q, (List.getElem?_append_left hl).trans hq, hlt⟩

/-- The task enters at the end, and the oldest one may be dropped. -/
theorem Sound.enqueue (hQ : Q.Correct) (h : s.Sound Q) {i : Nat} {f : T}
    (hs : Step Q s (.enqueue i f) s') : s'.Sound Q := by
  obtain ⟨queues, hqueues, he⟩ := bind_eq_ok.mp hs
  cases he
  obtain ⟨hb, q, hq, hset⟩ := TailTaskQueues.enqueue_cases hQ h.balanced hqueues
  have hout : s.queues.queues[i]?.toList.flatMap (overflow · ⟨(s.entered i).length, f⟩) =
      overflow q ⟨(s.entered i).length, f⟩ := by
    rw [hq]
    exact List.flatMap_singleton ..
  rw [hout]
  refine h.replace hq hb hset rfl ?_ (inOrder_concat _ f) fun _ t ht => ?_
  · unfold overflow
    split
    · exact List.take_append_drop 1 _
    · rfl
  · unfold overflow at ht
    split at ht
    · next hlt =>
        -- the task dropped is the first of those in the queue, the new one included
        obtain ⟨x, r, hx⟩ := List.exists_cons_of_ne_nil
          (List.append_ne_nil_of_right_ne_nil q.queue (List.cons_ne_nil
            (⟨(s.entered i).length, f⟩ : Task T) []))
        rw [hx] at ht
        obtain rfl := List.mem_singleton.mp ht
        have horder : s.leftFrom i ++ t :: r = inOrder (s.entered i ++ [f]) := by
          rw [← hx, ← List.append_assoc, h.order i q hq, inOrder_concat]
        have hrank := (rank_of_inOrder horder).1
        have hlen := congrArg List.length horder
        rw [length_inOrder] at hlen
        have hr := congrArg List.length hx
        simp only [List.length_append, List.length_cons, List.length_nil] at hlen hr ⊢
        omega
    · cases ht

/-- The oldest task of its queue leaves. -/
theorem Sound.pop (hQ : Q.Correct) (h : s.Sound Q) (hs : Step Q s .pop s') : s'.Sound Q := by
  obtain ⟨r, hr, he⟩ := bind_eq_ok.mp hs
  cases he
  rcases TailTaskQueues.pop_cases hQ h.balanced with ⟨-, hpop⟩ | ⟨i, q, t, rest, queues, hq,
      hqueue, -, hpop, hset, hb⟩
  · rw [hpop] at hr
    cases hr
  · rw [hpop] at hr
    cases hr
    have ho : [t] ++ rest = q.queue ++ [] := by
      rw [hqueue, List.append_nil]
      rfl
    have hn : inOrder (s.entered i ++ []) = inOrder (s.entered i) ++ [] := by
      rw [List.append_nil, List.append_nil]
    have hd : Fate.returned = .dropped →
      ∀ t' ∈ [t], t'.serial + q.tail < (s.entered i ++ []).length := nofun
    have hsound := h.replace hq hb hset rfl ho hn hd
    rw [List.append_nil, Function.update_eq_self] at hsound
    exact hsound

/-- All the tasks of a queue leave at once. -/
theorem Sound.clear (hQ : Q.Correct) (h : s.Sound Q) {i : Nat} (hs : Step Q s (.clear i) s') :
    s'.Sound Q := by
  obtain ⟨queues, hqueues, he⟩ := bind_eq_ok.mp hs
  cases he
  obtain ⟨hb, q, hq, hset⟩ := TailTaskQueues.clear_cases hQ h.balanced hqueues
  have hout : s.queues.queues[i]?.toList.flatMap (·.queue) = q.queue := by
    rw [hq]
    exact List.flatMap_singleton ..
  rw [hout]
  have ho : q.queue ++ [] = q.queue ++ [] := rfl
  have hn : inOrder (s.entered i ++ []) = inOrder (s.entered i) ++ [] := by
    rw [List.append_nil, List.append_nil]
  have hd : Fate.cleared = .dropped →
    ∀ t ∈ q.queue, t.serial + q.tail < (s.entered i ++ []).length := nofun
  have hsound := h.replace hq hb hset rfl ho hn hd
  rw [List.append_nil, Function.update_eq_self] at hsound
  exact hsound

theorem sound_of_reachable (hQ : Q.Correct)
    (h : Reachable (Init Q) (Step Q) (Always (ι := Op T)) s) : s.Sound Q := by
  refine h.induct (P := Sound Q) ?_ fun s op s' _ hi _ hs => ?_
  · rintro s rfl
    refine ⟨⟨rfl, fun i => (hQ.empty i).trans rfl⟩, nofun, fun _ _ => ⟨rfl, rfl⟩, nofun⟩
  · cases op with
    | createQueue tail => cases hs; exact hi.createQueue hQ tail
    | enqueue i f => exact hi.enqueue hQ hs
    | pop => exact hi.pop hQ hs
    | clear i => exact hi.clear hQ hs

/-- The ranks of the tasks that `pop` returned from a queue. -/
def returned (s : History T P) (i : Nat) : List Nat :=
  (s.left.filter fun l => decide (l.index = i ∧ l.fate = .returned)).map (·.task.serial)

theorem serials_inOrder (e : List T) : (inOrder e).map (·.serial) = List.range e.length := by
  refine List.ext_getElem? fun k => ?_
  rw [List.getElem?_map, inOrder, List.getElem?_mapIdx, Option.map_map]
  rcases Nat.lt_or_ge k e.length with hk | hk
  · rw [List.getElem?_eq_getElem hk, List.getElem?_range hk]
    rfl
  · rw [List.getElem?_eq_none hk, List.getElem?_eq_none (by rw [List.length_range]; exact hk)]
    rfl

/-- What left a queue is the first part of what was enqueued there. -/
theorem Sound.leading (h : s.Sound Q) (i : Nat) : s.leftFrom i <+: inOrder (s.entered i) := by
  rcases Nat.lt_or_ge i s.queues.queues.length with hlt | hge
  · exact ⟨_, h.order i _ (List.getElem?_eq_getElem hlt)⟩
  · rw [(h.later i hge).2]
    exact ⟨_, List.nil_append _⟩

/-- The tasks of one queue are returned in the order in which they entered. -/
theorem Sound.increasing (h : s.Sound Q) (i : Nat) : (s.returned i).Pairwise (· < ·) := by
  have hleft : ((s.leftFrom i).map (·.serial)).Pairwise (· < ·) := by
    have hsub := (h.leading i).sublist.map (·.serial)
    rw [serials_inOrder] at hsub
    exact List.pairwise_lt_range.sublist hsub
  refine hleft.sublist ?_
  rw [returned, leftFrom, List.map_map]
  refine List.Sublist.map _ ?_
  exact List.monotone_filter_right s.left fun l hl => by
    simp only [decide_eq_true_eq] at hl ⊢
    exact hl.1

/-- What leaves a queue entered it. -/
theorem Sound.enqueued (h : s.Sound Q) {l : Leaving T} (hl : l ∈ s.left) :
    (s.entered l.index)[l.task.serial]? = some l.task.f := by
  have hmem : l.task ∈ s.leftFrom l.index :=
    List.mem_map_of_mem (List.mem_filter.mpr ⟨hl, decide_eq_true rfl⟩)
  obtain ⟨l₁, l₂, he⟩ := List.append_of_mem ((h.leading l.index).subset hmem)
  exact (rank_of_inOrder he.symm).2

/-- **The task queues**, in every run: the counter and the priorities are those of the queues;
`pop` returns the oldest task of a longest queue, and throws when there is none; what left a queue
and what is in it are the tasks enqueued, in order, so that each is returned once at most; and a
task dropped has at least `tail` younger ones in its queue's history. -/
theorem queues_of_reachable (hQ : Q.Correct)
    (h : Reachable (Init Q) (Step Q) (Always (ι := Op T)) s) :
    s.queues.Balanced Q ∧
      ((s.queues.tasks = 0 ∧ s.queues.pop Q = .error .emptyQueues) ∨
        ∃ i q t rest queues, s.queues.queues[i]? = some q ∧ q.queue = t :: rest ∧
          (∀ (j : Nat) (q' : QueueTailPair (Task T)), s.queues.queues[j]? = some q' →
            q'.queue.length ≤ q.queue.length) ∧
          s.queues.pop Q = .ok (queues, i, t) ∧ ∀ t' ∈ rest, t.serial < t'.serial) ∧
      (∀ i, (s.returned i).Pairwise (· < ·)) ∧
      (∀ l ∈ s.left, (s.entered l.index)[l.task.serial]? = some l.task.f) ∧
      (∀ i q, s.queues.queues[i]? = some q →
        s.leftFrom i ++ q.queue = inOrder (s.entered i)) ∧
      ∀ l ∈ s.left, l.fate = .dropped → ∃ q, s.queues.queues[l.index]? = some q ∧
        q.tail ≤ ((s.entered l.index).drop (l.task.serial + 1)).length := by
  have hs := sound_of_reachable hQ h
  refine ⟨hs.balanced, ?_, hs.increasing, fun l hl => hs.enqueued hl, hs.order,
    fun l hl hf => ?_⟩
  · rcases TailTaskQueues.pop_cases hQ hs.balanced with hpop | ⟨i, q, t, rest, queues, hq, hqueue,
      hlong, hpop, -, -⟩
    · exact .inl hpop
    · refine .inr ⟨i, q, t, rest, queues, hq, hqueue, hlong, hpop, fun t' ht' => ?_⟩
      have hserials := congrArg (List.map (·.serial)) (hs.order i q hq)
      rw [serials_inOrder, List.map_append, hqueue] at hserials
      have hsub := List.pairwise_lt_range (n := (s.entered i).length)
      rw [← hserials] at hsub
      exact (List.pairwise_cons.mp (List.pairwise_append.mp hsub).2.1).1 _
        (List.mem_map_of_mem ht')
  · obtain ⟨q, hq, hlt⟩ := hs.dropped l hl hf
    refine ⟨q, hq, ?_⟩
    rw [List.length_drop]
    omega

end History

/-! ### A priority queue -/

namespace Example

/-- The priorities set last come first. -/
def sizes : KeyedPriorityQueue (List (Nat × Nat)) where
  empty := []
  set p k n := (k, n) :: p
  increment p k := (k, (p.lookup k).getD 0 + 1) :: p
  decrement p k := (k, (p.lookup k).getD 0 - 1) :: p
  top p := ((p.map (·.1)).argmax fun k => (p.lookup k).getD 0).getD 0
  priority p k := p.lookup k

theorem lookup_cons_update (p : List (Nat × Nat)) (k n : Nat) :
    (fun j => ((k, n) :: p).lookup j) = Function.update (fun j => p.lookup j) k (some n) := by
  funext j
  by_cases hj : j = k
  · rw [hj, Function.update_self, List.lookup_cons_self]
  · rw [Function.update_of_ne hj, List.lookup_cons, beq_eq_false_iff_ne.mpr hj]

/-- A list of priorities is a priority queue. -/
theorem correct_sizes : sizes.Correct where
  empty _ := rfl
  set := lookup_cons_update
  increment p k n h := by
    have hp : p.lookup k = some n := h
    change (fun j => List.lookup j ((k, (p.lookup k).getD 0 + 1) :: p)) = _
    rw [lookup_cons_update, hp]
    rfl
  decrement p k n h := by
    have hp : p.lookup k = some (n + 1) := h
    change (fun j => List.lookup j ((k, (p.lookup k).getD 0 - 1) :: p)) = _
    rw [lookup_cons_update, hp]
    rfl
  top p k n h := by
    have hp : p.lookup k = some n := h
    have hk : k ∈ p.map (·.1) := Assoc.lookup_isSome.mp (by rw [hp]; rfl)
    cases ht : (p.map (·.1)).argmax fun k => (p.lookup k).getD 0 with
    | none => rw [List.argmax_eq_none.mp ht] at hk; cases hk
    | some m =>
        obtain ⟨w, hw⟩ := Option.isSome_iff_exists.mp
          (Assoc.lookup_isSome.mpr (List.argmax_mem ht))
        have hle := List.le_of_mem_argmax hk ht
        rw [hp, hw] at hle
        refine ⟨w, ?_, hle⟩
        change p.lookup (Option.getD _ 0) = some w
        rw [ht]
        exact hw

end Example

/-- Of two queues with a tail of 2, the first drops its first task, and its second is popped. -/
theorem queues_two : ∃ s : History Nat (List (Nat × Nat)),
    s.returned 0 = [1] ∧ s.queues.Balanced Example.sizes ∧
      ∀ l ∈ s.left, l.fate = .dropped → ∃ q, s.queues.queues[l.index]? = some q ∧
        q.tail ≤ ((s.entered l.index).drop (l.task.serial + 1)).length := by
  obtain ⟨s, hs, hsee⟩ : ∃ s : History Nat (List (Nat × Nat)),
      Reachable (History.Init Example.sizes) (History.Step Example.sizes) (fun _ _ => True) s ∧
        decide (s.returned 0 = [1]) = true :=
    exists_reachable _ rfl [.createQueue 2, .createQueue 2, .enqueue 0 7, .enqueue 0 8,
      .enqueue 1 5, .enqueue 0 9, .pop] (by decide +kernel)
  have h := History.queues_of_reachable Example.correct_sizes hs
  exact ⟨s, of_decide_eq_true hsee, h.1, h.2.2.2.2.2⟩

end Ubft.ThreadPool
