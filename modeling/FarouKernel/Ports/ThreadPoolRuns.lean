import FarouKernel.Ports.ThreadPoolModel
import Mathlib.Data.List.GetD
import Mathlib.Data.List.Perm.Basic

/-!
# Which queues of the thread pool are polled

A run interleaves the calls of `enqueue` by threads outside the pool with the
rounds of the workers, the thread behind `adjust_workers` and a shutdown.  It
breaks off where a worker uses an index past the end of `queues`.

The pool has as many workers as queues, and worker `i` uses queue `i + 1`.  So the
last worker has no queue, queue 0 has no worker, and a task that `push` places in
queue 0 stays there.  `adjust_workers` runs only after the pool was stopped, when it
returns at once; so this does not change during a run.
-/

namespace FarouKernel.Ports.ThreadPool

open DynamicThreadPool

variable {T E : Type}

/-! ## The queues -/

variable {i queueIndex : Nat} {queues : List (List T)}

namespace LockFreeStealQueue

/-- The loop moves tasks from the deque to the result. -/
theorem popBacks_perm (n : Nat) (result tasks : List T) :
    ((popBacks n result tasks).1 ++ (popBacks n result tasks).2).Perm (result ++ tasks) := by
  induction n generalizing result tasks with
  | zero => exact List.Perm.refl _
  | succ n ih =>
    rw [popBacks]
    cases hlast : tasks.getLast? with
    | none => exact List.Perm.refl _
    | some task =>
      obtain ⟨front, rfl⟩ := List.getLast?_eq_some_iff.mp hlast
      rw [List.dropLast_concat]
      refine (ih (result ++ [task]) front).trans ?_
      rw [List.append_assoc]
      exact List.Perm.append_left result List.perm_append_comm

/-- Rewriting one queue exchanges its tasks. -/
theorem flatten_set_perm {old : List T} (h : queues[i]? = some old) (new : List T) :
    (old ++ (queues.set i new).flatten).Perm (new ++ queues.flatten) := by
  induction queues generalizing i with
  | nil => simp at h
  | cons first rest ih =>
    cases i with
    | zero =>
      rw [List.getElem?_cons_zero, Option.some.injEq] at h
      subst h
      simp only [List.set_cons_zero, List.flatten_cons]
      exact List.perm_append_comm_assoc ..
    | succ i =>
      rw [List.getElem?_cons_succ] at h
      simp only [List.set_cons_succ, List.flatten_cons]
      calc (old ++ (first ++ (rest.set i new).flatten)).Perm
            (first ++ (old ++ (rest.set i new).flatten)) := List.perm_append_comm_assoc ..
        List.Perm _ (first ++ (new ++ rest.flatten)) := List.Perm.append_left first (ih h)
        List.Perm _ (new ++ (first ++ rest.flatten)) := List.perm_append_comm_assoc ..

theorem flatten_push_perm {tasks : List T} (h : queues[i]? = some tasks) (task : T) :
    (queues.set i (tasks ++ [task])).flatten.Perm (queues.flatten ++ [task]) := by
  have hset := flatten_set_perm h (tasks ++ [task])
  rw [List.append_assoc, List.perm_append_left_iff] at hset
  exact hset.trans List.perm_append_comm

theorem flatten_pop_perm {tasks result rest : List T} (h : queues[i]? = some tasks)
    (hperm : (result ++ rest).Perm tasks) :
    (result ++ (queues.set i rest).flatten).Perm queues.flatten := by
  have hset := (hperm.append_right _).trans (flatten_set_perm h rest)
  apply (List.perm_append_left_iff rest).mp
  refine List.Perm.trans ?_ hset
  rw [List.append_assoc]
  exact List.perm_append_comm_assoc ..

/-- **`push`** from outside the pool takes the next queue in turn. -/
theorem push_outside {q : LockFreeStealQueue T} (hpos : 0 < q.queues.length) (task : T) :
    ∃ tasks, q.queues[q.index % q.queues.length]? = some tasks ∧
      q.push 0 task = some
        ⟨q.queues.set (q.index % q.queues.length) (tasks ++ [task]), (q.index + 1) % 2 ^ 64⟩ := by
  have hlt := Nat.mod_lt q.index hpos
  refine ⟨_, List.getElem?_eq_getElem hlt, ?_⟩
  rw [push, select, if_pos rfl]
  simp only [List.getElem?_eq_getElem hlt]

/-- **`try_pop_bulk`** with a local queue takes tasks of that queue and of no other;
it is undefined exactly if there is no such queue. -/
theorem tryPopBulk_cases (q : LockFreeStealQueue T) {localIndex : Nat} (hlocal : localIndex ≠ 0)
    (maxTasks : Nat) :
    (q.queues.length ≤ localIndex ∧ q.tryPopBulk localIndex maxTasks = none) ∨
      ∃ tasks result rest, q.queues[localIndex]? = some tasks ∧
        (result ++ rest).Perm tasks ∧
        q.tryPopBulk localIndex maxTasks =
          some (result, { q with queues := q.queues.set localIndex rest }) := by
  by_cases hlt : localIndex < q.queues.length
  · right
    have hget := List.getElem?_eq_getElem hlt
    refine ⟨q.queues[localIndex], _, _, hget,
      popBacks_perm (min maxTasks q.queues[localIndex].length) [] q.queues[localIndex], ?_⟩
    rw [tryPopBulk, if_neg hlocal]
    simp only [hget]
  · left
    have hget : q.queues[localIndex]? = none := List.getElem?_eq_none (by omega)
    refine ⟨by omega, ?_⟩
    rw [tryPopBulk, if_neg hlocal]
    simp only [hget]

end LockFreeStealQueue

/-! ## Runs -/

/-- What can happen next: a call of `enqueue`, a round of a worker, a step of
`adjust_thread`, or one of `shutdown`. -/
inductive PoolEvent (T : Type) where
  | enqueue (task : T)
  | poll (queueIndex : Nat)
  | adjust
  | shutdown

/-- The pool, the tasks `push` placed, with their queues and in order, and the tasks
the workers ran. -/
structure PoolConfig (T E : Type) where
  pool : DynamicThreadPool T E
  placed : List (Nat × T)
  ran : List T

/-- The pool a constructor call leaves. -/
def PoolConfig.init (minThreads maxThreads : Nat) : PoolConfig T E :=
  ⟨create minThreads maxThreads, [], []⟩

/-- One event; `none` if it uses a queue that does not exist. -/
def PoolConfig.step (throws : T → Option E) (c : PoolConfig T E) :
    PoolEvent T → Option (PoolConfig T E)
  | .enqueue task =>
    (c.pool.enqueue 0 task).map fun (accepted, pool) =>
      { c with
        pool := pool
        placed :=
          if accepted = true then c.placed ++ [((c.pool.taskQueue.select 0).1, task)]
          else c.placed }
  | .poll queueIndex =>
    if queueIndex ∈ c.pool.workers then
      (c.pool.workerRound throws queueIndex).map fun (tasks, pool) =>
        { c with pool := pool, ran := c.ran ++ tasks }
    else some c
  | .adjust => some { c with pool := c.pool.adjustStep }
  | .shutdown => some { c with pool := c.pool.shutdownStep }

/-- A list of events. -/
def PoolConfig.run (throws : T → Option E) (c : PoolConfig T E) :
    List (PoolEvent T) → Option (PoolConfig T E)
  | [] => some c
  | event :: rest => (c.step throws event).bind fun d => d.run throws rest

/-- Some worker polls the queue. -/
def PoolConfig.Polled (c : PoolConfig T E) (i : Nat) : Prop :=
  ∃ queueIndex ∈ c.pool.workers, localIndex queueIndex = i

/-- Every worker has a queue, and every queue that was given a task has a worker. -/
def PoolConfig.Covered (c : PoolConfig T E) : Prop :=
  (∀ queueIndex ∈ c.pool.workers, localIndex queueIndex < c.pool.taskQueue.queues.length) ∧
    ∀ p ∈ c.placed, c.Polled p.1

/-- The threads behind `adjust_workers`: until the pool is stopped and `shutdown` has
left the barrier, the barrier waits for two arrivals and can get one. -/
structure ControlInv (pool : DynamicThreadPool T E) : Prop where
  stopped : pool.shutdownState ≠ .idle → pool.stopRequested = true
  barrier : pool.shutdownState ≠ .joining → pool.controlBarrier.expected = 2 ∧
    pool.controlBarrier.arrived = if pool.adjustState = .waiting then 1 else 0

/-- The part of the pool the control threads leave alone. -/
def SameWork (pool pool' : DynamicThreadPool T E) : Prop :=
  pool'.taskQueue = pool.taskQueue ∧ pool'.workers = pool.workers

/-- What holds along every run of a pool of `n` workers: tasks are placed on the queues in
turn, none leaves queue 0, and those that ran and those queued are the ones placed. -/
structure PoolInv (n : Nat) (c : PoolConfig T E) : Prop where
  workers : c.pool.workers = List.range n
  queues : c.pool.taskQueue.queues.length = max 1 n
  index : c.pool.taskQueue.index = c.placed.length % 2 ^ 64
  turns : ∀ k p, c.placed[k]? = some p → p.1 = k % 2 ^ 64 % max 1 n
  kept : c.pool.taskQueue.queues[0]? = some ((c.placed.filter (·.1 = 0)).map (·.2))
  conserved : (c.ran ++ c.pool.taskQueue.queues.flatten).Perm (c.placed.map (·.2))
  control : ControlInv c.pool

section

variable {n : Nat} {throws : T → Option E} {c d : PoolConfig T E}
  {pool : DynamicThreadPool T E}

/-! ### The control threads -/

/-- If the last arrival of a phase comes after the pool was stopped, then
`adjust_workers` does nothing. -/
theorem arrive_frame (pool : DynamicThreadPool T E)
    (hstop : pool.controlBarrier.arrived + 1 = pool.controlBarrier.expected →
      pool.stopRequested = true) :
    pool.arrive.2.stopRequested = pool.stopRequested ∧
      pool.arrive.2.shutdownState = pool.shutdownState ∧ SameWork pool pool.arrive.2 := by
  by_cases hlast : pool.controlBarrier.arrived + 1 = pool.controlBarrier.expected
  · rw [arrive, if_pos hlast, adjustWorkers, if_pos (by exact hstop hlast)]
    exact ⟨rfl, rfl, rfl, rfl⟩
  · rw [arrive, if_neg hlast]
    exact ⟨rfl, rfl, rfl, rfl⟩

theorem ControlInv.adjustStep (h : ControlInv pool) :
    ControlInv pool.adjustStep ∧ SameWork pool pool.adjustStep := by
  rw [DynamicThreadPool.adjustStep]
  cases hstate : pool.adjustState with
  | checking =>
    refine ⟨⟨h.stopped, fun hnot => ?_⟩, rfl, rfl⟩
    have hb := h.barrier hnot
    rw [hstate] at hb
    refine ⟨hb.1, hb.2.trans ?_⟩
    by_cases hstop : pool.adjustStop = true <;> simp [hstop]
  | arriving =>
    -- a phase ends here only if `shutdown` left the barrier before
    have hopen : pool.shutdownState ≠ .joining →
        pool.controlBarrier.expected = 2 ∧ pool.controlBarrier.arrived = 0 := by
      intro hnot
      have hb := h.barrier hnot
      rw [hstate] at hb
      exact hb
    have hjoin : pool.controlBarrier.arrived + 1 = pool.controlBarrier.expected →
        pool.shutdownState = .joining := by
      intro hlast
      by_contra hnot
      have hb := hopen hnot
      omega
    have hframe := arrive_frame pool fun hlast =>
      h.stopped (by rw [hjoin hlast]; decide)
    obtain ⟨hstop, hshut, hsame⟩ := hframe
    by_cases hlast : pool.controlBarrier.arrived + 1 = pool.controlBarrier.expected
    · have harrive : pool.arrive = (true, pool.arrive.2) := by rw [arrive, if_pos hlast]
      simp only
      rw [harrive]
      refine ⟨⟨?_, ?_⟩, hsame⟩
      · intro hnot
        exact hstop.trans (h.stopped (hshut ▸ hnot))
      · intro hnot
        exact absurd (hshut.trans (hjoin hlast)) hnot
    · simp only [arrive, if_neg hlast]
      refine ⟨⟨h.stopped, fun hnot => ?_⟩, rfl, rfl⟩
      have hb := hopen hnot
      refine ⟨hb.1, ?_⟩
      show pool.controlBarrier.arrived + 1 = 1
      rw [hb.2]
  | waiting => exact ⟨h, rfl, rfl⟩
  | done => exact ⟨h, rfl, rfl⟩

theorem ControlInv.shutdownStep (h : ControlInv pool) :
    ControlInv pool.shutdownStep ∧ SameWork pool pool.shutdownStep := by
  rw [DynamicThreadPool.shutdownStep]
  cases hstate : pool.shutdownState with
  | idle =>
    by_cases hstop : pool.stopRequested = true
    · simp only [if_pos hstop]
      exact ⟨h, rfl, rfl⟩
    · simp only [if_neg hstop]
      exact ⟨⟨fun _ => rfl, fun _ => h.barrier (by rw [hstate]; decide)⟩, rfl, rfl⟩
  | requesting =>
    have hstop := h.stopped (by rw [hstate]; decide)
    exact ⟨⟨fun _ => hstop, fun _ => h.barrier (by rw [hstate]; decide)⟩, rfl, rfl⟩
  | dropping =>
    have hstop := h.stopped (by rw [hstate]; decide)
    obtain ⟨hkept, _, hsame⟩ := arrive_frame { pool with controlBarrier :=
      { pool.controlBarrier with next := pool.controlBarrier.next - 1 } } fun _ => hstop
    rw [hstate] at hkept hsame
    exact ⟨⟨fun _ => hkept.trans hstop, fun hnot => absurd rfl hnot⟩, hsame⟩
  | joining => exact ⟨h, rfl, rfl⟩

/-! ### One event -/

theorem addWorkersLoop_range (maxThreads i k : Nat) (h : k + i ≤ maxThreads) :
    addWorkersLoop maxThreads i (List.range k) = List.range (k + i) := by
  induction i generalizing k with
  | zero => rfl
  | succ i ih =>
    have hadd : k + 1 + i = k + (i + 1) := by omega
    rw [addWorkersLoop, List.length_range, if_pos (by omega), ← List.range_succ,
      ih (k + 1) (by omega), hadd]

theorem poolInv_init (n maxThreads : Nat) :
    PoolInv n (PoolConfig.init n maxThreads : PoolConfig T E) where
  workers := by
    have hloop := addWorkersLoop_range (max n maxThreads) n 0 (by omega)
    rw [Nat.zero_add] at hloop
    exact hloop
  queues := by
    show (List.replicate (max 1 n) ([] : List T)).length = max 1 n
    exact List.length_replicate
  index := rfl
  turns k p hk := by
    simp [PoolConfig.init] at hk
  kept := by
    show (List.replicate (max 1 n) ([] : List T))[0]? = some []
    exact List.getElem?_replicate_of_lt (by omega)
  conserved := by
    show ([] ++ (List.replicate (max 1 n) ([] : List T)).flatten).Perm []
    rw [List.flatten_replicate_nil]
    exact List.Perm.refl _
  control := ⟨fun hne => absurd rfl hne, fun _ => ⟨rfl, rfl⟩⟩

/-- The control threads do not matter to the rest. -/
theorem PoolInv.withPool (h : PoolInv n c) (hcontrol : ControlInv pool)
    (hsame : SameWork c.pool pool) : PoolInv n { c with pool := pool } := by
  obtain ⟨hqueue, hworkers⟩ := hsame
  refine ⟨hworkers.trans h.workers, ?_, ?_, h.turns, ?_, ?_, hcontrol⟩
  all_goals
    simp only [hqueue]
  · exact h.queues
  · exact h.index
  · exact h.kept
  · exact h.conserved

/-- A stopped pool refuses a task; otherwise the task goes to the next queue. -/
theorem PoolInv.enqueue_cases (h : PoolInv n c) {task : T}
    (hstep : c.step throws (.enqueue task) = some d) :
    d = c ∨ ∃ i tasks, i = c.pool.taskQueue.index % max 1 n ∧
      c.pool.taskQueue.queues[i]? = some tasks ∧
      d = { c with
        pool := { c.pool with taskQueue :=
          ⟨c.pool.taskQueue.queues.set i (tasks ++ [task]),
            (c.pool.taskQueue.index + 1) % 2 ^ 64⟩ }
        placed := c.placed ++ [(i, task)] } := by
  rw [PoolConfig.step, DynamicThreadPool.enqueue] at hstep
  by_cases hstop : c.pool.stopRequested = true
  · rw [if_pos hstop] at hstep
    cases hstep
    exact .inl rfl
  · rw [if_neg hstop] at hstep
    have hlen := h.queues
    obtain ⟨tasks, hget, hpush⟩ :=
      LockFreeStealQueue.push_outside (q := c.pool.taskQueue) (by omega) task
    rw [hpush] at hstep
    cases hstep
    rw [hlen] at hget
    refine .inr ⟨_, tasks, rfl, hget, ?_⟩
    simp only [LockFreeStealQueue.select, if_true, hlen]

theorem PoolInv.enqueue (h : PoolInv n c) {task : T}
    (hstep : c.step throws (.enqueue task) = some d) : PoolInv n d := by
  rcases h.enqueue_cases hstep with rfl | ⟨i, tasks, hi, hget, rfl⟩
  · exact h
  constructor
  · exact h.workers
  · show (List.set _ _ _).length = max 1 n
    rw [List.length_set, h.queues]
  · show (c.pool.taskQueue.index + 1) % 2 ^ 64 = (c.placed ++ [_]).length % 2 ^ 64
    rw [List.length_append, List.length_singleton, h.index]
    omega
  · intro k p hk
    rw [List.getElem?_append] at hk
    by_cases hold : k < c.placed.length
    · rw [if_pos hold] at hk
      exact h.turns k p hk
    · rw [if_neg hold, List.getElem?_singleton] at hk
      have hk' : k = c.placed.length := by
        by_contra hne
        rw [if_neg (by omega)] at hk
        cases hk
      rw [if_pos (by omega), Option.some.injEq] at hk
      rw [← hk, hk', ← h.index]
      exact hi
  · show (c.pool.taskQueue.queues.set i _)[0]? = some (((c.placed ++ [(i, task)]).filter _).map _)
    rw [List.filter_append, List.map_append]
    by_cases hzero : i = 0
    · have hqueue := h.kept
      rw [hzero] at hget
      rw [hget, Option.some.injEq] at hqueue
      have hlen := h.queues
      rw [hzero, List.getElem?_set_self (by omega), hqueue]
      rfl
    · rw [List.getElem?_set_ne hzero, h.kept]
      simp [hzero]
  · show (c.ran ++ (List.set _ _ _).flatten).Perm ((c.placed ++ [(i, task)]).map _)
    rw [List.map_append]
    calc (c.ran ++ _).Perm (c.ran ++ (c.pool.taskQueue.queues.flatten ++ [task])) :=
          List.Perm.append_left _ (LockFreeStealQueue.flatten_push_perm hget task)
      List.Perm _ (c.placed.map (·.2) ++ [task]) := by
          rw [← List.append_assoc]
          exact List.Perm.append_right _ h.conserved
  · exact ⟨h.control.stopped, h.control.barrier⟩

theorem PoolInv.mem_workers (h : PoolInv n c) : queueIndex ∈ c.pool.workers ↔ queueIndex < n := by
  rw [h.workers, List.mem_range]

theorem localIndex_of_lt (hsize : n < 2 ^ 64) (hlt : queueIndex < n) :
    localIndex queueIndex = queueIndex + 1 :=
  Nat.mod_eq_of_lt (by omega)

/-- A worker takes tasks from its own queue only, if it has one. -/
theorem PoolInv.poll (h : PoolInv n c) (hsize : n < 2 ^ 64)
    (hstep : c.step throws (.poll queueIndex) = some d) : PoolInv n d := by
  rw [PoolConfig.step] at hstep
  by_cases hworker : queueIndex ∈ c.pool.workers
  · have hlocal := localIndex_of_lt hsize (h.mem_workers.mp hworker)
    rw [if_pos hworker, workerRound, hlocal] at hstep
    rcases c.pool.taskQueue.tryPopBulk_cases (Nat.succ_ne_zero queueIndex) 10 with
      ⟨_, hnone⟩ | ⟨tasks, result, rest, hget, hperm, hpop⟩
    · rw [hnone] at hstep
      cases hstep
    · rw [hpop] at hstep
      cases hstep
      refine ⟨h.workers, ?_, h.index, h.turns, ?_, ?_, h.control.stopped, h.control.barrier⟩
      · show (List.set _ _ _).length = max 1 n
        rw [List.length_set, h.queues]
      · show (List.set _ _ _)[0]? = _
        rw [List.getElem?_set_ne (Nat.succ_ne_zero queueIndex)]
        exact h.kept
      · show (c.ran ++ result ++ (List.set _ _ _).flatten).Perm _
        rw [List.append_assoc]
        exact (List.Perm.append_left _ (LockFreeStealQueue.flatten_pop_perm hget hperm)).trans
          h.conserved
  · rw [if_neg hworker] at hstep
    cases hstep
    exact h

theorem PoolInv.step (h : PoolInv n c) (hsize : n < 2 ^ 64) {event : PoolEvent T}
    (hstep : c.step throws event = some d) : PoolInv n d := by
  cases event with
  | enqueue task => exact h.enqueue hstep
  | poll queueIndex => exact h.poll hsize hstep
  | adjust =>
    cases hstep
    exact h.withPool h.control.adjustStep.1 h.control.adjustStep.2
  | shutdown =>
    cases hstep
    exact h.withPool h.control.shutdownStep.1 h.control.shutdownStep.2

theorem PoolInv.run (h : PoolInv n c) (hsize : n < 2 ^ 64)
    {events : List (PoolEvent T)} (hrun : c.run throws events = some d) : PoolInv n d := by
  induction events generalizing c with
  | nil =>
    cases hrun
    exact h
  | cons event rest ih =>
    rw [PoolConfig.run, Option.bind_eq_some_iff] at hrun
    obtain ⟨e, hstep, hrest⟩ := hrun
    exact ih (h.step hsize hstep) hrest

/-! ### Coverage -/

theorem PoolInv.polled_iff (h : PoolInv n c) (hsize : n < 2 ^ 64) : c.Polled i ↔ 0 < i ∧ i ≤ n := by
  constructor
  · rintro ⟨queueIndex, hworker, rfl⟩
    have hlt := h.mem_workers.mp hworker
    rw [localIndex_of_lt hsize hlt]
    omega
  · rintro ⟨hpos, hle⟩
    have hlt : i - 1 < n := by omega
    refine ⟨i - 1, h.mem_workers.mpr hlt, ?_⟩
    rw [localIndex_of_lt hsize hlt]
    omega

/-- The last worker has no queue. -/
theorem PoolInv.not_covered (h : PoolInv n c) (hn : 0 < n) (hsize : n < 2 ^ 64) :
    ¬ c.Covered := by
  rintro ⟨hinside, _⟩
  have hlt : n - 1 < n := by omega
  have hlast := hinside (n - 1) (h.mem_workers.mpr hlt)
  rw [localIndex_of_lt hsize hlt, h.queues] at hlast
  omega

end

/-- **Which workers have a queue, and which tasks a worker.**  In every run of a pool
of `n` workers, worker `i` uses a queue that exists exactly if `i + 1 < n`; the
task pushed as number `k` goes to queue `k % n`, where `k` counts modulo 2^64, and
that queue has a worker exactly if the remainder is not 0; and the tasks placed in
queue 0 are all still there.  So the pool is never covered, and the part of
coverage that is about tasks holds exactly before the first of them. -/
theorem pool_coverage_iff (n maxThreads : Nat) (hn : 0 < n) (hsize : n < 2 ^ 64)
    (throws : T → Option E) (events : List (PoolEvent T)) (c : PoolConfig T E)
    (hrun : (PoolConfig.init n maxThreads).run throws events = some c) :
    (∀ i ∈ c.pool.workers, localIndex i < c.pool.taskQueue.queues.length ↔ i + 1 < n) ∧
      (∀ k p, c.placed[k]? = some p →
        p.1 = k % 2 ^ 64 % n ∧ (c.Polled p.1 ↔ k % 2 ^ 64 % n ≠ 0)) ∧
      c.pool.taskQueue.queues[0]? = some ((c.placed.filter (·.1 = 0)).map (·.2)) ∧
      ¬ c.Covered ∧
      ((∀ p ∈ c.placed, c.Polled p.1) ↔ c.placed = []) := by
  have h : PoolInv n c := (poolInv_init n maxThreads).run hsize hrun
  have hmax : max 1 n = n := Nat.max_eq_right hn
  have hturn : ∀ k p, c.placed[k]? = some p →
      p.1 = k % 2 ^ 64 % n ∧ (c.Polled p.1 ↔ k % 2 ^ 64 % n ≠ 0) := by
    intro k p hk
    have hq := h.turns k p hk
    rw [hmax] at hq
    have hlt : k % 2 ^ 64 % n < n := Nat.mod_lt _ hn
    refine ⟨hq, ?_⟩
    rw [h.polled_iff hsize, hq]
    omega
  refine ⟨?_, hturn, h.kept, h.not_covered hn hsize, ?_⟩
  · intro i hi
    rw [localIndex_of_lt hsize (h.mem_workers.mp hi), h.queues, hmax]
  · constructor
    · intro hall
      cases hplaced : c.placed with
      | nil => rfl
      | cons p rest =>
        -- the first task went to queue 0
        have hfirst : c.placed[0]? = some p := by rw [hplaced, List.getElem?_cons_zero]
        have hpolled := hall p (hplaced ▸ List.mem_cons_self)
        rw [(hturn 0 p hfirst).2, Nat.zero_mod] at hpolled
        exact absurd rfl hpolled
    · intro hnone p hp
      rw [hnone] at hp
      exact absurd hp List.not_mem_nil

/-- **No task is lost or run twice**, whatever the number of workers. -/
theorem pool_tasks_conserved (n maxThreads : Nat) (hsize : n < 2 ^ 64)
    (throws : T → Option E) (events : List (PoolEvent T)) (c : PoolConfig T E)
    (hrun : (PoolConfig.init n maxThreads).run throws events = some c) :
    (c.ran ++ c.pool.taskQueue.queues.flatten).Perm (c.placed.map (·.2)) :=
  ((poolInv_init n maxThreads).run hsize hrun).conserved

/-- Two workers: the second task is run, the first waits, and a stopped pool refuses the
third. -/
theorem pool_tasks_conserved_two :
    ∃ c : PoolConfig Nat Nat, (PoolConfig.init 2 4).run (fun _ => none)
        [.enqueue 7, .enqueue 8, .adjust, .poll 0, .shutdown, .enqueue 9] = some c ∧
      c.ran = [8] ∧ ([8] ++ c.pool.taskQueue.queues.flatten).Perm [7, 8] := by
  have hrun : ∃ c : PoolConfig Nat Nat, (PoolConfig.init 2 4).run (fun _ => none)
        [.enqueue 7, .enqueue 8, .adjust, .poll 0, .shutdown, .enqueue 9] = some c ∧
      c.ran = [8] ∧ c.placed = [(0, 7), (1, 8)] := ⟨_, rfl, rfl, rfl⟩
  obtain ⟨c, hrun, hran, hplaced⟩ := hrun
  have hperm := pool_tasks_conserved 2 4 (by decide) _ _ c hrun
  rw [hran, hplaced] at hperm
  exact ⟨c, hrun, hran, hperm⟩

/-- A pool of one worker and one task. -/
def oneTask : PoolConfig Nat Nat :=
  ⟨{ (create 1 4 : DynamicThreadPool Nat Nat) with taskQueue := ⟨[[7]], 1⟩ }, [(0, 7)], []⟩

theorem oneTask_run :
    (PoolConfig.init 1 4).run (fun _ => none) [.enqueue 7] = some oneTask := rfl

/-- In a pool of four workers, the second task has a worker. -/
theorem pool_coverage_second :
    ∃ c : PoolConfig Nat Nat,
      (PoolConfig.init 4 4).run (fun _ => none) [.enqueue 7, .poll 0, .enqueue 8] = some c ∧
        c.Polled 1 := by
  have hrun : ∃ c : PoolConfig Nat Nat, (PoolConfig.init 4 4).run (fun _ => none)
      [.enqueue 7, .poll 0, .enqueue 8] = some c ∧ c.placed = [(0, 7), (1, 8)] :=
    ⟨_, rfl, rfl⟩
  obtain ⟨c, hrun, hplaced⟩ := hrun
  obtain ⟨_, hturn, _⟩ := pool_coverage_iff 4 4 (by decide) (by decide) _ _ c hrun
  have hsecond : c.placed[1]? = some (1, 8) := by rw [hplaced]; rfl
  exact ⟨c, hrun, (hturn 1 (1, 8) hsecond).2.mpr (by decide)⟩

/-- The only task of a pool of one worker is in a queue no worker polls, and the
worker uses a queue that does not exist. -/
theorem pool_one_worker_uncovered :
    (PoolConfig.init 1 4).run (fun _ => none) [.enqueue 7] = some oneTask ∧
      oneTask.placed = [(0, 7)] ∧ ¬ oneTask.Polled 0 ∧
      oneTask.step (fun _ => none) (.poll 0) = none := by
  refine ⟨oneTask_run, rfl, ?_, rfl⟩
  rintro ⟨queueIndex, hworker, hzero⟩
  rw [List.mem_singleton.mp hworker] at hzero
  exact absurd hzero (by decide)

end FarouKernel.Ports.ThreadPool
