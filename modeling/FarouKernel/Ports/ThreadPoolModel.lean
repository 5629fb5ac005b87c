import Mathlib.Algebra.Ring.Nat
import Mathlib.Data.List.Basic
import Mathlib.Tactic.Common

/-!
# `kernel/main.c`: the thread pool

A translation of `LockFreeStealQueue` and `DynamicThreadPool`.  The source keeps
the local queue of a thread in a thread-local variable, `local_index`, which is 0
in threads outside the pool; the translation reads the two spellings
`LockFreeStealQueue<void()>` and `LockFreeStealQueue<std::function<void()>>` as
one class, and passes the variable to the functions that read it.  The functions
lock the deques they use, so each of them is one step.

An index past the end of `queues` is undefined behaviour of `operator[]`; the
result is then `none`.
-/

namespace FarouKernel.Ports.ThreadPool

variable {T E : Type}

/-! ## The queues -/

/-- `LockFreeStealQueue`; a deque is the list of its tasks from front to back. -/
structure LockFreeStealQueue (T : Type) where
  queues : List (List T)
  index : Nat

namespace LockFreeStealQueue

/-- The constructor. -/
def ofSize (numQueues : Nat) : LockFreeStealQueue T :=
  ⟨List.replicate numQueues [], 0⟩

/-- The queue `push` selects, and the counter `index` afterwards. -/
def select (q : LockFreeStealQueue T) (localIndex : Nat) : Nat × Nat :=
  if localIndex = 0 then (q.index % q.queues.length, (q.index + 1) % 2 ^ 64)
  else (localIndex, q.index)

/-- `push`. -/
def push (q : LockFreeStealQueue T) (localIndex : Nat) (task : T) :
    Option (LockFreeStealQueue T) :=
  let (i, index) := q.select localIndex
  match q.queues[i]? with
  | none => none
  | some tasks => some ⟨q.queues.set i (tasks ++ [task]), index⟩

/-- The loop of `try_pop` over the other queues, from queue `j` on; `i` is the local
one. -/
def steal (i : Nat) : Nat → List (List T) → Option (T × List (List T))
  | _, [] => none
  | j, tasks :: rest =>
    if j = i then (steal i (j + 1) rest).map fun r => (r.1, tasks :: r.2)
    else
      match tasks with
      | [] => (steal i (j + 1) rest).map fun r => (r.1, [] :: r.2)
      | task :: tasks => some (task, tasks :: rest)

/-- `try_pop`: the newest task of the local queue, or the oldest one of another. -/
def tryPop (q : LockFreeStealQueue T) (localIndex : Nat) :
    Option (Option T × LockFreeStealQueue T) :=
  if localIndex = 0 then some (none, q)
  else
    match q.queues[localIndex]? with
    | none => none
    | some tasks =>
      match tasks.getLast? with
      | some task =>
        some (some task, { q with queues := q.queues.set localIndex tasks.dropLast })
      | none =>
        match steal localIndex 0 q.queues with
        | some (task, queues) => some (some task, { q with queues := queues })
        | none => some (none, q)

/-- The loop of `try_pop_bulk`. -/
def popBacks : Nat → List T → List T → List T × List T
  | 0, result, tasks => (result, tasks)
  | j + 1, result, tasks =>
    match tasks.getLast? with
    | none => (result, tasks)
    | some task => popBacks j (result ++ [task]) tasks.dropLast

/-- `try_pop_bulk` into an empty vector; it reports whether the vector is nonempty
afterwards. -/
def tryPopBulk (q : LockFreeStealQueue T) (localIndex maxTasks : Nat) :
    Option (List T × LockFreeStealQueue T) :=
  if localIndex = 0 then some ([], q)
  else
    match q.queues[localIndex]? with
    | none => none
    | some tasks =>
      let n := min maxTasks tasks.length
      let (result, tasks) := popBacks n [] tasks
      some (result, { q with queues := q.queues.set localIndex tasks })

def size (q : LockFreeStealQueue T) : Nat :=
  q.queues.foldl (fun total tasks => total + tasks.length) 0

end LockFreeStealQueue

/-! ## The pool -/

/-- `std::barrier`: the arrivals the phase waits for, those of the next phase, and
the arrivals so far. -/
structure Barrier where
  expected : Nat
  next : Nat
  arrived : Nat

/-- Where `adjust_thread` is in its loop. -/
inductive AdjustState where
  | checking
  | arriving
  | waiting
  | done
deriving DecidableEq

/-- Where a call of `shutdown` is. -/
inductive ShutdownState where
  | idle
  | requesting
  | dropping
  | joining
deriving DecidableEq

/-- `DynamicThreadPool`; a worker is the `queue_index` its thread was given. -/
structure DynamicThreadPool (T E : Type) where
  minThreads : Nat
  maxThreads : Nat
  stopRequested : Bool
  taskQueue : LockFreeStealQueue T
  workers : List Nat
  exceptions : List E
  controlBarrier : Barrier
  adjustState : AdjustState
  adjustStop : Bool
  shutdownState : ShutdownState

namespace DynamicThreadPool

/-- The loop of `add_workers`. -/
def addWorkersLoop (maxThreads : Nat) : Nat → List Nat → List Nat
  | 0, workers => workers
  | i + 1, workers =>
    if workers.length < maxThreads then
      addWorkersLoop maxThreads i (workers ++ [workers.length])
    else workers

/-- `add_workers`. -/
def addWorkers (pool : DynamicThreadPool T E) (n : Nat) : DynamicThreadPool T E :=
  { pool with workers := addWorkersLoop pool.maxThreads n pool.workers }

/-- The constructor. -/
def create (minThreads maxThreads : Nat) : DynamicThreadPool T E :=
  addWorkers
    { minThreads := max 1 minThreads
      maxThreads := max minThreads maxThreads
      stopRequested := false
      taskQueue := LockFreeStealQueue.ofSize (max 1 minThreads)
      workers := []
      exceptions := []
      controlBarrier := ⟨2, 2, 0⟩
      adjustState := .checking
      adjustStop := false
      shutdownState := .idle } minThreads

/-- `adjust_workers`. -/
def adjustWorkers (pool : DynamicThreadPool T E) : DynamicThreadPool T E :=
  if pool.stopRequested = true then pool
  else
    let currentTasks := pool.taskQueue.size
    let currentWorkers := pool.workers.length
    if currentTasks > currentWorkers * 2 ∧ currentWorkers < pool.maxThreads then
      pool.addWorkers (min (currentTasks / 2) (pool.maxThreads - currentWorkers))
    else if currentTasks < currentWorkers / 2 ∧ currentWorkers > pool.minThreads then
      let removeNum :=
        min (currentWorkers - pool.minThreads) (currentWorkers - currentTasks / 2)
      { pool with workers := pool.workers.take (currentWorkers - removeNum) }
    else pool

/-- One arrival at `control_barrier`.  The last arrival of a phase runs
`adjust_workers` and lets the waiting thread go on. -/
def arrive (pool : DynamicThreadPool T E) : Bool × DynamicThreadPool T E :=
  let barrier := pool.controlBarrier
  if barrier.arrived + 1 = barrier.expected then
    (true,
      adjustWorkers
        { pool with
          controlBarrier := { barrier with expected := barrier.next, arrived := 0 }
          adjustState := if pool.adjustState = .waiting then .checking else pool.adjustState })
  else (false, { pool with controlBarrier := { barrier with arrived := barrier.arrived + 1 } })

/-- One step of `adjust_thread`. -/
def adjustStep (pool : DynamicThreadPool T E) : DynamicThreadPool T E :=
  match pool.adjustState with
  | .checking => { pool with adjustState := if pool.adjustStop = true then .done else .arriving }
  | .arriving =>
    match pool.arrive with
    | (true, pool) => { pool with adjustState := .checking }
    | (false, pool) => { pool with adjustState := .waiting }
  | .waiting => pool
  | .done => pool

/-- One step of `shutdown`.  In its last state it waits for workers that nobody
asked to stop. -/
def shutdownStep (pool : DynamicThreadPool T E) : DynamicThreadPool T E :=
  match pool.shutdownState with
  | .idle =>
    if pool.stopRequested = true then pool
    else { pool with stopRequested := true, shutdownState := .requesting }
  | .requesting => { pool with adjustStop := true, shutdownState := .dropping }
  | .dropping =>
    let barrier := pool.controlBarrier
    { (arrive { pool with controlBarrier := { barrier with next := barrier.next - 1 } }).2 with
      shutdownState := .joining }
  | .joining => pool

/-- `enqueue`; the result says whether the task was accepted. -/
def enqueue (pool : DynamicThreadPool T E) (localIndex : Nat) (task : T) :
    Option (Bool × DynamicThreadPool T E) :=
  if pool.stopRequested = true then some (false, pool)
  else (pool.taskQueue.push localIndex task).map fun q => (true, { pool with taskQueue := q })

/-- The value `worker_main` gives to `local_index`. -/
def localIndex (queueIndex : Nat) : Nat := (queueIndex + 1) % 2 ^ 64

/-- One round of the loop of `worker_main`, with the tasks it ran; `throws` is the
exception a task ends with. -/
def workerRound (throws : T → Option E) (pool : DynamicThreadPool T E) (queueIndex : Nat) :
    Option (List T × DynamicThreadPool T E) :=
  (pool.taskQueue.tryPopBulk (localIndex queueIndex) 10).map fun (tasks, q) =>
    (tasks,
      { pool with taskQueue := q, exceptions := pool.exceptions ++ tasks.filterMap throws })

end DynamicThreadPool

end FarouKernel.Ports.ThreadPool
