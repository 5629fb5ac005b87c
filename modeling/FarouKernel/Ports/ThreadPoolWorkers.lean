import FarouKernel.Ports.ThreadPoolModel
import FarouKernel.Verified.Runs

/-!
# How many workers the thread pool has

The constructor stores `max(1, min_threads)` and `max(min_threads, max_threads)`, and
then starts `min_threads` workers: inside the constructor the names are those of the
parameters.  With a parameter `min_threads` of 0 the two stored limits and the workers
do not agree; otherwise they do, and `adjust_workers` keeps the number of workers
between the limits.

`adjust_workers` removes workers by `std::remove_if` with a predicate that counts its
calls.  The algorithm may copy its predicate, and with it the count, at any time; what
is left of the workers is then not determined.  A copy counts at most as many calls as
there were, so at least `current_workers - remove_num` workers are kept; nothing more
is used here.  The count, an `int`, is taken to be exact.
-/

namespace FarouKernel.Ports.ThreadPool

open Verified Relation

variable {T E : Type}

namespace DynamicThreadPool

/-- The first branch of `adjust_workers` is taken; the product is a `size_t`. -/
def Grows (pool : DynamicThreadPool T E) : Prop :=
  pool.taskQueue.size > pool.workers.length * 2 % 2 ^ 64 ∧ pool.workers.length < pool.maxThreads

/-- The second branch is taken, if the first is not. -/
def Shrinks (pool : DynamicThreadPool T E) : Prop :=
  pool.taskQueue.size < pool.workers.length / 2 ∧ pool.workers.length > pool.minThreads

instance (pool : DynamicThreadPool T E) : Decidable pool.Grows :=
  inferInstanceAs (Decidable (_ ∧ _))

instance (pool : DynamicThreadPool T E) : Decidable pool.Shrinks :=
  inferInstanceAs (Decidable (_ ∧ _))

/-- `remove_num`. -/
def removeNum (pool : DynamicThreadPool T E) : Nat :=
  min (pool.workers.length - pool.minThreads) (pool.workers.length - pool.taskQueue.size / 2)

/-- The subtractions that `adjust_workers` evaluates, each with what it subtracts. -/
def subtractions (pool : DynamicThreadPool T E) : List (Nat × Nat) :=
  if pool.stopRequested = true then []
  else if pool.Grows then [(pool.maxThreads, pool.workers.length)]
  else if pool.Shrinks then
    [(pool.workers.length, pool.minThreads), (pool.workers.length, pool.taskQueue.size / 2),
      (pool.workers.length, pool.removeNum)]
  else []

/-- What `adjust_workers` may leave. -/
def AdjustWorkers (pool pool' : DynamicThreadPool T E) : Prop :=
  if pool.stopRequested = true then pool' = pool
  else if pool.Grows then
    pool' = pool.addWorkers
      (min (pool.taskQueue.size / 2) (pool.maxThreads - pool.workers.length))
  else if pool.Shrinks then
    ∃ kept, kept.Sublist pool.workers ∧ pool.workers.length - pool.removeNum ≤ kept.length ∧
      pool' = { pool with workers := kept }
  else pool' = pool

/-! ## The limits -/

/-- The stored limits are in order and the number of workers is between them. -/
structure Limits (pool : DynamicThreadPool T E) : Prop where
  one_le : 1 ≤ pool.minThreads
  min_le_max : pool.minThreads ≤ pool.maxThreads
  min_le_workers : pool.minThreads ≤ pool.workers.length
  workers_le_max : pool.workers.length ≤ pool.maxThreads

theorem length_addWorkersLoop {maxThreads n : Nat} {workers : List Nat}
    (h : workers.length ≤ maxThreads) :
    (addWorkersLoop maxThreads n workers).length = min (workers.length + n) maxThreads := by
  induction n generalizing workers with
  | zero =>
    show workers.length = _
    omega
  | succ n ih =>
    unfold addWorkersLoop
    split
    case isTrue hlt =>
        rw [ih (by rw [List.length_append, List.length_singleton]; omega), List.length_append,
          List.length_singleton]
        omega
    case isFalse => omega

theorem length_create (minThreads maxThreads : Nat) :
    (create minThreads maxThreads : DynamicThreadPool T E).workers.length = minThreads := by
  show (addWorkersLoop (max minThreads maxThreads) minThreads []).length = minThreads
  rw [length_addWorkersLoop (Nat.zero_le _), List.length_nil]
  omega

/-- The pool starts between its limits exactly if it was asked for a worker. -/
theorem limits_create_iff (minThreads maxThreads : Nat) :
    Limits (create minThreads maxThreads : DynamicThreadPool T E) ↔ 1 ≤ minThreads := by
  have hmin : (create minThreads maxThreads : DynamicThreadPool T E).minThreads =
      max 1 minThreads := rfl
  have hmax : (create minThreads maxThreads : DynamicThreadPool T E).maxThreads =
      max minThreads maxThreads := rfl
  constructor
  · intro h
    have hworkers := h.min_le_workers
    rw [length_create, hmin] at hworkers
    omega
  · intro h
    constructor
    · omega
    · omega
    · rw [length_create]
      omega
    · rw [length_create]
      omega

/-- Between its limits, `adjust_workers` keeps a pool there. -/
theorem Limits.adjustWorkers {pool pool' : DynamicThreadPool T E} (h : Limits pool)
    (hadjust : AdjustWorkers pool pool') : Limits pool' := by
  unfold AdjustWorkers at hadjust
  split at hadjust
  case isTrue => exact hadjust ▸ h
  case isFalse =>
      split at hadjust
      case isTrue =>
          have hlength := length_addWorkersLoop h.workers_le_max
            (n := min (pool.taskQueue.size / 2) (pool.maxThreads - pool.workers.length))
          have hmin := h.min_le_workers
          have hmax := h.min_le_max
          subst hadjust
          refine ⟨h.one_le, h.min_le_max, ?_, ?_⟩
          · show pool.minThreads ≤ (addWorkersLoop _ _ _).length
            omega
          · show (addWorkersLoop _ _ _).length ≤ pool.maxThreads
            omega
      case isFalse =>
          split at hadjust
          case isFalse => exact hadjust ▸ h
          case isTrue hshrink =>
              obtain ⟨kept, hsub, hkept, rfl⟩ := hadjust
              have hmin := h.min_le_workers
              refine ⟨h.one_le, h.min_le_max, ?_, Nat.le_trans hsub.length_le h.workers_le_max⟩
              show pool.minThreads ≤ kept.length
              unfold removeNum at hkept
              omega

/-- In every branch the conditions order the numbers that are subtracted. -/
theorem subtractions_le (pool : DynamicThreadPool T E) :
    ∀ s ∈ pool.subtractions, s.2 ≤ s.1 := by
  unfold subtractions
  split
  case isTrue => simp
  case isFalse =>
      split
      case isTrue hgrow => simpa using Nat.le_of_lt hgrow.2
      case isFalse =>
          split
          case isFalse => simp
          case isTrue hshrink =>
              have htasks := hshrink.1
              have hmin := hshrink.2
              simp only [List.forall_mem_cons, removeNum]
              refine ⟨?_, ?_, ?_, by simp⟩
              · exact Nat.le_of_lt hmin
              · omega
              · omega

/-- The pool when the queue, and perhaps the stop flag, have changed. -/
def withLoad (pool : DynamicThreadPool T E) (queue : LockFreeStealQueue T) (stop : Bool) :
    DynamicThreadPool T E :=
  { pool with taskQueue := queue, stopRequested := stop }

/-- A call of `adjust_workers` with any load. -/
def Adjusts (pool pool' : DynamicThreadPool T E) : Prop :=
  ∃ queue stop, AdjustWorkers (pool.withLoad queue stop) pool'

theorem Limits.adjusts {pool pool' : DynamicThreadPool T E} (h : Limits pool)
    (hadjust : Adjusts pool pool') : Limits pool' := by
  obtain ⟨queue, stop, hadjust⟩ := hadjust
  have hload : Limits (pool.withLoad queue stop) :=
    ⟨h.one_le, h.min_le_max, h.min_le_workers, h.workers_le_max⟩
  exact hload.adjustWorkers hadjust

/-- **The number of workers** stays between limits that are in order, and no subtraction
wraps, in every sequence of calls of `adjust_workers`, exactly if the pool was asked
for at least one worker. -/
theorem workers_within_limits_iff (minThreads maxThreads : Nat) :
    (∀ pool : DynamicThreadPool T E, ReflTransGen Adjusts (create minThreads maxThreads) pool →
      Limits pool ∧ ∀ queue stop, ∀ s ∈ (pool.withLoad queue stop).subtractions, s.2 ≤ s.1) ↔
      1 ≤ minThreads := by
  constructor
  · intro h
    exact (limits_create_iff minThreads maxThreads).mp (h _ .refl).1
  · intro h pool hrun
    refine ⟨?_, fun queue stop => subtractions_le _⟩
    apply run_invariant Limits (fun _ _ hlimits hstep => Limits.adjusts hlimits hstep) hrun
    exact (limits_create_iff minThreads maxThreads).mpr h

/-- A pool for no and at most 4 workers starts below its lower limit, and one for no and
at most none has its limits in the wrong order. -/
theorem no_worker_outside_limits :
    ¬ Limits (create 0 4 : DynamicThreadPool Nat Nat) ∧
      (create 0 0 : DynamicThreadPool Nat Nat).maxThreads <
        (create 0 0 : DynamicThreadPool Nat Nat).minThreads :=
  ⟨fun h => absurd h.min_le_workers (by decide), by decide⟩

end DynamicThreadPool

end FarouKernel.Ports.ThreadPool
