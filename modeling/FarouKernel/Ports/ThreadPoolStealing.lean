import FarouKernel.Ports.ThreadPoolModel
import Mathlib.Logic.Function.Basic

/-!
# `LockFreeStealQueue` under all interleavings

Threads call `push`, `try_pop` and `try_pop_bulk` concurrently.  A step of a thread is
one critical section, or the choice of a queue by `push`; between two steps of a thread
the others do what they like, also between two queues that `try_pop` looks at.

Pushed tasks are numbered in the order in which they enter the queues; the numbers tell
equal tasks apart, and the model looks at them nowhere.  The logs `pushed` and `handed`
say which tasks went in and which came out.
-/

namespace FarouKernel.Ports.ThreadPool

variable {Θ T : Type}

/-- Where a thread is in a call. -/
inductive CallState (T : Type) where
  | idle
  /-- `push` has chosen queue `i`. -/
  | pushing (i : Nat) (task : T)
  /-- `try_pop` has not yet looked at its own queue. -/
  | popping
  /-- `try_pop` is in its loop, at queue `j`. -/
  | scanning (j : Nat)
  | bulkPopping (maxTasks : Nat)

/-- What a thread may do: call a function, or go on with its call. -/
inductive Action (T : Type) where
  | push (task : T)
  | tryPop
  | tryPopBulk (maxTasks : Nat)
  | advance

/-- What a step hands out, and from which queue. -/
inductive Taken (T : Type) where
  | nothing
  | own (i : Nat) (tasks : List (Nat × T))
  | stolen (j : Nat) (task : Nat × T)

/-- The queues, the calls of the threads, and the logs. -/
structure StealConfig (Θ T : Type) where
  queue : LockFreeStealQueue (Nat × T)
  calls : Θ → CallState T
  pushed : List (Nat × T)
  handed : List (Nat × T)

namespace StealConfig

/-- New queues, and no thread in a call. -/
def init (numQueues : Nat) : StealConfig Θ T :=
  ⟨.ofSize numQueues, fun _ => .idle, [], []⟩

variable [DecidableEq Θ]

/-- Thread `t` goes on at `state`. -/
def goto (c : StealConfig Θ T) (t : Θ) (state : CallState T) : StealConfig Θ T :=
  { c with calls := Function.update c.calls t state }

/-- Thread `t` returns with the tasks `taken` and leaves `left` in queue `i`. -/
def hand (c : StealConfig Θ T) (t : Θ) (i : Nat) (left taken : List (Nat × T)) :
    StealConfig Θ T :=
  { c with
    queue := { c.queue with queues := c.queue.queues.set i left }
    calls := Function.update c.calls t .idle
    handed := c.handed ++ taken }

/-- The next critical section of thread `t`; `none` if it is in no call, or if it uses an
index past the end of `queues`. -/
def advance (localIndex : Nat) (c : StealConfig Θ T) (t : Θ) :
    Option (Taken T × StealConfig Θ T) :=
  match c.calls t with
  | .idle => none
  | .pushing i task =>
    match c.queue.queues[i]? with
    | none => none
    | some tasks =>
      let numbered := (c.pushed.length, task)
      some (.nothing,
        { c with
          queue := { c.queue with queues := c.queue.queues.set i (tasks ++ [numbered]) }
          calls := Function.update c.calls t .idle
          pushed := c.pushed ++ [numbered] })
  | .popping =>
    match c.queue.queues[localIndex]? with
    | none => none
    | some tasks =>
      match tasks.getLast? with
      | some task => some (.own localIndex [task], c.hand t localIndex tasks.dropLast [task])
      | none => some (.nothing, c.goto t (.scanning 0))
  | .scanning j =>
    match c.queue.queues[j]? with
    | none => some (.nothing, c.goto t .idle)
    | some tasks =>
      if j = localIndex then some (.nothing, c.goto t (.scanning (j + 1)))
      else
        match tasks with
        | [] => some (.nothing, c.goto t (.scanning (j + 1)))
        | task :: tasks => some (.stolen j task, c.hand t j tasks [task])
  | .bulkPopping maxTasks =>
    match c.queue.queues[localIndex]? with
    | none => none
    | some tasks =>
      let (result, left) := LockFreeStealQueue.popBacks (min maxTasks tasks.length) [] tasks
      some (.own localIndex result, c.hand t localIndex left result)

/-- A step of thread `t`; a function is called by a thread that is in no call. -/
def step (localIndex : Θ → Nat) (c : StealConfig Θ T) (t : Θ) (action : Action T) :
    Option (Taken T × StealConfig Θ T) :=
  match action, c.calls t with
  | .advance, _ => c.advance (localIndex t) t
  | .push task, .idle =>
    let (i, index) := c.queue.select (localIndex t)
    some (.nothing, { c.goto t (.pushing i task) with queue := { c.queue with index := index } })
  | .tryPop, .idle =>
    if localIndex t = 0 then some (.nothing, c) else some (.nothing, c.goto t .popping)
  | .tryPopBulk maxTasks, .idle =>
    if localIndex t = 0 then some (.nothing, c)
    else some (.nothing, c.goto t (.bulkPopping maxTasks))
  | _, _ => none

/-- The configuration after a schedule of steps. -/
def run (localIndex : Θ → Nat) (c : StealConfig Θ T) :
    List (Θ × Action T) → Option (StealConfig Θ T)
  | [] => some c
  | (t, action) :: schedule =>
    match c.step localIndex t action with
    | none => none
    | some (_, c') => c'.run localIndex schedule

end StealConfig

end FarouKernel.Ports.ThreadPool
