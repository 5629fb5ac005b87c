import FarouKernel.Verified.SlotTable
import FarouKernel.Verified.Word64

/-!
# `kernel/scheduler.c`: the task table

A translation of the scheduler's operations on its table of 64 task control
blocks.  Each operation runs under `task_list_lock` from the first access to the
table to the last, so it is one function on the scheduler.

What the environment decides is a parameter: whether `kmalloc` returned memory,
the code `pthread_create` returned and the handle it stored, and the values of
`rand`.  Log messages, the stop flag of the manager's loop and the lock itself
are left out.
-/

namespace FarouKernel.Ports.Sched

open Verified

def maxTasks : Nat := 64

def minPriority : Int := 1

def maxPriority : Int := 99

def taskNameLen : Nat := 32

inductive TaskState where
  | invalid
  | running
  | done
  deriving DecidableEq, Repr

/-- `TCB`.  The name is the string before its terminating zero. -/
structure Tcb where
  tid : Nat
  pthreadHandle : Nat
  state : TaskState
  priority : Int
  name : List UInt8
  deriving DecidableEq, Repr

/-- The slot is in use. -/
def Tcb.isLive (t : Tcb) : Bool := t.state ≠ .invalid

/-- The task in the slot is running. -/
def Tcb.isRunning (t : Tcb) : Bool := t.state = .running

/-- The task in the slot has finished. -/
def Tcb.isDone (t : Tcb) : Bool := t.state = .done

/-- `Scheduler`. -/
structure Scheduler where
  taskList : List Tcb
  taskCount : Nat
  nextTid : Nat
  sized : taskList.length = maxTasks

/-- The stored part of a name. -/
def storedName (name : List UInt8) : List UInt8 := name.take (taskNameLen - 1)

/-- What `kernel_create_thread` did: the number it returned, the number it gave
the thread it started, and whether it freed the start arguments. -/
structure CreateResult where
  tid : Nat
  started : Option Nat
  argsFreed : Bool
  deriving DecidableEq, Repr

/-- The control block `kernel_create_thread` leaves in the slot it found. -/
def Tcb.filled (t : Tcb) (tid handle : Nat) (priority : Int) (name : List UInt8) (rc : Int) :
    Tcb :=
  { t with
    tid := tid
    pthreadHandle := handle
    state := if rc ≠ 0 then .invalid else .running
    priority := priority
    name := storedName name }

/-- `kernel_create_thread`. -/
def kernelCreateThread (name : List UInt8) (priority : Int) (kmallocOk : Bool) (rc : Int)
    (handle : Nat) (s : Scheduler) : CreateResult × Scheduler :=
  if priority < minPriority ∨ priority > maxPriority then (⟨0, none, false⟩, s)
  else if kmallocOk = false then (⟨0, none, false⟩, s)
  else
    let tid := s.nextTid
    match h : updateFirst (fun t => t.state = .invalid)
        (fun t => t.filled tid handle priority name rc) s.taskList with
    | none => (⟨0, none, true⟩, s)
    | some taskList =>
      let s' : Scheduler :=
        { taskList := taskList
          taskCount := if rc ≠ 0 then s.taskCount else add64 s.taskCount 1
          nextTid := (tid + 1) % 2 ^ 32
          sized := (length_updateFirst h).trans s.sized }
      if rc ≠ 0 then (⟨0, none, true⟩, s') else (⟨tid, some tid, decide (tid = 0)⟩, s')

/-- A search over the table that rewrites the first slot found, and whether it
found one. -/
def Scheduler.rewriteFirst (s : Scheduler) (p : Tcb → Bool) (f : Tcb → Tcb) : Bool × Scheduler :=
  match h : updateFirst p f s.taskList with
  | none => (false, s)
  | some taskList =>
    (true, { s with taskList := taskList, sized := (length_updateFirst h).trans s.sized })

/-- The end of `thread_runner`: the task's slot becomes `DONE`.  The result says
whether the task found its control block. -/
def threadRunnerFinish (tid : Nat) (s : Scheduler) : Bool × Scheduler :=
  s.rewriteFirst (fun t => t.isLive && t.tid == tid) fun t => { t with state := .done }

/-- `kernel_set_priority`. -/
def kernelSetPriority (tid : Nat) (priority : Int) (s : Scheduler) : Scheduler :=
  (s.rewriteFirst (fun t => t.isRunning && t.tid == tid)
    fun t => { t with priority := priority }).2

/-- The second loop of `reap_tasks` on one slot. -/
def Tcb.cleared (t : Tcb) : Tcb := { t with state := .invalid, tid := 0 }

/-- `reap_tasks`: the running tasks move to the front, the other slots are
cleared, and the finished tasks leave the count. -/
def reapTasks (s : Scheduler) : Scheduler :=
  let r := compactLoop Tcb.isRunning Tcb.isDone maxTasks 0 0 0 s.taskList
  { taskList := r.1.mapIdx fun i t => if r.2.1 ≤ i then t.cleared else t
    taskCount := sub64 s.taskCount r.2.2
    nextTid := s.nextTid
    sized := by
      rw [List.length_mapIdx]
      exact length_compactLoop.trans s.sized }

/-- The manager's new priority for a running task.  The sum is exact here; a sum
outside the range of an `int` is undefined in C, and `Scheduler.DriftFits` excludes
it. -/
def driftedPriority (rand : Nat) (oldPrio : Int) : Int :=
  let newPrio := oldPrio + ((rand % 3 : Nat) - 1)
  let newPrio := if newPrio < minPriority then minPriority else newPrio
  if newPrio > maxPriority then maxPriority else newPrio

/-- The manager's first phase on one slot. -/
def Tcb.drifted (rand : Nat) (t : Tcb) : Tcb :=
  if t.isRunning = true then { t with priority := driftedPriority rand t.priority } else t

/-- One round of the loop of `manager_thread_entry`; `rand i` is the value drawn
for slot `i`. -/
def managerPass (rand : Nat → Nat) (s : Scheduler) : Scheduler :=
  reapTasks
    { s with
      taskList := s.taskList.mapIdx fun i t => t.drifted (rand i)
      sized := (List.length_mapIdx).trans s.sized }

/-- `initialize_scheduler`.  Only the state and the number of each slot are
written. -/
def initializeScheduler (s : Scheduler) : Scheduler where
  taskList := s.taskList.map Tcb.cleared
  taskCount := 0
  nextTid := 1
  sized := (List.length_map _).trans s.sized

end FarouKernel.Ports.Sched
