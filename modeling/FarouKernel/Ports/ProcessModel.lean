import Mathlib.Algebra.Order.Ring.Int
import Mathlib.Logic.Function.Basic
import Mathlib.Tactic.Common

/-!
# `kernel/processes.h`: the process table

A translation of the calls of `ProcessManager` that add, remove, terminate, suspend and
resume a process.  Each call holds the mutex of the manager, so a call is one step.  The
system clock and the current directory are read by the calls and given to them here.

`generateUniquePid` counts in a static variable; it is a field of the manager here.
-/

namespace FarouKernel.Ports.Process

structure ProcessInfo where
  pid : Int
  name : String
  running : Bool
  cpuTime : Nat
  wallClockTime : Nat
  startTime : Int
  endTime : Int
  owner : String
  priority : Int
  status : Int
  numThreads : Int
  commandLineArgs : List String
  workingDirectory : String
  environmentVariables : List (String × String)
  parentProcess : Int
  childProcesses : List Int
  memoryUsage : Nat
deriving DecidableEq

/-- `ProcessManager`, with the static variable `nextPid`. -/
structure ProcessManager where
  processMap : Int → Option ProcessInfo
  nextPid : Int

/-- A manager at the start of the program. -/
def ProcessManager.start : ProcessManager := ⟨fun _ => none, 1⟩

def getCurrentUser : String := "current_user"

def getCurrentEnvironment : List (String × String) := [("PATH", "/usr/bin:/bin")]

def getCurrentProcessId : Int := 0

namespace ProcessManager

/-- `generateUniquePid`: the pid and the counter afterwards, an `int`. -/
def generateUniquePid (nextPid : Int) : Int × Int :=
  (nextPid, if nextPid = 2 ^ 31 - 1 then -2 ^ 31 else nextPid + 1)

/-- The entry `addProcess` makes. -/
def newProcess (pid : Int) (name : String) (commandLineArgs : List String) (now : Int)
    (currentPath : String) : ProcessInfo :=
  { pid := pid
    name := name
    running := true
    cpuTime := 0
    wallClockTime := 0
    startTime := now
    endTime := 0
    owner := getCurrentUser
    priority := 0
    status := 0
    numThreads := 1
    commandLineArgs := commandLineArgs
    workingDirectory := currentPath
    environmentVariables := getCurrentEnvironment
    parentProcess := getCurrentProcessId
    childProcesses := []
    memoryUsage := 0 }

/-- `addProcess`. -/
def addProcess (m : ProcessManager) (name : String) (commandLineArgs : List String) (now : Int)
    (currentPath : String) : Bool × ProcessManager :=
  let (pid, nextPid) := generateUniquePid m.nextPid
  let info := newProcess pid name commandLineArgs now currentPath
  (true, ⟨Function.update m.processMap pid (some info), nextPid⟩)

/-- `removeProcess`. -/
def removeProcess (m : ProcessManager) (pid : Int) : Bool × ProcessManager :=
  ((m.processMap pid).isSome, { m with processMap := Function.update m.processMap pid none })

def terminateProcess (m : ProcessManager) (pid : Int) (now : Int) : Bool × ProcessManager :=
  match m.processMap pid with
  | some info =>
    (true,
      { m with
        processMap :=
          Function.update m.processMap pid (some { info with running := false, endTime := now }) })
  | none => (false, m)

/-- The common body of `suspendProcess` and `resumeProcess`: an entry whose flag is not
`running` gets this flag. -/
def switchRunning (running : Bool) (m : ProcessManager) (pid : Int) : Bool × ProcessManager :=
  match m.processMap pid with
  | some info =>
    if info.running = !running then
      (true,
        { m with
          processMap := Function.update m.processMap pid (some { info with running := running }) })
    else (false, m)
  | none => (false, m)

def suspendProcess (m : ProcessManager) (pid : Int) : Bool × ProcessManager :=
  switchRunning false m pid

def resumeProcess (m : ProcessManager) (pid : Int) : Bool × ProcessManager :=
  switchRunning true m pid

def isProcessRunning (m : ProcessManager) (pid : Int) : Bool :=
  match m.processMap pid with
  | some info => info.running
  | none => false

end ProcessManager

/-- A call on the manager, with what it reads from the system. -/
inductive Call where
  | addProcess (name : String) (commandLineArgs : List String) (now : Int) (currentPath : String)
  | removeProcess (pid : Int)
  | terminateProcess (pid : Int) (now : Int)
  | suspendProcess (pid : Int)
  | resumeProcess (pid : Int)
deriving DecidableEq

/-- The result and the manager after a call. -/
def ProcessManager.step (m : ProcessManager) : Call → Bool × ProcessManager
  | .addProcess name commandLineArgs now currentPath =>
    m.addProcess name commandLineArgs now currentPath
  | .removeProcess pid => m.removeProcess pid
  | .terminateProcess pid now => m.terminateProcess pid now
  | .suspendProcess pid => m.suspendProcess pid
  | .resumeProcess pid => m.resumeProcess pid

/-- The manager after a sequence of calls. -/
def ProcessManager.run (m : ProcessManager) (calls : List Call) : ProcessManager :=
  calls.foldl (fun m call => (m.step call).2) m

/-- Whether a call is one of `addProcess`. -/
def Call.adds : Call → Bool
  | .addProcess .. => true
  | _ => false

end FarouKernel.Ports.Process
