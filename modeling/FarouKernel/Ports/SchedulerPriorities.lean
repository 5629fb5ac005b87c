import FarouKernel.Ports.SchedulerRuns

/-!
# Priorities

Three operations write the priority of a task.  `kernel_create_thread` refuses a
priority out of range, the manager clamps what it computes, and
`kernel_set_priority` stores what it is given.

A run keeps the priorities of its running tasks in range, and the manager's sum
in the range of an `int`, as long as no call of `kernel_set_priority` finds a
running task for a priority out of range.
-/

namespace FarouKernel.Ports.Sched

open Relation Verified

/-- The priority lies between `MIN_PRIORITY` and `MAX_PRIORITY`. -/
def ValidPriority (priority : Int) : Prop := minPriority ≤ priority ∧ priority ≤ maxPriority

/-- The priority of every running task is valid. -/
def Scheduler.PrioritiesValid (s : Scheduler) : Prop :=
  ∀ t ∈ s.taskList, t.isRunning = true → ValidPriority t.priority

/-- The value is one of an `int`. -/
def FitsInt (x : Int) : Prop := -2 ^ 31 ≤ x ∧ x < 2 ^ 31

/-- The sum `old_prio + (rand() % 3 - 1)` of the manager does not overflow, whatever
`rand` returns. -/
def Scheduler.DriftFits (s : Scheduler) : Prop :=
  ∀ t ∈ s.taskList, t.isRunning = true → ∀ rand : Nat,
    FitsInt (t.priority + ((rand % 3 : Nat) - 1))

/-- There is a running task with the number. -/
def Scheduler.Runs (s : Scheduler) (tid : Nat) : Prop :=
  ∃ t ∈ s.taskList, t.isRunning = true ∧ t.tid = tid

section Table

variable {s : Scheduler}

/-- From a valid priority the manager never leaves the range of an `int`. -/
theorem Scheduler.PrioritiesValid.driftFits (h : s.PrioritiesValid) : s.DriftFits := by
  intro t ht hrunning rand
  have hvalid := h t ht hrunning
  unfold ValidPriority minPriority maxPriority at hvalid
  unfold FitsInt
  omega

/-- The clamped priority is valid, whatever it was before. -/
theorem validPriority_drifted (rand : Nat) (oldPrio : Int) :
    ValidPriority (driftedPriority rand oldPrio) := by
  unfold ValidPriority driftedPriority minPriority maxPriority
  dsimp only
  split <;> split <;> omega

theorem prioritiesValid_init (s : Scheduler) : (initializeScheduler s).PrioritiesValid := by
  intro t ht hrunning
  rcases List.mem_map.mp ht with ⟨u, _, rfl⟩
  cases hrunning

/-- A slot is replaced by one that is not running or has a valid priority. -/
theorem Scheduler.PrioritiesValid.replace {s' : Scheduler} (h : s.PrioritiesValid)
    {a b : List Tcb} {x y : Tcb} (hl : s.taskList = a ++ x :: b) (hl' : s'.taskList = a ++ y :: b)
    (hy : y.isRunning = true → ValidPriority y.priority) : s'.PrioritiesValid := by
  intro t ht hrunning
  rw [hl', List.mem_append, List.mem_cons] at ht
  rcases ht with ht | rfl | ht
  · exact h t (by simp [hl, ht]) hrunning
  · exact hy hrunning
  · exact h t (by simp [hl, ht]) hrunning

theorem Scheduler.PrioritiesValid.create (h : s.PrioritiesValid) (name : List UInt8)
    (priority : Int) (kmallocOk : Bool) (rc : Int) (handle : Nat) :
    (kernelCreateThread name priority kmallocOk rc handle s).2.PrioritiesValid := by
  rcases kernelCreateThread_cases name priority kmallocOk rc handle s rfl with
    ⟨_, hsame, _⟩ | ⟨htakes, a, x, b, hl, _, hl', _⟩
  · rw [hsame]
    exact h
  · -- a priority out of range was refused before the slot was filled
    exact h.replace hl hl' fun _ => htakes.1

theorem Scheduler.PrioritiesValid.finish (h : s.PrioritiesValid) (tid : Nat) :
    (threadRunnerFinish tid s).2.PrioritiesValid := by
  rcases rewriteFirst_cases (s := s) (fun t => t.isLive && t.tid == tid)
      (fun t => { t with state := .done }) with
    ⟨hsame, _⟩ | ⟨a, x, b, hl, _, _, hl', _⟩
  · rw [threadRunnerFinish, hsame]
    exact h
  · apply h.replace hl hl'
    intro hrunning
    cases hrunning

/-- **`kernel_set_priority`** keeps the priorities valid exactly if it finds no
running task or is given a valid priority. -/
theorem Scheduler.PrioritiesValid.setPriority_iff (h : s.PrioritiesValid) (tid : Nat)
    (priority : Int) :
    (kernelSetPriority tid priority s).PrioritiesValid ↔ (s.Runs tid → ValidPriority priority) := by
  rcases rewriteFirst_cases (s := s) (fun t => t.isRunning && t.tid == tid)
      (fun t => { t with priority := priority }) with
    ⟨hsame, hnone⟩ | ⟨a, x, b, hl, hx, _, hl', _⟩
  · have hidle : ¬s.Runs tid := by
      rintro ⟨t, ht, hrunning, htid⟩
      have hnot := hnone t ht
      simp [hrunning, htid] at hnot
    rw [kernelSetPriority, hsame]
    exact iff_of_true h fun hruns => absurd hruns hidle
  · rw [Bool.and_eq_true, beq_iff_eq] at hx
    constructor
    · intro hvalid _
      have hslot : { x with priority := priority } ∈
          (kernelSetPriority tid priority s).taskList := by
        rw [show (kernelSetPriority tid priority s).taskList = _ from hl']
        simp
      exact hvalid _ hslot hx.1
    · intro hpriority
      apply h.replace hl hl'
      intro _
      exact hpriority ⟨x, by simp [hl], hx.1, hx.2⟩

/-- A pass of the manager leaves valid priorities, whatever it finds. -/
theorem prioritiesValid_managerPass (rand : Nat → Nat) (s : Scheduler) :
    (managerPass rand s).PrioritiesValid := by
  intro t ht hrunning
  rw [managerPass, reapTasks_taskList, List.mem_append] at ht
  rcases ht with ht | ht
  · rcases List.mem_mapIdx.mp (List.mem_filter.mp ht).1 with ⟨i, hi, rfl⟩
    rw [drifted_isRunning] at hrunning
    rw [Tcb.drifted, if_pos hrunning]
    exact validPriority_drifted _ _
  · rcases List.mem_map.mp ht with ⟨u, _, rfl⟩
    cases hrunning

end Table

/-- The steps of a run in which every priority given to a running task is valid. -/
inductive ValidStep : SchedConfig → SchedConfig → Prop
  | create (c : SchedConfig) (name : List UInt8) (priority : Int) (kmallocOk : Bool) (rc : Int)
      (handle : Nat) : ValidStep c (c.create name priority kmallocOk rc handle)
  | finish (c : SchedConfig) {tid : Nat} (h : tid ∈ c.outstanding) : ValidStep c (c.finish tid)
  | setPriority (c : SchedConfig) (tid : Nat) (priority : Int)
      (h : c.sched.Runs tid → ValidPriority priority) :
      ValidStep c (c.setPriority tid priority)
  | manage (c : SchedConfig) (rand : Nat → Nat) : ValidStep c (c.manage rand)

theorem prioritiesValid_run {s : Scheduler} {c : SchedConfig}
    (hrun : ReflTransGen ValidStep (SchedConfig.init s) c) : c.sched.PrioritiesValid := by
  refine run_invariant (fun c => c.sched.PrioritiesValid) ?_ hrun (prioritiesValid_init s)
  intro c c' h hstep
  cases hstep with
  | create name priority kmallocOk rc handle => exact h.create name priority kmallocOk rc handle
  | finish => exact h.finish _
  | setPriority tid priority hpriority => exact (h.setPriority_iff tid priority).mpr hpriority
  | manage rand => exact prioritiesValid_managerPass rand c.sched

/-- **Priorities stay in range.**  In every state of every run whose calls of
`kernel_set_priority` give valid priorities to the running tasks they find, every
running task has a valid priority and the manager's sum does not overflow; and the
next call of `kernel_set_priority` keeps it so exactly if it does the same. -/
theorem priorities_in_range_iff (s : Scheduler) (c : SchedConfig)
    (hrun : ReflTransGen ValidStep (SchedConfig.init s) c) :
    (c.sched.PrioritiesValid ∧ c.sched.DriftFits) ∧
      ∀ tid priority,
        ((c.setPriority tid priority).sched.PrioritiesValid ∧
            (c.setPriority tid priority).sched.DriftFits) ↔
          (c.sched.Runs tid → ValidPriority priority) := by
  have hvalid := prioritiesValid_run hrun
  refine ⟨⟨hvalid, hvalid.driftFits⟩, ?_⟩
  intro tid priority
  constructor
  · intro hnext
    exact (hvalid.setPriority_iff tid priority).mp hnext.1
  · intro hpriority
    have hnext : (c.setPriority tid priority).sched.PrioritiesValid :=
      (hvalid.setPriority_iff tid priority).mpr hpriority
    exact ⟨hnext, hnext.driftFits⟩

/-- One thread with priority 90. -/
def oneThread : SchedConfig := (SchedConfig.init Scheduler.zero).create [72] 90 true 0 7

/-- Its priority can be lowered to 1. -/
theorem priorities_in_range_one : (oneThread.setPriority 1 1).sched.PrioritiesValid := by
  have hcreate : ValidStep (SchedConfig.init Scheduler.zero) oneThread :=
    ValidStep.create _ [72] 90 true 0 7
  have hrange := priorities_in_range_iff Scheduler.zero oneThread (.single hcreate)
  have hvalid : ValidPriority 1 := ⟨by decide, by decide⟩
  exact ((hrange.2 1 1).mpr fun _ => hvalid).1

/-- `kernel_set_priority` stores `INT_MAX`, and the next pass of the manager
overflows. -/
theorem priority_out_of_range :
    ReflTransGen SchedStep (SchedConfig.init Scheduler.zero)
        (oneThread.setPriority 1 (2 ^ 31 - 1)) ∧
      ¬(oneThread.setPriority 1 (2 ^ 31 - 1)).sched.PrioritiesValid ∧
      ¬(oneThread.setPriority 1 (2 ^ 31 - 1)).sched.DriftFits := by
  have hcreate : SchedStep (SchedConfig.init Scheduler.zero) oneThread :=
    SchedStep.create _ [72] 90 true 0 7
  have hslot : (⟨1, 7, .running, 2 ^ 31 - 1, [72]⟩ : Tcb) ∈
      (oneThread.setPriority 1 (2 ^ 31 - 1)).sched.taskList := by
    decide
  refine ⟨(ReflTransGen.single hcreate).tail (SchedStep.setPriority _ 1 _), ?_, ?_⟩
  · intro hvalid
    exact absurd (hvalid _ hslot rfl).2 (by decide)
  · intro hfits
    exact absurd (hfits _ hslot rfl 2).2 (by decide)

end FarouKernel.Ports.Sched
