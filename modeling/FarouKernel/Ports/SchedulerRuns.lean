import FarouKernel.Ports.SchedulerModel
import FarouKernel.Verified.Runs
import Mathlib.Data.List.Nodup
import Mathlib.Data.List.Perm.Basic

/-!
# Runs of the scheduler

The steps of a run are the critical sections of the scheduler in any order: a
creation, the completion of a thread that was started, a change of priority and
a pass of the manager.  The configuration carries the threads that were started
and have not come to their completion step, those that have, and the number of
creations tried.

The invariant relates the numbers of the threads to the slots of the table:
the numbers in use are distinct and below the next one, and the running slots
are those of the outstanding threads.  Slots move when the manager compacts the
table, so the invariant says nothing about where a task is.
-/

namespace FarouKernel.Ports.Sched

open Relation Verified

/-- The task numbers in the slots that pass a test. -/
def tidsOf (p : Tcb → Bool) (l : List Tcb) : List Nat := (l.filter p).map Tcb.tid

variable {c' : SchedConfig} {y : Tcb} {tid : Nat}

section TidsOf

variable {p : Tcb → Bool} {a b l : List Tcb} {x : Tcb}

@[simp] theorem tidsOf_append : tidsOf p (a ++ b) = tidsOf p a ++ tidsOf p b := by
  simp [tidsOf]

theorem tidsOf_cons_of_pos (h : p x = true) : tidsOf p (x :: l) = x.tid :: tidsOf p l := by
  simp [tidsOf, h]

theorem tidsOf_cons_of_neg (h : p x = false) : tidsOf p (x :: l) = tidsOf p l := by
  simp [tidsOf, h]

theorem mem_tidsOf {n : Nat} : n ∈ tidsOf p l ↔ ∃ t ∈ l, p t = true ∧ t.tid = n := by
  simp [tidsOf, and_assoc]

theorem mem_tidsOf_middle {n : Nat} :
    n ∈ tidsOf p (a ++ x :: b) ↔ n ∈ tidsOf p (a ++ b) ∨ p x = true ∧ x.tid = n := by
  simp only [mem_tidsOf, List.mem_append, List.mem_cons]
  grind

theorem tidsOf_eq_nil (h : ∀ t ∈ l, p t = false) : tidsOf p l = [] := by
  have hnone : l.filter p = [] := by
    rw [List.filter_eq_nil_iff]
    intro t ht
    simp [h t ht]
  simp [tidsOf, hnone]

/-- Replacing a slot by one with the same number that passes the test equally. -/
theorem tidsOf_replace (hp : p y = p x) (htid : y.tid = x.tid) :
    tidsOf p (a ++ y :: b) = tidsOf p (a ++ x :: b) := by
  rw [tidsOf_append, tidsOf_append]
  cases hx : p x with
  | true => rw [tidsOf_cons_of_pos (hp.trans hx), tidsOf_cons_of_pos hx, htid]
  | false => rw [tidsOf_cons_of_neg (hp.trans hx), tidsOf_cons_of_neg hx]

end TidsOf

/-! ## What each operation does to the table -/

section Operations

variable {s : Scheduler}

/-- The call of `kernel_create_thread` takes a number: its priority is in range,
its arguments were allocated, and a slot is free. -/
def Scheduler.TakesNumber (s : Scheduler) (priority : Int) (kmallocOk : Bool) : Prop :=
  (minPriority ≤ priority ∧ priority ≤ maxPriority) ∧ kmallocOk = true ∧
    ∃ t ∈ s.taskList, t.state = .invalid

/-- **`kernel_create_thread`** is rejected without a trace, or takes a number and
fills the first free slot. -/
theorem kernelCreateThread_cases (name : List UInt8) (priority : Int) (kmallocOk : Bool) (rc : Int)
    (handle : Nat) (s : Scheduler) {r : CreateResult × Scheduler}
    (hr : kernelCreateThread name priority kmallocOk rc handle s = r) :
    (¬ s.TakesNumber priority kmallocOk ∧ r.2 = s ∧ r.1.started = none ∧ r.1.tid = 0) ∨
      s.TakesNumber priority kmallocOk ∧
      ∃ a x b, s.taskList = a ++ x :: b ∧ x.state = .invalid ∧
        r.2.taskList = a ++ x.filled s.nextTid handle priority name rc :: b ∧
        r.2.nextTid = (s.nextTid + 1) % 2 ^ 32 ∧
        r.2.taskCount = (if rc ≠ 0 then s.taskCount else add64 s.taskCount 1) ∧
        r.1 = if rc ≠ 0 then ⟨0, none, true⟩
          else ⟨s.nextTid, some s.nextTid, decide (s.nextTid = 0)⟩ := by
  subst hr
  unfold kernelCreateThread
  split
  · rename_i hpriority
    refine Or.inl ⟨?_, rfl, rfl, rfl⟩
    intro h
    have hrange := h.1
    omega
  rename_i hpriority
  split
  · rename_i hkmalloc
    refine Or.inl ⟨?_, rfl, rfl, rfl⟩
    intro h
    rw [hkmalloc] at h
    cases h.2.1
  rename_i hkmalloc
  dsimp only
  split
  · rename_i hnone
    refine Or.inl ⟨?_, rfl, rfl, rfl⟩
    intro h
    rcases h.2.2 with ⟨t, ht, hfree⟩
    have hused := updateFirst_eq_none.mp hnone t ht
    simp [hfree] at hused
  · rename_i taskList hfound
    rcases updateFirst_eq_some hfound with ⟨a, x, b, hl, _, hx, hl'⟩
    have hfree : x.state = .invalid := by simpa using hx
    refine Or.inr ⟨⟨by omega, by simpa using hkmalloc, x, by simp [hl], hfree⟩,
      a, x, b, hl, hfree, ?_⟩
    split <;> exact ⟨hl', rfl, rfl, rfl⟩

/-- A search over the table finds nothing and changes nothing, or rewrites one
slot. -/
theorem rewriteFirst_cases (p : Tcb → Bool) (f : Tcb → Tcb) :
    (s.rewriteFirst p f = (false, s) ∧ ∀ t ∈ s.taskList, p t = false) ∨
      ∃ a x b, s.taskList = a ++ x :: b ∧ p x = true ∧ (s.rewriteFirst p f).1 = true ∧
        (s.rewriteFirst p f).2.taskList = a ++ f x :: b ∧
        (s.rewriteFirst p f).2.nextTid = s.nextTid ∧
        (s.rewriteFirst p f).2.taskCount = s.taskCount := by
  unfold Scheduler.rewriteFirst
  split
  · rename_i hnone
    exact Or.inl ⟨rfl, updateFirst_eq_none.mp hnone⟩
  · rename_i taskList hfound
    obtain ⟨a, x, b, hl, _, hx, hl'⟩ := updateFirst_eq_some hfound
    exact Or.inr ⟨a, x, b, hl, hx, rfl, hl', rfl, rfl⟩

theorem mapIdx_append_cleared (a b : List Tcb) :
    (a ++ b).mapIdx (fun i t => if a.length ≤ i then t.cleared else t) =
      a ++ b.map Tcb.cleared := by
  rw [List.mapIdx_append]
  congr 1
  · apply List.ext_getElem
    · simp
    · intro i hi _
      simp only [List.length_mapIdx] at hi
      simp [Nat.not_le.mpr hi]
  · apply List.ext_getElem
    · simp
    · intro i hi _
      simp

/-- **`reap_tasks`** keeps the running tasks, in order, and clears all other
slots. -/
theorem reapTasks_taskList (s : Scheduler) :
    (reapTasks s).taskList = s.taskList.filter Tcb.isRunning ++
      (s.taskList.drop (s.taskList.filter Tcb.isRunning).length).map Tcb.cleared := by
  have hrun := compact_run Tcb.isRunning Tcb.isDone s.taskList
  rw [s.sized] at hrun
  unfold reapTasks
  simp only [hrun]
  exact mapIdx_append_cleared _ _

theorem drifted_isRunning (rand : Nat) (t : Tcb) : (t.drifted rand).isRunning = t.isRunning := by
  unfold Tcb.drifted
  split <;> rfl

theorem drifted_tid (rand : Nat) (t : Tcb) : (t.drifted rand).tid = t.tid := by
  unfold Tcb.drifted
  split <;> rfl

/-- The drift of the priorities is invisible to a test of the state. -/
theorem tidsOf_drifted {p : Tcb → Bool} (hp : ∀ rand t, p (Tcb.drifted rand t) = p t)
    (rand : Nat → Nat) (l : List Tcb) :
    tidsOf p (l.mapIdx fun i t => t.drifted (rand i)) = tidsOf p l := by
  induction l generalizing rand with
  | nil => rfl
  | cons t l ih =>
    rw [List.mapIdx_cons]
    have htail := ih fun i => rand (i + 1)
    cases ht : p t with
    | true =>
      rw [tidsOf_cons_of_pos ht, tidsOf_cons_of_pos ((hp _ t).trans ht), drifted_tid, htail]
    | false =>
      rw [tidsOf_cons_of_neg ht, tidsOf_cons_of_neg ((hp _ t).trans ht), htail]

/-- After a pass of the manager the slots in use are the running ones. -/
theorem managerPass_tids (rand : Nat → Nat) (s : Scheduler) :
    tidsOf Tcb.isLive (managerPass rand s).taskList = tidsOf Tcb.isRunning s.taskList ∧
      tidsOf Tcb.isRunning (managerPass rand s).taskList = tidsOf Tcb.isRunning s.taskList ∧
      tidsOf Tcb.isDone (managerPass rand s).taskList = [] := by
  have hsame := tidsOf_drifted drifted_isRunning rand s.taskList
  generalize hl : (s.taskList.mapIdx fun i t => t.drifted (rand i)) = l at hsame
  have htable : (managerPass rand s).taskList = l.filter Tcb.isRunning ++
      (l.drop (l.filter Tcb.isRunning).length).map Tcb.cleared := by
    subst hl
    exact reapTasks_taskList _
  have hcleared : ∀ p : Tcb → Bool, (∀ t : Tcb, p t.cleared = false) →
      tidsOf p (managerPass rand s).taskList = tidsOf p (l.filter Tcb.isRunning) := by
    intro p hp
    have hnone : tidsOf p ((l.drop (l.filter Tcb.isRunning).length).map Tcb.cleared) = [] := by
      apply tidsOf_eq_nil
      intro t ht
      obtain ⟨u, _, rfl⟩ := List.mem_map.mp ht
      exact hp u
    rw [htable, tidsOf_append, hnone, List.append_nil]
  have hfilter : ∀ p : Tcb → Bool, (∀ t : Tcb, t.isRunning = true → p t = true) →
      tidsOf p (l.filter Tcb.isRunning) = tidsOf Tcb.isRunning l := by
    intro p hp
    unfold tidsOf
    rw [List.filter_eq_self.mpr]
    intro t ht
    exact hp t (List.mem_filter.mp ht).2
  refine ⟨?_, ?_, ?_⟩
  · rw [hcleared _ (fun _ => rfl), hfilter _ ?_, hsame]
    intro t ht
    have hstate : t.state = .running := of_decide_eq_true ht
    simp [Tcb.isLive, hstate]
  · rw [hcleared _ (fun _ => rfl), hfilter _ (fun _ h => h), hsame]
  · rw [hcleared _ (fun _ => rfl)]
    apply tidsOf_eq_nil
    intro t ht
    have hstate : t.state = .running := of_decide_eq_true (List.mem_filter.mp ht).2
    simp [Tcb.isDone, hstate]

end Operations

/-! ## Runs -/

/-- The scheduler, the threads started and not yet past their completion step,
the threads past it, and the number of creations tried. -/
structure SchedConfig where
  sched : Scheduler
  outstanding : List Nat
  completed : List Nat
  attempts : Nat

/-- A call of `kernel_create_thread`. -/
def SchedConfig.create (c : SchedConfig) (name : List UInt8) (priority : Int) (kmallocOk : Bool)
    (rc : Int) (handle : Nat) : SchedConfig :=
  let r := kernelCreateThread name priority kmallocOk rc handle c.sched
  ⟨r.2, r.1.started.toList ++ c.outstanding, c.completed, c.attempts + 1⟩

/-- The completion step of a thread. -/
def SchedConfig.finish (c : SchedConfig) (tid : Nat) : SchedConfig :=
  ⟨(threadRunnerFinish tid c.sched).2, c.outstanding.erase tid, tid :: c.completed, c.attempts⟩

/-- A call of `kernel_set_priority`. -/
def SchedConfig.setPriority (c : SchedConfig) (tid : Nat) (priority : Int) : SchedConfig :=
  { c with sched := kernelSetPriority tid priority c.sched }

/-- A pass of the manager. -/
def SchedConfig.manage (c : SchedConfig) (rand : Nat → Nat) : SchedConfig :=
  { c with sched := managerPass rand c.sched }

/-- The steps of a run: a creation, which may fail at any point, the completion step of a
thread, a change of priority, and a round of the manager. -/
inductive SchedStep : SchedConfig → SchedConfig → Prop
  | create (c : SchedConfig) (name : List UInt8) (priority : Int) (kmallocOk : Bool) (rc : Int)
      (handle : Nat) : SchedStep c (c.create name priority kmallocOk rc handle)
  | finish (c : SchedConfig) {tid : Nat} (h : tid ∈ c.outstanding) : SchedStep c (c.finish tid)
  | setPriority (c : SchedConfig) (tid : Nat) (priority : Int) :
      SchedStep c (c.setPriority tid priority)
  | manage (c : SchedConfig) (rand : Nat → Nat) : SchedStep c (c.manage rand)

/-- The configuration after `initialize_scheduler`. -/
def SchedConfig.init (s : Scheduler) : SchedConfig := ⟨initializeScheduler s, [], [], 0⟩

/-- The invariant of the runs: numbers in use are distinct and below `next_tid`, the
running tasks are the outstanding threads, and the done ones have completed. -/
structure SchedInv (c : SchedConfig) : Prop where
  nextTid : c.sched.nextTid ≤ c.attempts + 1
  below : ∀ n ∈ tidsOf Tcb.isLive c.sched.taskList, n < c.sched.nextTid
  distinct : (tidsOf Tcb.isLive c.sched.taskList).Nodup
  running : (tidsOf Tcb.isRunning c.sched.taskList).Perm c.outstanding
  done : ∀ n ∈ tidsOf Tcb.isDone c.sched.taskList, n ∈ c.completed

section Invariant

variable {c : SchedConfig}

theorem schedInv_init (s : Scheduler) : SchedInv (SchedConfig.init s) := by
  have hnone : ∀ p : Tcb → Bool, (∀ t : Tcb, p t.cleared = false) →
      tidsOf p (SchedConfig.init s).sched.taskList = [] := by
    intro p hp
    apply tidsOf_eq_nil
    intro t ht
    obtain ⟨u, _, rfl⟩ := List.mem_map.mp ht
    exact hp u
  have hlive := hnone Tcb.isLive fun _ => rfl
  have hrunning := hnone Tcb.isRunning fun _ => rfl
  have hdone := hnone Tcb.isDone fun _ => rfl
  refine ⟨Nat.le_refl 1, ?_, ?_, ?_, ?_⟩
  · simp [hlive]
  · simp [hlive]
  · rw [hrunning]
    exact List.Perm.refl []
  · simp [hdone]

/-- A running slot is in use. -/
theorem isLive_of_isRunning {t : Tcb} (h : t.isRunning = true) : t.isLive = true := by
  have hstate : t.state = .running := of_decide_eq_true h
  simp [Tcb.isLive, hstate]

theorem tidsOf_running_sublist (l : List Tcb) :
    (tidsOf Tcb.isRunning l).Sublist (tidsOf Tcb.isLive l) := by
  apply List.Sublist.map
  apply List.monotone_filter_right
  intro t ht
  exact isLive_of_isRunning ht

/-- A number in use occurs in one slot only. -/
theorem SchedInv.other_slots (h : SchedInv c) {a b : List Tcb} {x : Tcb}
    (hl : c.sched.taskList = a ++ x :: b) (hx : x.isLive = true) (hy : y ∈ a ++ b)
    (hlive : y.isLive = true) : y.tid ≠ x.tid := by
  have hdistinct := h.distinct
  rw [hl, tidsOf_append, tidsOf_cons_of_pos hx, List.nodup_middle, List.nodup_cons,
    ← tidsOf_append] at hdistinct
  intro htid
  exact hdistinct.1 (mem_tidsOf.mpr ⟨y, hy, hlive, htid⟩)

/-- **An outstanding thread has exactly one slot**, it is running, and the
completion step finds it. -/
theorem SchedInv.slot (h : SchedInv c) (htid : tid ∈ c.outstanding) :
    ∃ a x b, c.sched.taskList = a ++ x :: b ∧ x.state = .running ∧ x.tid = tid ∧
      (∀ y ∈ a ++ b, y.state = .invalid ∨ y.tid ≠ tid) ∧
      (threadRunnerFinish tid c.sched).1 = true ∧
      (threadRunnerFinish tid c.sched).2.taskList = a ++ { x with state := .done } :: b ∧
      (threadRunnerFinish tid c.sched).2.nextTid = c.sched.nextTid := by
  obtain ⟨t, ht, hrunning, hnumber⟩ := mem_tidsOf.mp (h.running.mem_iff.mpr htid)
  rcases rewriteFirst_cases (s := c.sched) (fun t => t.isLive && t.tid == tid)
      (fun t => { t with state := .done }) with
    ⟨_, hnone⟩ | ⟨a, x, b, hl, hx, hfound, hl', hnext, _⟩
  · have hnot := hnone t ht
    simp [isLive_of_isRunning hrunning, hnumber] at hnot
  · simp only [Bool.and_eq_true, beq_iff_eq] at hx
    have hothers : ∀ y ∈ a ++ b, y.isLive = true → y.tid ≠ tid := by
      intro y hy hlive
      rw [← hx.2]
      exact h.other_slots hl hx.1 hy hlive
    have hself : t = x := by
      rw [hl] at ht
      by_contra hne
      have hmem : t ∈ a ++ b := by
        rcases List.mem_append.mp ht with ht | ht
        · exact List.mem_append_left b ht
        · exact List.mem_append_right a ((List.mem_cons.mp ht).resolve_left hne)
      exact hothers t hmem (isLive_of_isRunning hrunning) hnumber
    subst hself
    refine ⟨a, t, b, hl, of_decide_eq_true hrunning, hnumber, ?_, hfound, hl', hnext⟩
    intro y hy
    by_cases hlive : y.state = .invalid
    · exact Or.inl hlive
    · exact Or.inr (hothers y hy (by simpa [Tcb.isLive] using hlive))

/-- A step that leaves the numbers in the table as they are. -/
theorem SchedInv.same (h : SchedInv c)
    (hlive : tidsOf Tcb.isLive c'.sched.taskList = tidsOf Tcb.isLive c.sched.taskList)
    (hrunning : tidsOf Tcb.isRunning c'.sched.taskList = tidsOf Tcb.isRunning c.sched.taskList)
    (hdone : tidsOf Tcb.isDone c'.sched.taskList = tidsOf Tcb.isDone c.sched.taskList)
    (hle : c.sched.nextTid ≤ c'.sched.nextTid) (hnext : c'.sched.nextTid ≤ c'.attempts + 1)
    (hout : c'.outstanding = c.outstanding) (hcompleted : c'.completed = c.completed) :
    SchedInv c' where
  nextTid := hnext
  below n hn := Nat.lt_of_lt_of_le (h.below n (hlive ▸ hn)) hle
  distinct := hlive ▸ h.distinct
  running := hrunning ▸ hout ▸ h.running
  done n hn := hcompleted ▸ h.done n (hdone ▸ hn)

/-- A step that fills a free slot with a running task of the next number. -/
theorem SchedInv.added {a b : List Tcb} {x : Tcb} (h : SchedInv c)
    (hl : c.sched.taskList = a ++ x :: b) (hl' : c'.sched.taskList = a ++ y :: b)
    (hx : x.state = .invalid) (hy : y.state = .running) (htid : y.tid = c.sched.nextTid)
    (hle : c'.sched.nextTid = c.sched.nextTid + 1) (hnext : c'.sched.nextTid ≤ c'.attempts + 1)
    (hout : c'.outstanding = c.sched.nextTid :: c.outstanding)
    (hcompleted : c'.completed = c.completed) : SchedInv c' := by
  have hbefore : ∀ p : Tcb → Bool, p x = false →
      tidsOf p c.sched.taskList = tidsOf p a ++ tidsOf p b := by
    intro p hp
    rw [hl, tidsOf_append, tidsOf_cons_of_neg hp]
  have hafter : ∀ p : Tcb → Bool, p y = true →
      tidsOf p c'.sched.taskList = tidsOf p a ++ c.sched.nextTid :: tidsOf p b := by
    intro p hp
    rw [hl', tidsOf_append, tidsOf_cons_of_pos hp, htid]
  have hlive0 := hbefore Tcb.isLive (by simp [Tcb.isLive, hx])
  have hrunning0 := hbefore Tcb.isRunning (by simp [Tcb.isRunning, hx])
  have hlive := hafter Tcb.isLive (by simp [Tcb.isLive, hy])
  have hrunning := hafter Tcb.isRunning (by simp [Tcb.isRunning, hy])
  refine ⟨hnext, ?_, ?_, ?_, ?_⟩
  · intro n hn
    rw [hl', mem_tidsOf_middle, tidsOf_append, ← hlive0] at hn
    rw [hle]
    rcases hn with hold | ⟨_, rfl⟩
    · exact Nat.lt_succ_of_lt (h.below n hold)
    · exact Nat.lt_succ_of_le (Nat.le_of_eq htid)
  · rw [hlive, List.nodup_middle, List.nodup_cons, ← hlive0]
    exact ⟨fun hn => Nat.lt_irrefl _ (h.below _ hn), h.distinct⟩
  · have hperm := h.running
    rw [hrunning0] at hperm
    rw [hrunning, hout]
    exact List.perm_middle.trans (hperm.cons _)
  · intro n hn
    rw [hl', tidsOf_append, tidsOf_cons_of_neg (by simp [Tcb.isDone, hy]),
      ← hbefore Tcb.isDone (by simp [Tcb.isDone, hx])] at hn
    rw [hcompleted]
    exact h.done n hn

theorem SchedInv.create (h : SchedInv c) (name : List UInt8) (priority : Int) (kmallocOk : Bool)
    (rc : Int) (handle : Nat) (hattempts : c.attempts + 1 < 2 ^ 32 - 1) :
    SchedInv (c.create name priority kmallocOk rc handle) := by
  have hnext := h.nextTid
  rcases kernelCreateThread_cases name priority kmallocOk rc handle c.sched rfl with
    ⟨_, hsame, hstarted, _⟩ | ⟨_, a, x, b, hl, hx, hl', hnext', _, hresult⟩
  · have hsched : (c.create name priority kmallocOk rc handle).sched = c.sched := hsame
    apply h.same
    any_goals rw [hsched]
    · exact Nat.le_succ_of_le hnext
    · simp [SchedConfig.create, hstarted]
    · rfl
  · have htable : (c.create name priority kmallocOk rc handle).sched.taskList =
        a ++ x.filled c.sched.nextTid handle priority name rc :: b := hl'
    have hnumber : (c.create name priority kmallocOk rc handle).sched.nextTid =
        c.sched.nextTid + 1 := hnext'.trans (Nat.mod_eq_of_lt (by omega))
    have hcalls : (c.create name priority kmallocOk rc handle).sched.nextTid ≤
        (c.create name priority kmallocOk rc handle).attempts + 1 := by
      rw [hnumber]
      exact Nat.succ_le_succ hnext
    by_cases hrc : rc = 0
    · rw [if_neg (not_not.mpr hrc)] at hresult
      refine h.added hl htable hx (by simp [Tcb.filled, hrc]) rfl hnumber hcalls ?_ rfl
      simp [SchedConfig.create, hresult]
    · rw [if_pos hrc] at hresult
      -- the slot was free and stays free, so it counts for nothing
      have hsame : ∀ p : Tcb → Bool, p x = false →
          p (x.filled c.sched.nextTid handle priority name rc) = false →
          tidsOf p (c.create name priority kmallocOk rc handle).sched.taskList =
            tidsOf p c.sched.taskList := by
        intro p hp hp'
        rw [htable, hl, tidsOf_append, tidsOf_append, tidsOf_cons_of_neg hp, tidsOf_cons_of_neg hp']
      apply h.same
      · exact hsame Tcb.isLive (by simp [Tcb.isLive, hx]) (by simp [Tcb.isLive, Tcb.filled, hrc])
      · exact hsame Tcb.isRunning (by simp [Tcb.isRunning, hx])
          (by simp [Tcb.isRunning, Tcb.filled, hrc])
      · exact hsame Tcb.isDone (by simp [Tcb.isDone, hx]) (by simp [Tcb.isDone, Tcb.filled, hrc])
      · rw [hnumber]
        exact Nat.le_succ _
      · exact hcalls
      · simp [SchedConfig.create, hresult]
      · rfl

/-- The completion step changes no number in use. -/
theorem SchedInv.finish_live (h : SchedInv c) (htid : tid ∈ c.outstanding) :
    tidsOf Tcb.isLive (c.finish tid).sched.taskList = tidsOf Tcb.isLive c.sched.taskList := by
  obtain ⟨a, x, b, hl, hstate, _, _, _, hl', _⟩ := h.slot htid
  rw [show (c.finish tid).sched.taskList = _ from hl', hl]
  exact tidsOf_replace (by simp [Tcb.isLive, hstate]) rfl

theorem SchedInv.finish (h : SchedInv c) (htid : tid ∈ c.outstanding) :
    SchedInv (c.finish tid) := by
  obtain ⟨a, x, b, hl, hstate, hnumber, _, _, hl', hnext⟩ := h.slot htid
  have htable : (c.finish tid).sched.taskList = a ++ { x with state := .done } :: b := hl'
  have hnext' : (c.finish tid).sched.nextTid = c.sched.nextTid := hnext
  have hlive := h.finish_live htid
  refine ⟨?_, ?_, ?_, ?_, ?_⟩
  · rw [hnext']
    exact h.nextTid
  · rw [hlive, hnext']
    exact h.below
  · rw [hlive]
    exact h.distinct
  · have hperm := h.running
    rw [hl, tidsOf_append, tidsOf_cons_of_pos (by simp [Tcb.isRunning, hstate]), hnumber] at hperm
    rw [htable, tidsOf_append, tidsOf_cons_of_neg (by simp [Tcb.isRunning])]
    have herase := (List.perm_middle.symm.trans hperm).erase tid
    rwa [List.erase_cons_head] at herase
  · intro n hn
    rw [htable, mem_tidsOf_middle] at hn
    rcases hn with hold | ⟨_, rfl⟩
    · refine List.mem_cons_of_mem tid (h.done n ?_)
      rw [hl, mem_tidsOf_middle]
      exact Or.inl hold
    · exact hnumber ▸ List.mem_cons_self

/-- A new priority changes no number. -/
theorem setPriority_tids (c : SchedConfig) (tid : Nat) (priority : Int) :
    (c.setPriority tid priority).sched.nextTid = c.sched.nextTid ∧
      ∀ p : Tcb → Bool, (∀ t, p { t with priority := priority } = p t) →
        tidsOf p (c.setPriority tid priority).sched.taskList = tidsOf p c.sched.taskList := by
  rcases rewriteFirst_cases (s := c.sched) (fun t => t.isRunning && t.tid == tid)
      (fun t => { t with priority := priority }) with
    ⟨hsame, _⟩ | ⟨a, x, b, hl, _, _, hl', hnext, _⟩
  · rw [show (c.setPriority tid priority).sched = c.sched from congrArg Prod.snd hsame]
    exact ⟨rfl, fun _ _ => rfl⟩
  · refine ⟨hnext, fun p hp => ?_⟩
    rw [hl, show (c.setPriority tid priority).sched.taskList = _ from hl']
    exact tidsOf_replace (hp x) rfl

theorem SchedInv.setPriority (h : SchedInv c) (tid : Nat) (priority : Int) :
    SchedInv (c.setPriority tid priority) := by
  obtain ⟨hnext, htids⟩ := setPriority_tids c tid priority
  exact h.same (htids Tcb.isLive fun _ => rfl) (htids Tcb.isRunning fun _ => rfl)
    (htids Tcb.isDone fun _ => rfl) (Nat.le_of_eq hnext.symm) (hnext ▸ h.nextTid) rfl rfl

theorem SchedInv.manage (h : SchedInv c) (rand : Nat → Nat) : SchedInv (c.manage rand) := by
  obtain ⟨hlive, hrunning, hdone⟩ := managerPass_tids rand c.sched
  have hsub := tidsOf_running_sublist c.sched.taskList
  refine ⟨h.nextTid, ?_, ?_, ?_, ?_⟩
  · intro n hn
    have hn' : n ∈ tidsOf Tcb.isLive (managerPass rand c.sched).taskList := hn
    rw [hlive] at hn'
    exact h.below n (hsub.subset hn')
  · show (tidsOf Tcb.isLive (managerPass rand c.sched).taskList).Nodup
    rw [hlive]
    exact h.distinct.sublist hsub
  · show (tidsOf Tcb.isRunning (managerPass rand c.sched).taskList).Perm c.outstanding
    rw [hrunning]
    exact h.running
  · intro n hn
    have hn' : n ∈ tidsOf Tcb.isDone (managerPass rand c.sched).taskList := hn
    rw [hdone] at hn'
    cases hn'

/-- Creations are counted. -/
theorem SchedStep.attempts_le (hstep : SchedStep c c') : c.attempts ≤ c'.attempts := by
  cases hstep with
  | create => exact Nat.le_succ _
  | finish => exact Nat.le_refl _
  | setPriority => exact Nat.le_refl _
  | manage => exact Nat.le_refl _

theorem SchedInv.step (h : SchedInv c) (hstep : SchedStep c c')
    (hattempts : c'.attempts < 2 ^ 32 - 1) : SchedInv c' := by
  cases hstep with
  | create name priority kmallocOk rc handle =>
    exact h.create name priority kmallocOk rc handle hattempts
  | finish htid => exact h.finish htid
  | setPriority tid priority => exact h.setPriority tid priority
  | manage rand => exact h.manage rand

/-- The invariant holds as long as the numbers have not wrapped around. -/
theorem schedInv_run {s : Scheduler} (hrun : ReflTransGen SchedStep (SchedConfig.init s) c)
    (hattempts : c.attempts < 2 ^ 32 - 1) : SchedInv c := by
  refine run_invariant (fun c => c.attempts < 2 ^ 32 - 1 → SchedInv c) ?_ hrun
    (fun _ => schedInv_init s) hattempts
  intro c c' h hstep hbound
  exact (h (Nat.lt_of_le_of_lt hstep.attempts_le hbound)).step hstep hbound

/-! ## No completion is lost -/

/-- A number leaves the table only by a pass of the manager, after the thread's
completion. -/
theorem SchedInv.leaves (h : SchedInv c) (hstep : SchedStep c c')
    (hin : tid ∈ tidsOf Tcb.isLive c.sched.taskList)
    (hout : tid ∉ tidsOf Tcb.isLive c'.sched.taskList) :
    (∃ rand, c' = c.manage rand) ∧ tid ∈ c.completed := by
  cases hstep with
  | create name priority kmallocOk rc handle =>
    exfalso
    apply hout
    rcases kernelCreateThread_cases name priority kmallocOk rc handle c.sched rfl with
      ⟨_, hsame, _⟩ | ⟨_, a, x, b, hl, hx, hl', _⟩
    · rw [show (c.create name priority kmallocOk rc handle).sched = c.sched from hsame]
      exact hin
    · rw [show (c.create name priority kmallocOk rc handle).sched.taskList = _ from hl',
        mem_tidsOf_middle]
      rw [hl, mem_tidsOf_middle] at hin
      rcases hin with hin | ⟨hlive, _⟩
      · exact Or.inl hin
      · simp [Tcb.isLive, hx] at hlive
  | finish htid =>
    exfalso
    apply hout
    rw [h.finish_live htid]
    exact hin
  | setPriority number priority =>
    exfalso
    apply hout
    rw [(setPriority_tids c number priority).2 Tcb.isLive fun _ => rfl]
    exact hin
  | manage rand =>
    refine ⟨⟨rand, rfl⟩, ?_⟩
    rw [show (c.manage rand).sched = managerPass rand c.sched from rfl,
      (managerPass_tids rand c.sched).1] at hout
    obtain ⟨t, ht, hlive, htid⟩ := mem_tidsOf.mp hin
    apply h.done
    refine mem_tidsOf.mpr ⟨t, ht, ?_, htid⟩
    have hnot : t.isRunning ≠ true := fun hrunning => hout (mem_tidsOf.mpr ⟨t, ht, hrunning, htid⟩)
    cases hstate : t.state with
    | invalid => simp [Tcb.isLive, hstate] at hlive
    | running => simp [Tcb.isRunning, hstate] at hnot
    | done => simp [Tcb.isDone, hstate]

end Invariant

/-- **No task completion is lost.**  In every run that tries fewer than
`2 ^ 32 - 1` creations, a thread that comes to its completion step has exactly
one slot, it is running, and the step turns that slot and no other to `DONE`;
and a task leaves the table only in a pass of the manager after its completion. -/
theorem scheduler_run_completion (s : Scheduler) (c : SchedConfig)
    (hrun : ReflTransGen SchedStep (SchedConfig.init s) c)
    (hattempts : c.attempts < 2 ^ 32 - 1) :
    (∀ tid ∈ c.outstanding, ∃ a x b, c.sched.taskList = a ++ x :: b ∧ x.state = .running ∧
      x.tid = tid ∧ (∀ y ∈ a ++ b, y.state = .invalid ∨ y.tid ≠ tid) ∧
      (threadRunnerFinish tid c.sched).1 = true ∧
      (threadRunnerFinish tid c.sched).2.taskList = a ++ { x with state := .done } :: b) ∧
    ∀ c', SchedStep c c' → ∀ tid, tid ∈ tidsOf Tcb.isLive c.sched.taskList →
      tid ∉ tidsOf Tcb.isLive c'.sched.taskList →
      (∃ rand, c' = c.manage rand) ∧ tid ∈ c.completed := by
  have hinv := schedInv_run hrun hattempts
  constructor
  · intro tid htid
    obtain ⟨a, x, b, hl, hstate, hnumber, hothers, hfound, hl', _⟩ := hinv.slot htid
    exact ⟨a, x, b, hl, hstate, hnumber, hothers, hfound, hl'⟩
  · intro c' hstep tid hin hout
    exact hinv.leaves hstep hin hout

/-- A scheduler whose memory is all zeros. -/
def Scheduler.zero : Scheduler where
  taskList := List.replicate maxTasks ⟨0, 0, .invalid, 0, []⟩
  taskCount := 0
  nextTid := 0
  sized := List.length_replicate

/-- Two threads were created on it and the first has finished. -/
def twoThreads : SchedConfig :=
  (((SchedConfig.init Scheduler.zero).create [72] 90 true 0 7).create [76] 10 true 0 8).finish 1

/-- A pass of the manager has moved the second one into the slot of the first. -/
def movedThread : SchedConfig := twoThreads.manage fun _ => 0

theorem movedThread_run : ReflTransGen SchedStep (SchedConfig.init Scheduler.zero) movedThread :=
  .head (.create _ [72] 90 true 0 7) <| .head (.create _ [76] 10 true 0 8) <|
  .head (.finish _ (by decide)) <| .single (.manage _ _)

/-- The moved thread still finds its control block. -/
theorem scheduler_run_completion_moved :
    ∃ a x b, movedThread.sched.taskList = a ++ x :: b ∧ x.state = .running ∧ x.tid = 2 ∧
      (threadRunnerFinish 2 movedThread.sched).1 = true := by
  obtain ⟨a, x, b, hl, hstate, hnumber, _, hfound, _⟩ :=
    (scheduler_run_completion Scheduler.zero movedThread movedThread_run (by decide)).1 2
      (by decide)
  exact ⟨a, x, b, hl, hstate, hnumber, hfound⟩

end FarouKernel.Ports.Sched
