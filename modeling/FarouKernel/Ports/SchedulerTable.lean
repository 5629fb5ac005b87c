import FarouKernel.Ports.SchedulerRuns

/-!
# Accounting of the task table

Two results on whole runs of the scheduler that do not need the numbers of the
threads to be distinct.

`task_count` is kept by hand: a creation adds one after the slot is filled, and
the compaction subtracts the finished tasks in bulk.  It agrees with the table in
every state, however long the run is.

The numbers come from `next_tid`, a 32-bit counter that starts at 1 and is also
advanced by a creation whose `pthread_create` fails.  As long as no number is
taken from the counter at 0 the numbers in use stay below it; once it has come
round to 0, a creation that succeeds returns the error value and frees the
arguments of the thread it has started.
-/

namespace FarouKernel.Ports.Sched

open Relation Verified

/-! ## The count -/

section Count

variable {s : Scheduler} {c : SchedConfig} {l : List Tcb} (name : List UInt8) (priority : Int)
  (kmallocOk : Bool) (rc : Int) (handle : Nat)

theorem countP_eq_length_tidsOf (p : Tcb → Bool) (l : List Tcb) :
    l.countP p = (tidsOf p l).length := by
  rw [tidsOf, List.length_map, List.countP_eq_length_filter]

/-- A slot in use is running or finished. -/
theorem countP_isLive (l : List Tcb) :
    l.countP Tcb.isLive = l.countP Tcb.isRunning + l.countP Tcb.isDone := by
  induction l with
  | nil => rfl
  | cons t l ih =>
    rw [List.countP_cons, List.countP_cons, List.countP_cons, ih]
    cases hstate : t.state with
    | invalid => simp [Tcb.isLive, Tcb.isRunning, Tcb.isDone, hstate]
    | running =>
      simp [Tcb.isLive, Tcb.isRunning, Tcb.isDone, hstate]
      omega
    | done =>
      simp [Tcb.isLive, Tcb.isRunning, Tcb.isDone, hstate]
      omega

/-- The count agrees with the table. -/
def Scheduler.Counted (s : Scheduler) : Prop := s.taskCount = s.taskList.countP Tcb.isLive

theorem Scheduler.Counted.le (h : s.Counted) : s.taskCount ≤ maxTasks := by
  rw [h, ← s.sized]
  exact List.countP_le_length

theorem counted_init (s : Scheduler) : (initializeScheduler s).Counted := by
  have hnone : (s.taskList.map Tcb.cleared).countP Tcb.isLive = 0 := by
    rw [List.countP_eq_zero]
    intro t ht
    rcases List.mem_map.mp ht with ⟨u, _, rfl⟩
    simp [Tcb.isLive, Tcb.cleared]
  exact hnone.symm

theorem Scheduler.Counted.create (h : s.Counted) :
    (kernelCreateThread name priority kmallocOk rc handle s).2.Counted := by
  rcases kernelCreateThread_cases name priority kmallocOk rc handle s rfl with
    ⟨_, hsame, _⟩ | ⟨_, a, x, b, hl, hx, hl', _, hcount, _⟩
  · rw [hsame]
    exact h
  · have hbound := h.le
    unfold Scheduler.Counted at h ⊢
    rw [hcount, hl', List.countP_append, List.countP_cons]
    rw [hl, List.countP_append, List.countP_cons] at h
    have hfree : x.isLive = false := by simp [Tcb.isLive, hx]
    by_cases hrc : rc = 0
    · have hlive : (x.filled s.nextTid handle priority name rc).isLive = true := by
        simp [Tcb.isLive, Tcb.filled, hrc]
      have hone : s.taskCount + 1 < 2 ^ 64 := by
        unfold maxTasks at hbound
        omega
      rw [if_neg (not_not.mpr hrc), add64_of_lt hone, if_pos hlive]
      rw [if_neg (by simp [hfree])] at h
      omega
    · have hdead : (x.filled s.nextTid handle priority name rc).isLive = false := by
        simp [Tcb.isLive, Tcb.filled, hrc]
      rw [if_pos hrc, if_neg (by simp [hdead])]
      rw [if_neg (by simp [hfree])] at h
      exact h

/-- Rewriting a slot in use into a slot in use. -/
theorem Scheduler.Counted.rewriteFirst (h : s.Counted) {p : Tcb → Bool} {f : Tcb → Tcb}
    (hp : ∀ t, p t = true → t.isLive = true) (hf : ∀ t, p t = true → (f t).isLive = true) :
    (s.rewriteFirst p f).2.Counted := by
  rcases rewriteFirst_cases (s := s) p f with
    ⟨hsame, _⟩ | ⟨a, x, b, hl, hx, _, hl', _, hcount⟩
  · rw [hsame]
    exact h
  · unfold Scheduler.Counted at h ⊢
    rw [hcount, hl', h, hl]
    simp [hp x hx, hf x hx]

/-- The compaction subtracts the finished tasks. -/
theorem reapTasks_taskCount (s : Scheduler) :
    (reapTasks s).taskCount = sub64 s.taskCount (s.taskList.countP Tcb.isDone) := by
  have hrun := compact_run Tcb.isRunning Tcb.isDone s.taskList
  rw [s.sized] at hrun
  have hdone : counted Tcb.isRunning Tcb.isDone s.taskList = s.taskList.countP Tcb.isDone := by
    apply List.countP_congr
    intro t _
    cases hstate : t.state <;> simp [Tcb.isRunning, Tcb.isDone, hstate]
  show sub64 s.taskCount (compactLoop _ _ _ _ _ _ _).2.2 = _
  rw [hrun, ← hdone]

/-- **The subtraction of a pass does not underflow.** -/
theorem Scheduler.Counted.managerPass_taskCount (h : s.Counted) (rand : Nat → Nat) :
    (managerPass rand s).taskCount + s.taskList.countP Tcb.isDone = s.taskCount := by
  have hdone : (s.taskList.mapIdx fun i t => t.drifted (rand i)).countP Tcb.isDone =
      s.taskList.countP Tcb.isDone := by
    rw [countP_eq_length_tidsOf, countP_eq_length_tidsOf, tidsOf_drifted]
    intro n t
    unfold Tcb.drifted
    split <;> rfl
  have hbound := h.le
  have hlive := countP_isLive s.taskList
  unfold Scheduler.Counted at h
  unfold maxTasks at hbound
  have hpass : (managerPass rand s).taskCount =
      sub64 s.taskCount (s.taskList.countP Tcb.isDone) := by
    rw [← hdone]
    exact reapTasks_taskCount _
  rw [hpass, sub64_of_le (by omega) (by omega)]
  omega

theorem Scheduler.Counted.manage (h : s.Counted) (rand : Nat → Nat) :
    (managerPass rand s).Counted := by
  have hpass := h.managerPass_taskCount rand
  have hlive := countP_isLive s.taskList
  unfold Scheduler.Counted at h ⊢
  rw [countP_eq_length_tidsOf, (managerPass_tids rand s).1, ← countP_eq_length_tidsOf]
  omega

theorem counted_run (hrun : ReflTransGen SchedStep (SchedConfig.init s) c) : c.sched.Counted := by
  refine run_invariant (fun c => c.sched.Counted) ?_ hrun (counted_init s)
  intro c c' h hstep
  cases hstep with
  | create name priority kmallocOk rc handle => exact h.create name priority kmallocOk rc handle
  | finish =>
    apply h.rewriteFirst
    · intro t ht
      exact (Bool.and_eq_true_iff.mp ht).1
    · intro t _
      rfl
  | setPriority tid priority =>
    have hrunning : ∀ t : Tcb, (t.isRunning && t.tid == tid) = true → t.isLive = true := by
      intro t ht
      exact isLive_of_isRunning (Bool.and_eq_true_iff.mp ht).1
    exact h.rewriteFirst hrunning hrunning
  | manage rand => exact h.manage rand

/-- A creation that starts no thread leaves the count and every slot in use. -/
theorem kernelCreateThread_error (s : Scheduler)
    (hnone : (kernelCreateThread name priority kmallocOk rc handle s).1.started = none) :
    (kernelCreateThread name priority kmallocOk rc handle s).1.tid = 0 ∧
      (kernelCreateThread name priority kmallocOk rc handle s).2.taskCount = s.taskCount ∧
      ∀ (i : Nat) (t : Tcb), t.isLive = true →
        ((kernelCreateThread name priority kmallocOk rc handle s).2.taskList[i]? = some t ↔
          s.taskList[i]? = some t) := by
  rcases kernelCreateThread_cases name priority kmallocOk rc handle s rfl with
    ⟨_, hsame, _, htid⟩ | ⟨_, a, x, b, hl, hx, hl', _, hcount, hresult⟩
  · rw [hsame]
    exact ⟨htid, rfl, fun _ _ _ => Iff.rfl⟩
  · by_cases hrc : rc = 0
    · rw [hresult, if_neg (not_not.mpr hrc)] at hnone
      cases hnone
    · rw [if_pos hrc] at hcount hresult
      refine ⟨congrArg CreateResult.tid hresult, hcount, ?_⟩
      intro i t ht
      rw [hl', hl, List.getElem?_append, List.getElem?_append]
      -- the slot that was tried is free before and after
      have hdead : ∀ y : Tcb, y.state = .invalid → some y ≠ some t := by
        rintro y hy ⟨⟩
        simp [Tcb.isLive, hy] at ht
      split
      · exact Iff.rfl
      · cases i - a.length with
        | zero =>
          rw [List.getElem?_cons_zero, List.getElem?_cons_zero]
          exact iff_of_false (hdead _ (by simp [Tcb.filled, hrc])) (hdead _ hx)
        | succ j => rw [List.getElem?_cons_succ, List.getElem?_cons_succ]

end Count

/-- **Task table accounting.**  In every state of every run the count is the
number of slots in use, a pass of the manager subtracts the finished tasks
without an underflow, and a creation that ends in an error leaves the count and
every slot in use as they were. -/
theorem task_table_accounting (s : Scheduler) (c : SchedConfig)
    (hrun : ReflTransGen SchedStep (SchedConfig.init s) c) :
    c.sched.taskCount = c.sched.taskList.countP Tcb.isLive ∧
      (∀ rand, (managerPass rand c.sched).taskCount + c.sched.taskList.countP Tcb.isDone =
        c.sched.taskCount) ∧
      ∀ name priority kmallocOk rc handle,
        (kernelCreateThread name priority kmallocOk rc handle c.sched).1.started = none →
        (kernelCreateThread name priority kmallocOk rc handle c.sched).1.tid = 0 ∧
        (kernelCreateThread name priority kmallocOk rc handle c.sched).2.taskCount =
          c.sched.taskCount ∧
        ∀ (i : Nat) (t : Tcb), t.isLive = true →
          ((kernelCreateThread name priority kmallocOk rc handle c.sched).2.taskList[i]? = some t ↔
            c.sched.taskList[i]? = some t) := by
  have hcounted := counted_run hrun
  refine ⟨hcounted, hcounted.managerPass_taskCount, ?_⟩
  intro name priority kmallocOk rc handle hnone
  exact kernelCreateThread_error name priority kmallocOk rc handle c.sched hnone

/-- One thread is left after the pass, and a `pthread_create` that fails keeps it
where it is. -/
theorem task_table_accounting_moved :
    movedThread.sched.taskCount = 1 ∧ movedThread.sched.taskList.countP Tcb.isLive = 1 ∧
      (kernelCreateThread [72] 90 true 11 9 movedThread.sched).2.taskCount = 1 ∧
      ((kernelCreateThread [72] 90 true 11 9 movedThread.sched).2.taskList[0]?).map Tcb.tid =
        some 2 := by
  have haccount := task_table_accounting Scheduler.zero movedThread movedThread_run
  have hcount : movedThread.sched.taskCount = 1 := by decide
  have hslot : movedThread.sched.taskList[0]? = some ⟨2, 8, .running, 9, [76]⟩ := by decide
  rcases haccount.2.2 [72] 90 true 11 9 (by decide) with ⟨_, hcount', hslots⟩
  refine ⟨hcount, haccount.1.symm.trans hcount, hcount'.trans hcount, ?_⟩
  rw [(hslots 0 _ (by decide)).mpr hslot]
  rfl

/-! ## Reaping -/

/-- **Reaping is a stable compaction.**  In a table whose count is the number of
slots in use, `reap_tasks` leaves the running tasks, as they were and in their
order, in the first slots; the slots behind them are free with number 0, no
finished task is left, and the count is the number of running tasks. -/
theorem reap_tasks_exact (s : Scheduler) (hcount : s.taskCount = s.taskList.countP Tcb.isLive) :
    (reapTasks s).taskList.take (s.taskList.countP Tcb.isRunning) =
        s.taskList.filter Tcb.isRunning ∧
      (∀ t ∈ (reapTasks s).taskList.drop (s.taskList.countP Tcb.isRunning),
        t.state = .invalid ∧ t.tid = 0) ∧
      (∀ t ∈ (reapTasks s).taskList, t.state ≠ .done) ∧
      (reapTasks s).taskCount = s.taskList.countP Tcb.isRunning := by
  have hbound := Scheduler.Counted.le hcount
  have hlive := countP_isLive s.taskList
  have htable := reapTasks_taskList s
  have hlength : s.taskList.countP Tcb.isRunning = (s.taskList.filter Tcb.isRunning).length :=
    List.countP_eq_length_filter
  have hkept : (reapTasks s).taskList.take (s.taskList.countP Tcb.isRunning) =
      s.taskList.filter Tcb.isRunning := by
    rw [htable, hlength, List.take_left]
  have hcleared : ∀ t ∈ (reapTasks s).taskList.drop (s.taskList.countP Tcb.isRunning),
      t.state = .invalid ∧ t.tid = 0 := by
    intro t ht
    rw [htable, hlength, List.drop_left] at ht
    rcases List.mem_map.mp ht with ⟨u, _, rfl⟩
    exact ⟨rfl, rfl⟩
  refine ⟨hkept, hcleared, ?_, ?_⟩
  · intro t ht hdone
    rw [← List.take_append_drop (s.taskList.countP Tcb.isRunning) (reapTasks s).taskList,
      List.mem_append] at ht
    rcases ht with ht | ht
    · rw [hkept] at ht
      have hrunning : t.state = .running := of_decide_eq_true (List.mem_filter.mp ht).2
      cases hrunning.symm.trans hdone
    · rw [(hcleared t ht).1] at hdone
      cases hdone
  · unfold maxTasks at hbound
    rw [reapTasks_taskCount, sub64_of_le (by omega) (by omega)]
    omega

/-- The finished task in the first slot makes room for the second task. -/
theorem reap_tasks_exact_two :
    (reapTasks twoThreads.sched).taskList.take 1 = [⟨2, 8, .running, 10, [76]⟩] ∧
      (reapTasks twoThreads.sched).taskCount = 1 := by
  have hexact := reap_tasks_exact twoThreads.sched (by decide)
  have hone : twoThreads.sched.taskList.countP Tcb.isRunning = 1 := by decide
  rw [hone] at hexact
  exact ⟨hexact.1.trans (by decide), hexact.2.2.2⟩

/-! ## The numbers -/

/-- The steps of a run in which no number is taken from the counter at 0. -/
inductive NumberedStep : SchedConfig → SchedConfig → Prop
  | create (c : SchedConfig) (name : List UInt8) (priority : Int) (kmallocOk : Bool) (rc : Int)
      (handle : Nat) (hnext : c.sched.TakesNumber priority kmallocOk → c.sched.nextTid ≠ 0) :
      NumberedStep c (c.create name priority kmallocOk rc handle)
  | other {c c' : SchedConfig} (hstep : SchedStep c c') (hattempts : c'.attempts = c.attempts) :
      NumberedStep c c'

/-- Until the counter is back at 0, the numbers in use are below it. -/
structure NumberInv (c : SchedConfig) : Prop where
  word : c.sched.nextTid < 2 ^ 32
  below : c.sched.nextTid ≠ 0 → ∀ n ∈ tidsOf Tcb.isLive c.sched.taskList, n < c.sched.nextTid

section Numbers

variable {c c' : SchedConfig}

/-- Rewriting a slot brings no new number into use. -/
theorem rewriteFirst_live_subset {s : Scheduler} {p : Tcb → Bool} {f : Tcb → Tcb}
    (hp : ∀ t, p t = true → t.isLive = true) (htid : ∀ t, (f t).tid = t.tid) :
    tidsOf Tcb.isLive (s.rewriteFirst p f).2.taskList ⊆ tidsOf Tcb.isLive s.taskList ∧
      (s.rewriteFirst p f).2.nextTid = s.nextTid := by
  rcases rewriteFirst_cases (s := s) p f with
    ⟨hsame, _⟩ | ⟨a, x, b, hl, hx, _, hl', hnext, _⟩
  · rw [hsame]
    exact ⟨List.Subset.refl _, rfl⟩
  · refine ⟨?_, hnext⟩
    intro n hn
    rw [hl', mem_tidsOf_middle] at hn
    rw [hl, mem_tidsOf_middle]
    exact hn.imp_right fun hself => ⟨hp x hx, (htid x).symm.trans hself.2⟩

/-- A step other than a creation brings no new number into use. -/
theorem SchedStep.live_subset (hstep : SchedStep c c') (hattempts : c'.attempts = c.attempts) :
    tidsOf Tcb.isLive c'.sched.taskList ⊆ tidsOf Tcb.isLive c.sched.taskList ∧
      c'.sched.nextTid = c.sched.nextTid := by
  cases hstep with
  | create => exact absurd hattempts (Nat.succ_ne_self _)
  | finish =>
    apply rewriteFirst_live_subset
    · intro t ht
      exact (Bool.and_eq_true_iff.mp ht).1
    · intro t
      rfl
  | setPriority =>
    apply rewriteFirst_live_subset
    · intro t ht
      exact isLive_of_isRunning (Bool.and_eq_true_iff.mp ht).1
    · intro t
      rfl
  | manage rand =>
    constructor
    · show tidsOf Tcb.isLive (managerPass rand c.sched).taskList ⊆ _
      rw [(managerPass_tids rand c.sched).1]
      exact (tidsOf_running_sublist c.sched.taskList).subset
    · rfl

theorem numberInv_init (s : Scheduler) : NumberInv (SchedConfig.init s) where
  word := show 1 < 2 ^ 32 by decide
  below _ := (schedInv_init s).below

/-- A creation brings at most the number of the counter into use. -/
theorem NumberInv.create (h : NumberInv c) (name : List UInt8) (priority : Int) (kmallocOk : Bool)
    (rc : Int) (handle : Nat)
    (hnumber : c.sched.TakesNumber priority kmallocOk → c.sched.nextTid ≠ 0) :
    NumberInv (c.create name priority kmallocOk rc handle) := by
  rcases kernelCreateThread_cases name priority kmallocOk rc handle c.sched rfl with
    ⟨_, hsame, _⟩ | ⟨htakes, a, x, b, hl, _, hl', hnext, _⟩
  · have hsched : (c.create name priority kmallocOk rc handle).sched = c.sched := hsame
    constructor
    · rw [hsched]
      exact h.word
    · rw [hsched]
      exact h.below
  · have htable : (c.create name priority kmallocOk rc handle).sched.taskList =
        a ++ x.filled c.sched.nextTid handle priority name rc :: b := hl'
    have hcounter : (c.create name priority kmallocOk rc handle).sched.nextTid =
        (c.sched.nextTid + 1) % 2 ^ 32 := hnext
    constructor
    · rw [hcounter]
      exact Nat.mod_lt _ (by decide)
    · intro hne n hn
      -- the numbers of the other slots were in use before
      have hold : n = c.sched.nextTid ∨ n ∈ tidsOf Tcb.isLive c.sched.taskList := by
        rw [htable, mem_tidsOf_middle] at hn
        rw [hl, mem_tidsOf_middle]
        rcases hn with hn | ⟨_, hself⟩
        · exact Or.inr (Or.inl hn)
        · exact Or.inl hself.symm
      have hle : n ≤ c.sched.nextTid := by
        rcases hold with hold | hold
        · exact Nat.le_of_eq hold
        · exact Nat.le_of_lt (h.below (hnumber htakes) n hold)
      have hword := h.word
      rw [hcounter] at hne ⊢
      omega

theorem NumberInv.step (h : NumberInv c) (hstep : NumberedStep c c') : NumberInv c' := by
  cases hstep with
  | create name priority kmallocOk rc handle hnumber =>
    exact h.create name priority kmallocOk rc handle hnumber
  | other hstep hattempts =>
    rcases hstep.live_subset hattempts with ⟨hsub, hnext⟩
    constructor
    · rw [hnext]
      exact h.word
    · intro hne n hn
      rw [hnext] at hne ⊢
      exact h.below hne n (hsub hn)

end Numbers

/-- **Numbers are fresh.**  After a run in which no number was taken from the
counter at 0, a creation that succeeds returns a number that is not 0 and belongs
to no other slot in use, and keeps the arguments of its thread, exactly when the
counter is not at 0. -/
theorem task_ids_fresh_iff (s : Scheduler) (c : SchedConfig)
    (hrun : ReflTransGen NumberedStep (SchedConfig.init s) c) (name : List UInt8) (priority : Int)
    (kmallocOk : Bool) (rc : Int) (handle tid : Nat)
    (hstarted : (kernelCreateThread name priority kmallocOk rc handle c.sched).1.started =
      some tid) :
    ((kernelCreateThread name priority kmallocOk rc handle c.sched).1.tid ≠ 0 ∧
      (∃ a x b, (kernelCreateThread name priority kmallocOk rc handle c.sched).2.taskList =
          a ++ x :: b ∧ x.state = .running ∧
        x.tid = (kernelCreateThread name priority kmallocOk rc handle c.sched).1.tid ∧
        ∀ y ∈ a ++ b, y.state ≠ .invalid →
          y.tid ≠ (kernelCreateThread name priority kmallocOk rc handle c.sched).1.tid) ∧
      (kernelCreateThread name priority kmallocOk rc handle c.sched).1.argsFreed = false) ↔
    c.sched.nextTid ≠ 0 := by
  have hinv : NumberInv c := run_invariant _ (fun _ _ h => h.step) hrun (numberInv_init s)
  rcases kernelCreateThread_cases name priority kmallocOk rc handle c.sched rfl with
    ⟨_, _, hnone, _⟩ | ⟨_, a, x, b, hl, _, hl', _, _, hresult⟩
  · cases hnone.symm.trans hstarted
  · have hrc : rc = 0 := by
      by_contra hrc
      rw [hresult, if_pos hrc] at hstarted
      cases hstarted
    rw [if_neg (not_not.mpr hrc)] at hresult
    rw [hresult, hl']
    constructor
    · intro hgood
      exact hgood.1
    · intro hne
      refine ⟨hne, ⟨a, _, b, rfl, by simp [Tcb.filled, hrc], rfl, ?_⟩, decide_eq_false hne⟩
      intro y hy hlive htid
      have hin : y.tid ∈ tidsOf Tcb.isLive c.sched.taskList := by
        rw [hl, mem_tidsOf_middle]
        exact Or.inl (mem_tidsOf.mpr ⟨y, hy, decide_eq_true hlive, rfl⟩)
      exact Nat.ne_of_lt (hinv.below hne _ hin) htid

/-- The second thread gets the number after the first. -/
theorem task_ids_fresh_iff_second :
    (kernelCreateThread [76] 10 true 0 8
        ((SchedConfig.init Scheduler.zero).create [72] 90 true 0 7).sched).1.tid = 2 ∧
      (kernelCreateThread [76] 10 true 0 8
        ((SchedConfig.init Scheduler.zero).create [72] 90 true 0 7).sched).1.argsFreed = false := by
  have hcreate := NumberedStep.create (SchedConfig.init Scheduler.zero) [72] 90 true 0 7
    (fun _ => by decide)
  have hfresh := task_ids_fresh_iff Scheduler.zero _ (.single hcreate) [76] 10 true 0
    8 2 (by decide)
  exact ⟨by decide, (hfresh.mpr (by decide)).2.2⟩

/-- Failed creations alone move the counter through all its values. -/
theorem failed_creations_run (n : Nat) :
    ∃ c, ReflTransGen SchedStep (SchedConfig.init Scheduler.zero) c ∧
      c.sched.nextTid = (n + 1) % 2 ^ 32 ∧ c.sched.TakesNumber 90 true := by
  induction n with
  | zero =>
    refine ⟨SchedConfig.init Scheduler.zero, .refl, rfl, by decide, rfl, ?_⟩
    exact ⟨Tcb.cleared ⟨0, 0, .invalid, 0, []⟩, by decide, rfl⟩
  | succ n ih =>
    rcases ih with ⟨c, hrun, hnext, htakes⟩
    rcases kernelCreateThread_cases [72] 90 true 11 0 c.sched rfl with
      ⟨hnot, _⟩ | ⟨_, a, x, b, _, _, hl', hnext', _⟩
    · exact absurd htakes hnot
    · refine ⟨c.create [72] 90 true 11 0, hrun.tail (SchedStep.create c [72] 90 true 11 0),
        ?_, by decide, rfl, ?_⟩
      · show (kernelCreateThread [72] 90 true 11 0 c.sched).2.nextTid = _
        rw [hnext', hnext]
        omega
      · refine ⟨x.filled c.sched.nextTid 0 90 [72] 11, ?_, rfl⟩
        show _ ∈ (kernelCreateThread [72] 90 true 11 0 c.sched).2.taskList
        rw [hl']
        simp

/-- After `2 ^ 32 - 1` of them a creation that succeeds returns the error value
and frees the arguments of the thread it started. -/
theorem task_id_zero_after_wrap :
    ∃ c, ReflTransGen SchedStep (SchedConfig.init Scheduler.zero) c ∧
      (kernelCreateThread [72] 90 true 0 7 c.sched).1 = ⟨0, some 0, true⟩ := by
  rcases failed_creations_run (2 ^ 32 - 1) with ⟨c, hrun, hnext, htakes⟩
  have hzero : c.sched.nextTid = 0 := hnext
  rcases kernelCreateThread_cases [72] 90 true 0 7 c.sched rfl with
    ⟨hnot, _⟩ | ⟨_, a, x, b, _, _, _, _, _, hresult⟩
  · exact absurd htakes hnot
  · rw [hzero] at hresult
    exact ⟨c, hrun, hresult⟩

end FarouKernel.Ports.Sched
