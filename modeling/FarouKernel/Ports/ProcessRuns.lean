import FarouKernel.Ports.ProcessModel
import Mathlib.Data.List.TakeWhile

/-!
# When a terminated process stays terminated

`running` is cleared by `terminateProcess` and by `suspendProcess`, and
`resumeProcess` sets it again without asking which of the two it was; nor does
`terminateProcess` ask whether the process was terminated before.  So a terminated
process comes back by a call of `resumeProcess`, and its `endTime` moves by another
call of `terminateProcess`.  Once the entry is removed nothing brings it back, since
pids are handed out in ascending order.
-/

namespace FarouKernel.Ports.Process

open ProcessManager

/-! ## What a call does to one entry -/

/-- The entry of `pid` after a call that does not add it. -/
def entryAfter (pid : Int) : Call → Option ProcessInfo → Option ProcessInfo
  | .addProcess .., entry => entry
  | .removeProcess p, entry => if p = pid then none else entry
  | .terminateProcess p now, entry =>
    if p = pid then entry.map fun info => { info with running := false, endTime := now }
    else entry
  | .suspendProcess p, entry =>
    if p = pid then entry.map fun info => { info with running := false } else entry
  | .resumeProcess p, entry =>
    if p = pid then entry.map fun info => { info with running := true } else entry

theorem switchRunning_processMap (running : Bool) (m : ProcessManager) (p pid : Int) :
    (switchRunning running m p).2.processMap pid =
      if p = pid then (m.processMap pid).map fun info => { info with running := running }
      else m.processMap pid := by
  unfold switchRunning
  by_cases hp : p = pid
  · subst hp
    rw [if_pos rfl]
    cases hentry : m.processMap p with
    | none => simpa using hentry
    | some info =>
      by_cases hflag : info.running = !running
      · simp [hflag]
      · -- The entry has the flag already.
        have hsame : { info with running := running } = info := by
          cases info
          simpa [eq_comm] using hflag
        simp only [if_neg hflag, hentry, Option.map_some, hsame]
  · rw [if_neg hp]
    split
    · split
      · exact Function.update_of_ne (Ne.symm hp) _ _
      · rfl
    · rfl

theorem terminateProcess_processMap (m : ProcessManager) (p pid now : Int) :
    (m.terminateProcess p now).2.processMap pid =
      if p = pid then
        (m.processMap pid).map fun info => { info with running := false, endTime := now }
      else m.processMap pid := by
  unfold terminateProcess
  by_cases hp : p = pid
  · subst hp
    rw [if_pos rfl]
    cases hentry : m.processMap p with
    | none => simpa using hentry
    | some info => simp
  · rw [if_neg hp]
    split
    · exact Function.update_of_ne (Ne.symm hp) _ _
    · rfl

variable {m : ProcessManager} {pid endTime : Int} {call : Call} {n : Nat} {calls : List Call}
  {info : ProcessInfo}

theorem step_processMap (hadd : call.adds = true → m.nextPid ≠ pid) :
    (m.step call).2.processMap pid = entryAfter pid call (m.processMap pid) := by
  cases call with
  | addProcess name args now path => exact Function.update_of_ne (hadd rfl).symm _ _
  | removeProcess p =>
    simp only [step, removeProcess, entryAfter, Function.update_apply]
    by_cases hp : p = pid
    · rw [if_pos hp.symm, if_pos hp]
    · rw [if_neg (Ne.symm hp), if_neg hp]
  | terminateProcess p now => exact terminateProcess_processMap m p pid now
  | suspendProcess p => exact switchRunning_processMap false m p pid
  | resumeProcess p => exact switchRunning_processMap true m p pid

/-! ## The pids -/

/-- After `n` calls of `addProcess`: they handed out the pids from 1 to `n`, and the
table has no others. -/
structure Counted (n : Nat) (m : ProcessManager) : Prop where
  nextPid : n < 2 ^ 31 - 1 → m.nextPid = n + 1
  bounds : ∀ pid, m.processMap pid ≠ none → 1 ≤ pid ∧ pid ≤ n

theorem Counted.start : Counted 0 ProcessManager.start :=
  ⟨fun _ => rfl, fun _ hentry => absurd rfl hentry⟩

theorem step_nextPid (hadd : call.adds = false) : (m.step call).2.nextPid = m.nextPid := by
  cases call with
  | addProcess name args now path => cases hadd
  | removeProcess p => rfl
  | terminateProcess p now =>
    simp only [step, terminateProcess]
    split <;> rfl
  | suspendProcess p =>
    simp only [step, suspendProcess, switchRunning]
    split
    · split <;> rfl
    · rfl
  | resumeProcess p =>
    simp only [step, resumeProcess, switchRunning]
    split
    · split <;> rfl
    · rfl

theorem entryAfter_none (pid : Int) (call : Call) : entryAfter pid call none = none := by
  cases call <;> simp [entryAfter]

theorem Counted.step (h : Counted n m) (call : Call)
    (hn : n + (if call.adds then 1 else 0) < 2 ^ 31) :
    Counted (n + if call.adds then 1 else 0) (m.step call).2 := by
  cases hadd : call.adds with
  | false =>
    rw [if_neg (by simp), Nat.add_zero]
    refine ⟨fun hlt => (step_nextPid hadd).trans (h.nextPid hlt), fun pid hentry => ?_⟩
    rw [step_processMap (by simp [hadd])] at hentry
    apply h.bounds
    intro hnone
    rw [hnone, entryAfter_none] at hentry
    exact hentry rfl
  | true =>
    rw [hadd, if_pos rfl] at hn
    rw [if_pos rfl]
    have hnext := h.nextPid (by omega)
    cases call with
    | addProcess name args now path =>
      constructor
      · intro hlt
        have hne : m.nextPid ≠ 2 ^ 31 - 1 := by omega
        show (if m.nextPid = 2 ^ 31 - 1 then -2 ^ 31 else m.nextPid + 1) = _
        rw [if_neg hne, hnext]
        rfl
      · intro pid hentry
        by_cases hpid : pid = m.nextPid
        · omega
        · have hold : m.processMap pid ≠ none := by
            intro hnone
            exact hentry ((Function.update_of_ne hpid _ _).trans hnone)
          have := h.bounds pid hold
          omega
    | removeProcess p => cases hadd
    | terminateProcess p now => cases hadd
    | suspendProcess p => cases hadd
    | resumeProcess p => cases hadd

/-- No later call hands out a pid that was handed out before. -/
theorem Counted.nextPid_ne (h : Counted n m) (call : Call)
    (hn : n + (if call.adds then 1 else 0) < 2 ^ 31) (hpid : pid ≤ n) (hadd : call.adds = true) :
    m.nextPid ≠ pid := by
  rw [hadd, if_pos rfl] at hn
  have := h.nextPid (by omega)
  omega

theorem Counted.run (h : Counted n m) (calls : List Call)
    (hn : n + calls.countP Call.adds < 2 ^ 31) :
    Counted (n + calls.countP Call.adds) (m.run calls) := by
  induction calls generalizing n m with
  | nil => exact h
  | cons call calls ih =>
    rw [List.countP_cons] at hn ⊢
    have hstep := h.step call (by omega)
    rw [Nat.add_comm (calls.countP _), ← Nat.add_assoc] at hn ⊢
    exact ih hstep hn

/-! ## After a termination -/

/-- The process is not running, and its entry, if it still has one, shows that it
ended at `endTime`. -/
def Ended (m : ProcessManager) (pid endTime : Int) : Prop :=
  m.isProcessRunning pid = false ∧ ∀ info, m.processMap pid = some info → info.endTime = endTime

/-- The process has ended at `endTime` in every state of the calls, and no call of
`addProcess` among them hands out its pid. -/
def Final (m : ProcessManager) (pid endTime : Int) (calls : List Call) : Prop :=
  ∀ k : Nat, Ended (m.run (calls.take k)) pid endTime ∧
    ∀ call ∈ calls[k]?, call.adds = true →
      (generateUniquePid (m.run (calls.take k)).nextPid).1 ≠ pid

/-- Until its entry is removed, the process is not resumed and not terminated at
another time. -/
def Undisturbed (pid endTime : Int) (calls : List Call) : Prop :=
  ∀ call ∈ calls.takeWhile (· ≠ .removeProcess pid),
    call ≠ .resumeProcess pid ∧ ∀ now, call = .terminateProcess pid now → now = endTime

theorem final_nil : Final m pid endTime [] ↔ Ended m pid endTime := by
  simp [Final, ProcessManager.run]

theorem final_cons :
    Final m pid endTime (call :: calls) ↔
      Ended m pid endTime ∧ (call.adds = true → m.nextPid ≠ pid) ∧
        Final (m.step call).2 pid endTime calls := by
  constructor
  · intro h
    refine ⟨(h 0).1, (h 0).2 call rfl, fun k => ?_⟩
    exact h (k + 1)
  · rintro ⟨hended, hadd, hrest⟩ k
    cases k with
    | zero =>
      refine ⟨hended, fun c hc => ?_⟩
      cases hc
      exact hadd
    | succ k => exact hrest k

theorem ended_of_none (h : m.processMap pid = none) : Ended m pid endTime := by
  constructor
  · rw [isProcessRunning, h]
  · intro info hinfo
    cases h.symm.trans hinfo

/-- A removed process stays away. -/
theorem final_of_none (endTime : Int) (calls : List Call) (hc : Counted n m)
    (hn : n + calls.countP Call.adds < 2 ^ 31) (hpid : pid ≤ n) (hnone : m.processMap pid = none) :
    Final m pid endTime calls := by
  induction calls generalizing n m with
  | nil => exact final_nil.mpr (ended_of_none hnone)
  | cons call calls ih =>
    rw [List.countP_cons] at hn
    have hnext := hc.nextPid_ne call (by omega) hpid
    refine final_cons.mpr ⟨ended_of_none hnone, hnext, ?_⟩
    refine ih (hc.step call (by omega)) (by omega) (by split <;> omega) ?_
    rw [step_processMap hnext, hnone, entryAfter_none]

theorem undisturbed_cons_remove (pid endTime : Int) (calls : List Call) :
    Undisturbed pid endTime (.removeProcess pid :: calls) := by
  simp [Undisturbed]

theorem undisturbed_cons (hcall : call ≠ .removeProcess pid) :
    Undisturbed pid endTime (call :: calls) ↔
      (call ≠ .resumeProcess pid ∧ ∀ now, call = .terminateProcess pid now → now = endTime) ∧
        Undisturbed pid endTime calls := by
  rw [Undisturbed, List.takeWhile_cons_of_pos (by simpa using hcall), List.forall_mem_cons]
  rfl

/-- The entry of an ended process after a call that does not remove it: it is still
there, and has ended at the same time exactly if the call is harmless. -/
theorem entryAfter_ended (hrunning : info.running = false) (hend : info.endTime = endTime)
    (hcall : call ≠ .removeProcess pid) :
    ∃ info', entryAfter pid call (some info) = some info' ∧
      ((info'.running = false ∧ info'.endTime = endTime) ↔
        (call ≠ .resumeProcess pid ∧ ∀ now, call = .terminateProcess pid now → now = endTime)) := by
  cases call with
  | addProcess name args now path => exact ⟨info, rfl, by simp [hrunning, hend]⟩
  | removeProcess p =>
    have hp : p ≠ pid := fun hp => hcall (hp ▸ rfl)
    exact ⟨info, if_neg hp, by simp [hrunning, hend]⟩
  | terminateProcess p now =>
    by_cases hp : p = pid
    · exact ⟨_, if_pos hp, by simp [hp]⟩
    · exact ⟨info, if_neg hp, by simp [hrunning, hend, hp]⟩
  | suspendProcess p =>
    by_cases hp : p = pid
    · exact ⟨_, if_pos hp, by simp [hend]⟩
    · exact ⟨info, if_neg hp, by simp [hrunning, hend]⟩
  | resumeProcess p =>
    by_cases hp : p = pid
    · exact ⟨_, if_pos hp, by simp [hp]⟩
    · exact ⟨info, if_neg hp, by simp [hrunning, hend, hp]⟩

theorem ended_of_some (h : m.processMap pid = some info) :
    Ended m pid endTime ↔ info.running = false ∧ info.endTime = endTime := by
  simp [Ended, isProcessRunning, h]

theorem Final.ended (h : Final m pid endTime calls) : Ended m pid endTime := (h 0).1

/-- The calls after a termination, by induction on them. -/
theorem final_iff_of_ended (hc : Counted n m) (hn : n + calls.countP Call.adds < 2 ^ 31)
    (hentry : m.processMap pid = some info) (hrunning : info.running = false)
    (hend : info.endTime = endTime) :
    Final m pid endTime calls ↔ Undisturbed pid endTime calls := by
  have hended : Ended m pid endTime := (ended_of_some hentry).mpr ⟨hrunning, hend⟩
  have hpid : pid ≤ n := (hc.bounds pid (by simp [hentry])).2
  induction calls generalizing n m info with
  | nil => simp [final_nil, hended, Undisturbed]
  | cons call calls ih =>
    rw [List.countP_cons] at hn
    have hnext := hc.nextPid_ne call (by omega) hpid
    have hstep := hc.step call (by omega)
    have hpid' : pid ≤ (n + if call.adds then 1 else 0 : Nat) := by split <;> omega
    by_cases hcall : call = .removeProcess pid
    · subst hcall
      have hnone : (m.step (.removeProcess pid)).2.processMap pid = none := by
        rw [step_processMap hnext, entryAfter, if_pos rfl]
      have hrest := final_of_none endTime calls hstep (by omega) hpid' hnone
      exact iff_of_true (final_cons.mpr ⟨hended, hnext, hrest⟩) (undisturbed_cons_remove _ _ _)
    · obtain ⟨info', hafter, hiff⟩ := entryAfter_ended hrunning hend hcall
      have hentry' : (m.step call).2.processMap pid = some info' := by
        rw [step_processMap hnext, hentry, hafter]
      rw [final_cons, undisturbed_cons hcall, ← hiff]
      constructor
      · rintro ⟨-, -, hrest⟩
        have hended' := (ended_of_some hentry').mp hrest.ended
        refine ⟨hended', ?_⟩
        exact (ih hstep (by omega) hentry' hended'.1 hended'.2 hrest.ended hpid').mp hrest
      · rintro ⟨hended', hrest⟩
        refine ⟨hended, hnext, ?_⟩
        exact (ih hstep (by omega) hentry' hended'.1 hended'.2
          ((ended_of_some hentry').mpr hended') hpid').mpr hrest

/-- **Termination.**  After `terminateProcess` returned true the process has ended for
good exactly if, until its entry is removed, it is not resumed and not terminated at
another time. -/
theorem terminateProcess_final_iff (before after : List Call) (pid now : Int)
    (hadds : (before ++ after).countP Call.adds < 2 ^ 31)
    (hresult : ((ProcessManager.start.run before).terminateProcess pid now).1 = true) :
    Final ((ProcessManager.start.run before).terminateProcess pid now).2 pid now after ↔
      Undisturbed pid now after := by
  rw [List.countP_append] at hadds
  have hcounted : Counted (before.countP Call.adds) (ProcessManager.start.run before) := by
    simpa using Counted.start.run before (by omega)
  have hterminated := hcounted.step (.terminateProcess pid now) (by
    rw [if_neg (by simp [Call.adds])]
    omega)
  cases hentry : (ProcessManager.start.run before).processMap pid with
  | none => simp [terminateProcess, hentry] at hresult
  | some info =>
    have hafter :
        ((ProcessManager.start.run before).terminateProcess pid now).2.processMap pid =
          some { info with running := false, endTime := now } := by
      rw [terminateProcess_processMap, if_pos rfl, hentry, Option.map_some]
    exact final_iff_of_ended hterminated (by simpa [Call.adds] using hadds) hafter rfl rfl

/-- A process that is suspended and then removed, while another one is added. -/
theorem suspend_remove_final :
    ((ProcessManager.start.run [.addProcess "init" [] 10 "/"]).terminateProcess 1 20).1 = true ∧
      Final ((ProcessManager.start.run [.addProcess "init" [] 10 "/"]).terminateProcess 1 20).2 1 20
        [.suspendProcess 1, .addProcess "shell" [] 30 "/", .removeProcess 1, .resumeProcess 1] := by
  refine ⟨by decide, (terminateProcess_final_iff _ _ 1 20 (by decide) (by decide)).mpr ?_⟩
  simp [Undisturbed]

/-- A terminated process that is resumed is running. -/
theorem resume_not_final :
    ((ProcessManager.start.run [.addProcess "init" [] 10 "/"]).terminateProcess 1 20).1 = true ∧
      ¬ Final ((ProcessManager.start.run [.addProcess "init" [] 10 "/"]).terminateProcess 1 20).2
        1 20 [.resumeProcess 1] :=
  ⟨by decide, fun h => absurd (h 1).1.1 (by decide)⟩

end FarouKernel.Ports.Process
