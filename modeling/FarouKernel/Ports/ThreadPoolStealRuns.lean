import FarouKernel.Ports.ThreadPoolRuns
import FarouKernel.Ports.ThreadPoolStealing

/-!
# No task is lost, duplicated or overtaken

Every step does one of four things to the queues: nothing, one task more at the back of
a queue, some tasks less at the back of the thread's own queue, or one less in front of
another one.  So in every interleaving the tasks that were pushed are those that were
handed out and those in the queues, and a queue has its tasks in the order in which
they were pushed.
-/

namespace FarouKernel.Ports.ThreadPool

variable {localIndex : Nat}

namespace StealConfig

variable {Θ T : Type} {n : Nat} {c c' : StealConfig Θ T}

/-! ## The invariant -/

/-- What is true in every run: `n` queues, a chosen queue is one of them, no task is lost
or duplicated, tasks are numbered as they are pushed, and each queue has its oldest task
in front. -/
structure StealInv (n : Nat) (c : StealConfig Θ T) : Prop where
  length : c.queue.queues.length = n
  chosen : ∀ t i task, c.calls t = .pushing i task → i < n
  conserved : (c.handed ++ c.queue.queues.flatten).Perm c.pushed
  numbered : c.pushed.map Prod.fst = List.range c.pushed.length
  ordered : ∀ tasks ∈ c.queue.queues, tasks.Pairwise fun a b => a.1 < b.1

theorem StealInv.init (n : Nat) : StealInv n (StealConfig.init n : StealConfig Θ T) where
  length := List.length_replicate
  chosen := by
    intro t i task h
    cases h
  conserved := by simp [StealConfig.init, LockFreeStealQueue.ofSize]
  numbered := rfl
  ordered := by
    intro tasks htasks
    rw [List.eq_of_mem_replicate htasks]
    exact .nil

variable {t : Θ} {taken : Taken T} {tasks : List (Nat × T)}

/-- The tasks in the queues were pushed before, so their numbers are smaller than the
next one. -/
theorem StealInv.number_lt (h : StealInv n c) (htasks : tasks ∈ c.queue.queues) {a : Nat × T}
    (ha : a ∈ tasks) : a.1 < c.pushed.length := by
  have hmem : a ∈ c.pushed :=
    h.conserved.subset (List.mem_append_right _ (List.mem_flatten.mpr ⟨tasks, htasks, ha⟩))
  have hnumber : a.1 ∈ c.pushed.map Prod.fst := List.mem_map_of_mem hmem
  rw [h.numbered] at hnumber
  exact List.mem_range.mp hnumber

/-- What is left of a queue is in order. -/
theorem StealInv.ordered_set (h : StealInv n c) {i : Nat} {left : List (Nat × T)}
    (hget : c.queue.queues[i]? = some tasks) (hsub : left.Sublist tasks) :
    ∀ other ∈ c.queue.queues.set i left, other.Pairwise fun a b => a.1 < b.1 := by
  intro other hother
  obtain hmem | rfl := List.mem_or_eq_of_mem_set hother
  · exact h.ordered other hmem
  · exact (h.ordered tasks (List.mem_of_getElem? hget)).sublist hsub

theorem StealInv.select_lt (h : StealInv n c) (hlocal : localIndex < n) :
    (c.queue.select localIndex).1 < n := by
  unfold LockFreeStealQueue.select
  split
  · rw [h.length]
    exact Nat.mod_lt _ (by omega)
  · exact hlocal

variable [DecidableEq Θ]

/-! ## What a step does to the queues and the logs -/

/-- The calls after a step: a queue that is chosen was chosen before, or is the one
`select` gives. -/
def Chooses (localIndex : Nat) (c c' : StealConfig Θ T) : Prop :=
  ∀ t i task, c'.calls t = .pushing i task →
    c.calls t = .pushing i task ∨ i = (c.queue.select localIndex).1

theorem chooses_update {state : CallState T} (hcalls : c'.calls = Function.update c.calls t state)
    (hstate : ∀ i task, state = .pushing i task → i = (c.queue.select localIndex).1) :
    Chooses localIndex c c' := by
  intro t' i task h
  rw [hcalls, Function.update_apply] at h
  split at h
  · exact Or.inr (hstate i task h)
  · exact Or.inl h

theorem chooses_goto (localIndex : Nat) {state : CallState T}
    (hstate : ∀ i task, state ≠ .pushing i task) : Chooses localIndex c (c.goto t state) :=
  chooses_update rfl fun i task h => absurd h (hstate i task)

/-- The four kinds of steps: nothing moves, a task is pushed, tasks are taken from the back
of the own queue, or one is stolen from the front of another. -/
inductive Effect (localIndex : Nat) (c : StealConfig Θ T) : Taken T → StealConfig Θ T → Prop where
  | quiet {c' : StealConfig Θ T} (hqueues : c'.queue.queues = c.queue.queues)
      (hpushed : c'.pushed = c.pushed) (hhanded : c'.handed = c.handed)
      (hcalls : Chooses localIndex c c') :
      Effect localIndex c .nothing c'
  | pushed {c' : StealConfig Θ T} {i : Nat} {tasks : List (Nat × T)} {task : T}
      (hget : c.queue.queues[i]? = some tasks)
      (hqueues : c'.queue.queues = c.queue.queues.set i (tasks ++ [(c.pushed.length, task)]))
      (hpushed : c'.pushed = c.pushed ++ [(c.pushed.length, task)])
      (hhanded : c'.handed = c.handed) (hcalls : Chooses localIndex c c') :
      Effect localIndex c .nothing c'
  | own {t : Θ} {left taken : List (Nat × T)}
      (hget : c.queue.queues[localIndex]? = some (left ++ taken.reverse)) :
      Effect localIndex c (.own localIndex taken) (c.hand t localIndex left taken)
  | stolen {t : Θ} {j : Nat} {left : List (Nat × T)} {task : Nat × T} (hj : j ≠ localIndex)
      (hget : c.queue.queues[j]? = some (task :: left)) :
      Effect localIndex c (.stolen j task) (c.hand t j left [task])

theorem popBacks_eq (n : Nat) (result tasks : List T) :
    ∃ taken left, LockFreeStealQueue.popBacks n result tasks = (result ++ taken, left) ∧
      tasks = left ++ taken.reverse := by
  induction n generalizing result tasks with
  | zero => exact ⟨[], tasks, by simp [LockFreeStealQueue.popBacks], by simp⟩
  | succ n ih =>
    rw [LockFreeStealQueue.popBacks]
    cases hlast : tasks.getLast? with
    | none => exact ⟨[], tasks, by simp, by simp⟩
    | some task =>
      obtain ⟨front, rfl⟩ := List.getLast?_eq_some_iff.mp hlast
      rw [List.dropLast_concat]
      obtain ⟨taken, left, hpop, rfl⟩ := ih (result ++ [task]) front
      exact ⟨task :: taken, left, by simp [hpop], by simp⟩

theorem effect_of_advance {c c' : StealConfig Θ T} (h : c.advance localIndex t = some (taken, c')) :
    Effect localIndex c taken c' := by
  unfold advance at h
  cases hcall : c.calls t with
  | idle =>
    rw [hcall] at h
    cases h
  | pushing i task =>
    simp only [hcall] at h
    cases hget : c.queue.queues[i]? with
    | none =>
      rw [hget] at h
      cases h
    | some tasks =>
      simp only [hget] at h
      cases h
      exact .pushed hget rfl rfl rfl (chooses_update rfl (by simp))
  | popping =>
    simp only [hcall] at h
    cases hget : c.queue.queues[localIndex]? with
    | none =>
      rw [hget] at h
      cases h
    | some tasks =>
      simp only [hget] at h
      cases hlast : tasks.getLast? with
      | none =>
        simp only [hlast] at h
        cases h
        exact .quiet rfl rfl rfl (chooses_goto _ (by simp))
      | some task =>
        obtain ⟨front, rfl⟩ := List.getLast?_eq_some_iff.mp hlast
        simp only [hlast, List.dropLast_concat] at h
        cases h
        exact .own hget
  | scanning j =>
    simp only [hcall] at h
    cases hget : c.queue.queues[j]? with
    | none =>
      simp only [hget] at h
      cases h
      exact .quiet rfl rfl rfl (chooses_goto _ (by simp))
    | some tasks =>
      simp only [hget] at h
      by_cases hj : j = localIndex
      · rw [if_pos hj] at h
        cases h
        exact .quiet rfl rfl rfl (chooses_goto _ (by simp))
      · rw [if_neg hj] at h
        cases tasks with
        | nil =>
          cases h
          exact .quiet rfl rfl rfl (chooses_goto _ (by simp))
        | cons task tasks =>
          cases h
          exact .stolen hj hget
  | bulkPopping maxTasks =>
    simp only [hcall] at h
    cases hget : c.queue.queues[localIndex]? with
    | none =>
      rw [hget] at h
      cases h
    | some tasks =>
      obtain ⟨result, left, hpop, htasks⟩ := popBacks_eq (min maxTasks tasks.length) [] tasks
      simp only [hget, hpop, List.nil_append] at h
      cases h
      exact .own (htasks ▸ hget)

theorem effect_of_step {localIndex : Θ → Nat} {action : Action T}
    (h : c.step localIndex t action = some (taken, c')) : Effect (localIndex t) c taken c' := by
  have hsame : Effect (localIndex t) c .nothing c :=
    .quiet rfl rfl rfl fun _ _ _ hcall => Or.inl hcall
  cases action with
  | advance => exact effect_of_advance (t := t) (by simpa [step] using h)
  | push task =>
    cases hcall : c.calls t with
    | idle =>
      simp only [step, hcall] at h
      cases h
      refine .quiet rfl rfl rfl (chooses_update rfl ?_)
      intro i task' hstate
      cases hstate
      rfl
    | _ => simp [step, hcall] at h
  | tryPop =>
    cases hcall : c.calls t with
    | idle =>
      simp only [step, hcall] at h
      split at h
      · cases h
        exact hsame
      · cases h
        exact .quiet rfl rfl rfl (chooses_goto _ (by simp))
    | _ => simp [step, hcall] at h
  | tryPopBulk maxTasks =>
    cases hcall : c.calls t with
    | idle =>
      simp only [step, hcall] at h
      split at h
      · cases h
        exact hsame
      · cases h
        exact .quiet rfl rfl rfl (chooses_goto _ (by simp))
    | _ => simp [step, hcall] at h

/-- A step chooses no queue but the one `select` gives. -/
theorem Effect.chooses (h : Effect localIndex c taken c') : Chooses localIndex c c' := by
  cases h with
  | quiet _ _ _ hcalls => exact hcalls
  | pushed _ _ _ _ hcalls => exact hcalls
  | own => exact chooses_update rfl (by simp)
  | stolen => exact chooses_update rfl (by simp)

/-! ## Runs -/

/-- A step that takes tasks from one queue and leaves the others there in their order. -/
theorem StealInv.hand {i : Nat} {left taken : List (Nat × T)} (h : StealInv n c)
    (hchosen : ∀ t' i' task, (c.hand t i left taken).calls t' = .pushing i' task → i' < n)
    (hget : c.queue.queues[i]? = some tasks) (hperm : (taken ++ left).Perm tasks)
    (hsub : left.Sublist tasks) : StealInv n (c.hand t i left taken) := by
  refine ⟨?_, hchosen, ?_, h.numbered, h.ordered_set hget hsub⟩
  · exact (List.length_set ..).trans h.length
  · show ((c.handed ++ taken) ++ (c.queue.queues.set i left).flatten).Perm c.pushed
    rw [List.append_assoc]
    exact ((LockFreeStealQueue.flatten_pop_perm hget hperm).append_left c.handed).trans h.conserved

/-- **One step.** -/
theorem StealInv.step (h : StealInv n c) (hlocal : localIndex < n)
    (heffect : Effect localIndex c taken c') : StealInv n c' := by
  have hchosen : ∀ t i task, c'.calls t = .pushing i task → i < n := by
    intro t i task hcall
    obtain hbefore | rfl := heffect.chooses t i task hcall
    · exact h.chosen t i task hbefore
    · exact h.select_lt hlocal
  cases heffect with
  | quiet hqueues hpushed hhanded =>
    refine ⟨hqueues ▸ h.length, hchosen, ?_, hpushed ▸ h.numbered, hqueues ▸ h.ordered⟩
    rw [hqueues, hpushed, hhanded]
    exact h.conserved
  | @pushed _ i tasks task hget hqueues hpushed hhanded =>
    refine ⟨?_, hchosen, ?_, ?_, ?_⟩
    · rw [hqueues, List.length_set, h.length]
    · rw [hqueues, hpushed, hhanded]
      have hpush := LockFreeStealQueue.flatten_push_perm hget (c.pushed.length, task)
      refine (hpush.append_left c.handed).trans ?_
      rw [← List.append_assoc]
      exact h.conserved.append_right _
    · rw [hpushed, List.map_append, List.length_append, h.numbered]
      exact List.range_succ.symm
    · rw [hqueues]
      intro other hother
      obtain hmem | rfl := List.mem_or_eq_of_mem_set hother
      · exact h.ordered other hmem
      · have htasks := List.mem_of_getElem? hget
        refine List.pairwise_append.mpr ⟨h.ordered tasks htasks, List.pairwise_singleton .., ?_⟩
        intro a ha b hb
        rw [List.mem_singleton.mp hb]
        exact h.number_lt htasks ha
  | @own t left taken hget =>
    have hperm : (taken ++ left).Perm (left ++ taken.reverse) :=
      List.perm_append_comm.trans ((List.reverse_perm taken).symm.append_left left)
    exact h.hand hchosen hget hperm (List.sublist_append_left _ _)
  | @stolen t j left task hj hget =>
    exact h.hand hchosen hget (.refl ([task] ++ left)) (List.sublist_cons_self _ _)

theorem StealInv.run {localIndex : Θ → Nat} (h : StealInv n c) (hlocal : ∀ t, localIndex t < n)
    {schedule : List (Θ × Action T)} (hrun : c.run localIndex schedule = some c') :
    StealInv n c' := by
  induction schedule generalizing c with
  | nil =>
    cases hrun
    exact h
  | cons first schedule ih =>
    obtain ⟨t, action⟩ := first
    unfold StealConfig.run at hrun
    cases hstep : c.step localIndex t action with
    | none =>
      rw [hstep] at hrun
      cases hrun
    | some r =>
      obtain ⟨taken, c1⟩ := r
      simp only [hstep] at hrun
      exact ih (h.step (hlocal t) (effect_of_step hstep)) hrun

/-- A thread in a call can go on: the queue it uses exists. -/
theorem StealInv.advance_isSome (h : StealInv n c) (hlocal : localIndex < n)
    (hcall : c.calls t ≠ .idle) : (c.advance localIndex t).isSome = true := by
  have hexists : ∀ i < n, ∃ tasks, c.queue.queues[i]? = some tasks := by
    intro i hi
    rw [← h.length] at hi
    exact ⟨_, List.getElem?_eq_getElem hi⟩
  obtain ⟨own, hown⟩ := hexists localIndex hlocal
  unfold advance
  cases hstate : c.calls t with
  | idle => exact absurd hstate hcall
  | pushing i task =>
    obtain ⟨tasks, htasks⟩ := hexists i (h.chosen t i task hstate)
    simp only [htasks, Option.isSome_some]
  | popping =>
    simp only [hown]
    split <;> rfl
  | scanning j =>
    simp only
    split
    · rfl
    · split
      · rfl
      · split <;> rfl
  | bulkPopping maxTasks =>
    simp only [hown, Option.isSome_some]

/-- The order in which a step takes tasks from a queue: the owner takes the newest ones,
a newer one before an older one, and a thief the oldest one. -/
def InOrder (localIndex : Nat) (c c' : StealConfig Θ T) : Taken T → Prop
  | .nothing => True
  | .own i tasks =>
    i = localIndex ∧ tasks.Pairwise (fun a b => b.1 < a.1) ∧
      ∃ left, c.queue.queues[i]? = some (left ++ tasks.reverse) ∧
        c'.queue.queues[i]? = some left ∧ ∀ a ∈ left, ∀ b ∈ tasks, a.1 < b.1
  | .stolen j task =>
    j ≠ localIndex ∧
      ∃ left, c.queue.queues[j]? = some (task :: left) ∧
        c'.queue.queues[j]? = some left ∧ ∀ a ∈ left, task.1 < a.1

theorem StealInv.inOrder (h : StealInv n c) (heffect : Effect localIndex c taken c') :
    InOrder localIndex c c' taken := by
  cases heffect with
  | quiet => trivial
  | pushed => trivial
  | @own t left taken hget =>
    have hordered := h.ordered _ (List.mem_of_getElem? hget)
    rw [List.pairwise_append, List.pairwise_reverse] at hordered
    obtain ⟨hlt, -⟩ := List.getElem?_eq_some_iff.mp hget
    refine ⟨rfl, hordered.2.1, left, hget, List.getElem?_set_self hlt, ?_⟩
    intro a ha b hb
    exact hordered.2.2 a ha b (List.mem_reverse.mpr hb)
  | @stolen t j left task hj hget =>
    have hordered := h.ordered _ (List.mem_of_getElem? hget)
    obtain ⟨hlt, -⟩ := List.getElem?_eq_some_iff.mp hget
    exact ⟨hj, left, hget, List.getElem?_set_self hlt, (List.pairwise_cons.mp hordered).1⟩

/-- **The stealing queue** in every interleaving: the pushed tasks are those that were
handed out and those in the queues, each as often as it was pushed; no thread is stuck in
a call; and every step takes tasks from a queue in their order. -/
theorem stealing_conserves (n : Nat) (localIndex : Θ → Nat) (hlocal : ∀ t, localIndex t < n)
    (schedule : List (Θ × Action T)) (c : StealConfig Θ T)
    (hrun : (StealConfig.init n).run localIndex schedule = some c) :
    (c.handed ++ c.queue.queues.flatten).Perm c.pushed ∧
      c.pushed.map Prod.fst = List.range c.pushed.length ∧
      (∀ t, c.calls t ≠ .idle → (c.step localIndex t .advance).isSome = true) ∧
      ∀ t action taken c', c.step localIndex t action = some (taken, c') →
        InOrder (localIndex t) c c' taken := by
  have h := (StealInv.init n).run hlocal hrun
  refine ⟨h.conserved, h.numbered, ?_, ?_⟩
  · intro t hcall
    simpa [step] using h.advance_isSome (hlocal t) hcall
  · intro t action taken c' hstep
    exact h.inOrder (effect_of_step hstep)

/-- Thread 1 pushes two tasks, thread 2 takes the older one from it while scanning, and
thread 1 takes the other. -/
def stealSchedule : List (Fin 3 × Action Nat) :=
  [(1, .push 7), (1, .advance), (1, .push 8), (2, .tryPop), (2, .advance), (1, .advance),
    (2, .advance), (2, .advance), (1, .tryPopBulk 10), (1, .advance)]

theorem stealing_conserves_schedule :
    ∃ c, (StealConfig.init 3).run Fin.val stealSchedule = some c ∧
      c.handed = [(0, 7), (1, 8)] ∧ (c.handed ++ c.queue.queues.flatten).Perm c.pushed :=
  ⟨_, rfl, rfl, (stealing_conserves 3 Fin.val (fun t => t.isLt) stealSchedule _ rfl).1⟩

/-! ## Calls that nobody interferes with -/

/-- Thread `t` alone takes `k` steps. -/
def alone (localIndex : Nat) (t : Θ) : Nat → StealConfig Θ T → Option (StealConfig Θ T)
  | 0, c => some c
  | k + 1, c => (c.advance localIndex t).bind fun r => alone localIndex t k r.2

/-- What the loop of `try_pop` returns and leaves, for the result of `steal`. -/
def Scanned (c c' : StealConfig Θ T) (j : Nat) :
    Option ((Nat × T) × List (List (Nat × T))) → Prop
  | some (task, rest) =>
    c'.queue = { c.queue with queues := c.queue.queues.take j ++ rest } ∧
      c'.handed = c.handed ++ [task]
  | none => c'.queue = c.queue ∧ c'.handed = c.handed

/-- The loop, by induction on the queues it has still to look at. -/
theorem scan_alone (localIndex : Nat) (t : Θ) (m : Nat) {c : StealConfig Θ T} {j : Nat}
    (hm : c.queue.queues.length - j = m) (hcall : c.calls t = .scanning j) :
    ∃ k c', alone localIndex t k c = some c' ∧ c'.calls t = .idle ∧
      Scanned c c' j (LockFreeStealQueue.steal localIndex j (c.queue.queues.drop j)) := by
  induction m generalizing c j with
  | zero =>
    have hend : c.queue.queues[j]? = none := List.getElem?_eq_none (by omega)
    refine ⟨1, c.goto t .idle, ?_, Function.update_self .., ?_⟩
    · simp [alone, advance, hcall, hend]
    · rw [List.drop_eq_nil_of_le (by omega), LockFreeStealQueue.steal]
      exact ⟨rfl, rfl⟩
  | succ m ih =>
    have hlt : j < c.queue.queues.length := by omega
    have hget := List.getElem?_eq_getElem hlt
    have hcons := List.drop_eq_getElem_cons hlt
    have htake : c.queue.queues.take (j + 1) = c.queue.queues.take j ++ [c.queue.queues[j]] :=
      List.take_succ_eq_append_getElem hlt
    -- A queue that is passed over stays as it is, in the loop and in `steal`.
    have hpass : ∀ r, c.advance localIndex t = some (.nothing, c.goto t (.scanning (j + 1))) →
        r = LockFreeStealQueue.steal localIndex (j + 1) (c.queue.queues.drop (j + 1)) →
        ∃ k c', alone localIndex t k c = some c' ∧ c'.calls t = .idle ∧
          Scanned c c' j (r.map fun r => (r.1, c.queue.queues[j] :: r.2)) := by
      intro r hstep hr
      obtain ⟨k, c', halone, hidle, hscanned⟩ := ih (c := c.goto t (.scanning (j + 1)))
        (j := j + 1) (by show c.queue.queues.length - (j + 1) = m; omega)
        (Function.update_self ..)
      refine ⟨k + 1, c', by simpa [alone, hstep] using halone, hidle, ?_⟩
      change Scanned c c' (j + 1) (LockFreeStealQueue.steal localIndex (j + 1)
        (c.queue.queues.drop (j + 1))) at hscanned
      rw [← hr] at hscanned
      cases r with
      | none => exact hscanned
      | some r =>
        refine ⟨hscanned.1.trans ?_, hscanned.2⟩
        rw [htake, List.append_assoc, List.singleton_append]
    rw [hcons]
    unfold LockFreeStealQueue.steal
    by_cases hj : j = localIndex
    · rw [if_pos hj]
      exact hpass _ (by simp only [advance, hcall, hget, if_pos hj]) rfl
    · rw [if_neg hj]
      cases htasks : c.queue.queues[j] with
      | nil =>
        have hempty := hpass _ (by simp only [advance, hcall, hget, if_neg hj, htasks]) rfl
        rw [htasks] at hempty
        exact hempty
      | cons task tasks =>
        refine ⟨1, c.hand t j tasks [task], ?_, Function.update_self .., ?_, rfl⟩
        · simp [alone, advance, hcall, hget, hj, htasks]
        · show { c.queue with queues := c.queue.queues.set j tasks } = _
          rw [List.set_eq_take_append_cons_drop, if_pos hlt]

/-- **A call of `try_pop` that nobody interferes with** returns what `tryPop` does and
leaves the queues it leaves. -/
theorem tryPop_alone (hlocal : localIndex ≠ 0) (hlt : localIndex < c.queue.queues.length)
    (hcall : c.calls t = .popping) :
    ∃ k c' result, alone localIndex t k c = some c' ∧ c'.calls t = .idle ∧
      c.queue.tryPop localIndex = some (result, c'.queue) ∧
      c'.handed = c.handed ++ result.toList := by
  have hget := List.getElem?_eq_getElem hlt
  simp only [LockFreeStealQueue.tryPop, if_neg hlocal, hget]
  cases hlast : c.queue.queues[localIndex].getLast? with
  | some task =>
    refine ⟨1, c.hand t localIndex c.queue.queues[localIndex].dropLast [task], some task, ?_,
      Function.update_self .., rfl, rfl⟩
    simp [alone, advance, hcall, hget, hlast]
  | none =>
    have hstep : c.advance localIndex t = some (.nothing, c.goto t (.scanning 0)) := by
      simp only [advance, hcall, hget, hlast]
    obtain ⟨k, c', halone, hidle, hscanned⟩ := scan_alone localIndex t _
      (c := c.goto t (.scanning 0)) (j := 0) rfl (Function.update_self ..)
    change Scanned c c' 0 (LockFreeStealQueue.steal localIndex 0 c.queue.queues) at hscanned
    cases hsteal : LockFreeStealQueue.steal localIndex 0 c.queue.queues with
    | none =>
      rw [hsteal] at hscanned
      refine ⟨k + 1, c', none, by simpa [alone, hstep] using halone, hidle, ?_, ?_⟩
      · rw [hscanned.1]
      · simpa using hscanned.2
    | some r =>
      rw [hsteal] at hscanned
      refine ⟨k + 1, c', some r.1, by simpa [alone, hstep] using halone, hidle, ?_, hscanned.2⟩
      rw [hscanned.1, List.take_zero, List.nil_append]

/-- A thread with an empty queue, and a task in the other one. -/
def oneToSteal : StealConfig Unit Nat :=
  ⟨⟨[[(0, 7)], []], 1⟩, fun _ => .popping, [(0, 7)], []⟩

theorem tryPop_alone_steals :
    ∃ k c' result, alone 1 () k oneToSteal = some c' ∧ c'.calls () = .idle ∧
      oneToSteal.queue.tryPop 1 = some (result, c'.queue) ∧ c'.handed = [] ++ result.toList :=
  tryPop_alone (by decide) (by decide) rfl

end StealConfig

end FarouKernel.Ports.ThreadPool
