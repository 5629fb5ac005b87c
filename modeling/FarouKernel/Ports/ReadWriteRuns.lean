import FarouKernel.Ports.ReadWriteModel
import FarouKernel.Verified.Runs

/-!
# `fs/read_write.c`: every run of `process_file`

`ProcessInv` holds in every state of every run: the file is what has been written of the
data, and each loop counts the errors since its last transfer.  It says nothing about
the results to come, so no byte is lost or repeated under any of them.

Between the markers stand the bytes that were read, in order, and the messages about
interrupted and failed reads, which go to the same output.
-/

namespace FarouKernel.Ports.ReadWrite

open Verified Relation

variable {tid : Nat} {task : FileTask} {p p' : Process} {r : IoResult} {k : Nat}
  {results : List IoResult}

/-! ## Errors since the last transfer -/

/-- Since the last transfer there were `k` errors. -/
def Streak (k : Nat) (results : List IoResult) : Prop :=
  ∃ recent older, results = recent ++ older ∧ (∀ r ∈ recent, ∀ n, r ≠ .count n) ∧
    recent.count .failed = k

theorem streak_zero (results : List IoResult) : Streak 0 results := ⟨[], results, rfl, by simp, rfl⟩

theorem Streak.interrupted (h : Streak k results) : Streak k (.interrupted :: results) := by
  obtain ⟨recent, older, rfl, hnone, hcount⟩ := h
  refine ⟨.interrupted :: recent, older, rfl, ?_, ?_⟩
  · simpa using hnone
  · rwa [List.count_cons_of_ne (by simp)]

theorem Streak.failed (h : Streak k results) : Streak (k + 1) (.failed :: results) := by
  obtain ⟨recent, older, rfl, hnone, hcount⟩ := h
  refine ⟨.failed :: recent, older, rfl, ?_, ?_⟩
  · simpa using hnone
  · rw [List.count_cons_self, hcount]

/-! ## The invariant -/

/-- The number of bytes written. -/
def Process.written (p : Process) : Nat := p.bytesWrittenTotal.toNat

/-- Every result was a count. -/
def Undisturbed (results : List IoResult) : Prop := ∀ r ∈ results, ∃ n, r = .count n

/-- What was sent between the markers: the bytes that were read, and nothing else exactly
if no read was disturbed. -/
structure Sent (task : FileTask) (p : Process) : Prop where
  offset_le : p.offset ≤ task.data.length
  length_le : p.offset ≤ p.between.length
  clean : Undisturbed p.readResults → p.between = task.data.take p.offset
  noisy : ¬Undisturbed p.readResults → p.offset < p.between.length

/-- What holds in each phase. -/
def PhaseInv (task : FileTask) (p : Process) : Phase → Prop
  | .writing => p.written < task.data.length ∧ p.offset = p.written ∧
      Streak p.retries p.writeResults ∧ p.between = [] ∧ p.readResults = []
  | .seeking => p.written = task.data.length ∧ p.between = [] ∧ p.readResults = []
  | .reading => p.written = task.data.length ∧ Sent task p ∧ Streak p.retries p.readResults
  | .stopped .writeFailed => Streak (maxRetries + 1) p.writeResults
  | .stopped .wroteNothing => True
  | .stopped .seekFailed => p.written = task.data.length
  | .stopped .readFailed => p.written = task.data.length ∧ Streak (maxRetries + 1) p.readResults
  | .stopped .endOfFile => p.written = task.data.length ∧ Sent task p ∧ task.data.length ≤ p.offset

/-- The invariant of the runs: the file has as many bytes of the data as were counted, and
`PhaseInv` says what the next system call relies on. -/
structure ProcessInv (task : FileTask) (p : Process) : Prop where
  total_eq : p.bytesWrittenTotal = (p.written : Int)
  written_le : p.written ≤ task.data.length
  file_eq : p.file = task.data.take p.written
  retries_le : p.retries ≤ maxRetries
  phase : PhaseInv task p p.phase

theorem ProcessInv.ofInt64_total (h : ProcessInv task p) :
    ofInt64 p.bytesWrittenTotal = p.written := by
  have hfits := task.data_fits
  have hle := h.written_le
  rw [h.total_eq]
  exact ofInt64_natCast (by omega)

theorem ProcessInv.requested_eq (h : ProcessInv task p) :
    p.requested task = task.data.length - p.written := by
  have hfits := task.data_fits
  rw [Process.requested, h.ofInt64_total]
  exact sub64_of_le h.written_le (by omega)

/-! ## The first loop -/

theorem testWriting_results (q : Process) (rs : List IoResult) :
    { q.testWriting tid task with writeResults := rs } =
      { q with writeResults := rs }.testWriting tid task := by
  unfold Process.testWriting
  split <;> rfl

variable {q : Process} {n : Nat}

/-- The test leads into the loop again, or the data are written. -/
theorem processInv_testWriting (tid : Nat) (htotal : q.bytesWrittenTotal = (q.written : Int))
    (hle : q.written ≤ task.data.length) (hfile : q.file = task.data.take q.written)
    (hretries : q.retries ≤ maxRetries) (hoffset : q.offset = q.written)
    (hstreak : Streak q.retries q.writeResults) (hbetween : q.between = [])
    (hread : q.readResults = []) : ProcessInv task (q.testWriting tid task) := by
  have hconvert : ofInt64 q.bytesWrittenTotal = q.written := by
    have hfits := task.data_fits
    rw [htotal]
    exact ofInt64_natCast (by omega)
  unfold Process.testWriting
  rw [hconvert]
  split
  · next hlt => exact ⟨htotal, hle, hfile, hretries, hlt, hoffset, hstreak, hbetween, hread⟩
  · next hnot =>
      have hall : q.written = task.data.length := by omega
      exact ⟨htotal, hle, hfile, hretries, hall, hbetween, hread⟩

theorem processInv_start (tid : Nat) (task : FileTask) : ProcessInv task (Process.start tid task) :=
  processInv_testWriting tid rfl (Nat.zero_le _) rfl (Nat.zero_le _) rfl (streak_zero _) rfl rfl

/-- A write appends the next bytes of the data. -/
theorem ProcessInv.fileWrite_eq (h : ProcessInv task p) (hoffset : p.offset = p.written) (n : Nat) :
    p.fileWrite task n = task.data.take (p.written + n) := by
  have hlen : p.file.length = p.written := by
    rw [h.file_eq, List.length_take, Nat.min_eq_left h.written_le]
  have htake : p.file.take p.offset = task.data.take p.written := by
    rw [hoffset, List.take_of_length_le (Nat.le_of_eq hlen), h.file_eq]
  have hdrop : p.file.drop (p.offset + n) = [] := by
    apply List.drop_of_length_le
    omega
  unfold Process.fileWrite
  rw [htake, hdrop, List.append_nil, List.take_add]
  rfl

theorem ProcessInv.write (h : ProcessInv task p) (hphase : p.phase = .writing)
    (hpossible : p.Possible task r) : ProcessInv task (p.next tid task r) := by
  unfold Process.Possible at hpossible
  rw [hphase] at hpossible
  have hinv : PhaseInv task p .writing := hphase ▸ h.phase
  obtain ⟨hlt, hoffset, hstreak, hbetween, hread⟩ := hinv
  have hnext : p.next tid task r =
      { p.afterWrite tid task r with writeResults := r :: p.writeResults } := by
    rw [Process.next, hphase]
  rw [hnext]
  cases r with
  | interrupted =>
    rw [Process.afterWrite, testWriting_results]
    exact processInv_testWriting tid h.total_eq h.written_le h.file_eq h.retries_le hoffset
      hstreak.interrupted hbetween hread
  | failed =>
    rw [Process.afterWrite]
    by_cases hretry : p.retries < maxRetries
    · rw [if_pos hretry, testWriting_results]
      exact processInv_testWriting tid h.total_eq h.written_le h.file_eq hretry hoffset
        hstreak.failed hbetween hread
    · have hmax : p.retries = maxRetries := Nat.le_antisymm h.retries_le (by omega)
      rw [if_neg hretry]
      exact ⟨h.total_eq, h.written_le, h.file_eq, h.retries_le, hmax ▸ hstreak.failed⟩
  | count n =>
    cases n with
    | zero => exact ⟨h.total_eq, h.written_le, h.file_eq, h.retries_le, trivial⟩
    | succ n =>
      have hn := hpossible (n + 1) rfl
      have hfile := h.fileWrite_eq hoffset (n + 1)
      rw [h.requested_eq] at hn
      have hwritten : (p.bytesWrittenTotal + (n + 1 : Nat)).toNat = p.written + (n + 1) := by
        rw [h.total_eq]
        omega
      rw [Process.afterWrite, testWriting_results]
      refine processInv_testWriting tid ?_ ?_ ?_ (Nat.zero_le _) ?_ (streak_zero _) hbetween hread
      · show p.bytesWrittenTotal + (n + 1 : Nat) =
          ((p.bytesWrittenTotal + (n + 1 : Nat)).toNat : Int)
        rw [hwritten, h.total_eq]
        omega
      · show (p.bytesWrittenTotal + (n + 1 : Nat)).toNat ≤ _
        omega
      · show p.fileWrite task (n + 1) = task.data.take (p.bytesWrittenTotal + (n + 1 : Nat)).toNat
        rw [hfile, hwritten]
      · show p.offset + (n + 1) = (p.bytesWrittenTotal + (n + 1 : Nat)).toNat
        omega

/-! ## The second loop -/

theorem ProcessInv.seek (h : ProcessInv task p) (hphase : p.phase = .seeking) :
    ProcessInv task (p.next tid task r) := by
  have hinv : PhaseInv task p .seeking := hphase ▸ h.phase
  obtain ⟨hwritten, hbetween, hread⟩ := hinv
  have hnext : p.next tid task r = p.afterSeek tid task r := by rw [Process.next, hphase]
  rw [hnext]
  cases r with
  | count n =>
    refine ⟨h.total_eq, h.written_le, h.file_eq, Nat.zero_le _, hwritten, ?_, streak_zero _⟩
    refine ⟨Nat.zero_le _, Nat.zero_le _, fun _ => hbetween, fun hnoisy => absurd ?_ hnoisy⟩
    show Undisturbed p.readResults
    rw [hread]
    intro r hr
    cases hr
  | interrupted => exact ⟨h.total_eq, h.written_le, h.file_eq, h.retries_le, hwritten⟩
  | failed => exact ⟨h.total_eq, h.written_le, h.file_eq, h.retries_le, hwritten⟩

theorem threadText_pos (tid : Nat) (t : String) : 0 < (threadText tid t).length := by
  unfold threadText Kprintf.text
  rw [List.length_map, String.length_toList, String.length_append, String.length_append,
    String.length_append]
  have hthread : "Thread ".length = 7 := by decide
  omega

/-- A message between the markers. -/
theorem Sent.message (h : Sent task p) {t : List UInt8} (ht : 0 < t.length) (hr : ∀ n, r ≠ .count n)
    (hoffset : q.offset = p.offset) (hbetween : q.between = p.between ++ t)
    (hresults : q.readResults = r :: p.readResults) : Sent task q := by
  have hnoisy : ¬Undisturbed q.readResults := by
    intro hclean
    rw [hresults] at hclean
    obtain ⟨n, hn⟩ := hclean r List.mem_cons_self
    exact hr n hn
  have hlen : q.offset < q.between.length := by
    have hle := h.length_le
    rw [hoffset, hbetween, List.length_append]
    omega
  exact ⟨hoffset ▸ h.offset_le, Nat.le_of_lt hlen, fun hclean => absurd hclean hnoisy,
    fun _ => hlen⟩

theorem undisturbed_count : Undisturbed (.count n :: results) ↔ Undisturbed results := by
  unfold Undisturbed
  rw [List.forall_mem_cons]
  exact and_iff_right ⟨n, rfl⟩

/-- The bytes of one read. -/
theorem Sent.transfer (h : Sent task p) (hfile : p.file = task.data)
    (hn : n ≤ p.file.length - p.offset) (hoffset : q.offset = p.offset + n)
    (hbetween : q.between = p.between ++ (p.file.drop p.offset).take n)
    (hresults : q.readResults = .count n :: p.readResults) : Sent task q := by
  have hle := h.offset_le
  have hchunk : ((p.file.drop p.offset).take n).length = n := by
    rw [List.length_take, List.length_drop, Nat.min_eq_left hn]
  rw [hfile] at hn
  refine ⟨by omega, ?_, ?_, ?_⟩
  · have hlen := h.length_le
    rw [hoffset, hbetween, List.length_append, hchunk]
    omega
  · intro hclean
    rw [hresults, undisturbed_count] at hclean
    rw [hbetween, h.clean hclean, hoffset, hfile, List.take_add]
  · intro hnoisy
    rw [hresults, undisturbed_count] at hnoisy
    have hlt := h.noisy hnoisy
    rw [hoffset, hbetween, List.length_append, hchunk]
    omega

theorem ProcessInv.file_eq_data (h : ProcessInv task p) (hwritten : p.written = task.data.length) :
    p.file = task.data := by
  rw [h.file_eq, hwritten, List.take_length]

theorem ProcessInv.read (h : ProcessInv task p) (hphase : p.phase = .reading)
    (hpossible : p.Possible task r) : ProcessInv task (p.next tid task r) := by
  unfold Process.Possible at hpossible
  rw [hphase] at hpossible
  have hinv : PhaseInv task p .reading := hphase ▸ h.phase
  obtain ⟨hwritten, hsent, hstreak⟩ := hinv
  have hnext : p.next tid task r =
      { p.afterRead tid task r with readResults := r :: p.readResults } := by
    rw [Process.next, hphase]
  rw [hnext]
  cases r with
  | interrupted =>
    refine ⟨h.total_eq, h.written_le, h.file_eq, h.retries_le, ?_⟩
    show PhaseInv task _ p.phase
    rw [hphase]
    exact ⟨hwritten, hsent.message (threadText_pos _ _) (by simp) rfl rfl rfl, hstreak.interrupted⟩
  | failed =>
    rw [Process.afterRead]
    by_cases hretry : p.retries < maxRetries
    · rw [if_pos hretry]
      refine ⟨h.total_eq, h.written_le, h.file_eq, hretry, ?_⟩
      show PhaseInv task _ p.phase
      rw [hphase]
      exact ⟨hwritten, hsent.message (threadText_pos _ _) (by simp) rfl rfl rfl, hstreak.failed⟩
    · have hmax : p.retries = maxRetries := Nat.le_antisymm h.retries_le (by omega)
      rw [if_neg hretry]
      exact ⟨h.total_eq, h.written_le, h.file_eq, h.retries_le, hwritten, hmax ▸ hstreak.failed⟩
  | count n =>
    obtain ⟨_, hleft, hzero⟩ := hpossible n rfl
    have hdata := h.file_eq_data hwritten
    cases n with
    | zero =>
      have hend : task.data.length ≤ p.offset := hdata ▸ hzero.mp rfl
      refine ⟨h.total_eq, h.written_le, h.file_eq, h.retries_le, hwritten, ?_, hend⟩
      exact hsent.transfer hdata hleft rfl (List.append_nil _).symm rfl
    | succ n =>
      have hchunk : ((p.file.drop p.offset).take (n + 1)).length = n + 1 := by
        rw [List.length_take, List.length_drop, Nat.min_eq_left hleft]
      refine ⟨h.total_eq, h.written_le, h.file_eq, Nat.zero_le _, ?_⟩
      show PhaseInv task _ p.phase
      rw [hphase]
      refine ⟨hwritten, hsent.transfer hdata hleft rfl ?_ rfl, streak_zero _⟩
      simp only [Process.afterRead]
      rw [List.take_append_of_le_length (Nat.le_of_eq hchunk.symm),
        List.take_of_length_le (Nat.le_of_eq hchunk)]

/-! ## Whole runs -/

/-- **Every system call preserves the invariant.** -/
theorem ProcessInv.step (h : ProcessInv task p) (hstep : Step tid task p p') :
    ProcessInv task p' := by
  obtain ⟨r, hpossible, rfl⟩ := hstep
  cases hphase : p.phase with
  | writing => exact h.write hphase hpossible
  | seeking => exact h.seek hphase
  | reading => exact h.read hphase hpossible
  | stopped e =>
    unfold Process.Possible at hpossible
    rw [hphase] at hpossible
    exact hpossible.elim

theorem processInv_run (hrun : ReflTransGen (Step tid task) (Process.start tid task) p) :
    ProcessInv task p :=
  run_invariant (ProcessInv task) (fun _ _ h hstep => h.step hstep) hrun (processInv_start tid task)

/-- The second loop has been entered. -/
def Phase.ReadEntered (phase : Phase) : Prop :=
  phase = .reading ∨ phase = .stopped .readFailed ∨ phase = .stopped .endOfFile

/-- More than `MAX_RETRIES` errors without a transfer in between are the last ones. -/
def RetriesUsed (results : List IoResult) : Prop :=
  ∃ recent older, results = recent ++ older ∧ (∀ r ∈ recent, ∀ n, r ≠ .count n) ∧
    maxRetries < recent.count .failed

theorem Streak.retriesUsed (h : Streak (maxRetries + 1) results) : RetriesUsed results := by
  obtain ⟨recent, older, hsplit, hnone, hcount⟩ := h
  exact ⟨recent, older, hsplit, hnone, by omega⟩

theorem ProcessInv.readEntered (h : ProcessInv task p) (hentered : p.phase.ReadEntered) :
    p.file = task.data := by
  have hinv := h.phase
  apply h.file_eq_data
  rcases hentered with hphase | hphase | hphase
  · rw [hphase] at hinv
    exact hinv.1
  · rw [hphase] at hinv
    exact hinv.1
  · rw [hphase] at hinv
    exact hinv.1

theorem ProcessInv.between_eq_iff (h : ProcessInv task p) (hphase : p.phase = .stopped .endOfFile) :
    p.between = task.data ↔ Undisturbed p.readResults := by
  have hinv : PhaseInv task p (.stopped .endOfFile) := hphase ▸ h.phase
  obtain ⟨_, hsent, hend⟩ := hinv
  constructor
  · intro hdata
    by_contra hnoisy
    have hlt := hsent.noisy hnoisy
    rw [hdata] at hlt
    omega
  · intro hclean
    rw [hsent.clean hclean, List.take_of_length_le hend]

/-- **Writing and reading back is exact** in every run, but the data are alone between the
markers exactly if no read was interrupted or failed. -/
theorem process_file_exact_iff (tid : Nat) (task : FileTask)
    (hrun : ReflTransGen (Step tid task) (Process.start tid task) p) :
    (0 ≤ p.bytesWrittenTotal ∧ p.bytesWrittenTotal ≤ task.data.length ∧
        p.file = task.data.take p.bytesWrittenTotal.toNat ∧
        (p.phase.ReadEntered → p.file = task.data) ∧
        (p.phase = .stopped .endOfFile → p.between = task.data) ∧
        (p.phase = .stopped .writeFailed → RetriesUsed p.writeResults) ∧
        (p.phase = .stopped .readFailed → RetriesUsed p.readResults)) ↔
      (p.phase = .stopped .endOfFile → Undisturbed p.readResults) := by
  have h := processInv_run hrun
  constructor
  · rintro ⟨_, _, _, _, hbetween, _⟩ hphase
    exact (h.between_eq_iff hphase).mp (hbetween hphase)
  · intro hclean
    have hle := h.written_le
    have htotal := h.total_eq
    refine ⟨by omega, by omega, h.file_eq, h.readEntered,
      fun hphase => (h.between_eq_iff hphase).mpr (hclean hphase), ?_, ?_⟩
    · intro hphase
      have hinv : PhaseInv task p (.stopped .writeFailed) := hphase ▸ h.phase
      exact Streak.retriesUsed hinv
    · intro hphase
      have hinv : PhaseInv task p (.stopped .readFailed) := hphase ▸ h.phase
      exact hinv.2.retriesUsed

/-! ## Two runs -/

/-- A count is a result of a write if so many bytes are left to write, and of a read if so
many are left in the file and in the buffer. -/
def CountFits (task : FileTask) (p : Process) (n : Nat) : Prop :=
  (p.phase = .writing ∧ n ≤ p.requested task) ∨ p.phase = .seeking ∨
    (p.phase = .reading ∧ n ≤ task.bufferSize ∧ n ≤ p.file.length - p.offset ∧
      (n = 0 ↔ p.file.length ≤ p.offset))

instance (task : FileTask) (p : Process) (n : Nat) : Decidable (CountFits task p n) :=
  inferInstanceAs (Decidable (_ ∨ _ ∨ _))

theorem CountFits.step (h : CountFits task p n) : Step tid task p (p.next tid task (.count n)) := by
  refine ⟨.count n, ?_, rfl⟩
  unfold Process.Possible
  rcases h with ⟨hphase, hn⟩ | hphase | ⟨hphase, hn⟩
  · rw [hphase]
    intro k hk
    cases hk
    exact hn
  · rw [hphase]
    trivial
  · rw [hphase]
    intro k hk
    cases hk
    exact hn

theorem step_interrupted (hphase : p.phase = .reading) :
    Step tid task p (p.next tid task .interrupted) := by
  refine ⟨.interrupted, ?_, rfl⟩
  unfold Process.Possible
  rw [hphase]
  intro k hk
  cases hk

/-- The process after calls that return these counts. -/
def Process.afterCounts (tid : Nat) (task : FileTask) (p : Process) (ns : List Nat) : Process :=
  ns.foldl (fun p n => p.next tid task (.count n)) p

theorem reach_counts (tid : Nat) (task : FileTask) (p : Process) (ns : List Nat)
    (h : ∀ k, k < ns.length →
      CountFits task (p.afterCounts tid task (ns.take k)) (ns.getD k 0)) :
    ReflTransGen (Step tid task) p (p.afterCounts tid task ns) := by
  induction ns generalizing p with
  | nil => exact .refl
  | cons n ns ih =>
    have hrest := ih (p.next tid task (.count n)) fun k hk => h (k + 1) (Nat.succ_lt_succ hk)
    exact hrest.head (h 0 (Nat.succ_pos _)).step

/-- The letter `A` is to be written to the file `f`. -/
def letterTask : FileTask where
  filename := [102]
  data := [65]
  bufferSize := 1
  data_fits := by decide
  buffer_pos := by decide

/-- The letters `AB` are to be written to the file `f`. -/
def wordTask : FileTask where
  filename := [102]
  data := [65, 66]
  bufferSize := 2
  data_fits := by decide
  buffer_pos := by decide

/-- The two letters are written and read one by one: nothing else stands between the
markers. -/
theorem process_file_exact_word :
    ((Process.start 1 wordTask).afterCounts 1 wordTask [1, 1, 0, 1, 1, 0]).between = [65, 66] := by
  have hrun := reach_counts 1 wordTask (.start 1 wordTask) [1, 1, 0, 1, 1, 0] (by decide)
  have hclean : Undisturbed
      ((Process.start 1 wordTask).afterCounts 1 wordTask [1, 1, 0, 1, 1, 0]).readResults := by
    intro r hr
    have hmem : r ∈ [0, 1, 1].map IoResult.count := hr
    rcases List.mem_map.mp hmem with ⟨n, _, hn⟩
    exact ⟨n, hn.symm⟩
  exact ((process_file_exact_iff 1 wordTask hrun).mpr fun _ => hclean).2.2.2.2.1 (by decide)

/-- After an interrupted read a message stands between the markers. -/
theorem process_file_message :
    ∃ p, ReflTransGen (Step 1 letterTask) (Process.start 1 letterTask) p ∧
      p.phase = .stopped .endOfFile ∧
      p.between = Kprintf.text "Thread 1: Read interrupted, retrying...\nA" ∧
      p.between ≠ letterTask.data := by
  have hwritten := reach_counts 1 letterTask (.start 1 letterTask) [1, 0] (by decide)
  have hinterrupted := hwritten.tail (step_interrupted (by decide))
  have hread := hinterrupted.trans (reach_counts 1 letterTask _ [1, 0] (by decide))
  exact ⟨_, hread, by decide, by decide, by decide⟩

end FarouKernel.Ports.ReadWrite
