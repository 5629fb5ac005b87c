import FarouKernel.Ports.MoveModel

/-!
# `fs/dir_functions.cpp`: what a move leaves behind

`moveWith_course` says once what a call can do, for every pattern of failures; the
results about failed moves, successful moves and the fallback to a copy are read off it.

The guard puts an existing destination aside, but its destructor puts the backup in the
place of the source, and nothing removes the backup after a move that succeeded.
`tryOperation` throws whenever it does not return `true`, unless there is to be no
attempt at all, and in that case the copy and the removal are not attempted either.
-/

namespace FarouKernel.Ports.Dir

open Verified

variable {C : Type} {sys : System C} {src dst : String} {options : MoveOptions}

/-! ## Parts of a call -/

theorem backupPath_ne (dst : String) : backupPath dst ≠ dst := by
  intro h
  have hlen := congrArg String.length h
  have hsuffix : ".bak".length = 4 := by decide
  rw [backupPath, String.length_append] at hlen
  omega

theorem backupPath_ne_empty (dst : String) : backupPath dst ≠ "" := by
  intro h
  have hlen := congrArg String.length h
  have hsuffix : ".bak".length = 4 := by decide
  have hempty : "".length = 0 := by decide
  rw [backupPath, String.length_append] at hlen
  omega

/-- `fs::exists` answers or throws, and changes nothing. -/
theorem fsExists_cases (sys : System C) (path : String) (d : Disk String C) :
    (sys.fate d.log.length (.stat path) = .done ∧
      fsExists sys path d = (.ok (d.files path).isSome, ⟨d.files, .stat path :: d.log⟩)) ∨
    (sys.fate d.log.length (.stat path) ≠ .done ∧
      ∃ e, fsExists sys path d = (.error e, ⟨d.files, .stat path :: d.log⟩)) := by
  cases h : sys.fate d.log.length (.stat path) with
  | done =>
    left
    rw [fsExists, Disk.perform_stat_done h]
    exact ⟨rfl, rfl⟩
  | fails ec left =>
    right
    rw [fsExists, Disk.perform_stat_fails h]
    exact ⟨by simp, _, rfl⟩

/-- The `try` block renames, or throws after as many attempts as allowed; without
attempts it does nothing. -/
theorem moveBody_cases (sys : System C) (src dst : String) (options : MoveOptions)
    (d : Disk String C) :
    (∃ d', 0 < options.retryAttempts ∧ d.files src ≠ none ∧
      (∃ n, sys.fate n (.rename src dst) = .done) ∧ d'.files = moveEntry d.files src dst ∧
      moveBody sys src dst options d = (.ok (), d')) ∨
    (options.retryAttempts = 0 ∧ moveBody sys src dst options d = (.ok (), d)) ∨
    (0 < options.retryAttempts ∧ ∃ e, moveBody sys src dst options d =
      (.error e, d.repeated (.rename src dst) options.retryAttempts)) := by
  unfold moveBody tryOperation
  rcases Disk.retry_rename sys.fate d src dst options.retryAttempts none with
    ⟨i, hi, hsrc, hdone, hrun⟩ | ⟨last, hlast, hrun⟩
  · left
    rw [hrun]
    exact ⟨_, by omega, hsrc, ⟨_, hdone⟩, rfl, rfl⟩
  · rw [hrun]
    cases last with
    | none =>
      -- no attempt: the copy and the removal are not attempted either
      have hzero : options.retryAttempts = 0 := (hlast.mp rfl).1
      refine Or.inr (Or.inl ⟨hzero, ?_⟩)
      rw [hzero]
      simp only [throwIfError, moveAcrossFs, tryOperation, hzero, Disk.retry]
      rfl
    | some ec =>
      have hpos : options.retryAttempts ≠ 0 := by
        intro hzero
        exact Option.some_ne_none ec (hlast.mpr ⟨hzero, rfl⟩)
      exact Or.inr (Or.inr ⟨by omega, _, rfl⟩)

/-! ## The course of a call -/

/-- The destination is put aside: both paths exist, and none of the first three
operations fails. -/
structure BackedUp (sys : System C) (files : String → Option C) (src dst : String) : Prop where
  source : files src ≠ none
  target : files dst ≠ none
  statSource : sys.fate 0 (.stat src) = .done
  statTarget : sys.fate 1 (.stat dst) = .done
  rename : sys.fate 2 (.rename dst (backupPath dst)) = .done

/-- The files with the destination put aside. -/
def setAside (files : String → Option C) (dst : String) : String → Option C :=
  moveEntry files dst (backupPath dst)

/-- The disk with the destination put aside. -/
def asideDisk (files : String → Option C) (src dst : String) : Disk String C :=
  ⟨setAside files dst, [.rename dst (backupPath dst), .stat dst, .stat src]⟩

/-- The results of a call. -/
inductive Course (sys : System C) (files : String → Option C) (src dst : String)
    (options : MoveOptions) : Except Thrown String × Disk String C → Prop
  /-- It throws, and no backup was made. -/
  | unchanged (e : Thrown) (d : Disk String C) (hnot : ¬BackedUp sys files src dst)
      (hfiles : d.files = files) : Course sys files src dst options (.error e, d)
  /-- There was no destination, and the source was renamed. -/
  | renamed (d : Disk String C) (hattempts : 0 < options.retryAttempts) (hsrc : files src ≠ none)
      (hdst : files dst = none) (hdone : ∃ n, sys.fate n (.rename src dst) = .done)
      (hfiles : d.files = moveEntry files src dst) : Course sys files src dst options (.ok dst, d)
  /-- There was no destination, and nothing was attempted. -/
  | idle (d : Disk String C) (hattempts : options.retryAttempts = 0) (hsrc : files src ≠ none)
      (hdst : files dst = none) (hfiles : d.files = files) :
      Course sys files src dst options (.ok dst, d)
  /-- The destination was put aside, and the source was renamed. -/
  | replaced (d : Disk String C) (hattempts : 0 < options.retryAttempts)
      (hback : BackedUp sys files src dst) (hsrc : setAside files dst src ≠ none)
      (hdone : ∃ n, sys.fate n (.rename src dst) = .done)
      (hfiles : d.files = moveEntry (setAside files dst) src dst) :
      Course sys files src dst options (.ok dst, d)
  /-- The destination was put aside, and nothing was attempted. -/
  | aside (d : Disk String C) (hattempts : options.retryAttempts = 0)
      (hback : BackedUp sys files src dst) (hfiles : d.files = setAside files dst) :
      Course sys files src dst options (.ok dst, d)
  /-- The destination was put aside, and every rename failed. -/
  | rolledBack (e : Thrown) (hattempts : 0 < options.retryAttempts)
      (hback : BackedUp sys files src dst) :
      Course sys files src dst options
        (.error e, FileOperationGuard.destroy sys ⟨src, backupPath dst, false⟩
          ((asideDisk files src dst).repeated (.rename src dst) options.retryAttempts))

theorem destroy_no_backup (sys : System C) (src : String) (d : Disk String C) :
    FileOperationGuard.destroy sys ⟨src, "", false⟩ d = d :=
  if_neg fun h => h.2 rfl

theorem destroy_commit (sys : System C) (g : FileOperationGuard) (d : Disk String C) :
    g.commit.destroy sys d = d :=
  if_neg fun h => Bool.noConfusion h.1

/-- The guard after `fs::exists(source)` has found the source. -/
theorem construct_cases (files : String → Option C) (dst : String) (hsrc : files src ≠ none)
    (hstat : sys.fate 0 (.stat src) = .done) :
    (∃ e d, FileOperationGuard.construct sys src dst ⟨files, [.stat src]⟩ = (.error e, d) ∧
      d.files = files ∧ ¬BackedUp sys files src dst) ∨
    (files dst = none ∧ FileOperationGuard.construct sys src dst ⟨files, [.stat src]⟩ =
      (.ok ⟨src, "", false⟩, ⟨files, [.stat dst, .stat src]⟩)) ∨
    (BackedUp sys files src dst ∧ FileOperationGuard.construct sys src dst ⟨files, [.stat src]⟩ =
      (.ok ⟨src, backupPath dst, false⟩, asideDisk files src dst)) := by
  unfold FileOperationGuard.construct
  rcases fsExists_cases sys dst ⟨files, [.stat src]⟩ with ⟨hstat', hrun⟩ | ⟨hstat', e, hrun⟩
  · rw [hrun]
    cases hdst : files dst with
    | none =>
      refine Or.inr (Or.inl ⟨rfl, ?_⟩)
      simp only [hdst, Option.isSome_none]
    | some c =>
      have hdst' : files dst ≠ none := by simp [hdst]
      simp only [hdst, Option.isSome_some]
      cases hfate : sys.fate 2 (.rename dst (backupPath dst)) with
      | done =>
        have hrename := Disk.perform_rename_done
          (d := ⟨files, [.stat dst, .stat src]⟩) hfate hdst'
        rw [hrename]
        exact Or.inr (Or.inr ⟨⟨hsrc, hdst', hstat, hstat', hfate⟩, rfl⟩)
      | fails ec left =>
        have hrename := Disk.perform_rename_fails
          (d := ⟨files, [.stat dst, .stat src]⟩) hfate
        rw [hrename]
        refine Or.inl ⟨_, _, rfl, rfl, ?_⟩
        intro hback
        cases hback.rename.symm.trans hfate
  · rw [hrun]
    exact Or.inl ⟨_, _, rfl, rfl, fun hback => hstat' hback.statTarget⟩

/-- **The course of a call**, for every pattern of failures. -/
theorem moveWith_course (sys : System C) (missing : String) (files : String → Option C)
    (src dst : String) (options : MoveOptions) :
    Course sys files src dst options (moveWith sys missing src dst options ⟨files, []⟩) := by
  unfold moveWith
  rcases fsExists_cases sys src ⟨files, []⟩ with ⟨hstat, hrun⟩ | ⟨hstat, e, hrun⟩
  · rw [hrun]
    cases hsrc : files src with
    | none =>
      simp only [hsrc, Option.isSome_none]
      exact .unchanged _ _ (fun hback => hback.source hsrc) rfl
    | some c =>
      have hsrc' : files src ≠ none := by simp [hsrc]
      simp only [hsrc, Option.isSome_some]
      rcases construct_cases files dst hsrc' hstat with
        ⟨e, d, hcon, hfiles, hnot⟩ | ⟨hdst, hcon⟩ | ⟨hback, hcon⟩
      · rw [hcon]
        exact .unchanged _ _ hnot hfiles
      · rw [hcon]
        rcases moveBody_cases sys src dst options ⟨files, [.stat dst, .stat src]⟩ with
          ⟨d', hpos, _, hdone, hfiles, hbody⟩ | ⟨hzero, hbody⟩ | ⟨hpos, e, hbody⟩
        · simp only [hbody, destroy_commit]
          exact .renamed _ hpos hsrc' hdst hdone hfiles
        · simp only [hbody, destroy_commit]
          exact .idle _ hzero hsrc' hdst rfl
        · simp only [hbody, destroy_no_backup]
          exact .unchanged _ _ (fun hback => hback.target hdst) rfl
      · rw [hcon]
        rcases moveBody_cases sys src dst options (asideDisk files src dst) with
          ⟨d', hpos, hfound, hdone, hfiles, hbody⟩ | ⟨hzero, hbody⟩ | ⟨hpos, e, hbody⟩
        · simp only [hbody, destroy_commit]
          exact .replaced _ hpos hback hfound hdone hfiles
        · simp only [hbody, destroy_commit]
          exact .aside _ hzero hback rfl
        · simp only [hbody]
          exact .rolledBack _ hpos hback
  · rw [hrun]
    exact .unchanged _ _ (fun hback => hstat hback.statSource) rfl

/-! ## A move that fails -/

/-- The destructor touches the source and the backup only. -/
theorem destroy_other (sys : System C) (g : FileOperationGuard) (d : Disk String C) {p : String}
    (hsrc : p ≠ g.source) (hback : p ≠ g.tempBackup) :
    (g.destroy sys d).files p = d.files p := by
  have hclear : (g.clearSource sys d).2.files p = d.files p := by
    unfold FileOperationGuard.clearSource
    rcases fsExists_cases sys g.source d with ⟨_, hrun⟩ | ⟨_, e, hrun⟩
    · rw [hrun]
      cases hfound : (d.files g.source).isSome with
      | false => rfl
      | true =>
        have hremove := Disk.perform_other sys.fate ⟨d.files, .stat g.source :: d.log⟩
          (show p ∉ (FileOp.removeAll g.source).touched from
            fun hmem => hsrc (List.mem_singleton.mp hmem))
        cases hrun' : Disk.perform sys.fate (.removeAll g.source)
            ⟨d.files, .stat g.source :: d.log⟩ with
        | mk ec d' =>
          rw [hrun'] at hremove
          cases ec with
          | none => simpa only [hrun'] using hremove
          | some ec => simpa only [hrun'] using hremove
    · rw [hrun]
  unfold FileOperationGuard.destroy
  split
  · revert hclear
    rcases g.clearSource sys d with ⟨_ | _, d'⟩
    · exact id
    · intro hclear
      have hpaths : p ∉ (FileOp.rename g.tempBackup g.source).touched := by
        simp [FileOp.touched, hsrc, hback]
      exact (Disk.perform_other _ _ hpaths).trans hclear
  · rfl

/-- With one path for both, the destructor brings the backup back exactly if it gets to
know that nothing stands in its place. -/
theorem destroy_same_iff (sys : System C) {p : String} {d : Disk String C}
    (habsent : d.files p = none)
    (hbackup : d.files (backupPath p) ≠ none)
    (hrestore : ∀ n, sys.fate n (.rename (backupPath p) p) = .done) :
    (FileOperationGuard.destroy sys ⟨p, backupPath p, false⟩ d).files p = d.files (backupPath p) ↔
      sys.fate d.log.length (.stat p) = .done := by
  unfold FileOperationGuard.destroy FileOperationGuard.clearSource
  rw [if_pos ⟨rfl, backupPath_ne_empty p⟩]
  rcases fsExists_cases sys p d with ⟨hstat, hrun⟩ | ⟨hstat, e, hrun⟩
  · simp only [hrun, habsent, Option.isSome_none]
    have hrename := Disk.perform_rename_done (d := ⟨d.files, .stat p :: d.log⟩)
      (hrestore (d.log.length + 1)) hbackup
    rw [hrename]
    exact ⟨fun _ => hstat, fun _ => moveEntry_target⟩
  · simp only [hrun, habsent]
    exact ⟨fun h => absurd h.symm hbackup, fun h => absurd h hstat⟩

theorem asideDisk_dst (files : String → Option C) (src dst : String) :
    (asideDisk files src dst).files dst = none :=
  moveEntry_source (backupPath_ne dst).symm

theorem repeated_length (files : String → Option C) (src dst : String) (op : FileOp String)
    (n : Nat) :
    ((asideDisk files src dst).repeated op n).log.length = n + 3 := by
  rw [Disk.repeated, List.length_append, List.length_replicate]
  rfl

theorem rolledBack_iff {files : String → Option C} {attempts : Nat}
    (hback : BackedUp sys files src dst)
    (hrestore : ∀ n, sys.fate n (.rename (backupPath dst) src) = .done) {d : Disk String C}
    (hd : d = FileOperationGuard.destroy sys ⟨src, backupPath dst, false⟩
      ((asideDisk files src dst).repeated (.rename src dst) attempts)) :
    (d.files src = files src ∧ d.files dst = files dst) ↔
      src = dst ∧ sys.fate (attempts + 3) (.stat src) = .done := by
  have hfiles : ((asideDisk files src dst).repeated (.rename src dst) attempts).files =
      setAside files dst := rfl
  have habsent : setAside files dst dst = none := asideDisk_dst files src dst
  have hbackup : setAside files dst (backupPath dst) = files dst := moveEntry_target
  rw [← repeated_length files src dst (.rename src dst) attempts, hd]
  by_cases hsame : src = dst
  · subst hsame
    have hiff := destroy_same_iff sys
      (d := (asideDisk files src src).repeated (.rename src src) attempts) habsent
      (by rw [hfiles, hbackup]; exact hback.target) hrestore
    rw [hfiles, hbackup] at hiff
    rw [and_self, hiff]
    exact (and_iff_right rfl).symm
  · have hdst := destroy_other sys ⟨src, backupPath dst, false⟩
      ((asideDisk files src dst).repeated (.rename src dst) attempts) (Ne.symm hsame)
      (backupPath_ne dst).symm
    rw [hfiles, habsent] at hdst
    rw [hdst]
    exact ⟨fun h => absurd h.2.symm hback.target, fun h => absurd h.1 hsame⟩

/-- **A failed move leaves both paths as they were** exactly if no backup had been made,
or source and destination are one path and the destructor could look at it. -/
theorem move_rollback_iff (sys : System C) (files : String → Option C) (src dst : String)
    (options : MoveOptions) {move : String → String → MoveOptions → Disk String C →
      Except Thrown String × Disk String C}
    (hmove : move = moveFile sys ∨ move = moveDirectory sys) {e : Thrown} {d : Disk String C}
    (hthrows : move src dst options ⟨files, []⟩ = (.error e, d))
    (hrestore : ∀ n, sys.fate n (.rename (backupPath dst) src) = .done) :
    (d.files src = files src ∧ d.files dst = files dst) ↔
      (BackedUp sys files src dst →
        src = dst ∧ sys.fate (options.retryAttempts + 3) (.stat src) = .done) := by
  have hcourse : Course sys files src dst options (.error e, d) := by
    rw [← hthrows]
    rcases hmove with rfl | rfl <;> exact moveWith_course ..
  cases hcourse with
  | unchanged _ _ hnot hfiles =>
    rw [hfiles]
    exact ⟨fun _ hback => absurd hback hnot, fun _ => ⟨rfl, rfl⟩⟩
  | rolledBack _ _ hback =>
    rw [rolledBack_iff hback hrestore rfl]
    exact ⟨fun h _ => h, fun h => h hback⟩

/-! ## Two file systems -/

/-- A system in which the rename of `a` to `b` fails, as between two devices. -/
def crossDevice : System Nat where
  fate _ op := if op = .rename "a" "b" then .fails 18 none else .done
  message _ := "Invalid cross-device link"

/-- A system without failures. -/
def faultless : System Nat where
  fate _ _ := .done
  message _ := ""

/-- The only file is `a`. -/
def oneFile : String → Option Nat := fun p => if p = "a" then some 1 else none

/-- The files are `a` and `b`. -/
def twoFiles : String → Option Nat := fun p =>
  if p = "a" then some 1 else if p = "b" then some 2 else none

theorem crossDevice_other {op : FileOp String} (h : op ≠ .rename "a" "b") (n : Nat) :
    crossDevice.fate n op = .done := by
  rw [crossDevice]
  exact if_neg h

theorem crossDevice_restores (n : Nat) :
    crossDevice.fate n (.rename (backupPath "b") "a") = .done :=
  crossDevice_other (by decide) n

/-- Without a destination the failed move has changed nothing, and the failed move of
a file to itself brings the backup back. -/
theorem move_rollback_restored :
    (∃ e d, moveFile crossDevice "a" "b" {} ⟨oneFile, []⟩ = (.error e, d) ∧
      d.files "a" = some 1 ∧ d.files "b" = none) ∧
    BackedUp faultless oneFile "a" "a" ∧
    ∃ e d, moveFile faultless "a" "a" {} ⟨oneFile, []⟩ = (.error e, d) ∧ d.files "a" = some 1 := by
  refine ⟨⟨_, _, rfl, ?_⟩, ?_, _, _, rfl, ?_⟩
  · refine (move_rollback_iff crossDevice oneFile "a" "b" {} (Or.inl rfl) rfl
      crossDevice_restores).mpr ?_
    intro hback
    exact absurd (by decide) hback.target
  · exact ⟨by decide, by decide, rfl, rfl, rfl⟩
  · exact ((move_rollback_iff faultless oneFile "a" "a" {} (Or.inl rfl) rfl
      fun _ => rfl).mpr fun _ => ⟨rfl, rfl⟩).1

/-- The failed move has replaced the source by the destination, which is gone. -/
theorem move_not_rolled_back :
    (∃ e d, moveFile crossDevice "a" "b" {} ⟨twoFiles, []⟩ = (.error e, d) ∧
      d.files "a" = some 2 ∧ d.files "b" = none) ∧
    (∃ e d, moveDirectory crossDevice "a" "b" {} ⟨twoFiles, []⟩ = (.error e, d) ∧
      d.files "a" = some 2 ∧ d.files "b" = none) ∧
    (∀ n, crossDevice.fate n (.rename (backupPath "b") "a") = .done) ∧
    twoFiles "a" = some 1 ∧ twoFiles "b" = some 2 := by
  refine ⟨⟨_, _, rfl, ?_, ?_⟩, ⟨_, _, rfl, ?_, ?_⟩, crossDevice_restores, ?_, ?_⟩
  all_goals decide

/-! ## A move that succeeds -/

/-- With the destination put aside and the source renamed, all other paths are as they
were exactly if the backup was there already. -/
theorem replaced_iff {files : String → Option C} (hsrc : setAside files dst src ≠ none) :
    (moveEntry (setAside files dst) src dst dst = files src ∧
        moveEntry (setAside files dst) src dst src = none ∧
        ∀ p, p ≠ src → p ≠ dst → moveEntry (setAside files dst) src dst p = files p) ↔
      files (backupPath dst) = files dst := by
  have hne : src ≠ dst := by
    rintro rfl
    exact hsrc (asideDisk_dst files src src)
  have hbackup : setAside files dst (backupPath dst) = files dst := moveEntry_target
  have hother : ∀ p, p ≠ dst → p ≠ backupPath dst → setAside files dst p = files p :=
    fun p hp hp' => moveEntry_other hp hp'
  rw [moveEntry_target, moveEntry_source hne]
  by_cases hsame : src = backupPath dst
  · rw [hsame, hbackup]
    refine ⟨fun h => h.1.symm, fun h => ⟨h.symm, rfl, fun p hp hp' => ?_⟩⟩
    rw [moveEntry_other hp hp', hother p hp' hp]
  · rw [hother src hne hsame]
    constructor
    · rintro ⟨_, _, hkeep⟩
      rw [← hkeep (backupPath dst) (Ne.symm hsame) (backupPath_ne dst),
        moveEntry_other (Ne.symm hsame) (backupPath_ne dst), hbackup]
    · refine fun h => ⟨rfl, rfl, fun p hp hp' => ?_⟩
      rw [moveEntry_other hp hp']
      by_cases hp'' : p = backupPath dst
      · rw [hp'', hbackup, h]
      · exact hother p hp' hp''

/-- **A move touches only its two paths** exactly if there is an attempt, and the
destination did not exist, or may be overwritten and its backup was there already. -/
theorem move_touches_iff (sys : System C) (files : String → Option C) (src dst : String)
    (options : MoveOptions) {r : String} {d : Disk String C}
    (hreturns : moveFile sys src dst options ⟨files, []⟩ = (.ok r, d)) :
    (d.files dst = files src ∧ d.files src = none ∧
        (∀ p, p ≠ src → p ≠ dst → d.files p = files p) ∧
        (options.overwriteExisting = false → files dst = none)) ↔
      0 < options.retryAttempts ∧ (files dst = none ∨
        (options.overwriteExisting = true ∧ files (backupPath dst) = files dst)) := by
  have hcourse : Course sys files src dst options (.ok r, d) := by
    rw [← hreturns]
    exact moveWith_course ..
  cases hcourse with
  | renamed _ hattempts hsrc hdst _ hfiles =>
    have hne : src ≠ dst := by
      rintro rfl
      exact hsrc hdst
    rw [hfiles]
    refine ⟨fun _ => ⟨hattempts, Or.inl hdst⟩, fun _ => ⟨moveEntry_target, moveEntry_source hne,
      fun p hp hp' => moveEntry_other hp hp', fun _ => hdst⟩⟩
  | idle _ hattempts hsrc hdst hfiles =>
    rw [hfiles, hdst]
    exact ⟨fun h => absurd h.1.symm hsrc, fun h => absurd h.1 (by omega)⟩
  | replaced _ hattempts hback hsrc _ hfiles =>
    have hiff := replaced_iff hsrc
    rw [hfiles]
    constructor
    · rintro ⟨hdst', hsrc', hkeep, hover⟩
      refine ⟨hattempts, Or.inr ⟨?_, hiff.mp ⟨hdst', hsrc', hkeep⟩⟩⟩
      by_contra hnot
      exact hback.target (hover (Bool.eq_false_iff.mpr hnot))
    · rintro ⟨_, habsent | ⟨hover, hsame⟩⟩
      · exact absurd habsent hback.target
      · rcases hiff.mpr hsame with ⟨hdst', hsrc', hkeep⟩
        exact ⟨hdst', hsrc', hkeep, fun hnot => by rw [hover] at hnot; cases hnot⟩
  | aside _ hattempts hback hfiles =>
    have habsent : setAside files dst dst = none := asideDisk_dst files src dst
    rw [hfiles, habsent]
    exact ⟨fun h => absurd h.1.symm hback.source, fun h => absurd h.1 (by omega)⟩

/-- A move to a path that did not exist. -/
theorem move_touches_absent :
    ∃ r d, moveFile faultless "a" "b" {} ⟨oneFile, []⟩ = (.ok r, d) ∧ d.files "b" = some 1 ∧
      d.files "a" = none ∧ ∀ p, p ≠ "a" → p ≠ "b" → d.files p = oneFile p := by
  refine ⟨_, _, rfl, ?_⟩
  rcases (move_touches_iff faultless oneFile "a" "b" {} rfl).mpr
    ⟨by decide, Or.inl (by decide)⟩ with ⟨hdst, hsrc, hkeep, _⟩
  exact ⟨hdst.trans (by decide), hsrc, hkeep⟩

/-- A move replaces a file although that is not allowed, and leaves its backup. -/
theorem move_leaves_backup :
    ∃ r d, moveFile faultless "a" "b" {} ⟨twoFiles, []⟩ = (.ok r, d) ∧
      ({} : MoveOptions).overwriteExisting = false ∧ twoFiles "b" = some 2 ∧
      d.files "b" = some 1 ∧ twoFiles "b.bak" = none ∧ d.files "b.bak" = some 2 := by
  refine ⟨_, _, rfl, ?_⟩
  decide

/-! ## The fallback -/

/-- **The fallback is never effective**: where every rename fails, the move throws, or,
if it is to make no attempt, returns without having moved anything. -/
theorem cross_device_never (sys : System C) (files : String → Option C) (src dst : String)
    (options : MoveOptions) {move : String → String → MoveOptions → Disk String C →
      Except Thrown String × Disk String C}
    (hmove : move = moveFile sys ∨ move = moveDirectory sys)
    (hrename : ∀ n, sys.fate n (.rename src dst) ≠ .done) :
    (0 < options.retryAttempts → ∃ e d, move src dst options ⟨files, []⟩ = (.error e, d)) ∧
      ¬∃ r d, move src dst options ⟨files, []⟩ = (.ok r, d) ∧ d.files dst = files src ∧
        d.files src = none := by
  have hcourse : Course sys files src dst options (move src dst options ⟨files, []⟩) := by
    rcases hmove with rfl | rfl <;> exact moveWith_course ..
  generalize move src dst options ⟨files, []⟩ = result at hcourse
  cases hcourse with
  | unchanged e d _ _ => exact ⟨fun _ => ⟨e, d, rfl⟩, by simp⟩
  | rolledBack e _ _ => exact ⟨fun _ => ⟨e, _, rfl⟩, by simp⟩
  | renamed _ _ _ _ hdone _ => exact absurd hdone.choose_spec (hrename _)
  | replaced _ _ _ _ hdone _ => exact absurd hdone.choose_spec (hrename _)
  | idle d hattempts hsrc hdst hfiles =>
    refine ⟨fun hpos => absurd hpos (by omega), ?_⟩
    rintro ⟨r, d', heq, hmoved, _⟩
    cases heq
    rw [hfiles, hdst] at hmoved
    exact hsrc hmoved.symm
  | aside d hattempts hback hfiles =>
    refine ⟨fun hpos => absurd hpos (by omega), ?_⟩
    rintro ⟨r, d', heq, hmoved, _⟩
    cases heq
    have habsent : setAside files dst dst = none := asideDisk_dst files src dst
    rw [hfiles, habsent] at hmoved
    exact hback.source hmoved.symm

/-- Between two devices the move of a file throws. -/
theorem cross_device_never_one :
    ∃ e d, moveFile crossDevice "a" "b" {} ⟨oneFile, []⟩ = (.error e, d) :=
  (cross_device_never crossDevice oneFile "a" "b" {} (Or.inl rfl)
    (fun n => by rw [crossDevice]; simp)).1 (by decide)

/-- Both functions throw, although copying and removing would succeed. -/
theorem cross_device_throws :
    (∃ d, moveFile crossDevice "a" "b" {} ⟨oneFile, []⟩ =
      (.error (.error "Operation failed after retries: Invalid cross-device link"), d)) ∧
    (∃ d, moveDirectory crossDevice "a" "b" {} ⟨oneFile, []⟩ =
      (.error (.error "Operation failed after retries: Invalid cross-device link"), d)) ∧
    (∀ n options, crossDevice.fate n (.copy "a" "b" options) = .done) ∧
    ∀ n, crossDevice.fate n (.removeAll "a") = .done := by
  refine ⟨⟨_, rfl⟩, ⟨_, rfl⟩, fun n options => ?_, fun n => ?_⟩
  · exact crossDevice_other (by simp) n
  · exact crossDevice_other (by simp) n

end FarouKernel.Ports.Dir
