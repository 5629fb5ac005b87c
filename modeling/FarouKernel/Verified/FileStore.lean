import Mathlib.Logic.Function.Basic
import Mathlib.Tactic.Common

/-!
# A file system whose operations may fail

The files are a map from paths to contents.  An operation on them is carried out or
fails; which of the two is decided from outside, by a function of the operation and of
the number of operations before it, so a statement for all such functions is one for
every pattern of failures.  A rename that fails changes nothing, while a copy or a
removal may leave anything at the path it works on.

`retry` repeats an operation until it succeeds.  `retry_rename` says what that comes to
for a rename: the entry is moved, or nothing has changed.
-/

namespace FarouKernel.Verified

/-- The options of a copy. -/
structure CopyOptions where
  recursive : Bool
  copySymlinks : Bool
  preservePermissions : Bool
  overwriteExisting : Bool
deriving DecidableEq

/-- The operations on the paths `P`. -/
inductive FileOp (P : Type) where
  | stat (path : P)
  | rename (source target : P)
  | copy (source target : P) (options : CopyOptions)
  | removeAll (path : P)
deriving DecidableEq

/-- What becomes of an operation: it is carried out, or it fails with an error and
leaves `left` where it has worked. -/
inductive Fate (C : Type) where
  | done
  | fails (ec : Nat) (left : Option C)
deriving DecidableEq

/-- The files, and the operations made so far, newest first. -/
structure Disk (P C : Type) where
  files : P → Option C
  log : List (FileOp P)

def enoent : Nat := 2

def eexist : Nat := 17

variable {P C : Type} [DecidableEq P]

/-- The entry of `a` is moved to `b`. -/
def moveEntry (files : P → Option C) (a b : P) : P → Option C :=
  Function.update (Function.update files a none) b (files a)

namespace FileOp

/-- The operation, if nothing prevents it. -/
def carryOut (files : P → Option C) : FileOp P → Except Nat (P → Option C)
  | stat _ => .ok files
  | rename a b => if files a = none then .error enoent else .ok (moveEntry files a b)
  | copy a b options =>
    if files a = none then .error enoent
    else if a = b ∨ (files b ≠ none ∧ options.overwriteExisting = false) then .error eexist
    else .ok (Function.update files b (files a))
  | removeAll p => .ok (Function.update files p none)

/-- The files after the operation has failed. -/
def debris (files : P → Option C) (left : Option C) : FileOp P → P → Option C
  | stat _ => files
  | rename _ _ => files
  | copy _ b _ => Function.update files b left
  | removeAll p => Function.update files p left

/-- The paths whose entries the operation may change. -/
def touched : FileOp P → List P
  | stat _ => []
  | rename a b => [a, b]
  | copy _ b _ => [b]
  | removeAll p => [p]

end FileOp

namespace Disk

variable (fate : Nat → FileOp P → Fate C)

/-- An operation, with the error it reports. -/
def perform (op : FileOp P) (d : Disk P C) : Option Nat × Disk P C :=
  match fate d.log.length op with
  | .fails ec left => (some ec, ⟨op.debris d.files left, op :: d.log⟩)
  | .done =>
    match op.carryOut d.files with
    | .error ec => (some ec, ⟨d.files, op :: d.log⟩)
    | .ok files => (none, ⟨files, op :: d.log⟩)

/-- The operation is made until it succeeds, at most so often.  The flag says whether
it did; the error is the last one. -/
def retry (op : FileOp P) : Nat → Option Nat → Disk P C → Bool × Option Nat × Disk P C
  | 0, ec, d => (false, ec, d)
  | attempts + 1, _, d =>
    match perform fate op d with
    | (none, d) => (true, none, d)
    | (some ec, d) => retry op attempts (some ec) d

end Disk

/-! ## Moving an entry -/

section MoveEntry

variable {files : P → Option C} {a b p : P}

@[simp] theorem moveEntry_target : moveEntry files a b b = files a := Function.update_self ..

theorem moveEntry_source (hne : a ≠ b) : moveEntry files a b a = none := by
  rw [moveEntry, Function.update_of_ne hne, Function.update_self]

theorem moveEntry_other (ha : p ≠ a) (hb : p ≠ b) : moveEntry files a b p = files p := by
  rw [moveEntry, Function.update_of_ne hb, Function.update_of_ne ha]

end MoveEntry

/-! ## Single operations -/

namespace Disk

variable {fate : Nat → FileOp P → Fate C} {d : Disk P C} {a b p : P}

theorem perform_stat_done (h : fate d.log.length (.stat p) = .done) :
    perform fate (.stat p) d = (none, ⟨d.files, .stat p :: d.log⟩) := by
  rw [perform, h]
  rfl

theorem perform_stat_fails {ec : Nat} {left : Option C}
    (h : fate d.log.length (.stat p) = .fails ec left) :
    perform fate (.stat p) d = (some ec, ⟨d.files, .stat p :: d.log⟩) := by
  rw [perform, h]
  rfl

theorem perform_rename_done (h : fate d.log.length (.rename a b) = .done)
    (ha : d.files a ≠ none) :
    perform fate (.rename a b) d = (none, ⟨moveEntry d.files a b, .rename a b :: d.log⟩) := by
  rw [perform, h, FileOp.carryOut, if_neg ha]

theorem perform_rename_absent (ha : d.files a = none) :
    ∃ ec, perform fate (.rename a b) d = (some ec, ⟨d.files, .rename a b :: d.log⟩) := by
  rw [perform]
  cases fate d.log.length (.rename a b) with
  | fails ec left => exact ⟨ec, rfl⟩
  | done =>
    rw [FileOp.carryOut, if_pos ha]
    exact ⟨enoent, rfl⟩

theorem perform_rename_fails {ec : Nat} {left : Option C}
    (h : fate d.log.length (.rename a b) = .fails ec left) :
    perform fate (.rename a b) d = (some ec, ⟨d.files, .rename a b :: d.log⟩) := by
  rw [perform, h]
  rfl

/-- A rename moves the entry or changes nothing. -/
theorem perform_rename (fate : Nat → FileOp P → Fate C) (d : Disk P C) (a b : P) :
    (d.files a ≠ none ∧ fate d.log.length (.rename a b) = .done ∧
      perform fate (.rename a b) d = (none, ⟨moveEntry d.files a b, .rename a b :: d.log⟩)) ∨
    ∃ ec, perform fate (.rename a b) d = (some ec, ⟨d.files, .rename a b :: d.log⟩) := by
  by_cases ha : d.files a = none
  · exact Or.inr (perform_rename_absent ha)
  · cases h : fate d.log.length (.rename a b) with
    | fails ec left => exact Or.inr ⟨ec, perform_rename_fails h⟩
    | done => exact Or.inl ⟨ha, rfl, perform_rename_done h ha⟩

/-- An operation changes only the paths it touches. -/
theorem perform_other (fate : Nat → FileOp P → Fate C) (d : Disk P C) {op : FileOp P}
    (hp : p ∉ op.touched) :
    (perform fate op d).2.files p = d.files p := by
  rw [perform]
  cases fate d.log.length op with
  | fails ec left =>
    cases op with
    | stat _ => rfl
    | rename _ _ => rfl
    | copy a b options => exact Function.update_of_ne (List.ne_of_not_mem_cons hp) _ _
    | removeAll q => exact Function.update_of_ne (List.ne_of_not_mem_cons hp) _ _
  | done =>
    cases hrun : op.carryOut d.files with
    | error ec => rfl
    | ok files =>
      show files p = d.files p
      cases op with
      | stat _ =>
        cases hrun
        rfl
      | rename a b =>
        rw [FileOp.carryOut] at hrun
        split at hrun
        · cases hrun
        · cases hrun
          have hb := List.ne_of_not_mem_cons (List.not_mem_of_not_mem_cons hp)
          exact moveEntry_other (List.ne_of_not_mem_cons hp) hb
      | copy a b options =>
        rw [FileOp.carryOut] at hrun
        split at hrun
        · cases hrun
        · split at hrun
          · cases hrun
          · cases hrun
            exact Function.update_of_ne (List.ne_of_not_mem_cons hp) _ _
      | removeAll q =>
        cases hrun
        exact Function.update_of_ne (List.ne_of_not_mem_cons hp) _ _

/-! ## Repeated operations -/

/-- The operations of so many failed attempts, and those before. -/
def repeated (op : FileOp P) (n : Nat) (d : Disk P C) : Disk P C :=
  ⟨d.files, List.replicate n op ++ d.log⟩

omit [DecidableEq P] in
theorem repeated_succ (op : FileOp P) (n : Nat) (d : Disk P C) :
    repeated op n ⟨d.files, op :: d.log⟩ = repeated op (n + 1) d := by
  rw [repeated, repeated, List.replicate_succ', List.append_assoc]
  rfl

/-- A rename is repeated until it has moved the entry; if it never does, nothing has
changed, and there is an error unless there was no attempt. -/
theorem retry_rename (fate : Nat → FileOp P → Fate C) (d : Disk P C) (a b : P)
    (attempts : Nat) (ec : Option Nat) :
    (∃ i, i < attempts ∧ d.files a ≠ none ∧
      fate (d.log.length + i) (.rename a b) = .done ∧
      retry fate (.rename a b) attempts ec d =
        (true, none, { repeated (.rename a b) (i + 1) d with
          files := moveEntry d.files a b })) ∨
    ∃ last, (last = none ↔ attempts = 0 ∧ ec = none) ∧
      retry fate (.rename a b) attempts ec d =
        (false, last, repeated (.rename a b) attempts d) := by
  induction attempts generalizing ec d with
  | zero => exact Or.inr ⟨ec, by simp, rfl⟩
  | succ attempts ih =>
    rcases perform_rename fate d a b with ⟨ha, hdone, hrun⟩ | ⟨e, hrun⟩
    · refine Or.inl ⟨0, Nat.succ_pos _, ha, hdone, ?_⟩
      rw [retry, hrun]
      rfl
    · have hretry : retry fate (.rename a b) (attempts + 1) ec d =
          retry fate (.rename a b) attempts (some e) ⟨d.files, .rename a b :: d.log⟩ := by
        rw [retry, hrun]
      rw [hretry]
      rcases ih (d := ⟨d.files, .rename a b :: d.log⟩) (some e) with
        ⟨i, hi, ha, hdone, hrest⟩ | ⟨last, hlast, hrest⟩
      · refine Or.inl ⟨i + 1, by omega, ha, ?_, ?_⟩
        · rw [List.length_cons] at hdone
          rw [← hdone]
          congr 1
          omega
        · rw [hrest, repeated_succ]
      · refine Or.inr ⟨last, ?_, ?_⟩
        · rw [hlast]
          simp
        · rw [hrest, repeated_succ]

end Disk

end FarouKernel.Verified
