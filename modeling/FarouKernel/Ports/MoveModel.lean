import FarouKernel.Verified.FileStore

/-!
# `fs/dir_functions.cpp`: moving files and directories

A translation of `moveFile` and `moveDirectory` with their guard, over the file system
of `Verified.FileStore`.  A path is its string, and what it names, a file or a whole
directory, is one entry.  Calls that report an error through an `std::error_code` return
`some` of it; the others throw `filesystem_error`.  The text of an error comes from
outside, like the failures.

The guard is an object on the stack, so its destructor runs whether the function
returns or throws, but not if its own constructor threw.

The pauses between attempts are left out.
-/

namespace FarouKernel.Ports.Dir

open Verified

/-- The failures of the operations, and `std::error_code::message`. -/
structure System (C : Type) where
  fate : Nat → FileOp String → Fate C
  message : Nat → String

/-- The exceptions: `Error` with its text, and `filesystem_error`. -/
inductive Thrown where
  | error (what : String)
  | filesystemError (ec : Nat)
deriving DecidableEq

structure MoveOptions where
  preservePermissions : Bool := true
  overwriteExisting : Bool := false
  retryAttempts : Nat := 3

structure FileOperationGuard where
  source : String
  tempBackup : String := ""
  committed : Bool := false

section Functions

variable {C : Type} (sys : System C)

/-- `fs::exists` without an error code. -/
def fsExists (path : String) (d : Disk String C) : Except Thrown Bool × Disk String C :=
  match Disk.perform sys.fate (.stat path) d with
  | (some ec, d') => (.error (.filesystemError ec), d')
  | (none, d') => (.ok (d.files path).isSome, d')

/-- `throwIfError`. -/
def throwIfError (ec : Option Nat) (msg : String) : Except Thrown Unit :=
  match ec with
  | some ec => .error (.error (msg ++ ": " ++ sys.message ec))
  | none => .ok ()

/-- `tryOperation`. -/
def tryOperation (operation : FileOp String) (options : MoveOptions) (d : Disk String C) :
    Except Thrown Bool × Disk String C :=
  match Disk.retry sys.fate operation options.retryAttempts none d with
  | (true, _, d') => (.ok true, d')
  | (false, ec, d') =>
    match throwIfError sys ec "Operation failed after retries" with
    | .error e => (.error e, d')
    | .ok () => (.ok false, d')

/-- The `copy_options` of `moveAcrossFs`. -/
def copyOpts (options : MoveOptions) : CopyOptions where
  recursive := true
  copySymlinks := true
  preservePermissions := options.preservePermissions
  overwriteExisting := options.overwriteExisting

/-- `moveAcrossFs`. -/
def moveAcrossFs (src dst : String) (options : MoveOptions) (d : Disk String C) :
    Except Thrown Unit × Disk String C :=
  match tryOperation sys (.copy src dst (copyOpts options)) options d with
  | (.error e, d') => (.error e, d')
  | (.ok _, d') =>
    match tryOperation sys (.removeAll src) options d' with
    | (.error e, d'') => (.error e, d'')
    | (.ok _, d'') => (.ok (), d'')

/-- The path of the backup. -/
def backupPath (dst : String) : String := dst ++ ".bak"

namespace FileOperationGuard

/-- The constructor. -/
def construct (src dst : String) (d : Disk String C) :
    Except Thrown FileOperationGuard × Disk String C :=
  match fsExists sys dst d with
  | (.error e, d') => (.error e, d')
  | (.ok false, d') => (.ok { source := src }, d')
  | (.ok true, d') =>
    match Disk.perform sys.fate (.rename dst (backupPath dst)) d' with
    | (some ec, d'') => (.error (.filesystemError ec), d'')
    | (none, d'') => (.ok { source := src, tempBackup := backupPath dst }, d'')

/-- `commit`. -/
def commit (g : FileOperationGuard) : FileOperationGuard := { g with committed := true }

/-- `if (fs::exists(source_)) fs::remove_all(source_)`; `false` if one of them throws. -/
def clearSource (g : FileOperationGuard) (d : Disk String C) : Bool × Disk String C :=
  match fsExists sys g.source d with
  | (.error _, d') => (false, d')
  | (.ok false, d') => (true, d')
  | (.ok true, d') =>
    match Disk.perform sys.fate (.removeAll g.source) d' with
    | (some _, d'') => (false, d'')
    | (none, d'') => (true, d'')

/-- The destructor. -/
def destroy (g : FileOperationGuard) (d : Disk String C) : Disk String C :=
  if g.committed = false ∧ g.tempBackup ≠ "" then
    match clearSource sys g d with
    | (false, d') => d'
    | (true, d') => (Disk.perform sys.fate (.rename g.tempBackup g.source) d').2
  else d

end FileOperationGuard

/-- The `try` block of both functions, up to the commit. -/
def moveBody (source destination : String) (options : MoveOptions) (d : Disk String C) :
    Except Thrown Unit × Disk String C :=
  match tryOperation sys (.rename source destination) options d with
  | (.error e, d') => (.error e, d')
  | (.ok true, d') => (.ok (), d')
  | (.ok false, d') => moveAcrossFs sys source destination options d'

/-- What `moveFile` and `moveDirectory` do, but for the text about a missing source. -/
def moveWith (missing : String) (source destination : String) (options : MoveOptions)
    (d : Disk String C) : Except Thrown String × Disk String C :=
  match fsExists sys source d with
  | (.error e, d1) => (.error e, d1)
  | (.ok false, d1) => (.error (.error missing), d1)
  | (.ok true, d1) =>
    match FileOperationGuard.construct sys source destination d1 with
    | (.error e, d2) => (.error e, d2)
    | (.ok guard, d2) =>
      match moveBody sys source destination options d2 with
      | (.error e, d3) => (.error e, guard.destroy sys d3)
      | (.ok (), d3) => (.ok destination, guard.commit.destroy sys d3)

/-- `moveFile`. -/
def moveFile : String → String → MoveOptions → Disk String C →
    Except Thrown String × Disk String C :=
  moveWith sys "Source file does not exist"

/-- `moveDirectory`. -/
def moveDirectory : String → String → MoveOptions → Disk String C →
    Except Thrown String × Disk String C :=
  moveWith sys "Source directory does not exist"

end Functions

end FarouKernel.Ports.Dir
