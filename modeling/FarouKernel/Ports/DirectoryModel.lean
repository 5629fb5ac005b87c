import Mathlib.Logic.Function.Basic
import Mathlib.Tactic.Common

/-!
# `fs/devfs.h`: directories and their children

A translation of `Directory::add_child`, `Directory::remove_child` and `Node::path`.  A
link between two directories is kept on both sides: in the table `m_children` of the
parent, by the name of the child, and in the pointer `m_parent` of the child.  The
directories live as long as they are used, so a weak pointer to one of them can always
be locked.
-/

namespace FarouKernel.Ports.Directory

/-- The values of `ErrorCode` that the functions below return. -/
inductive ErrorCode where
  | success
  | exists_
  | notFound
  | invalidArg
deriving DecidableEq

/-- The links of the directories `N`. -/
structure Directories (N : Type) where
  /-- `m_parent`. -/
  parent : N → Option N
  /-- `m_children`. -/
  children : N → String → Option N

namespace Directories

variable {N : Type}

/-- Directories that were made and not used. -/
def isolated : Directories N := ⟨fun _ => none, fun _ _ => none⟩

/-- `Node::path`; `none` when the recursion is deeper than `fuel`. -/
def path (name : N → String) (d : Directories N) : Nat → N → Option String
  | 0, _ => none
  | fuel + 1, node =>
    match d.parent node with
    | some parent => (d.path name fuel parent).map fun path => path ++ "/" ++ name node
    | none => some ("/" ++ name node)

variable [DecidableEq N]

/-- `Node::set_parent`. -/
def setParent (d : Directories N) (node : N) (parent : Option N) : Directories N :=
  { d with parent := Function.update d.parent node parent }

/-- The table of `node` with another entry for a name. -/
def setChild (d : Directories N) (node : N) (name : String) (child : Option N) : Directories N :=
  { d with children :=
      Function.update d.children node (Function.update (d.children node) name child) }

/-- `add_child` on the directory `this`. -/
def addChild (name : N → String) (d : Directories N) (this : N) (child : Option N) :
    ErrorCode × Directories N :=
  match child with
  | none => (.invalidArg, d)
  | some child =>
    if (d.children this (name child)).isSome then (.exists_, d)
    else (.success, (d.setParent child (some this)).setChild this (name child) (some child))

/-- `remove_child` on the directory `this`. -/
def removeChild (d : Directories N) (this : N) (name : String) : ErrorCode × Directories N :=
  match d.children this name with
  | none => (.notFound, d)
  | some child => (.success, (d.setParent child none).setChild this name none)

end Directories

/-- A call on one of the directories. -/
inductive Call (N : Type) where
  | addChild (this : N) (child : Option N)
  | removeChild (this : N) (name : String)

namespace Directories

variable {N : Type} [DecidableEq N]

/-- The result of a call and the links after it. -/
def step (name : N → String) (d : Directories N) : Call N → ErrorCode × Directories N
  | .addChild this child => d.addChild name this child
  | .removeChild this childName => d.removeChild this childName

/-- The links after a sequence of calls. -/
def run (name : N → String) (d : Directories N) (calls : List (Call N)) : Directories N :=
  calls.foldl (fun d call => (d.step name call).2) d

end Directories

end FarouKernel.Ports.Directory
