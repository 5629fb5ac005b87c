import Mathlib.Algebra.Order.Ring.Int
import Mathlib.Logic.Function.Basic
import Mathlib.Tactic.Common

/-!
# `fs/fs.h`: the tables of files and directories

A translation of the functions that create and delete nodes.  The source takes a node
for a file from `g_files` and one for a directory from `g_directories`, both at the index
that `get_free_index` returns; the index may be any `int`, also -1, and the node is
written without a look at it.  Writing a node outside its table is undefined, and the
result is then `none`; so is clearing a block outside `g_blocks`, and a search along
`next` that does not end.

The fields of a node are those these functions use, and a path fits into the field
`name`.  No function of the file assigns to `g_file_systems`, which is zero at the start.
-/

namespace FarouKernel.Ports.NodeTable

/-- `MAX_FILES` and `MAX_DIRS`. -/
def maxNodes : Nat := 512

def maxBlocks : Nat := 1024

def enoent : Int := 2

def enospc : Int := 28

/-- `enum fs_type`. -/
inductive FsType where
  | unknown
  | fat32
  | ntfs
deriving DecidableEq

/-- The two tables. -/
inductive Table where
  | files
  | directories
deriving DecidableEq

/-- `&g_files[index]` or `&g_directories[index]`. -/
structure NodeRef where
  table : Table
  index : Int
deriving DecidableEq

/-- The flags of a node that are set here. -/
structure FsFlags where
  new : Bool
  created : Bool
deriving DecidableEq

/-- `struct fs_node`. -/
structure FsNode where
  type : FsType
  name : String
  flags : FsFlags
  next : Option NodeRef
deriving DecidableEq

/-- A node after `memset`; the type with the value 0 is `FS_TYPE_UNKNOWN`. -/
def FsNode.zero : FsNode := ⟨.unknown, "", ⟨false, false⟩, none⟩

/-- The static variables; `fileSystem` is `g_file_systems[0]`, and `index` that of
`get_free_index`. -/
structure Tables where
  index : Int
  blocks : Nat → Nat
  fileSystem : Option NodeRef
  nodes : Table → Nat → FsNode

/-- The static variables at the start. -/
def Tables.start : Tables := ⟨-1, fun _ => 0, none, fun _ _ => .zero⟩

/-- Where the tables lie, and the size of a node. -/
structure Layout where
  base : Table → Nat
  nodeSize : Nat

/-- The address of a node. -/
def Layout.address (layout : Layout) (ref : NodeRef) : Nat :=
  (layout.base ref.table + ref.index * layout.nodeSize).toNat

/-- The node is one of its table. -/
def NodeRef.Inside (ref : NodeRef) : Prop := 0 ≤ ref.index ∧ ref.index < maxNodes

instance (ref : NodeRef) : Decidable ref.Inside := inferInstanceAs (Decidable (_ ∧ _))

namespace Tables

/-- The loop of `get_free_index`. -/
def freeIndexLoop (blocks : Nat → Nat) : Nat → Int → Int
  | 0, index => index
  | fuel + 1, index =>
    if index + 1 < maxBlocks ∧ blocks (index + 1).toNat ≠ 0 then
      freeIndexLoop blocks fuel (index + 1)
    else index + 1

/-- `get_free_index`; the loop ends after `MAX_BLOCKS` rounds. -/
def getFreeIndex (t : Tables) : Int × Tables :=
  let index := freeIndexLoop t.blocks (maxBlocks + 1) t.index
  (if index ≥ maxBlocks then -1 else index, { t with index := index })

def freeIndex (t : Tables) (index : Int) : Option Tables :=
  if 0 ≤ index ∧ index < maxBlocks then
    some { t with blocks := Function.update t.blocks index.toNat 0 }
  else none

/-- `alloc_node`. -/
def allocNode (t : Tables) : FsType → Option NodeRef × Tables
  | .unknown => (none, t)
  | .fat32 =>
    let (index, t) := t.getFreeIndex
    (some ⟨.files, index⟩, t)
  | .ntfs =>
    let (index, t) := t.getFreeIndex
    (some ⟨.directories, index⟩, t)

/-- The `int` an `unsigned long` is converted to. -/
def toInt (n : Nat) : Int := if n % 2 ^ 32 < 2 ^ 31 then n % 2 ^ 32 else n % 2 ^ 32 - 2 ^ 32

def freeNode (layout : Layout) (t : Tables) (node : NodeRef) : Option Tables :=
  t.freeIndex (toInt (layout.address node / layout.nodeSize))

/-- The node behind a reference. -/
def node (t : Tables) (ref : NodeRef) : FsNode := t.nodes ref.table ref.index.toNat

/-- Write the node behind a reference. -/
def setNode (t : Tables) (ref : NodeRef) (node : FsNode) : Tables :=
  { t with
    nodes := Function.update t.nodes ref.table
      (Function.update (t.nodes ref.table) ref.index.toNat node) }

/-- The loop of `find_node`. -/
def findLoop (t : Tables) (path : String) : Nat → Option NodeRef → Option (Option NodeRef)
  | _, none => some none
  | 0, some _ => none
  | fuel + 1, some ref =>
    if (t.node ref).name ≠ path then findLoop t path fuel (t.node ref).next else some (some ref)

/-- `find_node`; a search that visits more nodes than there are does not end. -/
def findNode (t : Tables) (path : String) : Option (Option NodeRef) :=
  t.findLoop path (2 * maxNodes + 1) t.fileSystem

/-- `create_node`. -/
def createNode (t : Tables) (path : String) (type : FsType) : Option (Option NodeRef × Tables) :=
  match t.allocNode type with
  | (none, t) => some (none, t)
  | (some ref, t) =>
    if ref.Inside then
      some (some ref,
        t.setNode ref { FsNode.zero with type := type, name := path, flags := ⟨true, false⟩ })
    else none

/-- `create_file` and `mkdir`, which differ in the type of the node. -/
def create (type : FsType) (t : Tables) (path : String) : Option (Int × Tables) :=
  match t.createNode path type with
  | none => none
  | some (none, t) => some (-enospc, t)
  | some (some ref, t) =>
    some (0, t.setNode ref { t.node ref with flags := { (t.node ref).flags with created := true } })

def createFile : Tables → String → Option (Int × Tables) := create .fat32

def mkdir : Tables → String → Option (Int × Tables) := create .ntfs

/-- `delete_file` and `rmdir`, which differ in the type of the node. -/
def delete (type : FsType) (layout : Layout) (t : Tables) (path : String) :
    Option (Int × Tables) :=
  match t.findNode path with
  | none => none
  | some none => some (-enoent, t)
  | some (some ref) =>
    if (t.node ref).type ≠ type then some (-enoent, t)
    else (t.freeNode layout ref).map fun t => (0, t)

def deleteFile : Layout → Tables → String → Option (Int × Tables) := delete .fat32

def rmdir : Layout → Tables → String → Option (Int × Tables) := delete .ntfs

end Tables

/-- A call. -/
inductive Call where
  | createFile (path : String)
  | mkdir (path : String)
  | deleteFile (path : String)
  | rmdir (path : String)
deriving DecidableEq

/-- The result of a call and the tables after it. -/
def Tables.step (layout : Layout) (t : Tables) : Call → Option (Int × Tables)
  | .createFile path => t.createFile path
  | .mkdir path => t.mkdir path
  | .deleteFile path => t.deleteFile layout path
  | .rmdir path => t.rmdir layout path

/-- The node type and the table of a call that creates a node. -/
def Call.creates : Call → Option (FsType × Table)
  | .createFile _ => some (.fat32, .files)
  | .mkdir _ => some (.ntfs, .directories)
  | .deleteFile _ => none
  | .rmdir _ => none

/-- The path of a call. -/
def Call.path : Call → String
  | .createFile path => path
  | .mkdir path => path
  | .deleteFile path => path
  | .rmdir path => path

end FarouKernel.Ports.NodeTable
