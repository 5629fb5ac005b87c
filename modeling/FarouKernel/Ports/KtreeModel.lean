import FarouKernel.Verified.Bitmap
import Mathlib.Algebra.Ring.Int.Defs
import Mathlib.Algebra.Ring.Nat
import Mathlib.Logic.Function.Basic
import Mathlib.Tactic.Common

/-!
# `mm/kernel_tree.h`: bitmaps, ring buffers, the node pool and the manager

A translation of the two containers the traversals of trees use, of the pool the
nodes of all trees come from, and of the manager that hands out the trees.
`KTREE_MAX_NODES` and `KTREE_MAX_TREES` can be set at compile time, so they are
parameters.  The locks are always obtained, so every function is one critical
section.  The calls on a bitmap or a ring buffer have no result if they leave its
array.
-/

namespace FarouKernel.Ports.Ktree

open Verified

/-- `KTREE_INVALID_NODE`, that is `UINT16_MAX`. -/
def ktreeInvalidNode : Nat := 65535

/-- The errors of `ktree_error_t` that the functions below return. -/
inductive KtreeError where
  | full
  | invalid
  | empty
deriving DecidableEq

/-! ## Bitmaps -/

/-- The number of words of a bitmap. -/
def bitmapWords (maxNodes : Nat) : Nat := maxNodes / 64 + if maxNodes % 64 ≠ 0 then 1 else 0

/-- `ktree_bitmap_t`. -/
structure KtreeBitmap where
  bits : Nat → Nat

/-- The loop of `ktree_bitmap_init`, for the first words. -/
def clearWords (bits : Nat → Nat) : Nat → Nat → Nat
  | 0 => bits
  | i + 1 => Function.update (clearWords bits i) i 0

def ktreeBitmapInit (maxNodes : Nat) (bitmap : KtreeBitmap) : KtreeBitmap :=
  ⟨clearWords bitmap.bits (bitmapWords maxNodes)⟩

/-- `bitmap->bits[idx] = word`. -/
def KtreeBitmap.store (maxNodes : Nat) (bitmap : KtreeBitmap) (idx word : Nat) :
    Option KtreeBitmap :=
  if idx < bitmapWords maxNodes then some ⟨Function.update bitmap.bits idx word⟩ else none

def ktreeBitmapSet (maxNodes : Nat) (bitmap : KtreeBitmap) (bit : Nat) : Option KtreeBitmap :=
  let idx := bit >>> 6
  let offset := bit &&& 0x3F
  bitmap.store maxNodes idx (bitmap.bits idx ||| 1 <<< offset)

def ktreeBitmapTest (maxNodes : Nat) (bitmap : KtreeBitmap) (bit : Nat) : Option Bool :=
  let idx := bit >>> 6
  let offset := bit &&& 0x3F
  if idx < bitmapWords maxNodes then some (bitmap.bits idx &&& 1 <<< offset != 0) else none

def ktreeBitmapTestAndSet (maxNodes : Nat) (bitmap : KtreeBitmap) (bit : Nat) :
    Option (Bool × KtreeBitmap) := do
  let idx := bit >>> 6
  let offset := bit &&& 0x3F
  let mask := 1 <<< offset
  let old := bitmap.bits idx
  let bitmap ← bitmap.store maxNodes idx (old ||| mask)
  some (old &&& mask != 0, bitmap)

def ktreeBitmapClear (maxNodes : Nat) (bitmap : KtreeBitmap) (bit : Nat) : Option KtreeBitmap :=
  let idx := bit >>> 6
  let offset := bit &&& 0x3F
  bitmap.store maxNodes idx (bitmap.bits idx &&& not64 (1 <<< offset))

/-- The loop of `ktree_bitmap_count`, for the first words. -/
def countWords (bits : Nat → Nat) : Nat → Nat
  | 0 => 0
  | i + 1 => (countWords bits i + popcount64 (bits i)) % 2 ^ 32

/-- `ktree_bitmap_count`. -/
def ktreeBitmapCount (maxNodes : Nat) (bitmap : KtreeBitmap) : Nat :=
  countWords bitmap.bits (bitmapWords maxNodes)

/-! ## Ring buffers -/

/-- `ktree_ring_buffer_t`. -/
structure KtreeRingBuffer where
  buffer : Nat → Nat
  head : Nat
  tail : Nat
  count : Nat

def ktreeRingInit (rb : KtreeRingBuffer) : KtreeRingBuffer :=
  { rb with head := 0, tail := 0, count := 0 }

def ktreeRingEmpty (rb : KtreeRingBuffer) : Bool := rb.count == 0

def ktreeRingFull (maxNodes : Nat) (rb : KtreeRingBuffer) : Bool := rb.count == maxNodes

/-- `ktree_ring_push`. -/
def ktreeRingPush (maxNodes : Nat) (rb : KtreeRingBuffer) (idx : Nat) :
    Option (Except KtreeError Unit × KtreeRingBuffer) :=
  if ktreeRingFull maxNodes rb then some (.error .full, rb)
  else if rb.tail < maxNodes then
    some (.ok (),
      { rb with
        buffer := Function.update rb.buffer rb.tail idx
        tail := ((rb.tail + 1) &&& (maxNodes - 1)) % 2 ^ 16
        count := (rb.count + 1) % 2 ^ 16 })
  else none

/-- `ktree_ring_pop`. -/
def ktreeRingPop (maxNodes : Nat) (rb : KtreeRingBuffer) :
    Option (Except KtreeError Nat × KtreeRingBuffer) :=
  if ktreeRingEmpty rb then some (.error .empty, rb)
  else if rb.head < maxNodes then
    some (.ok (rb.buffer rb.head),
      { rb with
        head := ((rb.head + 1) &&& (maxNodes - 1)) % 2 ^ 16
        count := (rb.count + (2 ^ 16 - 1)) % 2 ^ 16 })
  else none

def ktreeRingClear (rb : KtreeRingBuffer) : KtreeRingBuffer :=
  { rb with head := 0, tail := 0, count := 0 }

def ktreeRingSize (rb : KtreeRingBuffer) : Nat := rb.count

/-! ## The node pool -/

/-- `ktree_node_t`. -/
structure KtreeNode where
  data : Int
  hash : Nat
  left : Nat
  right : Nat
  parent : Nat
  height : Nat
  flags : Nat

/-- `ktree_node_pool_t`. -/
structure KtreeNodePool where
  nodes : Nat → KtreeNode
  freeList : Nat
  nodeCount : Nat

/-- The fields `ktree_pool_init` gives to a node of the free list. -/
def initNode (node : KtreeNode) (left : Nat) : KtreeNode :=
  { node with
    left := left
    right := ktreeInvalidNode
    parent := ktreeInvalidNode
    height := 0
    flags := 0 }

/-- The loop of `ktree_pool_init`, for the first nodes. -/
def initLoop (nodes : Nat → KtreeNode) : Nat → Nat → KtreeNode
  | 0 => nodes
  | i + 1 => Function.update (initLoop nodes i) i (initNode (initLoop nodes i i) (i + 1))

def ktreePoolInit (maxNodes : Nat) (pool : KtreeNodePool) : KtreeNodePool :=
  let nodes := initLoop pool.nodes (maxNodes - 1)
  { nodes := Function.update nodes (maxNodes - 1) (initNode (nodes (maxNodes - 1)) ktreeInvalidNode)
    freeList := 0
    nodeCount := 0 }

/-- `ktree_pool_alloc_node`. -/
def ktreePoolAllocNode (pool : KtreeNodePool) : Except KtreeError Nat × KtreeNodePool :=
  if pool.freeList = ktreeInvalidNode then (.error .full, pool)
  else
    let newIdx := pool.freeList
    (.ok newIdx,
      { nodes := Function.update pool.nodes newIdx
          { pool.nodes newIdx with
            left := ktreeInvalidNode
            right := ktreeInvalidNode
            parent := ktreeInvalidNode
            height := 1
            flags := 0 }
        freeList := (pool.nodes newIdx).left
        nodeCount := (pool.nodeCount + 1) % 2 ^ 32 })

def ktreeNodeInit (pool : KtreeNodePool) (idx : Nat) (data : Int) : KtreeNodePool :=
  { pool with
    nodes := Function.update pool.nodes idx
      { pool.nodes idx with data := data, hash := (data % 2 ^ 32).toNat } }

/-- `ktree_pool_free_node`, which leaves the height as it is. -/
def ktreePoolFreeNode (pool : KtreeNodePool) (idx : Nat) : KtreeNodePool :=
  if idx = ktreeInvalidNode then pool
  else
    { nodes := Function.update pool.nodes idx
        { pool.nodes idx with
          left := pool.freeList
          right := ktreeInvalidNode
          parent := ktreeInvalidNode
          flags := 0 }
      freeList := idx
      nodeCount := (pool.nodeCount + (2 ^ 32 - 1)) % 2 ^ 32 }

/-! ## The manager -/

def ktreeFlagRoot : Nat := 1 <<< 5

/-- `ktree_tree_t`. -/
structure KtreeTree where
  root : Nat
  size : Nat
  flags : Nat
  height : Nat

/-- `ktree_manager_t`. -/
structure KtreeManager where
  nodePool : KtreeNodePool
  trees : Nat → KtreeTree
  treeCount : Nat
  flags : Nat

/-- `ktree_init`, which sets every field. -/
def ktreeInit (flags : Nat) : KtreeTree :=
  { root := ktreeInvalidNode, size := 0, flags := flags, height := 0 }

/-- The test `ktree_manager_create_tree` makes on a slot. -/
def KtreeTree.vacant (tree : KtreeTree) : Bool :=
  tree.root == ktreeInvalidNode && tree.size == 0

/-- `ktree_manager_create_tree`. -/
def ktreeManagerCreateTree (maxTrees : Nat) (mgr : KtreeManager) (flags : Nat) :
    Except KtreeError Nat × KtreeManager :=
  if mgr.treeCount ≥ maxTrees then (.error .full, mgr)
  else
    match (List.range maxTrees).find? fun i => (mgr.trees i).vacant with
    | some i =>
      (.ok i,
        { mgr with
          trees := Function.update mgr.trees i (ktreeInit flags)
          treeCount := (mgr.treeCount + 1) % 2 ^ 32 })
    | none => (.error .full, mgr)

/-- The loop of `ktree_manager_init`, for the first trees. -/
def initTrees (trees : Nat → KtreeTree) : Nat → Nat → KtreeTree
  | 0 => trees
  | i + 1 => Function.update (initTrees trees i) i (ktreeInit 0)

def ktreeManagerInit (maxNodes maxTrees : Nat) (mgr : KtreeManager) : KtreeManager :=
  { nodePool := ktreePoolInit maxNodes mgr.nodePool
    trees := initTrees mgr.trees maxTrees
    treeCount := 0
    flags := 0 }

/-- The node at `idx` becomes the root of a tree. -/
def markRoot (pool : KtreeNodePool) (idx : Nat) : KtreeNodePool :=
  { pool with
    nodes := Function.update pool.nodes idx
      { pool.nodes idx with flags := (pool.nodes idx).flags ||| ktreeFlagRoot } }

/-- `ktree_insert`.  The header breaks off in the search that follows if the tree
has a root already, so there is no result for that case. -/
def ktreeInsert (maxTrees : Nat) (mgr : KtreeManager) (treeId : Nat) (data : Int) :
    Option (Except KtreeError Unit × KtreeManager) :=
  if treeId ≥ maxTrees then some (.error .invalid, mgr)
  else
    match ktreePoolAllocNode mgr.nodePool with
    | (.error err, pool) => some (.error err, { mgr with nodePool := pool })
    | (.ok newIdx, pool) =>
      let tree := mgr.trees treeId
      if tree.root = ktreeInvalidNode then
        some (.ok (),
          { mgr with
            nodePool := markRoot (ktreeNodeInit pool newIdx data) newIdx
            trees := Function.update mgr.trees treeId
              { tree with root := newIdx, size := 1, height := 1 } })
      else none

end FarouKernel.Ports.Ktree
