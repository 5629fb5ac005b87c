import FarouKernel.Ports.KtreeModel
import FarouKernel.Verified.LinkedList
import FarouKernel.Verified.Runs
import Mathlib.Data.Finset.Card

/-!
# Runs of the node pool

The free list is threaded through the field `left` of the nodes, which the trees
use as well.  A configuration is the pool with the set of allocated indices; a
step allocates a node, frees an allocated one, or writes to an allocated one in
any way the trees might.

The invariant is that the free list visits exactly the indices that are not
allocated, and that `node_count` counts the others.
-/

namespace FarouKernel.Ports.Ktree

open Relation Verified

/-- The pool and the indices that are allocated. -/
structure PoolConfig where
  pool : KtreeNodePool
  allocated : Finset Nat

/-- After `ktree_pool_init`. -/
def PoolConfig.init (maxNodes : Nat) (pool : KtreeNodePool) : PoolConfig :=
  ⟨ktreePoolInit maxNodes pool, ∅⟩

/-- After `ktree_pool_alloc_node`. -/
def PoolConfig.alloc (c : PoolConfig) : PoolConfig :=
  match ktreePoolAllocNode c.pool with
  | (.ok idx, pool) => ⟨pool, insert idx c.allocated⟩
  | (.error _, pool) => ⟨pool, c.allocated⟩

/-- The successor in the free list. -/
def KtreeNodePool.next (pool : KtreeNodePool) (i : Nat) : Nat := (pool.nodes i).left

/-- One step of a run: an allocation, which may fail, the release of an allocated node or
of the invalid index, and writes of the clients to the nodes they hold. -/
inductive PoolStep : PoolConfig → PoolConfig → Prop
  | alloc (c : PoolConfig) : PoolStep c c.alloc
  | free (c : PoolConfig) (idx : Nat) (hidx : idx ∈ c.allocated ∨ idx = ktreeInvalidNode) :
      PoolStep c ⟨ktreePoolFreeNode c.pool idx, c.allocated.erase idx⟩
  | init (c : PoolConfig) (idx : Nat) (data : Int) (hidx : idx ∈ c.allocated) :
      PoolStep c { c with pool := ktreeNodeInit c.pool idx data }
  | write (c : PoolConfig) (idx : Nat) (node : KtreeNode) (hidx : idx ∈ c.allocated) :
      PoolStep c { c with pool := { c.pool with nodes := Function.update c.pool.nodes idx node } }

/-- What holds in every configuration of a run: the free list visits exactly the nodes
that are not allocated, and `node_count` counts the others. -/
structure PoolInv (maxNodes : Nat) (c : PoolConfig) : Prop where
  free : Visits ktreeInvalidNode c.pool.next c.pool.freeList
    fun i => i < maxNodes ∧ i ∉ c.allocated
  inside : ∀ i ∈ c.allocated, i < maxNodes
  count : c.pool.nodeCount = c.allocated.card

section

variable {maxNodes : Nat} {c c' : PoolConfig}

/-! ## Initialisation -/

theorem initLoop_left (nodes : Nat → KtreeNode) (n i : Nat) :
    (initLoop nodes n i).left = if i < n then i + 1 else (nodes i).left := by
  induction n with
  | zero =>
    rw [if_neg (Nat.not_lt_zero i)]
    rfl
  | succ n ih =>
    rw [initLoop, Function.update_apply]
    by_cases hi : i = n
    · rw [if_pos hi, if_pos (by omega), hi]
      rfl
    · have hiff : i < n + 1 ↔ i < n := by omega
      rw [if_neg hi, ih, if_congr hiff rfl rfl]

theorem ktreePoolInit_next (pool : KtreeNodePool) (i : Nat) :
    (ktreePoolInit maxNodes pool).next i =
      if i = maxNodes - 1 then ktreeInvalidNode
      else if i < maxNodes - 1 then i + 1 else pool.next i := by
  rw [KtreeNodePool.next, ktreePoolInit]
  dsimp only
  rw [Function.update_apply]
  split
  · rfl
  · exact initLoop_left pool.nodes (maxNodes - 1) i

theorem poolInv_init (hpos : 0 < maxNodes) (hmax : maxNodes ≤ ktreeInvalidNode)
    (pool : KtreeNodePool) : PoolInv maxNodes (PoolConfig.init maxNodes pool) where
  free := by
    have hlen : maxNodes - 1 + 1 = maxNodes := by omega
    have hchain : Chain ktreeInvalidNode (ktreePoolInit maxNodes pool).next 0
        (List.range' 0 (maxNodes - 1 + 1)) := by
      apply Chain.range'
      · intro i _ hi
        rw [ktreePoolInit_next, if_neg (by omega), if_pos (by omega)]
      · rw [ktreePoolInit_next, if_pos (by omega)]
      · intro i hi
        omega
    refine ⟨_, hchain, ?_⟩
    intro i
    rw [hlen, List.mem_range'_1]
    show _ ↔ i < maxNodes ∧ i ∉ (∅ : Finset Nat)
    simp
  inside i hi := absurd hi (Finset.notMem_empty i)
  count := rfl

/-! ## Steps -/

section

variable (h : PoolInv maxNodes c)

include h

/-- The count of allocated nodes is that of the pool. -/
theorem PoolInv.card_le : c.allocated.card ≤ maxNodes := by
  have hsub : c.allocated ⊆ Finset.range maxNodes :=
    fun i hi => Finset.mem_range.mpr (h.inside i hi)
  simpa using Finset.card_le_card hsub

/-- **`ktree_pool_alloc_node`** fails with all nodes allocated, or allocates a node
that is not. -/
theorem PoolInv.alloc_cases :
    (ktreePoolAllocNode c.pool = (.error .full, c.pool) ∧ ∀ i, i < maxNodes → i ∈ c.allocated) ∨
      ∃ idx pool, ktreePoolAllocNode c.pool = (.ok idx, pool) ∧ idx < maxNodes ∧
        idx ∉ c.allocated ∧ pool.nodeCount = (c.pool.nodeCount + 1) % 2 ^ 32 ∧
        Visits ktreeInvalidNode pool.next pool.freeList
          fun i => (i < maxNodes ∧ i ∉ c.allocated) ∧ i ≠ idx := by
  by_cases hfull : c.pool.freeList = ktreeInvalidNode
  · left
    refine ⟨if_pos hfull, ?_⟩
    intro i hi
    by_contra hnot
    exact h.free.eq_null_iff.mp hfull i ⟨hi, hnot⟩
  · right
    have hnext : ∀ i, i ≠ c.pool.freeList →
        (ktreePoolAllocNode c.pool).2.next i = c.pool.next i := by
      intro i hi
      rw [ktreePoolAllocNode, if_neg hfull]
      exact congrArg KtreeNode.left (Function.update_of_ne hi _ _)
    rcases h.free.pop hfull hnext with ⟨⟨hlt, hnot⟩, hrest⟩
    have halloc : ktreePoolAllocNode c.pool =
        (.ok c.pool.freeList, (ktreePoolAllocNode c.pool).2) := by
      rw [ktreePoolAllocNode, if_neg hfull]
    have hpool : (ktreePoolAllocNode c.pool).2.freeList = c.pool.next c.pool.freeList ∧
        (ktreePoolAllocNode c.pool).2.nodeCount = (c.pool.nodeCount + 1) % 2 ^ 32 := by
      rw [ktreePoolAllocNode, if_neg hfull]
      exact ⟨rfl, rfl⟩
    exact ⟨_, _, halloc, hlt, hnot, hpool.2, hpool.1 ▸ hrest⟩

theorem PoolInv.alloc (hmax : maxNodes ≤ ktreeInvalidNode) : PoolInv maxNodes c.alloc := by
  have hcard := h.card_le
  unfold ktreeInvalidNode at hmax
  rcases h.alloc_cases with ⟨hfull, _⟩ | ⟨idx, pool, halloc, hlt, hnot, hcount, hfree⟩
  · rw [PoolConfig.alloc, hfull]
    exact h
  · rw [PoolConfig.alloc, halloc]
    constructor
    · apply hfree.of_iff
      intro i
      show _ ↔ i < maxNodes ∧ i ∉ insert idx c.allocated
      rw [Finset.mem_insert, not_or]
      tauto
    · intro i hi
      rcases Finset.mem_insert.mp hi with rfl | hi
      · exact hlt
      · exact h.inside i hi
    · show pool.nodeCount = (insert idx c.allocated).card
      rw [Finset.card_insert_of_notMem hnot, hcount, h.count]
      omega

theorem PoolInv.release (hmax : maxNodes ≤ ktreeInvalidNode) {idx : Nat}
    (hidx : idx ∈ c.allocated ∨ idx = ktreeInvalidNode) :
    PoolInv maxNodes ⟨ktreePoolFreeNode c.pool idx, c.allocated.erase idx⟩ := by
  have hcard := h.card_le
  by_cases hnull : idx = ktreeInvalidNode
  · have hnot : idx ∉ c.allocated := by
      intro hmem
      have hlt := h.inside idx hmem
      omega
    rw [ktreePoolFreeNode, if_pos hnull, Finset.erase_eq_of_notMem hnot]
    exact h
  · have hmem : idx ∈ c.allocated := hidx.resolve_right hnull
    have hnext : ∀ i, i ≠ idx → (ktreePoolFreeNode c.pool idx).next i = c.pool.next i := by
      intro i hi
      rw [ktreePoolFreeNode, if_neg hnull]
      exact congrArg KtreeNode.left (Function.update_of_ne hi _ _)
    have hlink : (ktreePoolFreeNode c.pool idx).next idx = c.pool.freeList := by
      rw [KtreeNodePool.next, ktreePoolFreeNode, if_neg hnull]
      dsimp only
      rw [Function.update_self]
    have hpool : (ktreePoolFreeNode c.pool idx).freeList = idx ∧
        (ktreePoolFreeNode c.pool idx).nodeCount = (c.pool.nodeCount + (2 ^ 32 - 1)) % 2 ^ 32 := by
      rw [ktreePoolFreeNode, if_neg hnull]
      exact ⟨rfl, rfl⟩
    constructor
    · have hlt := h.inside idx hmem
      show Visits _ _ (ktreePoolFreeNode c.pool idx).freeList _
      rw [hpool.1]
      apply (h.free.push hnull (fun hF => hF.2 hmem) hlink hnext).of_iff
      intro i
      show _ ↔ i < maxNodes ∧ i ∉ c.allocated.erase idx
      rw [Finset.mem_erase]
      by_cases hi : i = idx
      · rw [hi]
        tauto
      · tauto
    · intro i hi
      exact h.inside i (Finset.mem_of_mem_erase hi)
    · have hpos : 0 < c.allocated.card := Finset.card_pos.mpr ⟨idx, hmem⟩
      unfold ktreeInvalidNode at hmax
      show (ktreePoolFreeNode c.pool idx).nodeCount = (c.allocated.erase idx).card
      rw [Finset.card_erase_of_mem hmem, hpool.2, h.count]
      omega

/-- Writing to an allocated node does not touch the free list. -/
theorem PoolInv.write {idx : Nat} (hidx : idx ∈ c.allocated) (node : KtreeNode) :
    PoolInv maxNodes
      { c with pool := { c.pool with nodes := Function.update c.pool.nodes idx node } } := by
  refine ⟨h.free.congr ?_, h.inside, h.count⟩
  intro i hi
  have hne : i ≠ idx := fun heq => hi.2 (heq ▸ hidx)
  exact congrArg KtreeNode.left (Function.update_of_ne hne _ _)

theorem PoolInv.step (hmax : maxNodes ≤ ktreeInvalidNode) (hstep : PoolStep c c') :
    PoolInv maxNodes c' := by
  cases hstep with
  | alloc => exact h.alloc hmax
  | free idx hidx => exact h.release hmax hidx
  | init idx data hidx => exact h.write hidx _
  | write idx node hidx => exact h.write hidx node

/-- The lengths of the free list and of the allocated part add up. -/
theorem PoolInv.length_add {chain : List Nat} (hnodup : chain.Nodup)
    (hmem : ∀ i, i ∈ chain ↔ i < maxNodes ∧ i ∉ c.allocated) :
    chain.length + c.pool.nodeCount = maxNodes := by
  have hset : chain.toFinset = Finset.range maxNodes \ c.allocated := by
    ext i
    rw [List.mem_toFinset, hmem, Finset.mem_sdiff, Finset.mem_range]
  have hsub : c.allocated ⊆ Finset.range maxNodes :=
    fun i hi => Finset.mem_range.mpr (h.inside i hi)
  have hcard := h.card_le
  rw [← List.toFinset_card_of_nodup hnodup, hset, Finset.card_sdiff_of_subset hsub,
    Finset.card_range, h.count]
  omega

end

end

/-- **The pool is partitioned.**  In every run the free list is acyclic, ends in
`KTREE_INVALID_NODE`, visits exactly the nodes that are not allocated, and its
length and `node_count` add up to `KTREE_MAX_NODES`.  An allocation never returns
a node that is still allocated; it fails exactly if all nodes are, and then
changes nothing. -/
theorem ktree_pool_partition (maxNodes : Nat) (hpos : 0 < maxNodes)
    (hmax : maxNodes ≤ ktreeInvalidNode) (pool : KtreeNodePool) (c : PoolConfig)
    (hrun : ReflTransGen PoolStep (PoolConfig.init maxNodes pool) c) :
    (∃ chain : List Nat, Chain ktreeInvalidNode c.pool.next c.pool.freeList chain ∧
        chain.Nodup ∧ (∀ i, i ∈ chain ↔ i < maxNodes ∧ i ∉ c.allocated) ∧
        chain.length + c.pool.nodeCount = maxNodes) ∧
      (∀ i, (ktreePoolAllocNode c.pool).1 = .ok i → i < maxNodes ∧ i ∉ c.allocated) ∧
      ((ktreePoolAllocNode c.pool).1 = .error .full ↔ ∀ i, i < maxNodes → i ∈ c.allocated) ∧
      ((ktreePoolAllocNode c.pool).1 = .error .full → (ktreePoolAllocNode c.pool).2 = c.pool) := by
  have h : PoolInv maxNodes c :=
    run_invariant (PoolInv maxNodes) (fun _ _ h => h.step hmax) hrun (poolInv_init hpos hmax pool)
  constructor
  · rcases h.free with ⟨chain, hchain, hmem⟩
    exact ⟨chain, hchain, hchain.nodup, hmem, h.length_add hchain.nodup hmem⟩
  · rcases h.alloc_cases with ⟨hfull, hall⟩ | ⟨idx, pool, halloc, hlt, hnot, _⟩
    · rw [hfull]
      refine ⟨?_, iff_of_true rfl hall, fun _ => rfl⟩
      intro i hi
      cases hi
    · rw [halloc]
      refine ⟨?_, iff_of_false (fun heq => by cases heq) fun hall => hnot (hall idx hlt), ?_⟩
      · intro i hi
        cases hi
        exact ⟨hlt, hnot⟩
      · intro heq
        cases heq

/-- The default pool after two allocations. -/
def twoAllocated : PoolConfig :=
  (PoolConfig.init 4096 ⟨fun _ => ⟨0, 0, 0, 0, 0, 0, 0⟩, 0, 0⟩).alloc.alloc

/-- The first node is given back: the free list and the second make up the pool. -/
theorem ktree_pool_partition_freed :
    ∃ c, PoolStep twoAllocated c ∧ c.allocated = {1} ∧
      ∃ chain : List Nat, Chain ktreeInvalidNode c.pool.next c.pool.freeList chain ∧
        chain.length + c.pool.nodeCount = 4096 := by
  have hrun : ReflTransGen PoolStep (PoolConfig.init 4096 _) twoAllocated :=
    (ReflTransGen.single (PoolStep.alloc _)).tail (PoolStep.alloc _)
  have hallocated : twoAllocated.allocated = {1, 0} := by decide +kernel
  have hfree := PoolStep.free twoAllocated 0 (Or.inl (by rw [hallocated]; decide))
  rcases ktree_pool_partition 4096 (by decide) (by decide) _ _ (hrun.tail hfree) with
    ⟨⟨chain, hchain, _, _, hlength⟩, _⟩
  refine ⟨_, hfree, ?_, chain, hchain, hlength⟩
  rw [hallocated]
  decide

end FarouKernel.Ports.Ktree
