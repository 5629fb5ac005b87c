import FarouKernel.Ports.BlockModel
import FarouKernel.Verified.Runs
import Mathlib.Data.List.Pairwise
import Mathlib.Data.List.Perm.Basic

/-!
# Runs of the block allocator

The operations of a run are `pmm_mark_region` on block-aligned regions inside
memory, `pmm_alloc_blocks`, and `pmm_free_blocks` of a live allocation with its
own count.  A configuration is the allocator's state with the live allocations,
each a pair of the address that was returned and the number of blocks.

Two results rest on the same description of the operations as markings of the
bitmap.  Allocations are exclusive, as long as no region with a live allocation
is marked free.  The counter `used_blocks` agrees with the bitmap exactly as long
as every marking changes every block it touches, since the bitmap is idempotent
and the counter is not.
-/

namespace FarouKernel.Ports.Block

open Relation Verified

/-- What every state after `pmm_init` has.  It says nothing about `used_blocks` or the
hint. -/
structure BlockWf (s : PmmState) : Prop where
  init : s.initialized = true
  words : ∀ j, s.bitmap j < 2 ^ 64
  total : s.totalBlocks = s.memorySize / blockSize
  memory : s.memorySize < 2 ^ 64

/-- The block's bit is set. -/
def PmmState.isUsed (s : PmmState) (k : Nat) : Bool := bitAt s.bitmap k

/-- Block `k` belongs to the `n` blocks from `b` on. -/
def InBlocks (b n k : Nat) : Prop := b ≤ k ∧ k < b + n

instance (b n k : Nat) : Decidable (InBlocks b n k) := inferInstanceAs (Decidable (_ ∧ _))

/-- The `count` blocks from `b` on are free. -/
def PmmState.FreeRun (s : PmmState) (count b : Nat) : Prop :=
  b + count ≤ s.totalBlocks ∧ ∀ k, InBlocks b count k → s.isUsed k = false

/-- The run is the first one at or above the hint. -/
structure PmmState.FirstRun (s : PmmState) (count b : Nat) : Prop where
  run : s.FreeRun count b
  above : s.lastFreeBlock ≤ b
  first : ∀ b', s.lastFreeBlock ≤ b' → b' < b → ¬s.FreeRun count b'

/-! ## The operations as markings -/

variable {block : Nat} {used : Bool}

section Operations

variable {s : PmmState} {count b : Nat}

theorem BlockWf.total_lt (h : BlockWf s) : s.totalBlocks < 2 ^ 52 := by
  have hmemory := h.memory
  rw [h.total]
  unfold blockSize
  omega

theorem pmmInit_wf {memSize : Nat} {bitmapBase : Nat → Nat} (hmem : memSize < 2 ^ 64)
    (hbase : ∀ j, bitmapBase j < 2 ^ 64) : BlockWf (pmmInit memSize bitmapBase .zero) where
  init := rfl
  words j := by
    show (if j < _ then 2 ^ 64 - 1 else bitmapBase j) < 2 ^ 64
    split
    · decide
    · exact hbase j
  total := rfl
  memory := hmem

/-- Without a wrap-around `set_blocks` marks a run of bits. -/
theorem setBlocks_eq {count : Nat} {bitmap : Nat → Nat} (h : block + count ≤ 2 ^ 64) :
    setBlocks block used count bitmap = markBits used block count bitmap := by
  induction count with
  | zero => rfl
  | succ i ih => rw [setBlocks, markBits, ih (by omega), add64_of_lt (by omega)]

/-- The state after a marking of the bitmap, with the new counter and hint. -/
def PmmState.marked (s : PmmState) (used : Bool) (b n : Nat) (usedBlocks lastFreeBlock : Nat) :
    PmmState :=
  { s with
    bitmap := markBits used b n s.bitmap
    usedBlocks := usedBlocks
    lastFreeBlock := lastFreeBlock }

theorem BlockWf.marked (h : BlockWf s) (used : Bool) (b n usedBlocks lastFreeBlock : Nat) :
    BlockWf (s.marked used b n usedBlocks lastFreeBlock) :=
  ⟨h.init, markBits_lt h.words b n, h.total, h.memory⟩

theorem isUsed_marked (used : Bool) (b n usedBlocks lastFreeBlock k : Nat) :
    (s.marked used b n usedBlocks lastFreeBlock).isUsed k =
      if InBlocks b n k then used else s.isUsed k :=
  bitAt_markBits s.bitmap used b n k

theorem runEnds_of_freeRun (hrun : s.FreeRun count b) (hcount : 0 < count)
    (hb : s.lastFreeBlock ≤ b) :
    RunEnds (fun k => !bitAt s.bitmap k) s.lastFreeBlock count (b + count - 1) := by
  refine ⟨by omega, ?_⟩
  intro k hk hk'
  have hbit : bitAt s.bitmap k = false := hrun.2 k ⟨by omega, by omega⟩
  show (!bitAt s.bitmap k) = true
  rw [hbit]
  rfl

theorem freeRun_of_runEnds {j : Nat} (hj : j < s.totalBlocks)
    (h : RunEnds (fun k => !bitAt s.bitmap k) s.lastFreeBlock count j) :
    s.FreeRun count (j + 1 - count) := by
  have hle := h.1
  refine ⟨by omega, ?_⟩
  intro k hk
  unfold InBlocks at hk
  have hbit := h.2 k (by omega) (by omega)
  exact Bool.not_eq_true' _ ▸ hbit

/-- **`pmm_alloc_blocks`** takes the first run at or above the hint, and fails
without an effect if there is none. -/
theorem BlockWf.alloc_first (h : BlockWf s) (hcount : 0 < count) :
    (pmmAllocBlocks count s = (0, s) ∧ ∀ b, s.lastFreeBlock ≤ b → ¬s.FreeRun count b) ∨
      ∃ first, s.FirstRun count first ∧
        pmmAllocBlocks count s =
          (first * blockSize,
            s.marked true first count (add64 s.usedBlocks count) (first + count)) := by
  have htotal := h.total_lt
  unfold pmmAllocBlocks
  rw [if_neg (by simp [h.init]; omega)]
  rcases findRun_spec (w := s.bitmap) (s.totalBlocks - s.lastFreeBlock) s.lastFreeBlock hcount with
    ⟨j, hfound, hj, hj', hends, hfirst⟩ | ⟨hnone, hall⟩
  · right
    rw [hfound]
    have hle := hends.1
    have hblock : add64 (sub64 j count) 1 = j + 1 - count := by
      unfold add64 sub64
      omega
    have hbound : (j + 1 - count) * blockSize < 2 ^ 64 := by
      unfold blockSize
      omega
    refine ⟨j + 1 - count, ⟨freeRun_of_runEnds (by omega) hends, by omega, ?_⟩, ?_⟩
    · intro b hb hlt hrun
      exact hfirst (b + count - 1) (by omega) (by omega) (runEnds_of_freeRun hrun hcount hb)
    · simp only [hblock, setBlocks_eq (show j + 1 - count + count ≤ 2 ^ 64 by omega),
        Nat.mod_eq_of_lt hbound, add64_of_lt (show j + 1 < 2 ^ 64 by omega), PmmState.marked]
      rw [show j + 1 - count + count = j + 1 by omega]
  · left
    rw [hnone]
    refine ⟨rfl, ?_⟩
    intro b hb hrun
    have hin := hrun.1
    exact hall (b + count - 1) (by omega) (by omega) (runEnds_of_freeRun hrun hcount hb)

/-- `pmm_alloc_blocks` fails and changes nothing, or marks a run of free blocks as
used and returns its address. -/
theorem BlockWf.alloc_cases (h : BlockWf s) (count : Nat) :
    pmmAllocBlocks count s = (0, s) ∨
      ∃ first, 0 < count ∧ first + count ≤ s.totalBlocks ∧
        (∀ k, InBlocks first count k → s.isUsed k = false) ∧
        pmmAllocBlocks count s =
          (first * blockSize,
            s.marked true first count (add64 s.usedBlocks count) (first + count)) := by
  rcases Nat.eq_zero_or_pos count with hzero | hpos
  · left
    unfold pmmAllocBlocks
    exact if_pos (Or.inr hzero)
  · rcases h.alloc_first hpos with ⟨hnone, _⟩ | ⟨first, hfirst, hsome⟩
    · exact Or.inl hnone
    · exact Or.inr ⟨first, hpos, hfirst.run.1, hfirst.run.2, hsome⟩

/-- **`pmm_free_blocks`** of blocks inside memory marks them as free, and moves the
hint back to them. -/
theorem BlockWf.free_marked (h : BlockWf s) {count : Nat} (hblock : block ≠ 0) (hcount : count ≠ 0)
    (hin : block / blockSize + count ≤ s.totalBlocks) :
    pmmFreeBlocks block count s =
      s.marked false (block / blockSize) count (sub64 s.usedBlocks count)
        (if block / blockSize < s.lastFreeBlock then block / blockSize else s.lastFreeBlock) := by
  have htotal := h.total_lt
  unfold pmmFreeBlocks
  rw [if_neg (by simp [h.init, hblock, hcount])]
  dsimp only
  rw [add64_of_lt (by omega), if_neg (Nat.not_lt.mpr hin), setBlocks_eq (by omega)]
  rfl

theorem BlockWf.free_eq (h : BlockWf s) {count : Nat} (hblock : block ≠ 0) (hcount : count ≠ 0)
    (hin : block / blockSize + count ≤ s.totalBlocks) :
    ∃ lastFreeBlock, pmmFreeBlocks block count s =
      s.marked false (block / blockSize) count (sub64 s.usedBlocks count) lastFreeBlock :=
  ⟨_, h.free_marked hblock hcount hin⟩

/-- The counter after a marking. -/
def adjusted (used : Bool) (usedBlocks n : Nat) : Nat :=
  if used = true then add64 usedBlocks n else sub64 usedBlocks n

/-- **`pmm_mark_region`** on a block-aligned region marks exactly its blocks. -/
theorem BlockWf.mark_eq (h : BlockWf s) {base size : Nat} (hbase : base % blockSize = 0)
    (hin : base + size ≤ s.memorySize) (used : Bool) :
    pmmMarkRegion base size used s =
      s.marked used (base / blockSize) (size / blockSize)
        (adjusted used s.usedBlocks (size / blockSize)) s.lastFreeBlock := by
  have hmemory := h.memory
  unfold blockSize at hbase
  have hup : base + (2 ^ 12 - 1) < 2 ^ 64 := by omega
  have halign : add64 base (blockSize - 1) &&& not64 (blockSize - 1) = base := by
    have hround : (base + (2 ^ 12 - 1)) &&& not64 (2 ^ 12 - 1) = _ :=
      and_not64_lowMask hup (by decide)
    rw [show blockSize - 1 = 2 ^ 12 - 1 from rfl, add64_of_lt hup, hround]
    omega
  have hself : sub64 base base = 0 := by
    rw [sub64_of_le (Nat.le_refl _) (by omega)]
    exact Nat.sub_self base
  have hsize : sub64 size 0 = size := sub64_of_le (Nat.zero_le _) (by omega)
  have hnowrap : base / blockSize + size / blockSize ≤ 2 ^ 64 := by
    unfold blockSize
    omega
  simp only [pmmMarkRegion, halign, hself, hsize, setBlocks_eq hnowrap, PmmState.marked, adjusted]

end Operations

/-! ## Configurations -/

/-- The allocator and its live allocations, with their addresses and counts.  The code
keeps no such list. -/
structure BlockConfig where
  state : PmmState
  live : List (Nat × Nat)

/-- An operation of a run. -/
inductive BlockOp where
  | mark (base size : Nat) (used : Bool)
  | alloc (count : Nat)
  | free (block count : Nat)

/-- After `pmm_init`. -/
def BlockConfig.init (memSize : Nat) (bitmapBase : Nat → Nat) : BlockConfig :=
  ⟨pmmInit memSize bitmapBase .zero, []⟩

/-- A `NULL` result is no allocation. -/
def BlockConfig.apply (c : BlockConfig) : BlockOp → BlockConfig
  | .mark base size used => { c with state := pmmMarkRegion base size used c.state }
  | .alloc count =>
    let r := pmmAllocBlocks count c.state
    ⟨r.2, if r.1 = 0 then c.live else (r.1, count) :: c.live⟩
  | .free block count => ⟨pmmFreeBlocks block count c.state, c.live.erase (block, count)⟩

/-- The operations of a run: regions are block-aligned and inside memory, and only
live allocations are freed, with their own count. -/
def BlockConfig.Admissible (c : BlockConfig) : BlockOp → Prop
  | .mark base size _ =>
    base % blockSize = 0 ∧ size % blockSize = 0 ∧ base + size ≤ c.state.memorySize
  | .alloc _ => True
  | .free block count => (block, count) ∈ c.live

/-- The blocks of a live allocation. -/
def OwnBlocks (a : Nat × Nat) (k : Nat) : Prop := InBlocks (a.1 / blockSize) a.2 k

/-- The allocation is not `NULL`, block-aligned and inside memory. -/
structure Placed (s : PmmState) (a : Nat × Nat) : Prop where
  address : a.1 ≠ 0
  count : a.2 ≠ 0
  aligned : a.1 % blockSize = 0
  inside : a.1 / blockSize + a.2 ≤ s.totalBlocks

/-- What holds in every configuration of a run.  That the live allocations share no block
is said by `BlockInv`. -/
structure ConfigWf (c : BlockConfig) : Prop where
  wf : BlockWf c.state
  placed : ∀ a ∈ c.live, Placed c.state a

section Configurations

variable {c : BlockConfig} {op : BlockOp}

theorem configWf_init {memSize : Nat} {bitmapBase : Nat → Nat} (hmem : memSize < 2 ^ 64)
    (hbase : ∀ j, bitmapBase j < 2 ^ 64) : ConfigWf (BlockConfig.init memSize bitmapBase) where
  wf := pmmInit_wf hmem hbase
  placed a ha := by cases ha

/-- **Every operation is a marking**, or changes nothing.  An allocation marks
free blocks as used, and a free marks the blocks of its allocation as free. -/
theorem ConfigWf.apply_cases (h : ConfigWf c) (hop : c.Admissible op) :
    ((c.apply op).state = c.state ∧ (c.apply op).live = c.live ∧ ∃ count, op = .alloc count) ∨
      ∃ used b n lastFreeBlock, b + n ≤ c.state.totalBlocks ∧
        (c.apply op).state =
          c.state.marked used b n (adjusted used c.state.usedBlocks n) lastFreeBlock ∧
        ((∃ base size, op = .mark base size used ∧ b = base / blockSize ∧ n = size / blockSize ∧
            (c.apply op).live = c.live) ∨
          (op = .alloc n ∧ used = true ∧ 0 < n ∧
            (∀ k, InBlocks b n k → c.state.isUsed k = false) ∧
            (c.apply op).live = if b = 0 then c.live else (b * blockSize, n) :: c.live) ∨
          ∃ block, op = .free block n ∧ used = false ∧ b = block / blockSize ∧
            (block, n) ∈ c.live ∧ (c.apply op).live = c.live.erase (block, n)) := by
  cases op with
  | mark base size used =>
    rcases hop with ⟨hbase, hsize, hin⟩
    right
    refine ⟨used, base / blockSize, size / blockSize, c.state.lastFreeBlock, ?_,
      h.wf.mark_eq hbase hin used, Or.inl ⟨base, size, rfl, rfl, rfl, rfl⟩⟩
    rw [h.wf.total]
    unfold blockSize at hbase hsize ⊢
    omega
  | alloc count =>
    rcases h.wf.alloc_cases count with hnone | ⟨first, hpos, hin, hfree, hsome⟩
    · left
      have hnull : (c.apply (.alloc count)) = c := by simp only [BlockConfig.apply, hnone, if_true]
      exact ⟨by rw [hnull], by rw [hnull], count, rfl⟩
    · right
      refine ⟨true, first, count, first + count, hin, ?_,
        Or.inr (Or.inl ⟨rfl, rfl, hpos, hfree, ?_⟩)⟩
      · simp only [BlockConfig.apply, hsome]
        rfl
      · have hiff : first * blockSize = 0 ↔ first = 0 := by
          unfold blockSize
          omega
        simp only [BlockConfig.apply, hsome, hiff]
  | free block count =>
    have hplaced := h.placed _ hop
    rcases h.wf.free_eq hplaced.address hplaced.count hplaced.inside with ⟨last, hfree⟩
    right
    exact ⟨false, block / blockSize, count, last, hplaced.inside, hfree,
      Or.inr (Or.inr ⟨block, rfl, rfl, rfl, hop, rfl⟩)⟩

theorem ConfigWf.apply (h : ConfigWf c) (hop : c.Admissible op) : ConfigWf (c.apply op) := by
  rcases h.apply_cases hop with
    ⟨hstate, hlive, _⟩ | ⟨used, b, n, last, hin, hstate, hcase⟩
  · constructor
    · rw [hstate]
      exact h.wf
    · rw [hstate, hlive]
      exact h.placed
  · constructor
    · rw [hstate]
      exact h.wf.marked _ _ _ _ _
    · have hold : ∀ a ∈ c.live, Placed (c.apply op).state a := by
        intro a ha
        have hplaced := h.placed a ha
        rw [hstate]
        exact ⟨hplaced.address, hplaced.count, hplaced.aligned, hplaced.inside⟩
      rcases hcase with ⟨_, _, _, _, _, hlive⟩ | ⟨_, _, hpos, _, hlive⟩ | ⟨_, _, _, _, _, hlive⟩
      · rw [hlive]
        exact hold
      · rw [hlive]
        split
        · exact hold
        · rename_i hb
          intro a ha
          rcases List.mem_cons.mp ha with rfl | ha
          · have hdiv : b * blockSize / blockSize = b := Nat.mul_div_cancel b (by decide)
            refine ⟨?_, by omega, Nat.mul_mod_left b blockSize, ?_⟩
            · exact Nat.mul_ne_zero hb (by decide)
            · rw [hstate, hdiv]
              exact hin
          · exact hold a ha
      · rw [hlive]
        exact fun a ha => hold a (List.mem_of_mem_erase ha)

end Configurations

/-! ## Exclusive allocations -/

/-- The operation marks no block of a live allocation as free. -/
def BlockConfig.Spares (c : BlockConfig) : BlockOp → Prop
  | .mark base size used =>
    used = false → ∀ a ∈ c.live, ∀ k, OwnBlocks a k →
      ¬InBlocks (base / blockSize) (size / blockSize) k
  | .alloc _ => True
  | .free _ _ => True

/-- The steps of a run that spares the live allocations. -/
def BlockStep (c c' : BlockConfig) : Prop :=
  ∃ op, c.Admissible op ∧ c.Spares op ∧ c' = c.apply op

/-- Live allocations are marked used and share no block. -/
structure BlockInv (c : BlockConfig) : Prop where
  config : ConfigWf c
  used : ∀ a ∈ c.live, ∀ k, OwnBlocks a k → c.state.isUsed k = true
  apart : c.live.Pairwise fun a b => ∀ k, OwnBlocks a k → ¬OwnBlocks b k

section Exclusive

variable {c c' : BlockConfig}

theorem BlockInv.mark (h : BlockInv c) {base size : Nat} (hop : c.Admissible (.mark base size used))
    (hspares : c.Spares (.mark base size used)) : BlockInv (c.apply (.mark base size used)) := by
  refine ⟨h.config.apply hop, ?_, h.apart⟩
  intro a ha k hk
  show (pmmMarkRegion base size used c.state).isUsed k = true
  rw [h.config.wf.mark_eq hop.1 hop.2.2, isUsed_marked]
  split
  · rename_i hin
    cases used with
    | true => rfl
    | false => exact absurd hin (hspares rfl a ha k hk)
  · exact h.used a ha k hk

/-- Blocks that were free belong to no live allocation. -/
theorem BlockInv.not_own (h : BlockInv c) {a : Nat × Nat} (ha : a ∈ c.live) {k : Nat}
    (hk : c.state.isUsed k = false) : ¬OwnBlocks a k := by
  intro hown
  rw [h.used a ha k hown] at hk
  cases hk

theorem BlockInv.alloc (h : BlockInv c) (count : Nat) : BlockInv (c.apply (.alloc count)) := by
  have hconfig : ConfigWf (c.apply (.alloc count)) := h.config.apply trivial
  rcases h.config.wf.alloc_cases count with hnone | ⟨first, hpos, hin, hfree, hsome⟩
  · have hsame : c.apply (.alloc count) = c := by simp only [BlockConfig.apply, hnone, if_true]
    rw [hsame]
    exact h
  · have hkeep : ∀ k, c.state.isUsed k = true → (c.apply (.alloc count)).state.isUsed k = true := by
      intro k hk
      simp only [BlockConfig.apply, hsome, isUsed_marked]
      split
      · rfl
      · exact hk
    by_cases hnull : first * blockSize = 0
    · have hlive : (c.apply (.alloc count)).live = c.live := by
        simp only [BlockConfig.apply, hsome, hnull, if_true]
      refine ⟨hconfig, ?_, by rw [hlive]; exact h.apart⟩
      rw [hlive]
      exact fun a ha k hk => hkeep k (h.used a ha k hk)
    · have hlive : (c.apply (.alloc count)).live = (first * blockSize, count) :: c.live := by
        simp only [BlockConfig.apply, hsome, hnull, if_false]
      have hown : ∀ k, OwnBlocks (first * blockSize, count) k ↔ InBlocks first count k := by
        intro k
        unfold OwnBlocks
        rw [Nat.mul_div_cancel first (by decide)]
      constructor
      · exact hconfig
      · rw [hlive]
        intro a ha k hk
        rcases List.mem_cons.mp ha with rfl | ha
        · simp only [BlockConfig.apply, hsome, isUsed_marked]
          rw [if_pos ((hown k).mp hk)]
        · exact hkeep k (h.used a ha k hk)
      · rw [hlive, List.pairwise_cons]
        refine ⟨?_, h.apart⟩
        intro a ha k hk
        exact h.not_own ha (hfree k ((hown k).mp hk))

theorem BlockInv.free (h : BlockInv c) {count : Nat} (hop : (block, count) ∈ c.live) :
    BlockInv (c.apply (.free block count)) := by
  have hplaced := h.config.placed _ hop
  rcases h.config.wf.free_eq hplaced.address hplaced.count hplaced.inside with ⟨last, hfree⟩
  refine ⟨h.config.apply hop, ?_, h.apart.sublist List.erase_sublist⟩
  -- the freed blocks belong to none of the allocations that stay
  have hperm := ((List.perm_cons_erase hop).pairwise_iff fun hab k hb ha => hab k ha hb).mp h.apart
  intro a ha k hk
  have hother : ¬InBlocks (block / blockSize) count k := by
    intro hin
    exact (List.pairwise_cons.mp hperm).1 a ha k hin hk
  simp only [BlockConfig.apply, hfree, isUsed_marked]
  rw [if_neg hother]
  exact h.used a (List.mem_of_mem_erase ha) k hk

theorem BlockInv.step (h : BlockInv c) (hstep : BlockStep c c') : BlockInv c' := by
  rcases hstep with ⟨op, hop, hspares, rfl⟩
  cases op with
  | mark base size used => exact h.mark hop hspares
  | alloc count => exact h.alloc count
  | free block count => exact h.free hop

end Exclusive

/-- **Exclusive allocations.**  In every run that spares the live allocations, an
allocation that does not return `NULL` returns a block-aligned address; its
blocks lie below `total_blocks`, were free and are used afterwards, and belong to
no live allocation; and no other bit of the bitmap changes. -/
theorem block_alloc_exclusive (memSize : Nat) (hmem : memSize < 2 ^ 64) (bitmapBase : Nat → Nat)
    (hbase : ∀ j, bitmapBase j < 2 ^ 64) (c : BlockConfig)
    (hrun : ReflTransGen BlockStep (BlockConfig.init memSize bitmapBase) c) (count : Nat)
    (hsome : (pmmAllocBlocks count c.state).1 ≠ 0) :
    (pmmAllocBlocks count c.state).1 % blockSize = 0 ∧
      (pmmAllocBlocks count c.state).1 / blockSize + count ≤ c.state.totalBlocks ∧
      (∀ k, OwnBlocks ((pmmAllocBlocks count c.state).1, count) k →
        c.state.isUsed k = false ∧ (pmmAllocBlocks count c.state).2.isUsed k = true ∧
        ∀ a ∈ c.live, ¬OwnBlocks a k) ∧
      ∀ k, ¬OwnBlocks ((pmmAllocBlocks count c.state).1, count) k →
        (pmmAllocBlocks count c.state).2.isUsed k = c.state.isUsed k := by
  have hinv : BlockInv c := by
    refine run_invariant BlockInv (fun _ _ h => h.step) hrun ⟨configWf_init hmem hbase, ?_, ?_⟩
    · intro a ha
      cases ha
    · exact List.Pairwise.nil
  have hwf := hinv.config.wf
  rcases hwf.alloc_cases count with hnone | ⟨first, _, hin, hfree, halloc⟩
  · rw [hnone] at hsome
    exact absurd rfl hsome
  · have hdiv : first * blockSize / blockSize = first := Nat.mul_div_cancel first (by decide)
    simp only [halloc, OwnBlocks, hdiv]
    refine ⟨Nat.mul_mod_left first blockSize, hin, ?_, ?_⟩
    · intro k hk
      rw [isUsed_marked, if_pos hk]
      refine ⟨hfree k hk, rfl, ?_⟩
      intro a ha
      exact hinv.not_own ha (hfree k hk)
    · intro k hk
      rw [isUsed_marked, if_neg hk]

/-- Sixteen blocks, of which two are marked free. -/
def twoFree : BlockConfig := (BlockConfig.init 65536 fun _ => 0).apply (.mark 4096 8192 false)

/-- The two free blocks are allocated. -/
theorem block_alloc_exclusive_two :
    (pmmAllocBlocks 2 twoFree.state).1 = 4096 ∧
      (pmmAllocBlocks 2 twoFree.state).1 / blockSize + 2 ≤ twoFree.state.totalBlocks := by
  have hstep : BlockStep (BlockConfig.init 65536 fun _ => 0) twoFree :=
    ⟨.mark 4096 8192 false, ⟨by decide, by decide, by decide⟩,
      fun _ _ ha => absurd ha List.not_mem_nil, rfl⟩
  have haddress : (pmmAllocBlocks 2 twoFree.state).1 = 4096 := by decide +kernel
  have hexclusive := block_alloc_exclusive 65536 (by decide) (fun _ => 0) (fun _ => by decide)
    twoFree (.single hstep) 2 (by rw [haddress]; decide)
  exact ⟨haddress, hexclusive.2.1⟩

/-! ## The counter -/

/-- `used_blocks` is the number of set bits below `total_blocks`. -/
def PmmState.Counted (s : PmmState) : Prop :=
  s.usedBlocks = Nat.count (fun k => s.isUsed k = true) s.totalBlocks

/-- The operation finds every block it marks in the opposite state. -/
def BlockConfig.FindsOpposite (c : BlockConfig) : BlockOp → Prop
  | .mark base size used =>
    ∀ k, InBlocks (base / blockSize) (size / blockSize) k → c.state.isUsed k = !used
  | .alloc _ => True
  | .free block count => ∀ k, OwnBlocks (block, count) k → c.state.isUsed k = true

/-- The configuration after a list of operations. -/
def BlockConfig.run (c : BlockConfig) (ops : List BlockOp) : BlockConfig :=
  ops.foldl BlockConfig.apply c

section Counter

variable {s : PmmState} {c : BlockConfig} {op : BlockOp}

theorem counted_init (memSize : Nat) (bitmapBase : Nat → Nat) :
    (BlockConfig.init memSize bitmapBase).state.Counted := by
  refine (Nat.count_iff_forall.mpr ?_).symm
  intro k hk
  have hword : k / 64 < (memSize / blockSize + blocksPerLong - 1) / blocksPerLong := by
    have hk' : k < memSize / blockSize := hk
    unfold blocksPerLong
    omega
  show (if k / 64 < _ then 2 ^ 64 - 1 else bitmapBase (k / 64)).testBit (k % 64) = true
  rw [if_pos hword, Nat.testBit_two_pow_sub_one]
  exact decide_eq_true (Nat.mod_lt k (by decide))

/-- How many of the `n` blocks from `b` on are used, if all of them change. -/
theorem count_isUsed_iff {b n : Nat} :
    Nat.count (fun i => s.isUsed (b + i) = true) n = (if used then 0 else n) ↔
      ∀ k, InBlocks b n k → s.isUsed k = !used := by
  have hshift : (∀ k, InBlocks b n k → s.isUsed k = !used) ↔
      ∀ i, i < n → s.isUsed (b + i) = !used := by
    constructor
    · intro hall i hi
      exact hall (b + i) ⟨Nat.le_add_right b i, by omega⟩
    · intro hall k hk
      have hi := hall (k - b) (by unfold InBlocks at hk; omega)
      rwa [Nat.add_sub_cancel' hk.1] at hi
  rw [hshift]
  cases used with
  | true => simp [Nat.count_iff_forall_not]
  | false => simp [Nat.count_iff_forall]

/-- **The counter survives a marking exactly if every block changes.** -/
theorem PmmState.Counted.marked_iff (h : s.Counted) (hwf : BlockWf s) {b n : Nat}
    (hin : b + n ≤ s.totalBlocks) (used : Bool) (lastFreeBlock : Nat) :
    (s.marked used b n (adjusted used s.usedBlocks n) lastFreeBlock).Counted ↔
      ∀ k, InBlocks b n k → s.isUsed k = !used := by
  have htotal := hwf.total_lt
  have hle : s.usedBlocks ≤ s.totalBlocks := h ▸ Nat.count_le _
  have hcount := count_markBits (w := s.bitmap) used hin
  have hpart : Nat.count (fun i => s.isUsed (b + i) = true) n ≤ n := Nat.count_le _
  unfold PmmState.Counted at h
  unfold PmmState.isUsed at h hpart
  rw [← count_isUsed_iff]
  show adjusted used s.usedBlocks n =
      Nat.count (fun k => bitAt (markBits used b n s.bitmap) k = true) s.totalBlocks ↔
    Nat.count (fun i => bitAt s.bitmap (b + i) = true) n = _
  cases used with
  | true =>
    show add64 s.usedBlocks n = _ ↔ _
    rw [add64_of_lt (by omega)]
    simp only [if_true] at hcount ⊢
    omega
  | false =>
    show sub64 s.usedBlocks n = _ ↔ _
    simp only [Bool.false_eq_true, if_false] at hcount ⊢
    unfold sub64
    omega

theorem ConfigWf.counted_apply_iff (h : ConfigWf c) (hcounted : c.state.Counted)
    (hop : c.Admissible op) : (c.apply op).state.Counted ↔ c.FindsOpposite op := by
  rcases h.apply_cases hop with
    ⟨hstate, _, count, rfl⟩ | ⟨used, b, n, last, hin, hstate, hcase⟩
  · rw [hstate]
    exact iff_of_true hcounted trivial
  · rw [hstate, hcounted.marked_iff h.wf hin]
    rcases hcase with
      ⟨base, size, rfl, rfl, rfl, _⟩ | ⟨rfl, rfl, _, hfree, _⟩ | ⟨block, rfl, rfl, rfl, _, _⟩
    · exact Iff.rfl
    · exact iff_of_true hfree trivial
    · exact Iff.rfl

theorem run_concat (c : BlockConfig) (p : List BlockOp) (op : BlockOp) :
    c.run (p ++ [op]) = (c.run p).apply op := by
  simp [BlockConfig.run]

/-- A counter that is right is at most the total, and the free memory does not
wrap around. -/
theorem PmmState.Counted.free_memory (h : s.Counted) (hwf : BlockWf s) :
    s.usedBlocks ≤ s.totalBlocks ∧
      pmmGetFreeMemory s = (s.totalBlocks - s.usedBlocks) * blockSize := by
  have htotal := hwf.total_lt
  have hle : s.usedBlocks ≤ s.totalBlocks := h ▸ Nat.count_le _
  refine ⟨hle, ?_⟩
  unfold pmmGetFreeMemory
  rw [sub64_of_le hle (by omega)]
  unfold blockSize
  omega

end Counter

/-- **The counter and the bitmap.**  Along a run of admissible operations,
`used_blocks` is the number of set bits in every state, and then at most
`total_blocks`, with `pmm_get_free_memory` the size of the remaining blocks,
exactly if every operation finds every block it marks in the opposite state. -/
theorem used_blocks_exact_iff (memSize : Nat) (hmem : memSize < 2 ^ 64) (bitmapBase : Nat → Nat)
    (hbase : ∀ j, bitmapBase j < 2 ^ 64) (ops : List BlockOp)
    (hops : ∀ p op, p ++ [op] <+: ops →
      ((BlockConfig.init memSize bitmapBase).run p).Admissible op) :
    (∀ p, p <+: ops →
        ((BlockConfig.init memSize bitmapBase).run p).state.Counted ∧
        ((BlockConfig.init memSize bitmapBase).run p).state.usedBlocks ≤
          ((BlockConfig.init memSize bitmapBase).run p).state.totalBlocks ∧
        pmmGetFreeMemory ((BlockConfig.init memSize bitmapBase).run p).state =
          (((BlockConfig.init memSize bitmapBase).run p).state.totalBlocks -
            ((BlockConfig.init memSize bitmapBase).run p).state.usedBlocks) * blockSize) ↔
      ∀ p op, p ++ [op] <+: ops →
        ((BlockConfig.init memSize bitmapBase).run p).FindsOpposite op := by
  generalize hc : BlockConfig.init memSize bitmapBase = c at hops
  have hinit : c.state.Counted := hc ▸ counted_init memSize bitmapBase
  have hbefore : ∀ {p : List BlockOp} {op : BlockOp}, p ++ [op] <+: ops → p <+: ops :=
    fun h => (List.prefix_append _ _).trans h
  have hwf : ∀ p, p <+: ops → ConfigWf (c.run p) := by
    intro p
    induction p using List.reverseRecOn with
    | nil => exact fun _ => hc ▸ configWf_init hmem hbase
    | append_singleton p op ih =>
      intro hp
      rw [run_concat]
      exact (ih (hbefore hp)).apply (hops p op hp)
  constructor
  · intro hall p op hp
    have hafter := (hall _ hp).1
    rw [run_concat] at hafter
    exact ((hwf p (hbefore hp)).counted_apply_iff (hall p (hbefore hp)).1 (hops p op hp)).mp hafter
  · intro hopposite
    have hcounted : ∀ p, p <+: ops → (c.run p).state.Counted := by
      intro p
      induction p using List.reverseRecOn with
      | nil => exact fun _ => hinit
      | append_singleton p op ih =>
        intro hp
        rw [run_concat]
        exact ((hwf p (hbefore hp)).counted_apply_iff (ih (hbefore hp)) (hops p op hp)).mpr
          (hopposite p op hp)
    intro p hp
    exact ⟨hcounted p hp, (hcounted p hp).free_memory (hwf p hp).wf⟩

/-- Marking two used blocks as free keeps the counter right. -/
theorem used_blocks_exact_iff_two :
    twoFree.state.Counted ∧ pmmGetFreeMemory twoFree.state = 8192 := by
  have honly : ∀ (p : List BlockOp) (op : BlockOp), p ++ [op] <+: [.mark 4096 8192 false] →
      p = [] ∧ op = .mark 4096 8192 false := by
    rintro p op ⟨t, ht⟩
    cases p with
    | nil =>
      simp only [List.nil_append, List.singleton_append, List.cons.injEq] at ht
      exact ⟨rfl, ht.1⟩
    | cons x p => simp at ht
  have hexact := used_blocks_exact_iff 65536 (by decide) (fun _ => 0) (fun _ => by decide)
    [.mark 4096 8192 false] ?_
  · have hall := hexact.mpr ?_ [.mark 4096 8192 false] List.prefix_rfl
    · exact ⟨hall.1, hall.2.2.trans (by decide +kernel)⟩
    · intro p op hp
      rcases honly p op hp with ⟨rfl, rfl⟩
      rintro k ⟨hk, hk'⟩
      have hcases : k = 1 ∨ k = 2 := by
        unfold blockSize at hk hk'
        omega
      rcases hcases with rfl | rfl <;> decide +kernel
  · intro p op hp
    rcases honly p op hp with ⟨rfl, rfl⟩
    exact ⟨by decide, by decide, by decide⟩

/-- Marking a block as used right after `pmm_init`, where it is used already. -/
theorem used_blocks_marked_twice :
    (BlockConfig.init 8192 fun _ => 0).Admissible (.mark 0 4096 true) ∧
      ((BlockConfig.init 8192 fun _ => 0).apply (.mark 0 4096 true)).state.usedBlocks = 3 ∧
      Nat.count
        (fun k => ((BlockConfig.init 8192 fun _ => 0).apply (.mark 0 4096 true)).state.isUsed k =
          true) 2 = 2 ∧
      pmmGetFreeMemory ((BlockConfig.init 8192 fun _ => 0).apply (.mark 0 4096 true)).state =
        2 ^ 64 - 4096 := by
  refine ⟨⟨by decide, by decide, by decide⟩, ?_⟩
  decide +kernel

end FarouKernel.Ports.Block
