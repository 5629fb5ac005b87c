import FarouKernel.Verified.BitRuns

/-!
# `kernel/arch/x86_64/mm/pmm.c`: the block allocator

A translation of the allocator of physical blocks.  The bitmap is the array of
words `state.bitmap` points to, as a function of the index; every operation is
one critical section of the spin lock.  Pointers are addresses, and `NULL` is 0.
-/

namespace FarouKernel.Ports.Block

open Verified

def blockSize : Nat := 4096

def blocksPerLong : Nat := 64

/-- `pmm_state_t`. -/
structure PmmState where
  totalBlocks : Nat
  usedBlocks : Nat
  memorySize : Nat
  bitmap : Nat → Nat
  bitmapSize : Nat
  lastFreeBlock : Nat
  initialized : Bool

/-- The state at program start; its bitmap pointer is not used. -/
def PmmState.zero : PmmState := ⟨0, 0, 0, fun _ => 0, 0, 0, false⟩

/-- `pmm_init`; `bitmapBase` is what the memory at the pointer holds. -/
def pmmInit (memSize : Nat) (bitmapBase : Nat → Nat) (s : PmmState) : PmmState :=
  if s.initialized = true then s
  else
    let totalBlocks := memSize / blockSize
    let bitmapSize := (totalBlocks + blocksPerLong - 1) / blocksPerLong
    { memorySize := memSize
      totalBlocks := totalBlocks
      bitmap := fun j => if j < bitmapSize then 2 ^ 64 - 1 else bitmapBase j
      bitmapSize := bitmapSize
      lastFreeBlock := 0
      usedBlocks := totalBlocks
      initialized := true }

/-- `set_blocks`, as a function of the bitmap. -/
def setBlocks (block : Nat) (used : Bool) : Nat → (Nat → Nat) → Nat → Nat
  | 0, bitmap => bitmap
  | i + 1, bitmap =>
    if used = true then setBit (setBlocks block used i bitmap) (add64 block i)
    else clearBit (setBlocks block used i bitmap) (add64 block i)

/-- `pmm_alloc_blocks`. -/
def pmmAllocBlocks (count : Nat) (s : PmmState) : Nat × PmmState :=
  if s.initialized = false ∨ count = 0 then (0, s)
  else
    match findRun s.bitmap count (s.totalBlocks - s.lastFreeBlock) s.lastFreeBlock 0 with
    | none => (0, s)
    | some i =>
      let firstBlock := add64 (sub64 i count) 1
      (firstBlock * blockSize % 2 ^ 64,
        { s with
          bitmap := setBlocks firstBlock true count s.bitmap
          usedBlocks := add64 s.usedBlocks count
          lastFreeBlock := add64 i 1 })

def pmmAllocBlock (s : PmmState) : Nat × PmmState := pmmAllocBlocks 1 s

/-- `pmm_free_blocks`. -/
def pmmFreeBlocks (block count : Nat) (s : PmmState) : PmmState :=
  if block = 0 ∨ s.initialized = false ∨ count = 0 then s
  else
    let start := block / blockSize
    if add64 start count > s.totalBlocks then s
    else
      { s with
        bitmap := setBlocks start false count s.bitmap
        usedBlocks := sub64 s.usedBlocks count
        lastFreeBlock := if start < s.lastFreeBlock then start else s.lastFreeBlock }

def pmmFreeBlock (block : Nat) (s : PmmState) : PmmState := pmmFreeBlocks block 1 s

/-- The loop of `pmm_alloc_block_aligned`, with `left` attempts to go. -/
def allocAlignedLoop (alignment : Nat) : Nat → PmmState → Nat × PmmState
  | 0, s => (0, s)
  | left + 1, s =>
    let r := pmmAllocBlocks (alignment / blockSize) s
    if r.1 % alignment = 0 then r
    else allocAlignedLoop alignment left (pmmFreeBlocks r.1 (alignment / blockSize) r.2)

/-- `pmm_alloc_block_aligned`, for an alignment that passes its assertion and is
not 0. -/
def pmmAllocBlockAligned (alignment : Nat) (s : PmmState) : Nat × PmmState :=
  allocAlignedLoop alignment 3 s

/-- `a % b` as the processor computes it; a division by zero is a fault. -/
def remainder (a b : Nat) : Option Nat := if b = 0 then none else some (a % b)

/-- The same loop with the fault of its division. -/
def alignedAttempts (alignment : Nat) : Nat → PmmState → Option (Nat × PmmState)
  | 0, s => some (0, s)
  | left + 1, s =>
    let r := pmmAllocBlocks (alignment / blockSize) s
    (remainder r.1 alignment).bind fun rest =>
      if rest = 0 then some r
      else alignedAttempts alignment left (pmmFreeBlocks r.1 (alignment / blockSize) r.2)

/-- `pmm_alloc_block_aligned` for any alignment; `none` if the assertion fails or
the processor faults. -/
def pmmAllocBlockAlignedChecked (alignment : Nat) (s : PmmState) : Option (Nat × PmmState) :=
  if alignment % blockSize = 0 then alignedAttempts alignment 3 s else none

/-- `pmm_mark_region`. -/
def pmmMarkRegion (base size : Nat) (used : Bool) (s : PmmState) : PmmState :=
  let alignBase := add64 base (blockSize - 1) &&& not64 (blockSize - 1)
  let alignSize := sub64 size (sub64 alignBase base)
  let blocks := alignSize / blockSize
  let startBlock := alignBase / blockSize
  { s with
    bitmap := setBlocks startBlock used blocks s.bitmap
    usedBlocks := if used = true then add64 s.usedBlocks blocks else sub64 s.usedBlocks blocks }

/-- `pmm_get_free_memory`. -/
def pmmGetFreeMemory (s : PmmState) : Nat :=
  sub64 s.totalBlocks s.usedBlocks * blockSize % 2 ^ 64

end FarouKernel.Ports.Block
