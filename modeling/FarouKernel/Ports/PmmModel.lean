import FarouKernel.Ports.MemoryBase
import FarouKernel.Verified.Bitmap
import FarouKernel.Verified.ByteMem

/-!
# `kernel/memory.c`: the physical memory manager

A translation of the bitmap frame allocator.  The bitmap is not a separate
array: it lies in physical memory, in the place `memory_init` chose for it, and
`pmm_alloc_frame` clears the frame it hands out in that same memory.

All of physical memory is reachable through the higher-half direct map, so a
pointer into the map stands here for the physical address behind it;
`physToVirt` keeps the assertion that the offset of the map is known.  The
spinlock is left out: every path that returns releases it.
-/

namespace FarouKernel.Ports.Pmm

open Verified ByteMem Ports.Memory

/-- Physical memory and the globals of the frame allocator.  `bitmap` is the
physical address of the bitmap. -/
structure Machine where
  mem : ByteMem
  hhdmPhysOffset : Nat
  bitmap : Nat
  bitmapSizeQwords : Nat
  totalFrames : Nat
  usedFrames : Nat
  highestFrame : Nat
  lastAllocatedIndex : Nat

/-- The words of the bitmap. -/
def Machine.words (s : Machine) : Nat → Nat := fun j => read64 s.mem (s.bitmap + 8 * j)

/-- Bit `frame` of the bitmap. -/
def Machine.frameUsed (s : Machine) (frame : Nat) : Bool := bitAt s.words frame

def physToVirt (physAddr : Nat) : Exec Machine Nat := do
  let offset ← Exec.gets Machine.hhdmPhysOffset
  kassert (offset ≠ 0) "hhdm_phys_offset != 0"
  pure physAddr

def memset (dest : Nat) (value : UInt8) (count : Nat) : Exec Machine Unit :=
  Exec.modify fun s => { s with mem := fill s.mem dest count value }

/-- `*addr = value`. -/
def store64 (addr value : Nat) : Exec Machine Unit :=
  Exec.modify fun s => { s with mem := write64 s.mem addr value }

def pmmBitmapSet (frameIndex : Nat) : Exec Machine Unit := do
  let s ← Exec.get
  kassert (frameIndex / 64 < s.bitmapSizeQwords) "idx < pmm_bitmap_size_qwords"
  store64 (s.bitmap + 8 * (frameIndex / 64))
    (s.words (frameIndex / 64) ||| 1 <<< (frameIndex % 64))

def pmmBitmapClear (frameIndex : Nat) : Exec Machine Unit := do
  let s ← Exec.get
  kassert (frameIndex / 64 < s.bitmapSizeQwords) "idx < pmm_bitmap_size_qwords"
  store64 (s.bitmap + 8 * (frameIndex / 64))
    (s.words (frameIndex / 64) &&& not64 (1 <<< (frameIndex % 64)))

def pmmBitmapTest (frameIndex : Nat) : Exec Machine Bool := do
  let s ← Exec.get
  kassert (frameIndex / 64 < s.bitmapSizeQwords) "idx < pmm_bitmap_size_qwords"
  pure (decide (s.words (frameIndex / 64) &&& 1 <<< (frameIndex % 64) ≠ 0))

/-- The linear search of `pmm_find_first_free_contiguous` for more than one
frame: `left` rounds remain, `offset` have been made, and the last
`consecutiveFree` frames seen were free. -/
def pmmFindRun (count startIndex : Nat) : Nat → Nat → Nat → Exec Machine Int
  | 0, _, _ => pure (-1)
  | left + 1, offset, consecutiveFree => do
      let highest ← Exec.gets Machine.highestFrame
      let searchIndex := (startIndex + offset) % (highest + 1)
      let used ← pmmBitmapTest searchIndex
      if used = false then
        if consecutiveFree + 1 = count then pure (toInt64 (add64 (sub64 searchIndex count) 1))
        else pmmFindRun count startIndex left (offset + 1) (consecutiveFree + 1)
      else pmmFindRun count startIndex left (offset + 1) 0

/-- `pmm_find_first_free_contiguous`. -/
def pmmFindFirstFreeContiguous (count : Nat) : Exec Machine Int := do
  let s ← Exec.get
  if count = 0 then pure (-1)
  else if count = 1 then
    match findClear s.words s.bitmapSizeQwords s.highestFrame (s.lastAllocatedIndex / 64) with
    | some frameIndex => pure (toInt64 frameIndex)
    | none => pure (-1)
  else
    let startIndex :=
      if s.lastAllocatedIndex + 1 > s.highestFrame then 0 else s.lastAllocatedIndex + 1
    pmmFindRun count startIndex (s.highestFrame + 1) 0 0

/-- `pmm_alloc_frame`.  It panics if no frame is free, so a 0 it returns is frame 0, which
is then in use. -/
def pmmAllocFrame : Exec Machine Nat := do
  let frameIndexSigned ← pmmFindFirstFreeContiguous 1
  if frameIndexSigned = -1 then Exec.stop "PMM: Out of physical memory!"
  else do
    let frameIndex := ofInt64 frameIndexSigned
    let used ← pmmBitmapTest frameIndex
    kassert (used = false) "!pmm_bitmap_test(frame_index)"
    pmmBitmapSet frameIndex
    Exec.modify fun s =>
      { s with usedFrames := add64 s.usedFrames 1, lastAllocatedIndex := frameIndex }
    let physAddr := frameIndex * pageSize % 2 ^ 64
    let virtAddr ← physToVirt physAddr
    memset virtAddr 0 pageSize
    pure physAddr

/-- `pmm_free_frame`. -/
def pmmFreeFrame (physAddr : Nat) : Exec Machine Unit := do
  kassert (physAddr % pageSize = 0) "(phys_addr % PAGE_SIZE) == 0"
  let highest ← Exec.gets Machine.highestFrame
  kassert (physAddr / pageSize ≤ highest) "frame_index <= pmm_highest_frame"
  let used ← pmmBitmapTest (physAddr / pageSize)
  if used = false then Exec.stop "PMM: Attempted to free already free frame!"
  else do
    pmmBitmapClear (physAddr / pageSize)
    Exec.modify fun s => { s with usedFrames := sub64 s.usedFrames 1 }

end FarouKernel.Ports.Pmm
