import FarouKernel.Ports.BlockModel
import FarouKernel.Ports.PagingModel

/-!
# `kernel/arch/x86_64/mm/vmm.c`

A translation of the virtual memory manager of the x86-64 port, on top of the
block allocator and the page tables.  Each function is one critical section of
`vmm_lock`, so it is a function on the state.  The bitmap of the block allocator
is not part of the memory that blocks are handed out from.
-/

namespace FarouKernel.Ports.KernelVmm

open Verified Ports.Paging Ports.Block

/-- The page tables, the block allocator and `next_free_page`. -/
structure VmmState where
  paging : PagingState PmmState
  nextFreePage : Nat

/-- `VMM_FLAG_PRESENT | VMM_FLAG_WRITABLE`. -/
def kernelFlags : Nat := 1 <<< 0 ||| 1 <<< 1

def isPageAligned (addr : Nat) : Bool := addr &&& (pageSize - 1) = 0

/-- `paging_init`. -/
def pagingInit (st : PagingState PmmState) : PagingState PmmState :=
  let r := pmmAllocBlockAligned pageSize st.pmm
  let st : PagingState PmmState := { st with pml4 := r.1, pmm := r.2 }
  st.clearEntries st.pml4 512

/-- The loop of `vmm_map_range` that unmaps the first `i` pages again. -/
def unmapRange (virtStart : Nat) : Nat → PagingState PmmState → PagingState PmmState
  | 0, st => st
  | i + 1, st =>
    unmapRange virtStart i (pagingUnmapPage pmmAllocBlock (add64 virtStart (i * pageSize)) st)

/-- The loop of `vmm_map_range`, with `left` pages from the `i`-th on to go. -/
def mapRangeLoop (physStart virtStart flags : Nat) :
    Nat → Nat → PagingState PmmState → Bool × PagingState PmmState
  | 0, _, st => (true, st)
  | left + 1, i, st =>
    let r := pagingMapPage pmmAllocBlock (add64 physStart (i * pageSize))
      (add64 virtStart (i * pageSize)) flags st
    if r.1 = 0 then (false, unmapRange virtStart i r.2)
    else mapRangeLoop physStart virtStart flags left (i + 1) r.2

/-- `vmm_map_range`. -/
def vmmMapRange (physStart virtStart pages flags : Nat) (st : PagingState PmmState) :
    Bool × PagingState PmmState :=
  if isPageAligned physStart = false ∨ isPageAligned virtStart = false then (false, st)
  else mapRangeLoop physStart virtStart flags pages 0 st

/-- `vmm_init`, which ignores the results of its two calls. -/
def vmmInit (st : VmmState) : VmmState :=
  let paging := pagingInit st.paging
  let paging := (vmmMapRange 0 0 1024 kernelFlags paging).2
  let paging := (vmmMapRange 0 kernelVirtualBase 512 kernelFlags paging).2
  { st with paging := paging }

/-- The state before `vmm_init`. -/
def VmmState.start (mem : ByteMem) (pmm : PmmState) : VmmState :=
  ⟨⟨mem, 0, pmm⟩, kernelVirtualBase⟩

/-- The rollback of `vmm_alloc_pages`, which passes virtual addresses to
`pmm_free_block`. -/
def rollback (currentVirt : Nat) : Nat → PagingState PmmState → PagingState PmmState
  | 0, st => st
  | i + 1, st =>
    let addr := sub64 currentVirt (pageSize * (i + 1))
    let st : PagingState PmmState := { st with pmm := pmmFreeBlock addr st.pmm }
    rollback currentVirt i (pagingUnmapPage pmmAllocBlock addr st)

/-- The loop of `vmm_alloc_pages`, with `left` pages from the `i`-th on to go.
The first component is the address behind the last page if all were mapped. -/
def allocLoop : Nat → Nat → Nat → PagingState PmmState → Option Nat × PagingState PmmState
  | 0, _, currentVirt, st => (some currentVirt, st)
  | left + 1, i, currentVirt, st =>
    let phys := pmmAllocBlock st.pmm
    let st : PagingState PmmState := { st with pmm := phys.2 }
    if phys.1 = 0 then (none, rollback currentVirt i st)
    else
      let r := pagingMapPage pmmAllocBlock phys.1 currentVirt kernelFlags st
      if r.1 = 0 then (none, { r.2 with pmm := pmmFreeBlock phys.1 r.2.pmm })
      else allocLoop left (i + 1) (add64 currentVirt pageSize) r.2

/-- `vmm_alloc_pages`. -/
def vmmAllocPages (count : Nat) (st : VmmState) : Nat × VmmState :=
  if count = 0 then (0, st)
  else
    match allocLoop count 0 st.nextFreePage st.paging with
    | (none, paging) => (0, { st with paging := paging })
    | (some currentVirt, paging) => (st.nextFreePage, ⟨paging, currentVirt⟩)

/-- The loop of `vmm_free_pages`. -/
def freeLoop : Nat → Nat → PagingState PmmState → PagingState PmmState
  | 0, _, st => st
  | left + 1, virt, st =>
    let phys := pagingGetPhysicalAddress pmmAllocBlock st virt
    if phys ≠ 0 then
      let st : PagingState PmmState := { st with pmm := pmmFreeBlock phys st.pmm }
      freeLoop left (add64 virt pageSize) (pagingUnmapPage pmmAllocBlock virt st)
    else freeLoop left (add64 virt pageSize) st

/-- `vmm_free_pages`. -/
def vmmFreePages (addr count : Nat) (st : VmmState) : VmmState :=
  if addr = 0 ∨ count = 0 ∨ isPageAligned addr = false then st
  else { st with paging := freeLoop count addr st.paging }

/-- `vmm_map_page`. -/
def vmmMapPage (phys virt flags : Nat) (st : VmmState) : Bool × VmmState :=
  if isPageAligned phys = false ∨ isPageAligned virt = false then (false, st)
  else
    let r := pagingMapPage pmmAllocBlock phys virt flags st.paging
    (r.1 ≠ 0, { st with paging := r.2 })

/-- `vmm_unmap_page`. -/
def vmmUnmapPage (virt : Nat) (st : VmmState) : VmmState :=
  if isPageAligned virt = false then st
  else { st with paging := pagingUnmapPage pmmAllocBlock virt st.paging }

/-- `vmm_protect_page`, which takes the physical address of the page for a pointer
to its entry. -/
def vmmProtectPage (virt flags : Nat) (st : VmmState) : VmmState :=
  if isPageAligned virt = false then st
  else
    let entry := pagingGetPhysicalAddress pmmAllocBlock st.paging virt
    if entry ≠ 0 then
      let word := st.paging.entry entry 0
      { st with paging := st.paging.setEntry entry 0 (word &&& not64 0xFFF ||| flags &&& 0xFFF) }
    else st

end FarouKernel.Ports.KernelVmm
