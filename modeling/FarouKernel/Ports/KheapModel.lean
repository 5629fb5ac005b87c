import FarouKernel.Ports.MemoryBase
import FarouKernel.Verified.ByteMem

/-!
# `kernel/memory.c`: the kernel heap

A translation of `kheap_add_to_free_list`, `kheap_expand`,
`kheap_coalesce_free_list`, `kmalloc` and `kfree`.  The heap is the byte memory
itself: a block header is the 32 bytes at its address, and every field access
of the source is a 64-bit read or write there.

`kheap_expand` asks the frame allocator and the page tables for memory.  What
they answer is a parameter, `pages`: the result of the `i`-th request made
since `memory_init`.  The state records which pages were mapped and which
frames were handed back, since later statements are about them; the code
itself never reads these records.

Loops follow pointers the code never bounds, so each one takes fuel.  The two
spinlocks are left out: every path releases the lock it takes.
-/

namespace FarouKernel.Ports.Kheap

open Verified ByteMem Ports.Memory

def kheapMinAlignment : Nat := 16

def kheapMagic : Nat := 0xDEADBEEFCAFEBABE

/-- `KHEAP_HEADER_SIZE`: three words and the padding word. -/
def kheapHeaderSize : Nat := 32

/-- One page request of `kheap_expand`: the frame `pmm_alloc_frame` returned, and whether
`vmm_map_page` then succeeded.  The code takes frame 0 for a failure; a request that
ends in a panic has no result. -/
structure PageResult where
  frame : Nat
  mapOk : Bool

/-- The globals of the kernel heap, the memory behind them, and the record of
what `kheap_expand` asked for. -/
structure KheapState where
  mem : ByteMem
  freeList : Nat
  currentBreak : Nat
  maxBreak : Nat
  pageRequests : Nat
  mappedPages : List (Nat × Nat)
  returnedFrames : List Nat
  expansions : Nat

/-- The heap as the last phase of `memory_init` sets it up. -/
def kheapInit (mem : ByteMem) : KheapState where
  mem := mem
  freeList := 0
  currentBreak := kernelHeapStart
  maxBreak := kernelHeapStart + kernelHeapMaxSize
  pageRequests := 0
  mappedPages := []
  returnedFrames := []
  expansions := 0

/-! ## Header fields -/

/-- `block->size`. -/
def sizeAt (m : ByteMem) (block : Nat) : Nat := read64 m block

/-- `block->next_free`. -/
def nextAt (m : ByteMem) (block : Nat) : Nat := read64 m (block + 8)

/-- `block->magic`. -/
def magicAt (m : ByteMem) (block : Nat) : Nat := read64 m (block + 16)

/-- The state with other memory contents and another head of the free list:
all that the free-list code ever changes. -/
def KheapState.withList (s : KheapState) (m : ByteMem) (p : Nat) : KheapState :=
  { s with mem := m, freeList := p }

def setSize (block v : Nat) : Exec KheapState Unit :=
  Exec.modify fun s => s.withList (write64 s.mem block v) s.freeList

def setNext (block v : Nat) : Exec KheapState Unit :=
  Exec.modify fun s => s.withList (write64 s.mem (block + 8) v) s.freeList

def setMagic (block v : Nat) : Exec KheapState Unit :=
  Exec.modify fun s => s.withList (write64 s.mem (block + 16) v) s.freeList

def setFreeList (p : Nat) : Exec KheapState Unit :=
  Exec.modify fun s => s.withList s.mem p

section WithList

variable (s : KheapState) (m m' : ByteMem) (p p' : Nat)

@[simp] theorem withList_mem : (s.withList m p).mem = m := rfl

@[simp] theorem withList_freeList : (s.withList m p).freeList = p := rfl

@[simp] theorem withList_currentBreak : (s.withList m p).currentBreak = s.currentBreak := rfl

@[simp] theorem withList_maxBreak : (s.withList m p).maxBreak = s.maxBreak := rfl

@[simp] theorem withList_mappedPages : (s.withList m p).mappedPages = s.mappedPages := rfl

@[simp] theorem withList_withList : (s.withList m p).withList m' p' = s.withList m' p' := rfl

theorem withList_self : s.withList s.mem s.freeList = s := rfl

@[simp] theorem setSize_run (block v : Nat) :
    setSize block v s = .ok () (s.withList (write64 s.mem block v) s.freeList) := rfl

@[simp] theorem setNext_run (block v : Nat) :
    setNext block v s = .ok () (s.withList (write64 s.mem (block + 8) v) s.freeList) := rfl

@[simp] theorem setMagic_run (block v : Nat) :
    setMagic block v s = .ok () (s.withList (write64 s.mem (block + 16) v) s.freeList) := rfl

@[simp] theorem setFreeList_run : setFreeList p s = .ok () (s.withList s.mem p) := rfl

end WithList

/-! ## The free list -/

/-- The `while` loop of `kheap_add_to_free_list`: the node to insert behind. -/
def kheapInsertLoop (block : Nat) : Nat → Nat → Exec KheapState Nat
  | 0, _ => Exec.exhaust
  | fuel + 1, current => do
      let next ← Exec.gets fun s => nextAt s.mem current
      if next ≠ 0 ∧ next < block then kheapInsertLoop block fuel next
      else pure current

/-- `kheap_add_to_free_list`. -/
def kheapAddToFreeList (fuel block : Nat) : Exec KheapState Unit := do
  setMagic block kheapMagic
  setNext block 0
  kassert (block % kheapMinAlignment = 0) "((uintptr_t)block % KHEAP_MIN_ALIGNMENT) == 0"
  let freeList ← Exec.gets KheapState.freeList
  if freeList = 0 ∨ block < freeList then do
    setNext block freeList
    setFreeList block
  else do
    let current ← kheapInsertLoop block fuel freeList
    let next ← Exec.gets fun s => nextAt s.mem current
    setNext block next
    setNext current block

/-- The `while` loop of `kheap_coalesce_free_list`. -/
def kheapCoalesceLoop : Nat → Nat → Exec KheapState Unit
  | 0, _ => Exec.exhaust
  | fuel + 1, current => do
      let m ← Exec.gets KheapState.mem
      let next := nextAt m current
      if current ≠ 0 ∧ next ≠ 0 then do
        kassert (magicAt m current = kheapMagic) "current->magic == KHEAP_MAGIC"
        kassert (magicAt m next = kheapMagic) "current->next_free->magic == KHEAP_MAGIC"
        if add64 (add64 current kheapHeaderSize) (sizeAt m current) = next then do
          setSize current (add64 (sizeAt m current) (add64 kheapHeaderSize (sizeAt m next)))
          let afterNext ← Exec.gets fun s => nextAt s.mem (nextAt s.mem current)
          setNext current afterNext
          -- stay on the current block: it may touch the next one as well
          kheapCoalesceLoop fuel current
        else kheapCoalesceLoop fuel next
      else pure ()

/-- `kheap_coalesce_free_list`. -/
def kheapCoalesceFreeList (fuel : Nat) : Exec KheapState Unit := do
  let freeList ← Exec.gets KheapState.freeList
  kheapCoalesceLoop fuel freeList

/-! ## Expansion -/

variable (pages : Nat → PageResult)

/-- The mapping loop of `kheap_expand`.  A frame arrives zeroed, so the newly
mapped page reads as zeros. -/
def kheapExpandLoop (newBreak : Nat) : Nat → Nat → Exec KheapState Bool
  | 0, _ => Exec.exhaust
  | fuel + 1, addr => do
      if addr < newBreak then do
        let request ← Exec.gets KheapState.pageRequests
        let r := pages request
        Exec.modify fun s => { s with pageRequests := s.pageRequests + 1 }
        if r.frame = 0 then do
          Exec.modify fun s => { s with currentBreak := addr }
          pure false
        else if r.mapOk = false then do
          Exec.modify fun s =>
            { s with returnedFrames := r.frame :: s.returnedFrames, currentBreak := addr }
          pure false
        else do
          Exec.modify fun s =>
            { s with
              mem := fill s.mem addr pageSize 0
              mappedPages := (addr, r.frame) :: s.mappedPages }
          kheapExpandLoop newBreak fuel (add64 addr pageSize)
      else pure true

/-- `kheap_expand`.  If a page cannot be had, the break is moved to it, and the pages before
it stay mapped. -/
def kheapExpand (fuel bytesNeeded : Nat) : Exec KheapState Bool := do
  let s ← Exec.get
  let oldBreak := s.currentBreak
  let expansionSize := alignUp bytesNeeded pageSize
  let newBreak := add64 oldBreak expansionSize
  if newBreak > s.maxBreak then pure false
  else do
    let mapped ← kheapExpandLoop pages newBreak fuel oldBreak
    if mapped = false then pure false
    else do
      Exec.modify fun s =>
        { s with currentBreak := newBreak, expansions := s.expansions + 1 }
      pure true

/-! ## Allocation and release -/

/-- The first-fit search of `kmalloc`: the block found and its predecessor
(`0` at the head of the list). -/
def kmallocSearch (alignedDataSize : Nat) :
    Nat → Nat → Nat → Exec KheapState (Option (Nat × Nat))
  | 0, _, _ => Exec.exhaust
  | fuel + 1, prev, current => do
      if current = 0 then pure none
      else do
        let m ← Exec.gets KheapState.mem
        kassert (magicAt m current = kheapMagic) "current->magic == KHEAP_MAGIC"
        if sizeAt m current ≥ alignedDataSize then pure (some (prev, current))
        else kmallocSearch alignedDataSize fuel current (nextAt m current)

/-- Unlinking the block found: its predecessor, or the head of the list, gets
its successor. -/
def kmallocUnlink (prev next : Nat) : Exec KheapState Unit :=
  if prev ≠ 0 then setNext prev next else setFreeList next

/-- Splitting off the remainder, if it can hold a header and sixteen bytes. -/
def kmallocSplit (fuel alignedDataSize current remainingSize : Nat) : Exec KheapState Unit :=
  if remainingSize ≥ kheapHeaderSize + kheapMinAlignment then do
    let splitFree := add64 (add64 current kheapHeaderSize) alignedDataSize
    setSize splitFree (sub64 remainingSize kheapHeaderSize)
    setSize current alignedDataSize
    kheapAddToFreeList fuel splitFree
  else pure ()

/-- What `kmalloc` does with the block its search found. -/
def kmallocTake (fuel alignedDataSize prev current : Nat) : Exec KheapState Nat := do
  let next ← Exec.gets fun s => nextAt s.mem current
  kmallocUnlink prev next
  let size ← Exec.gets fun s => sizeAt s.mem current
  kmallocSplit fuel alignedDataSize current (sub64 size alignedDataSize)
  setMagic current (not64 kheapMagic)
  let dataPtr := add64 current kheapHeaderSize
  kassert (dataPtr % kheapMinAlignment = 0) "((uintptr_t)data_ptr % KHEAP_MIN_ALIGNMENT) == 0"
  pure dataPtr

/-- After a successful expansion: the region from `expansionStart` to the new
break becomes a free block. -/
def kmallocAddRegion (fuel totalBlockSizeNeeded expansionStart : Nat) :
    Exec KheapState Unit := do
  let newBreak ← Exec.gets KheapState.currentBreak
  let newRegionSize := sub64 newBreak expansionStart
  kassert (newRegionSize ≥ totalBlockSizeNeeded) "new_region_size >= total_block_size_needed"
  setSize expansionStart (sub64 newRegionSize kheapHeaderSize)
  kheapAddToFreeList fuel expansionStart
  kheapCoalesceFreeList fuel

/-- `kmalloc`.  The fuel also bounds the recursive retry after an expansion. -/
def kmalloc : Nat → Nat → Exec KheapState Nat
  | 0, _ => Exec.exhaust
  | fuel + 1, size => do
      if size = 0 then pure 0
      else do
        let alignedDataSize := alignUp size kheapMinAlignment
        let totalBlockSizeNeeded := add64 kheapHeaderSize alignedDataSize
        let freeList ← Exec.gets KheapState.freeList
        let found ← kmallocSearch alignedDataSize fuel 0 freeList
        match found with
        | some (prev, current) => kmallocTake fuel alignedDataSize prev current
        | none => do
            let expansionStart ← Exec.gets KheapState.currentBreak
            let expanded ← kheapExpand pages fuel totalBlockSizeNeeded
            if expanded = false then pure 0
            else do
              kmallocAddRegion fuel totalBlockSizeNeeded expansionStart
              kmalloc fuel size

/-- `kfree`. -/
def kfree (fuel ptr : Nat) : Exec KheapState Unit := do
  if ptr = 0 then pure ()
  else do
    let block := sub64 ptr kheapHeaderSize
    let m ← Exec.gets KheapState.mem
    kassert (magicAt m block = not64 kheapMagic) "block->magic == ~KHEAP_MAGIC"
    kheapAddToFreeList fuel block
    kheapCoalesceFreeList fuel

end FarouKernel.Ports.Kheap
