import FarouKernel.Verified.ByteMem
import FarouKernel.Verified.Word64

/-!
# `kernel/arch/x86_64/mm/paging.c`

A translation of the four-level page tables of the x86-64 port.  The block
allocator is a parameter: a function that returns an address, 0 for `NULL`, and
the allocator's next state.

Physical memory is reachable through two views: at its own address, which is how
a new table is cleared and how the top table is used, and at
`KERNEL_VIRTUAL_BASE` plus its address, which is how all other tables are used.
`cellOf` is the physical address a pointer of either view denotes.  Loads of the
directory register and invalidations of the translation cache are left out.
-/

namespace FarouKernel.Ports.Paging

open Verified ByteMem

def pageSize : Nat := 4096

def kernelVirtualBase : Nat := 0xFFFF800000000000

def pageMask : Nat := 0xFFFFFFFFFFFFF000

def pageFlagsMask : Nat := 0x0000000000000FFF

def alignPage (addr : Nat) : Nat := addr &&& pageMask

def pml4Index (addr : Nat) : Nat := addr >>> 39 &&& 0x1FF

def pdptIndex (addr : Nat) : Nat := addr >>> 30 &&& 0x1FF

def pdIndex (addr : Nat) : Nat := addr >>> 21 &&& 0x1FF

def ptIndex (addr : Nat) : Nat := addr >>> 12 &&& 0x1FF

def pagePresent : Nat := 1 <<< 0

def pageWritable : Nat := 1 <<< 1

def pageUser : Nat := 1 <<< 2

/-- The physical address a pointer denotes. -/
def cellOf (ptr : Nat) : Nat :=
  if kernelVirtualBase ≤ ptr then ptr - kernelVirtualBase else ptr

/-- Physical memory, the pointer `pml4` and the block allocator. -/
structure PagingState (σ : Type) where
  mem : ByteMem
  pml4 : Nat
  pmm : σ

section

variable {σ : Type}

/-- `table[index]`. -/
def PagingState.entry (st : PagingState σ) (table index : Nat) : Nat :=
  read64 st.mem (cellOf (table + 8 * index))

/-- `table[index] = value`. -/
def PagingState.setEntry (st : PagingState σ) (table index value : Nat) : PagingState σ :=
  { st with mem := write64 st.mem (cellOf (table + 8 * index)) value }

/-- The loop that clears the first `n` entries of a table. -/
def PagingState.clearEntries (st : PagingState σ) (table : Nat) : Nat → PagingState σ
  | 0 => st
  | i + 1 => (st.clearEntries table i).setEntry table i 0

variable (pmmAllocBlock : σ → Nat × σ)

/-- `get_next_level`; a result of 0 is `NULL`. -/
def getNextLevel (table index : Nat) (create : Bool) (flags : Nat) (st : PagingState σ) :
    Nat × PagingState σ :=
  if st.entry table index &&& pagePresent = 0 then
    if create = false then (0, st)
    else
      let r := pmmAllocBlock st.pmm
      let newTable := r.1
      let st := { st with pmm := r.2 }
      if newTable = 0 then (0, st)
      else
        let st := st.clearEntries newTable 512
        let st := st.setEntry table index
          (alignPage newTable ||| flags &&& pageFlagsMask ||| pagePresent)
        (add64 (alignPage (st.entry table index)) kernelVirtualBase, st)
  else (add64 (alignPage (st.entry table index)) kernelVirtualBase, st)

/-- The three lookups with which every function below begins; 0 as soon as one
of them gives `NULL`. -/
def lastTable (create : Bool) (flags virtAddr : Nat) (st : PagingState σ) : Nat × PagingState σ :=
  let pdpt := getNextLevel pmmAllocBlock st.pml4 (pml4Index virtAddr) create flags st
  if pdpt.1 = 0 then pdpt
  else
    let pd := getNextLevel pmmAllocBlock pdpt.1 (pdptIndex virtAddr) create flags pdpt.2
    if pd.1 = 0 then pd
    else getNextLevel pmmAllocBlock pd.1 (pdIndex virtAddr) create flags pd.2

/-- `paging_map_page`. -/
def pagingMapPage (physAddr virtAddr flags : Nat) (st : PagingState σ) : Nat × PagingState σ :=
  if physAddr &&& not64 pageMask ≠ 0 then (0, st)
  else
    let pt := lastTable pmmAllocBlock true flags virtAddr st
    if pt.1 = 0 then pt
    else
      (virtAddr, pt.2.setEntry pt.1 (ptIndex virtAddr)
        (alignPage physAddr ||| flags &&& pageFlagsMask ||| pagePresent))

/-- `paging_unmap_page`. -/
def pagingUnmapPage (virtAddr : Nat) (st : PagingState σ) : PagingState σ :=
  let pt := lastTable pmmAllocBlock false 0 virtAddr st
  if pt.1 = 0 then pt.2 else pt.2.setEntry pt.1 (ptIndex virtAddr) 0

/-- `paging_is_page_present`. -/
def pagingIsPagePresent (st : PagingState σ) (virtAddr : Nat) : Bool :=
  let pt := lastTable pmmAllocBlock false 0 virtAddr st
  if pt.1 = 0 then false else pt.2.entry pt.1 (ptIndex virtAddr) &&& pagePresent ≠ 0

/-- `paging_get_physical_address`. -/
def pagingGetPhysicalAddress (st : PagingState σ) (virtAddr : Nat) : Nat :=
  let pt := lastTable pmmAllocBlock false 0 virtAddr st
  if pt.1 = 0 then 0
  else alignPage (pt.2.entry pt.1 (ptIndex virtAddr)) ||| virtAddr &&& not64 pageMask

end

end FarouKernel.Ports.Paging
