import FarouKernel.Ports.PmmModel

/-!
# `kernel/memory.c`: the virtual memory manager

A translation of the four-level page tables.  The tables are frames of physical
memory and are reached through the direct map, so they share the machine with
the frame allocator.  An address space is given by the physical address of its
top table (`space->pml4_phys`).

`NULL` is `none`: the direct map never starts at address zero.  The spinlock of
the address space, the messages and the invalidation of the translation cache
are left out.
-/

namespace FarouKernel.Ports.Vmm

open Verified ByteMem Ports.Memory Ports.Pmm

def ptePresent : Nat := 1 <<< 0

def pteWrite : Nat := 1 <<< 1

def pteAddrMask : Nat := 0x000FFFFFFFFFF000

def pteFlagsMask : Nat := not64 pteAddrMask

/-- The index of a virtual address into its table of the top level. -/
def pml4Index (virtAddr : Nat) : Nat := virtAddr >>> 39 &&& 0x1FF

/-- The index into the second level. -/
def pdptIndex (virtAddr : Nat) : Nat := virtAddr >>> 30 &&& 0x1FF

/-- The index into the third level. -/
def pdIndex (virtAddr : Nat) : Nat := virtAddr >>> 21 &&& 0x1FF

/-- The index into the last level. -/
def ptIndex (virtAddr : Nat) : Nat := virtAddr >>> 12 &&& 0x1FF

/-- `*addr`. -/
def load64 (addr : Nat) : Exec Machine Nat := Exec.gets fun s => read64 s.mem addr

/-- `vmm_get_next_level`. -/
def vmmGetNextLevel (entry : Nat) (allocateIfNeeded : Bool) : Exec Machine (Option Nat) := do
  let e ← load64 entry
  if e &&& ptePresent = 0 then
    if allocateIfNeeded = false then pure none
    else do
      let frame ← pmmAllocFrame
      if frame = 0 then pure none
      else do
        store64 entry (frame ||| ptePresent ||| pteWrite)
        let table ← physToVirt frame
        pure (some table)
  else do
    let table ← physToVirt (e &&& pteAddrMask)
    pure (some table)

/-- The end of `vmm_map_page`: writing the entry of the page. -/
def vmmSetPage (pt index physAddr flags : Nat) : Exec Machine Bool := do
  store64 (pt + 8 * index) (physAddr &&& pteAddrMask ||| flags &&& pteFlagsMask ||| ptePresent)
  pure true

/-- `vmm_map_page`. -/
def vmmMapPage (pml4Phys virtAddr physAddr flags : Nat) : Exec Machine Bool := do
  kassert (physAddr % pageSize = 0) "(phys_addr % PAGE_SIZE) == 0"
  kassert (virtAddr % pageSize = 0) "(virt_addr % PAGE_SIZE) == 0"
  let pml4 ← physToVirt pml4Phys
  match ← vmmGetNextLevel (pml4 + 8 * pml4Index virtAddr) true with
  | none => pure false
  | some pdpt =>
    match ← vmmGetNextLevel (pdpt + 8 * pdptIndex virtAddr) true with
    | none => pure false
    | some pd =>
      match ← vmmGetNextLevel (pd + 8 * pdIndex virtAddr) true with
      | none => pure false
      | some pt => vmmSetPage pt (ptIndex virtAddr) physAddr flags

/-- The loop of `vmm_is_table_empty`: `left` entries from `i` on remain. -/
def noEntryPresent (m : ByteMem) (table : Nat) : Nat → Nat → Bool
  | 0, _ => true
  | left + 1, i =>
    if read64 m (table + 8 * i) &&& ptePresent ≠ 0 then false
    else noEntryPresent m table left (i + 1)

/-- `vmm_is_table_empty`. -/
def vmmIsTableEmpty (table : Nat) : Exec Machine Bool :=
  Exec.gets fun s => noEntryPresent s.mem table 512 0

/-- Clearing the entry of an empty table and freeing the table: the three
blocks of `vmm_unmap_page` that do so differ in the entry only. -/
def vmmFreeTable (entry : Nat) : Exec Machine Unit := do
  let e ← load64 entry
  let tablePhys := e &&& pteAddrMask
  store64 entry 0
  pmmFreeFrame tablePhys

/-- The end of `vmm_unmap_page`: freeing the tables that became empty, from the
last level upwards. -/
def vmmFreeEmptyTables (pml4e pdpt pdpte pd pde pt : Nat) : Exec Machine Unit := do
  let ptEmpty ← vmmIsTableEmpty pt
  if ptEmpty = true then do
    vmmFreeTable pde
    let pdEmpty ← vmmIsTableEmpty pd
    if pdEmpty = true then do
      vmmFreeTable pdpte
      let pdptEmpty ← vmmIsTableEmpty pdpt
      if pdptEmpty = true then vmmFreeTable pml4e
      else pure ()
    else pure ()
  else pure ()

/-- The body of `vmm_unmap_page` once the last table is found. -/
def vmmClearPage (pml4e pdpt pdpte pd pde pt pte : Nat) : Exec Machine Nat := do
  let e ← load64 pte
  if e &&& ptePresent = 0 then pure 0
  else do
    let physFrame := e &&& pteAddrMask
    store64 pte 0
    vmmFreeEmptyTables pml4e pdpt pdpte pd pde pt
    pure physFrame

/-- `vmm_unmap_page`.  The source writes the lookups of the existing tables out;
each is what `vmm_get_next_level` does when it may not allocate. -/
def vmmUnmapPage (pml4Phys virtAddr : Nat) : Exec Machine Nat := do
  kassert (virtAddr % pageSize = 0) "(virt_addr % PAGE_SIZE) == 0"
  let pml4 ← physToVirt pml4Phys
  let pml4e := pml4 + 8 * pml4Index virtAddr
  match ← vmmGetNextLevel pml4e false with
  | none => pure 0
  | some pdpt =>
    let pdpte := pdpt + 8 * pdptIndex virtAddr
    match ← vmmGetNextLevel pdpte false with
    | none => pure 0
    | some pd =>
      let pde := pd + 8 * pdIndex virtAddr
      match ← vmmGetNextLevel pde false with
      | none => pure 0
      | some pt =>
        vmmClearPage pml4e pdpt pdpte pd pde pt (pt + 8 * ptIndex virtAddr)

/-! ## The translation the processor computes -/

/-- The table or page an entry names. -/
def tableOf (e : Nat) : Nat := e &&& pteAddrMask

/-- An entry as the processor reads it. -/
def presentEntry (e : Nat) : Option Nat := if e &&& ptePresent = 0 then none else some e

/-- The walk of the four levels: physical address and flags of the page. -/
def translate (s : Machine) (pml4Phys virtAddr : Nat) : Option (Nat × Nat) := do
  let pml4e ← presentEntry (read64 s.mem (pml4Phys + 8 * pml4Index virtAddr))
  let pdpte ← presentEntry (read64 s.mem (tableOf pml4e + 8 * pdptIndex virtAddr))
  let pde ← presentEntry (read64 s.mem (tableOf pdpte + 8 * pdIndex virtAddr))
  let pte ← presentEntry (read64 s.mem (tableOf pde + 8 * ptIndex virtAddr))
  pure (pte &&& pteAddrMask, pte &&& pteFlagsMask)

end FarouKernel.Ports.Vmm
