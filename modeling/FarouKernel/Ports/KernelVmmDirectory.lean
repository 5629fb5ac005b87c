import FarouKernel.Ports.KernelVmmReach
import FarouKernel.Verified.LargePages

/-!
# The directory register

`paging_init` and `vmm_init` of the x86-64 port with the loads of CR3, and the walk
of the processor from there.

`pmm_alloc_block_aligned` returns the physical address of the top table, and
`paging_init` and the lookups use it as such.  The value for CR3 is that address
minus `KERNEL_VIRTUAL_BASE`, as if it were an address of the upper half, which is
the address plus `2 ^ 47`.  `vmm_init` loads the register with what it reads from
it, so the processor never walks the tables that the kernel edits.
-/

namespace FarouKernel.Ports.KernelVmm

open Relation Verified PageTables Ports.Paging Ports.Block

/-! ## The code with its loads -/

/-- The virtual memory manager and the directory register. -/
structure CpuState where
  vmm : VmmState
  cr3 : Nat

def pagingLoadDirectory (pml4Addr : Nat) (c : CpuState) : CpuState := { c with cr3 := pml4Addr }

def pagingGetDirectory (c : CpuState) : Nat := c.cr3

/-- `paging_init` with its load. -/
def pagingInitLoad (c : CpuState) : CpuState :=
  let paging := pagingInit c.vmm.paging
  pagingLoadDirectory (sub64 paging.pml4 kernelVirtualBase)
    { c with vmm := { c.vmm with paging := paging } }

/-- `vmm_init` with its load. -/
def vmmInitLoad (c : CpuState) : CpuState :=
  let c := pagingInitLoad c
  let paging := (vmmMapRange 0 0 1024 kernelFlags c.vmm.paging).2
  let paging := (vmmMapRange 0 kernelVirtualBase 512 kernelFlags paging).2
  let c := { c with vmm := { c.vmm with paging := paging } }
  pagingLoadDirectory (pagingGetDirectory c) c

/-- Apart from the register it is the model without loads. -/
theorem vmmInitLoad_vmm (c : CpuState) : (vmmInitLoad c).vmm = vmmInit c.vmm := by
  simp only [vmmInitLoad, pagingInitLoad, pagingLoadDirectory, vmmInit]

theorem pagingInitLoad_cr3 (c : CpuState) :
    (pagingInitLoad c).cr3 = sub64 (pagingInit c.vmm.paging).pml4 kernelVirtualBase := by
  rw [pagingInitLoad, pagingLoadDirectory]

/-- The load of `vmm_init` changes nothing. -/
theorem vmmInitLoad_cr3 (c : CpuState) : (vmmInitLoad c).cr3 = (pagingInitLoad c).cr3 := by
  rw [vmmInitLoad, pagingLoadDirectory, pagingGetDirectory]

/-- A later call. -/
inductive PagingCall : CpuState → CpuState → Prop
  | map (c : CpuState) (p v flags : Nat) :
      PagingCall c { c with vmm := { c.vmm with
        paging := (pagingMapPage pmmAllocBlock p v flags c.vmm.paging).2 } }
  | unmap (c : CpuState) (v : Nat) :
      PagingCall c { c with vmm := { c.vmm with
        paging := pagingUnmapPage pmmAllocBlock v c.vmm.paging } }

/-! ## The processor -/

/-- The bits of an entry or of CR3 that hold the address of a table. -/
def addressBits : Nat := 0x000FFFFFFFFFF000

/-- The physical address that a leaf gives to `v`; there are no leaves in the top
table. -/
def leafAddress (v : Nat) : Nat × Nat → Option Nat
  | (e, 0) => some ((e &&& addressBits) + v % 2 ^ 12)
  | (e, 1) => some ((e &&& addressBits) / 2 ^ 21 * 2 ^ 21 + v % 2 ^ 21)
  | (e, 2) => some ((e &&& addressBits) / 2 ^ 30 * 2 ^ 30 + v % 2 ^ 30)
  | _ => none

/-- The translation of the processor. -/
def hwAddress (c : CpuState) (v : Nat) : Option Nat :=
  (leafOf (· &&& addressBits) c.vmm.paging.mem (c.cr3 &&& addressBits) (virtPath v)).bind
    (leafAddress v)

/-- The processor walks the tables of the kernel, and finds what the lookup of the
kernel finds, where 0 stands for no translation. -/
structure WalksOwnTables (c : CpuState) : Prop where
  root : c.cr3 &&& addressBits = c.vmm.paging.pml4
  agrees : ∀ v, (hwAddress c v).getD 0 = pagingGetPhysicalAddress pmmAllocBlock c.vmm.paging v

/-! ## Runs -/

section Roots

variable {st : PagingState PmmState} {root : Nat}

theorem unmapRange_pml4 (virtStart i : Nat) (h : st.pml4 = root) :
    (unmapRange virtStart i st).pml4 = root := by
  induction i generalizing st with
  | zero => exact h
  | succ i ih => exact ih (pagingUnmapPage_keeps (P := fun n _ => n = root) (fun _ _ hn => hn) _ h)

theorem mapRangeLoop_pml4 (physStart virtStart flags left i : Nat) (h : st.pml4 = root) :
    (mapRangeLoop physStart virtStart flags left i st).2.pml4 = root := by
  induction left generalizing st i with
  | zero => exact h
  | succ left ih =>
    have hmap : (pagingMapPage pmmAllocBlock (add64 physStart (i * pageSize))
        (add64 virtStart (i * pageSize)) flags st).2.pml4 = root :=
      pagingMapPage_keeps (P := fun n _ => n = root) (fun _ _ hn => hn) _ _ _ h
    rw [mapRangeLoop]
    split
    · exact unmapRange_pml4 virtStart i hmap
    · exact ih (i + 1) hmap

theorem vmmMapRange_pml4 (physStart virtStart pages flags : Nat) (st : PagingState PmmState) :
    (vmmMapRange physStart virtStart pages flags st).2.pml4 = st.pml4 := by
  rw [vmmMapRange]
  split
  · rfl
  · exact mapRangeLoop_pml4 physStart virtStart flags pages 0 rfl

end Roots

/-- What CR3 holds. -/
def Misplaced (c : CpuState) : Prop := c.cr3 = sub64 c.vmm.paging.pml4 kernelVirtualBase

theorem misplaced_init (c : CpuState) : Misplaced (vmmInitLoad c) := by
  rw [Misplaced, vmmInitLoad_cr3, pagingInitLoad_cr3, vmmInitLoad_vmm, vmmInit]
  simp only [vmmMapRange_pml4]

theorem Misplaced.step {c c' : CpuState} (h : Misplaced c) (hstep : PagingCall c c') :
    Misplaced c' := by
  unfold Misplaced at h ⊢
  cases hstep with
  | map p v flags =>
    exact pagingMapPage_keeps (P := fun n _ => c.cr3 = sub64 n kernelVirtualBase)
      (fun _ _ hn => hn) p v flags h
  | unmap v =>
    exact pagingUnmapPage_keeps (P := fun n _ => c.cr3 = sub64 n kernelVirtualBase)
      (fun _ _ hn => hn) v h

/-- Bit 47 tells the table that CR3 names from the one that was meant. -/
theorem Misplaced.root_ne {c : CpuState} (h : Misplaced c) :
    c.cr3 &&& addressBits ≠ c.vmm.paging.pml4 := by
  have haddress : ∀ x, x &&& addressBits = x % 2 ^ 52 / 2 ^ 12 * 2 ^ 12 := by
    intro x
    have hbits : addressBits = (2 ^ 52 - 1) &&& not64 (2 ^ 12 - 1) := by decide
    rw [hbits, ← Nat.and_assoc, Nat.and_two_pow_sub_one_eq_mod]
    exact and_not64_lowMask (by omega) (by decide)
  rw [haddress, h]
  unfold sub64 kernelVirtualBase
  omega

/-- **The processor does not walk the tables that the kernel edits**, after
`vmm_init` and any calls of `paging_map_page` and `paging_unmap_page`. -/
theorem cpu_never_walks_own_tables (start c : CpuState)
    (hrun : ReflTransGen PagingCall (vmmInitLoad start) c) : ¬WalksOwnTables c := by
  have hcr3 : Misplaced c :=
    run_invariant Misplaced (fun _ _ h hstep => h.step hstep) hrun (misplaced_init start)
  intro hwalks
  exact hcr3.root_ne hwalks.root

/-- Directly after `vmm_init`. -/
theorem cpu_never_walks_own_tables_init :
    ¬WalksOwnTables (vmmInitLoad ⟨.start (fun _ => 0) fiveBlocks, 0⟩) :=
  cpu_never_walks_own_tables ⟨.start (fun _ => 0) fiveBlocks, 0⟩ _ .refl

/-- The top table is at 4096, CR3 holds `2 ^ 47 + 4096`, and the processor does not
find a page that the kernel finds. -/
theorem cpu_walks_other_memory :
    (vmmInitLoad ⟨.start (fun _ => 0) fiveBlocks, 0⟩).vmm.paging.pml4 = 0x1000 ∧
      (vmmInitLoad ⟨.start (fun _ => 0) fiveBlocks, 0⟩).cr3 = 0x800000001000 ∧
      pagingGetPhysicalAddress pmmAllocBlock
        (vmmInitLoad ⟨.start (fun _ => 0) fiveBlocks, 0⟩).vmm.paging 5 = 5 ∧
      hwAddress (vmmInitLoad ⟨.start (fun _ => 0) fiveBlocks, 0⟩) 5 = none := by
  have hvmm := (vmmInitLoad_vmm ⟨.start (fun _ => 0) fiveBlocks, 0⟩).trans fiveInit_eq
  have hcr3 := misplaced_init ⟨.start (fun _ => 0) fiveBlocks, 0⟩
  have hvalue : sub64 0x1000 kernelVirtualBase = 0x800000001000 := by decide
  rw [Misplaced, hvmm, hvalue] at hcr3
  rw [hwAddress, hvmm, hcr3]
  decide +kernel

end FarouKernel.Ports.KernelVmm
