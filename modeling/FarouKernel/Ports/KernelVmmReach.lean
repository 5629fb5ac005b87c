import FarouKernel.Ports.BlockAligned
import FarouKernel.Ports.KernelVmmRuns

/-!
# The states the kernel reaches

All calls of the virtual memory manager and of the block allocator, in any order
and with any arguments, and stores of the rest of the kernel.  The page tables lie
in memory that others could free or overwrite; after that no call has a meaning.
So the steps that give back blocks leave those of the tables in use, and the steps
that store into memory leave the tables alone.
-/

namespace FarouKernel.Ports.KernelVmm

open Relation Verified ByteMem PageTables Ports.Paging Ports.Block

/-- The memory has the page tables of the state. -/
def HasTables (st : VmmState) (mem : ByteMem) : Prop :=
  ∀ n, st.paging.IsTable n → ∀ x, InPage n x → mem x = st.paging.mem x

/-- One step of the kernel after `vmm_init`: any call or store that spares the page tables. -/
inductive KernelStep : VmmState → VmmState → Prop
  | alloc (st : VmmState) (count : Nat) : KernelStep st (vmmAllocPages count st).2
  | free (st : VmmState) (addr count : Nat) (haddr : addr < 2 ^ 64)
      (hspares : SparesTables st addr count) : KernelStep st (vmmFreePages addr count st)
  | map (st : VmmState) (phys virt flags : Nat) :
      KernelStep st (vmmMapPage phys virt flags st).2
  | unmap (st : VmmState) (virt : Nat) : KernelStep st (vmmUnmapPage virt st)
  | mapRange (st : VmmState) (physStart virtStart pages flags : Nat) :
      KernelStep st
        { st with paging := (vmmMapRange physStart virtStart pages flags st.paging).2 }
  | protect (st : VmmState) (virt flags : Nat)
      (hspares : HasTables st (vmmProtectPage virt flags st).paging.mem) :
      KernelStep st (vmmProtectPage virt flags st)
  | store (st : VmmState) (mem : ByteMem) (hspares : HasTables st mem) :
      KernelStep st { st with paging := { st.paging with mem := mem } }
  | pmm (st : VmmState) (s : PmmState) (hstep : PmmStep st.paging.pmm s)
      (hspares : ∀ n, st.paging.IsTable n → s.isUsed (n / blockSize) = true) :
      KernelStep st { st with paging := { st.paging with pmm := s } }

section Steps

variable {st st' : VmmState}

theorem VmmInv.unmap (h : VmmInv st) (virt : Nat) : VmmInv (vmmUnmapPage virt st) := by
  rw [vmmUnmapPage]
  split
  · exact h
  · exact ⟨pagingUnmapPage_inv h.paging virt, h.next⟩

theorem VmmInv.store (h : VmmInv st) {mem : ByteMem} (hspares : HasTables st mem) :
    VmmInv { st with paging := { st.paging with mem := mem } } :=
  ⟨onlyTables (h.paging.withMem hspares).1, h.next⟩

/-- `vmm_protect_page` is a store. -/
theorem vmmProtectPage_eq (virt flags : Nat) (st : VmmState) :
    vmmProtectPage virt flags st =
      { st with paging :=
        { st.paging with mem := (vmmProtectPage virt flags st).paging.mem } } := by
  rw [vmmProtectPage]
  split
  · rfl
  · dsimp only
    split <;> rfl

theorem VmmInv.pmm (h : VmmInv st) {s : PmmState} (hstep : PmmStep st.paging.pmm s)
    (hspares : ∀ n, st.paging.IsTable n → s.isUsed (n / blockSize) = true) :
    VmmInv { st with paging := { st.paging with pmm := s } } := by
  rcases h.paging.source.wf.step hstep with ⟨hwf, htotal⟩
  have hsource : PmmSource s st.paging.IsTable :=
    ⟨hwf, Nat.le_trans (Nat.le_of_eq htotal) h.paging.source.small, hspares⟩
  exact ⟨h.paging.withPmm hsource fun _ hx => hx, h.next⟩

theorem VmmInv.step (h : VmmInv st) (hstep : KernelStep st st') : VmmInv st' := by
  cases hstep with
  | alloc count => exact (h.alloc_cases count).1
  | free addr count haddr hspares => exact h.free haddr hspares
  | map phys virt flags => exact h.map phys virt flags
  | unmap virt => exact h.unmap virt
  | mapRange physStart virtStart pages flags =>
    exact ⟨vmmMapRange_inv physStart virtStart pages flags h.paging, h.next⟩
  | protect virt flags hspares =>
    rw [vmmProtectPage_eq]
    exact h.store hspares
  | store mem hspares => exact h.store hspares
  | pmm s hstep hspares => exact h.pmm hstep hspares

/-- **The invariant holds in every state the kernel reaches from `vmm_init`.** -/
theorem kernel_run {mem : ByteMem} {pmm : PmmState} (hwf : BlockWf pmm)
    (hsmall : pmm.totalBlocks ≤ 2 ^ 35) (hinit : (pmmAllocBlock pmm).1 ≠ 0)
    (hrun : ReflTransGen KernelStep (vmmInit (.start mem pmm)) st) : VmmInv st :=
  run_invariant VmmInv (fun _ _ h hstep => h.step hstep) hrun (vmmInit_inv mem hwf hsmall hinit)

end Steps

/-- A memory of five blocks, of which all but the first are free: the number that
`vmm_init` needs for the top table and the tables of the first page. -/
def fiveBlocks : PmmState := pmmMarkRegion 4096 0x4000 false (pmmInit 0x5000 (fun _ => 0) .zero)

/-- The state `vmm_init` leaves there. -/
def fiveInit : VmmState := vmmInit (.start (fun _ => 0) fiveBlocks)

theorem fiveBlocks_wf : BlockWf fiveBlocks :=
  (pmmInit_wf (by decide) fun _ => by decide).mark 4096 0x4000 false

/-- The page tables that `vmm_init` builds there: those of the page at 0. -/
def fiveTables : ByteMem :=
  write64 (write64 (write64 (write64 (fun _ => 0)
    (0x1000 + 8 * indexAt 39 0) (entryFor 0x2000 kernelFlags))
    (0x2000 + 8 * indexAt 30 0) (entryFor 0x3000 kernelFlags))
    (0x3000 + 8 * indexAt 21 0) (entryFor 0x4000 kernelFlags))
    (0x4000 + 8 * indexAt 12 0) (entryFor 0 kernelFlags)

section Five

/-- The blocks in the order in which they are handed out. -/
theorem fiveBlocks_alloc :
    (pmmAllocBlock (drawn pmmAllocBlock 0 fiveBlocks)).1 = 0x1000 ∧
      (pmmAllocBlock (drawn pmmAllocBlock 1 fiveBlocks)).1 = 0x2000 ∧
      (pmmAllocBlock (drawn pmmAllocBlock 2 fiveBlocks)).1 = 0x3000 ∧
      (pmmAllocBlock (drawn pmmAllocBlock 3 fiveBlocks)).1 = 0x4000 ∧
      (pmmAllocBlock (drawn pmmAllocBlock 4 fiveBlocks)).1 = 0 := by
  decide +kernel

theorem pmmAllocBlock_drawn {k b : Nat} {s : PmmState}
    (h : (pmmAllocBlock (drawn pmmAllocBlock k s)).1 = b) :
    pmmAllocBlock (drawn pmmAllocBlock k s) = (b, drawn pmmAllocBlock (k + 1) s) := by
  rw [drawn_succ, ← h]

/-- **`vmm_init` with five blocks** maps the page at 0 and, without a block for
another table, no page of the upper half. -/
theorem fiveInit_eq :
    fiveInit = ⟨⟨fiveTables, 0x1000, drawn pmmAllocBlock 5 fiveBlocks⟩, kernelVirtualBase⟩ := by
  rcases fiveBlocks_alloc with ⟨hroot, hpdpt, hpd, hpt, hnull⟩
  have hinit : pagingInit ⟨fun _ => 0, 0, fiveBlocks⟩ =
      ⟨fun _ => 0, 0x1000, drawn pmmAllocBlock 1 fiveBlocks⟩ := by
    rw [pagingInit, pmmAllocBlockAligned_pageSize fiveBlocks_wf]
    have halloc := pmmAllocBlock_drawn hroot
    rw [drawn] at halloc
    rw [halloc]
    exact clearEntries_of_zero (by unfold Low; decide) fun _ _ => rfl
  have hlow : (vmmMapRange 0 0 1024 kernelFlags
      ⟨fun _ => 0, 0x1000, drawn pmmAllocBlock 1 fiveBlocks⟩).2 =
        ⟨fiveTables, 0x1000, drawn pmmAllocBlock 4 fiveBlocks⟩ := by
    have hstart : add64 0 (0 * pageSize) = 0 := by decide
    rw [vmmMapRange, if_neg (by decide), mapRangeLoop, hstart,
      pagingMapPage_zero 0 kernelFlags (pmmAllocBlock_drawn hpdpt) (pmmAllocBlock_drawn hpd)
        (pmmAllocBlock_drawn hpt) (by simp [Low]) (by decide) rfl, if_pos rfl]
    rfl
  have hhigh : (vmmMapRange 0 kernelVirtualBase 512 kernelFlags
      ⟨fiveTables, 0x1000, drawn pmmAllocBlock 4 fiveBlocks⟩).2 =
        ⟨fiveTables, 0x1000, drawn pmmAllocBlock 5 fiveBlocks⟩ := by
    have hindex : pml4Index (add64 kernelVirtualBase (0 * pageSize)) = 256 := by decide
    have hfirst : getNextLevel pmmAllocBlock 0x1000 256 true kernelFlags
        ⟨fiveTables, 0x1000, drawn pmmAllocBlock 4 fiveBlocks⟩ =
          (0, ⟨fiveTables, 0x1000, drawn pmmAllocBlock 5 fiveBlocks⟩) := by
      rw [getNextLevel, if_pos (by decide +kernel), if_neg (by decide)]
      simp only [pmmAllocBlock_drawn hnull, if_true]
    have hmap : pagingMapPage pmmAllocBlock (add64 0 (0 * pageSize))
        (add64 kernelVirtualBase (0 * pageSize)) kernelFlags
        ⟨fiveTables, 0x1000, drawn pmmAllocBlock 4 fiveBlocks⟩ =
          (0, ⟨fiveTables, 0x1000, drawn pmmAllocBlock 5 fiveBlocks⟩) := by
      rw [pagingMapPage, if_neg (by decide), lastTable, hindex]
      simp only [hfirst, if_true]
    rw [vmmMapRange, if_neg (by decide), mapRangeLoop, hmap, if_pos rfl]
    rfl
  rw [fiveInit, vmmInit, VmmState.start]
  simp only [hinit, hlow, hhigh]

end Five

end FarouKernel.Ports.KernelVmm
