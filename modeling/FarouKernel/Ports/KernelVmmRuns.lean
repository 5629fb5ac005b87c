import FarouKernel.Ports.KernelVmmCalls
import FarouKernel.Verified.Runs

/-!
# Runs of the virtual memory manager

`vmm_alloc_pages` hands out the pages behind `next_free_page` and never looks at
the page tables.  Whatever else is mapped there is mapped anew: in every run in
which no page table is given back, a successful call has all the properties of a
fresh range exactly if the pages behind `next_free_page` were unmapped.

They are not after `vmm_init`, which maps 512 pages from `KERNEL_VIRTUAL_BASE`
on and leaves `next_free_page` at that address.
-/

namespace FarouKernel.Ports.KernelVmm

open Relation Verified PageTables Ports.Paging Ports.Block

/-! ## Fresh ranges -/

/-- One call of a run.  A call of `vmm_free_pages` gives back no page table. -/
inductive VmmStep : VmmState → VmmState → Prop
  | alloc (st : VmmState) (count : Nat) : VmmStep st (vmmAllocPages count st).2
  | map (st : VmmState) (phys virt flags : Nat) : VmmStep st (vmmMapPage phys virt flags st).2
  | free (st : VmmState) (addr count : Nat) (haddr : addr < 2 ^ 64)
      (hspares : SparesTables st addr count) : VmmStep st (vmmFreePages addr count st)

/-- The `count` pages from `base` on are fresh: they had no translation, each is
mapped to a block of its own that was free, and no other page changed. -/
structure FreshRange (st st' : VmmState) (base count : Nat) : Prop where
  aligned : base % 4096 = 0
  inside : base + count * 4096 ≤ 2 ^ 64
  unmapped : ∀ i, i < count →
    pagingIsPagePresent pmmAllocBlock st.paging (base + i * 4096) = false
  mapped : ∃ blocks : Nat → Nat,
    (∀ i, i < count → blocks i % blockSize = 0 ∧
      st.paging.pmm.isUsed (blocks i / blockSize) = false ∧
      st'.paging.pmm.isUsed (blocks i / blockSize) = true ∧
      pagingIsPagePresent pmmAllocBlock st'.paging (base + i * 4096) = true ∧
      ∀ o, o < 4096 →
        pagingGetPhysicalAddress pmmAllocBlock st'.paging (base + i * 4096 + o) = blocks i ||| o) ∧
    ∀ i j, i < j → j < count → blocks i ≠ blocks j
  others : ∀ w, (∀ i, i < count → ¬SamePage w (base + i * 4096)) →
    SameTranslation pmmAllocBlock st.paging st'.paging w

section Fresh

variable {st : VmmState} {mem : ByteMem} {pmm : PmmState}

theorem vmmInv_run (hwf : BlockWf pmm) (hsmall : pmm.totalBlocks ≤ 2 ^ 35)
    (hinit : (pmmAllocBlock pmm).1 ≠ 0)
    (hrun : ReflTransGen VmmStep (vmmInit (.start mem pmm)) st) : VmmInv st := by
  refine run_invariant VmmInv ?_ hrun (vmmInit_inv mem hwf hsmall hinit)
  intro st st' h hstep
  cases hstep with
  | alloc count => exact (h.alloc_cases count).1
  | map phys virt flags => exact h.map phys virt flags
  | free addr count haddr hspares => exact h.free haddr hspares

/-- Apart from what was mapped before, the range is fresh. -/
theorem VmmInv.freshRange (h : VmmInv st) {count : Nat} (hsome : (vmmAllocPages count st).1 ≠ 0)
    (hunmapped : ∀ i, i < count →
      pagingIsPagePresent pmmAllocBlock st.paging (st.nextFreePage + i * 4096) = false) :
    FreshRange st (vmmAllocPages count st).2 (vmmAllocPages count st).1 count := by
  rcases h.alloc_cases count with ⟨h', hnull | ⟨hbase, _, halign, hend, blocks, taken', hadded⟩⟩
  · exact absurd hnull hsome
  rw [hbase]
  refine ⟨halign, hend, hunmapped, ⟨blocks, ?_, hadded.distinct⟩, ?_⟩
  · intro i hi
    have hblock := hadded.low i hi
    have hpageBase : pageBase (st.nextFreePage + i * 4096) = st.nextFreePage + i * 4096 := by
      unfold pageBase
      omega
    have hmapped : pagingIsPagePresent pmmAllocBlock _ _ = true ∧ _ :=
      hadded.inv.mapped (hadded.aligned i hi) (by omega) (hadded.mapped i hi)
    rw [hpageBase] at hmapped
    exact ⟨hadded.aligned i hi, Bool.eq_false_iff.mpr (hadded.free i hi),
      hadded.inv.source.used _ (hadded.owned i hi), hmapped⟩
  · intro w hw
    apply h.paging.sameTranslation h'.paging
    apply hadded.others (virtPath w) rfl
    intro j hj heq
    exact hw j hj (virtPath_eq_iff.mp heq)

/-- The range is the one behind `next_free_page`. -/
theorem VmmInv.allocated_eq (h : VmmInv st) {count : Nat}
    (hsome : (vmmAllocPages count st).1 ≠ 0) :
    (vmmAllocPages count st).1 = st.nextFreePage := by
  rcases h.alloc_cases count with ⟨_, hnull | ⟨hbase, _⟩⟩
  · exact absurd hnull hsome
  · exact hbase

end Fresh

/-- **Fresh pages.**  After every run that gives back no page table, a successful
`vmm_alloc_pages` returns a fresh range exactly if none of the pages behind
`next_free_page` was mapped. -/
theorem vmm_alloc_fresh_iff (mem : ByteMem) (pmm : PmmState) (hwf : BlockWf pmm)
    (hsmall : pmm.totalBlocks ≤ 2 ^ 35) (hinit : (pmmAllocBlock pmm).1 ≠ 0) (st : VmmState)
    (hrun : ReflTransGen VmmStep (vmmInit (.start mem pmm)) st) (count : Nat)
    (hsome : (vmmAllocPages count st).1 ≠ 0) :
    FreshRange st (vmmAllocPages count st).2 (vmmAllocPages count st).1 count ↔
      ∀ i, i < count →
        pagingIsPagePresent pmmAllocBlock st.paging (st.nextFreePage + i * 4096) = false := by
  have h := vmmInv_run hwf hsmall hinit hrun
  constructor
  · intro hfresh i hi
    rw [← h.allocated_eq hsome]
    exact hfresh.unmapped i hi
  · exact h.freshRange hsome

/-! ## The first call after `vmm_init` -/

section First

variable {st : PagingState PmmState} {pmm : PmmState}

/-- A range whose pages are all mapped, given enough blocks. -/
theorem mapRangeLoop_maps (physStart virtStart flags left i k : Nat)
    (hphys : physStart % 4096 = 0)
    (hvirt : ∀ j, i ≤ j → j < i + left → add64 virtStart (j * pageSize) ≠ 0)
    (h : PagingInv PmmSource st.IsTable st) (hready : Ready pmmAllocBlock (k + 3 * left) st.pmm) :
    (∀ r, r.length = 4 → st.entryAt r ≠ none →
        (mapRangeLoop physStart virtStart flags left i st).2.entryAt r ≠ none) ∧
      (∀ j, i ≤ j → j < i + left → (mapRangeLoop physStart virtStart flags left i st).2.entryAt
        (virtPath (add64 virtStart (j * pageSize))) ≠ none) ∧
      Ready pmmAllocBlock k (mapRangeLoop physStart virtStart flags left i st).2.pmm := by
  induction left generalizing st i with
  | zero => exact ⟨fun _ _ hr => hr, fun j hj hj' => by omega, hready⟩
  | succ left ih =>
    have haligned : add64 physStart (i * pageSize) % 4096 = 0 := by
      unfold add64 pageSize
      omega
    have hsum : k + 3 * (left + 1) = k + 3 * left + 3 := by omega
    rw [hsum] at hready
    rcases h.map pmmSource_supplies (add64 physStart (i * pageSize))
      (add64 virtStart (i * pageSize)) flags rfl with ⟨taken', h', _, _, hcase, hmaps⟩
    rcases hmaps (k + 3 * left) haligned hready with ⟨hresult, hentry, hready'⟩
    have hne := hvirt i (Nat.le_refl _) (by omega)
    rw [← hresult] at hne
    rw [mapRangeLoop, if_neg hne]
    rcases ih (i + 1) (fun j hj hj' => hvirt j (by omega) (by omega)) (onlyTables h') hready' with
      ⟨hkept, hnew, hleft⟩
    refine ⟨?_, ?_, hleft⟩
    · intro r hr hsome
      apply hkept r hr
      rcases hcase with ⟨_, hpages⟩ | ⟨_, _, hpages⟩
      · rw [hpages r hr]
        exact hsome
      · rw [hpages r hr]
        split
        · exact Option.some_ne_none _
        · exact hsome
    · intro j hj hj'
      by_cases hji : j = i
      · rw [hji]
        apply hkept _ rfl
        rw [hentry]
        exact Option.some_ne_none _
      · exact hnew j (by omega) (by omega)

/-- The identity mapping stops at its first page, whose address is `NULL`. -/
theorem vmmMapRange_null (k : Nat) (h : PagingInv PmmSource st.IsTable st)
    (hready : Ready pmmAllocBlock (k + 3) st.pmm) :
    Ready pmmAllocBlock k (vmmMapRange 0 0 1024 kernelFlags st).2.pmm := by
  rcases h.map pmmSource_supplies 0 0 kernelFlags rfl with ⟨_, _, _, _, _, hmaps⟩
  rcases hmaps k rfl hready with ⟨hresult, _, hready'⟩
  have hstart : add64 0 (0 * pageSize) = 0 := by decide
  rw [vmmMapRange, if_neg (by decide), mapRangeLoop, hstart, if_pos hresult]
  exact hready'

/-- `vmm_init` takes at most one block for the top table and three for each page it
maps, and maps the first page behind `next_free_page`. -/
theorem vmmInit_ready (mem : ByteMem) (hwf : BlockWf pmm) (hsmall : pmm.totalBlocks ≤ 2 ^ 35)
    (k : Nat) (hready : Ready pmmAllocBlock (k + 1540) pmm) :
    (vmmInit (.start mem pmm)).paging.entryAt (virtPath kernelVirtualBase) ≠ none ∧
      Ready pmmAllocBlock k (vmmInit (.start mem pmm)).paging.pmm := by
  rcases pagingInit_inv mem hwf hsmall hready.1 with ⟨hempty, hpmm⟩
  have hready1 : Ready pmmAllocBlock (k + 1536 + 3) (pagingInit ⟨mem, 0, pmm⟩).pmm := by
    rw [hpmm]
    exact hready.2
  have hready2 := vmmMapRange_null (k + 1536) hempty hready1
  have hlow := vmmMapRange_inv 0 0 1024 kernelFlags hempty
  have hnonzero : ∀ j, 0 ≤ j → j < 0 + 512 → add64 kernelVirtualBase (j * pageSize) ≠ 0 := by
    intro j _ hj
    unfold add64 kernelVirtualBase pageSize
    omega
  have hmaps := mapRangeLoop_maps 0 kernelVirtualBase kernelFlags 512 0 k rfl hnonzero hlow hready2
  have hrange : (vmmInit (.start mem pmm)).paging = (mapRangeLoop 0 kernelVirtualBase kernelFlags
      512 0 (vmmMapRange 0 0 1024 kernelFlags (pagingInit ⟨mem, 0, pmm⟩)).2).2 := by
    show (vmmMapRange 0 kernelVirtualBase 512 kernelFlags _).2 = _
    rw [vmmMapRange, if_neg (by decide)]
    rfl
  rw [← hrange] at hmaps
  rcases hmaps with ⟨_, hmapped, hready3⟩
  have hstart : add64 kernelVirtualBase (0 * pageSize) = kernelVirtualBase := by decide
  have hfirst := hmapped 0 (Nat.le_refl _) (by decide)
  rw [hstart] at hfirst
  exact ⟨hfirst, hready3⟩

/-- A call for one page takes a block for it and at most three for its tables. -/
theorem VmmInv.alloc_one (h : VmmInv st') (hnext : st'.nextFreePage ≠ 0)
    (hready : Ready pmmAllocBlock 4 st'.paging.pmm) :
    (vmmAllocPages 1 st').1 = st'.nextFreePage := by
  rcases pmmSource_supplies.supply st'.paging.pmm _ h.paging.source with
    ⟨hnull, _⟩ | ⟨_, halign, _, _, hsource⟩
  · exact absurd hnull hready.1
  rcases (h.paging.withPmm hsource fun _ hx => Or.inl hx).map pmmSource_supplies
    (pmmAllocBlock st'.paging.pmm).1 st'.nextFreePage kernelFlags rfl with ⟨_, _, _, _, _, hpage⟩
  rw [← (hpage 0 halign hready.2).1] at hnext
  rw [vmmAllocPages, if_neg (by decide), allocLoop]
  simp only [if_neg hready.1, if_neg hnext]
  rfl

/-- **After `vmm_init` the first page behind `next_free_page` is mapped**, and the
next call of `vmm_alloc_pages` returns it. -/
theorem vmmInit_next_mapped (mem : ByteMem) (hwf : BlockWf pmm)
    (hsmall : pmm.totalBlocks ≤ 2 ^ 35) (hready : Ready pmmAllocBlock 1544 pmm) :
    pagingIsPagePresent pmmAllocBlock (vmmInit (.start mem pmm)).paging kernelVirtualBase = true ∧
      (vmmAllocPages 1 (vmmInit (.start mem pmm))).1 = kernelVirtualBase := by
  have hinv := vmmInit_inv mem hwf hsmall hready.1
  rcases vmmInit_ready mem hwf hsmall 4 hready with ⟨hmapped, hready3⟩
  constructor
  · rw [hinv.paging.isPagePresent_eq, Option.isSome_iff_ne_none]
    exact hmapped
  · exact hinv.alloc_one (show kernelVirtualBase ≠ 0 by decide) hready3

/-- Freeing a page whose frame lies above all memory only takes it out of the
tables. -/
theorem VmmInv.free_device (h : VmmInv st') {virt : Nat} (halign : virt % 4096 = 0)
    (hvirt : 0 < virt ∧ virt < 2 ^ 64)
    (hentry : st'.paging.entryAt (virtPath virt) = some (entryFor (2 ^ 47) kernelFlags)) :
    SparesTables st' virt 1 ∧ ∃ paging, vmmFreePages virt 1 st' = { st' with paging := paging } ∧
      paging.pmm = st'.paging.pmm ∧ pagingIsPagePresent pmmAllocBlock paging virt = false := by
  have hmapped : pagingIsPagePresent pmmAllocBlock _ _ = true ∧ _ :=
    h.paging.mapped (by decide) (by decide) hentry
  have hphys := hmapped.2 0 (by decide)
  rw [show pageBase virt + 0 = virt by unfold pageBase; omega, Nat.or_zero] at hphys
  constructor
  · intro i hi n hn _
    have hlow := h.paging.low n hn
    have hpage : add64 virt (i * pageSize) = virt := by
      rw [Nat.lt_one_iff.mp hi, add64]
      omega
    rw [hpage, hphys]
    unfold Low at hlow
    unfold blockSize
    omega
  · have hnone : pmmFreeBlock (2 ^ 47) st'.paging.pmm = st'.paging.pmm := by
      have hstart : add64 (2 ^ 47 / blockSize) 1 = 2 ^ 35 + 1 := by decide
      rw [pmmFreeBlock, pmmFreeBlocks]
      split
      · rfl
      · exact if_pos (hstart ▸ Nat.lt_succ_of_le h.paging.source.small)
    rcases h.paging.unmap virt with ⟨hinv, hentries⟩
    refine ⟨pagingUnmapPage pmmAllocBlock virt st'.paging, ?_, ?_, ?_⟩
    · rw [vmmFreePages, if_neg (by simp [Nat.ne_of_gt hvirt.1, isPageAligned_iff, halign]),
        freeLoop, hphys, if_pos (by decide), hnone]
      rfl
    · rw [pagingUnmapPage, h.paging.lastTable_lookup]
      exact (apply_ite PagingState.pmm _ _ _).trans (ite_self _)
    · rw [hinv.isPagePresent_eq, hentries _ rfl, if_pos rfl]
      rfl

/-- **A device is mapped behind `next_free_page` and freed.**  The page is
unmapped, and the next call returns it. -/
theorem VmmInv.device_freed (h : VmmInv st') (hnext : st'.nextFreePage = kernelVirtualBase)
    (hready : Ready pmmAllocBlock 7 st'.paging.pmm) :
    ∃ st, ReflTransGen VmmStep st' st ∧ st.nextFreePage = kernelVirtualBase ∧
      (vmmAllocPages 1 st).1 = kernelVirtualBase ∧
      pagingIsPagePresent pmmAllocBlock st.paging kernelVirtualBase = false := by
  rcases h.paging.map pmmSource_supplies (2 ^ 47) kernelVirtualBase kernelFlags rfl with
    ⟨_, _, _, _, _, hmaps⟩
  rcases hmaps 4 rfl hready with ⟨_, hentry, hready'⟩
  have hmap := VmmStep.map st' (2 ^ 47) kernelVirtualBase kernelFlags
  have hinv := h.map (2 ^ 47) kernelVirtualBase kernelFlags
  rw [vmmMapPage, if_neg (by decide)] at hmap hinv
  rcases hinv.free_device (by decide) (by decide) hentry with
    ⟨hspares, paging, hfreed, hpmm, hunmapped⟩
  have hinv' := hinv.free (by decide) hspares
  have hfree := VmmStep.free _ _ _ (by decide) hspares
  rw [hfreed] at hinv' hfree
  have hresult := hinv'.alloc_one (hnext.symm ▸ by decide) (hpmm.symm ▸ hready')
  exact ⟨_, (ReflTransGen.single hmap).tail hfree, hnext, hresult.trans hnext, hunmapped⟩

end First

/-- Blocks free in a row behind the hint make the allocator ready. -/
theorem ready_of_free {s : PmmState} (hwf : BlockWf s) {d k : Nat} (hpos : 0 < s.lastFreeBlock + d)
    (hused : ∀ j, s.lastFreeBlock ≤ j → j < s.lastFreeBlock + d → s.isUsed j = true)
    (hfree : ∀ j, j < k → s.isUsed (s.lastFreeBlock + d + j) = false)
    (hin : s.lastFreeBlock + d + k ≤ s.totalBlocks) : Ready pmmAllocBlock k s := by
  induction k generalizing s d with
  | zero => trivial
  | succ k ih =>
    have htotal := hwf.total_lt
    have hfound : findRun s.bitmap 1 (s.totalBlocks - s.lastFreeBlock) s.lastFreeBlock 0 =
        some (s.lastFreeBlock + d) :=
      findRun_first hused (hfree 0 (Nat.succ_pos k)) (by omega)
    have hfirst : add64 (sub64 (s.lastFreeBlock + d) 1) 1 = s.lastFreeBlock + d := by
      unfold add64 sub64
      omega
    have hbound : (s.lastFreeBlock + d) * blockSize < 2 ^ 64 := by
      unfold blockSize
      omega
    have halloc : pmmAllocBlock s = ((s.lastFreeBlock + d) * blockSize,
        s.marked true (s.lastFreeBlock + d) 1 (add64 s.usedBlocks 1)
          (s.lastFreeBlock + d + 1)) := by
      rw [pmmAllocBlock, pmmAllocBlocks, if_neg (by simp [hwf.init]), hfound]
      simp only [hfirst, Nat.mod_eq_of_lt hbound, add64_of_lt
        (show s.lastFreeBlock + d + 1 < 2 ^ 64 by omega), PmmState.marked,
        setBlocks_eq (show s.lastFreeBlock + d + 1 ≤ 2 ^ 64 by omega)]
    rw [Ready, halloc]
    refine ⟨Nat.mul_ne_zero (by omega) (by decide), ?_⟩
    apply ih (d := 0) (hwf.marked _ _ _ _ _) (Nat.succ_pos _)
    · intro j hj hj'
      exact absurd hj' (Nat.not_lt.mpr hj)
    · intro j hj
      have hlater : s.lastFreeBlock + d + 1 + 0 + j = s.lastFreeBlock + d + (j + 1) := by omega
      show (s.marked _ _ _ _ _).isUsed (s.lastFreeBlock + d + 1 + 0 + j) = false
      rw [isUsed_marked, if_neg (by unfold InBlocks; omega), hlater]
      exact hfree (j + 1) (by omega)
    · show s.lastFreeBlock + d + 1 + 0 + k ≤ s.totalBlocks
      omega

/-- Sixteen megabytes of memory, of which all but the first block is free. -/
def sixteenMegabytes : PmmState :=
  pmmMarkRegion 4096 (2 ^ 24 - 4096) false (pmmInit (2 ^ 24) (fun _ => 0) .zero)

theorem sixteenMegabytes_ready :
    BlockWf sixteenMegabytes ∧ sixteenMegabytes.totalBlocks ≤ 2 ^ 35 ∧
      Ready pmmAllocBlock 1547 sixteenMegabytes := by
  have hwf : BlockWf (pmmInit (2 ^ 24) (fun _ => 0) .zero) :=
    pmmInit_wf (by decide) fun _ => by decide
  have hmark : sixteenMegabytes = (pmmInit (2 ^ 24) (fun _ => 0) .zero).marked false 1 4095
      (adjusted false 4096 4095) 0 :=
    hwf.mark_eq (show 4096 % blockSize = 0 by decide) (by decide) false
  have hwf' : BlockWf sixteenMegabytes := hmark ▸ hwf.marked _ _ _ _ _
  have hbit : ∀ k, sixteenMegabytes.isUsed k = if InBlocks 1 4095 k then false else
      (pmmInit (2 ^ 24) (fun _ => 0) .zero).isUsed k := by
    intro k
    rw [hmark, isUsed_marked]
  refine ⟨hwf', by decide, ready_of_free (d := 1) hwf' (by decide) ?_ ?_ (by decide)⟩
  · intro j hj hj'
    have hzero : j = 0 := Nat.lt_one_iff.mp hj'
    rw [hbit, hzero, if_neg (by decide)]
    decide
  · intro j hj
    exact (hbit (0 + 1 + j)).trans (if_pos ⟨by omega, by omega⟩)

/-- After `vmm_init` a device is mapped at the page behind `next_free_page` and
freed: the next range is fresh. -/
theorem vmm_alloc_fresh_iff_freed :
    ∃ st, ReflTransGen VmmStep (vmmInit (.start (fun _ => 0) sixteenMegabytes)) st ∧
      (vmmAllocPages 1 st).1 = kernelVirtualBase ∧
      FreshRange st (vmmAllocPages 1 st).2 (vmmAllocPages 1 st).1 1 := by
  rcases sixteenMegabytes_ready with ⟨hwf, hsmall, hready⟩
  rcases (vmmInit_inv (fun _ => 0) hwf hsmall hready.1).device_freed rfl
    (vmmInit_ready (fun _ => 0) hwf hsmall 7 hready).2 with ⟨st, hrun, hnext, hresult, hunmapped⟩
  have hsome : (vmmAllocPages 1 st).1 ≠ 0 := by
    rw [hresult]
    decide
  refine ⟨st, hrun, hresult, ?_⟩
  apply (vmm_alloc_fresh_iff (fun _ => 0) sixteenMegabytes hwf hsmall hready.1 st hrun 1 hsome).mpr
  intro i hi
  rw [Nat.lt_one_iff.mp hi, hnext, Nat.zero_mul, Nat.add_zero]
  exact hunmapped

/-- After `vmm_init` the page at `KERNEL_VIRTUAL_BASE` is mapped, and the first
call returns it as new. -/
theorem vmm_alloc_returns_mapped_page :
    pagingIsPagePresent pmmAllocBlock
        (vmmInit (.start (fun _ => 0) sixteenMegabytes)).paging kernelVirtualBase = true ∧
      (vmmAllocPages 1 (vmmInit (.start (fun _ => 0) sixteenMegabytes))).1 = kernelVirtualBase := by
  rcases sixteenMegabytes_ready with ⟨hwf, hsmall, hready⟩
  exact vmmInit_next_mapped (fun _ => 0) hwf hsmall (hready.mono (by decide))

end FarouKernel.Ports.KernelVmm
