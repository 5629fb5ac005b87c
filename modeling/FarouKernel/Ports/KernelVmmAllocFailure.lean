import FarouKernel.Ports.KernelVmmReach

/-!
# When `vmm_alloc_pages` fails

The call has two exits at every page.  If there is no block for the page, the code
unmaps the earlier pages, and gives back their virtual addresses instead of their
blocks.  If the page cannot be mapped, it gives back the block of that page, and
leaves the earlier pages mapped.  Either way the block of the first page stays in
use once that page was mapped, so a failed call is rolled back only if it fails at
the first page.

One more case is the page at 0, for which `paging_map_page` returns `NULL` although
it maps it.
-/

namespace FarouKernel.Ports.KernelVmm

open Relation Verified PageTables Ports.Paging Ports.Block

/-- The blocks that the loop of `vmm_alloc_pages` obtains for its pages. -/
def obtainedLoop : Nat → Nat → PagingState PmmState → List Nat
  | 0, _, _ => []
  | left + 1, currentVirt, st =>
    let phys := pmmAllocBlock st.pmm
    let st : PagingState PmmState := { st with pmm := phys.2 }
    if phys.1 = 0 then []
    else
      let r := pagingMapPage pmmAllocBlock phys.1 currentVirt kernelFlags st
      phys.1 :: if r.1 = 0 then [] else obtainedLoop left (add64 currentVirt pageSize) r.2

/-- The blocks that `vmm_alloc_pages` obtains for its pages. -/
def obtained (count : Nat) (st : VmmState) : List Nat :=
  obtainedLoop count st.nextFreePage st.paging

/-- Every page has its old translation, `next_free_page` is the same, and the blocks
are free. -/
structure RolledBack (st st' : VmmState) (blocks : List Nat) : Prop where
  pages : ∀ w, SameTranslation pmmAllocBlock st.paging st'.paging w
  next : st'.nextFreePage = st.nextFreePage
  blocks : ∀ b ∈ blocks, st'.paging.pmm.isUsed (b / blockSize) = false

section Failure

variable {st : VmmState} {count : Nat}

/-- A call that fails leaves the state of its loop. -/
theorem VmmInv.alloc_failed (h : VmmInv st) (hcount : count ≠ 0)
    (hnull : (vmmAllocPages count st).1 = 0) :
    (vmmAllocPages count st).2 =
      { st with paging := (allocLoop count 0 st.nextFreePage st.paging).2 } := by
  rcases h.next with ⟨virt, hvirt, hle, halign, hnext⟩
  rw [vmmAllocPages, if_neg hcount] at hnull ⊢
  have hcases := allocLoop_cases count 0 (by omega) hle halign h.paging
  rw [← hnext] at hcases
  generalize allocLoop count 0 st.nextFreePage st.paging = r at *
  rcases r with ⟨r, paging⟩
  cases r with
  | none => rfl
  | some last =>
    -- the loop ran to its end, so the pages lie in the upper half and not at 0
    rcases hcases with ⟨hnone, _⟩ | ⟨hend, _⟩
    · cases hnone
    · have hzero : st.nextFreePage = 0 := hnull
      unfold kernelVirtualBase at hvirt
      omega

/-- The block that is given back is free. -/
theorem pmmFreeBlock_frees {s : PmmState} (hwf : BlockWf s) {b : Nat} (hb : b ≠ 0)
    (hin : b / blockSize < s.totalBlocks) : (pmmFreeBlock b s).isUsed (b / blockSize) = false := by
  rcases hwf.free_eq hb (show 1 ≠ 0 by decide) hin with ⟨last, hfree⟩
  rw [pmmFreeBlock, hfree, isUsed_marked, if_pos ⟨Nat.le_refl _, Nat.lt_succ_self _⟩]

/-- The exit at which one block is given back. -/
theorem VmmInv.rolledBack_freed (h : VmmInv st) {paging : PagingState PmmState} {b : Nat}
    {taken : Nat → Prop}
    (hinv : PagingInv PmmSource taken { paging with pmm := pmmFreeBlock b paging.pmm })
    (hwf : BlockWf paging.pmm) (hb : b ≠ 0) (hin : b / blockSize < paging.pmm.totalBlocks) :
    RolledBack st { st with paging := { paging with pmm := pmmFreeBlock b paging.pmm } } [b] ↔
      ∀ w, (paging.entryAt (virtPath w)).map alignPage =
        (st.paging.entryAt (virtPath w)).map alignPage := by
  constructor
  · intro hback w
    exact (h.paging.sameTranslation_iff hinv).mp (hback.pages w)
  · intro hframes
    refine ⟨fun w => (h.paging.sameTranslation_iff hinv).mpr (hframes w), rfl, ?_⟩
    intro c hc
    rw [List.mem_singleton.mp hc]
    exact pmmFreeBlock_frees hwf hb hin

/-- The pages after the first one was mapped, in terms of the frame it had. -/
theorem mapped_frames_iff {taken taken' : Nat → Prop} {paging paging' : PagingState PmmState}
    {b v : Nat}
    (hmapped : Mapped pmmAllocBlock PmmSource taken paging taken' paging' b v kernelFlags)
    (hb : b % 4096 = 0) (hb64 : b < 2 ^ 64) :
    (∀ w, (paging'.entryAt (virtPath w)).map alignPage =
        (paging.entryAt (virtPath w)).map alignPage) ↔
      (paging.entryAt (virtPath v)).map alignPage = some b := by
  have hpage : (paging'.entryAt (virtPath v)).map alignPage = some b := by
    rw [hmapped.page, Option.map_some, alignPage_entryFor hb64 hb]
  constructor
  · intro hsame
    rw [← hsame v, hpage]
  · intro hframe w
    by_cases hw : virtPath w = virtPath v
    · rw [hw, hpage, hframe]
    · rw [hmapped.others rfl hw]

/-- The block of the first page stays in use once the page is mapped. -/
theorem VmmInv.first_block_used (h : VmmInv st) (left : Nat)
    (hready : Ready pmmAllocBlock (st.paging.missing st.nextFreePage + 1) st.paging.pmm)
    (hnext : st.nextFreePage ≠ 0) :
    (pmmAllocBlock st.paging.pmm).1 ∈ obtained (left + 1) st ∧
      (allocLoop (left + 1) 0 st.nextFreePage st.paging).2.pmm.isUsed
        ((pmmAllocBlock st.paging.pmm).1 / blockSize) = true := by
  rcases h.next with ⟨virt, hvirt, hle, halign, hvirt64⟩
  have hlt : virt < 2 ^ 64 := by omega
  have hself : st.nextFreePage = virt := hvirt64.trans (Nat.mod_eq_of_lt hlt)
  rcases pmmSource_supplies.supply st.paging.pmm _ h.paging.source with
    ⟨hnull, _⟩ | ⟨hsome, hbalign, _, _, hsource⟩
  · exact absurd hnull hready.1
  have hinv := h.paging.withPmm hsource fun _ hx => Or.inl hx
  rcases hinv.map_cases pmmSource_supplies st.nextFreePage kernelFlags hbalign with
    ⟨hfail, _⟩ | ⟨_, hresult, taken', hmapped⟩
  · rw [missing_withPmm] at hfail
    exact absurd hready.2 hfail
  have hne : (pagingMapPage pmmAllocBlock (pmmAllocBlock st.paging.pmm).1 st.nextFreePage
      kernelFlags { st.paging with pmm := (pmmAllocBlock st.paging.pmm).2 }).1 ≠ 0 := by
    rw [hresult]
    exact hnext
  rw [obtained, obtainedLoop, allocLoop]
  simp only [if_neg hsome, if_neg hne]
  refine ⟨List.mem_cons_self, ?_⟩
  have hstep : add64 st.nextFreePage pageSize = (virt + 4096) % 2 ^ 64 := by
    rw [hself]
    rfl
  rw [hstep]
  have hblock := hmapped.more _ (Or.inr rfl)
  -- the rest of the loop leaves in use what is in use
  have hstart : kernelVirtualBase + (0 + 1) * 4096 ≤ virt + 4096 := by
    rw [Nat.zero_add, Nat.one_mul]
    exact Nat.add_le_add_right hvirt 4096
  have hlast : virt + 4096 ≤ 2 ^ 64 := by omega
  rcases allocLoop_cases left (0 + 1) hstart hlast (by omega) hmapped.inv with
    ⟨_, taken'', hinv', hmore⟩ | ⟨_, _, blocks, taken'', hadded⟩
  · exact hinv'.source.used _ (hmore _ hblock)
  · exact hadded.inv.source.used _ (hadded.more _ hblock)

/-- Where the first page is not mapped, or mapped at 0, the call ends. -/
theorem VmmInv.first_page (h : VmmInv st) (left : Nat)
    (hsome : (pmmAllocBlock st.paging.pmm).1 ≠ 0)
    (hnull : (vmmAllocPages (left + 1) st).1 = 0)
    (hresult : (pagingMapPage pmmAllocBlock (pmmAllocBlock st.paging.pmm).1 st.nextFreePage
      kernelFlags { st.paging with pmm := (pmmAllocBlock st.paging.pmm).2 }).1 = 0) :
    RolledBack st (vmmAllocPages (left + 1) st).2 (obtained (left + 1) st) ↔
      ∀ w, ((pagingMapPage pmmAllocBlock (pmmAllocBlock st.paging.pmm).1 st.nextFreePage
          kernelFlags { st.paging with pmm := (pmmAllocBlock st.paging.pmm).2 }).2.entryAt
            (virtPath w)).map alignPage =
        (st.paging.entryAt (virtPath w)).map alignPage := by
  have hinv := (h.alloc_cases (left + 1)).1.paging
  rw [h.alloc_failed (Nat.succ_ne_zero left) hnull, allocLoop] at hinv ⊢
  rw [obtained, obtainedLoop]
  simp only [if_neg hsome, if_pos hresult] at hinv ⊢
  rcases h.paging.source.wf.alloc 1 with ⟨hwf, htotal⟩
  -- the allocator is only drawn from
  have hpmm : BlockWf (pagingMapPage pmmAllocBlock (pmmAllocBlock st.paging.pmm).1
        st.nextFreePage kernelFlags
        { st.paging with pmm := (pmmAllocBlock st.paging.pmm).2 }).2.pmm ∧
      (pagingMapPage pmmAllocBlock (pmmAllocBlock st.paging.pmm).1 st.nextFreePage kernelFlags
        { st.paging with pmm := (pmmAllocBlock st.paging.pmm).2 }).2.pmm.totalBlocks =
          st.paging.pmm.totalBlocks :=
    pagingMapPage_keeps (P := fun _ s => BlockWf s ∧ s.totalBlocks = st.paging.pmm.totalBlocks)
      (fun _ s hs => ⟨(hs.1.alloc 1).1, (hs.1.alloc 1).2.trans hs.2⟩) _ _ _ ⟨hwf, htotal⟩
  have hin := (alloc_unused h.paging.source.wf hsome).2
  rw [← hpmm.2] at hin
  exact h.rolledBack_freed hinv hpmm.1 hsome hin

/-- **A failed call in a state with the invariant.** -/
theorem VmmInv.rolledBack_iff (h : VmmInv st) (left : Nat)
    (hnull : (vmmAllocPages (left + 1) st).1 = 0) :
    RolledBack st (vmmAllocPages (left + 1) st).2 (obtained (left + 1) st) ↔
      ¬Ready pmmAllocBlock (st.paging.missing st.nextFreePage + 1) st.paging.pmm ∨
        st.nextFreePage = 0 ∧ pagingIsPagePresent pmmAllocBlock st.paging 0 = true ∧
          pagingGetPhysicalAddress pmmAllocBlock st.paging 0 = (pmmAllocBlock st.paging.pmm).1 := by
  rcases pmmSource_supplies.supply st.paging.pmm _ h.paging.source with
    ⟨hzero, _⟩ | ⟨hsome, hbalign, hblow, _, hsource⟩
  · -- there is no block for the page
    have hinv := (h.alloc_cases (left + 1)).1.paging
    rw [h.alloc_failed (Nat.succ_ne_zero left) hnull, allocLoop] at hinv ⊢
    rw [obtained, obtainedLoop]
    simp only [if_pos hzero] at hinv ⊢
    exact iff_of_true ⟨fun w => h.paging.sameTranslation hinv rfl, rfl, fun _ hb => by cases hb⟩
      (Or.inl (not_ready_of_null hzero))
  have hinv := h.paging.withPmm hsource fun _ hx => Or.inl hx
  have hmap := hinv.map_cases pmmSource_supplies st.nextFreePage kernelFlags hbalign
  rw [missing_withPmm] at hmap
  rcases hmap with ⟨hfail, hresult, taken', hgrown⟩ | ⟨hready, hresult, taken', hmapped⟩
  · -- there is none for its tables
    rw [h.first_page left hsome hnull hresult]
    exact iff_of_true (fun w => congrArg (Option.map alignPage) (hgrown.pages (virtPath w) rfl))
      (Or.inl fun hready => hfail hready.2)
  have hboth : Ready pmmAllocBlock (st.paging.missing st.nextFreePage + 1) st.paging.pmm :=
    ⟨hsome, hready⟩
  rw [or_iff_right (not_not.mpr hboth)]
  by_cases hnext : st.nextFreePage = 0
  · -- the page at 0 is mapped, and the result is taken for a failure
    rw [h.first_page left hsome hnull (hresult.trans hnext), and_iff_right hnext]
    have hb64 : (pmmAllocBlock st.paging.pmm).1 < 2 ^ 64 := by
      unfold Low at hblow
      omega
    refine (mapped_frames_iff hmapped hbalign hb64).trans ?_
    rw [hnext]
    exact h.paging.frame_eq_some_iff rfl
  · rcases h.first_block_used left hboth hnext with ⟨hmem, hused⟩
    refine iff_of_false ?_ fun hcond => hnext hcond.1
    intro hback
    have hfree := hback.blocks _ hmem
    rw [h.alloc_failed (Nat.succ_ne_zero left) hnull, hused] at hfree
    cases hfree

end Failure

/-- **Failed page allocation.**  In every state the kernel reaches, a call of
`vmm_alloc_pages` that returns `NULL` is rolled back if and only if no pages were
asked for; or there are no blocks for the first page and the tables it lacks; or
`next_free_page` is 0 and the page there was mapped to the very block that the call
obtains first. -/
theorem vmm_alloc_rollback_iff (mem : ByteMem) (pmm : PmmState) (hwf : BlockWf pmm)
    (hsmall : pmm.totalBlocks ≤ 2 ^ 35) (hinit : (pmmAllocBlock pmm).1 ≠ 0) (st : VmmState)
    (hrun : ReflTransGen KernelStep (vmmInit (.start mem pmm)) st) (count : Nat)
    (hnull : (vmmAllocPages count st).1 = 0) :
    RolledBack st (vmmAllocPages count st).2 (obtained count st) ↔
      count = 0 ∨
        ¬Ready pmmAllocBlock (st.paging.missing st.nextFreePage + 1) st.paging.pmm ∨
        st.nextFreePage = 0 ∧ pagingIsPagePresent pmmAllocBlock st.paging 0 = true ∧
          pagingGetPhysicalAddress pmmAllocBlock st.paging 0 = (pmmAllocBlock st.paging.pmm).1 := by
  have h := kernel_run hwf hsmall hinit hrun
  cases count with
  | zero =>
    rw [vmmAllocPages, if_pos rfl]
    exact iff_of_true ⟨fun w => h.paging.sameTranslation h.paging rfl, rfl,
      fun _ hb => by cases hb⟩ (Or.inl rfl)
  | succ left =>
    rw [h.rolledBack_iff left hnull]
    exact (or_iff_right (Nat.succ_ne_zero left)).symm

/-- There is no block left after `vmm_init`. -/
theorem vmm_alloc_rollback_empty :
    RolledBack fiveInit (vmmAllocPages 1 fiveInit).2 (obtained 1 fiveInit) := by
  have hempty : (vmmAllocPages 1 fiveInit).1 = 0 ∧ (pmmAllocBlock fiveInit.paging.pmm).1 = 0 := by
    rw [fiveInit_eq]
    decide +kernel
  have hiff := vmm_alloc_rollback_iff (fun _ => 0) fiveBlocks fiveBlocks_wf (by decide)
    (by decide +kernel) fiveInit .refl 1 hempty.1
  exact hiff.mpr (Or.inr (Or.inl (not_ready_of_null hempty.2)))

/-- A call that asks for more pages than there are addresses fails, and the block of
its first page stays in use. -/
theorem vmmInit_alloc_leaks {pmm : PmmState} (mem : ByteMem) (hwf : BlockWf pmm)
    (hsmall : pmm.totalBlocks ≤ 2 ^ 35) (hready : Ready pmmAllocBlock 1544 pmm) {left : Nat}
    (hleft : 2 ^ 35 ≤ left) :
    (vmmAllocPages (left + 1) (vmmInit (.start mem pmm))).1 = 0 ∧
      ∃ b ∈ obtained (left + 1) (vmmInit (.start mem pmm)),
        (vmmAllocPages (left + 1) (vmmInit (.start mem pmm))).2.paging.pmm.isUsed
          (b / blockSize) = true := by
  have h := vmmInit_inv mem hwf hsmall hready.1
  have hinit := (vmmInit_ready mem hwf hsmall 4 hready).2
  have hnext : (vmmInit (.start mem pmm)).nextFreePage = kernelVirtualBase := rfl
  generalize vmmInit (.start mem pmm) = st at *
  have hnull : (vmmAllocPages (left + 1) st).1 = 0 := by
    rcases h.alloc_cases (left + 1) with ⟨_, hnull | ⟨_, hhigh, _, hend, _⟩⟩
    · exact hnull
    · unfold kernelVirtualBase at hhigh
      omega
  have hthree : st.paging.missing st.nextFreePage ≤ 3 :=
    missingFrom_le st.paging [] (tablePath st.nextFreePage)
  have hne : st.nextFreePage ≠ 0 := by
    rw [hnext]
    decide
  rcases h.first_block_used left (hinit.mono (by omega)) hne with ⟨hmem, hused⟩
  refine ⟨hnull, _, hmem, ?_⟩
  rw [h.alloc_failed (Nat.succ_ne_zero left) hnull]
  exact hused

theorem vmm_alloc_leaks_block :
    (vmmAllocPages (2 ^ 35 + 1) (vmmInit (.start (fun _ => 0) sixteenMegabytes))).1 = 0 ∧
      ∃ b ∈ obtained (2 ^ 35 + 1) (vmmInit (.start (fun _ => 0) sixteenMegabytes)),
        (vmmAllocPages (2 ^ 35 + 1)
          (vmmInit (.start (fun _ => 0) sixteenMegabytes))).2.paging.pmm.isUsed
            (b / blockSize) = true := by
  rcases sixteenMegabytes_ready with ⟨hwf, hsmall, hready⟩
  exact vmmInit_alloc_leaks (fun _ => 0) hwf hsmall (hready.mono (by decide)) (Nat.le_refl _)

end FarouKernel.Ports.KernelVmm
