import FarouKernel.Ports.KernelVmmReach

/-!
# Changing the rights of a page

`vmm_protect_page` asks `paging_get_physical_address` for the entry of the page,
which returns the frame of the page.  So it changes the low bits of the first word
of the page itself, and the entry stays as it is.  The call does what it should
exactly if there is nothing to do: the entry has the flags already, and so has the
first word of the page, or else the frame is the one at 0, which the code takes for
a missing entry.
-/

namespace FarouKernel.Ports.KernelVmm

open Relation Verified ByteMem PageTables Ports.Paging Ports.Block

/-- The word in which the walk of the tables for `virt` ends. -/
def lastEntry (st : PagingState PmmState) (virt : Nat) : Nat :=
  let pt := lastTable pmmAllocBlock false 0 virt st
  pt.2.entry pt.1 (ptIndex virt)

/-- The frame in that word. -/
def frameOf (st : PagingState PmmState) (virt : Nat) : Nat := alignPage (lastEntry st virt)

/-- The entry of the page has its old frame and the new flags, and neither the
other pages nor the bytes of the page have changed. -/
structure OnlyRights (st st' : VmmState) (virt flags : Nat) : Prop where
  entry : lastEntry st'.paging virt =
    lastEntry st.paging virt &&& not64 0xFFF ||| flags &&& 0xFFF
  others : ∀ w, ¬SamePage w virt → SameTranslation pmmAllocBlock st.paging st'.paging w
  contents : ∀ x, InPage (frameOf st.paging virt) x →
    st'.paging.mem x = st.paging.mem x

section Protect

variable {st : VmmState} {virt flags : Nat}

/-- A word with new low bits. -/
theorem and_or_flags {x : Nat} (hx : x < 2 ^ 64) (flags : Nat) :
    x &&& not64 0xFFF ||| flags &&& 0xFFF = 2 ^ 12 * (x / 2 ^ 12) + flags % 2 ^ 12 := by
  have hlow : flags % 2 ^ 12 < 2 ^ 12 := Nat.mod_lt _ (by decide)
  have haligned : x &&& not64 0xFFF = x / 2 ^ 12 * 2 ^ 12 :=
    and_not64_lowMask hx (show 12 ≤ 64 by decide)
  have hflags : flags &&& 0xFFF = flags % 2 ^ 12 := Nat.and_two_pow_sub_one_eq_mod flags 12
  rw [haligned, hflags, Nat.mul_comm, Nat.two_pow_add_eq_or_of_lt hlow]

theorem and_or_flags_eq_self {x : Nat} (hx : x < 2 ^ 64) (flags : Nat) :
    x &&& not64 0xFFF ||| flags &&& 0xFFF = x ↔ x % 4096 = flags % 4096 := by
  rw [and_or_flags hx]
  omega

/-- The lookup of a page that is mapped returns its frame. -/
theorem getPhysicalAddress_eq_frameOf (haligned : virt % 4096 = 0)
    (hpresent : pagingIsPagePresent pmmAllocBlock st.paging virt = true) :
    pagingGetPhysicalAddress pmmAllocBlock st.paging virt = frameOf st.paging virt := by
  rw [pagingIsPagePresent] at hpresent
  rw [pagingGetPhysicalAddress, and_not_pageMask, haligned, Nat.or_zero]
  split
  · rename_i hnull
    rw [if_pos hnull] at hpresent
    cases hpresent
  · rfl

/-- The call changes the first word of the page. -/
theorem vmmProtectPage_mapped (haligned : virt % 4096 = 0)
    (hpresent : pagingIsPagePresent pmmAllocBlock st.paging virt = true)
    (hframe : frameOf st.paging virt < kernelVirtualBase) (flags : Nat) :
    vmmProtectPage virt flags st =
      if frameOf st.paging virt = 0 then st
      else ⟨⟨write64 st.paging.mem (frameOf st.paging virt)
        (read64 st.paging.mem (frameOf st.paging virt) &&& not64 0xFFF ||| flags &&& 0xFFF),
        st.paging.pml4, st.paging.pmm⟩, st.nextFreePage⟩ := by
  have hcell : cellOf (frameOf st.paging virt + 8 * 0) = frameOf st.paging virt := by
    rw [Nat.mul_zero, Nat.add_zero, cellOf, if_neg (Nat.not_le.mpr hframe)]
  rw [vmmProtectPage, if_neg (by simp [isPageAligned_iff, haligned]),
    getPhysicalAddress_eq_frameOf haligned hpresent]
  by_cases hzero : frameOf st.paging virt = 0
  · rw [if_neg (not_not.mpr hzero), if_pos hzero]
  · rw [if_pos hzero, if_neg hzero]
    simp only [PagingState.setEntry, PagingState.entry, hcell]

/-- A call that changes nothing. -/
theorem onlyRights_self_iff :
    OnlyRights st st virt flags ↔ lastEntry st.paging virt % 4096 = flags % 4096 := by
  have hword : lastEntry st.paging virt < 2 ^ 64 := read64_lt _ _
  constructor
  · intro hrights
    exact (and_or_flags_eq_self hword flags).mp hrights.entry.symm
  · intro hflags
    exact ⟨((and_or_flags_eq_self hword flags).mpr hflags).symm,
      fun _ _ => ⟨rfl, rfl, fun _ _ _ => rfl⟩, fun _ _ => rfl⟩

end Protect

/-- **Changing rights.**  In every state, for every mapped page with a frame below
`KERNEL_VIRTUAL_BASE`, `vmm_protect_page` sets the flags of the entry and changes
nothing else, if and only if the entry has the flags already and so has the first
word of the page, or the frame is the one at 0. -/
theorem vmm_protect_only_rights_iff (st : VmmState) (virt flags : Nat)
    (haligned : virt % 4096 = 0)
    (hpresent : pagingIsPagePresent pmmAllocBlock st.paging virt = true)
    (hframe : frameOf st.paging virt < kernelVirtualBase) :
    OnlyRights st (vmmProtectPage virt flags st) virt flags ↔
      lastEntry st.paging virt % 4096 = flags % 4096 ∧
        (frameOf st.paging virt = 0 ∨
          read64 st.paging.mem (frameOf st.paging virt) % 4096 = flags % 4096) := by
  have hfirst := read64_lt st.paging.mem (frameOf st.paging virt)
  rw [vmmProtectPage_mapped haligned hpresent hframe flags]
  by_cases hzero : frameOf st.paging virt = 0
  · rw [if_pos hzero, onlyRights_self_iff]
    exact (and_iff_left (Or.inl hzero)).symm
  rw [if_neg hzero]
  by_cases hsame : read64 st.paging.mem (frameOf st.paging virt) % 4096 = flags % 4096
  · -- the word that is stored is the one that was there
    rw [(and_or_flags_eq_self hfirst flags).mpr hsame, write64_read64_same]
    exact onlyRights_self_iff.trans (and_iff_left (Or.inr hsame)).symm
  · refine iff_of_false ?_ fun hcond => hcond.2.elim hzero hsame
    intro hrights
    have hread := read64_congr fun x hlo hhi =>
      hrights.contents x ⟨hlo, Nat.lt_of_lt_of_le hhi (Nat.add_le_add_left (by decide) _)⟩
    have hnew : read64 st.paging.mem (frameOf st.paging virt) &&& not64 0xFFF |||
        flags &&& 0xFFF < 2 ^ 64 := by
      rw [and_or_flags hfirst]
      omega
    rw [read64_write64_of_lt hnew] at hread
    exact hsame ((and_or_flags_eq_self hfirst flags).mp hread)

/-- A page is mapped to the frame at 0x9000, and a first call with its own flags
has stored them in its first word: the second call changes nothing. -/
theorem vmm_protect_second :
    ∃ st, st = vmmProtectPage 0x1000 3 (vmmMapPage 0x9000 0x1000 3 fiveInit).2 ∧
      frameOf st.paging 0x1000 = 0x9000 ∧ OnlyRights st (vmmProtectPage 0x1000 3 st) 0x1000 3 := by
  refine ⟨_, rfl, ?_⟩
  generalize hst : vmmProtectPage 0x1000 3 (vmmMapPage 0x9000 0x1000 3 fiveInit).2 = st
  have hentry : pagingIsPagePresent pmmAllocBlock st.paging 0x1000 = true ∧
      lastEntry st.paging 0x1000 = 0x9003 ∧ read64 st.paging.mem 0x9000 = 3 := by
    rw [← hst, fiveInit_eq]
    decide +kernel
  rcases hentry with ⟨hpresent, hlast, hword⟩
  have hframe : frameOf st.paging 0x1000 = 0x9000 := by
    rw [frameOf, hlast]
    decide
  refine ⟨hframe, (vmm_protect_only_rights_iff st 0x1000 3 rfl hpresent ?_).mpr ⟨?_, Or.inr ?_⟩⟩
  · rw [hframe]
    decide
  · rw [hlast]
  · rw [hframe, hword]

/-- A page is mapped with the flags 3 and is to be made read-only: its entry still
has the flags 3, and the first byte of the page is 1. -/
theorem vmm_protect_writes_page :
    ReflTransGen KernelStep fiveInit (vmmMapPage 0x9000 0x1000 3 fiveInit).2 ∧
      lastEntry (vmmProtectPage 0x1000 1 (vmmMapPage 0x9000 0x1000 3 fiveInit).2).paging 0x1000 =
        0x9003 ∧
      (vmmProtectPage 0x1000 1 (vmmMapPage 0x9000 0x1000 3 fiveInit).2).paging.mem 0x9000 =
        1 := by
  refine ⟨.single (KernelStep.map _ _ _ _), ?_⟩
  rw [fiveInit_eq]
  decide +kernel

end FarouKernel.Ports.KernelVmm
