import FarouKernel.Ports.VmmRuns

/-!
# Failed mappings

`vmm_map_page` returns `false` in one situation only: `pmm_alloc_frame` gave it frame
0 for a missing table.  The address of that frame is 0, `vmm_get_next_level` takes it
for a failure, and nobody gives the frame back.  Tables that the same call made
before stay linked as well.  So a call that fails is never without effect; whether it
fails depends on frame 0 being free and on how many frames come before it.
-/

namespace FarouKernel.Ports.Vmm

open Relation Verified ByteMem Radix Ports.Memory Ports.Pmm

/-- A step of the virtual memory manager or of another client of the frame
allocator, who may free frame 0 like any other. -/
inductive OpenStep (root : Nat) : Machine → Machine → Prop
  | call {s s' : Machine} (hstep : MapStep root s s') : OpenStep root s s'
  | client {s s' : Machine} (hstep : ClientStep root s s') : OpenStep root s s'
  | freeZero {s s' : Machine} (htable : ¬TableFrame s root 0) (hbitmap : ¬s.HoldsBitmap 0)
      (hcall : pmmFreeFrame 0 s = .ok () s') : OpenStep root s s'

/-- The tree, the translation and the frame allocator are the same in both states. -/
structure Unchanged (root : Nat) (s s' : Machine) : Prop where
  tree : ∀ q, q.length ≤ 4 → entryAt s' root q = entryAt s root q
  translation : ∀ w, translate s' root w = translate s root w
  bitmap : ∀ j, j < s.bitmapSizeQwords → s'.words j = s.words j
  usedFrames : s'.usedFrames = s.usedFrames

section

variable {s s' : Machine} {root : Nat} {others : Nat → Bool}

/-- Every step, a failed mapping included, leaves an address space. -/
theorem AddressSpace.openStep (h : AddressSpace root others s) (hstep : OpenStep root s s') :
    ∃ others', AddressSpace root others' s' := by
  cases hstep with
  | call hstep =>
    cases hstep with
    | map hv hp hcall =>
      rcases vmmMapPage_cases h _ hv hp with
        ⟨t, hrun, _⟩ | ⟨t, hrun, _, hspace, _⟩ | ⟨_, t, hrun, _, _, hspace, _⟩
      · cases hrun.symm.trans hcall
      · cases hrun.symm.trans hcall
        exact ⟨_, hspace⟩
      · cases hrun.symm.trans hcall
        exact ⟨others, hspace⟩
    | unmap hv hcall =>
      obtain ⟨t, hrun, hspace, _⟩ := h.unmap hv
      cases hrun.symm.trans hcall
      exact ⟨others, hspace⟩
  | client hstep =>
    obtain ⟨⟨others', hspace, _⟩, _⟩ := h.client hstep
    exact ⟨others', hspace⟩
  | freeZero htable hbitmap hcall =>
    rw [← Nat.zero_div 4096] at htable hbitmap
    exact ⟨_, (h.release htable hbitmap hcall).1⟩

theorem AddressSpace.openRun {s0 : Machine} (h : AddressSpace root others s0)
    (hrun : ReflTransGen (OpenStep root) s0 s) : ∃ others', AddressSpace root others' s :=
  run_invariant (fun s => ∃ others', AddressSpace root others' s)
    (fun _ _ ⟨_, hspace⟩ hstep => hspace.openStep hstep) hrun ⟨others, h⟩

/-- A bitmap in which frame 0 was free and now is not has changed. -/
theorem not_unchanged_of_zero (hsize : 0 < s.bitmapSizeQwords) (hfree : s.frameUsed 0 = false)
    (hused : s'.frameUsed 0 = true) : ¬Unchanged root s s' := by
  intro h
  have hsame : s'.frameUsed 0 = s.frameUsed 0 := bitAt_congr (h.bitmap 0 hsize)
  rw [hused, hfree] at hsame
  cases hsame

end

/-- **When a failed mapping is atomic.**  In every state of a run, a call of
`vmm_map_page` that returns `false` leaves everything as it was exactly if it cannot
return `false`: frame 0 is in use, or there are enough free frames before it for the
tables that are missing on the path of the page. -/
theorem vmm_failed_map_atomic_iff (root : Nat) (s0 s : Machine) (others : Nat → Bool)
    (v p flags : Nat) (hstart : AddressSpace root others s0)
    (hrun : ReflTransGen (OpenStep root) s0 s) (hv : v % 4096 = 0) (hp : p % 4096 = 0) :
    (∀ s', vmmMapPage root v p flags s = .ok false s' → Unchanged root s s') ↔
      s.SparesZero (missingFor s root v) := by
  obtain ⟨others', h⟩ := hstart.openRun hrun
  have hcovered := h.wellFormed.covered
  rcases vmmMapPage_cases h flags hv hp with
    ⟨t, hcall, hspared⟩ | ⟨t, hcall, hlost, _, _, hused⟩ | ⟨_, t, hcall, hspared, rfl, _⟩
  · refine iff_of_true (fun s' hfalse => ?_) hspared
    cases hcall.symm.trans hfalse
  · refine iff_of_false (fun hatomic => ?_) hlost
    have hfree : s.frameUsed 0 = false := by
      rw [← Bool.not_eq_true]
      exact fun hzero => hlost (Or.inl hzero)
    exact not_unchanged_of_zero (by omega) hfree hused (hatomic t hcall)
  · refine iff_of_true (fun s' hfalse => ?_) hspared
    cases hcall.symm.trans hfalse

/-- With frame 0 in use, the call for a first page does not fail. -/
theorem vmm_failed_map_atomic_wide :
    ∃ s0, FreshSpace 0x1000 s0 ∧
      ∀ s', vmmMapPage 0x1000 0x400000 0x5000 0 s0 = .ok false s' → Unchanged 0x1000 s0 s' := by
  obtain ⟨s0, _, hfresh, _⟩ := wideMemmap_mapped
  exact ⟨s0, hfresh, (vmm_failed_map_atomic_iff 0x1000 s0 s0 _ 0x400000 0x5000 0
    hfresh.emptySpace.addressSpace .refl rfl rfl).mpr (Or.inl hfresh.zeroUsed)⟩

/-- Two usable pages, at address 0 and at 1 MiB.  The second one gets the bitmap. -/
def zeroMemmap : List MemmapEntry := [⟨0, 0x1000, .usable⟩, ⟨0x100000, 0x1000, .usable⟩]

/-- After `memory_init` on this machine, with the reserved frame 1 as an empty top
table, the first mapping fails, and frame 0 is lost to it. -/
theorem vmm_failed_map_takes_zero :
    ∃ s0 s1, memoryInitPmm kernelVmaOffset zeroMemmap Machine.zero = .ok () s0 ∧
      EmptySpace 0x1000 s0 ∧ vmmMapPage 0x1000 0x400000 0x5000 0 s0 = .ok false s1 ∧
      s0.frameUsed 0 = false ∧ s1.frameUsed 0 = true ∧
      s1.usedFrames = s0.usedFrames + 1 ∧ ¬Unchanged 0x1000 s0 s1 := by
  have hcheck : (memoryInitPmm kernelVmaOffset zeroMemmap Machine.zero).test (fun _ s =>
      decide (s.highestFrame = 256 ∧ s.bitmapSizeQwords = 5 ∧ s.frameUsed 0 = false ∧
        s.frameUsed 1 = true ∧ ¬s.HoldsBitmap 1) &&
      (vmmMapPage 0x1000 0x400000 0x5000 0 s).test fun mapped s1 =>
        !mapped && decide (s1.frameUsed 0 = true ∧ s1.usedFrames = s.usedFrames + 1)) = true := by
    decide +kernel
  obtain ⟨_, s0, hinit, hcheck⟩ := Outcome.exists_of_test hcheck
  simp only [Bool.and_eq_true, decide_eq_true_eq] at hcheck
  obtain ⟨⟨hhighest, hsize, hfree, hused, hbitmap⟩, hcheck⟩ := hcheck
  obtain ⟨mapped, s1, hmap, hcheck⟩ := Outcome.exists_of_test hcheck
  simp only [Bool.and_eq_true, Bool.not_eq_eq_eq_not, Bool.not_true, decide_eq_true_eq] at hcheck
  obtain ⟨rfl, hused1, hcount⟩ := hcheck
  have hrange : InRange zeroMemmap := by
    intro e he
    simp only [zeroMemmap, List.mem_cons, List.not_mem_nil, or_false] at he
    rcases he with rfl | rfl <;> decide
  have hempty : EmptySpace 0x1000 s0 :=
    emptySpace_of_memoryInitPmm hrange hinit (by omega) (by omega) hused hbitmap
  exact ⟨s0, s1, hinit, hempty, hmap, hfree, hused1, hcount,
    not_unchanged_of_zero (by omega) hfree hused1⟩

end FarouKernel.Ports.Vmm
