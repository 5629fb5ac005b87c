import FarouKernel.Ports.MemoryInit
import FarouKernel.Verified.Runs

/-!
# Runs of the frame allocator

A run starts from what `memory_init` leaves and takes any number of steps: a
`pmm_alloc_frame`, a `pmm_free_frame` of any address, or stores of other code
into physical memory outside the bitmap.  The configuration carries the
addresses that were handed out and not freed since.

The one thing the steps may not do is free a frame of the bitmap itself.
`pmm_free_frame` does not refuse it, and the allocation that gets the frame
clears the bitmap: `pmm_free_bitmap_frame` at the end of the file is such a run.
-/

namespace FarouKernel.Ports.Pmm

open Relation Verified ByteMem Ports.Memory

/-- The addresses handed out and not freed since, and the machine. -/
structure PmmConfig where
  held : List Nat
  machine : Machine

/-- The steps of a run: allocations, frees of any frame but those of the bitmap, and stores
outside the bitmap. -/
inductive PmmStep : PmmConfig → PmmConfig → Prop
  | alloc {c : PmmConfig} {physAddr : Nat} {s' : Machine}
      (hcall : pmmAllocFrame c.machine = .ok physAddr s') :
      PmmStep c ⟨physAddr :: c.held, s'⟩
  | free {c : PmmConfig} {physAddr : Nat} {s' : Machine}
      (hbitmap : ¬c.machine.HoldsBitmap (physAddr / 4096))
      (hcall : pmmFreeFrame physAddr c.machine = .ok () s') :
      PmmStep c ⟨c.held.erase physAddr, s'⟩
  | store {c : PmmConfig} {m : ByteMem}
      (hstore : ∀ x, c.machine.InBitmap x → m x = c.machine.mem x) :
      PmmStep c ⟨c.held, c.machine.withMem m⟩

/-- The invariant of the runs: every address held is that of a used frame. -/
structure PmmInv (c : PmmConfig) : Prop where
  wellFormed : PmmWf c.machine
  nodup : c.held.Nodup
  used : ∀ p ∈ c.held, ∃ f, p = f * 4096 ∧ f ≤ c.machine.highestFrame ∧
    c.machine.frameUsed f = true

variable {c : PmmConfig} {physAddr : Nat} {s' s : Machine}

/-- The address of a free frame is not held. -/
theorem PmmInv.not_held (h : PmmInv c) {f : Nat} (hfree : c.machine.frameUsed f = false) :
    f * 4096 ∉ c.held := by
  intro hmem
  obtain ⟨g, hg, _, hused⟩ := h.used _ hmem
  have hsame : f = g := by omega
  rw [hsame, hused] at hfree
  exact Bool.noConfusion hfree

theorem PmmInv.alloc (h : PmmInv c) (hcall : pmmAllocFrame c.machine = .ok physAddr s') :
    PmmInv ⟨physAddr :: c.held, s'⟩ := by
  rcases pmmAllocFrame_run h.wellFormed with
    ⟨_, hpanic⟩ | ⟨f, m, ht, _, hrun⟩
  · cases hpanic.symm.trans hcall
  · cases hrun.symm.trans hcall
    have hcovered := h.wellFormed.covered
    have hle := ht.le
    refine ⟨h.wellFormed.taken ht, List.nodup_cons.mpr ⟨h.not_held ht.free, h.nodup⟩, ?_⟩
    intro p hp
    rcases List.mem_cons.mp hp with rfl | hp
    · exact ⟨f, rfl, hle, by rw [ht.bits f (by omega)]; simp⟩
    · obtain ⟨g, hg, hgle, hgused⟩ := h.used p hp
      exact ⟨g, hg, hgle, by rw [ht.bits g (by omega), hgused, Bool.true_or]⟩

theorem PmmInv.free (h : PmmInv c) (hbitmap : ¬c.machine.HoldsBitmap (physAddr / 4096))
    (hcall : pmmFreeFrame physAddr c.machine = .ok () s') : PmmInv ⟨c.held.erase physAddr, s'⟩ := by
  obtain ⟨f, rfl, hle, hused⟩ := pmmFreeFrame_ok h.wellFormed hcall
  obtain ⟨m, hrun, _, hbits⟩ := pmmFreeFrame_run h.wellFormed hle hused
  cases hrun.symm.trans hcall
  rw [Nat.mul_div_cancel f (by decide)] at hbitmap
  refine ⟨h.wellFormed.released hle hused hbitmap hbits, h.nodup.erase _, ?_⟩
  intro p hp
  obtain ⟨hne, hp⟩ := h.nodup.mem_erase_iff.mp hp
  obtain ⟨g, rfl, hgle, hgused⟩ := h.used p hp
  have hgf : g ≠ f := fun heq => hne (heq ▸ rfl)
  refine ⟨g, rfl, hgle, ?_⟩
  rw [hbits g, hgused]
  simp [hgf]

theorem PmmInv.store (h : PmmInv c) {m : ByteMem}
    (hstore : ∀ x, c.machine.InBitmap x → m x = c.machine.mem x) :
    PmmInv ⟨c.held, c.machine.withMem m⟩ := by
  refine ⟨h.wellFormed.withMem hstore, h.nodup, ?_⟩
  intro p hp
  obtain ⟨f, hf, hle, hused⟩ := h.used p hp
  have hcovered := h.wellFormed.covered
  exact ⟨f, hf, hle, by rw [frameUsed_congr hstore (by omega), hused]⟩

/-- One step keeps the invariant. -/
theorem PmmInv.step {c' : PmmConfig} (h : PmmInv c) (hstep : PmmStep c c') : PmmInv c' := by
  cases hstep with
  | alloc hcall => exact h.alloc hcall
  | free hbitmap hcall => exact h.free hbitmap hcall
  | store hstore => exact h.store hstore

/-- Every configuration of a run from `memory_init` satisfies the invariant. -/
theorem pmmInv_run {hhdmOffset : Nat} {memmap : List MemmapEntry} {s0 : Machine}
    (hrange : InRange memmap) (hinit : memoryInitPmm hhdmOffset memmap s = .ok () s0)
    (hrun : ReflTransGen PmmStep ⟨[], s0⟩ c) : PmmInv c :=
  run_invariant PmmInv (fun _ _ h => h.step) hrun
    ⟨pmmWf_of_memoryInitPmm hrange hinit, List.nodup_nil, by simp⟩

/-- Exclusivity and accounting, in a configuration of a run. -/
structure FramesAccounted (c : PmmConfig) : Prop where
  counted : c.machine.usedFrames = c.machine.countUsed (c.machine.highestFrame + 1)
  padding : ∀ f, c.machine.highestFrame < f → f < 64 * c.machine.bitmapSizeQwords →
    c.machine.frameUsed f = true
  /-- An allocation takes a free frame that nobody holds. -/
  exclusive : ∀ physAddr s', pmmAllocFrame c.machine = .ok physAddr s' →
    ∃ f, physAddr = f * 4096 ∧ f ≤ c.machine.highestFrame ∧ c.machine.frameUsed f = false ∧
      physAddr ∉ c.held ∧ s'.frameUsed f = true ∧
      ∀ g, g ≠ f → g < 64 * c.machine.bitmapSizeQwords → s'.frameUsed g = c.machine.frameUsed g
  /-- Wherever the hint points, an allocation fails only when no frame is free. -/
  complete : ∀ hint,
    ((∀ f, f ≤ c.machine.highestFrame → c.machine.frameUsed f = true) →
      pmmAllocFrame { c.machine with lastAllocatedIndex := hint } =
        .panic "PMM: Out of physical memory!" { c.machine with lastAllocatedIndex := hint }) ∧
    ((∃ f, f ≤ c.machine.highestFrame ∧ c.machine.frameUsed f = false) →
      ∃ physAddr s', pmmAllocFrame { c.machine with lastAllocatedIndex := hint } =
        .ok physAddr s')
  /-- A free that returns clears one bit. -/
  released : ∀ physAddr s', pmmFreeFrame physAddr c.machine = .ok () s' →
    ∃ f, physAddr = f * 4096 ∧ f ≤ c.machine.highestFrame ∧ c.machine.frameUsed f = true ∧
      s'.frameUsed f = false ∧ ∀ g, g ≠ f → s'.frameUsed g = c.machine.frameUsed g
  /-- A second free stops the machine before anything is changed. -/
  doubleFree : ∀ f, f ≤ c.machine.highestFrame → c.machine.frameUsed f = false →
    pmmFreeFrame (f * 4096) c.machine =
      .panic "PMM: Attempted to free already free frame!" c.machine

/-- The hint is no part of what the allocator relies on. -/
theorem PmmWf.withHint (h : PmmWf s) (hint : Nat) : PmmWf { s with lastAllocatedIndex := hint } :=
  ⟨h.hhdm, h.covered, h.highest, h.padding, h.counted, h.storage⟩

theorem PmmInv.exclusive (h : PmmInv c) (hcall : pmmAllocFrame c.machine = .ok physAddr s') :
    ∃ f, physAddr = f * 4096 ∧ f ≤ c.machine.highestFrame ∧ c.machine.frameUsed f = false ∧
      physAddr ∉ c.held ∧ s'.frameUsed f = true ∧
      ∀ g, g ≠ f → g < 64 * c.machine.bitmapSizeQwords →
        s'.frameUsed g = c.machine.frameUsed g := by
  rcases pmmAllocFrame_run h.wellFormed with
    ⟨_, hpanic⟩ | ⟨f, m, ⟨hle, hfree, _, _, hbits⟩, _, hrun⟩
  · cases hpanic.symm.trans hcall
  · cases hrun.symm.trans hcall
    have hcovered := h.wellFormed.covered
    refine ⟨f, rfl, hle, hfree, h.not_held hfree, ?_, ?_⟩
    · rw [hbits f (by omega)]
      simp
    · intro g hne hg
      rw [hbits g hg]
      simp [hne]

theorem PmmWf.complete (h : PmmWf s) :
    ((∀ f, f ≤ s.highestFrame → s.frameUsed f = true) →
      pmmAllocFrame s = .panic "PMM: Out of physical memory!" s) ∧
    ((∃ f, f ≤ s.highestFrame ∧ s.frameUsed f = false) →
      ∃ physAddr s', pmmAllocFrame s = .ok physAddr s') := by
  rcases pmmAllocFrame_run h with ⟨hall, hpanic⟩ | ⟨f, m, ⟨hle, hfree, _⟩, _, hrun⟩
  · refine ⟨fun _ => hpanic, ?_⟩
    rintro ⟨f, hle, hfree⟩
    rw [hall f hle] at hfree
    exact Bool.noConfusion hfree
  · refine ⟨?_, fun _ => ⟨_, _, hrun⟩⟩
    intro hall
    rw [hall f hle] at hfree
    exact Bool.noConfusion hfree

theorem PmmInv.accounted (h : PmmInv c) : FramesAccounted c where
  counted := h.wellFormed.counted
  padding := h.wellFormed.padding
  exclusive _ _ hcall := h.exclusive hcall
  complete hint := (h.wellFormed.withHint hint).complete
  released physAddr s' hcall := by
    obtain ⟨f, hphys, hle, hused⟩ := pmmFreeFrame_ok h.wellFormed hcall
    obtain ⟨m, hrun, _, hbits⟩ := pmmFreeFrame_run h.wellFormed hle hused
    rw [hphys, hrun] at hcall
    cases hcall
    refine ⟨f, hphys, hle, hused, by simp [hbits f], ?_⟩
    intro g hne
    rw [hbits g]
    simp [hne]
  doubleFree _ hle hfree := pmmFreeFrame_free h.wellFormed hle hfree

/-- **The frame allocator accounts for its frames** in every run from
`memory_init` that frees no frame of the bitmap. -/
theorem pmm_run_accounted (hhdmOffset : Nat) (memmap : List MemmapEntry) (s s0 : Machine)
    (c : PmmConfig) (hrange : InRange memmap)
    (hinit : memoryInitPmm hhdmOffset memmap s = .ok () s0)
    (hrun : ReflTransGen PmmStep ⟨[], s0⟩ c) : FramesAccounted c :=
  (pmmInv_run hrange hinit hrun).accounted

/-- The run that allocates the only free frame of the small map. -/
theorem pmm_run_accounted_small :
    ∃ s0 s1, memoryInitPmm kernelVmaOffset smallMemmap Machine.zero = .ok () s0 ∧
      pmmAllocFrame s0 = .ok 0x101000 s1 ∧ FramesAccounted ⟨[0x101000], s1⟩ := by
  have hcheck : (memoryInitPmm kernelVmaOffset smallMemmap Machine.zero).test
      (fun _ s => (pmmAllocFrame s).test fun p _ => p == 0x101000) = true := by decide +kernel
  obtain ⟨_, s0, hinit, hcheck⟩ := Outcome.exists_of_test hcheck
  obtain ⟨p, s1, halloc, hp⟩ := Outcome.exists_of_test hcheck
  have hp : p = 0x101000 := by simpa using hp
  subst hp
  exact ⟨s0, s1, hinit, halloc, pmm_run_accounted kernelVmaOffset smallMemmap Machine.zero s0
    ⟨[0x101000], s1⟩ smallMemmap_inRange hinit (.single (PmmStep.alloc halloc))⟩

/-- Freeing the frame of the bitmap succeeds.  The next allocation hands the
frame out and clears the bitmap with it, while the counter says that almost all
frames are used. -/
theorem pmm_free_bitmap_frame :
    ∃ s0 s1 s2, memoryInitPmm kernelVmaOffset smallMemmap Machine.zero = .ok () s0 ∧
      pmmFreeFrame 0x100000 s0 = .ok () s1 ∧ pmmAllocFrame s1 = .ok 0x100000 s2 ∧
      s2.usedFrames = 257 ∧ s2.countUsed (s2.highestFrame + 1) = 0 := by
  have hcheck : (memoryInitPmm kernelVmaOffset smallMemmap Machine.zero).test (fun _ s =>
      (pmmFreeFrame 0x100000 s).test fun _ s => (pmmAllocFrame s).test fun p s =>
        p == 0x100000 && (s.usedFrames == 257 && s.countUsed (s.highestFrame + 1) == 0)) =
      true := by decide +kernel
  obtain ⟨_, s0, hinit, hcheck⟩ := Outcome.exists_of_test hcheck
  obtain ⟨_, s1, hfree, hcheck⟩ := Outcome.exists_of_test hcheck
  obtain ⟨p, s2, halloc, hcheck⟩ := Outcome.exists_of_test hcheck
  simp only [Bool.and_eq_true, beq_iff_eq] at hcheck
  obtain ⟨rfl, hused, hcount⟩ := hcheck
  exact ⟨s0, s1, s2, hinit, hfree, halloc, hused, hcount⟩

end FarouKernel.Ports.Pmm
