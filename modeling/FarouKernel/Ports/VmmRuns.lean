import FarouKernel.Ports.MemoryInit
import FarouKernel.Ports.VmmCalls
import FarouKernel.Verified.Runs

/-!
# Runs of the virtual memory manager

A run starts from an address space whose top table is empty.  Its steps are
calls of `vmm_map_page` and `vmm_unmap_page` and what other clients of the frame
allocator do: they take frames, free frames that are not tables, and store
outside the tables and the bitmap.

Two results hold for every run.  The calls implement updates of a map from pages
to frames (`vmm_run_refines`).  Without other clients, the tables are exactly
those that the mapped pages need, so unmapping everything restores the frame
allocator (`vmm_run_exact`).
-/

namespace FarouKernel.Ports.Vmm

open Relation Verified ByteMem Radix Ports.Memory Ports.Pmm

/-- An address space without pages: the top table is a used frame of zeros. -/
structure EmptySpace (root : Nat) (s : Machine) : Prop where
  wellFormed : PmmWf s
  width : s.highestFrame < 2 ^ 40
  rootFrame : ∃ f, root = f * 4096 ∧ f ≤ s.highestFrame ∧ s.frameUsed f = true ∧
    ¬s.HoldsBitmap f ∧ ∀ x, InFrame f x → s.mem x = 0

/-- The same, with frame 0 in use. -/
structure FreshSpace (root : Nat) (s : Machine) : Prop where
  wellFormed : PmmWf s
  width : s.highestFrame < 2 ^ 40
  zeroUsed : s.frameUsed 0 = true
  rootFrame : ∃ f, root = f * 4096 ∧ f ≤ s.highestFrame ∧ s.frameUsed f = true ∧
    ¬s.HoldsBitmap f ∧ ∀ x, InFrame f x → s.mem x = 0

variable {root : Nat} {s s0 : Machine}

theorem FreshSpace.emptySpace (h : FreshSpace root s) : EmptySpace root s :=
  ⟨h.wellFormed, h.width, h.rootFrame⟩

theorem EmptySpace.tree (h : EmptySpace root s) :
    PageTables.Tree tableOf 4 root s.mem ∧ ∀ q, entryAt s root q = none := by
  obtain ⟨f, rfl, _, _, _, hzero⟩ := h.rootFrame
  exact PageTables.tree_zero tableOf 4 (Nat.mul_mod_left f 4096)
    fun x hx => hzero x (inPage_iff.mp hx)

/-- To begin with, all used frames belong to others. -/
theorem EmptySpace.addressSpace (h : EmptySpace root s) : AddressSpace root s.frameUsed s := by
  obtain ⟨htree, hnone⟩ := h.tree
  obtain ⟨f, hf, hle, hused, hbitmap, _⟩ := h.rootFrame
  refine ⟨h.wellFormed, h.width, ⟨f, hf, hle, hused, hbitmap⟩, ?_, htree.unshared, ?_⟩
  · intro q a _ ha
    rw [hnone q] at ha
    cases ha
  · intro g _
    constructor
    · exact Or.inl
    · intro hcase
      rcases hcase with hg | ⟨q, a, _, ha, _⟩
      · exact hg
      · rw [hnone q] at ha
        cases ha

/-! ## Steps -/

/-- A step of another client of the frame allocator: it may free any frame but frame 0, the
tables and the bitmap, and store anywhere but in these two. -/
inductive ClientStep (root : Nat) : Machine → Machine → Prop
  | alloc {s s' : Machine} {physAddr : Nat} (hcall : pmmAllocFrame s = .ok physAddr s') :
      ClientStep root s s'
  | free {s s' : Machine} {physAddr : Nat} (hzero : physAddr ≠ 0)
      (htable : ¬TableFrame s root (physAddr / 4096))
      (hbitmap : ¬s.HoldsBitmap (physAddr / 4096))
      (hcall : pmmFreeFrame physAddr s = .ok () s') : ClientStep root s s'
  | store {s : Machine} {m : ByteMem} (hbitmap : ∀ x, s.InBitmap x → m x = s.mem x)
      (htables : ∀ f, TableFrame s root f → ∀ x, InFrame f x → m x = s.mem x) :
      ClientStep root s (s.withMem m)

/-- A call of the virtual memory manager. -/
inductive MapStep (root : Nat) : Machine → Machine → Prop
  | map {s s' : Machine} {v p flags : Nat} {mapped : Bool} (hv : v % 4096 = 0)
      (hp : p % 4096 = 0) (hcall : vmmMapPage root v p flags s = .ok mapped s') :
      MapStep root s s'
  | unmap {s s' : Machine} {v physAddr : Nat} (hv : v % 4096 = 0)
      (hcall : vmmUnmapPage root v s = .ok physAddr s') : MapStep root s s'

/-- A step of either. -/
def VmmStep (root : Nat) (s s' : Machine) : Prop := MapStep root s s' ∨ ClientStep root s s'

section Steps

variable {s s' : Machine} {root : Nat} {others : Nat → Bool}

/-- What other clients do leaves the tree alone. -/
theorem AddressSpace.client (h : AddressSpace root others s) (hstep : ClientStep root s s') :
    (∃ others', AddressSpace root others' s' ∧ (others 0 = true → others' 0 = true)) ∧
      ∀ r, r.length ≤ 4 → entryAt s' root r = entryAt s root r := by
  have hcovered := h.wellFormed.covered
  cases hstep with
  | alloc hcall =>
    rcases pmmAllocFrame_run h.wellFormed with
      ⟨_, hpanic⟩ | ⟨f, m, ht, _, hrun⟩
    · cases hpanic.symm.trans hcall
    · cases hrun.symm.trans hcall
      obtain ⟨hspace, hentry⟩ := h.take ht
      exact ⟨⟨_, hspace, fun hzero => by simp [hzero]⟩, hentry⟩
  | free hne htable hbitmap hcall =>
    obtain ⟨hspace, hentry⟩ := h.release htable hbitmap hcall
    obtain ⟨f, hf, _⟩ := pmmFreeFrame_ok h.wellFormed hcall
    refine ⟨⟨_, hspace, fun hzero => ?_⟩, hentry⟩
    have hother : ¬0 = f := by omega
    simp [hzero, hf, hother]
  | store hbitmap htables =>
    refine ⟨⟨others, h.outside (h.wellFormed.withMem hbitmap) ⟨rfl, rfl, rfl⟩ htables
      (fun _ _ => rfl) ?_, id⟩, (h.tree_agree htables).2⟩
    intro g hg
    rw [frameUsed_congr hbitmap (by omega)]
    exact h.used g hg

/-- A call that returns keeps the address space. -/
theorem AddressSpace.mapStep (h : AddressSpace root others s) (hzero : others 0 = true)
    (hstep : MapStep root s s') :
    AddressSpace root others s' ∧ SameLayout s s' ∧
      (Pruned 4 (entryAt s root) → Pruned 4 (entryAt s' root)) := by
  cases hstep with
  | map hv hp hcall =>
    rcases h.map hzero _ hv hp with ⟨t, hpanic⟩ | ⟨t, hrun, hspace, hlayout, hpruned, _⟩
    · cases hpanic.symm.trans hcall
    · cases hrun.symm.trans hcall
      exact ⟨hspace, hlayout, hpruned⟩
  | unmap hv hcall =>
    obtain ⟨t, hrun, hspace, hlayout, hpruned, _⟩ := h.unmap hv
    cases hrun.symm.trans hcall
    exact ⟨hspace, hlayout, hpruned⟩

end Steps

/-! ## The calls as updates of a map -/

/-- The address space behaves like a map from pages to frames with flags: a call changes
one page, and other clients none.  Its tables are used frames, each reached by one path. -/
structure SpaceRefines (root : Nat) (s : Machine) : Prop where
  map : ∀ v p flags, v % 4096 = 0 → p % 4096 = 0 →
    (∃ s', vmmMapPage root v p flags s = .panic "PMM: Out of physical memory!" s') ∨
      ∃ s', vmmMapPage root v p flags s = .ok true s' ∧ ∀ w, translate s' root w =
        if SamePage v w then some (p &&& pteAddrMask, flags &&& pteFlagsMask ||| ptePresent)
        else translate s root w
  unmap : ∀ v, v % 4096 = 0 →
    ∃ s', vmmUnmapPage root v s = .ok (((translate s root v).map Prod.fst).getD 0) s' ∧
      ∀ w, translate s' root w = if SamePage v w then none else translate s root w
  /-- No other client changes a translation. -/
  client : ∀ s', ClientStep root s s' → ∀ w, translate s' root w = translate s root w
  /-- Every present entry above the pages points to a used frame. -/
  tablesUsed : ∀ q a, q.length < 4 → entryAt s root q = some a →
    ∃ f, tableOf a = f * 4096 ∧ f ≤ s.highestFrame ∧ s.frameUsed f = true
  /-- No frame is the table of two entries. -/
  tablesApart : ∀ p q a b, p.length < 4 → q.length < 4 → entryAt s root p = some a →
    entryAt s root q = some b → tableOf a = tableOf b → p = q
  tablesNotRoot : ∀ q a, q.length < 4 → entryAt s root q = some a → tableOf a ≠ root

section Refinement

variable {s s' : Machine} {root : Nat} {others : Nat → Bool}

theorem AddressSpace.refines (h : AddressSpace root others s) (hzero : others 0 = true) :
    SpaceRefines root s where
  map v p flags hv hp := by
    rcases h.map hzero flags hv hp with hpanic | ⟨s', hrun, _, _, _, htranslate⟩
    · exact Or.inl hpanic
    · exact Or.inr ⟨s', hrun, htranslate⟩
  unmap v hv := by
    obtain ⟨s', hrun, _, _, _, htranslate⟩ := h.unmap hv
    exact ⟨s', hrun, htranslate⟩
  client s' hstep w := by
    rw [translate_eq, translate_eq, (h.client hstep).2 (pagePath w) (Nat.le_refl 4)]
  tablesUsed q a hq ha := by
    obtain ⟨f, hf, hle, _⟩ := h.tables q a hq ha
    exact ⟨f, hf, hle, (h.used f hle).mpr (Or.inr ⟨q, a, hq, ha, hf⟩)⟩
  tablesApart p q a b hp hq ha hb hab :=
    h.unshared p q (tableOf b) hp hq (hab ▸ tableAt_of_entryAt ha) (tableAt_of_entryAt hb)
  tablesNotRoot q a hq ha hroot := by
    have hreach : tableAt s root q = some root := by rw [tableAt_of_entryAt ha, hroot]
    exact walk_ne_nil ha (h.unshared q [] root hq (by decide) hreach rfl)

/-- The address space exists in every state of a run. -/
theorem addressSpace_run (hstart : FreshSpace root s0) (hrun : ReflTransGen (VmmStep root) s0 s) :
    ∃ others, AddressSpace root others s ∧ others 0 = true := by
  refine run_invariant (fun s => ∃ others, AddressSpace root others s ∧ others 0 = true)
    ?_ hrun ⟨s0.frameUsed, hstart.emptySpace.addressSpace, hstart.zeroUsed⟩
  rintro s t ⟨others, h, hzero⟩ (hstep | hstep)
  · exact ⟨others, (h.mapStep hzero hstep).1, hzero⟩
  · obtain ⟨⟨others', h', hkept⟩, _⟩ := h.client hstep
    exact ⟨others', h', hkept hzero⟩

end Refinement

/-- **Address-space refinement.**  In every state of a run, the two calls update
the translation at one page and leave the tables in order. -/
theorem vmm_run_refines (root : Nat) (s0 s : Machine) (hstart : FreshSpace root s0)
    (hrun : ReflTransGen (VmmStep root) s0 s) : SpaceRefines root s := by
  obtain ⟨others, h, hzero⟩ := addressSpace_run hstart hrun
  exact h.refines hzero

/-- After `memory_init` on a machine with empty memory, any used frame outside the bitmap
can serve as an empty top table. -/
theorem emptySpace_of_memoryInitPmm {hhdmOffset f : Nat} {memmap : List MemmapEntry}
    (hrange : InRange memmap) (hinit : memoryInitPmm hhdmOffset memmap Machine.zero = .ok () s0)
    (hwidth : s0.highestFrame < 2 ^ 40) (hle : f ≤ s0.highestFrame) (hused : s0.frameUsed f = true)
    (hbitmap : ¬s0.HoldsBitmap f) : EmptySpace (f * 4096) s0 := by
  obtain ⟨hpmm, _, hmem⟩ := memoryInitPmm_ok hrange hinit
  exact ⟨hpmm.wellFormed, hwidth, f, rfl, hle, hused, hbitmap,
    fun x hx => hmem x (not_inBitmap_of_inFrame hbitmap hx)⟩

/-- Eight usable pages at 128 MiB.  The bitmap takes the first two of them, and
the second of these holds the bits of the eight pages. -/
def wideMemmap : List MemmapEntry := [⟨0x8000000, 0x8000, .usable⟩]

/-- After `memory_init` a page can be mapped, in an address space with the reserved frame
1 as its top table.  Then the second frame of the bitmap is freed and taken again. -/
theorem wideMemmap_checked :
    ∃ s0 s1 s2 s3 a, memoryInitPmm kernelVmaOffset wideMemmap Machine.zero = .ok () s0 ∧
      s0.highestFrame = 32775 ∧ s0.frameUsed 0 = true ∧ s0.frameUsed 1 = true ∧
      ¬s0.HoldsBitmap 1 ∧ vmmMapPage 0x1000 0x400000 0x5000 0 s0 = .ok true s1 ∧
      (s1.frameUsed 0x8005 = false ∧ 0x8005 ≤ s1.highestFrame) ∧
      s1.frameUsed 0 = true ∧ s1.HoldsBitmap 0x8001 ∧ pmmFreeFrame 0x8001000 s1 = .ok () s2 ∧
      s2.frameUsed 0 = true ∧ pmmAllocFrame s2 = .ok 0x8001000 s3 ∧ s3.frameUsed 0 = true ∧
      entryAt s3 0x1000 [0] = some a ∧ s3.frameUsed (tableOf a / 4096) = false := by
  have hcheck : (memoryInitPmm kernelVmaOffset wideMemmap Machine.zero).test (fun _ s =>
      decide (s.highestFrame = 32775 ∧ s.frameUsed 0 = true ∧ s.frameUsed 1 = true ∧
        ¬s.HoldsBitmap 1) &&
      (vmmMapPage 0x1000 0x400000 0x5000 0 s).test fun mapped s1 => mapped &&
        decide (s1.frameUsed 0x8005 = false ∧ 0x8005 ≤ s1.highestFrame) && s1.frameUsed 0 &&
        decide (s1.HoldsBitmap 0x8001) && (pmmFreeFrame 0x8001000 s1).test fun _ s2 =>
          s2.frameUsed 0 && (pmmAllocFrame s2).test fun p s3 => p == 0x8001000 &&
            s3.frameUsed 0 && (entryAt s3 0x1000 [0]).any fun a =>
              !s3.frameUsed (tableOf a / 4096)) = true := by
    decide +kernel
  obtain ⟨_, s0, hinit, hcheck⟩ := Outcome.exists_of_test hcheck
  simp only [Bool.and_eq_true, decide_eq_true_eq] at hcheck
  obtain ⟨⟨hhighest, hzero, hused, hbitmap⟩, hcheck⟩ := hcheck
  obtain ⟨mapped, s1, hmap, hcheck⟩ := Outcome.exists_of_test hcheck
  simp only [Bool.and_eq_true, decide_eq_true_eq] at hcheck
  obtain ⟨⟨⟨⟨rfl, hroom⟩, hzero1⟩, hholds⟩, hcheck⟩ := hcheck
  obtain ⟨_, s2, hfree, hcheck⟩ := Outcome.exists_of_test hcheck
  obtain ⟨hzero2, hcheck⟩ := Bool.and_eq_true_iff.mp hcheck
  obtain ⟨p, s3, halloc, hcheck⟩ := Outcome.exists_of_test hcheck
  simp only [Bool.and_eq_true, beq_iff_eq, Option.any_eq_true] at hcheck
  obtain ⟨⟨rfl, hzero3⟩, a, ha, hunused⟩ := hcheck
  exact ⟨s0, s1, s2, s3, a, hinit, hhighest, hzero, hused, hbitmap, hmap, hroom, hzero1, hholds,
    hfree, hzero2, halloc, hzero3, ha, by simpa using hunused⟩

theorem wideMemmap_freshSpace
    (hinit : memoryInitPmm kernelVmaOffset wideMemmap Machine.zero = .ok () s0)
    (hhighest : s0.highestFrame = 32775) (hzero : s0.frameUsed 0 = true)
    (hused : s0.frameUsed 1 = true) (hbitmap : ¬s0.HoldsBitmap 1) : FreshSpace 0x1000 s0 := by
  have hrange : InRange wideMemmap := by
    intro e he
    rw [List.mem_singleton.mp he]
    decide
  have hempty : EmptySpace 0x1000 s0 :=
    emptySpace_of_memoryInitPmm hrange hinit (by omega) (by omega) hused hbitmap
  exact ⟨hempty.wellFormed, hempty.width, hzero, hempty.rootFrame⟩

theorem wideMemmap_mapped :
    ∃ s0 s1, FreshSpace 0x1000 s0 ∧ vmmMapPage 0x1000 0x400000 0x5000 0 s0 = .ok true s1 ∧
      s1.frameUsed 0x8005 = false ∧ 0x8005 ≤ s1.highestFrame := by
  obtain ⟨s0, s1, _, _, _, hinit, hhighest, hzero, hused, hbitmap, hmap, hroom, _⟩ :=
    wideMemmap_checked
  exact ⟨s0, s1, wideMemmap_freshSpace hinit hhighest hzero hused hbitmap, hmap, hroom⟩

/-- One page mapped in the fresh space. -/
theorem vmm_run_refines_wide :
    ∃ s0 s1, FreshSpace 0x1000 s0 ∧ vmmMapPage 0x1000 0x400000 0x5000 0 s0 = .ok true s1 ∧
      SpaceRefines 0x1000 s1 := by
  obtain ⟨s0, s1, hfresh, hmap, _⟩ := wideMemmap_mapped
  exact ⟨s0, s1, hfresh, hmap, vmm_run_refines 0x1000 s0 s1 hfresh
    (.single (Or.inl (MapStep.map rfl rfl hmap)))⟩

/-- `pmm_alloc_frame` takes and clears a free frame, which is no table and no part of the
bitmap, and changes no translation. -/
def AllocatesFresh (root : Nat) (s : Machine) : Prop :=
  ∃ f s', pmmAllocFrame s = .ok (f * 4096) s' ∧ s.frameUsed f = false ∧ ¬s.HoldsBitmap f ∧
    ¬TableFrame s root f ∧ (∀ x, InFrame f x → s'.mem x = 0) ∧
    ∀ w, translate s' root w = translate s root w

/-- **No table is handed out**, in any state of a run: unless all frames are used, the
next frame taken is a fresh one. -/
theorem vmm_run_alloc_fresh (hstart : FreshSpace root s0)
    (hrun : ReflTransGen (VmmStep root) s0 s) :
    (∀ f, f ≤ s.highestFrame → s.frameUsed f = true) ∨ AllocatesFresh root s := by
  obtain ⟨others, h, _⟩ := addressSpace_run hstart hrun
  rcases pmmAllocFrame_run h.wellFormed with ⟨hall, _⟩ | ⟨f, m, ht, _, hcall⟩
  · exact Or.inl hall
  · refine Or.inr ⟨f, _, hcall, ht.free, fun hholds => ?_, h.not_tableFrame ht.free, ht.cleared,
      fun w => ?_⟩
    · exact Bool.noConfusion (ht.free.symm.trans (h.wellFormed.storage f ht.le hholds))
    · rw [translate_eq, translate_eq, (h.take ht).2 (pagePath w) (Nat.le_refl 4)]

/-- The next frame after one page was mapped. -/
theorem vmm_run_alloc_fresh_wide :
    ∃ s0 s1, FreshSpace 0x1000 s0 ∧ vmmMapPage 0x1000 0x400000 0x5000 0 s0 = .ok true s1 ∧
      AllocatesFresh 0x1000 s1 := by
  obtain ⟨s0, s1, hfresh, hmap, hfree, hle⟩ := wideMemmap_mapped
  rcases vmm_run_alloc_fresh hfresh (.single (Or.inl (MapStep.map rfl rfl hmap))) with
    hall | halloc
  · rw [hall _ hle] at hfree
    cases hfree
  · exact ⟨s0, s1, hfresh, hmap, halloc⟩

/-- Another client frees a frame of the bitmap, which is no table, and takes it
again.  Frame 0 stays used, but the tables of the mapped page are now marked
free. -/
theorem vmm_bitmap_frame_freed :
    ∃ s0 s1 s2 s3 a, FreshSpace 0x1000 s0 ∧
      vmmMapPage 0x1000 0x400000 0x5000 0 s0 = .ok true s1 ∧ s1.frameUsed 0 = true ∧
      ¬TableFrame s1 0x1000 0x8001 ∧ pmmFreeFrame 0x8001000 s1 = .ok () s2 ∧
      s2.frameUsed 0 = true ∧ pmmAllocFrame s2 = .ok 0x8001000 s3 ∧ s3.frameUsed 0 = true ∧
      entryAt s3 0x1000 [0] = some a ∧ s3.frameUsed (tableOf a / 4096) = false := by
  obtain ⟨s0, s1, s2, s3, a, hinit, hhighest, hzero, hused, hbitmap, hmap, _, hzero1, hholds, hfree,
    hzero2, halloc, hzero3, ha, hunused⟩ := wideMemmap_checked
  have hfresh := wideMemmap_freshSpace hinit hhighest hzero hused hbitmap
  refine ⟨s0, s1, s2, s3, a, hfresh, hmap, hzero1, ?_, hfree, hzero2, halloc, hzero3, ha, hunused⟩
  rintro ⟨q, hq, hn⟩
  have hspace :=
    (hfresh.emptySpace.addressSpace.mapStep hfresh.zeroUsed (MapStep.map rfl rfl hmap)).1
  obtain ⟨f, hf, _, _, hnot⟩ := hspace.frame_of_table hq hn
  have hsame : f = 0x8001 := by omega
  exact hnot (hsame ▸ hholds)

/-! ## No table too many -/

/-- `vmm_unmap_page` for each address of a list. -/
def vmmUnmapAll (root : Nat) : List Nat → Exec Machine Unit
  | [] => pure ()
  | v :: vs => do
      let _ ← vmmUnmapPage root v
      vmmUnmapAll root vs

/-- The tables of `s` are those its mapped pages need; `s0` is the state before
the first of them was taken. -/
structure TablesExact (root : Nat) (s0 s : Machine) : Prop where
  /-- The paths of tables are the starts of the paths of mapped pages. -/
  needed : ∀ q, q ≠ [] → q.length < 4 → (entryAt s root q ≠ none ↔
    ∃ v, v % 4096 = 0 ∧ translate s root v ≠ none ∧ q <+: pagePath v)
  /-- Different paths have different tables. -/
  apart : ∀ p q a b, p.length < 4 → q.length < 4 → entryAt s root p = some a →
    entryAt s root q = some b → tableOf a = tableOf b → p = q
  /-- The frames taken since the start are those of the tables. -/
  held : ∀ f, f ≤ s.highestFrame →
    (s.frameUsed f = true ∧ s0.frameUsed f = false ↔ IsTable s root f)
  kept : ∀ f, f ≤ s.highestFrame → s0.frameUsed f = true → s.frameUsed f = true
  nonEmpty : ∀ q a, q.length < 4 → entryAt s root q = some a →
    ∃ j, pageEntries s.mem (tableOf a) j ≠ none
  /-- Unmapping all mapped pages, in any order, restores the frame allocator. -/
  restored : ∀ vs : List Nat, (∀ v ∈ vs, v % 4096 = 0) →
    (∀ w, translate s root w ≠ none → ∃ v ∈ vs, SamePage v w) →
    ∃ s', vmmUnmapAll root vs s = .ok () s' ∧ s'.bitmap = s0.bitmap ∧
      s'.bitmapSizeQwords = s0.bitmapSizeQwords ∧
      (∀ j, j < s0.bitmapSizeQwords → s'.words j = s0.words j) ∧ s'.usedFrames = s0.usedFrames

/-- The invariant of runs without other clients: the frames in use are those of the start
and the tables, and every table leads to a page. -/
structure ExactInv (root : Nat) (s0 s : Machine) : Prop where
  space : AddressSpace root s0.frameUsed s
  layout : SameLayout s0 s
  pruned : Pruned 4 (entryAt s root)

section Exact

variable {s s' s0 : Machine} {root : Nat}

theorem ExactInv.step (h : ExactInv root s0 s) (hzero : s0.frameUsed 0 = true)
    (hstep : MapStep root s s') : ExactInv root s0 s' := by
  obtain ⟨hspace, hlayout, hpruned⟩ := h.space.mapStep hzero hstep
  exact ⟨hspace, h.layout.trans hlayout, hpruned h.pruned⟩

theorem FreshSpace.exactInv (h : FreshSpace root s0) : ExactInv root s0 s0 where
  space := h.emptySpace.addressSpace
  layout := SameLayout.refl s0
  pruned q _ hq := absurd (h.emptySpace.tree.2 q) hq

/-- Every path of full length is the path of a page. -/
theorem exists_pagePath {r : List (Fin 512)} (hr : r.length = 4) :
    ∃ v, v % 4096 = 0 ∧ pagePath v = r := by
  obtain ⟨i1, i2, i3, i4, rfl⟩ := List.length_eq_four.mp hr
  refine ⟨i1 * 2 ^ 39 + i2 * 2 ^ 30 + i3 * 2 ^ 21 + i4 * 2 ^ 12, by omega, ?_⟩
  have h1 := i1.isLt
  have h2 := i2.isLt
  have h3 := i3.isLt
  have h4 := i4.isLt
  simp only [pagePath, pml4Index, pdptIndex, pdIndex, ptIndex, PageTables.index_eq, List.cons.injEq,
    Fin.ext_iff, and_true]
  omega

theorem translate_ne_none_iff {v : Nat} :
    translate s root v ≠ none ↔ entryAt s root (pagePath v) ≠ none := by
  rw [translate_eq, Ne, Option.map_eq_none_iff]

theorem ExactInv.needed (h : ExactInv root s0 s) {q : List (Fin 512)} (hq : q ≠ [])
    (hlen : q.length ≤ 4) : entryAt s root q ≠ none ↔
      ∃ v, v % 4096 = 0 ∧ translate s root v ≠ none ∧ q <+: pagePath v := by
  constructor
  · intro hentry
    obtain ⟨r, hr, hpre, hleaf⟩ := h.pruned.exists_leaf hlen hentry
    obtain ⟨v, hv, rfl⟩ := exists_pagePath hr
    exact ⟨v, hv, translate_ne_none_iff.mpr hleaf, hpre⟩
  · rintro ⟨v, _, hmapped, hpre⟩
    exact walk_of_prefix hq hpre (translate_ne_none_iff.mp hmapped)

/-- The calls for a list of pages unmap these pages. -/
theorem ExactInv.unmapAll (h : ExactInv root s0 s) (vs : List Nat)
    (hvs : ∀ v ∈ vs, v % 4096 = 0) :
    ∃ s', vmmUnmapAll root vs s = .ok () s' ∧ ExactInv root s0 s' ∧
      ∀ w, translate s' root w ≠ none → translate s root w ≠ none ∧ ∀ v ∈ vs, ¬SamePage v w := by
  induction vs generalizing s with
  | nil => exact ⟨s, by simp [vmmUnmapAll], h, fun w hw => ⟨hw, by simp⟩⟩
  | cons v vs ih =>
    obtain ⟨s1, hrun1, hspace1, hlayout1, hpruned1, htranslate1⟩ :=
      h.space.unmap (hvs v List.mem_cons_self)
    have hinv1 : ExactInv root s0 s1 :=
      ⟨hspace1, h.layout.trans hlayout1, hpruned1 h.pruned⟩
    obtain ⟨s2, hrun2, hinv2, htranslate2⟩ :=
      ih hinv1 fun u hu => hvs u (List.mem_cons_of_mem v hu)
    refine ⟨s2, by simp [vmmUnmapAll, hrun1, hrun2], hinv2, ?_⟩
    intro w hw
    obtain ⟨hw1, hvs1⟩ := htranslate2 w hw
    rw [htranslate1 w] at hw1
    by_cases hsame : SamePage v w
    · rw [if_pos hsame] at hw1
      exact absurd rfl hw1
    · rw [if_neg hsame] at hw1
      refine ⟨hw1, ?_⟩
      intro u hu
      rcases List.mem_cons.mp hu with rfl | hu
      · exact hsame
      · exact hvs1 u hu

/-- Without mapped pages the frame allocator is as at the start. -/
theorem ExactInv.restored (h : ExactInv root s0 s) (hwf0 : PmmWf s0)
    (hnone : ∀ w, translate s root w = none) :
    (∀ j, j < s0.bitmapSizeQwords → s.words j = s0.words j) ∧ s.usedFrames = s0.usedFrames := by
  have hhighest := h.layout.highest
  have hsize := h.layout.size
  have hnoTable : ∀ g, ¬IsTable s root g := by
    rintro g ⟨q, a, hq, ha, _⟩
    have hentry : entryAt s root q ≠ none := by
      rw [ha]
      exact Option.some_ne_none a
    obtain ⟨v, _, hmapped, _⟩ := (h.needed (walk_ne_nil ha) (by omega)).mp hentry
    exact hmapped (hnone v)
  have hbits : ∀ g, g < 64 * s0.bitmapSizeQwords → s.frameUsed g = s0.frameUsed g := by
    intro g hg
    by_cases hle : g ≤ s0.highestFrame
    · rw [Bool.eq_iff_iff, h.space.used g (by omega)]
      simp [hnoTable g]
    · rw [h.space.wellFormed.padding g (by omega) (by omega), hwf0.padding g (by omega) hg]
  constructor
  · intro j hj
    apply Nat.eq_of_testBit_eq
    intro b
    by_cases hb : b < 64
    · have hbit := hbits (64 * j + b) (by omega)
      unfold Machine.frameUsed bitAt at hbit
      rwa [show (64 * j + b) / 64 = j by omega, show (64 * j + b) % 64 = b by omega] at hbit
    · have hpow : 2 ^ 64 ≤ 2 ^ b := Nat.pow_le_pow_right (by decide) (by omega)
      rw [Nat.testBit_lt_two_pow (Nat.lt_of_lt_of_le (words_lt s j) hpow),
        Nat.testBit_lt_two_pow (Nat.lt_of_lt_of_le (words_lt s0 j) hpow)]
  · have hcovered := hwf0.covered
    rw [h.space.wellFormed.counted, hwf0.counted, hhighest]
    exact count_congr fun g hg => by rw [hbits g (by omega)]

theorem ExactInv.exact (h : ExactInv root s0 s) (hwf0 : PmmWf s0) : TablesExact root s0 s where
  needed q hq hlen := h.needed hq (by omega)
  apart p q a b hp hq ha hb hab := h.space.unshared p q (tableOf b) hp hq
    (hab ▸ tableAt_of_entryAt ha) (tableAt_of_entryAt hb)
  held f hf := by
    rw [h.space.used f hf]
    constructor
    · intro hcase
      rcases hcase with ⟨hf0 | htable, hfree⟩
      · rw [hf0] at hfree
        exact Bool.noConfusion hfree
      · exact htable
    · intro htable
      refine ⟨Or.inr htable, ?_⟩
      obtain ⟨q, a, hq, ha, haf⟩ := htable
      obtain ⟨g, hg, _, hothers, _⟩ := h.space.tables q a hq ha
      have hsame : f = g := by omega
      rw [hsame]
      exact hothers
  kept f hf hf0 := (h.space.used f hf).mpr (Or.inl hf0)
  nonEmpty q a hq ha := by
    obtain ⟨j, hj⟩ := h.pruned q hq (by rw [ha]; exact Option.some_ne_none a)
    refine ⟨j, ?_⟩
    rw [entryAt_concat (tableAt_of_entryAt ha)] at hj
    exact hj
  restored vs hvs hall := by
    obtain ⟨s', hrun, hinv, htranslate⟩ := h.unmapAll vs hvs
    refine ⟨s', hrun, hinv.layout.bitmap, hinv.layout.size, hinv.restored hwf0 ?_⟩
    intro w
    by_contra hw
    obtain ⟨hmapped, hnot⟩ := htranslate w hw
    obtain ⟨v, hv, hsame⟩ := hall w hmapped
    exact hnot v hv hsame

end Exact

/-- **No table is leaked.**  In every state of a run of map and unmap calls the
tables are exactly those the mapped pages need. -/
theorem vmm_run_exact (root : Nat) (s0 s : Machine) (hstart : FreshSpace root s0)
    (hrun : ReflTransGen (MapStep root) s0 s) : TablesExact root s0 s :=
  (run_invariant (ExactInv root s0) (fun _ _ h hstep => h.step hstart.zeroUsed hstep) hrun
    hstart.exactInv).exact hstart.wellFormed

/-- One page mapped in the fresh space: its three tables can be given back. -/
theorem vmm_run_exact_wide :
    ∃ s0 s1 s2, FreshSpace 0x1000 s0 ∧
      vmmMapPage 0x1000 0x400000 0x5000 0 s0 = .ok true s1 ∧ TablesExact 0x1000 s0 s1 ∧
      vmmUnmapAll 0x1000 [0x400000] s1 = .ok () s2 ∧ s2.usedFrames = s0.usedFrames := by
  obtain ⟨s0, s1, hfresh, hmap, _⟩ := wideMemmap_mapped
  have hexact := vmm_run_exact 0x1000 s0 s1 hfresh (.single (MapStep.map rfl rfl hmap))
  obtain ⟨s2, hunmap, _, _, _, hused⟩ := hexact.restored [0x400000] (by decide) (by
    intro w hw
    refine ⟨_, List.mem_singleton_self _, ?_⟩
    rcases hfresh.emptySpace.addressSpace.map hfresh.zeroUsed (v := 0x400000) (p := 0x5000) 0
      rfl rfl with
      ⟨t, hpanic⟩ | ⟨t, hrun, _, _, _, htranslate⟩
    · cases hmap.symm.trans hpanic
    · cases hmap.symm.trans hrun
      by_contra hsame
      rw [htranslate w, if_neg hsame, translate_eq, hfresh.emptySpace.tree.2] at hw
      exact hw rfl)
  exact ⟨s0, s1, s2, hfresh, hmap, hexact, hunmap, hused⟩

end FarouKernel.Ports.Vmm
