import FarouKernel.Ports.PmmModel

/-!
# The frame allocator, one call at a time

The bitmap as a set of frames: what each operation of the allocator does to the
set of used frames, to the counter and to the rest of physical memory.

`PmmWf` is what the allocator relies on.  Two of its parts are not visible in
any single function: the bits that fill up the last word of the bitmap are set
(the search would otherwise hand out frames that do not exist), and the frames
that hold the bitmap itself are used (`pmm_alloc_frame` would otherwise clear
the bitmap).
-/

namespace FarouKernel.Ports.Pmm

open Verified ByteMem Ports.Memory

variable {s : Machine} {frame : Nat}

/-- The byte `x` belongs to the bitmap. -/
def Machine.InBitmap (s : Machine) (x : Nat) : Prop :=
  s.bitmap ≤ x ∧ x < s.bitmap + 8 * s.bitmapSizeQwords

/-- The byte `x` belongs to the frame. -/
def InFrame (frame x : Nat) : Prop := frame * 4096 ≤ x ∧ x < (frame + 1) * 4096

/-- Part of the bitmap lies in the frame. -/
def Machine.HoldsBitmap (s : Machine) (frame : Nat) : Prop :=
  frame * 4096 < s.bitmap + 8 * s.bitmapSizeQwords ∧ s.bitmap < (frame + 1) * 4096

instance (s : Machine) (frame : Nat) : Decidable (s.HoldsBitmap frame) :=
  inferInstanceAs (Decidable (_ ∧ _))

/-- A bitmap that is not empty lies in the frame if they share a byte. -/
theorem holdsBitmap_iff (hsize : 0 < s.bitmapSizeQwords) :
    s.HoldsBitmap frame ↔ ∃ x, InFrame frame x ∧ s.InBitmap x := by
  unfold Machine.HoldsBitmap InFrame Machine.InBitmap
  constructor
  · intro h
    exact ⟨max s.bitmap (frame * 4096), by omega⟩
  · rintro ⟨x, hx⟩
    omega

/-- The number of used frames among the first `n`. -/
def Machine.countUsed (s : Machine) (n : Nat) : Nat :=
  Nat.count (fun f => s.frameUsed f = true) n

/-- The machine with other memory contents. -/
def Machine.withMem (s : Machine) (m : ByteMem) : Machine := { s with mem := m }

theorem words_lt (s : Machine) (j : Nat) : s.words j < 2 ^ 64 := read64_lt _ _

variable {m : ByteMem} {x : Nat}

/-- The bitmap depends on its own bytes only. -/
theorem frameUsed_congr (h : ∀ x, s.InBitmap x → m x = s.mem x)
    (hframe : frame < 64 * s.bitmapSizeQwords) :
    (s.withMem m).frameUsed frame = s.frameUsed frame := by
  refine bitAt_congr (read64_congr ?_)
  intro x hlo hhi
  have hlo' : s.bitmap + 8 * (frame / 64) ≤ x := hlo
  have hhi' : x < s.bitmap + 8 * (frame / 64) + 8 := hhi
  exact h x ⟨by omega, by omega⟩

/-- Writing one word of the bitmap. -/
theorem words_write64 {j v : Nat} (hv : v < 2 ^ 64) :
    (s.withMem (write64 s.mem (s.bitmap + 8 * j) v)).words = Function.update s.words j v := by
  funext k
  by_cases hk : k = j
  · rw [hk, Function.update_self]
    exact read64_write64_of_lt hv
  · rw [Function.update_of_ne hk]
    refine read64_write64_of_disjoint ?_
    show s.bitmap + 8 * k + 8 ≤ s.bitmap + 8 * j ∨ s.bitmap + 8 * j + 8 ≤ s.bitmap + 8 * k
    omega

/-- A word of the bitmap lies inside the bitmap. -/
theorem write64_outside_bitmap {v : Nat} (hframe : frame / 64 < s.bitmapSizeQwords)
    (hx : ¬s.InBitmap x) : write64 s.mem (s.bitmap + 8 * (frame / 64)) v x = s.mem x := by
  apply write64_apply_of_outside
  unfold Machine.InBitmap at hx
  omega

/-! ## Single bits -/

/-- `pmm_bitmap_test` reads one bit. -/
theorem pmmBitmapTest_run (h : frame / 64 < s.bitmapSizeQwords) :
    pmmBitmapTest frame s = .ok (s.frameUsed frame) s := by
  have hbit : decide (s.words (frame / 64) &&& 1 <<< (frame % 64) ≠ 0) = s.frameUsed frame := by
    rw [Bool.eq_iff_iff, decide_eq_true_iff]
    exact and_shiftLeft_ne_zero _ _
  simp only [pmmBitmapTest, Exec.bind_apply, Exec.get_apply, Outcome.andThen_ok,
    kassert_of _ _ _ h, Exec.pure_apply, hbit]

/-- `pmm_bitmap_set` adds one frame to the used ones. -/
theorem pmmBitmapSet_run (h : frame / 64 < s.bitmapSizeQwords) :
    ∃ m, pmmBitmapSet frame s = .ok () (s.withMem m) ∧
      (∀ x, ¬s.InBitmap x → m x = s.mem x) ∧
      ∀ g, (s.withMem m).frameUsed g = (s.frameUsed g || decide (g = frame)) := by
  refine ⟨_, by simp [pmmBitmapSet, h, store64, Machine.withMem]; rfl,
    fun x hx => write64_outside_bitmap h hx, fun g => ?_⟩
  have hlt : s.words (frame / 64) ||| 1 <<< (frame % 64) < 2 ^ 64 := by
    refine Nat.or_lt_two_pow (words_lt s _) ?_
    rw [Nat.one_shiftLeft]
    exact Nat.pow_lt_pow_right (by decide) (Nat.mod_lt _ (by decide))
  show bitAt _ g = _
  rw [words_write64 hlt, ← setBit_eq_update, bitAt_setBit]
  rfl

/-- `pmm_bitmap_clear` removes one frame from the used ones. -/
theorem pmmBitmapClear_run (h : frame / 64 < s.bitmapSizeQwords) :
    ∃ m, pmmBitmapClear frame s = .ok () (s.withMem m) ∧
      (∀ x, ¬s.InBitmap x → m x = s.mem x) ∧
      ∀ g, (s.withMem m).frameUsed g = (s.frameUsed g && !decide (g = frame)) := by
  refine ⟨_, by simp [pmmBitmapClear, h, store64, Machine.withMem]; rfl,
    fun x hx => write64_outside_bitmap h hx, fun g => ?_⟩
  have hlt : s.words (frame / 64) &&& not64 (1 <<< (frame % 64)) < 2 ^ 64 :=
    Nat.lt_of_le_of_lt Nat.and_le_left (words_lt s _)
  show bitAt _ g = _
  rw [words_write64 hlt, ← clearBit_eq_update, bitAt_clearBit]
  rfl

/-! ## Whole calls -/

/-- What the allocator relies on: there is a bit for every frame, the bits behind the last
one and those of the frames of the bitmap itself are set, and the counter is right. -/
structure PmmWf (s : Machine) : Prop where
  hhdm : s.hhdmPhysOffset ≠ 0
  covered : s.highestFrame < 64 * s.bitmapSizeQwords
  highest : s.highestFrame < 2 ^ 52
  padding : ∀ f, s.highestFrame < f → f < 64 * s.bitmapSizeQwords → s.frameUsed f = true
  counted : s.usedFrames = s.countUsed (s.highestFrame + 1)
  storage : ∀ f, f ≤ s.highestFrame → s.HoldsBitmap f → s.frameUsed f = true

/-- The machine after the frame was taken: `m` is the new memory. -/
def Machine.taken (s : Machine) (m : ByteMem) (frame : Nat) : Machine :=
  { s with mem := m, usedFrames := s.usedFrames + 1, lastAllocatedIndex := frame }

/-- The frame was free and has been taken and cleared; `m` is memory afterwards. -/
structure FrameTaken (s : Machine) (m : ByteMem) (frame : Nat) : Prop where
  le : frame ≤ s.highestFrame
  free : s.frameUsed frame = false
  cleared : ∀ x, InFrame frame x → m x = 0
  outside : ∀ x, ¬s.InBitmap x → ¬InFrame frame x → m x = s.mem x
  bits : ∀ g, g < 64 * s.bitmapSizeQwords →
    (s.taken m frame).frameUsed g = (s.frameUsed g || decide (g = frame))

/-- The machine after a frame was released. -/
def Machine.released (s : Machine) (m : ByteMem) : Machine :=
  { s with mem := m, usedFrames := s.usedFrames - 1 }

theorem countUsed_le (s : Machine) (n : Nat) : s.countUsed n ≤ n :=
  Nat.count_le _

/-- A frame that does not hold the bitmap can be overwritten without touching
the bitmap. -/
theorem not_inBitmap_of_inFrame (h : ¬s.HoldsBitmap frame) (hx : InFrame frame x) :
    ¬s.InBitmap x := by
  unfold Machine.HoldsBitmap at h
  unfold InFrame at hx
  unfold Machine.InBitmap
  omega

theorem InFrame.unique {f g : Nat} (hf : InFrame f x) (hg : InFrame g x) : f = g := by
  unfold InFrame at hf hg
  omega

/-- What the search relies on: the bitmap has a bit for every frame, frame numbers
are positive as signed numbers, and the bits that fill up the last word are set. -/
structure Machine.Searchable (s : Machine) : Prop where
  covered : s.highestFrame < 64 * s.bitmapSizeQwords
  highest : s.highestFrame < 2 ^ 63
  padding : ∀ f, s.highestFrame < f → f < 64 * s.bitmapSizeQwords → s.frameUsed f = true

theorem PmmWf.searchable (h : PmmWf s) : s.Searchable where
  covered := h.covered
  highest := by
    have := h.highest
    omega
  padding := h.padding

/-- The frame is the first free one in the order of the search: in the words that
are looked at before its word, and in its word before it, every bit is set. -/
def Machine.NextFree (s : Machine) (frame : Nat) : Prop :=
  ∃ i, i < s.bitmapSizeQwords ∧
    (s.lastAllocatedIndex / 64 + i) % s.bitmapSizeQwords = frame / 64 ∧
    (∀ j, j < i → ∀ g, g / 64 = (s.lastAllocatedIndex / 64 + j) % s.bitmapSizeQwords →
      s.frameUsed g = true) ∧
    ∀ g, g / 64 = frame / 64 → g < frame → s.frameUsed g = true

/-- The search for one frame, as the value `pmm_alloc_frame` gets. -/
theorem pmmFind_one_run (h : s.Searchable) :
    ((∀ f, f ≤ s.highestFrame → s.frameUsed f = true) ∧
        pmmFindFirstFreeContiguous 1 s = .ok (-1) s) ∨
      ∃ f, f ≤ s.highestFrame ∧ s.frameUsed f = false ∧ s.NextFree f ∧
        pmmFindFirstFreeContiguous 1 s = .ok (f : Int) s := by
  cases hfind : findClear s.words s.bitmapSizeQwords s.highestFrame
      (s.lastAllocatedIndex / 64) with
  | none =>
    left
    constructor
    · intro f hf
      have hcovered := h.covered
      exact findClear_none (words_lt s) h.padding hfind f (by omega)
    · simp [pmmFindFirstFreeContiguous, hfind]
  | some f =>
    right
    obtain ⟨hle, _, hclear⟩ := findClear_some (words_lt s) hfind
    have hhighest := h.highest
    refine ⟨f, hle, hclear, findClear_first (words_lt s) h.padding hfind, ?_⟩
    simp [pmmFindFirstFreeContiguous, hfind, toInt64_of_lt (show f < 2 ^ 63 by omega)]

/-- A frame that was free holds no part of the bitmap. -/
theorem PmmWf.not_holdsBitmap (h : PmmWf s) (hle : frame ≤ s.highestFrame)
    (hfree : s.frameUsed frame = false) : ¬s.HoldsBitmap frame := by
  intro hholds
  rw [h.storage frame hle hholds] at hfree
  exact Bool.noConfusion hfree

/-- **`pmm_alloc_frame`** takes a free frame and clears it, or stops the machine
when every frame is used. -/
theorem pmmAllocFrame_run (h : PmmWf s) :
    ((∀ f, f ≤ s.highestFrame → s.frameUsed f = true) ∧
        pmmAllocFrame s = .panic "PMM: Out of physical memory!" s) ∨
      ∃ f m, FrameTaken s m f ∧ s.NextFree f ∧
        pmmAllocFrame s = .ok (f * 4096) (s.taken m f) := by
  rcases pmmFind_one_run h.searchable with ⟨hall, hfind⟩ | ⟨f, hle, hfree, hnext, hfind⟩
  · left
    refine ⟨hall, ?_⟩
    simp [pmmAllocFrame, hfind]
  · right
    have hcovered := h.covered
    have hhighest := h.highest
    have hword : f / 64 < s.bitmapSizeQwords := by omega
    have htest := pmmBitmapTest_run (s := s) hword
    obtain ⟨m, hset, hout, hbits⟩ := pmmBitmapSet_run (s := s) hword
    have hnotHeld := h.not_holdsBitmap hle hfree
    have hcount : s.usedFrames < 2 ^ 53 := by
      have hcounted := h.counted
      have := countUsed_le s (s.highestFrame + 1)
      omega
    have hused : add64 s.usedFrames 1 = s.usedFrames + 1 := add64_of_lt (by omega)
    have hphys : f * pageSize % 2 ^ 64 = f * 4096 := Nat.mod_eq_of_lt (by
      show f * 4096 < 2 ^ 64
      omega)
    have hindex : ofInt64 (f : Int) = f := ofInt64_natCast (by omega)
    have hne : ¬(f : Int) = -1 := by omega
    refine ⟨f, fill m (f * 4096) 4096 0, ⟨hle, hfree, ?_, ?_, ?_⟩, hnext, ?_⟩
    · intro x hx
      unfold InFrame at hx
      unfold fill
      rw [if_pos (by omega)]
    · intro x hx hframe
      unfold InFrame at hframe
      rw [fill_apply_of_outside (by omega)]
      exact hout x hx
    · intro g hg
      have hsame : ∀ x, (s.withMem m).InBitmap x → fill m (f * 4096) 4096 0 x = m x := by
        intro x hx
        apply fill_apply_of_outside
        by_contra hin
        exact not_inBitmap_of_inFrame hnotHeld (show InFrame f x by unfold InFrame; omega) hx
      have hcongr := frameUsed_congr (s := s.withMem m) hsame hg
      show ((s.withMem m).withMem (fill m (f * 4096) 4096 0)).frameUsed g = _
      rw [hcongr, hbits]
    · rw [hfree] at htest
      have hhhdm := h.hhdm
      simp only [pmmAllocFrame, Exec.bind_apply, hfind, Outcome.andThen_ok, if_neg hne, hindex,
        htest, kassert_of, hset, Exec.modify_apply, hphys]
      simp [physToVirt, memset, hhhdm, Machine.withMem, Machine.taken, hused, pageSize]

/-- The allocator stays well formed if used frames stay used and the count is right. -/
theorem PmmWf.keep {used last : Nat} {s' : Machine} (h : PmmWf s)
    (hs' : s' = { s with mem := m, usedFrames := used, lastAllocatedIndex := last })
    (hkept : ∀ f, f < 64 * s.bitmapSizeQwords → s.frameUsed f = true → s'.frameUsed f = true)
    (hcount : used = s'.countUsed (s.highestFrame + 1)) : PmmWf s' := by
  subst hs'
  refine ⟨h.hhdm, h.covered, h.highest, ?_, hcount, ?_⟩
  · intro f hf hf'
    exact hkept f hf' (h.padding f hf hf')
  · intro f hf hholds
    have hcovered := h.covered
    have hf' : f ≤ s.highestFrame := hf
    exact hkept f (by omega) (h.storage f hf hholds)

/-- Taking a free frame keeps the allocator well formed. -/
theorem PmmWf.taken (h : PmmWf s) (ht : FrameTaken s m frame) : PmmWf (s.taken m frame) := by
  have hcovered := h.covered
  have hle := ht.le
  refine h.keep rfl (fun f hf hused => by rw [ht.bits f hf, hused, Bool.true_or]) ?_
  have hcount : Nat.count (fun f => (s.frameUsed f || decide (f = frame)) = true)
      (s.highestFrame + 1) = s.countUsed (s.highestFrame + 1) + 1 :=
    count_insert (i := frame) (by omega) (by simp [ht.free]) (by simp)
  rw [h.counted, ← hcount]
  exact count_congr fun f hf => by rw [ht.bits f (by omega)]

/-- **`pmm_free_frame`** of a used frame. -/
theorem pmmFreeFrame_run (h : PmmWf s) (hle : frame ≤ s.highestFrame)
    (hused : s.frameUsed frame = true) :
    ∃ m, pmmFreeFrame (frame * 4096) s = .ok () (s.released m) ∧
      (∀ x, ¬s.InBitmap x → m x = s.mem x) ∧
      ∀ g, (s.released m).frameUsed g = (s.frameUsed g && !decide (g = frame)) := by
  have hcovered := h.covered
  have hword : frame / 64 < s.bitmapSizeQwords := by omega
  have htest := pmmBitmapTest_run (s := s) hword
  obtain ⟨m, hclear, hout, hbits⟩ := pmmBitmapClear_run (s := s) hword
  have hpos : 0 < s.usedFrames := by
    have hcounted := h.counted
    have hne : s.countUsed (s.highestFrame + 1) ≠ 0 :=
      Nat.count_ne_iff_exists.mpr ⟨frame, by omega, hused⟩
    omega
  have hsmall : s.usedFrames < 2 ^ 53 := by
    have hcounted := h.counted
    have hhighest := h.highest
    have := countUsed_le s (s.highestFrame + 1)
    omega
  have hcount : sub64 s.usedFrames 1 = s.usedFrames - 1 := sub64_of_le (by omega) (by omega)
  rw [hused] at htest
  refine ⟨m, ?_, hout, hbits⟩
  simp [pmmFreeFrame, pageSize, hle, htest, hclear, Machine.withMem, Machine.released, hcount]

/-- Freeing a free frame stops the machine, with nothing changed. -/
theorem pmmFreeFrame_free (h : PmmWf s) (hle : frame ≤ s.highestFrame)
    (hfree : s.frameUsed frame = false) :
    pmmFreeFrame (frame * 4096) s =
      .panic "PMM: Attempted to free already free frame!" s := by
  have hcovered := h.covered
  have htest := pmmBitmapTest_run (s := s) (show frame / 64 < s.bitmapSizeQwords by omega)
  rw [hfree] at htest
  simp [pmmFreeFrame, pageSize, hle, htest]

/-- A call of `pmm_free_frame` that returns named a used frame. -/
theorem pmmFreeFrame_ok {phys : Nat} {s' : Machine} (h : PmmWf s)
    (hcall : pmmFreeFrame phys s = .ok () s') :
    ∃ f, phys = f * 4096 ∧ f ≤ s.highestFrame ∧ s.frameUsed f = true := by
  by_cases halign : phys % pageSize = 0
  · by_cases hle : phys / pageSize ≤ s.highestFrame
    · have hphys : phys = phys / pageSize * 4096 := by
        unfold pageSize at halign ⊢
        omega
      refine ⟨phys / pageSize, hphys, hle, ?_⟩
      cases hused : s.frameUsed (phys / pageSize) with
      | true => rfl
      | false =>
        have hpanic := pmmFreeFrame_free h hle hused
        rw [← hphys, hcall] at hpanic
        cases hpanic
    · simp [pmmFreeFrame, halign, hle] at hcall
  · simp [pmmFreeFrame, halign] at hcall

/-- Releasing a frame that does not hold the bitmap keeps the allocator well
formed. -/
theorem PmmWf.released (h : PmmWf s) (hle : frame ≤ s.highestFrame)
    (hused : s.frameUsed frame = true) (hheld : ¬s.HoldsBitmap frame)
    (hbits : ∀ g, (s.released m).frameUsed g = (s.frameUsed g && !decide (g = frame))) :
    PmmWf (s.released m) where
  hhdm := h.hhdm
  covered := h.covered
  highest := h.highest
  padding := by
    intro f hf hf'
    have hne : f ≠ frame := by
      have hf'' : s.highestFrame < f := hf
      omega
    rw [hbits f, h.padding f hf hf']
    simp [hne]
  counted := by
    have hcount : Nat.count (fun f => (s.frameUsed f && !decide (f = frame)) = true)
        (s.highestFrame + 1) + 1 = s.countUsed (s.highestFrame + 1) :=
      count_erase (i := frame) (by omega) hused (by simp)
    have hsame : (s.released m).countUsed (s.highestFrame + 1) =
        Nat.count (fun f => (s.frameUsed f && !decide (f = frame)) = true)
          (s.highestFrame + 1) :=
      count_congr fun f _ => by rw [hbits f]
    show s.usedFrames - 1 = (s.released m).countUsed (s.highestFrame + 1)
    rw [hsame, h.counted]
    omega
  storage := by
    intro f hf hholds
    have hne : f ≠ frame := fun heq => hheld (heq ▸ hholds)
    rw [hbits f, h.storage f hf hholds]
    simp [hne]

/-- Memory outside the bitmap does not matter to the allocator. -/
theorem PmmWf.withMem (h : PmmWf s) (hm : ∀ x, s.InBitmap x → m x = s.mem x) :
    PmmWf (s.withMem m) := by
  have hcovered := h.covered
  refine h.keep rfl (fun f hf hused => (frameUsed_congr hm hf).trans hused) ?_
  rw [h.counted]
  exact count_congr fun f hf => by rw [frameUsed_congr hm (by omega)]

end FarouKernel.Ports.Pmm
