import FarouKernel.Ports.BlockSearch

/-!
# Aligned blocks

`pmm_alloc_block_aligned` allocates a run, keeps it if its address is a multiple of
the alignment, and otherwise gives it back and tries again, three times in all.
The run is back where it was and the hint points at it, so every attempt finds the
same run: the call succeeds exactly if the first run it finds is aligned.

The assertion lets an alignment of 0 pass, by which the code then divides.
-/

namespace FarouKernel.Ports.Block

open Relation Verified

/-! ## All states of the allocator -/

/-- One call with any arguments: a caller may free what it does not own, and mark what is
in use. -/
inductive PmmStep : PmmState → PmmState → Prop
  | mark (s : PmmState) (base size : Nat) (used : Bool) :
      PmmStep s (pmmMarkRegion base size used s)
  | alloc (s : PmmState) (count : Nat) : PmmStep s (pmmAllocBlocks count s).2
  | aligned (s : PmmState) (alignment : Nat) (r : Nat × PmmState)
      (hr : pmmAllocBlockAlignedChecked alignment s = some r) : PmmStep s r.2
  | free (s : PmmState) (block count : Nat) : PmmStep s (pmmFreeBlocks block count s)

/-- What every state after `pmm_init` has, whatever was called since.  The counter is a
64-bit number, but not always the right one. -/
structure PmmInv (s : PmmState) : Prop where
  wf : BlockWf s
  used : s.usedBlocks < 2 ^ 64

section States

variable {s s' : PmmState}

theorem setBlocks_lt {w : Nat → Nat} (hw : ∀ j, w j < 2 ^ 64) (block : Nat) (used : Bool)
    (count j : Nat) : setBlocks block used count w j < 2 ^ 64 := by
  induction count generalizing j with
  | zero => exact hw j
  | succ i ih =>
    rw [setBlocks]
    split
    · exact setBit_lt ih _ _
    · exact clearBit_lt ih _ _

theorem pmmInv_init {memSize : Nat} {bitmapBase : Nat → Nat} (hmem : memSize < 2 ^ 64)
    (hbase : ∀ j, bitmapBase j < 2 ^ 64) : PmmInv (pmmInit memSize bitmapBase .zero) where
  wf := pmmInit_wf hmem hbase
  used := Nat.lt_of_le_of_lt (Nat.div_le_self memSize blockSize) hmem

/-- What marking, allocating and freeing keep, every call keeps. -/
theorem PmmStep.keeps {P : PmmState → Prop}
    (hmark : ∀ s base size used, P s → P (pmmMarkRegion base size used s))
    (halloc : ∀ s count, P s → P (pmmAllocBlocks count s).2)
    (hfree : ∀ s block count, P s → P (pmmFreeBlocks block count s))
    (hstep : PmmStep s s') (h : P s) : P s' := by
  have hattempts : ∀ alignment left s r, P s → alignedAttempts alignment left s = some r →
      P r.2 := by
    intro alignment left
    induction left with
    | zero =>
      intro s r h hr
      cases hr
      exact h
    | succ left ih =>
      intro s r h hr
      rw [alignedAttempts, Option.bind_eq_some_iff] at hr
      rcases hr with ⟨rest, _, hr⟩
      split at hr
      · cases hr
        exact halloc s _ h
      · exact ih _ r (hfree _ _ _ (halloc s _ h)) hr
  cases hstep with
  | mark base size used => exact hmark s base size used h
  | alloc count => exact halloc s count h
  | aligned alignment r hr =>
    unfold pmmAllocBlockAlignedChecked at hr
    split at hr
    · exact hattempts _ _ s r h hr
    · cases hr
  | free block count => exact hfree s block count h

theorem BlockWf.mark (h : BlockWf s) (base size : Nat) (used : Bool) :
    BlockWf (pmmMarkRegion base size used s) :=
  ⟨h.init, setBlocks_lt h.words _ _ _, h.total, h.memory⟩

theorem BlockWf.alloc (h : BlockWf s) (count : Nat) :
    BlockWf (pmmAllocBlocks count s).2 ∧
      (pmmAllocBlocks count s).2.totalBlocks = s.totalBlocks := by
  rcases h.alloc_cases count with hnone | ⟨first, _, _, _, hsome⟩
  · rw [hnone]
    exact ⟨h, rfl⟩
  · rw [hsome]
    exact ⟨h.marked _ _ _ _ _, rfl⟩

theorem BlockWf.free (h : BlockWf s) (block count : Nat) :
    BlockWf (pmmFreeBlocks block count s) ∧
      (pmmFreeBlocks block count s).totalBlocks = s.totalBlocks := by
  unfold pmmFreeBlocks
  split
  · exact ⟨h, rfl⟩
  · dsimp only
    split
    · exact ⟨h, rfl⟩
    · exact ⟨⟨h.init, setBlocks_lt h.words _ _ _, h.total, h.memory⟩, rfl⟩

/-- No call changes the number of blocks. -/
theorem BlockWf.step (h : BlockWf s) (hstep : PmmStep s s') :
    BlockWf s' ∧ s'.totalBlocks = s.totalBlocks := by
  refine PmmStep.keeps (P := fun t => BlockWf t ∧ t.totalBlocks = s.totalBlocks) ?_ ?_ ?_ hstep
    ⟨h, rfl⟩
  · exact fun t base size used ht => ⟨ht.1.mark base size used, ht.2⟩
  · exact fun t count ht => ⟨(ht.1.alloc count).1, (ht.1.alloc count).2.trans ht.2⟩
  · exact fun t block count ht =>
      ⟨(ht.1.free block count).1, (ht.1.free block count).2.trans ht.2⟩

theorem PmmInv.mark (h : PmmInv s) (base size : Nat) (used : Bool) :
    PmmInv (pmmMarkRegion base size used s) where
  wf := h.wf.mark base size used
  used := by
    show (if used = true then add64 _ _ else sub64 _ _) < 2 ^ 64
    split
    · exact add64_lt _ _
    · exact sub64_lt _ _

theorem PmmInv.alloc (h : PmmInv s) (count : Nat) : PmmInv (pmmAllocBlocks count s).2 := by
  refine ⟨(h.wf.alloc count).1, ?_⟩
  rcases h.wf.alloc_cases count with hnone | ⟨first, _, _, _, hsome⟩
  · rw [hnone]
    exact h.used
  · rw [hsome]
    exact add64_lt _ _

theorem PmmInv.free (h : PmmInv s) (block count : Nat) : PmmInv (pmmFreeBlocks block count s) := by
  refine ⟨(h.wf.free block count).1, ?_⟩
  unfold pmmFreeBlocks
  split
  · exact h.used
  · dsimp only
    split
    · exact h.used
    · exact sub64_lt _ _

theorem PmmInv.step (h : PmmInv s) (hstep : PmmStep s s') : PmmInv s' :=
  hstep.keeps (fun _ base size used ht => ht.mark base size used)
    (fun _ count ht => ht.alloc count) (fun _ block count ht => ht.free block count) h

end States

/-! ## The three attempts -/

section Attempts

variable {s : PmmState} {alignment count first : Nat}

/-- Without a division by zero the code is the loop without faults. -/
theorem alignedAttempts_eq (hne : alignment ≠ 0) (left : Nat) (s : PmmState) :
    alignedAttempts alignment left s = some (allocAlignedLoop alignment left s) := by
  induction left generalizing s with
  | zero => rfl
  | succ left ih =>
    rw [alignedAttempts, allocAlignedLoop]
    rw [remainder, if_neg hne, Option.bind_some]
    split
    · rfl
    · exact ih _

/-- Giving back the run that was just allocated leaves the hint at it. -/
theorem PmmInv.free_allocated (h : PmmInv s) (hrun : s.FreeRun count first) (hcount : 0 < count)
    (hfirst : first ≠ 0) :
    pmmFreeBlocks (first * blockSize) count
        (s.marked true first count (add64 s.usedBlocks count) (first + count)) =
      { s with lastFreeBlock := first } := by
  have hused := h.used
  have hdiv : first * blockSize / blockSize = first := Nat.mul_div_cancel first (by decide)
  have htotal := h.wf.total_lt
  have hin := hrun.1
  have hwf := h.wf.marked true first count (add64 s.usedBlocks count) (first + count)
  have hblock : first * blockSize ≠ 0 := Nat.mul_ne_zero hfirst (by decide)
  have hfree := hwf.free_marked hblock (Nat.pos_iff_ne_zero.mp hcount) (by rw [hdiv]; exact hin)
  have hhint : first < (s.marked true first count (add64 s.usedBlocks count)
      (first + count)).lastFreeBlock := Nat.lt_add_of_pos_right hcount
  rw [hdiv, if_pos hhint] at hfree
  have hcounter : sub64 (add64 s.usedBlocks count) count = s.usedBlocks := by
    unfold sub64 add64
    omega
  have hbits := markBits_restore h.wf.words fun k hk hk' => hrun.2 k ⟨hk, hk'⟩
  rw [hfree]
  simp only [PmmState.marked, hbits, hcounter]

theorem PmmInv.withHint (h : PmmInv s) (last : Nat) : PmmInv { s with lastFreeBlock := last } :=
  ⟨⟨h.wf.init, h.wf.words, h.wf.total, h.wf.memory⟩, h.used⟩

/-- Further attempts find the same run. -/
theorem PmmState.FirstRun.again (h : s.FirstRun count first) :
    ({ s with lastFreeBlock := first } : PmmState).FirstRun count first :=
  ⟨h.run, Nat.le_refl _, fun _ hle hlt => absurd hlt (Nat.not_lt.mpr hle)⟩

theorem PmmInv.alloc_firstRun (h : PmmInv s) (hfirst : s.FirstRun count first)
    (hcount : 0 < count) :
    pmmAllocBlocks count s =
      (first * blockSize,
        s.marked true first count (add64 s.usedBlocks count) (first + count)) := by
  rcases h.wf.alloc_first hcount with ⟨_, hnone⟩ | ⟨found, hfound, hsome⟩
  · exact absurd hfirst.run (hnone first hfirst.above)
  · rw [hsome, hfound.unique hfirst]

theorem mul_blockSize_mod (halign : alignment % blockSize = 0) (first : Nat) :
    first * blockSize % alignment = 0 ↔ first % (alignment / blockSize) = 0 := by
  have heq : alignment = blockSize * (alignment / blockSize) :=
    (Nat.mul_div_cancel' (Nat.dvd_of_mod_eq_zero halign)).symm
  rw [heq, Nat.mul_comm first, Nat.mul_mod_mul_left, Nat.mul_div_cancel_left _ (by decide)]
  unfold blockSize
  omega

/-- **An unaligned run** is found and given back in every attempt. -/
theorem PmmInv.attempts_unaligned (h : PmmInv s) (halign : alignment % blockSize = 0)
    (hpos : 0 < alignment / blockSize) (hfirst : s.FirstRun (alignment / blockSize) first)
    (hodd : first % (alignment / blockSize) ≠ 0) (left : Nat) :
    allocAlignedLoop alignment (left + 1) s = (0, { s with lastFreeBlock := first }) := by
  have hne : first ≠ 0 := by
    rintro rfl
    exact hodd (Nat.zero_mod _)
  have hstep : ∀ {t : PmmState}, PmmInv t → t.FirstRun (alignment / blockSize) first → ∀ n,
      allocAlignedLoop alignment (n + 1) t =
        allocAlignedLoop alignment n { t with lastFreeBlock := first } := by
    intro t ht hfound n
    rw [allocAlignedLoop]
    rw [ht.alloc_firstRun hfound hpos, if_neg (by rwa [mul_blockSize_mod halign]),
      ht.free_allocated hfound.run hpos hne]
  induction left generalizing s with
  | zero =>
    rw [hstep h hfirst]
    rfl
  | succ left ih =>
    rw [hstep h hfirst, ih (h.withHint first) hfirst.again]

/-- **`pmm_alloc_block_aligned`** for an alignment other than 0. -/
theorem PmmInv.aligned_cases (h : PmmInv s) (halign : alignment % blockSize = 0)
    (hne : alignment ≠ 0) :
    (pmmAllocBlockAligned alignment s = (0, s) ∧
        ∀ b, s.lastFreeBlock ≤ b → ¬s.FreeRun (alignment / blockSize) b) ∨
      ∃ first, s.FirstRun (alignment / blockSize) first ∧
        (first % (alignment / blockSize) = 0 ∧ pmmAllocBlockAligned alignment s =
            (first * blockSize, s.marked true first (alignment / blockSize)
              (add64 s.usedBlocks (alignment / blockSize)) (first + alignment / blockSize)) ∨
          first % (alignment / blockSize) ≠ 0 ∧
            pmmAllocBlockAligned alignment s = (0, { s with lastFreeBlock := first })) := by
  have hpos : 0 < alignment / blockSize := by
    unfold blockSize at *
    omega
  rcases h.wf.alloc_first hpos with ⟨hnone, hall⟩ | ⟨first, hfirst, hsome⟩
  · left
    rw [pmmAllocBlockAligned, allocAlignedLoop]
    rw [hnone, if_pos (Nat.zero_mod _)]
    exact ⟨rfl, hall⟩
  · right
    refine ⟨first, hfirst, ?_⟩
    by_cases hmod : first % (alignment / blockSize) = 0
    · left
      rw [pmmAllocBlockAligned, allocAlignedLoop]
      rw [hsome, if_pos ((mul_blockSize_mod halign first).mpr hmod)]
      exact ⟨hmod, rfl⟩
    · exact Or.inr ⟨hmod, h.attempts_unaligned halign hpos hfirst hmod 2⟩

end Attempts

/-- The call does not divide by zero; it returns an aligned run if there is one
above block 0; and if it returns `NULL`, the bitmap and the counter are unchanged. -/
def AlignedRight (alignment : Nat) (s : PmmState) : Prop :=
  ∃ r, pmmAllocBlockAlignedChecked alignment s = some r ∧
    ((∃ b, b ≠ 0 ∧ b * blockSize % alignment = 0 ∧ s.FreeRun (alignment / blockSize) b) →
      r.1 ≠ 0 ∧ r.1 % alignment = 0) ∧
    (r.1 = 0 → r.2.bitmap = s.bitmap ∧ r.2.usedBlocks = s.usedBlocks)

section Right

variable {s t : PmmState} {alignment first : Nat}

/-- The result of the call, where it does not divide by zero. -/
theorem checked_eq_some (halign : alignment % blockSize = 0) (hne : alignment ≠ 0) :
    pmmAllocBlockAlignedChecked alignment s = some (pmmAllocBlockAligned alignment s) := by
  rw [pmmAllocBlockAlignedChecked, if_pos halign, alignedAttempts_eq hne]
  rfl

theorem alignedRight_zero (s : PmmState) : ¬AlignedRight 0 s := by
  rintro ⟨r, hr, _⟩
  cases hr

/-- A call that returns `NULL` and leaves the bitmap is right if there is no run. -/
theorem alignedRight_null (halign : alignment % blockSize = 0) (hne : alignment ≠ 0)
    (hresult : pmmAllocBlockAligned alignment s = (0, t)) (hbits : t.bitmap = s.bitmap)
    (hused : t.usedBlocks = s.usedBlocks) :
    AlignedRight alignment s ↔
      ¬∃ b, b ≠ 0 ∧ b * blockSize % alignment = 0 ∧ s.FreeRun (alignment / blockSize) b := by
  rw [AlignedRight, checked_eq_some halign hne, hresult]
  constructor
  · rintro ⟨r, hr, hfound, _⟩ haligned
    cases hr
    exact (hfound haligned).1 rfl
  · intro hnone
    exact ⟨_, rfl, fun haligned => absurd haligned hnone, fun _ => ⟨hbits, hused⟩⟩

/-- A call that takes an aligned run is right if that run is not at block 0, which
would be used under the address `NULL`. -/
theorem alignedRight_run (halign : alignment % blockSize = 0)
    (hne : alignment ≠ 0) (hfirst : s.FirstRun (alignment / blockSize) first)
    (hmultiple : first * blockSize % alignment = 0)
    (hresult : pmmAllocBlockAligned alignment s =
      (first * blockSize, s.marked true first (alignment / blockSize)
        (add64 s.usedBlocks (alignment / blockSize)) (first + alignment / blockSize))) :
    AlignedRight alignment s ↔ first ≠ 0 := by
  rw [AlignedRight, checked_eq_some halign hne, hresult]
  constructor
  · rintro ⟨r, hr, _, hkept⟩ hzero
    cases hr
    have hbits := (hkept (by rw [hzero]; rfl)).1
    have hself : InBlocks first (alignment / blockSize) first := by
      refine ⟨Nat.le_refl _, ?_⟩
      unfold blockSize at *
      omega
    have hused := isUsed_marked (s := s) true first (alignment / blockSize)
      (add64 s.usedBlocks (alignment / blockSize)) (first + alignment / blockSize) first
    rw [if_pos hself, PmmState.isUsed, hbits] at hused
    exact Bool.noConfusion (hused.symm.trans (hfirst.run.2 first hself))
  · intro hnonzero
    have haddress : first * blockSize ≠ 0 := Nat.mul_ne_zero hnonzero (by decide)
    exact ⟨_, rfl, fun _ => ⟨haddress, hmultiple⟩, fun hnull => absurd hnull haddress⟩

end Right

/-- **Aligned allocation.**  In every state of the allocator and for every alignment
that passes the assertion, the call is right if and only if the alignment is not 0,
the search does not start with a run at block 0, and, if there is an aligned run
above block 0, the first run at or above the hint is aligned. -/
theorem block_alloc_aligned_iff (memSize : Nat) (hmem : memSize < 2 ^ 64)
    (bitmapBase : Nat → Nat) (hbase : ∀ j, bitmapBase j < 2 ^ 64) (s : PmmState)
    (hrun : ReflTransGen PmmStep (pmmInit memSize bitmapBase .zero) s) (alignment : Nat)
    (halign : alignment % blockSize = 0) :
    AlignedRight alignment s ↔
      alignment ≠ 0 ∧ ¬s.FirstRun (alignment / blockSize) 0 ∧
        ((∃ b, b ≠ 0 ∧ b * blockSize % alignment = 0 ∧ s.FreeRun (alignment / blockSize) b) →
          ∃ b, s.FirstRun (alignment / blockSize) b ∧ b * blockSize % alignment = 0) := by
  have h : PmmInv s :=
    run_invariant PmmInv (fun _ _ h => h.step) hrun (pmmInv_init hmem hbase)
  by_cases hzero : alignment = 0
  · -- the first attempt divides by zero
    subst hzero
    exact iff_of_false (alignedRight_zero s) fun hcond => hcond.1 rfl
  rw [and_iff_right hzero]
  rcases h.aligned_cases halign hzero with
    ⟨hresult, hnone⟩ | ⟨first, hfirst, ⟨hmod, hresult⟩ | ⟨hmod, hresult⟩⟩
  · -- no run at or above the hint
    rw [alignedRight_null halign hzero hresult rfl rfl,
      and_iff_right fun hfirst => hnone 0 hfirst.above hfirst.run]
    refine ⟨fun hno haligned => absurd haligned hno, fun hfound haligned => ?_⟩
    rcases hfound haligned with ⟨b, hb, _⟩
    exact hnone b hb.above hb.run
  · -- the first run is aligned
    have hmultiple := (mul_blockSize_mod halign first).mpr hmod
    rw [alignedRight_run halign hzero hfirst hmultiple hresult,
      and_iff_left fun _ => ⟨first, hfirst, hmultiple⟩]
    constructor
    · exact fun hne hfirst' => hne (hfirst.unique hfirst')
    · rintro hnot rfl
      exact hnot hfirst
  · -- the first run is not aligned, and every attempt finds it
    have hnotZero : ¬s.FirstRun (alignment / blockSize) 0 := by
      intro hfirst'
      rw [hfirst.unique hfirst', Nat.zero_mod] at hmod
      exact hmod rfl
    rw [alignedRight_null halign hzero hresult rfl rfl, and_iff_right hnotZero]
    refine ⟨fun hno haligned => absurd haligned hno, fun hfound haligned => ?_⟩
    rcases hfound haligned with ⟨b, hb, hmultiple⟩
    rw [mul_blockSize_mod halign, hb.unique hfirst] at hmultiple
    exact hmod hmultiple

/-- Sixteen blocks, of which two and three are free. -/
def evenPair : PmmState := pmmMarkRegion 8192 8192 false (pmmInit 65536 (fun _ => 0) .zero)

/-- Sixteen blocks, of which one, two and three are free. -/
def oddTriple : PmmState := pmmMarkRegion 4096 12288 false (pmmInit 65536 (fun _ => 0) .zero)

/-- A pair of blocks at an even block. -/
theorem block_alloc_aligned_pair : AlignedRight 8192 evenPair := by
  have hbit : ∀ b, evenPair.FreeRun 2 b → evenPair.isUsed b = false :=
    fun b hrun => hrun.2 b ⟨Nat.le_refl b, by omega⟩
  have hused : evenPair.isUsed 0 = true ∧ evenPair.isUsed 1 = true := by decide +kernel
  have hrun : evenPair.FreeRun 2 2 := by
    refine ⟨by decide, ?_⟩
    rintro k ⟨hk, hk'⟩
    have hcases : k = 2 ∨ k = 3 := by omega
    rcases hcases with rfl | rfl <;> decide +kernel
  have hfirst : evenPair.FirstRun 2 2 := by
    refine ⟨hrun, by decide, ?_⟩
    intro b _ hb hfree
    have hclear := hbit b hfree
    have hcases : b = 0 ∨ b = 1 := by omega
    rcases hcases with rfl | rfl
    · cases hused.1.symm.trans hclear
    · cases hused.2.symm.trans hclear
  refine (block_alloc_aligned_iff 65536 (by decide) (fun _ => 0) (fun _ => by decide) evenPair
    (.single (.mark _ 8192 8192 false)) 8192 (by decide)).mpr ⟨by decide, ?_, ?_⟩
  · intro hzero
    have hclear := hbit 0 hzero.run
    cases hused.1.symm.trans hclear
  · exact fun _ => ⟨2, hfirst, by decide⟩

/-- An alignment of 0 passes the assertion and the call divides by it.  And where
the blocks one to three are free, the call for two blocks at a multiple of two fails,
though the blocks two and three are such a run. -/
theorem block_alloc_aligned_fails :
    0 % blockSize = 0 ∧ pmmAllocBlockAlignedChecked 0 evenPair = none ∧
      oddTriple.FreeRun 2 2 ∧ 2 * blockSize % 8192 = 0 ∧
      (pmmAllocBlockAlignedChecked 8192 oddTriple).map Prod.fst = some 0 := by
  refine ⟨by decide, rfl, ⟨by decide, ?_⟩, by decide, by decide +kernel⟩
  rintro k ⟨hk, hk'⟩
  have hcases : k = 2 ∨ k = 3 := by omega
  rcases hcases with rfl | rfl <;> decide +kernel

end FarouKernel.Ports.Block
