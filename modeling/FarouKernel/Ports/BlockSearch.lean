import FarouKernel.Ports.BlockRuns

/-!
# What the search for blocks finds

`pmm_alloc_blocks` takes the first run of free blocks at or above the hint
`last_free_block`.  It never looks below the hint, so the search is complete only
as long as no free block lies there.  `pmm_free_blocks` keeps it so by moving the
hint back; an allocation that skips a hole moves the hint over it, and
`pmm_mark_region` does not move it at all.  Moreover the address of block 0 is the
value for a failure.

`pmm_alloc_block_aligned` takes a run, and gives it back if it is not aligned.
Giving it back moves the hint to the run, so each of the three attempts finds the
same one.
-/

namespace FarouKernel.Ports.Block

open Relation Verified

section Search

variable {s : PmmState} {count b : Nat}

theorem PmmState.FirstRun.unique {b' : Nat} (h : s.FirstRun count b) (h' : s.FirstRun count b') :
    b = b' := by
  by_contra hne
  rcases Nat.lt_or_gt_of_ne hne with hlt | hlt
  · exact h'.first b h.above hlt h.run
  · exact h.first b' h'.above hlt h'.run

/-! ## The search and the hint -/

/-- The call fails exactly if there is no run of `count` free blocks, and then
changes nothing. -/
structure FailsOnlyIfFull (count : Nat) (s : PmmState) : Prop where
  null_iff : (pmmAllocBlocks count s).1 = 0 ↔ ∀ b, ¬s.FreeRun count b
  kept : (pmmAllocBlocks count s).1 = 0 → (pmmAllocBlocks count s).2.bitmap = s.bitmap ∧
    (pmmAllocBlocks count s).2.usedBlocks = s.usedBlocks ∧
    (pmmAllocBlocks count s).2.lastFreeBlock = s.lastFreeBlock

/-- If there is a run of `count` free blocks then there is one at or above the
hint, and the search does not start with one at block 0. -/
structure HintServes (count : Nat) (s : PmmState) : Prop where
  above : ∀ b, s.FreeRun count b → ∃ b', s.lastFreeBlock ≤ b' ∧ s.FreeRun count b'
  notZero : s.lastFreeBlock = 0 → ¬s.FreeRun count 0

theorem BlockWf.failsOnlyIfFull_iff (h : BlockWf s) (hcount : 0 < count) :
    FailsOnlyIfFull count s ↔ HintServes count s := by
  rcases h.alloc_first hcount with ⟨hnone, habove⟩ | ⟨first, hfirst, hsome⟩
  · -- nothing at or above the hint
    constructor
    · intro hfails
      have hfull : ∀ b, ¬s.FreeRun count b := by rw [← hfails.null_iff, hnone]
      exact ⟨fun b hb => absurd hb (hfull b), fun _ => hfull 0⟩
    · intro hserves
      have hfull : ∀ b, ¬s.FreeRun count b := by
        intro b hb
        rcases hserves.above b hb with ⟨b', hle, hb'⟩
        exact habove b' hle hb'
      constructor
      · rw [hnone]
        exact ⟨fun _ => hfull, fun _ => rfl⟩
      · intro _
        rw [hnone]
        exact ⟨rfl, rfl, rfl⟩
  · have hnull : (pmmAllocBlocks count s).1 = 0 ↔ first = 0 := by
      rw [hsome]
      unfold blockSize
      omega
    constructor
    · intro hfails
      refine ⟨fun _ _ => ⟨first, hfirst.above, hfirst.run⟩, ?_⟩
      intro hzero hrun
      -- the run at block 0 is the first one, and its address is `NULL`
      have hfound : first = 0 :=
        hfirst.unique ⟨hrun, by omega, fun b _ hb => absurd hb (Nat.not_lt_zero b)⟩
      exact hfails.null_iff.mp (hnull.mpr hfound) 0 hrun
    · intro hserves
      have hne : first ≠ 0 := by
        intro hzero
        have habove := hfirst.above
        have hrun := hfirst.run
        rw [hzero] at habove hrun
        exact hserves.notZero (Nat.le_zero.mp habove) hrun
      constructor
      · rw [hnull]
        exact ⟨fun hzero => absurd hzero hne, fun hfull => absurd hfirst.run (hfull first)⟩
      · intro hzero
        exact absurd (hnull.mp hzero) hne

end Search

/-! ## Runs that keep the hint -/

/-- The steps of all runs. -/
def AdmissibleStep (c c' : BlockConfig) : Prop := ∃ op, c.Admissible op ∧ c' = c.apply op

/-- The operation leaves no free block below the hint: a region that becomes free
lies at or above the hint and above block 0, and an allocation that finds a run
finds it at the lowest free block. -/
def BlockConfig.KeepsHint (c : BlockConfig) : BlockOp → Prop
  | .mark base size used =>
    used = false → ∀ k, InBlocks (base / blockSize) (size / blockSize) k →
      0 < k ∧ c.state.lastFreeBlock ≤ k
  | .alloc count =>
    ∀ b, c.state.FirstRun count b → ∀ k, c.state.lastFreeBlock ≤ k → k < b →
      c.state.isUsed k = true
  | .free _ _ => True

/-- The steps of runs that keep the hint. -/
def HintStep (c c' : BlockConfig) : Prop :=
  ∃ op, c.Admissible op ∧ c.KeepsHint op ∧ c' = c.apply op

/-- All blocks below the hint are used, and so is block 0. -/
structure HintInv (c : BlockConfig) : Prop where
  config : ConfigWf c
  below : ∀ k, k < c.state.lastFreeBlock → c.state.isUsed k = true
  zero : 0 < c.state.totalBlocks → c.state.isUsed 0 = true

section Hint

variable {c c' : BlockConfig}

theorem HintInv.serves (h : HintInv c) {count : Nat} (hcount : 0 < count) :
    HintServes count c.state := by
  constructor
  · intro b hb
    refine ⟨b, ?_, hb⟩
    by_contra hlt
    have hused := h.below b (Nat.not_le.mp hlt)
    rw [hb.2 b ⟨Nat.le_refl b, by omega⟩] at hused
    cases hused
  · intro _ hrun
    have hused := h.zero (by have := hrun.1; omega)
    rw [hrun.2 0 ⟨Nat.le_refl 0, by omega⟩] at hused
    cases hused

theorem hintInv_init {memSize : Nat} {bitmapBase : Nat → Nat} (hmem : memSize < 2 ^ 64)
    (hbase : ∀ j, bitmapBase j < 2 ^ 64) : HintInv (BlockConfig.init memSize bitmapBase) where
  config := configWf_init hmem hbase
  below k hk := absurd hk (Nat.not_lt_zero k)
  zero hpos := by
    have hall := Nat.count_iff_forall.mp (counted_init memSize bitmapBase).symm
    exact hall 0 hpos

theorem HintInv.mark (h : HintInv c) {base size : Nat} {used : Bool}
    (hop : c.Admissible (.mark base size used)) (hkeeps : c.KeepsHint (.mark base size used)) :
    HintInv (c.apply (.mark base size used)) := by
  have hbit : ∀ k, (k = 0 ∨ k < c.state.lastFreeBlock) → c.state.isUsed k = true →
      (c.apply (.mark base size used)).state.isUsed k = true := by
    intro k hk hused
    show (pmmMarkRegion base size used c.state).isUsed k = true
    rw [h.config.wf.mark_eq hop.1 hop.2.2, isUsed_marked]
    split
    · rename_i hin
      cases used with
      | true => rfl
      | false =>
        have habove := hkeeps rfl k hin
        omega
    · exact hused
  exact ⟨h.config.apply hop, fun k hk => hbit k (Or.inr hk) (h.below k hk),
    fun hpos => hbit 0 (Or.inl rfl) (h.zero hpos)⟩

theorem HintInv.alloc (h : HintInv c) {count : Nat} (hkeeps : c.KeepsHint (.alloc count)) :
    HintInv (c.apply (.alloc count)) := by
  have hconfig : ConfigWf (c.apply (.alloc count)) := h.config.apply trivial
  have hstate : (c.apply (.alloc count)).state = (pmmAllocBlocks count c.state).2 := rfl
  rcases Nat.eq_zero_or_pos count with rfl | hpos
  · have hnone : pmmAllocBlocks 0 c.state = (0, c.state) := by
      unfold pmmAllocBlocks
      exact if_pos (Or.inr rfl)
    rw [hnone] at hstate
    exact ⟨hconfig, hstate ▸ h.below, hstate ▸ h.zero⟩
  rcases h.config.wf.alloc_first hpos with ⟨hnone, _⟩ | ⟨first, hfirst, hsome⟩
  · rw [hnone] at hstate
    exact ⟨hconfig, hstate ▸ h.below, hstate ▸ h.zero⟩
  · rw [hsome] at hstate
    refine ⟨hconfig, ?_, ?_⟩
    · rw [hstate]
      intro k hk
      have hend : k < first + count := hk
      rw [isUsed_marked]
      split
      · rfl
      · rename_i hout
        unfold InBlocks at hout
        by_cases hlt : k < c.state.lastFreeBlock
        · exact h.below k hlt
        · exact hkeeps first hfirst k (Nat.not_lt.mp hlt) (by omega)
    · rw [hstate]
      intro htotal
      rw [isUsed_marked]
      split
      · rfl
      · exact h.zero htotal

theorem HintInv.free (h : HintInv c) {block count : Nat} (hop : (block, count) ∈ c.live) :
    HintInv (c.apply (.free block count)) := by
  have hplaced := h.config.placed _ hop
  have hstate : (c.apply (.free block count)).state =
      c.state.marked false (block / blockSize) count (sub64 c.state.usedBlocks count)
        (if block / blockSize < c.state.lastFreeBlock then block / blockSize
          else c.state.lastFreeBlock) :=
    h.config.wf.free_marked hplaced.address hplaced.count hplaced.inside
  have hstart : 0 < block / blockSize := by
    have haddress := hplaced.address
    have haligned := hplaced.aligned
    unfold blockSize at *
    omega
  refine ⟨h.config.apply hop, ?_, ?_⟩
  · rw [hstate]
    intro k hk
    -- the hint is now at most the first block that was freed
    have hboth : k < block / blockSize ∧ k < c.state.lastFreeBlock := by
      have hmin : k < if block / blockSize < c.state.lastFreeBlock then block / blockSize
          else c.state.lastFreeBlock := hk
      split at hmin <;> omega
    rw [isUsed_marked, if_neg (by unfold InBlocks; omega)]
    exact h.below k hboth.2
  · rw [hstate]
    intro htotal
    rw [isUsed_marked, if_neg (by unfold InBlocks; omega)]
    exact h.zero htotal

theorem HintInv.step (h : HintInv c) (hstep : HintStep c c') : HintInv c' := by
  rcases hstep with ⟨op, hop, hkeeps, rfl⟩
  cases op with
  | mark base size used => exact h.mark hop hkeeps
  | alloc count => exact h.alloc hkeeps
  | free block count => exact h.free hop

end Hint

/-- **When the search is complete.**  In every state of a run, an allocation of one
or more blocks fails exactly if there is no run of that many free blocks, and then
changes nothing, if and only if the hint serves that number of blocks.  In a run
whose operations all keep the hint, that is so for every number in every state. -/
theorem block_alloc_complete_iff (memSize : Nat) (hmem : memSize < 2 ^ 64)
    (bitmapBase : Nat → Nat) (hbase : ∀ j, bitmapBase j < 2 ^ 64) (c : BlockConfig)
    (hrun : ReflTransGen AdmissibleStep (BlockConfig.init memSize bitmapBase) c) (count : Nat)
    (hcount : 1 ≤ count) :
    (FailsOnlyIfFull count c.state ↔ HintServes count c.state) ∧
      (ReflTransGen HintStep (BlockConfig.init memSize bitmapBase) c →
        FailsOnlyIfFull count c.state) := by
  have hconfig : ConfigWf c := by
    refine run_invariant ConfigWf ?_ hrun (configWf_init hmem hbase)
    rintro c c' h ⟨op, hop, rfl⟩
    exact h.apply hop
  have hiff := hconfig.wf.failsOnlyIfFull_iff hcount
  refine ⟨hiff, ?_⟩
  intro hkept
  have hinv : HintInv c :=
    run_invariant HintInv (fun _ _ h => h.step) hkept (hintInv_init hmem hbase)
  exact hiff.mpr (hinv.serves hcount)

/-- Two free blocks above block 0. -/
theorem block_alloc_complete_two : FailsOnlyIfFull 2 twoFree.state := by
  have hop : (BlockConfig.init 65536 fun _ => 0).Admissible (.mark 4096 8192 false) :=
    ⟨by decide, by decide, by decide⟩
  have hkeeps : (BlockConfig.init 65536 fun _ => 0).KeepsHint (.mark 4096 8192 false) := by
    rintro _ k ⟨hk, _⟩
    exact ⟨Nat.lt_of_lt_of_le (by decide) hk, Nat.zero_le k⟩
  exact (block_alloc_complete_iff 65536 (by decide) (fun _ => 0) (fun _ => by decide) twoFree
    (.single ⟨_, hop, rfl⟩) 2 (by decide)).2 (.single ⟨_, hop, hkeeps, rfl⟩)

/-- Sixteen blocks, of which 1, 3 and 4 become free; then two blocks are allocated. -/
def skippedHole : BlockConfig :=
  (((BlockConfig.init 65536 fun _ => 0).apply (.mark 4096 4096 false)).apply
    (.mark 12288 8192 false)).apply (.alloc 2)

/-- The search for one block misses block 1, below the hint.  And where block 0 is
free, it is taken and reported as a failure. -/
theorem block_alloc_misses_free_block :
    ReflTransGen AdmissibleStep (BlockConfig.init 65536 fun _ => 0) skippedHole ∧
      skippedHole.state.FreeRun 1 1 ∧ (pmmAllocBlocks 1 skippedHole.state).1 = 0 ∧
      (BlockConfig.init 65536 fun _ => 0).Admissible (.mark 0 4096 false) ∧
      (pmmAllocBlocks 1 ((BlockConfig.init 65536 fun _ => 0).apply (.mark 0 4096 false)).state).1 =
        0 ∧
      ((BlockConfig.init 65536 fun _ => 0).apply (.mark 0 4096 false)).state.isUsed 0 = false ∧
      (pmmAllocBlocks 1
        ((BlockConfig.init 65536 fun _ => 0).apply (.mark 0 4096 false)).state).2.isUsed 0 =
        true := by
  have hrun : ReflTransGen AdmissibleStep (BlockConfig.init 65536 fun _ => 0) skippedHole :=
    .head ⟨.mark 4096 4096 false, ⟨by decide, by decide, by decide⟩, rfl⟩ <|
    .head ⟨.mark 12288 8192 false, ⟨by decide, by decide, by decide⟩, rfl⟩ <|
    .single ⟨.alloc 2, trivial, rfl⟩
  refine ⟨hrun, ⟨by decide, ?_⟩,
    by decide +kernel, ⟨by decide, by decide, by decide⟩, by decide +kernel, by decide +kernel,
    by decide +kernel⟩
  rintro k ⟨hk, hk'⟩
  rw [show k = 1 by omega]
  decide +kernel

end FarouKernel.Ports.Block
