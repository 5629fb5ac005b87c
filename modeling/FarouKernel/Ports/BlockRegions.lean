import FarouKernel.Ports.BlockRuns

/-!
# Marking regions of memory

`pmm_mark_region` rounds its region inwards, to the blocks that lie wholly inside,
for both directions.  For a region that becomes free this is the conservative
side; of a region that becomes used, the blocks at its two ends stay as they were.

The rounded size is a difference of unsigned numbers.  A region that does not
reach the next block boundary makes it negative, and `2 ^ 52 - 1` blocks are
marked instead of none.
-/

namespace FarouKernel.Ports.Block

open Verified

/-- A byte of the region lies in block `k`. -/
def Overlaps (base size k : Nat) : Prop := ∃ x, base ≤ x ∧ x < base + size ∧ x / blockSize = k

/-- Block `k` lies wholly inside the region. -/
def Inside (base size k : Nat) : Prop :=
  base ≤ k * blockSize ∧ k * blockSize + blockSize ≤ base + size

/-- The blocks a conservative marking of the region changes. -/
def PmmState.RegionBlocks (s : PmmState) (base size : Nat) (used : Bool) (k : Nat) : Prop :=
  if used = true then k < s.totalBlocks ∧ Overlaps base size k else Inside base size k

/-- `s'` is `s` with the region marked conservatively. -/
structure MarkedConservatively (base size : Nat) (used : Bool) (s s' : PmmState) : Prop where
  marked : ∀ k, s.RegionBlocks base size used k → s'.isUsed k = used
  kept : ∀ k, ¬s.RegionBlocks base size used k → s'.isUsed k = s.isUsed k

/-- The number of bytes from `base` to the next block boundary. -/
def gapTo (base : Nat) : Nat := (blockSize - base % blockSize) % blockSize

/-- The first block behind `base`, as the code computes it. -/
def startBlockOf (base : Nat) : Nat := add64 base (blockSize - 1) / blockSize

section Regions

variable {s : PmmState} {base size k : Nat} {used : Bool}

theorem overlaps_iff :
    Overlaps base size k ↔ 0 < size ∧ base < k * blockSize + blockSize ∧
      k * blockSize < base + size := by
  unfold Overlaps blockSize
  constructor
  · rintro ⟨x, hx, hx', rfl⟩
    omega
  · rintro ⟨hsize, hbase, hend⟩
    by_cases hle : base ≤ k * 4096
    · exact ⟨k * 4096, hle, hend, by omega⟩
    · exact ⟨base, Nat.le_refl _, by omega, by omega⟩

/-- The address `align_base` of the code. -/
theorem alignBase_eq (base : Nat) :
    add64 base (blockSize - 1) &&& not64 (blockSize - 1) = startBlockOf base * blockSize :=
  and_not64_lowMask (k := 12) (add64_lt _ _) (by decide)

/-- The number of blocks the code marks. -/
def markedBlocks (base size : Nat) : Nat :=
  if gapTo base ≤ size then (size - gapTo base) / blockSize else 2 ^ 52 - 1

/-- The rounded size, also where it wraps around. -/
theorem alignSize_div (hend : base + size < 2 ^ 64) :
    sub64 size (sub64 (startBlockOf base * blockSize) base) / blockSize =
      markedBlocks base size := by
  have hgap : sub64 (startBlockOf base * blockSize) base = gapTo base := by
    unfold sub64 startBlockOf gapTo add64 blockSize
    omega
  have hlt : gapTo base < 4096 := Nat.mod_lt _ (by decide)
  rw [hgap]
  unfold markedBlocks sub64 blockSize
  split <;> omega

/-- The marked blocks end before the indices wrap around. -/
theorem startBlockOf_add_lt (hend : base + size < 2 ^ 64) :
    startBlockOf base + markedBlocks base size < 2 ^ 53 := by
  have hstart : startBlockOf base < 2 ^ 52 := by
    unfold startBlockOf add64 blockSize
    omega
  have hblocks : markedBlocks base size < 2 ^ 52 := by
    unfold markedBlocks blockSize
    split <;> omega
  omega

/-- **`pmm_mark_region`** of any region inside memory. -/
theorem BlockWf.markRegion_eq (h : BlockWf s) (hin : base + size ≤ s.memorySize) (used : Bool) :
    pmmMarkRegion base size used s =
      s.marked used (startBlockOf base) (markedBlocks base size)
        (adjusted used s.usedBlocks (markedBlocks base size)) s.lastFreeBlock := by
  have hmemory := h.memory
  have hend : base + size < 2 ^ 64 := by omega
  have hnowrap := startBlockOf_add_lt hend
  have hstart : startBlockOf base * blockSize / blockSize = startBlockOf base :=
    Nat.mul_div_cancel _ (by decide)
  simp only [pmmMarkRegion, alignBase_eq, alignSize_div hend, hstart, setBlocks_eq
    (show startBlockOf base + markedBlocks base size ≤ 2 ^ 64 by omega), PmmState.marked, adjusted]

/-- A region that reaches the next block boundary: the code marks the blocks
inside. -/
theorem inBlocks_iff_inside (hend : base + size < 2 ^ 64) (hgap : gapTo base ≤ size) :
    InBlocks (startBlockOf base) (markedBlocks base size) k ↔ Inside base size k := by
  unfold markedBlocks
  rw [if_pos hgap]
  unfold InBlocks Inside startBlockOf gapTo add64 blockSize at *
  omega

/-- In a region that does not, there is no whole block. -/
theorem not_inside (hgap : size < gapTo base) : ¬Inside base size k := by
  unfold Inside gapTo blockSize at *
  omega

/-- The region then lies in one block, which is not among those the code marks. -/
theorem not_inBlocks_of_overlaps (h : BlockWf s) (hin : base + size ≤ s.memorySize)
    (hgap : size < gapTo base) (hk : k < s.totalBlocks) (hoverlaps : Overlaps base size k) :
    ¬InBlocks (startBlockOf base) (markedBlocks base size) k := by
  have hmemory := h.memory
  have htotal := h.total
  rw [overlaps_iff] at hoverlaps
  unfold markedBlocks
  rw [if_neg (Nat.not_le.mpr hgap)]
  unfold InBlocks startBlockOf gapTo add64 blockSize at *
  omega

theorem Inside.overlaps (h : Inside base size k) : Overlaps base size k := by
  rw [overlaps_iff]
  unfold Inside blockSize at *
  omega

theorem Inside.lt_total (h : Inside base size k) (hwf : BlockWf s)
    (hin : base + size ≤ s.memorySize) : k < s.totalBlocks := by
  rw [hwf.total]
  unfold Inside blockSize at *
  omega

/-- Marking one set of blocks does what marking another would do exactly if each
block in which they differ had its new value before. -/
theorem markedConservatively_iff {b n usedBlocks last : Nat} :
    MarkedConservatively base size used s (s.marked used b n usedBlocks last) ↔
      (∀ k, s.RegionBlocks base size used k → ¬InBlocks b n k → s.isUsed k = used) ∧
        ∀ k, ¬s.RegionBlocks base size used k → InBlocks b n k → s.isUsed k = used := by
  constructor
  · rintro ⟨hmarked, hkept⟩
    constructor
    · intro k hregion hout
      have hbit := hmarked k hregion
      rwa [isUsed_marked, if_neg hout] at hbit
    · intro k hregion hblocks
      have hbit := hkept k hregion
      rw [isUsed_marked, if_pos hblocks] at hbit
      exact hbit.symm
  · rintro ⟨hmissing, hextra⟩
    constructor
    · intro k hregion
      rw [isUsed_marked]
      split
      · rfl
      · rename_i hout
        exact hmissing k hregion hout
    · intro k hregion
      rw [isUsed_marked]
      split
      · rename_i hblocks
        exact (hextra k hregion hblocks).symm
      · rfl

end Regions

/-- **Conservative marking.**  `pmm_mark_region` of a region inside memory changes
exactly the blocks it should, those that meet the region if it becomes used and
those inside it if it becomes free, if and only if every block that a region to be
used covers in part is used already, and the region reaches the next block
boundary or else all the `2 ^ 52 - 1` blocks behind it have the new value already. -/
theorem mark_region_conservative_iff (s : PmmState) (h : BlockWf s) (base size : Nat)
    (hin : base + size ≤ s.memorySize) (used : Bool) :
    MarkedConservatively base size used s (pmmMarkRegion base size used s) ↔
      (used = true → ∀ k, k < s.totalBlocks → Overlaps base size k → ¬Inside base size k →
        s.isUsed k = true) ∧
      (size < gapTo base → ∀ k, InBlocks (startBlockOf base) (2 ^ 52 - 1) k →
        s.isUsed k = used) := by
  have hmemory := h.memory
  have hend : base + size < 2 ^ 64 := by omega
  rw [h.markRegion_eq hin, markedConservatively_iff]
  by_cases hgap : gapTo base ≤ size
  · -- the code marks the blocks inside, so only blocks at the ends can be missing
    simp only [inBlocks_iff_inside hend hgap]
    rw [and_iff_left (b := size < gapTo base → _) fun hlt => absurd hgap (Nat.not_le.mpr hlt)]
    cases used with
    | false =>
      constructor
      · intro _ hfalse
        cases hfalse
      · intro _
        exact ⟨fun k hregion hout => absurd hregion hout,
          fun k hregion hblocks => absurd hblocks hregion⟩
    | true =>
      constructor
      · rintro ⟨hmissing, _⟩ _ k hk hoverlaps hout
        exact hmissing k ⟨hk, hoverlaps⟩ hout
      · intro hpart
        constructor
        · rintro k ⟨hk, hoverlaps⟩ hout
          exact hpart rfl k hk hoverlaps hout
        · intro k hregion hinside
          exact absurd ⟨hinside.lt_total h hin, hinside.overlaps⟩ hregion
  · have hlt : size < gapTo base := Nat.not_le.mp hgap
    have hblocks : markedBlocks base size = 2 ^ 52 - 1 := if_neg hgap
    have hapart : ∀ k, s.RegionBlocks base size used k →
        ¬InBlocks (startBlockOf base) (markedBlocks base size) k := by
      intro k hregion
      cases used with
      | false => exact absurd hregion (not_inside hlt)
      | true => exact not_inBlocks_of_overlaps h hin hlt hregion.1 hregion.2
    rw [hblocks] at hapart ⊢
    constructor
    · rintro ⟨hmissing, hextra⟩
      constructor
      · rintro rfl k hk hoverlaps _
        exact hmissing k ⟨hk, hoverlaps⟩ (hapart k ⟨hk, hoverlaps⟩)
      · intro _ k hk
        exact hextra k (fun hregion => hapart k hregion hk) hk
    · rintro ⟨hpart, hextra⟩
      constructor
      · intro k hregion _
        cases used with
        | false => exact absurd hregion (not_inside hlt)
        | true => exact hpart rfl k hregion.1 hregion.2 (not_inside hlt)
      · intro k _ hk
        exact hextra hlt k hk

/-- Two whole blocks are marked as used. -/
theorem mark_region_conservative_two :
    MarkedConservatively 4096 8192 true twoFree.state
      (pmmMarkRegion 4096 8192 true twoFree.state) := by
  have hwf : BlockWf twoFree.state := by
    have hinit : ConfigWf (BlockConfig.init 65536 fun _ => 0) :=
      configWf_init (by decide) fun _ => by decide
    have hop : (BlockConfig.init 65536 fun _ => 0).Admissible (.mark 4096 8192 false) :=
      ⟨by decide, by decide, by decide⟩
    exact (hinit.apply hop).wf
  apply (mark_region_conservative_iff twoFree.state hwf 4096 8192 (by decide) true).mpr
  constructor
  · intro _ k _ hoverlaps hout
    rw [overlaps_iff] at hoverlaps
    unfold Inside blockSize at *
    omega
  · intro hlt
    exact absurd hlt (by decide)

/-- Sixteen blocks.  With all of them free, marking the first hundred bytes as used
leaves block 0 free.  With all of them used, marking a byte of block 0 as free makes
block 5 free, and so the index 100, behind the last block. -/
theorem mark_region_not_conservative :
    (pmmMarkRegion 0 100 true
        (pmmMarkRegion 0 65536 false (pmmInit 65536 (fun _ => 0) .zero))).isUsed 0 = false ∧
      (pmmInit 65536 (fun _ => 2 ^ 64 - 1) .zero).isUsed 5 = true ∧
      (pmmMarkRegion 1 1 false (pmmInit 65536 (fun _ => 2 ^ 64 - 1) .zero)).isUsed 5 = false ∧
      (pmmInit 65536 (fun _ => 2 ^ 64 - 1) .zero).isUsed 100 = true ∧
      (pmmMarkRegion 1 1 false (pmmInit 65536 (fun _ => 2 ^ 64 - 1) .zero)).isUsed 100 = false := by
  have hwf : BlockWf (pmmInit 65536 (fun _ => 2 ^ 64 - 1) .zero) :=
    pmmInit_wf (by decide) fun _ => by decide
  have hblocks : ∀ k, InBlocks (startBlockOf 1) (markedBlocks 1 1) k →
      (pmmMarkRegion 1 1 false (pmmInit 65536 (fun _ => 2 ^ 64 - 1) .zero)).isUsed k = false := by
    intro k hk
    rw [hwf.markRegion_eq (by decide), isUsed_marked, if_pos hk]
  refine ⟨by decide +kernel, by decide, hblocks 5 (by decide), by decide, hblocks 100 (by decide)⟩

end FarouKernel.Ports.Block
