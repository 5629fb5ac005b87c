import FarouKernel.Ports.PmmFrames
import FarouKernel.Verified.RunScan

/-!
# The search for contiguous frames

`pmm_find_first_free_contiguous` goes once around the frames, starting behind the
hint, and counts the free frames in a row.  For more than one frame this differs
from looking for a run of frames in two ways.

* The counter is not reset between the last frame and frame 0.  Free frames at the
  end and at the beginning of memory are taken for one run, and the result, the
  number of the frame reached minus `count - 1`, is negative.
* The lap ends where it started.  A run of frames that begins before the starting
  point and ends behind it is seen in two parts and not found.
-/

namespace FarouKernel.Ports.Pmm

open Verified ByteMem Ports.Memory

/-- The `n` frames from `first` on are free. -/
def Machine.FreeFrames (s : Machine) (first n : Nat) : Prop :=
  ∀ f, first ≤ f → f < first + n → s.frameUsed f = false

/-- There are `count` consecutive free frames among the frames from `lo` up to `hi`. -/
def Machine.RunIn (s : Machine) (count lo hi : Nat) : Prop :=
  ∃ first, lo ≤ first ∧ first + count ≤ hi ∧ s.FreeFrames first count

/-- The frame the linear search starts at. -/
def Machine.searchStart (s : Machine) : Nat :=
  if s.lastAllocatedIndex + 1 > s.highestFrame then 0 else s.lastAllocatedIndex + 1

/-- The last `t` frames, seen after the starting point, and the first `count - t`,
seen before it again, are free. -/
def Machine.RunAcross (s : Machine) (count t : Nat) : Prop :=
  0 < t ∧ t < count ∧ s.searchStart + t ≤ s.highestFrame + 1 ∧ count - t ≤ s.searchStart ∧
    s.FreeFrames (s.highestFrame + 1 - t) t ∧ s.FreeFrames 0 (count - t)

/-- What the result `k` of the search should be: the first of `count` free frames,
or `-1` if there is no such run. -/
def Machine.RightResult (s : Machine) (count : Nat) (k : Int) : Prop :=
  (k ≠ -1 → 0 ≤ k ∧ k + count - 1 ≤ s.highestFrame ∧ s.FreeFrames k.toNat count) ∧
    (k = -1 ↔ ¬s.RunIn count 0 (s.highestFrame + 1))

/-- The frames on which the search gives the right result: there is a run at or
behind the starting point; or there is one before it and none across the end of
memory; or there is none at all, and a run across the end has only its first frame
there. -/
def Machine.LapSuffices (s : Machine) (count : Nat) : Prop :=
  s.RunIn count s.searchStart (s.highestFrame + 1) ∨
    (s.RunIn count 0 s.searchStart ∧ ∀ t, ¬s.RunAcross count t) ∨
    (¬s.RunIn count 0 (s.highestFrame + 1) ∧ ∀ t, s.RunAcross count t → t = 1)

/-! ## The lap -/

/-- The frame the linear search looks at in round `offset`. -/
def Machine.lapFrame (s : Machine) (offset : Nat) : Nat :=
  (s.searchStart + offset) % (s.highestFrame + 1)

/-- The frames of the lap, in the order of the rounds. -/
def Machine.lapFree (s : Machine) (offset : Nat) : Bool := !s.frameUsed (s.lapFrame offset)

/-- A run of the lap ends in round `j`. -/
abbrev Machine.LapRun (s : Machine) (count j : Nat) : Prop := RunEnds s.lapFree 0 count j

variable {s : Machine} {count : Nat}

theorem searchStart_le (s : Machine) : s.searchStart ≤ s.highestFrame := by
  unfold Machine.searchStart
  split <;> omega

theorem lapFrame_before {offset : Nat} (h : s.searchStart + offset ≤ s.highestFrame) :
    s.lapFrame offset = s.searchStart + offset :=
  Nat.mod_eq_of_lt (by omega)

theorem lapFrame_after {offset : Nat} (h : s.highestFrame < s.searchStart + offset)
    (hle : offset ≤ s.highestFrame) :
    s.lapFrame offset = s.searchStart + offset - (s.highestFrame + 1) := by
  have hstart := searchStart_le s
  unfold Machine.lapFrame
  rw [Nat.mod_eq_sub_mod (by omega), Nat.mod_eq_of_lt (by omega)]

theorem lapFree_iff (offset : Nat) :
    s.lapFree offset = true ↔ s.frameUsed (s.lapFrame offset) = false := by
  simp [Machine.lapFree]

/-- The result of the linear search, from the round in which it stops. -/
def Machine.lapValue (s : Machine) (count : Nat) : Option Nat → Int
  | some j => toInt64 (add64 (sub64 (s.lapFrame j) count) 1)
  | none => -1

/-- The linear search is a scan of the lap. -/
theorem pmmFindRun_run (count : Nat) (hcovered : s.highestFrame < 64 * s.bitmapSizeQwords)
    (left offset consecutive : Nat) :
    pmmFindRun count s.searchStart left offset consecutive s =
      .ok (s.lapValue count (scanRun s.lapFree count left offset consecutive)) s := by
  induction left generalizing offset consecutive with
  | zero => rfl
  | succ left ih =>
    have hlt : s.lapFrame offset < s.highestFrame + 1 := Nat.mod_lt _ (Nat.succ_pos _)
    have htest := pmmBitmapTest_run (s := s) (show s.lapFrame offset / 64 < _ by omega)
    have hframe : (s.searchStart + offset) % (s.highestFrame + 1) = s.lapFrame offset := rfl
    have hfree : s.lapFree offset = !s.frameUsed (s.lapFrame offset) := rfl
    simp only [pmmFindRun, Exec.bind_apply, Exec.gets_apply, Outcome.andThen_ok, hframe, htest,
      scanRun]
    cases hused : s.frameUsed (s.lapFrame offset) with
    | true =>
      rw [hused] at hfree
      simp [hfree, ih]
    | false =>
      rw [hused] at hfree
      by_cases hend : consecutive + 1 = count
      · simp [hfree, hend, Machine.lapValue]
      · simp [hfree, hend, ih]

/-! ## Runs of the lap and runs of frames -/

/-- A run of the lap that ends before the end of memory. -/
theorem lapRun_before {j : Nat} (hj : s.searchStart + j ≤ s.highestFrame) :
    s.LapRun count j ↔ count ≤ j + 1 ∧ s.FreeFrames (s.searchStart + j + 1 - count) count := by
  unfold Machine.LapRun RunEnds
  rw [Nat.zero_add]
  refine and_congr_right fun hcount => ⟨?_, ?_⟩
  · intro h f hlo hhi
    have hfree := h (f - s.searchStart) (by omega) (by omega)
    rw [lapFree_iff, lapFrame_before (by omega)] at hfree
    rwa [show s.searchStart + (f - s.searchStart) = f by omega] at hfree
  · intro h k hlo hhi
    rw [lapFree_iff, lapFrame_before (by omega)]
    exact h _ (by omega) (by omega)

/-- A run of the lap that ends at frame `p` before the starting point: the frames up
to `p` and, if they are not enough, frames at the end of memory. -/
theorem lapRun_after {p : Nat} (hp : p < s.searchStart) :
    s.LapRun count (p + (s.highestFrame + 1) - s.searchStart) ↔
      (count ≤ p + 1 ∧ s.FreeFrames (p + 1 - count) count) ∨
        (p + 1 < count ∧ s.RunAcross count (count - (p + 1))) := by
  have hstart := searchStart_le s
  have hfreeAt : ∀ f, f < s.searchStart →
      (s.lapFree (f + (s.highestFrame + 1) - s.searchStart) = true ↔ s.frameUsed f = false) := by
    intro f hf
    rw [lapFree_iff, lapFrame_after (by omega) (by omega)]
    rw [show s.searchStart + (f + (s.highestFrame + 1) - s.searchStart) - (s.highestFrame + 1) =
      f by omega]
  have hfreeBefore : ∀ f, s.searchStart ≤ f → f ≤ s.highestFrame →
      (s.lapFree (f - s.searchStart) = true ↔ s.frameUsed f = false) := by
    intro f hf hf'
    rw [lapFree_iff, lapFrame_before (by omega)]
    rw [show s.searchStart + (f - s.searchStart) = f by omega]
  unfold Machine.LapRun RunEnds
  rw [Nat.zero_add]
  constructor
  · rintro ⟨hcount, hall⟩
    by_cases hle : count ≤ p + 1
    · left
      refine ⟨hle, fun f hlo hhi => ?_⟩
      exact (hfreeAt f (by omega)).mp (hall _ (by omega) (by omega))
    · right
      refine ⟨by omega, by omega, by omega, by omega, by omega, ?_, ?_⟩
      · intro f hlo hhi
        exact (hfreeBefore f (by omega) (by omega)).mp (hall _ (by omega) (by omega))
      · intro f _ hhi
        exact (hfreeAt f (by omega)).mp (hall _ (by omega) (by omega))
  · rintro (⟨hle, hfree⟩ | ⟨hlt, _, _, hlow, _, hlast, hfirst⟩)
    · refine ⟨by omega, fun k hlo hhi => ?_⟩
      rw [lapFree_iff, lapFrame_after (by omega) (by omega)]
      exact hfree _ (by omega) (by omega)
    · refine ⟨by omega, fun k hlo hhi => ?_⟩
      rw [lapFree_iff]
      by_cases hk : s.searchStart + k ≤ s.highestFrame
      · rw [lapFrame_before hk]
        exact hlast _ (by omega) (by omega)
      · rw [lapFrame_after (by omega) (by omega)]
        exact hfirst _ (by omega) (by omega)

/-- The result of the linear search when its lap ends at frame `p`. -/
theorem lapResult {p : Nat} (hp : p < 2 ^ 63) (hpos : 0 < count) (hcount : count ≤ 2 ^ 63) :
    toInt64 (add64 (sub64 p count) 1) = (p : Int) + 1 - count := by
  unfold toInt64 add64 sub64
  split <;> omega

/-- Any run of frames or run across the end that the lap can see ends somewhere in
the lap. -/
theorem lapRun_of_runIn_before (hcount : 0 < count)
    (h : s.RunIn count s.searchStart (s.highestFrame + 1)) :
    ∃ j, s.searchStart + j ≤ s.highestFrame ∧ s.LapRun count j := by
  obtain ⟨first, hlo, hhi, hfree⟩ := h
  refine ⟨first + count - 1 - s.searchStart, by omega, (lapRun_before (by omega)).mpr ?_⟩
  rw [show s.searchStart + (first + count - 1 - s.searchStart) + 1 - count = first by omega]
  exact ⟨by omega, hfree⟩

theorem lapRun_of_runIn_after (hcount : 0 < count) (h : s.RunIn count 0 s.searchStart) :
    ∃ p < s.searchStart, s.LapRun count (p + (s.highestFrame + 1) - s.searchStart) := by
  obtain ⟨first, _, hhi, hfree⟩ := h
  refine ⟨first + count - 1, by omega, (lapRun_after (by omega)).mpr (Or.inl ⟨by omega, ?_⟩)⟩
  rwa [show first + count - 1 + 1 - count = first by omega]

theorem lapRun_of_runAcross {t : Nat} (h : s.RunAcross count t) :
    s.LapRun count (count - t - 1 + (s.highestFrame + 1) - s.searchStart) := by
  have hlow := h.2.2.2.1
  have hlt := h.2.1
  have hpos := h.1
  refine (lapRun_after (by omega)).mpr (Or.inr ⟨by omega, ?_⟩)
  rwa [show count - (count - t - 1 + 1) = t by omega]

/-- A result that names a run of frames is right. -/
theorem rightResult_of_run {first : Nat} (hle : first + count ≤ s.highestFrame + 1)
    (hfree : s.FreeFrames first count) :
    s.RightResult count (first : Int) := by
  constructor
  · intro _
    exact ⟨by omega, by omega, hfree⟩
  · refine iff_of_false (by omega) (not_not_intro ?_)
    exact ⟨first, Nat.zero_le _, hle, hfree⟩

theorem rightResult_none : s.RightResult count (-1) ↔
    ¬s.RunIn count 0 (s.highestFrame + 1) := by
  constructor
  · intro h
    exact h.2.mp rfl
  · intro h
    exact ⟨fun hne => absurd rfl hne, iff_of_true rfl h⟩

/-- The first run of the lap ends in round `j`. -/
def Machine.FirstLapRun (s : Machine) (count j : Nat) : Prop :=
  s.LapRun count j ∧ ∀ e, s.LapRun count e → j ≤ e

section FirstRun

variable {p : Nat}
  (hfirst : s.FirstLapRun count (p + (s.highestFrame + 1) - s.searchStart))

include hfirst

theorem not_runIn_before_of_first (hcount : 0 < count) :
    ¬s.RunIn count s.searchStart (s.highestFrame + 1) := by
  intro hin
  obtain ⟨e, he, hrun⟩ := lapRun_of_runIn_before hcount hin
  have := hfirst.2 e hrun
  omega

/-- Of the runs across the end of memory, the first one the lap sees is the one with
the most frames at the end. -/
theorem runAcross_le_of_first {t : Nat} (ht : s.RunAcross count t) : t + p + 1 ≤ count := by
  have hlt := ht.2.1
  have hstart := searchStart_le s
  have := hfirst.2 _ (lapRun_of_runAcross ht)
  omega

/-- The first run of the lap lies before the starting point. -/
theorem lapSuffices_of_after (hp : p < s.searchStart) (hle : count ≤ p + 1)
    (hfree : s.FreeFrames (p + 1 - count) count) : s.LapSuffices count := by
  refine Or.inr (Or.inl ⟨⟨p + 1 - count, Nat.zero_le _, by omega, hfree⟩, ?_⟩)
  intro t ht
  have hpos := ht.1
  have := runAcross_le_of_first hfirst ht
  omega

/-- The first run of the lap goes across the end of memory. -/
theorem right_iff_of_across (hlt : p + 1 < count)
    (hacross : s.RunAcross count (count - (p + 1))) :
    s.RightResult count ((p : Int) + 1 - count) ↔ s.LapSuffices count := by
  have hnotBefore := not_runIn_before_of_first hfirst (by omega)
  by_cases hone : count - (p + 1) = 1
  · -- only the last frame: the negative result happens to be `-1`
    have hk : (p : Int) + 1 - count = -1 := by omega
    rw [hk, rightResult_none]
    constructor
    · intro hno
      refine Or.inr (Or.inr ⟨hno, fun t ht => ?_⟩)
      have hpos := ht.1
      have := runAcross_le_of_first hfirst ht
      omega
    · intro hlap
      rcases hlap with hin | ⟨_, hno⟩ | ⟨hno, _⟩
      · exact absurd hin hnotBefore
      · exact absurd hacross (hno _)
      · exact hno
  · refine iff_of_false ?_ ?_
    · intro hright
      have := hright.1 (by omega)
      omega
    · intro hlap
      rcases hlap with hin | ⟨_, hno⟩ | ⟨_, hall⟩
      · exact hnotBefore hin
      · exact hno _ hacross
      · exact hone (hall _ hacross)

end FirstRun

/-- The lap sees no run at all. -/
theorem right_iff_of_no_run (hcount : 0 < count)
    (hno : ∀ e, s.LapRun count e → s.highestFrame < e) :
    s.RightResult count (-1) ↔ s.LapSuffices count := by
  have hstart := searchStart_le s
  rw [rightResult_none]
  constructor
  · intro hruns
    refine Or.inr (Or.inr ⟨hruns, fun t ht => ?_⟩)
    have hpos := ht.1
    have hlt := ht.2.1
    have hlow := ht.2.2.2.1
    have := hno _ (lapRun_of_runAcross ht)
    omega
  · intro hlap
    rcases hlap with hin | ⟨hin, _⟩ | ⟨hruns, _⟩
    · obtain ⟨e, he, hrun⟩ := lapRun_of_runIn_before hcount hin
      have := hno e hrun
      omega
    · obtain ⟨p, hp, hrun⟩ := lapRun_of_runIn_after hcount hin
      have := hno _ hrun
      omega
    · exact hruns

/-- **The linear search**, for any number of frames, gives the right result exactly
if its lap suffices. -/
theorem pmmFindRun_right_iff (h : s.Searchable) (hcount : 0 < count) :
    ∃ k, pmmFindRun count s.searchStart (s.highestFrame + 1) 0 0 s = .ok k s ∧
      (s.RightResult count k ↔ s.LapSuffices count) := by
  have hstart := searchStart_le s
  have hhighest := h.highest
  have hrun := pmmFindRun_run count h.covered (s.highestFrame + 1) 0 0
  rcases scanRun_spec (s.highestFrame + 1) (Trailing.start s.lapFree 0) hcount with
    ⟨j, hscan, _, hj, hlap, hbefore⟩ | ⟨hscan, hnone⟩
  · have hfirst : s.FirstLapRun count j := by
      refine ⟨hlap, fun e he => ?_⟩
      by_contra hlt
      exact hbefore e (Nat.zero_le e) (by omega) he
    by_cases hend : s.searchStart + j ≤ s.highestFrame
    · obtain ⟨hle, hfree⟩ := (lapRun_before hend).mp hlap
      have hk : s.lapValue count (some j) = ((s.searchStart + j + 1 - count : Nat) : Int) := by
        rw [Machine.lapValue, lapFrame_before hend, lapResult (by omega) hcount (by omega)]
        omega
      rw [hscan, hk] at hrun
      refine ⟨_, hrun, iff_of_true ?_ (Or.inl ?_)⟩
      · exact rightResult_of_run (by omega) hfree
      · exact ⟨_, by omega, by omega, hfree⟩
    · obtain ⟨p, hp⟩ : ∃ p, p = s.searchStart + j - (s.highestFrame + 1) := ⟨_, rfl⟩
      have hplt : p < s.searchStart := by omega
      obtain rfl : j = p + (s.highestFrame + 1) - s.searchStart := by omega
      have hk : s.lapValue count (some (p + (s.highestFrame + 1) - s.searchStart)) =
          (p : Int) + 1 - count := by
        have hcovers := hlap.1
        rw [Machine.lapValue, lapFrame_after (by omega) (by omega), ← hp]
        exact lapResult (by omega) hcount (by omega)
      rw [hscan, hk] at hrun
      refine ⟨_, hrun, ?_⟩
      rcases (lapRun_after hplt).mp hlap with ⟨hle, hfree⟩ | ⟨hlt, hacross⟩
      · have hcast : (p : Int) + 1 - count = ((p + 1 - count : Nat) : Int) := by omega
        rw [hcast]
        exact iff_of_true (rightResult_of_run (by omega) hfree)
          (lapSuffices_of_after hfirst hplt hle hfree)
      · exact right_iff_of_across hfirst hlt hacross
  · rw [hscan] at hrun
    refine ⟨-1, hrun, right_iff_of_no_run hcount fun e he => ?_⟩
    by_contra hle
    exact hnone e (Nat.zero_le e) (by omega) he

/-! ## The function -/

/-- For a single frame the lap always suffices. -/
theorem lapSuffices_one (s : Machine) : s.LapSuffices 1 := by
  have hnoAcross : ∀ t, ¬s.RunAcross 1 t := by
    rintro t ⟨hpos, hlt, _⟩
    omega
  by_cases hin : s.RunIn 1 0 (s.highestFrame + 1)
  · obtain ⟨first, _, hhi, hfree⟩ := hin
    by_cases hlt : first < s.searchStart
    · exact Or.inr (Or.inl ⟨⟨first, Nat.zero_le _, hlt, hfree⟩, hnoAcross⟩)
    · exact Or.inl ⟨first, by omega, hhi, hfree⟩
  · exact Or.inr (Or.inr ⟨hin, fun t ht => absurd ht (hnoAcross t)⟩)

/-- For more than one frame the function is the linear search. -/
theorem pmmFind_linear (hcount : 1 < count) :
    pmmFindFirstFreeContiguous count s =
      pmmFindRun count s.searchStart (s.highestFrame + 1) 0 0 s := by
  have hzero : count ≠ 0 := by omega
  have hone : count ≠ 1 := by omega
  simp [pmmFindFirstFreeContiguous, hzero, hone, Machine.searchStart]

theorem pmmFind_one_right (h : s.Searchable) :
    ∃ k, pmmFindFirstFreeContiguous 1 s = .ok k s ∧ s.RightResult 1 k := by
  rcases pmmFind_one_run h with ⟨hall, hfind⟩ | ⟨f, hle, hfree, _, hfind⟩
  · refine ⟨_, hfind, rightResult_none.mpr ?_⟩
    rintro ⟨first, _, hhi, hfree⟩
    have hused := hall first (by omega)
    rw [hfree first (Nat.le_refl _) (by omega)] at hused
    cases hused
  · refine ⟨_, hfind, rightResult_of_run (by omega) ?_⟩
    intro g hlo hhi
    rwa [show g = f by omega]

/-- **When the contiguous search is right.**  For every bitmap with the filling bits
set, every hint and every count, the search returns, and its result is right exactly
if one lap from behind the hint suffices.  The fast path for one frame and the
linear search agree on whether there is a free frame. -/
theorem pmm_contiguous_search_right_iff (s : Machine) (count : Nat) (h : s.Searchable)
    (hcount : 0 < count) :
    (∃ k, pmmFindFirstFreeContiguous count s = .ok k s ∧
      (s.RightResult count k ↔ s.LapSuffices count)) ∧
    ∃ k k', pmmFindFirstFreeContiguous 1 s = .ok k s ∧
      pmmFindRun 1 s.searchStart (s.highestFrame + 1) 0 0 s = .ok k' s ∧ (k = -1 ↔ k' = -1) := by
  obtain ⟨k1, hfast, hright1⟩ := pmmFind_one_right h
  obtain ⟨k2, hlinear, hiff2⟩ := pmmFindRun_right_iff h (show 0 < 1 by decide)
  have hright2 := hiff2.mpr (lapSuffices_one s)
  refine ⟨?_, k1, k2, hfast, hlinear, hright1.2.trans hright2.2.symm⟩
  by_cases hone : count = 1
  · subst hone
    exact ⟨k1, hfast, iff_of_true hright1 (lapSuffices_one s)⟩
  · obtain ⟨k, hrun, hiff⟩ := pmmFindRun_right_iff h hcount
    exact ⟨k, (pmmFind_linear (by omega)).trans hrun, hiff⟩

/-- A machine of four frames, the last one allocated being frame 1. -/
def fourFrames (bits : Nat) : Machine where
  mem := write64 (fun _ => 0) 0x1000 bits
  hhdmPhysOffset := 0xFFFF800000000000
  bitmap := 0x1000
  bitmapSizeQwords := 1
  totalFrames := 4
  usedFrames := 0
  highestFrame := 3
  lastAllocatedIndex := 1

theorem fourFrames_used {bits : Nat} (hbits : bits < 2 ^ 64) {f : Nat} (hf : f < 64) :
    (fourFrames bits).frameUsed f = bits.testBit f := by
  have hword : (fourFrames bits).words (f / 64) = bits := by
    rw [Nat.div_eq_of_lt hf]
    exact read64_write64_of_lt hbits
  rw [Machine.frameUsed, bitAt, hword, Nat.mod_eq_of_lt hf]

theorem fourFrames_searchable {bits : Nat} (hbits : bits < 2 ^ 64)
    (hpadding : ∀ f, f < 64 → 3 < f → bits.testBit f = true) : (fourFrames bits).Searchable where
  covered := show 3 < 64 * 1 by decide
  highest := show 3 < 2 ^ 63 by decide
  padding := by
    intro f hlo hhi
    rw [fourFrames_used hbits hhi]
    exact hpadding f hhi hlo

/-- With all four frames free, two frames are found behind the hint. -/
theorem pmm_contiguous_search_right_all_free :
    (fourFrames (2 ^ 64 - 16)).Searchable ∧
      ∃ k, pmmFindFirstFreeContiguous 2 (fourFrames (2 ^ 64 - 16)) =
          .ok k (fourFrames (2 ^ 64 - 16)) ∧ (fourFrames (2 ^ 64 - 16)).RightResult 2 k := by
  have hsearchable : (fourFrames (2 ^ 64 - 16)).Searchable :=
    fourFrames_searchable (by decide) (by decide)
  obtain ⟨⟨k, hrun, hiff⟩, _⟩ :=
    pmm_contiguous_search_right_iff (fourFrames (2 ^ 64 - 16)) 2 hsearchable (by decide)
  refine ⟨hsearchable, k, hrun, hiff.mpr (Or.inl ⟨2, by decide, by decide, ?_⟩)⟩
  intro f hlo hhi
  rw [fourFrames_used (by decide) (by omega)]
  rcases (show f = 2 ∨ f = 3 by omega) with rfl | rfl <;> decide

/-- With frames 0, 2 and 3 free, the search for three frames takes 2, 3 and 0 for a
run and returns `-2`.  With frames 1 and 2 free, the search for two frames returns
`-1`: it starts between them. -/
theorem pmm_contiguous_search_wrong :
    ((fourFrames (2 ^ 64 - 14)).Searchable ∧
      pmmFindFirstFreeContiguous 3 (fourFrames (2 ^ 64 - 14)) =
        .ok (-2) (fourFrames (2 ^ 64 - 14)) ∧
      ¬(fourFrames (2 ^ 64 - 14)).RightResult 3 (-2)) ∧
    (fourFrames (2 ^ 64 - 7)).Searchable ∧
      pmmFindFirstFreeContiguous 2 (fourFrames (2 ^ 64 - 7)) =
        .ok (-1) (fourFrames (2 ^ 64 - 7)) ∧
      (fourFrames (2 ^ 64 - 7)).RunIn 2 0 4 := by
  refine ⟨⟨fourFrames_searchable (by decide) (by decide), ?_, ?_⟩,
    fourFrames_searchable (by decide) (by decide), ?_, 1, by decide, by decide, ?_⟩
  · have hvalue : (fourFrames (2 ^ 64 - 14)).lapValue 3 (scanRun
        (fourFrames (2 ^ 64 - 14)).lapFree 3 ((fourFrames (2 ^ 64 - 14)).highestFrame + 1) 0 0) =
        -2 := by decide +kernel
    rw [pmmFind_linear (by decide), pmmFindRun_run _ (by decide), hvalue]
  · intro hright
    have := hright.1 (by decide)
    omega
  · have hvalue : (fourFrames (2 ^ 64 - 7)).lapValue 2 (scanRun
        (fourFrames (2 ^ 64 - 7)).lapFree 2 ((fourFrames (2 ^ 64 - 7)).highestFrame + 1) 0 0) =
        -1 := by decide +kernel
    rw [pmmFind_linear (by decide), pmmFindRun_run _ (by decide), hvalue]
  · intro f hlo hhi
    rw [fourFrames_used (by decide) (by omega)]
    rcases (show f = 1 ∨ f = 2 by omega) with rfl | rfl <;> decide

end FarouKernel.Ports.Pmm
