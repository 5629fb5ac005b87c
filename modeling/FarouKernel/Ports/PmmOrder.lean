import FarouKernel.Ports.PmmFrames

/-!
# Which frame comes next

The search for one frame begins in the word of the hint and goes around.  As long as
there are free frames from that word on, frame 0 is not handed out; `framesAhead`
counts them.  Frame 0 matters because its address is 0, which callers of
`pmm_alloc_frame` take for a failure.
-/

namespace FarouKernel.Ports.Pmm

open Verified ByteMem Ports.Memory

/-- The word of the bitmap the search begins with. -/
def Machine.searchWord (s : Machine) : Nat :=
  s.lastAllocatedIndex / 64 % s.bitmapSizeQwords

/-- The number of frames that are handed out before the search comes to word 0. -/
def Machine.framesAhead (s : Machine) : Nat :=
  if s.searchWord = 0 then 0
  else Nat.count (fun f => 64 * s.searchWord ≤ f ∧ s.frameUsed f = false) (s.highestFrame + 1)

/-- The next `n` allocations do not take frame 0. -/
def Machine.SparesZero (s : Machine) (n : Nat) : Prop :=
  s.frameUsed 0 = true ∨ n ≤ s.framesAhead

variable {s s' : Machine} {f n : Nat}

theorem Machine.SparesZero.mono {m : Nat} (h : s.SparesZero n) (hle : m ≤ n) :
    s.SparesZero m :=
  h.imp_right (Nat.le_trans hle)

/-- Sparing frame 0 depends on the bits and on the hint only. -/
theorem sparesZero_congr (hbits : ∀ g, g ≤ s.highestFrame → s'.frameUsed g = s.frameUsed g)
    (hhint : s'.lastAllocatedIndex = s.lastAllocatedIndex)
    (hsize : s'.bitmapSizeQwords = s.bitmapSizeQwords)
    (hhighest : s'.highestFrame = s.highestFrame) (n : Nat) :
    s'.SparesZero n ↔ s.SparesZero n := by
  have hword : s'.searchWord = s.searchWord := by
    rw [Machine.searchWord, Machine.searchWord, hhint, hsize]
  have hahead : s'.framesAhead = s.framesAhead := by
    rw [Machine.framesAhead, Machine.framesAhead, hword, hhighest]
    have hcount : Nat.count (fun f => 64 * s.searchWord ≤ f ∧ s'.frameUsed f = false)
        (s.highestFrame + 1) = Nat.count
        (fun f => 64 * s.searchWord ≤ f ∧ s.frameUsed f = false) (s.highestFrame + 1) :=
      count_congr fun g hg => by rw [hbits g (by omega)]
    rw [hcount]
  rw [Machine.SparesZero, Machine.SparesZero, hbits 0 (Nat.zero_le _), hahead]

/-- While frame 0 is free, the next frame is frame 0 exactly if the words from the
search's first one on are full; otherwise it is in the first of these words with a
free frame. -/
theorem Machine.NextFree.cases (h : s.NextFree f) (hzero : s.frameUsed 0 = false) :
    (f = 0 ∧ (s.searchWord = 0 ∨
        ∀ g, 64 * s.searchWord ≤ g → g < 64 * s.bitmapSizeQwords → s.frameUsed g = true)) ∨
      (f ≠ 0 ∧ 0 < s.searchWord ∧ s.searchWord ≤ f / 64 ∧
        ∀ g, 64 * s.searchWord ≤ g → g < 64 * (f / 64) → s.frameUsed g = true) := by
  obtain ⟨i, hi, hword, hbefore, hlower⟩ := h
  have hsize : 0 < s.bitmapSizeQwords := by omega
  have hlt : s.searchWord < s.bitmapSizeQwords := Nat.mod_lt _ hsize
  -- the rounds, counted from the first word
  have hround : ∀ j, (s.lastAllocatedIndex / 64 + j) % s.bitmapSizeQwords =
      (s.searchWord + j) % s.bitmapSizeQwords := by
    intro j
    rw [Machine.searchWord, Nat.mod_add_mod]
  rw [hround] at hword
  have hskipped : ∀ g, 64 * s.searchWord ≤ g → g < 64 * s.bitmapSizeQwords →
      g / 64 < s.searchWord + i → s.frameUsed g = true := by
    intro g hlo hhi hg
    refine hbefore (g / 64 - s.searchWord) (by omega) g ?_
    rw [hround, Nat.mod_eq_of_lt (by omega)]
    omega
  have hnotWordZero : ∀ j, j < i → (s.searchWord + j) % s.bitmapSizeQwords ≠ 0 := by
    intro j hj hzeroWord
    have hused := hbefore j hj 0 (by rw [hround, hzeroWord])
    cases hzero.symm.trans hused
  have hfirstBit : f / 64 = 0 → f = 0 := by
    intro hdiv
    by_contra hne
    have hused := hlower 0 (by omega) (by omega)
    cases hzero.symm.trans hused
  by_cases hwrap : s.searchWord + i < s.bitmapSizeQwords
  · rw [Nat.mod_eq_of_lt hwrap] at hword
    by_cases hfirst : s.searchWord = 0
    · left
      have hi0 : i = 0 := by
        by_contra hne
        exact hnotWordZero 0 (by omega) (by rw [hfirst, Nat.zero_add, Nat.zero_mod])
      exact ⟨hfirstBit (by omega), Or.inl hfirst⟩
    · right
      refine ⟨by omega, by omega, by omega, ?_⟩
      intro g hlo hhi
      exact hskipped g hlo (by omega) (by omega)
  · -- the search has come around to word 0
    have hback : s.bitmapSizeQwords - s.searchWord = i := by
      by_contra hne
      refine hnotWordZero (s.bitmapSizeQwords - s.searchWord) (by omega) ?_
      rw [show s.searchWord + (s.bitmapSizeQwords - s.searchWord) = s.bitmapSizeQwords by omega,
        Nat.mod_self]
    left
    rw [show s.searchWord + i = s.bitmapSizeQwords by omega, Nat.mod_self] at hword
    refine ⟨hfirstBit hword.symm, Or.inr ?_⟩
    intro g hlo hhi
    exact hskipped g hlo hhi (by omega)

theorem framesAhead_eq_zero (h : s.NextFree 0) (hzero : s.frameUsed 0 = false)
    (hcovered : s.highestFrame < 64 * s.bitmapSizeQwords) : s.framesAhead = 0 := by
  rcases h.cases hzero with ⟨_, hfirst | hfull⟩ | ⟨hne, _⟩
  · rw [Machine.framesAhead, if_pos hfirst]
  · rw [Machine.framesAhead]
    split
    · rfl
    · rw [Nat.count_eq_card_filter_range, Finset.card_eq_zero, Finset.filter_eq_empty_iff]
      rintro g hg ⟨hlo, hfree⟩
      rw [hfull g hlo (by have := Finset.mem_range.mp hg; omega)] at hfree
      cases hfree
  · exact absurd rfl hne

/-- Taking another frame than frame 0 leaves one frame less before it. -/
theorem framesAhead_taken {m : ByteMem} (h : s.NextFree f) (hzero : s.frameUsed 0 = false)
    (hcovered : s.highestFrame < 64 * s.bitmapSizeQwords) (hne : f ≠ 0)
    (ht : FrameTaken s m f) : (s.taken m f).framesAhead + 1 = s.framesAhead := by
  have hle := ht.le
  rcases h.cases hzero with ⟨h0, _⟩ | ⟨_, hpos, hword, hfull⟩
  · exact absurd h0 hne
  have hnext : (s.taken m f).searchWord = f / 64 := by
    show f / 64 % s.bitmapSizeQwords = f / 64
    exact Nat.mod_eq_of_lt (by omega)
  have hhighest : (s.taken m f).highestFrame = s.highestFrame := rfl
  rw [Machine.framesAhead, Machine.framesAhead, hnext, hhighest, if_neg (by omega),
    if_neg (by omega)]
  have hrange : ∀ g, g < s.highestFrame + 1 →
      ((64 * (f / 64) ≤ g ∧ (s.taken m f).frameUsed g = false) ↔
        ((64 * s.searchWord ≤ g ∧ s.frameUsed g = false) ∧ g ≠ f)) := by
    intro g hg
    rw [ht.bits g (by omega), Bool.or_eq_false_iff, decide_eq_false_iff_not]
    constructor
    · rintro ⟨hlo, hg', hgf⟩
      exact ⟨⟨by omega, hg'⟩, hgf⟩
    · rintro ⟨⟨hlo, hg'⟩, hgf⟩
      refine ⟨?_, hg', hgf⟩
      by_contra hlt
      rw [hfull g hlo (by omega)] at hg'
      cases hg'
  rw [count_congr hrange]
  exact count_erase (by omega) ⟨by omega, ht.free⟩ fun g => Iff.rfl

/-- **Frame 0 in `pmm_alloc_frame`.**  The call takes frame 0 exactly if it is not
spared; otherwise one allocation less spares it from then on. -/
theorem NextFree.sparesZero {m : ByteMem} (h : PmmWf s) (hnext : s.NextFree f)
    (ht : FrameTaken s m f) :
    (f = 0 → ¬s.SparesZero 1) ∧
      (f ≠ 0 → ∀ n, s.SparesZero (n + 1) ↔ (s.taken m f).SparesZero n) := by
  have hcovered := h.covered
  constructor
  · rintro rfl hspared
    rcases hspared with hused | hahead
    · have hfree := ht.free
      cases hused.symm.trans hfree
    · rw [framesAhead_eq_zero hnext ht.free hcovered] at hahead
      omega
  · intro hne n
    have hzero' := ht.bits 0 (by omega)
    rw [decide_eq_false (Ne.symm hne), Bool.or_false] at hzero'
    rw [Machine.SparesZero, Machine.SparesZero, hzero']
    cases hzero : s.frameUsed 0 with
    | true => simp
    | false =>
      have := framesAhead_taken hnext hzero hcovered hne ht
      simp only [Bool.false_eq_true, false_or]
      omega

end FarouKernel.Ports.Pmm
