import FarouKernel.Verified.Word64
import Mathlib.Data.Nat.Count

/-!
# Sets of indices as arrays of 64-bit words

An allocator's bitmap is an array of words; index `i` is bit `i % 64` of word
`i / 64`.  `bitAt` reads it as a set of indices, and the three operations of
such an allocator become set operations:

* setting and clearing a bit insert and erase one index (`bitAt_setBit`,
  `bitAt_clearBit`), and change the number of members below a bound by one
  (`count_insert`, `count_erase`);
* the word-wise search for a clear bit, started anywhere, finds one if there is
  one (`findClear_some`, `findClear_none`), provided the bits behind the last
  index, which fill up the last word, are set.
-/

namespace FarouKernel.Verified

/-- Index `i` of the bitmap with words `w`. -/
def bitAt (w : Nat → Nat) (i : Nat) : Bool := (w (i / 64)).testBit (i % 64)

/-- The words after setting bit `i`. -/
def setBit (w : Nat → Nat) (i : Nat) : Nat → Nat :=
  fun j => if j = i / 64 then w j ||| 1 <<< (i % 64) else w j

/-- The words after clearing bit `i`. -/
def clearBit (w : Nat → Nat) (i : Nat) : Nat → Nat :=
  fun j => if j = i / 64 then w j &&& not64 (1 <<< (i % 64)) else w j

theorem setBit_eq_update (w : Nat → Nat) (i : Nat) :
    setBit w i = Function.update w (i / 64) (w (i / 64) ||| 1 <<< (i % 64)) := by
  funext j
  rw [setBit, Function.update_apply]
  split
  · rename_i hj
    rw [hj]
  · rfl

theorem clearBit_eq_update (w : Nat → Nat) (i : Nat) :
    clearBit w i = Function.update w (i / 64) (w (i / 64) &&& not64 (1 <<< (i % 64))) := by
  funext j
  rw [clearBit, Function.update_apply]
  split
  · rename_i hj
    rw [hj]
  · rfl

variable {w : Nat → Nat} {last k size idx start : Nat}

theorem bitAt_congr {w' : Nat → Nat} {i : Nat} (h : w (i / 64) = w' (i / 64)) :
    bitAt w i = bitAt w' i := by
  unfold bitAt
  rw [h]

@[simp] theorem bitAt_setBit (w : Nat → Nat) (i k : Nat) :
    bitAt (setBit w i) k = (bitAt w k || decide (k = i)) := by
  unfold bitAt setBit
  by_cases hword : k / 64 = i / 64
  · have hiff : k % 64 = i % 64 ↔ k = i := by omega
    rw [if_pos hword, testBit_or_shiftLeft, decide_eq_decide.mpr hiff]
  · have hne : k ≠ i := fun heq => hword (by rw [heq])
    simp [hword, hne]

@[simp] theorem bitAt_clearBit (w : Nat → Nat) (i k : Nat) :
    bitAt (clearBit w i) k = (bitAt w k && !decide (k = i)) := by
  unfold bitAt clearBit
  by_cases hword : k / 64 = i / 64
  · have hiff : k % 64 = i % 64 ↔ k = i := by omega
    rw [if_pos hword, testBit_and_not64_shiftLeft (Nat.mod_lt i (by decide))
      (Nat.mod_lt k (by decide)), decide_eq_decide.mpr hiff]
  · have hne : k ≠ i := fun heq => hword (by rw [heq])
    simp [hword, hne]

/-! ## Counting members -/

section Counting

variable {p q : Nat → Prop} [DecidablePred p] [DecidablePred q] {i n : Nat}

/-- One more member below the bound. -/
theorem count_insert (hi : i < n) (hp : ¬p i) (hq : ∀ k, q k ↔ p k ∨ k = i) :
    Nat.count q n = Nat.count p n + 1 := by
  have hset : (Finset.range n).filter q = insert i ((Finset.range n).filter p) := by
    ext k
    simp only [Finset.mem_filter, Finset.mem_insert, Finset.mem_range, hq]
    constructor
    · intro hcase
      rcases hcase with ⟨hk, hpk | rfl⟩
      · exact Or.inr ⟨hk, hpk⟩
      · exact Or.inl rfl
    · intro hcase
      rcases hcase with rfl | ⟨hk, hpk⟩
      · exact ⟨hi, Or.inr rfl⟩
      · exact ⟨hk, Or.inl hpk⟩
  rw [Nat.count_eq_card_filter_range, Nat.count_eq_card_filter_range, hset,
    Finset.card_insert_of_notMem]
  simp [hp]

/-- One member less below the bound. -/
theorem count_erase (hi : i < n) (hp : p i) (hq : ∀ k, q k ↔ p k ∧ k ≠ i) :
    Nat.count q n + 1 = Nat.count p n := by
  have hnot : ¬q i := fun h => ((hq i).mp h).2 rfl
  refine (count_insert hi hnot ?_).symm
  intro k
  rw [hq]
  by_cases hk : k = i
  · simp [hk, hp]
  · simp [hk]

theorem count_congr (h : ∀ k, k < n → (p k ↔ q k)) : Nat.count p n = Nat.count q n := by
  rw [Nat.count_eq_card_filter_range, Nat.count_eq_card_filter_range]
  congr 1
  ext k
  simp only [Finset.mem_filter, Finset.mem_range]
  exact and_congr_right fun hk => h k hk

end Counting

/-- `__builtin_popcountll`: the number of set bits of a word. -/
def popcount64 (x : Nat) : Nat := Nat.count (fun b => x.testBit b = true) 64

/-- The members of one more word. -/
theorem count_bitAt_succ (w : Nat → Nat) (n : Nat) :
    Nat.count (fun i => bitAt w i = true) (64 * (n + 1)) =
      Nat.count (fun i => bitAt w i = true) (64 * n) + popcount64 (w n) := by
  rw [Nat.mul_succ, Nat.count_add]
  congr 1
  apply count_congr
  intro b hb
  rw [bitAt, Nat.mul_add_div (by decide), Nat.mul_add_mod, Nat.div_eq_of_lt hb,
    Nat.mod_eq_of_lt hb, Nat.add_zero]

/-! ## Searching for a clear bit -/

/-- `__builtin_ctzll`: the lowest set bit of a word (64 if there is none). -/
def ctz64 (x : Nat) : Nat := ((List.range 64).find? fun b => x.testBit b).getD 64

/-- In a word that is not all ones, the lowest set bit of the complement is a
clear bit of the word. -/
theorem ctz64_not64 {x : Nat} (hx : x < 2 ^ 64) (hne : x ≠ 2 ^ 64 - 1) :
    ctz64 (not64 x) < 64 ∧ x.testBit (ctz64 (not64 x)) = false := by
  have hclear : ∃ b, b < 64 ∧ x.testBit b = false := by
    by_contra hall
    apply hne
    apply Nat.eq_of_testBit_eq
    intro b
    rw [Nat.testBit_two_pow_sub_one]
    by_cases hb : b < 64
    · cases hbit : x.testBit b with
      | true => simp [hb]
      | false => exact absurd ⟨b, hb, hbit⟩ hall
    · have hhigh : x.testBit b = false :=
        Nat.testBit_lt_two_pow
          (Nat.lt_of_lt_of_le hx (Nat.pow_le_pow_right (by decide) (by omega)))
      simp [hb, hhigh]
  obtain ⟨b, hb, hbit⟩ := hclear
  have hfound : ((List.range 64).find? fun b => (not64 x).testBit b).isSome := by
    rw [List.find?_isSome]
    exact ⟨b, List.mem_range.mpr hb, by simp [testBit_not64 hx, hb, hbit]⟩
  obtain ⟨c, hc⟩ := Option.isSome_iff_exists.mp hfound
  have hval : ctz64 (not64 x) = c := by
    rw [ctz64, hc]
    rfl
  have hmem := List.mem_range.mp (List.mem_of_find?_eq_some hc)
  have hset := List.find?_some hc
  rw [testBit_not64 hx] at hset
  simp only [Bool.and_eq_true, Bool.not_eq_eq_eq_not, Bool.not_true] at hset
  rw [hval]
  exact ⟨hmem, hset.2⟩

theorem ctz64_le {x b : Nat} (hb : b < 64) (hbit : x.testBit b = true) : ctz64 x ≤ b := by
  unfold ctz64
  cases hfind : (List.range 64).find? fun b => x.testBit b with
  | none =>
    have hclear := List.find?_eq_none.mp hfind b (List.mem_range.mpr hb)
    exact absurd hbit hclear
  | some c =>
    have hfirst := (List.find?_range_eq_some.mp hfind).2.2
    by_contra hlt
    have hclear := hfirst b (by simpa using hlt)
    rw [hbit] at hclear
    cases hclear

/-- What the search does with one word: its first clear bit, if that is an
index of the bitmap at all. -/
def clearInWord (w : Nat → Nat) (last idx : Nat) : Option Nat :=
  if w idx ≠ 2 ^ 64 - 1 then
    if idx * 64 + ctz64 (not64 (w idx)) ≤ last then
      some (idx * 64 + ctz64 (not64 (w idx)))
    else none
  else none

/-- The search for a clear bit over `size` words, starting at word `start` and
wrapping around. -/
def findClear (w : Nat → Nat) (size last start : Nat) : Option Nat :=
  (List.range size).findSome? fun i => clearInWord w last ((start + i) % size)

theorem clearInWord_some (hw : ∀ j, w j < 2 ^ 64) (h : clearInWord w last idx = some k) :
    k ≤ last ∧ k / 64 = idx ∧ bitAt w k = false := by
  unfold clearInWord at h
  split at h
  · rename_i hne
    split at h
    · rename_i hle
      obtain ⟨hlt, hclear⟩ := ctz64_not64 (hw idx) hne
      simp only [Option.some.injEq] at h
      have hdiv : k / 64 = idx := by omega
      have hmod : k % 64 = ctz64 (not64 (w idx)) := by omega
      refine ⟨by omega, hdiv, ?_⟩
      rw [bitAt, hdiv, hmod, hclear]
    · exact absurd h (by simp)
  · exact absurd h (by simp)

/-- What the search returns is a clear bit of the bitmap. -/
theorem findClear_some (hw : ∀ j, w j < 2 ^ 64) (h : findClear w size last start = some k) :
    k ≤ last ∧ k / 64 < size ∧ bitAt w k = false := by
  obtain ⟨i, hi, hword⟩ := List.exists_of_findSome?_eq_some h
  obtain ⟨hle, hdiv, hclear⟩ := clearInWord_some hw hword
  have hpos : 0 < size := Nat.lt_of_le_of_lt (Nat.zero_le i) (List.mem_range.mp hi)
  exact ⟨hle, by rw [hdiv]; exact Nat.mod_lt _ hpos, hclear⟩

/-- The bit the search takes from a word is its first clear bit. -/
theorem clearInWord_first (hw : ∀ j, w j < 2 ^ 64) (h : clearInWord w last idx = some k) :
    ∀ g, g / 64 = idx → g < k → bitAt w g = true := by
  intro g hg hlt
  unfold clearInWord at h
  split at h
  · split at h
    · simp only [Option.some.injEq] at h
      have hbit : g % 64 < 64 := Nat.mod_lt _ (by decide)
      rw [bitAt, hg]
      by_contra hclear
      rw [Bool.not_eq_true] at hclear
      have hle : ctz64 (not64 (w idx)) ≤ g % 64 := by
        apply ctz64_le hbit
        rw [testBit_not64 (hw idx)]
        simp [hbit, hclear]
      omega
    · exact absurd h (by simp)
  · exact absurd h (by simp)

section

variable (hw : ∀ j, w j < 2 ^ 64) (hpad : ∀ k, last < k → k < 64 * size → bitAt w k = true)

include hw hpad

/-- A word in which the search finds nothing has no clear bit, since the bits behind
the last index are set. -/
theorem clearInWord_none (hidx : idx < size)
    (h : clearInWord w last idx = none) : ∀ k, k / 64 = idx → bitAt w k = true := by
  rintro k rfl
  rw [clearInWord] at h
  by_cases hfull : w (k / 64) = 2 ^ 64 - 1
  · have hbit : k % 64 < 64 := Nat.mod_lt _ (by decide)
    rw [bitAt, hfull, Nat.testBit_two_pow_sub_one]
    simpa using hbit
  · -- the word has a clear bit, which can only be one of the filling bits
    obtain ⟨hlt, hclear⟩ := ctz64_not64 (hw (k / 64)) hfull
    rw [if_pos hfull] at h
    have hbeyond : last < k / 64 * 64 + ctz64 (not64 (w (k / 64))) := by
      by_contra hle
      rw [if_pos (by omega)] at h
      exact absurd h (by simp)
    have hset := hpad _ hbeyond (by omega)
    have hdiv : (k / 64 * 64 + ctz64 (not64 (w (k / 64)))) / 64 = k / 64 := by omega
    have hmod : (k / 64 * 64 + ctz64 (not64 (w (k / 64)))) % 64 =
        ctz64 (not64 (w (k / 64))) := by omega
    rw [bitAt, hdiv, hmod, hclear] at hset
    exact absurd hset (by simp)

/-- A search that returns nothing has seen every index set, wherever it
started. -/
theorem findClear_none (h : findClear w size last start = none) :
    ∀ k, k < 64 * size → bitAt w k = true := by
  intro k hk
  have hpos : 0 < size := by omega
  have hword : k / 64 < size := by omega
  -- some round of the loop looks at the word of `k`
  obtain ⟨i, hi, hround⟩ : ∃ i, i < size ∧ (start + i) % size = k / 64 := by
    refine ⟨(k / 64 + (size - start % size)) % size, Nat.mod_lt _ hpos, ?_⟩
    have hstart : start % size < size := Nat.mod_lt _ hpos
    rw [Nat.add_mod_mod, ← Nat.mod_add_mod]
    have hsum : start % size + (k / 64 + (size - start % size)) = k / 64 + size := by omega
    rw [hsum, Nat.add_mod_right, Nat.mod_eq_of_lt hword]
  have hnone := List.findSome?_eq_none_iff.mp h i (List.mem_range.mpr hi)
  rw [hround] at hnone
  exact clearInWord_none hw hpad hword hnone k rfl

/-- The search takes the first clear bit of the first word with a clear bit, in the
order it goes through the words. -/
theorem findClear_first (h : findClear w size last start = some k) :
    ∃ i, i < size ∧ (start + i) % size = k / 64 ∧
      (∀ j, j < i → ∀ g, g / 64 = (start + j) % size → bitAt w g = true) ∧
      ∀ g, g / 64 = k / 64 → g < k → bitAt w g = true := by
  obtain ⟨before, i, after, hrange, hword, hnone⟩ := List.findSome?_eq_some_iff.mp h
  have hi : i < size := List.mem_range.mp (by rw [hrange]; simp)
  obtain ⟨_, hdiv, _⟩ := clearInWord_some hw hword
  refine ⟨i, hi, hdiv.symm, ?_, ?_⟩
  · intro j hj g hg
    have hmem : j ∈ before ++ i :: after := hrange ▸ List.mem_range.mpr (by omega)
    have hsorted : (before ++ i :: after).Pairwise (· < ·) := hrange ▸ List.pairwise_lt_range
    have hafter : j ∉ i :: after := by
      intro hin
      rcases List.mem_cons.mp hin with rfl | hin
      · omega
      · have := (List.pairwise_cons.mp (List.pairwise_append.mp hsorted).2.1).1 j hin
        omega
    have hbefore : j ∈ before := (List.mem_append.mp hmem).resolve_right hafter
    have hpos : (start + j) % size < size := Nat.mod_lt _ (by omega)
    exact clearInWord_none hw hpad hpos (hnone j hbefore) g hg
  · intro g hg hlt
    exact clearInWord_first hw hword g (hg.trans hdiv) hlt

end

end FarouKernel.Verified
