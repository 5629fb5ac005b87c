import FarouKernel.Verified.Bitmap
import FarouKernel.Verified.RunScan

/-!
# Runs of bits

The two loops of an allocator that hands out runs of consecutive indices of a
bitmap: `markBits` gives a run of bits one value, and `findRun` scans for a run
of clear bits with a counter that a set bit resets.

`bitAt_markBits` describes the marked bitmap as a set.  Marking is idempotent
and counting is not: `count_markBits` says how many members the marking really
adds or takes away.
-/

namespace FarouKernel.Verified

variable {w : Nat → Nat}

theorem setBit_lt (hw : ∀ j, w j < 2 ^ 64) (i j : Nat) : setBit w i j < 2 ^ 64 := by
  unfold setBit
  split
  · apply Nat.or_lt_two_pow (hw j)
    rw [Nat.one_shiftLeft]
    exact Nat.pow_lt_pow_right (by decide) (Nat.mod_lt i (by decide))
  · exact hw j

theorem clearBit_lt (hw : ∀ j, w j < 2 ^ 64) (i j : Nat) : clearBit w i j < 2 ^ 64 := by
  unfold clearBit
  split
  · exact Nat.lt_of_le_of_lt Nat.and_le_left (hw j)
  · exact hw j

/-! ## Marking -/

/-- The words after giving the `n` bits from `b` on one value, one after the
other. -/
def markBits (used : Bool) (b : Nat) : Nat → (Nat → Nat) → Nat → Nat
  | 0, w => w
  | n + 1, w =>
    if used = true then setBit (markBits used b n w) (b + n)
    else clearBit (markBits used b n w) (b + n)

theorem markBits_lt {used : Bool} (hw : ∀ j, w j < 2 ^ 64) (b n j : Nat) :
    markBits used b n w j < 2 ^ 64 := by
  induction n generalizing j with
  | zero => exact hw j
  | succ n ih =>
    rw [markBits]
    split
    · exact setBit_lt ih _ _
    · exact clearBit_lt ih _ _

theorem bitAt_markBits (w : Nat → Nat) (used : Bool) (b n k : Nat) :
    bitAt (markBits used b n w) k = if b ≤ k ∧ k < b + n then used else bitAt w k := by
  induction n with
  | zero =>
    rw [if_neg (by omega)]
    rfl
  | succ n ih =>
    have hmark : bitAt (markBits used b (n + 1) w) k =
        if k = b + n then used else bitAt (markBits used b n w) k := by
      rw [markBits]
      cases used with
      | true => by_cases hk : k = b + n <;> simp [hk]
      | false =>
        rw [if_neg (by simp), bitAt_clearBit]
        by_cases hk : k = b + n <;> simp [hk]
    rw [hmark, ih]
    by_cases hk : k = b + n
    · rw [if_pos hk, if_pos (by omega)]
    · have hiff : (b ≤ k ∧ k < b + (n + 1)) ↔ (b ≤ k ∧ k < b + n) := by omega
      rw [if_neg hk, if_congr hiff rfl rfl]

/-- Words with the same bits are the same. -/
theorem words_ext {w' : Nat → Nat} (hw : ∀ j, w j < 2 ^ 64) (hw' : ∀ j, w' j < 2 ^ 64)
    (h : ∀ k, bitAt w k = bitAt w' k) : w = w' := by
  funext j
  apply Nat.eq_of_testBit_eq
  intro i
  by_cases hi : i < 64
  · have hbit := h (64 * j + i)
    unfold bitAt at hbit
    rwa [Nat.mul_add_div (by decide), Nat.mul_add_mod, Nat.div_eq_of_lt hi, Nat.add_zero,
      Nat.mod_eq_of_lt hi] at hbit
  · have hpow : 2 ^ 64 ≤ 2 ^ i := Nat.pow_le_pow_right (by decide) (Nat.not_lt.mp hi)
    rw [Nat.testBit_lt_two_pow (Nat.lt_of_lt_of_le (hw j) hpow),
      Nat.testBit_lt_two_pow (Nat.lt_of_lt_of_le (hw' j) hpow)]

/-- Clearing a run of bits that were clear before they were set. -/
theorem markBits_restore {b n : Nat} (hw : ∀ j, w j < 2 ^ 64)
    (hclear : ∀ k, b ≤ k → k < b + n → bitAt w k = false) :
    markBits false b n (markBits true b n w) = w := by
  apply words_ext (markBits_lt (markBits_lt hw b n) b n) hw
  intro k
  rw [bitAt_markBits, bitAt_markBits]
  split
  · rename_i hk
    exact (hclear k hk.1 hk.2).symm
  · rfl

/-- How many members a marking adds or takes away. -/
theorem count_markBits {b n total : Nat} (used : Bool) (hb : b + n ≤ total) :
    Nat.count (fun k => bitAt (markBits used b n w) k = true) total +
        Nat.count (fun i => bitAt w (b + i) = true) n =
      Nat.count (fun k => bitAt w k = true) total + if used then n else 0 := by
  obtain ⟨rest, rfl⟩ := Nat.exists_eq_add_of_le hb
  have hlow : Nat.count (fun k => bitAt (markBits used b n w) k = true) b =
      Nat.count (fun k => bitAt w k = true) b := by
    apply count_congr
    intro k hk
    rw [bitAt_markBits, if_neg (by omega)]
  have hmarked : Nat.count (fun i => bitAt (markBits used b n w) (b + i) = true) n =
      Nat.count (fun _ => used = true) n := by
    apply count_congr
    intro i hi
    rw [bitAt_markBits, if_pos (by omega)]
  have hhigh : Nat.count (fun i => bitAt (markBits used b n w) (b + n + i) = true) rest =
      Nat.count (fun i => bitAt w (b + n + i) = true) rest := by
    apply count_congr
    intro i _
    rw [bitAt_markBits, if_neg (by omega)]
  have hused : Nat.count (fun _ => used = true) n = if used then n else 0 := by
    cases used <;> simp
  rw [Nat.count_add _ (b + n), Nat.count_add _ b, hlow, hmarked, hhigh, hused,
    Nat.count_add _ (b + n), Nat.count_add _ b]
  omega

/-! ## Searching -/

/-- The scan for `count` clear bits in a row: `left` bits from `i` on remain, and
the last `consecutive` bits before `i` are clear.  The result is the last bit of
the run. -/
def findRun (w : Nat → Nat) (count : Nat) : Nat → Nat → Nat → Option Nat
  | 0, _, _ => none
  | left + 1, i, consecutive =>
    if bitAt w i = false then
      if consecutive + 1 = count then some i
      else findRun w count left (i + 1) (consecutive + 1)
    else findRun w count left (i + 1) 0

theorem findRun_eq_scanRun (w : Nat → Nat) (count left i consecutive : Nat) :
    findRun w count left i consecutive =
      scanRun (fun k => !bitAt w k) count left i consecutive := by
  induction left generalizing i consecutive with
  | zero => rfl
  | succ left ih =>
    rw [findRun, scanRun, ih, ih]
    cases bitAt w i <;> rfl

/-- **The scan finds the first run of clear bits** from `i` on, and none only if
there is none. -/
theorem findRun_spec {count : Nat} (left i : Nat) (hcount : 0 < count) :
    (∃ j, findRun w count left i 0 = some j ∧ i ≤ j ∧ j < i + left ∧
        RunEnds (fun k => !bitAt w k) i count j ∧
        ∀ e, i ≤ e → e < j → ¬RunEnds (fun k => !bitAt w k) i count e) ∨
      (findRun w count left i 0 = none ∧
        ∀ e, i ≤ e → e < i + left → ¬RunEnds (fun k => !bitAt w k) i count e) := by
  rw [findRun_eq_scanRun]
  exact scanRun_spec left (Trailing.start _ i) hcount

/-- The scan for a single bit stops at the first clear one. -/
theorem findRun_first {left i d : Nat} (hset : ∀ k, i ≤ k → k < i + d → bitAt w k = true)
    (hclear : bitAt w (i + d) = false) (hd : d < left) :
    findRun w 1 left i 0 = some (i + d) := by
  induction d generalizing left i with
  | zero =>
    cases left with
    | zero => omega
    | succ left =>
      rw [Nat.add_zero] at hclear
      rw [findRun, if_pos hclear, if_pos rfl]
      rfl
  | succ d ih =>
    cases left with
    | zero => omega
    | succ left =>
      have hbit := hset i (Nat.le_refl _) (by omega)
      have hshift : i + 1 + d = i + (d + 1) := by omega
      rw [findRun, if_neg (by simp [hbit]), ← hshift]
      apply ih
      · intro k hk hk'
        exact hset k (by omega) (by omega)
      · rw [hshift]
        exact hclear
      · omega

end FarouKernel.Verified
