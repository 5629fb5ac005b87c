import Mathlib.Data.Nat.Bitwise
import Mathlib.Tactic.Common

/-!
# Unsigned 64-bit arithmetic on `Nat`

A `uint64_t` is a natural number below `2 ^ 64`, and every operation that can
leave that range is reduced explicitly.  Where an operation does not wrap, the
lemmas here rewrite it to plain `Nat` arithmetic, which is what `omega`
decides.

The bit operations are stated through `Nat.testBit`, and masking off the low
bits, the idiom behind every alignment macro, gets its closed form in
`and_not64_lowMask`.
-/

namespace FarouKernel.Verified

/-- `a + b` of two 64-bit words. -/
def add64 (a b : Nat) : Nat := (a + b) % 2 ^ 64

/-- `a - b` of two 64-bit words. -/
def sub64 (a b : Nat) : Nat := (a + (2 ^ 64 - b)) % 2 ^ 64

/-- `~a` of a 64-bit word. -/
def not64 (a : Nat) : Nat := 2 ^ 64 - 1 - a

/-- A 64-bit word read as a signed number, `(int64_t)a`. -/
def toInt64 (a : Nat) : Int := if a < 2 ^ 63 then (a : Int) else (a : Int) - 2 ^ 64

/-- A signed number as a 64-bit word, `(uint64_t)a`. -/
def ofInt64 (a : Int) : Nat := (a % 2 ^ 64).toNat

theorem toInt64_of_lt {a : Nat} (h : a < 2 ^ 63) : toInt64 a = a := if_pos h

theorem ofInt64_natCast {a : Nat} (h : a < 2 ^ 64) : ofInt64 (a : Int) = a := by
  unfold ofInt64
  omega

theorem add64_lt (a b : Nat) : add64 a b < 2 ^ 64 := Nat.mod_lt _ (by decide)

theorem sub64_lt (a b : Nat) : sub64 a b < 2 ^ 64 := Nat.mod_lt _ (by decide)

theorem add64_of_lt {a b : Nat} (h : a + b < 2 ^ 64) : add64 a b = a + b :=
  Nat.mod_eq_of_lt h

theorem sub64_of_le {a b : Nat} (hb : b ≤ a) (ha : a < 2 ^ 64) :
    sub64 a b = a - b := by
  unfold sub64
  omega

/-- The complement of a word flips each of its 64 bits. -/
theorem testBit_not64 {a : Nat} (ha : a < 2 ^ 64) (i : Nat) :
    (not64 a).testBit i = (decide (i < 64) && !a.testBit i) := by
  have hrw : not64 a = 2 ^ 64 - (a + 1) := by
    unfold not64
    omega
  rw [hrw, Nat.testBit_two_pow_sub_succ ha]

/-- Masking off the low `k` bits rounds down to a multiple of `2 ^ k`. -/
theorem and_not64_lowMask {x k : Nat} (hx : x < 2 ^ 64) (hk : k ≤ 64) :
    x &&& not64 (2 ^ k - 1) = x / 2 ^ k * 2 ^ k := by
  have hpow : 2 ^ k ≤ 2 ^ 64 := Nat.pow_le_pow_right (by decide) hk
  have hpos : 0 < 2 ^ k := Nat.two_pow_pos k
  rw [← Nat.shiftRight_eq_div_pow, ← Nat.shiftLeft_eq]
  refine Nat.eq_of_testBit_eq fun i => ?_
  rw [Nat.testBit_and, testBit_not64 (by omega), Nat.testBit_two_pow_sub_one,
    Nat.testBit_shiftLeft, Nat.testBit_shiftRight]
  by_cases hi : k ≤ i
  · by_cases h64 : i < 64
    · simp [hi, h64, Nat.not_lt.mpr hi]
    · have hbit : x.testBit i = false :=
        Nat.testBit_lt_two_pow
          (Nat.lt_of_lt_of_le hx (Nat.pow_le_pow_right (by decide) (by omega)))
      simp [hi, hbit]
  · have hlt : i < k := by omega
    simp [hi, hlt]

/-- Testing one bit with a shifted one. -/
theorem and_shiftLeft_ne_zero (x i : Nat) :
    x &&& 1 <<< i ≠ 0 ↔ x.testBit i = true := by
  rw [Nat.one_shiftLeft, Nat.and_two_pow]
  cases hb : x.testBit i <;> simp

/-- Setting bit `i` of a word. -/
theorem testBit_or_shiftLeft (x i j : Nat) :
    (x ||| 1 <<< i).testBit j = (x.testBit j || decide (j = i)) := by
  rw [Nat.testBit_or, Nat.one_shiftLeft, Nat.testBit_two_pow]
  congr 1
  exact decide_eq_decide.mpr eq_comm

/-- Clearing bit `i` of a word. -/
theorem testBit_and_not64_shiftLeft {x i j : Nat} (hi : i < 64) (hj : j < 64) :
    (x &&& not64 (1 <<< i)).testBit j = (x.testBit j && !decide (j = i)) := by
  have hlt : 1 <<< i < 2 ^ 64 := by
    rw [Nat.one_shiftLeft]
    exact Nat.pow_lt_pow_right (by decide) hi
  rw [Nat.testBit_and, testBit_not64 hlt, Nat.one_shiftLeft, Nat.testBit_two_pow]
  by_cases hji : j = i
  · simp [hji]
  · simp [hj, hji, Ne.symm hji]

end FarouKernel.Verified
