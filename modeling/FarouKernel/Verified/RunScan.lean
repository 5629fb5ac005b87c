import Mathlib.Tactic.Common

/-!
# Scanning for a run

The loop an allocator of consecutive units uses: it goes over a sequence of units
with a counter of the free ones seen last, resets the counter at a used unit, and
stops when the counter reaches the number wanted.

`scanRun_spec` says that the loop stops at the first place where a run ends, and
that it goes through only if there is no run.  The sequence is any function of the
position, so the same facts hold for a loop that goes over a table in circles;
what the loop then takes for a run need not be one of the table.
-/

namespace FarouKernel.Verified

variable {free : Nat → Bool} {base count left i m j : Nat}

/-- The scan for `count` free positions in a row: `left` positions from `i` on
remain, and the last `consecutive` positions before `i` are free.  The result is
the last position of the run. -/
def scanRun (free : Nat → Bool) (count : Nat) : Nat → Nat → Nat → Option Nat
  | 0, _, _ => none
  | left + 1, i, consecutive =>
    if free i = true then
      if consecutive + 1 = count then some i
      else scanRun free count left (i + 1) (consecutive + 1)
    else scanRun free count left (i + 1) 0

/-- The `count` positions up to `j` are free, and none of them is below `base`. -/
def RunEnds (free : Nat → Bool) (base count j : Nat) : Prop :=
  base + count ≤ j + 1 ∧ ∀ k, j < k + count → k ≤ j → free k = true

/-- Just before `i`, and from `base` on, exactly the last `m` positions are free. -/
structure Trailing (free : Nat → Bool) (base i m : Nat) : Prop where
  le : base + m ≤ i
  clear : ∀ k, i ≤ k + m → k < i → free k = true
  stop : ∀ k, k + m + 1 = i → base ≤ k → free k = false

theorem Trailing.start (free : Nat → Bool) (base : Nat) : Trailing free base base 0 where
  le := Nat.le_refl _
  clear := by
    intro k hk hk'
    omega
  stop := by
    intro k hk hk'
    omega

theorem Trailing.succ (h : Trailing free base i m) (hi : free i = true) :
    Trailing free base (i + 1) (m + 1) where
  le := by
    have := h.le
    omega
  clear := by
    intro k hk hk'
    by_cases hki : k = i
    · rw [hki, hi]
    · exact h.clear k (by omega) (by omega)
  stop := by
    intro k hk hk'
    exact h.stop k (by omega) hk'

theorem Trailing.reset (h : Trailing free base i m) (hi : free i = false) :
    Trailing free base (i + 1) 0 where
  le := by
    have := h.le
    omega
  clear := by
    intro k hk hk'
    omega
  stop := by
    intro k hk _
    rw [show k = i by omega, hi]

/-- A run ends at `i` exactly if the counter reaches the number wanted there. -/
theorem Trailing.runEnds_iff (h : Trailing free base i m) (hi : free i = true)
    (hm : m < count) : RunEnds free base count i ↔ m + 1 = count := by
  have hle := h.le
  constructor
  · rintro ⟨hcount, hall⟩
    by_contra hne
    have hused := h.stop (i - m - 1) (by omega) (by omega)
    have hfree := hall (i - m - 1) (by omega) (by omega)
    cases hused.symm.trans hfree
  · rintro rfl
    exact ⟨by omega, fun k hk hk' => (h.succ hi).clear k (by omega) (by omega)⟩

/-- **The scan stops at the end of the first run**, and goes through if there is
none. -/
theorem scanRun_spec (left : Nat) (h : Trailing free base i m) (hm : m < count) :
    (∃ j, scanRun free count left i m = some j ∧ i ≤ j ∧ j < i + left ∧
        RunEnds free base count j ∧ ∀ e, i ≤ e → e < j → ¬RunEnds free base count e) ∨
      (scanRun free count left i m = none ∧
        ∀ e, i ≤ e → e < i + left → ¬RunEnds free base count e) := by
  induction left generalizing i m with
  | zero =>
    right
    exact ⟨rfl, fun e he he' => by omega⟩
  | succ left ih =>
    -- either the run ends at `i`, or the scan goes on with a counter that is exact again
    by_cases hend : RunEnds free base count i
    · left
      have hfree : free i = true := hend.2 i (by omega) (Nat.le_refl i)
      refine ⟨i, ?_, Nat.le_refl i, by omega, hend, fun e he he' => by omega⟩
      rw [scanRun, if_pos hfree, if_pos ((h.runEnds_iff hfree hm).mp hend)]
    · obtain ⟨m', htrail, hm', hstep⟩ : ∃ m', Trailing free base (i + 1) m' ∧ m' < count ∧
          scanRun free count (left + 1) i m = scanRun free count left (i + 1) m' := by
        cases hi : free i with
        | true =>
          have hnot := mt (h.runEnds_iff hi hm).mpr hend
          refine ⟨m + 1, h.succ hi, by omega, ?_⟩
          rw [scanRun, if_pos hi, if_neg hnot]
        | false =>
          refine ⟨0, h.reset hi, by omega, ?_⟩
          rw [scanRun, if_neg (by simp [hi])]
      have hfirst : ∀ e, i ≤ e → (i + 1 ≤ e → ¬RunEnds free base count e) →
          ¬RunEnds free base count e := by
        intro e he hlater
        by_cases hei : e = i
        · rwa [hei]
        · exact hlater (by omega)
      rw [hstep]
      rcases ih htrail hm' with ⟨j, hscan, hij, hj, hrun, hbefore⟩ | ⟨hscan, hbefore⟩
      · left
        exact ⟨j, hscan, by omega, by omega, hrun,
          fun e he he' => hfirst e he fun hlt => hbefore e hlt he'⟩
      · right
        exact ⟨hscan, fun e he he' => hfirst e he fun hlt => hbefore e hlt (by omega)⟩

end FarouKernel.Verified
