import Mathlib.Data.List.Count
import Mathlib.Tactic.Common

/-!
# Counting events in fixed windows

Each event has a time and belongs to a window, which is named by the time it
opened.  A window is open for `len` units of time, and two windows are never open
at the same time.

A limit on the events of each window is not a limit on the events of every
interval of that length: the interval can meet two windows.  It cannot meet
three, so the limits of two windows together hold everywhere
(`InWindows.length_le`).
-/

namespace FarouKernel.Verified

variable {α : Type} {time window : α → Int} {len : Int}

/-- Events in their windows. -/
structure InWindows (time window : α → Int) (len : Int) (l : List α) : Prop where
  inside : ∀ x ∈ l, window x ≤ time x ∧ time x ≤ window x + len
  apart : ∀ x ∈ l, ∀ y ∈ l, window x ≠ window y →
    len < window x - window y ∨ len < window y - window x

section Interval

variable {l : List α} {t : Int}

/-- In an interval, the windows that opened before it are one, and so are those
that opened in it. -/
theorem InWindows.eq_of_side (h : InWindows time window len l)
    (ht : ∀ x ∈ l, t ≤ time x ∧ time x < t + len) {x y : α} (hx : x ∈ l) (hy : y ∈ l)
    (hside : window x < t ↔ window y < t) : window x = window y := by
  have hapart := h.apart x hx y hy
  have hxin := h.inside x hx
  have hyin := h.inside y hy
  have hxt := ht x hx
  have hyt := ht y hy
  omega

/-- The events of the interval whose windows opened on one side of its start belong
to one window. -/
theorem InWindows.countP_side (h : InWindows time window len l)
    (ht : ∀ x ∈ l, t ≤ time x ∧ time x < t + len) {p : Int → Bool}
    (hp : ∀ a b, p a = true → p b = true → (a < t ↔ b < t)) {m : Nat}
    (hlimit : ∀ w, p w = true → l.countP (window · = w) ≤ m) :
    l.countP (fun x => p (window x)) ≤ m := by
  by_cases hsome : ∃ y ∈ l, p (window y) = true
  · rcases hsome with ⟨y, hy, hpy⟩
    refine Nat.le_trans (List.countP_mono_left ?_) (hlimit (window y) hpy)
    intro x hx hpx
    rw [decide_eq_true_eq]
    exact h.eq_of_side ht hx hy (hp _ _ hpx hpy)
  · have hnone : l.countP (fun x => p (window x)) = 0 := by
      rw [List.countP_eq_zero]
      exact fun x hx hpx => hsome ⟨x, hx, hpx⟩
    omega

theorem length_le_countP_add {p q : α → Bool} (h : ∀ x ∈ l, p x = true ∨ q x = true) :
    l.length ≤ l.countP p + l.countP q := by
  induction l with
  | nil => exact Nat.zero_le _
  | cons x l ih =>
    have htail := ih fun y hy => h y (List.mem_cons_of_mem x hy)
    rw [List.length_cons, List.countP_cons, List.countP_cons]
    rcases h x List.mem_cons_self with hx | hx
    · rw [if_pos hx]
      omega
    · rw [if_pos hx]
      omega

/-- **An interval meets two windows at most**: one that opened before it and one that
opened in it. -/
theorem InWindows.length_le (h : InWindows time window len l) {m n : Nat}
    (hbefore : ∀ w, w < t → l.countP (window · = w) ≤ n)
    (hin : ∀ w, t ≤ w → l.countP (window · = w) ≤ m)
    (ht : ∀ x ∈ l, t ≤ time x ∧ time x < t + len) : l.length ≤ n + m := by
  have hfirst : l.countP (fun x => decide (window x < t)) ≤ n := by
    apply h.countP_side (p := (decide <| · < t)) ht
    · intro a b ha hb
      exact iff_of_true (of_decide_eq_true ha) (of_decide_eq_true hb)
    · intro w hw
      exact hbefore w (of_decide_eq_true hw)
  have hsecond : l.countP (fun x => decide (t ≤ window x)) ≤ m := by
    apply h.countP_side (p := (decide <| t ≤ ·)) ht
    · intro a b ha hb
      exact iff_of_false (Int.not_lt.mpr (of_decide_eq_true ha))
        (Int.not_lt.mpr (of_decide_eq_true hb))
    · intro w hw
      exact hin w (of_decide_eq_true hw)
  have hsplit : l.length ≤ l.countP (fun x => decide (window x < t)) +
      l.countP (fun x => decide (t ≤ window x)) := by
    apply length_le_countP_add
    intro x _
    rw [decide_eq_true_eq, decide_eq_true_eq]
    omega
  omega

end Interval

end FarouKernel.Verified
