import Mathlib.Data.List.Basic
import Mathlib.Tactic.Common

/-!
# The lines of a text

The lines of a text are its pieces between separators.  A text that ends with a
separator has no empty line behind it, so a text is recovered from its lines up to one
separator at its end, and lines that are each written with a separator are read back as
they were.
-/

namespace FarouKernel.Verified

variable {α : Type} [DecidableEq α] {sep : α}

/-- The list without an empty piece at its end. -/
def dropEmptyLast (pieces : List (List α)) : List (List α) :=
  if pieces.getLast? = some [] then pieces.dropLast else pieces

/-- The lines of a text, without their separators. -/
def textLines (sep : α) (s : List α) : List (List α) := dropEmptyLast (s.splitOn sep)

theorem dropEmptyLast_cons {p : List α} {pieces : List (List α)} (h : pieces ≠ []) :
    dropEmptyLast (p :: pieces) = p :: dropEmptyLast pieces := by
  unfold dropEmptyLast
  rw [List.getLast?_cons_of_ne_nil h, List.dropLast_cons_of_ne_nil h]
  split <;> rfl

@[simp] theorem textLines_nil : textLines sep [] = [] := rfl

/-- The first line ends at the first separator. -/
theorem textLines_sep {p : List α} (hp : sep ∉ p) (s : List α) :
    textLines sep (p ++ sep :: s) = p :: textLines sep s := by
  have hfirst : (p ++ sep :: s).splitOn sep = p :: s.splitOn sep := by
    apply List.splitOnP_append_cons_of_forall_mem
    · intro x hx
      exact beq_eq_false_iff_ne.mpr fun heq => hp (heq ▸ hx)
    · exact beq_self_eq_true sep
  have hne : s.splitOn sep ≠ [] := List.splitOnP_ne_nil _ _
  rw [textLines, hfirst, dropEmptyLast_cons hne, textLines]

/-- What follows the last separator is a line unless it is empty. -/
theorem textLines_last {p : List α} (hp : sep ∉ p) (hne : p ≠ []) : textLines sep p = [p] := by
  have hsingle : p.splitOn sep = [p] := by
    apply List.splitOnP_eq_singleton
    intro x hx
    exact beq_eq_false_iff_ne.mpr fun heq => hp (heq ▸ hx)
  rw [textLines, hsingle, dropEmptyLast, if_neg]
  simpa using hne

/-- A line has no separator. -/
theorem sep_not_mem_of_mem_textLines {s l : List α} (h : l ∈ textLines sep s) : sep ∉ l := by
  -- Induction on the length: what follows the first separator is shorter.
  induction hn : s.length using Nat.strongRecOn generalizing s with
  | ind n ih =>
    by_cases hsep : sep ∈ s
    · obtain ⟨p, tail, rfl, hp⟩ := List.eq_append_cons_of_mem hsep
      rw [textLines_sep hp, List.mem_cons] at h
      obtain rfl | h := h
      · exact hp
      · refine ih tail.length ?_ h rfl
        rw [← hn, List.length_append, List.length_cons]
        omega
    · by_cases hempty : s = []
      · rw [hempty, textLines_nil] at h
        cases h
      · rw [textLines_last hsep hempty, List.mem_singleton] at h
        exact h ▸ hsep

/-- Lines that were written with their separators. -/
theorem textLines_flatMap {ls : List (List α)} (h : ∀ l ∈ ls, sep ∉ l) :
    textLines sep (ls.flatMap (· ++ [sep])) = ls := by
  induction ls with
  | nil => rfl
  | cons l ls ih =>
    rw [List.forall_mem_cons] at h
    rw [List.flatMap_cons, List.append_assoc, List.singleton_append, textLines_sep h.1, ih h.2]

end FarouKernel.Verified
