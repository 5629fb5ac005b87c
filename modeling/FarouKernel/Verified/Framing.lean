import Mathlib.Data.List.Basic
import Mathlib.Tactic.Common

/-!
# Lines and chunks

A stream of items in which some items are separators has lines: its pieces up to
and with each separator.  A reader that sees the stream in chunks and ends a
message with the first chunk that holds a separator produces messages.

`messagesFrom_eq_linesFrom_iff` says when the two agree: exactly if no chunk goes
on after a separator.  Both functions start from the items already read, so that
the statement is one induction over the chunks.
-/

namespace FarouKernel.Verified

variable {α : Type} {sep : α → Bool}

/-- The lines of a stream whose current line has begun with `acc`. -/
def linesFrom (sep : α → Bool) : List α → List α → List (List α)
  | _, [] => []
  | acc, x :: xs =>
    if sep x = true then (acc ++ [x]) :: linesFrom sep [] xs else linesFrom sep (acc ++ [x]) xs

/-- The lines of a stream, each with its separator.  What follows the last
separator is no line. -/
def lines (sep : α → Bool) (s : List α) : List (List α) := linesFrom sep [] s

/-- The messages of a sequence of chunks, after `acc` was read. -/
def messagesFrom (sep : α → Bool) : List α → List (List α) → List (List α)
  | _, [] => []
  | acc, c :: cs =>
    if c.any sep = true then (acc ++ c) :: messagesFrom sep [] cs
    else messagesFrom sep (acc ++ c) cs

/-- A separator stands at most at the end of the chunk. -/
def SepLast (sep : α → Bool) (c : List α) : Prop := ∀ x ∈ c.dropLast, sep x = false

theorem linesFrom_append_of_none {c : List α} (h : c.any sep = false) (acc s : List α) :
    linesFrom sep acc (c ++ s) = linesFrom sep (acc ++ c) s := by
  induction c generalizing acc with
  | nil => simp
  | cons x c ih =>
    rw [List.any_cons, Bool.or_eq_false_iff] at h
    rw [List.cons_append, linesFrom, if_neg (by simp [h.1]), ih h.2, List.append_assoc,
      List.singleton_append]

/-- The line ends at the first separator. -/
theorem linesFrom_append_sep {p : List α} {x : α} (hp : p.any sep = false) (hx : sep x = true)
    (acc s : List α) :
    linesFrom sep acc (p ++ x :: s) = (acc ++ (p ++ [x])) :: linesFrom sep [] s := by
  rw [linesFrom_append_of_none hp, linesFrom, if_pos hx, List.append_assoc]

theorem exists_first_sep {c : List α} (h : c.any sep = true) :
    ∃ p x q, c = p ++ x :: q ∧ p.any sep = false ∧ sep x = true := by
  induction c with
  | nil => cases h
  | cons y c ih =>
    cases hy : sep y with
    | true => exact ⟨[], y, c, rfl, rfl, hy⟩
    | false =>
      rw [List.any_cons, hy, Bool.false_or] at h
      rcases ih h with ⟨p, x, q, rfl, hp, hx⟩
      exact ⟨y :: p, x, q, rfl, by rw [List.any_cons, hy, hp]; rfl, hx⟩

/-- A chunk ends with its first separator or goes on after it. -/
theorem sepLast_append_cons {p q : List α} {x : α} (hp : p.any sep = false)
    (hx : sep x = true) : SepLast sep (p ++ x :: q) ↔ q = [] := by
  constructor
  · intro h
    by_contra hq
    have hmem : x ∈ (p ++ x :: q).dropLast := by
      rw [List.dropLast_append_of_ne_nil (List.cons_ne_nil x q), List.dropLast_cons_of_ne_nil hq]
      simp
    rw [h x hmem] at hx
    cases hx
  · rintro rfl y hy
    rw [List.dropLast_concat] at hy
    simpa using List.any_eq_false.mp hp y hy

/-- **Messages are lines exactly if no chunk goes on after a separator.** -/
theorem messagesFrom_eq_linesFrom_iff (acc : List α) (chunks : List (List α)) :
    messagesFrom sep acc chunks = linesFrom sep acc chunks.flatten ↔
      ∀ c ∈ chunks, SepLast sep c := by
  induction chunks generalizing acc with
  | nil => simp [messagesFrom, linesFrom]
  | cons c cs ih =>
    rw [List.flatten_cons, messagesFrom, List.forall_mem_cons]
    cases hc : c.any sep with
    | false =>
      have hlast : SepLast sep c := by
        intro x hx
        simpa using List.any_eq_false.mp hc x ((List.dropLast_sublist c).subset hx)
      rw [if_neg (by simp), linesFrom_append_of_none hc, ih]
      exact (and_iff_right hlast).symm
    | true =>
      rcases exists_first_sep hc with ⟨p, x, q, rfl, hp, hx⟩
      rw [if_pos rfl, List.append_assoc, List.cons_append, linesFrom_append_sep hp hx,
        List.cons.injEq, sepLast_append_cons hp hx, List.append_cancel_left_eq,
        List.append_cancel_left_eq, List.cons.injEq]
      constructor
      · rintro ⟨⟨_, rfl⟩, hrest⟩
        exact ⟨rfl, (ih []).mp hrest⟩
      · rintro ⟨rfl, hrest⟩
        exact ⟨⟨rfl, rfl⟩, (ih []).mpr hrest⟩

end FarouKernel.Verified
