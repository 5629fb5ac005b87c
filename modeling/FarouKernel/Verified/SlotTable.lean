import Mathlib.Data.List.Basic
import Mathlib.Tactic.Common

/-!
# Tables of slots

Two loops that code over a fixed table of slots keeps repeating.

`updateFirst` searches the table for the first slot that passes a test and
rewrites that slot.  Its results are described by a splitting of the table, so a
client never handles indices.

`compactLoop` moves the slots that pass a test to the front, in place, with a
read and a write index, and counts those that pass a second test.  The slots
behind the write index keep their old contents; `compact_run` says that the
kept slots come first and in order.
-/

namespace FarouKernel.Verified

variable {α : Type}

/-- Rewrite the first slot that passes the test. -/
def updateFirst (p : α → Bool) (f : α → α) : List α → Option (List α)
  | [] => none
  | x :: xs => if p x = true then some (f x :: xs) else (updateFirst p f xs).map (x :: ·)

variable {l : List α} {p : α → Bool} {f : α → α}

/-- No slot passes the test. -/
theorem updateFirst_eq_none : updateFirst p f l = none ↔ ∀ x ∈ l, p x = false := by
  induction l with
  | nil => simp [updateFirst]
  | cons x xs ih =>
    cases hx : p x with
    | true => simp [updateFirst, hx]
    | false => simp [updateFirst, hx, ih]

/-- The first slot that passes the test is rewritten, and no other. -/
theorem updateFirst_eq_some {l' : List α} (h : updateFirst p f l = some l') :
    ∃ a x b, l = a ++ x :: b ∧ (∀ y ∈ a, p y = false) ∧ p x = true ∧ l' = a ++ f x :: b := by
  induction l generalizing l' with
  | nil => cases h
  | cons x xs ih =>
    cases hx : p x with
    | true =>
      rw [updateFirst, if_pos hx] at h
      cases h
      exact ⟨[], x, xs, rfl, by simp, hx, rfl⟩
    | false =>
      rw [updateFirst, if_neg (by simp [hx]), Option.map_eq_some_iff] at h
      obtain ⟨ys, hys, rfl⟩ := h
      obtain ⟨a, y, b, rfl, ha, hy, rfl⟩ := ih hys
      refine ⟨x :: a, y, b, rfl, ?_, hy, rfl⟩
      intro z hz
      rcases List.mem_cons.mp hz with rfl | hz
      · exact hx
      · exact ha z hz

theorem length_updateFirst {l' : List α} (h : updateFirst p f l = some l') :
    l'.length = l.length := by
  obtain ⟨a, x, b, rfl, _, _, rfl⟩ := updateFirst_eq_some h
  simp

/-- The compaction loop: `left` slots from `read` on remain to be read, the next
kept one goes to `write`, and `n` slots were counted so far. -/
def compactLoop (keep count : α → Bool) : Nat → Nat → Nat → Nat → List α → List α × Nat × Nat
  | 0, _, write, n, l => (l, write, n)
  | left + 1, read, write, n, l =>
    match l[read]? with
    | none => (l, write, n)
    | some x =>
      if keep x = true then
        compactLoop keep count left (read + 1) (write + 1) n
          (if read ≠ write then l.set write x else l)
      else if count x = true then compactLoop keep count left (read + 1) write (n + 1) l
      else compactLoop keep count left (read + 1) write n l

theorem length_compactLoop {keep count : α → Bool} {left read write n : Nat} :
    (compactLoop keep count left read write n l).1.length = l.length := by
  induction left generalizing read write n l with
  | zero => rfl
  | succ left ih =>
    rw [compactLoop]
    split
    · rfl
    · split
      · rw [ih]
        split
        · exact List.length_set
        · rfl
      · split <;> exact ih

/-- The slots a compaction counts. -/
def counted (keep count : α → Bool) (l : List α) : Nat :=
  l.countP fun x => !keep x && count x

theorem drop_of_lt {i : Nat} (h : i < l.length) :
    ∃ x, l[i]? = some x ∧ l.drop i = x :: l.drop (i + 1) :=
  ⟨l[i], List.getElem?_eq_getElem h, List.drop_eq_getElem_cons h⟩

/-- What the loop does from any point on: `kept` was written so far, and the rest
of the table is still as it was. -/
theorem compactLoop_run (keep count : α → Bool) (l0 : List α) (left read n : Nat)
    (kept : List α) (hkept : kept.length ≤ read) (hleft : read + left = l0.length) :
    compactLoop keep count left read kept.length n (kept ++ l0.drop kept.length) =
      (kept ++ (l0.drop read).filter keep ++
          l0.drop (kept.length + ((l0.drop read).filter keep).length),
        kept.length + ((l0.drop read).filter keep).length,
        n + counted keep count (l0.drop read)) := by
  induction left generalizing read n kept with
  | zero =>
    have hdone : l0.drop read = [] := List.drop_eq_nil_of_le (by omega)
    simp [compactLoop, hdone, counted]
  | succ left ih =>
    obtain ⟨x, hx?, hdrop⟩ := drop_of_lt (l := l0) (show read < l0.length by omega)
    obtain ⟨y, _, hslot⟩ := drop_of_lt (l := l0) (show kept.length < l0.length by omega)
    have hread : (kept ++ l0.drop kept.length)[read]? = some x := by
      rw [List.getElem?_append_right hkept, List.getElem?_drop, Nat.add_sub_cancel' hkept, hx?]
    rw [compactLoop, hread, hdrop]
    cases hx : keep x with
    | true =>
      -- writing the slot moves the border between kept and untouched slots
      have hwrite : (if read ≠ kept.length then (kept ++ l0.drop kept.length).set kept.length x
          else kept ++ l0.drop kept.length) = (kept ++ [x]) ++ l0.drop (kept.length + 1) := by
        rw [List.append_assoc, List.singleton_append]
        by_cases hsame : read = kept.length
        · rw [if_neg (not_not.mpr hsame), ← hsame, hdrop]
        · rw [if_pos hsame, List.set_append_right _ _ (Nat.le_refl _), Nat.sub_self, hslot]
          rfl
      have hlen : (kept ++ [x]).length = kept.length + 1 := by simp
      have hnext := ih (read + 1) n (kept ++ [x]) (by omega) (by omega)
      rw [hlen] at hnext
      simp only [hwrite, hnext]
      simp [hx, counted, Nat.add_assoc, Nat.add_comm 1]
    | false =>
      cases hy : count x with
      | true =>
        have hnext := ih (read + 1) (n + 1) kept (by omega) (by omega)
        simp only [hnext]
        simp [hx, hy, counted, Nat.add_assoc, Nat.add_comm 1]
      | false =>
        have hnext := ih (read + 1) n kept (by omega) (by omega)
        simp only [hnext]
        simp [hx, hy, counted]

/-- **Compaction** of a whole table. -/
theorem compact_run (keep count : α → Bool) (l : List α) :
    compactLoop keep count l.length 0 0 0 l =
      (l.filter keep ++ l.drop (l.filter keep).length, (l.filter keep).length,
        counted keep count l) := by
  have hrun := compactLoop_run keep count l l.length 0 0 [] (Nat.le_refl 0) (Nat.zero_add _)
  simpa using hrun

end FarouKernel.Verified
