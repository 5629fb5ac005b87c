import Mathlib.Data.Nat.ModEq
import Mathlib.Logic.Function.Basic

/-!
# Queues in circular arrays

A bounded queue kept in an array of `n` cells: its `k` members lie from the cell
`head` on, around the end of the array.  `ringContents` reads them off.  Adding a
member writes the first cell behind them, which is none of theirs while there are
fewer than `n`; taking one moves `head` by one cell.
-/

namespace FarouKernel.Verified

variable {α : Type} {n k : Nat}

/-- The `k` members from the cell `head` on. -/
def ringContents (n : Nat) (cells : Nat → α) (head k : Nat) : List α :=
  (List.range k).map fun i => cells ((head + i) % n)

@[simp] theorem ringContents_length (cells : Nat → α) (head : Nat) :
    (ringContents n cells head k).length = k := by
  rw [ringContents, List.length_map, List.length_range]

theorem ringContents_succ (cells : Nat → α) (head : Nat) :
    ringContents n cells head (k + 1) =
      ringContents n cells head k ++ [cells ((head + k) % n)] := by
  rw [ringContents, List.range_succ, List.map_append]
  rfl

/-- The first member is that of the cell `head`, the others are those behind it. -/
theorem ringContents_cons (cells : Nat → α) (head : Nat) :
    ringContents n cells head (k + 1) =
      cells (head % n) :: ringContents n cells ((head + 1) % n) k := by
  rw [ringContents, List.range_succ_eq_map, List.map_cons, List.map_map]
  congr 1
  apply List.map_congr_left
  intro i _
  show cells ((head + (i + 1)) % n) = cells (((head + 1) % n + i) % n)
  rw [Nat.mod_add_mod, Nat.add_assoc, Nat.add_comm 1 i]

/-- Writing the first free cell adds a member at the end. -/
theorem ringContents_update (hk : k < n) (cells : Nat → α) (head : Nat) (x : α) :
    ringContents n (Function.update cells ((head + k) % n) x) head (k + 1) =
      ringContents n cells head k ++ [x] := by
  rw [ringContents_succ, Function.update_self]
  congr 1
  apply List.map_congr_left
  intro i hi
  have hik : i < k := List.mem_range.mp hi
  apply Function.update_of_ne
  intro heq
  have hmod : i ≡ k [MOD n] := Nat.ModEq.add_left_cancel' head heq
  have hsame : i = k := Nat.ModEq.eq_of_lt_of_lt hmod (by omega) hk
  omega

end FarouKernel.Verified
