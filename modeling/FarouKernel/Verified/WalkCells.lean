import FarouKernel.Verified.LargePages

/-!
# The words a page walk reads

Tables may be shared: an entry of the top table that points to the top table makes every
table a table of every lower level.  Then a store into one entry shows at many addresses,
and the point updates of `Verified.PageTables` are not to be had.

What remains is a frame rule for one walk at a time.  `cellsOf` is the list of the words
it reads, and if each of them still leads where it led then the walk ends at the same page
(`leafOf_of_kept`).
-/

namespace FarouKernel.Verified.PageTables

open Verified.ByteMem

/-- The addresses of the words that a walk reads, each with the number of levels below
it. -/
def cellsOf (next : Nat → Nat) (m : ByteMem) : Nat → List (Fin 512) → List (Nat × Nat)
  | _, [] => []
  | n, i :: rest =>
    (n + 8 * i, rest.length) :: (present (read64 m (n + 8 * i))).elim [] fun e =>
      if rest = [] ∨ Large e then [] else cellsOf next m (next e) rest

/-- An entry with `k` levels below it may be replaced: it leads to the same page, and it
is a leaf if it was one. -/
def Alike (next : Nat → Nat) (k e e' : Nat) : Prop :=
  next e' = next e ∧ (k = 0 ∨ (Large e' ↔ Large e))

/-- The entry in a word is replaced by one like it. -/
def KeptAt (next : Nat → Nat) (m m' : ByteMem) (a k : Nat) : Prop :=
  ∀ e, present (read64 m a) = some e →
    ∃ e', present (read64 m' a) = some e' ∧ Alike next k e e'

variable {next : Nat → Nat} {m m' : ByteMem} {n : Nat} {r : List (Fin 512)}

theorem KeptAt.of_eq {a k : Nat} (h : read64 m' a = read64 m a) : KeptAt next m m' a k := by
  intro e he
  exact ⟨e, by rw [h, he], rfl, Or.inr Iff.rfl⟩

/-- **The frame rule.** -/
theorem leafOf_of_kept {e k : Nat} (hleaf : leafOf next m n r = some (e, k))
    (hkept : ∀ c ∈ cellsOf next m n r, KeptAt next m m' c.1 c.2) :
    ∃ e', leafOf next m' n r = some (e', k) ∧ next e' = next e := by
  induction r generalizing n with
  | nil => cases hleaf
  | cons i rest ih =>
    rw [leafOf, Option.bind_eq_some_iff] at hleaf
    obtain ⟨a, ha, hleaf⟩ := hleaf
    rw [cellsOf, ha] at hkept
    obtain ⟨a', ha', hsame, hlarge⟩ := hkept _ List.mem_cons_self a ha
    rw [leafOf, ha', Option.bind_some]
    -- The two entries end the walk both or neither.
    have hend : rest = [] ∨ Large a' ↔ rest = [] ∨ Large a := by
      rcases hlarge with hnil | hlarge
      · have hrest : rest = [] := List.length_eq_zero_iff.mp hnil
        simp [hrest]
      · rw [hlarge]
    by_cases hstop : rest = [] ∨ Large a
    · rw [if_pos hstop] at hleaf
      obtain ⟨rfl, rfl⟩ := Prod.mk.inj (Option.some.inj hleaf)
      rw [if_pos (hend.mpr hstop)]
      exact ⟨a', rfl, hsame⟩
    · rw [if_neg hstop] at hleaf
      rw [if_neg (mt hend.mp hstop), hsame]
      refine ih hleaf fun c hc => hkept c (List.mem_cons_of_mem _ ?_)
      simpa only [Option.elim_some, if_neg hstop] using hc

/-- The words that a walk reads before it finds a leaf are entries. -/
theorem present_of_mem_cellsOf {e k : Nat} (hleaf : leafOf next m n r = some (e, k))
    {c : Nat × Nat} (hc : c ∈ cellsOf next m n r) : present (read64 m c.1) ≠ none := by
  induction r generalizing n with
  | nil => cases hleaf
  | cons i rest ih =>
    rw [leafOf, Option.bind_eq_some_iff] at hleaf
    obtain ⟨a, ha, hleaf⟩ := hleaf
    rw [cellsOf, ha] at hc
    rcases List.mem_cons.mp hc with rfl | hc
    · simp [ha]
    · by_cases hstop : rest = [] ∨ Large a
      · simp [hstop] at hc
      · rw [if_neg hstop] at hleaf
        exact ih hleaf (by simpa only [Option.elim_some, if_neg hstop] using hc)

/-- **The invariant rule for walks.**  The words lie in the tables of any set that holds the
first table and is closed under the entries of its tables. -/
theorem mem_cellsOf_closed (S : Nat → Prop)
    (hclosed : ∀ t, S t → ∀ (i : Fin 512) e, present (read64 m (t + 8 * i)) = some e →
      ¬Large e → S (next e))
    (hn : S n) {c : Nat × Nat} (hc : c ∈ cellsOf next m n r) :
    ∃ t, S t ∧ ∃ i : Fin 512, c.1 = t + 8 * i := by
  induction r generalizing n with
  | nil => cases hc
  | cons i rest ih =>
    rw [cellsOf] at hc
    rcases List.mem_cons.mp hc with rfl | hc
    · exact ⟨n, hn, i, rfl⟩
    · cases ha : present (read64 m (n + 8 * i)) with
      | none => simp [ha] at hc
      | some a =>
        rw [ha, Option.elim_some] at hc
        by_cases hstop : rest = [] ∨ Large a
        · simp [hstop] at hc
        · rw [if_neg hstop] at hc
          exact ih (hclosed n hn i a ha fun hlarge => hstop (Or.inr hlarge)) hc

/-- The words are words of tables. -/
theorem mem_cellsOf_aligned (hnext : ∀ e, next e % 4096 = 0) (hn : n % 4096 = 0)
    {c : Nat × Nat} (hc : c ∈ cellsOf next m n r) :
    ∃ t, t % 4096 = 0 ∧ ∃ i : Fin 512, c.1 = t + 8 * i :=
  mem_cellsOf_closed (· % 4096 = 0) (fun _ _ _ e _ _ => hnext e) hn hc

end FarouKernel.Verified.PageTables
