import FarouKernel.Verified.FileStream
import FarouKernel.Verified.TextLines

/-!
# Loops over the lines of a stream

`while (std::getline(s, line))` runs its body for the lines of the text in turn.
-/

namespace FarouKernel.Verified

variable {σ : Type}

/-- A stream at the start of a text. -/
def FileStream.over (content : List UInt8) : FileStream := ⟨false, content, 0, false, false, false⟩

@[simp] theorem FileStream.good_over (content : List UInt8) :
    (FileStream.over content).good = true := rfl

@[simp] theorem FileStream.rest_over (content : List UInt8) :
    (FileStream.over content).rest = content := rfl

/-- The loop, for so many rounds at most. -/
def forLines (newline : UInt8) (body : σ → List UInt8 → σ) : Nat → FileStream → σ → σ
  | 0, _, state => state
  | rounds + 1, s, state =>
    let (line, s) := s.getline newline
    if s.fail = true then state else forLines newline body rounds s (body state line)

variable {newline : UInt8} {s : FileStream} {body : σ → List UInt8 → σ}

theorem forLines_stop (rounds : Nat) {s' : FileStream} {line : List UInt8} (state : σ)
    (hrun : s.getline newline = (line, s')) (hfail : s'.fail = true) :
    forLines newline body (rounds + 1) s state = state := by
  rw [forLines, hrun]
  exact if_pos hfail

theorem forLines_line (rounds : Nat) {s' : FileStream} {line : List UInt8} (state : σ)
    (hrun : s.getline newline = (line, s')) (hfail : s'.fail = false) :
    forLines newline body (rounds + 1) s state =
      forLines newline body rounds s' (body state line) := by
  rw [forLines, hrun]
  exact if_neg (by simp [hfail])

/-- **The rule for such loops.**  On a good stream `getline` gives the lines of what is left
one by one and then fails; the last line need not have an end. -/
theorem FileStream.lines_induction {P : FileStream → List (List UInt8) → Prop}
    (stop : ∀ s line s', s.getline newline = (line, s') → s'.fail = true → P s [])
    (next : ∀ s line s' lines, s.getline newline = (line, s') → s'.fail = false →
      s'.rest.length < s.rest.length → P s' lines → P s (line :: lines)) (hgood : s.good = true) :
    P s (textLines newline s.rest) := by
  induction hlen : s.rest.length using Nat.strong_induction_on generalizing s with
  | _ n ih =>
    by_cases hmem : newline ∈ s.rest
    · obtain ⟨line, tail, hrest, hline⟩ := List.eq_append_cons_of_mem hmem
      obtain ⟨hrun, htail⟩ := getline_line hgood hrest hline
      have hgood' : (s.moved (s.pos + (line.length + 1))).good = true := hgood
      have hless : tail.length < s.rest.length := by
        rw [hrest, List.length_append, List.length_cons]
        omega
      have hlines := ih _ (hlen ▸ htail.symm ▸ hless) hgood' rfl
      rw [htail] at hlines
      rw [hrest, textLines_sep hline]
      exact next _ _ _ _ hrun (fail_of_good hgood') (htail.symm ▸ hless) hlines
    · have hrun := getline_end hgood hmem
      have hfail := atEnd_fail hgood
      by_cases hempty : s.rest = []
      · rw [hempty] at hfail
        rw [hempty]
        exact stop _ _ _ hrun hfail
      · -- The last line has no end; the next `getline` fails.
        rw [List.isEmpty_eq_false_iff.mpr hempty] at hfail
        have hpos : 0 < s.rest.length := List.length_pos_iff.mpr hempty
        have hlast := stop _ _ _ (getline_not_good newline (atEnd_not_good s)) rfl
        rw [textLines_last hmem hempty]
        exact next _ _ _ _ hrun hfail (by rw [atEnd_rest]; exact hpos) hlast

/-- **The loop.**  Every round but the last takes a byte, so one round more than there are
bytes is enough. -/
theorem forLines_good (rounds : Nat) (state : σ) (hgood : s.good = true)
    (hrounds : s.rest.length < rounds) :
    forLines newline body rounds s state = (textLines newline s.rest).foldl body state := by
  refine FileStream.lines_induction
    (P := fun s lines => ∀ rounds state, s.rest.length < rounds →
      forLines newline body rounds s state = lines.foldl body state)
    ?_ ?_ hgood rounds state hrounds
  · intro s line s' hrun hfail rounds state hrounds
    obtain ⟨n, rfl⟩ : ∃ n, rounds = n + 1 := ⟨rounds - 1, by omega⟩
    exact forLines_stop n state hrun hfail
  · intro s line s' lines hrun hfail hless ih rounds state hrounds
    obtain ⟨n, rfl⟩ : ∃ n, rounds = n + 1 := ⟨rounds - 1, by omega⟩
    rw [forLines_line n state hrun hfail, List.foldl_cons]
    exact ih n _ (by omega)

end FarouKernel.Verified
