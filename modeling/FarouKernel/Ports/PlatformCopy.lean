import Mathlib.Data.List.Basic
import Mathlib.Tactic.Common

/-!
# `kernel/platform/platform.c`: copying a file

A translation of `copy_file` for two different files.  The results of the system calls
come from outside, those of `write` as a sequence; a count is cut to what `write` was
asked for.  `mmap` refuses the length 0.  `fstat` gives the size of the source.

The loop ends with the last byte or with the first write that fails, and the function
returns 0 after either.
-/

namespace FarouKernel.Ports.Platform

/-- What a `write` comes to. -/
inductive WriteResult where
  | count (n : Nat)
  | error

/-- The results of the system calls. -/
structure SystemCalls where
  sourceOpens : Bool
  destinationOpens : Bool
  maps : Bool
  writes : Nat → WriteResult

/-- The result of `copy_file` and the destination behind it. -/
structure CopyResult where
  result : Int
  destination : Option (List UInt8)

/-- What `write` returns if it is asked for so many bytes. -/
def WriteResult.returned (requested : Nat) : WriteResult → Int
  | .count n => (min n requested : Nat)
  | .error => -1

/-- The loop, with the destination.  Every round but the last writes a byte, so as many
rounds as there are bytes are enough. -/
def copyLoop (writes : Nat → WriteResult) (buffer : List UInt8) :
    Nat → Nat → Nat → List UInt8 → List UInt8
  | 0, _, _, destination => destination
  | rounds + 1, k, offset, destination =>
    if offset < buffer.length then
      let written := (writes k).returned (buffer.length - offset)
      if written ≤ 0 then destination
      else
        copyLoop writes buffer rounds (k + 1) (offset + written.toNat)
          (destination ++ (buffer.drop offset).take written.toNat)
    else destination

/-- `copy_file`. -/
def copyFile (calls : SystemCalls) (source : List UInt8) (destination : Option (List UInt8)) :
    CopyResult :=
  if calls.sourceOpens = false then ⟨-1, destination⟩
  else if calls.destinationOpens = false then ⟨-1, destination⟩
  else if source.length = 0 ∨ calls.maps = false then ⟨-1, some []⟩
  else ⟨0, some (copyLoop calls.writes source source.length 0 0 [])⟩

/-! ## The loop -/

/-- The bytes a `write` can transfer; none is what stops the loop. -/
def WriteResult.amount : WriteResult → Nat
  | .count n => n
  | .error => 0

/-- What `n` writes can transfer, from number `k` on. -/
def transferred (writes : Nat → WriteResult) (k : Nat) : Nat → Nat
  | 0 => 0
  | n + 1 => (writes k).amount + transferred writes (k + 1) n

/-- Some writes, all of which transfer something, are together enough for so many bytes. -/
def Suffice (writes : Nat → WriteResult) (k bytes : Nat) : Prop :=
  ∃ n, (∀ j, j < n → 0 < (writes (k + j)).amount) ∧ bytes ≤ transferred writes k n

theorem WriteResult.toNat_returned (requested : Nat) (w : WriteResult) :
    (w.returned requested).toNat = min w.amount requested := by
  cases w with
  | count n => exact Int.toNat_natCast _
  | error => exact (Nat.zero_min requested).symm

/-- The first write counts. -/
theorem suffice_iff_of_pos {writes : Nat → WriteResult} {k : Nat}
    (hpos : 0 < (writes k).amount) (bytes : Nat) :
    Suffice writes k bytes ↔ Suffice writes (k + 1) (bytes - (writes k).amount) := by
  constructor
  · rintro ⟨n, hall, hle⟩
    cases n with
    | zero =>
      rw [transferred] at hle
      exact ⟨0, fun j hj => absurd hj (Nat.not_lt_zero j), by omega⟩
    | succ n =>
      rw [transferred] at hle
      refine ⟨n, fun j hj => ?_, by omega⟩
      have hnext := hall (j + 1) (by omega)
      rwa [← Nat.add_assoc, Nat.add_right_comm] at hnext
  · rintro ⟨n, hall, hle⟩
    refine ⟨n + 1, fun j hj => ?_, ?_⟩
    · cases j with
      | zero => exact hpos
      | succ j =>
        have hnext := hall j (by omega)
        rwa [Nat.add_right_comm] at hnext
    · rw [transferred]
      omega

/-- At the end of the buffer nothing is left to write. -/
theorem take_eq_iff_suffice {writes : Nat → WriteResult} {buffer : List UInt8} {k offset : Nat}
    (hend : buffer.length ≤ offset) :
    buffer.take offset = buffer ↔ Suffice writes k (buffer.length - offset) :=
  iff_of_true (List.take_of_length_le hend)
    ⟨0, fun j hj => absurd hj (Nat.not_lt_zero j), by omega⟩

/-- The loop copies everything exactly if the writes suffice for what is left. -/
theorem copyLoop_eq_iff (writes : Nat → WriteResult) (buffer : List UInt8) {rounds k offset : Nat}
    (hoffset : offset ≤ buffer.length) (hrounds : buffer.length - offset ≤ rounds) :
    copyLoop writes buffer rounds k offset (buffer.take offset) = buffer ↔
      Suffice writes k (buffer.length - offset) := by
  induction rounds generalizing k offset with
  | zero => exact take_eq_iff_suffice (by omega)
  | succ rounds ih =>
    rw [copyLoop]
    by_cases hlt : offset < buffer.length
    · have hreturned := (writes k).toNat_returned (buffer.length - offset)
      rw [if_pos hlt]
      generalize (writes k).returned (buffer.length - offset) = written at hreturned
      by_cases hzero : (writes k).amount = 0
      · rw [if_pos (by omega)]
        refine iff_of_false ?_ ?_
        · intro heq
          have hlen := congrArg List.length heq
          rw [List.length_take] at hlen
          omega
        · rintro ⟨n, hall, hle⟩
          cases n with
          | zero =>
            rw [transferred] at hle
            omega
          | succ n => exact absurd (hall 0 (by omega)) (by simp [hzero])
      · rw [if_neg (by omega), ← List.take_add, suffice_iff_of_pos (by omega),
          show buffer.length - offset - (writes k).amount =
            buffer.length - (offset + written.toNat) by omega]
        exact ih (by omega) (by omega)
    · rw [if_neg hlt]
      exact take_eq_iff_suffice (by omega)

/-! ## The function -/

/-- The loop is reached. -/
def Copies (calls : SystemCalls) (source : List UInt8) : Prop :=
  calls.sourceOpens = true ∧ calls.destinationOpens = true ∧ source ≠ [] ∧ calls.maps = true

theorem copyFile_refused {calls : SystemCalls} {source : List UInt8}
    (destination : Option (List UInt8)) (hnot : ¬Copies calls source) :
    (copyFile calls source destination).result = -1 := by
  unfold copyFile
  cases hsource : calls.sourceOpens with
  | false => rfl
  | true =>
    cases hdestination : calls.destinationOpens with
    | false => rfl
    | true =>
      have hmap : source.length = 0 ∨ calls.maps = false := by
        by_contra hmap
        rw [not_or, Bool.not_eq_false, List.length_eq_zero_iff] at hmap
        exact hnot ⟨hsource, hdestination, hmap.1, hmap.2⟩
      simp only [Bool.true_eq_false, if_false, if_pos hmap]

theorem copyFile_copied {calls : SystemCalls} {source : List UInt8}
    (destination : Option (List UInt8)) (h : Copies calls source) :
    copyFile calls source destination =
      ⟨0, some (copyLoop calls.writes source source.length 0 0 [])⟩ := by
  obtain ⟨hsource, hdestination, hne, hmaps⟩ := h
  have hmap : ¬(source.length = 0 ∨ calls.maps = false) := by
    rw [not_or, Bool.not_eq_false, List.length_eq_zero_iff]
    exact ⟨hne, hmaps⟩
  unfold copyFile
  simp only [hsource, hdestination, Bool.true_eq_false, if_false, if_neg hmap]

/-- **`copy_file` returns 0 only for a complete copy, and copies the empty file**, exactly
if the writes that are made before the first failing one suffice for the source, and the
source is not an empty file that can be opened. -/
theorem copy_complete_iff (calls : SystemCalls) (source : List UInt8)
    (destination : Option (List UInt8)) :
    (((copyFile calls source destination).result = 0 →
          (copyFile calls source destination).destination = some source) ∧
        (source = [] → calls.sourceOpens = true → calls.destinationOpens = true →
          (copyFile calls source destination).result = 0)) ↔
      (Copies calls source → Suffice calls.writes 0 source.length) ∧
        ¬(source = [] ∧ calls.sourceOpens = true ∧ calls.destinationOpens = true) := by
  by_cases hcopies : Copies calls source
  · have hloop := copyLoop_eq_iff calls.writes source (k := 0) (Nat.zero_le source.length)
      (Nat.le_refl (source.length - 0))
    rw [List.take_zero, Nat.sub_zero] at hloop
    rw [copyFile_copied destination hcopies]
    simp only [forall_const, Option.some.injEq, hloop, hcopies]
    exact and_congr_right fun _ => ⟨fun _ hempty => hcopies.2.2.1 hempty.1, fun _ _ _ _ => trivial⟩
  · rw [copyFile_refused destination hcopies]
    constructor
    · rintro ⟨_, hempty⟩
      refine ⟨fun h => absurd h hcopies, ?_⟩
      rintro ⟨hnil, hsource, hdestination⟩
      exact absurd (hempty hnil hsource hdestination) (by decide)
    · rintro ⟨_, hnot⟩
      refine ⟨fun hzero => absurd hzero (by decide), ?_⟩
      intro hnil hsource hdestination
      exact absurd ⟨hnil, hsource, hdestination⟩ hnot

/-- Every call succeeds; the writes transfer one byte, then two, then one again. -/
def shortWrites : SystemCalls where
  sourceOpens := true
  destinationOpens := true
  maps := true
  writes k := if k = 1 then .count 2 else .count 1

/-- Four bytes are copied in three writes. -/
theorem copy_complete_short :
    (copyFile shortWrites [1, 2, 3, 4] none).result = 0 ∧
      (copyFile shortWrites [1, 2, 3, 4] none).destination = some [1, 2, 3, 4] := by
  refine ⟨rfl, ((copy_complete_iff shortWrites [1, 2, 3, 4] none).mpr ⟨fun _ => ?_, ?_⟩).1 rfl⟩
  · exact ⟨3, by decide, by decide⟩
  · decide

/-- Every call succeeds but the second `write`. -/
def secondWriteFails : SystemCalls where
  sourceOpens := true
  destinationOpens := true
  maps := true
  writes k := if k = 0 then .count 1 else .error

/-- A copy that ended with an error counts as a success, and an empty file is not
copied. -/
theorem copy_reports_success :
    (copyFile secondWriteFails [1, 2] none).result = 0 ∧
      (copyFile secondWriteFails [1, 2] none).destination = some [1] ∧
      (copyFile secondWriteFails [] none).result = -1 := by
  decide

end FarouKernel.Ports.Platform
