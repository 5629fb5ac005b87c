import FarouKernel.Verified.ByteMem
import Mathlib.Data.Nat.Find
import Mathlib.Logic.Function.Basic

/-!
# Strings in a buffer

A C string is what stands in a buffer before the first zero byte.  `IsString`
relates the bytes to the list of characters; the ways in which code edits a string
in place (ending it earlier, replacing a character, moving its rest to the front)
are operations on the list.
-/

namespace FarouKernel.Verified

/-- The buffer holds the string `s`, with a zero byte behind it. -/
structure IsString (m : ByteMem) (s : List UInt8) : Prop where
  byte : ∀ i, i ≤ s.length → m i = (s[i]?).getD 0
  nonzero : 0 ∉ s

/-- A buffer with a zero byte in it. -/
structure CBuffer where
  bytes : ByteMem
  terminated : ∃ n, bytes n = 0

def CBuffer.strlen (b : CBuffer) : Nat := Nat.find b.terminated

/-- The string in the buffer. -/
def CBuffer.string (b : CBuffer) : List UInt8 := (List.range b.strlen).map b.bytes

namespace IsString

variable {m m' : ByteMem} {s s' : List UInt8} {i n : Nat}

section

variable (h : IsString m s)

include h

theorem char (hi : i < s.length) : m i = s[i] := by
  rw [h.byte i (Nat.le_of_lt hi), List.getElem?_eq_getElem hi, Option.getD_some]

theorem char_ne_zero (hi : i < s.length) : m i ≠ 0 := by
  intro hzero
  apply h.nonzero
  rw [← hzero, h.char hi]
  exact List.getElem_mem hi

theorem terminator : m s.length = 0 := by
  rw [h.byte s.length (Nat.le_refl _), List.getElem?_eq_none (Nat.le_refl _), Option.getD_none]

theorem length_le (h' : IsString m s') : s.length ≤ s'.length := by
  by_contra hlt
  exact h.char_ne_zero (Nat.lt_of_not_le hlt) h'.terminator

/-- A buffer holds one string. -/
theorem unique (h' : IsString m s') : s = s' := by
  apply List.ext_getElem (Nat.le_antisymm (h.length_le h') (h'.length_le h))
  intro i hi hi'
  rw [← h.char hi, ← h'.char hi']

/-- A zero byte in the string ends it there. -/
theorem cut (hn : n ≤ s.length) : IsString (Function.update m n 0) (s.take n) := by
  have hlength : (s.take n).length = n := List.length_take_of_le hn
  constructor
  · intro i hi
    rw [hlength] at hi
    rw [List.getElem?_take]
    by_cases hin : i < n
    · rw [Function.update_of_ne (Nat.ne_of_lt hin), if_pos hin, h.byte i (by omega)]
    · have heq : i = n := by omega
      rw [heq, Function.update_self, if_neg (Nat.lt_irrefl n), Option.getD_none]
  · exact fun hzero => h.nonzero (List.mem_of_mem_take hzero)

/-- A character is replaced. -/
theorem set {b : UInt8} (hb : b ≠ 0) (hn : n < s.length) :
    IsString (Function.update m n b) (s.set n b) := by
  constructor
  · intro i hi
    rw [List.length_set] at hi
    by_cases hin : n = i
    · subst hin
      rw [Function.update_self, List.getElem?_set_self hn, Option.getD_some]
    · rw [Function.update_of_ne (Ne.symm hin), List.getElem?_set_ne hin, h.byte i hi]
  · intro hzero
    rcases List.mem_or_eq_of_mem_set hzero with hold | hnew
    · exact h.nonzero hold
    · exact hb hnew.symm

/-- The rest of the string, with its terminator, is moved to the front. -/
theorem shift (hn : n ≤ s.length) (hmoved : ∀ i, i < s.length - n + 1 → m' i = m (i + n)) :
    IsString m' (s.drop n) := by
  constructor
  · intro i hi
    rw [List.length_drop] at hi
    rw [hmoved i (by omega), List.getElem?_drop, Nat.add_comm n i, h.byte (i + n) (by omega)]
  · exact fun hzero => h.nonzero (List.mem_of_mem_drop hzero)

end

end IsString

namespace CBuffer

variable {b : CBuffer} {s : List UInt8}

theorem length_string (b : CBuffer) : b.string.length = b.strlen := by
  rw [string, List.length_map, List.length_range]

theorem isString (b : CBuffer) : IsString b.bytes b.string := by
  constructor
  · intro i hi
    rw [length_string] at hi
    rw [string, List.getElem?_map]
    by_cases hlt : i < b.strlen
    · rw [List.getElem?_range hlt, Option.map_some, Option.getD_some]
    · have heq : i = b.strlen := by omega
      rw [List.getElem?_eq_none (by rw [List.length_range]; omega), Option.map_none,
        Option.getD_none, heq]
      exact Nat.find_spec b.terminated
  · intro hzero
    rcases List.mem_map.mp hzero with ⟨i, hi, hbyte⟩
    exact Nat.find_min b.terminated (List.mem_range.mp hi) hbyte

theorem string_eq (h : IsString b.bytes s) : b.string = s := b.isString.unique h

end CBuffer

end FarouKernel.Verified
