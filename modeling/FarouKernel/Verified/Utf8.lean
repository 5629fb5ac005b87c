import Mathlib.Data.List.Basic
import Mathlib.Tactic.Common

/-!
# UTF-8

The well-formed byte sequences of UTF-8, by a machine that reads one byte at a time: it
is between two characters, or it still waits for some bytes of one, of which the next has
to be in a given range.  A byte below 128 is a character of its own and is never a part
of another one, so a text is cut at such bytes (`validUtf8_append_ascii`).
-/

namespace FarouKernel.Verified

/-- Where the machine is. -/
inductive Utf8State where
  | between
  /-- `count + 1` bytes of a character are missing, the next from `low` to `high`. -/
  | inside (count : Nat) (low high : Nat)
deriving DecidableEq

/-- A byte that starts a character. -/
def utf8First (b : Nat) : Option Utf8State :=
  if b < 0x80 then some .between
  else if 0xc2 ≤ b ∧ b ≤ 0xdf then some (.inside 0 0x80 0xbf)
  else if b = 0xe0 then some (.inside 1 0xa0 0xbf)
  else if b = 0xed then some (.inside 1 0x80 0x9f)
  else if 0xe1 ≤ b ∧ b ≤ 0xef then some (.inside 1 0x80 0xbf)
  else if b = 0xf0 then some (.inside 2 0x90 0xbf)
  else if 0xf1 ≤ b ∧ b ≤ 0xf3 then some (.inside 2 0x80 0xbf)
  else if b = 0xf4 then some (.inside 2 0x80 0x8f)
  else none

/-- The next state; a byte inside a character is at least 128. -/
def utf8Next (state : Utf8State) (b : UInt8) : Option Utf8State :=
  match state with
  | .between => utf8First b.toNat
  | .inside count low high =>
    if 0x80 ≤ b.toNat ∧ low ≤ b.toNat ∧ b.toNat ≤ high then
      match count with
      | 0 => some .between
      | count + 1 => some (.inside count 0x80 0xbf)
    else none

/-- The state after a sequence of bytes. -/
def utf8Run : Utf8State → List UInt8 → Option Utf8State
  | state, [] => some state
  | state, b :: s =>
    match utf8Next state b with
    | none => none
    | some state => utf8Run state s

/-- The bytes are a sequence of characters. -/
def validUtf8 (s : List UInt8) : Bool := utf8Run .between s = some .between

theorem utf8Run_append (state : Utf8State) (s t : List UInt8) :
    utf8Run state (s ++ t) = (utf8Run state s).bind fun state' => utf8Run state' t := by
  induction s generalizing state with
  | nil => rfl
  | cons b s ih =>
    rw [List.cons_append, utf8Run, utf8Run]
    cases utf8Next state b with
    | none => rfl
    | some state' => exact ih state'

/-- A byte below 128 is accepted between two characters only. -/
theorem utf8Next_ascii {b : UInt8} (h : b.toNat < 0x80) (state : Utf8State) :
    utf8Next state b = if state = .between then some .between else none := by
  cases state with
  | between => exact if_pos h
  | inside count low high =>
    have hnot : ¬ (0x80 ≤ b.toNat ∧ low ≤ b.toNat ∧ b.toNat ≤ high) := by omega
    rw [if_neg (by simp)]
    unfold utf8Next
    exact if_neg hnot

/-- A text is cut at a byte below 128. -/
theorem validUtf8_append_ascii {s t : List UInt8} {b : UInt8} (h : b.toNat < 0x80) :
    validUtf8 (s ++ b :: t) = true ↔ validUtf8 s = true ∧ validUtf8 t = true := by
  simp only [validUtf8, decide_eq_true_eq, utf8Run_append]
  cases utf8Run .between s with
  | none => simp
  | some state =>
    simp only [Option.bind_some, utf8Run, utf8Next_ascii h]
    by_cases hstate : state = .between <;> simp [hstate]

@[simp] theorem validUtf8_nil : validUtf8 [] = true := rfl

theorem validUtf8_cons_ascii {t : List UInt8} {b : UInt8} (h : b.toNat < 0x80) :
    validUtf8 (b :: t) = true ↔ validUtf8 t = true := by
  have hcut := validUtf8_append_ascii (s := []) (t := t) h
  rw [List.nil_append] at hcut
  simpa using hcut

/-- Characters of one byte in front. -/
theorem validUtf8_ascii_append {s t : List UInt8} (h : ∀ b ∈ s, b.toNat < 0x80) :
    validUtf8 (s ++ t) = true ↔ validUtf8 t = true := by
  induction s with
  | nil => rfl
  | cons b s ih =>
    rw [List.forall_mem_cons] at h
    rw [List.cons_append, validUtf8_cons_ascii h.1, ih h.2]

end FarouKernel.Verified
