import Mathlib.Data.List.TakeWhile
import Mathlib.Data.Nat.Digits.Lemmas

/-!
# Decimal numbers in texts

Integers are written with a minus sign and their digits.  `numberPrefix` reads a number
as `strtol` does: it skips white space, takes a sign and as many digits as there are, and
leaves the rest of the text.  A text is read exactly if it has this shape
(`numberPrefix_eq_some_iff`); in particular a written integer is read back.
-/

namespace FarouKernel.Verified

/-- A decimal digit. -/
def isDigit (b : UInt8) : Bool := 48 ≤ b.toNat && b.toNat ≤ 57

/-- A character that `isspace` accepts. -/
def isSpace (b : UInt8) : Bool := b.toNat = 32 || (9 ≤ b.toNat && b.toNat ≤ 13)

/-- The value of a sequence of digits. -/
def digitsValue (ds : List UInt8) : Nat := Nat.ofDigits 10 (ds.reverse.map fun b => b.toNat - 48)

/-- The digits of a number. -/
def natText (n : Nat) : List UInt8 :=
  if n = 0 then [48] else (Nat.digits 10 n).reverse.map fun d => UInt8.ofNat (48 + d)

/-- An integer as an output stream writes it. -/
def intText (v : Int) : List UInt8 := if v < 0 then 45 :: natText v.natAbs else natText v.natAbs

/-- The sign at the start of a text, and the rest of it. -/
def takeSign : List UInt8 → Bool × List UInt8
  | [] => (false, [])
  | b :: s => if b = 45 then (true, s) else if b = 43 then (false, s) else (false, b :: s)

/-- The value of digits with a sign. -/
def signed (negative : Bool) (n : Nat) : Int := if negative = true then -n else n

/-- The number at the start of a text, and the text behind it. -/
def numberPrefix (s : List UInt8) : Option (Int × List UInt8) :=
  let (negative, s) := takeSign (s.dropWhile isSpace)
  if s.takeWhile isDigit = [] then none
  else some (signed negative (digitsValue (s.takeWhile isDigit)), s.dropWhile isDigit)

/-- A sign, or none, and digits. -/
def IsInteger (body : List UInt8) (v : Int) : Prop :=
  ∃ sign digits, body = sign ++ digits ∧ digits ≠ [] ∧ (∀ b ∈ digits, isDigit b = true) ∧
    ((sign = [] ∧ v = digitsValue digits) ∨ (sign = [43] ∧ v = digitsValue digits) ∨
      (sign = [45] ∧ v = -digitsValue digits))

/-! ## Digits -/

theorem isDigit_natText (n : Nat) : ∀ b ∈ natText n, isDigit b = true := by
  unfold natText
  split
  · rw [List.forall_mem_singleton]
    decide
  · intro b hb
    obtain ⟨d, hd, rfl⟩ := List.mem_map.mp hb
    have hlt : d < 10 := Nat.digits_lt_base (by decide) (List.mem_reverse.mp hd)
    rw [isDigit, UInt8.toNat_ofNat_of_lt' (by show 48 + d < 256; omega)]
    simp
    omega

theorem natText_ne_nil (n : Nat) : natText n ≠ [] := by
  unfold natText
  split
  case isTrue => decide
  case isFalse hn => simpa using Nat.digits_ne_nil_iff_ne_zero.mpr hn

theorem digitsValue_natText (n : Nat) : digitsValue (natText n) = n := by
  unfold natText
  split
  case isTrue hn =>
      rw [hn]
      rfl
  case isFalse =>
      have hdigit : ∀ d ∈ Nat.digits 10 n,
          ((fun b : UInt8 => b.toNat - 48) ∘ fun d => UInt8.ofNat (48 + d)) d = id d := by
        intro d hd
        have hlt : d < 10 := Nat.digits_lt_base (by decide) hd
        show (UInt8.ofNat (48 + d)).toNat - 48 = d
        rw [UInt8.toNat_ofNat_of_lt' (by show 48 + d < 256; omega)]
        omega
      rw [digitsValue, ← List.map_reverse, List.reverse_reverse, List.map_map,
        List.map_congr_left hdigit, List.map_id, Nat.ofDigits_digits]

/-- A number is written without zeros in front. -/
theorem natText_head (n : Nat) : natText n = [48] ∨ (natText n).head? ≠ some 48 := by
  unfold natText
  split
  case isTrue => exact Or.inl rfl
  case isFalse hn =>
      right
      rw [List.head?_map, List.head?_reverse, List.getLast?_eq_some_getLast
        (Nat.digits_ne_nil_iff_ne_zero.mpr hn), Option.map_some, ne_eq, Option.some.injEq]
      have hlast := Nat.getLast_digit_ne_zero 10 hn
      have hlt := Nat.digits_lt_base (b := 10) (by decide)
        (List.getLast_mem (Nat.digits_ne_nil_iff_ne_zero.mpr hn))
      intro heq
      have hnat := congrArg UInt8.toNat heq
      rw [UInt8.toNat_ofNat_of_lt' (by show 48 + _ < 256; omega)] at hnat
      have : (48 : UInt8).toNat = 48 := rfl
      omega

theorem isInteger_intText (v : Int) : IsInteger (intText v) v := by
  unfold intText
  split
  case isTrue hneg =>
      refine ⟨[45], natText v.natAbs, rfl, natText_ne_nil _, isDigit_natText _, ?_⟩
      refine Or.inr (Or.inr ⟨rfl, ?_⟩)
      rw [digitsValue_natText]
      omega
  case isFalse hpos =>
      refine ⟨[], natText v.natAbs, rfl, natText_ne_nil _, isDigit_natText _, Or.inl ⟨rfl, ?_⟩⟩
      rw [digitsValue_natText]
      omega

/-- The bytes of a written integer are digits and the minus sign. -/
theorem intText_bytes (v : Int) {b : UInt8} (h : b ∈ intText v) :
    b.toNat = 45 ∨ 48 ≤ b.toNat ∧ b.toNat ≤ 57 := by
  have hdigits : b ∈ natText v.natAbs → 48 ≤ b.toNat ∧ b.toNat ≤ 57 := by
    intro hb
    have hdigit := isDigit_natText v.natAbs b hb
    rw [isDigit, Bool.and_eq_true, decide_eq_true_eq, decide_eq_true_eq] at hdigit
    exact hdigit
  unfold intText at h
  split at h
  · rcases List.mem_cons.mp h with rfl | hb
    · exact Or.inl rfl
    · exact Or.inr (hdigits hb)
  · exact Or.inr (hdigits h)

/-! ## Reading a number -/

theorem digit_facts {b : UInt8} (h : isDigit b = true) : isSpace b = false ∧ b ≠ 45 ∧ b ≠ 43 := by
  rw [isDigit, Bool.and_eq_true, decide_eq_true_eq, decide_eq_true_eq] at h
  refine ⟨?_, ?_, ?_⟩
  · rw [isSpace, Bool.or_eq_false_iff, Bool.and_eq_false_iff, decide_eq_false_iff_not,
      decide_eq_false_iff_not, decide_eq_false_iff_not]
    omega
  · rintro rfl
    exact absurd h.1 (by decide)
  · rintro rfl
    exact absurd h.1 (by decide)

theorem takeSign_cases (s : List UInt8) :
    ∃ sign, s = sign ++ (takeSign s).2 ∧
      ((sign = [] ∧ (takeSign s).1 = false) ∨ (sign = [43] ∧ (takeSign s).1 = false) ∨
        (sign = [45] ∧ (takeSign s).1 = true)) := by
  cases s with
  | nil => exact ⟨[], rfl, Or.inl ⟨rfl, rfl⟩⟩
  | cons b s =>
    rw [takeSign]
    by_cases h45 : b = 45
    · rw [if_pos h45]
      exact ⟨[45], by rw [h45]; rfl, Or.inr (Or.inr ⟨rfl, rfl⟩)⟩
    · rw [if_neg h45]
      by_cases h43 : b = 43
      · rw [if_pos h43]
        exact ⟨[43], by rw [h43]; rfl, Or.inr (Or.inl ⟨rfl, rfl⟩)⟩
      · rw [if_neg h43]
        exact ⟨[], rfl, Or.inl ⟨rfl, rfl⟩⟩

/-- The sign of a text that starts with an integer. -/
theorem takeSign_append {sign digits t : List UInt8} {v : Int} (hne : digits ≠ [])
    (hdigits : ∀ b ∈ digits, isDigit b = true)
    (hsign : (sign = [] ∧ v = digitsValue digits) ∨ (sign = [43] ∧ v = digitsValue digits) ∨
      (sign = [45] ∧ v = -digitsValue digits)) :
    ∃ negative, takeSign (sign ++ digits ++ t) = (negative, digits ++ t) ∧
      signed negative (digitsValue digits) = v := by
  obtain ⟨rfl, rfl⟩ | ⟨rfl, rfl⟩ | ⟨rfl, rfl⟩ := hsign
  · cases digits with
    | nil => exact absurd rfl hne
    | cons d ds =>
      obtain ⟨-, h45, h43⟩ := digit_facts (hdigits d List.mem_cons_self)
      exact ⟨false, by simp [takeSign, h45, h43], rfl⟩
  · exact ⟨false, rfl, rfl⟩
  · exact ⟨true, rfl, rfl⟩

/-- An integer does not start with white space. -/
theorem dropWhile_isSpace_of_isInteger {body t : List UInt8} {v : Int} (h : IsInteger body v) :
    (body ++ t).dropWhile isSpace = body ++ t := by
  obtain ⟨sign, digits, rfl, hne, hdigits, hsign⟩ := h
  cases digits with
  | nil => exact absurd rfl hne
  | cons d ds =>
    have hd := (digit_facts (hdigits d List.mem_cons_self)).1
    obtain ⟨rfl, -⟩ | ⟨rfl, -⟩ | ⟨rfl, -⟩ := hsign
    · simp [hd]
    · rfl
    · rfl

theorem numberPrefix_of_isInteger {ws body t : List UInt8} {v : Int}
    (hws : ∀ b ∈ ws, isSpace b = true) (hbody : IsInteger body v)
    (ht : ∀ b ∈ t.head?, isDigit b = false) : numberPrefix (ws ++ body ++ t) = some (v, t) := by
  have hspace : (ws ++ body ++ t).dropWhile isSpace = body ++ t := by
    rw [List.append_assoc, List.dropWhile_append_of_pos hws, dropWhile_isSpace_of_isInteger hbody]
  obtain ⟨sign, digits, rfl, hne, hdigits, hsign⟩ := hbody
  obtain ⟨negative, htake, hvalue⟩ := takeSign_append (t := t) hne hdigits hsign
  have hrest : t.takeWhile isDigit = [] ∧ t.dropWhile isDigit = t := by
    cases t with
    | nil => exact ⟨rfl, rfl⟩
    | cons b t =>
      have hb : isDigit b = false := ht b rfl
      simp [hb]
  unfold numberPrefix
  rw [hspace, htake]
  simp only [List.takeWhile_append_of_pos hdigits, List.dropWhile_append_of_pos hdigits, hrest,
    List.append_nil]
  rw [if_neg hne, hvalue]

/-- **What is read as a number**: white space, an integer, and whatever does not start
with a digit. -/
theorem numberPrefix_eq_some_iff {s t : List UInt8} {v : Int} :
    numberPrefix s = some (v, t) ↔
      ∃ ws body, s = ws ++ body ++ t ∧ (∀ b ∈ ws, isSpace b = true) ∧ IsInteger body v ∧
        ∀ b ∈ t.head?, isDigit b = false := by
  constructor
  · intro h
    -- The text is cut where the reader cuts it.
    obtain ⟨sign, hcut, hsign⟩ := takeSign_cases (s.dropWhile isSpace)
    unfold numberPrefix at h
    generalize takeSign (s.dropWhile isSpace) = r at hcut hsign h
    obtain ⟨negative, q⟩ := r
    simp only at h
    split at h
    case isTrue => cases h
    case isFalse hne =>
        simp only [Option.some.injEq, Prod.mk.injEq] at h
        obtain ⟨rfl, rfl⟩ := h
        refine ⟨s.takeWhile isSpace, sign ++ q.takeWhile isDigit, ?_, ?_, ?_, ?_⟩
        · rw [List.append_assoc, List.append_assoc, List.takeWhile_append_dropWhile, ← hcut,
            List.takeWhile_append_dropWhile]
        · exact fun b hb => List.mem_takeWhile_imp hb
        · refine ⟨sign, q.takeWhile isDigit, rfl, hne, fun b hb => List.mem_takeWhile_imp hb, ?_⟩
          obtain ⟨rfl, rfl⟩ | ⟨rfl, rfl⟩ | ⟨rfl, rfl⟩ := hsign
          · exact Or.inl ⟨rfl, rfl⟩
          · exact Or.inr (Or.inl ⟨rfl, rfl⟩)
          · exact Or.inr (Or.inr ⟨rfl, rfl⟩)
        · intro b hb
          have hnot := List.head?_dropWhile_not isDigit q
          rw [Option.mem_def.mp hb] at hnot
          simpa using hnot
  · rintro ⟨ws, body, rfl, hws, hbody, ht⟩
    exact numberPrefix_of_isInteger hws hbody ht

end FarouKernel.Verified
