import FarouKernel.Ports.DataProcessorLines
import FarouKernel.Verified.JsonText

/-!
# When `generateJSON` writes JSON

`generateJSON` puts a key between quotes as it is.  The text is read back as the object
with the given members exactly if every key stands for itself in a string: it is UTF-8
and has no quote, no backslash and no control character.  The commas are right for every
number of pairs.
-/

namespace FarouKernel.Ports.DataProcessor

open Verified
open Ports.Kprintf (text)

/-- The members of an object with the given pairs. -/
def membersOf (data : List (List UInt8 × Int)) : List (List UInt8 × JsonValue) :=
  data.map fun pair => (pair.1, .number pair.2 0)

/-- The key stands for itself in a JSON string. -/
def PlainKey (key : List UInt8) : Prop := validUtf8 key = true ∧ ∀ b ∈ key, isPlain b = true

/-! ## The text -/

/-- What follows the white space in front of the first key. -/
def membersText : List (List UInt8 × Int) → List UInt8
  | [] => text "\x7d\n"
  | [pair] =>
    34 :: (pair.1 ++ 34 :: 58 :: 32 :: (intText pair.2 ++ 10 :: text "\x7d\n"))
  | pair :: next :: data =>
    34 :: (pair.1 ++ 34 :: 58 :: 32 ::
      (intText pair.2 ++ 44 :: 10 :: 32 :: 32 :: membersText (next :: data)))

/-- The pieces of the text, as bytes. -/
theorem json_pieces :
    text "  \"" = [32, 32, 34] ∧ text "\": " = [34, 58, 32] ∧ text "," = [44] ∧ text "\n" = [10] ∧
      text "\x7d\n" = [125, 10] := by
  decide

variable {pair : List UInt8 × Int} {data : List (List UInt8 × Int)} {fuel : Nat}

theorem generateJSONLoop_eq {size i : Nat} (hsize : size = i + (pair :: data).length) :
    generateJSONLoop size i (pair :: data) ++ text "\x7d\n" =
      32 :: 32 :: membersText (pair :: data) := by
  induction data generalizing i pair with
  | nil =>
    have hlast : ¬ i < size - 1 := by
      rw [hsize]
      simp
    simp [generateJSONLoop, membersText, json_pieces, if_neg hlast]
  | cons next data ih =>
    simp only [List.length_cons] at hsize ih
    have hmore : i < size - 1 := by omega
    have hrest : generateJSONLoop size (i + 1) (next :: data) ++ text "\x7d\n" =
        32 :: 32 :: membersText (next :: data) := ih (by omega)
    rw [generateJSONLoop, if_pos hmore, List.append_assoc, hrest, membersText]
    simp [json_pieces]

theorem generateJSON_eq (pair : List UInt8 × Int) (data : List (List UInt8 × Int)) :
    generateJSON (pair :: data) = 123 :: 10 :: 32 :: 32 :: membersText (pair :: data) := by
  rw [generateJSON, List.append_assoc, generateJSONLoop_eq (by simp)]
  rfl

/-! ## The members -/

/-- The first of several members, with a plain key. -/
theorem readMembers_next (fuel : Nat) {next : List UInt8 × Int}
    (hkey : ∀ b ∈ pair.1, isPlain b = true) :
    readMembers (fuel + 2) (membersText (pair :: next :: data)) =
      (readMembers (fuel + 1) (membersText (next :: data))).map fun r =>
        ((pair.1, .number pair.2 0) :: r.1, r.2) := by
  have hcomma : ∀ b ∈ (44 :: 10 :: 32 :: 32 :: membersText (next :: data)).head?,
      endsInteger b = true := by
    intro b hb
    cases hb
    rfl
  have hspace : skipSpace (10 :: 32 :: 32 :: membersText (next :: data)) =
      membersText (next :: data) := by
    cases data <;> rfl
  rw [membersText, readMembers_member fuel pair.2 hkey hcomma, skipSpace_cons_of_not rfl,
    expect_cons_self]
  simp only [hspace]

/-- The first key is plain if it is read as it was written. -/
theorem plain_of_readMembers_first {rest : List UInt8}
    (h : readMembers fuel (membersText (pair :: data)) = some (membersOf (pair :: data), rest)) :
    ∀ b ∈ pair.1, isPlain b = true := by
  have hvalue : (34 : UInt8) ∉ intText pair.2 :=
    fun hmem => absurd (intText_bytes pair.2 hmem) (by decide)
  cases data with
  | nil =>
    have hmid : (34 : UInt8) ∉ 58 :: 32 :: intText pair.2 := by simp [hvalue]
    exact plain_of_readMembers hmid (show (10 : UInt8).toNat < 32 by decide) h
  | cons next data =>
    have hmid : (34 : UInt8) ∉ 58 :: 32 :: (intText pair.2 ++ [44]) := by simp [hvalue]
    have htext : membersText (pair :: next :: data) =
        34 :: (pair.1 ++ 34 :: ((58 :: 32 :: (intText pair.2 ++ [44])) ++
          10 :: 32 :: 32 :: membersText (next :: data))) := by
      simp [membersText]
    rw [htext] at h
    exact plain_of_readMembers hmid (by decide) h

/-- With plain keys the members are read back. -/
theorem readMembers_membersText (hfuel : (pair :: data).length < fuel)
    (hkeys : ∀ p ∈ pair :: data, ∀ b ∈ p.1, isPlain b = true) :
    readMembers fuel (membersText (pair :: data)) = some (membersOf (pair :: data), [10]) := by
  rw [List.forall_mem_cons] at hkeys
  induction data generalizing fuel pair with
  | nil =>
    obtain ⟨n, rfl⟩ : ∃ n, fuel = n + 2 := ⟨fuel - 2, by rw [List.length_singleton] at hfuel; omega⟩
    have hend : ∀ b ∈ (10 :: text "\x7d\n").head?, endsInteger b = true := by
      intro b hb
      cases hb
      rfl
    rw [membersText, readMembers_member n pair.2 hkeys.1 hend]
    rfl
  | cons next data ih =>
    rw [List.length_cons] at hfuel
    obtain ⟨n, rfl⟩ : ∃ n, fuel = n + 2 := ⟨fuel - 2, by rw [List.length_cons] at hfuel; omega⟩
    rw [readMembers_next n hkeys.1, ih (by omega) (List.forall_mem_cons.mp hkeys.2)]
    rfl

/-- If the members are read back, the keys are plain. -/
theorem plain_of_readMembers_membersText {rest : List UInt8} (hfuel : (pair :: data).length < fuel)
    (h : readMembers fuel (membersText (pair :: data)) = some (membersOf (pair :: data), rest)) :
    ∀ p ∈ pair :: data, ∀ b ∈ p.1, isPlain b = true := by
  have hfirst := plain_of_readMembers_first h
  induction data generalizing fuel pair with
  | nil => simpa using hfirst
  | cons next data ih =>
    rw [List.length_cons] at hfuel
    obtain ⟨n, rfl⟩ : ∃ n, fuel = n + 2 := ⟨fuel - 2, by rw [List.length_cons] at hfuel; omega⟩
    rw [readMembers_next n hfirst, Option.map_eq_some_iff] at h
    obtain ⟨r, hr, hpair⟩ := h
    obtain ⟨hmembers, htail⟩ := Prod.mk.inj hpair
    have hrest : r = (membersOf (next :: data), rest) :=
      Prod.ext (List.cons.inj hmembers).2 htail
    rw [hrest] at hr
    exact List.forall_mem_cons.mpr ⟨hfirst, ih (by omega) hr (plain_of_readMembers_first hr)⟩

/-! ## The object -/

theorem intText_ascii (v : Int) : ∀ b ∈ intText v, b.toNat < 0x80 := by
  intro b hb
  have hbyte := intText_bytes v hb
  omega

/-- The text is UTF-8 exactly if the keys are. -/
theorem validUtf8_membersText (pair : List UInt8 × Int) (data : List (List UInt8 × Int)) :
    validUtf8 (membersText (pair :: data)) = true ↔
      ∀ p ∈ pair :: data, validUtf8 p.1 = true := by
  induction data generalizing pair with
  | nil =>
    rw [membersText, validUtf8_cons_ascii (by decide), validUtf8_append_ascii (by decide),
      validUtf8_cons_ascii (by decide), validUtf8_cons_ascii (by decide),
      validUtf8_ascii_append (intText_ascii _), List.forall_mem_singleton]
    exact and_iff_left (by decide)
  | cons next data ih =>
    rw [membersText, validUtf8_cons_ascii (by decide), validUtf8_append_ascii (by decide),
      validUtf8_cons_ascii (by decide), validUtf8_cons_ascii (by decide),
      validUtf8_ascii_append (intText_ascii _), validUtf8_cons_ascii (by decide),
      validUtf8_cons_ascii (by decide), validUtf8_cons_ascii (by decide),
      validUtf8_cons_ascii (by decide), ih]
    simp only [List.forall_mem_cons]

theorem length_le_membersText (data : List (List UInt8 × Int)) :
    data.length ≤ (membersText data).length := by
  induction data with
  | nil => simp
  | cons pair data ih =>
    cases data with
    | nil => simp [membersText]
    | cons next data =>
      simp only [membersText, List.length_cons, List.length_append] at ih ⊢
      omega

/-- The reader on the text of one pair or more. -/
theorem readJson_generateJSON (pair : List UInt8 × Int) (data : List (List UInt8 × Int)) :
    readJson (generateJSON (pair :: data)) =
      if validUtf8 (membersText (pair :: data)) = true then
        match readMembers ((membersText (pair :: data)).length + 4)
            (membersText (pair :: data)) with
        | some (members, s) => if skipSpace s = [] then some (.object members) else none
        | none => none
      else none := by
  have hquote : ∃ s, membersText (pair :: data) = 34 :: s := by
    cases data <;> exact ⟨_, rfl⟩
  obtain ⟨s, hs⟩ := hquote
  have hvalid : validUtf8 (123 :: 10 :: 32 :: 32 :: membersText (pair :: data)) =
      validUtf8 (membersText (pair :: data)) := by
    rw [Bool.eq_iff_iff, validUtf8_cons_ascii (by decide), validUtf8_cons_ascii (by decide),
      validUtf8_cons_ascii (by decide), validUtf8_cons_ascii (by decide)]
  have hspace : skipSpace (10 :: 32 :: 32 :: membersText (pair :: data)) =
      membersText (pair :: data) := by
    rw [hs]
    rfl
  have hopen : expect 125 (membersText (pair :: data)) = none := by
    rw [hs]
    rfl
  rw [generateJSON_eq, readJson, hvalid, skipSpace_cons_of_not rfl, readValue, if_pos rfl, hspace,
    hopen]
  simp only [List.length_cons]
  cases readMembers ((membersText (pair :: data)).length + 4) (membersText (pair :: data)) with
  | none => rfl
  | some r => rfl

/-- **JSON.**  What `generateJSON` writes is read as the object with the given members
exactly if every key is UTF-8 and has no quote, no backslash and no control character. -/
theorem generateJSON_faithful_iff (data : List (List UInt8 × Int)) :
    readJson (generateJSON data) = some (.object (membersOf data)) ↔
      ∀ pair ∈ data, PlainKey pair.1 := by
  cases data with
  | nil => exact iff_of_true rfl (by simp)
  | cons pair data =>
    have hfuel : (pair :: data).length < (membersText (pair :: data)).length + 4 := by
      have := length_le_membersText (pair :: data)
      omega
    have hsplit : (∀ p ∈ pair :: data, PlainKey p.1) ↔
        validUtf8 (membersText (pair :: data)) = true ∧
          ∀ p ∈ pair :: data, ∀ b ∈ p.1, isPlain b = true := by
      rw [validUtf8_membersText, ← forall₂_and]
      rfl
    rw [readJson_generateJSON, hsplit]
    constructor
    · intro h
      split at h
      case isFalse => cases h
      case isTrue hvalid =>
          refine ⟨hvalid, ?_⟩
          cases hread : readMembers ((membersText (pair :: data)).length + 4)
              (membersText (pair :: data)) with
          | none =>
            rw [hread] at h
            cases h
          | some r =>
            obtain ⟨members, s⟩ := r
            simp only [hread] at h
            split at h
            case isFalse => cases h
            case isTrue =>
                rw [Option.some.injEq, JsonValue.object.injEq] at h
                rw [h] at hread
                exact plain_of_readMembers_membersText hfuel hread
    · rintro ⟨hvalid, hplain⟩
      rw [if_pos hvalid, readMembers_membersText hfuel hplain]
      rfl

/-- A key with a quote, which `parse` takes from a line. -/
theorem quoted_key_not_faithful :
    parse {} (some (text "a\"b 1\n")) = .ok ⟨[(text "a\"b", 1)], []⟩ ∧
      readJson (generateJSON [(text "a\"b", 1)]) ≠
        some (.object (membersOf [(text "a\"b", 1)])) := by
  refine ⟨rfl, fun h => ?_⟩
  have hnone : readJson (generateJSON [(text "a\"b", 1)]) = none := by rfl
  cases hnone.symm.trans h

end FarouKernel.Ports.DataProcessor
