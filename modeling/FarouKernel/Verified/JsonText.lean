import FarouKernel.Verified.Decimal
import FarouKernel.Verified.Utf8

/-!
# Reading JSON

A reader of JSON texts.  A text is UTF-8 and holds one value, with white space around it
and around its punctuation.  A string is what stands between two quotes: quotes,
backslashes and control characters are written by escapes, other characters stand for
themselves.  A number is kept as an integer and a power of ten.  The members of an object
are kept in their order, with repeated names.

The recursion is bounded by the length of the text, since every call takes a byte.
-/

namespace FarouKernel.Verified

/-- A value; a number is `mantissa` times ten to the power `exponent`. -/
inductive JsonValue where
  | null
  | bool (b : Bool)
  | number (mantissa exponent : Int)
  | string (s : List UInt8)
  | array (elements : List JsonValue)
  | object (members : List (List UInt8 × JsonValue))

/-! ## Strings -/

/-- The UTF-8 bytes of a code point. -/
def utf8Encode (c : Nat) : List UInt8 :=
  if c < 0x80 then [UInt8.ofNat c]
  else if c < 0x800 then [UInt8.ofNat (0xc0 + c / 64), UInt8.ofNat (0x80 + c % 64)]
  else if c < 0x10000 then
    [UInt8.ofNat (0xe0 + c / 4096), UInt8.ofNat (0x80 + c / 64 % 64), UInt8.ofNat (0x80 + c % 64)]
  else
    [UInt8.ofNat (0xf0 + c / 262144), UInt8.ofNat (0x80 + c / 4096 % 64),
      UInt8.ofNat (0x80 + c / 64 % 64), UInt8.ofNat (0x80 + c % 64)]

/-- The value of a hexadecimal digit. -/
def hexValue (b : UInt8) : Option Nat :=
  if 48 ≤ b.toNat ∧ b.toNat ≤ 57 then some (b.toNat - 48)
  else if 65 ≤ b.toNat ∧ b.toNat ≤ 70 then some (b.toNat - 55)
  else if 97 ≤ b.toNat ∧ b.toNat ≤ 102 then some (b.toNat - 87)
  else none

/-- Four hexadecimal digits. -/
def readHex : List UInt8 → Option (Nat × List UInt8)
  | a :: b :: c :: d :: s =>
    match hexValue a, hexValue b, hexValue c, hexValue d with
    | some a, some b, some c, some d => some (((a * 16 + b) * 16 + c) * 16 + d, s)
    | _, _, _, _ => none
  | _ => none

/-- The second half of a pair of surrogates. -/
def readLowSurrogate (high : Nat) : List UInt8 → Option (List UInt8 × List UInt8)
  | backslash :: u :: s =>
    if backslash = 92 ∧ u = 117 then
      match readHex s with
      | some (low, s) =>
        if 0xdc00 ≤ low ∧ low ≤ 0xdfff then
          some (utf8Encode (0x10000 + (high - 0xd800) * 0x400 + (low - 0xdc00)), s)
        else none
      | none => none
    else none
  | _ => none

/-- The character of an escape with four digits, which may be a pair of surrogates. -/
def readUnicode (s : List UInt8) : Option (List UInt8 × List UInt8) :=
  match readHex s with
  | none => none
  | some (c, s) =>
    if 0xd800 ≤ c ∧ c ≤ 0xdbff then readLowSurrogate c s
    else if 0xdc00 ≤ c ∧ c ≤ 0xdfff then none
    else some (utf8Encode c, s)

/-- The escapes with one letter, and their characters. -/
def escapes : List (UInt8 × UInt8) :=
  [(34, 34), (92, 92), (47, 47), (98, 8), (102, 12), (110, 10), (114, 13), (116, 9)]

/-- The character of an escape with one letter. -/
def escaped (b : UInt8) : Option UInt8 := (escapes.find? (·.1 = b)).map Prod.snd

/-- What follows a backslash: the bytes of the character, and the rest. -/
def readEscape : List UInt8 → Option (List UInt8 × List UInt8)
  | [] => none
  | b :: s => if b = 117 then readUnicode s else (escaped b).map fun c => ([c], s)

/-- A string behind its first quote: its bytes, and the text behind its last quote. -/
def readChars : Nat → List UInt8 → Option (List UInt8 × List UInt8)
  | 0, _ => none
  | _, [] => none
  | fuel + 1, b :: s =>
    if b = 34 then some ([], s)
    else if b = 92 then
      match readEscape s with
      | none => none
      | some (c, s) => (readChars fuel s).map fun r => (c ++ r.1, r.2)
    else if b.toNat < 32 then none
    else (readChars fuel s).map fun r => (b :: r.1, r.2)

/-! ## Numbers -/

/-- The digits behind a decimal point, if there is one. -/
def readFraction : List UInt8 → Option (List UInt8 × List UInt8)
  | [] => some ([], [])
  | b :: s =>
    if b = 46 then
      if s.takeWhile isDigit = [] then none else some (s.takeWhile isDigit, s.dropWhile isDigit)
    else some ([], b :: s)

/-- The exponent, if there is one. -/
def readExponent : List UInt8 → Option (Int × List UInt8)
  | [] => some (0, [])
  | b :: s =>
    if b = 101 ∨ b = 69 then
      let (negative, s) := takeSign s
      if s.takeWhile isDigit = [] then none
      else some (signed negative (digitsValue (s.takeWhile isDigit)), s.dropWhile isDigit)
    else some (0, b :: s)

/-- The minus sign of a number, if there is one. -/
def readMinus : List UInt8 → Bool × List UInt8
  | [] => (false, [])
  | b :: s => if b = 45 then (true, s) else (false, b :: s)

/-- A number without a zero in front. -/
def readNumber (s : List UInt8) : Option (JsonValue × List UInt8) :=
  let (negative, s) := readMinus s
  let digits := s.takeWhile isDigit
  if digits = [] ∨ (digits.head? = some 48 ∧ digits ≠ [48]) then none
  else
    match readFraction (s.dropWhile isDigit) with
    | none => none
    | some (fraction, s) =>
      match readExponent s with
      | none => none
      | some (exponent, s) =>
        some (.number (signed negative (digitsValue (digits ++ fraction)))
          (exponent - fraction.length), s)

/-! ## Values -/

/-- White space. -/
def isJsonSpace (b : UInt8) : Bool := b.toNat = 32 || b.toNat = 9 || b.toNat = 10 || b.toNat = 13

/-- The text behind white space. -/
def skipSpace (s : List UInt8) : List UInt8 := s.dropWhile isJsonSpace

/-- The text behind a byte that has to come next. -/
def expect (b : UInt8) : List UInt8 → Option (List UInt8)
  | [] => none
  | c :: s => if c = b then some s else none

/-- The text behind a word. -/
def expectWord (word s : List UInt8) : Option (List UInt8) :=
  if s.take word.length = word then some (s.drop word.length) else none

mutual

/-- A value. -/
def readValue : Nat → List UInt8 → Option (JsonValue × List UInt8)
  | 0, _ => none
  | _, [] => none
  | fuel + 1, b :: s =>
    if b = 123 then
      match expect 125 (skipSpace s) with
      | some s => some (.object [], s)
      | none => (readMembers fuel (skipSpace s)).map fun r => (.object r.1, r.2)
    else if b = 91 then
      match expect 93 (skipSpace s) with
      | some s => some (.array [], s)
      | none => (readElements fuel (skipSpace s)).map fun r => (.array r.1, r.2)
    else if b = 34 then (readChars (s.length + 1) s).map fun r => (.string r.1, r.2)
    else if b = 116 then (expectWord [114, 117, 101] s).map fun s => (.bool true, s)
    else if b = 102 then (expectWord [97, 108, 115, 101] s).map fun s => (.bool false, s)
    else if b = 110 then (expectWord [117, 108, 108] s).map fun s => (.null, s)
    else readNumber (b :: s)

/-- The members of an object, up to its end. -/
def readMembers : Nat → List UInt8 → Option (List (List UInt8 × JsonValue) × List UInt8)
  | 0, _ => none
  | fuel + 1, s =>
    match expect 34 s with
    | none => none
    | some s =>
      match readChars (s.length + 1) s with
      | none => none
      | some (key, s) =>
        match expect 58 (skipSpace s) with
        | none => none
        | some s =>
          match readValue fuel (skipSpace s) with
          | none => none
          | some (value, s) =>
            match expect 44 (skipSpace s) with
            | some s =>
              (readMembers fuel (skipSpace s)).map fun r => ((key, value) :: r.1, r.2)
            | none => (expect 125 (skipSpace s)).map fun s => ([(key, value)], s)

/-- The elements of an array, up to its end. -/
def readElements : Nat → List UInt8 → Option (List JsonValue × List UInt8)
  | 0, _ => none
  | fuel + 1, s =>
    match readValue fuel s with
    | none => none
    | some (value, s) =>
      match expect 44 (skipSpace s) with
      | some s => (readElements fuel (skipSpace s)).map fun r => (value :: r.1, r.2)
      | none => (expect 93 (skipSpace s)).map fun s => ([value], s)

end

/-- The value of a text. -/
def readJson (s : List UInt8) : Option JsonValue :=
  if validUtf8 s = true then
    match readValue (s.length + 1) (skipSpace s) with
    | some (value, s) => if skipSpace s = [] then some value else none
    | none => none
  else none

/-! ## Strings that stand for themselves -/

/-- A byte that stands for itself in a string. -/
def isPlain (b : UInt8) : Bool := b ≠ 34 && b ≠ 92 && 32 ≤ b.toNat

theorem isPlain_iff {b : UInt8} : isPlain b = true ↔ b ≠ 34 ∧ b ≠ 92 ∧ 32 ≤ b.toNat := by
  simp [isPlain, and_assoc]

theorem readChars_plain {key rest : List UInt8} {fuel : Nat} (hkey : ∀ b ∈ key, isPlain b = true)
    (hfuel : key.length < fuel) : readChars fuel (key ++ 34 :: rest) = some (key, rest) := by
  induction key generalizing fuel with
  | nil =>
    obtain ⟨n, rfl⟩ : ∃ n, fuel = n + 1 := ⟨fuel - 1, by rw [List.length_nil] at hfuel; omega⟩
    rfl
  | cons b key ih =>
    rw [List.forall_mem_cons, isPlain_iff] at hkey
    obtain ⟨⟨h34, h92, h32⟩, hkey⟩ := hkey
    rw [List.length_cons] at hfuel
    obtain ⟨n, rfl⟩ : ∃ n, fuel = n + 1 := ⟨fuel - 1, by omega⟩
    rw [List.cons_append, readChars, if_neg h34, if_neg h92, if_neg (by omega), ih hkey (by omega)]
    rfl

/-! ## What a string takes from the text -/

/-- The text has `raw` in front of `rest`, which is at least as long as what it stands for
and has no control character. -/
structure Takes (s raw decoded rest : List UInt8) : Prop where
  eq : s = raw ++ rest
  length : decoded.length ≤ raw.length
  control : ∀ b ∈ raw, 32 ≤ b.toNat

namespace Takes

theorem cons {s raw decoded rest : List UInt8} {b : UInt8} (h : Takes s raw decoded rest)
    (hb : 32 ≤ b.toNat) : Takes (b :: s) (b :: raw) decoded rest where
  eq := by rw [h.eq]; rfl
  length := Nat.le_succ_of_le h.length
  control := List.forall_mem_cons.mpr ⟨hb, h.control⟩

theorem append {s raw decoded s' raw' decoded' rest : List UInt8} (h : Takes s raw decoded s')
    (h' : Takes s' raw' decoded' rest) : Takes s (raw ++ raw') (decoded ++ decoded') rest where
  eq := by rw [h.eq, h'.eq, List.append_assoc]
  length := by
    rw [List.length_append, List.length_append]
    exact Nat.add_le_add h.length h'.length
  control := List.forall_mem_append.mpr ⟨h.control, h'.control⟩

end Takes

theorem hexValue_ge {b : UInt8} {n : Nat} (h : hexValue b = some n) : 32 ≤ b.toNat := by
  unfold hexValue at h
  split at h
  · omega
  · split at h
    · omega
    · split at h
      · omega
      · cases h

theorem length_utf8Encode (c : Nat) : (utf8Encode c).length ≤ 4 := by
  unfold utf8Encode
  split
  · simp
  · split
    · simp
    · split <;> simp

theorem readHex_takes {s decoded rest : List UInt8} {n : Nat} (h : readHex s = some (n, rest))
    (hdecoded : decoded.length ≤ 4) : ∃ raw, Takes s raw decoded rest := by
  unfold readHex at h
  split at h
  case h_2 => cases h
  case h_1 a b c d tail =>
      split at h
      case h_2 => cases h
      case h_1 ha hb hc hd =>
          cases h
          refine ⟨[a, b, c, d], rfl, hdecoded, ?_⟩
          simp only [List.forall_mem_cons]
          exact ⟨hexValue_ge ha, hexValue_ge hb, hexValue_ge hc, hexValue_ge hd, by simp⟩

theorem readLowSurrogate_takes {s decoded rest : List UInt8} {high : Nat}
    (h : readLowSurrogate high s = some (decoded, rest)) : ∃ raw, Takes s raw decoded rest := by
  unfold readLowSurrogate at h
  split at h
  case h_2 => cases h
  case h_1 backslash u tail =>
      split at h
      case isFalse => cases h
      case isTrue hmark =>
          cases hhex : readHex tail with
          | none =>
            rw [hhex] at h
            cases h
          | some r =>
            simp only [hhex] at h
            split at h
            case isFalse => cases h
            case isTrue =>
                rw [Option.some.injEq, Prod.mk.injEq] at h
                obtain ⟨rfl, rfl⟩ := h
                obtain ⟨raw, hraw⟩ := readHex_takes hhex (length_utf8Encode _)
                rw [hmark.1, hmark.2]
                exact ⟨_, (hraw.cons (by decide)).cons (by decide)⟩

theorem readUnicode_takes {s decoded rest : List UInt8}
    (h : readUnicode s = some (decoded, rest)) : ∃ raw, Takes s raw decoded rest := by
  unfold readUnicode at h
  cases hhex : readHex s with
  | none =>
    rw [hhex] at h
    cases h
  | some r =>
    obtain ⟨c, tail⟩ := r
    simp only [hhex] at h
    split at h
    case isTrue =>
        obtain ⟨raw, hraw⟩ : ∃ raw, Takes s raw [] tail := readHex_takes hhex (Nat.zero_le 4)
        obtain ⟨raw', hraw'⟩ := readLowSurrogate_takes h
        exact ⟨_, hraw.append hraw'⟩
    case isFalse =>
        split at h
        case isTrue => cases h
        case isFalse =>
            cases h
            exact readHex_takes hhex (length_utf8Encode c)

theorem escaped_ge {b c : UInt8} (h : escaped b = some c) : 32 ≤ b.toNat := by
  have hall : ∀ e ∈ escapes, 32 ≤ e.1.toNat := by simp [escapes]
  obtain ⟨e, he, -⟩ := Option.map_eq_some_iff.mp h
  have hb : e.1 = b := by simpa using List.find?_some he
  exact hb ▸ hall e (List.mem_of_find?_eq_some he)

theorem readEscape_takes {s decoded rest : List UInt8} (h : readEscape s = some (decoded, rest)) :
    ∃ raw, Takes s raw decoded rest := by
  cases s with
  | nil => cases h
  | cons b s =>
    rw [readEscape] at h
    split at h
    case isTrue hb =>
        obtain ⟨raw, htakes⟩ := readUnicode_takes h
        exact ⟨_, htakes.cons (by rw [hb]; decide)⟩
    case isFalse =>
        obtain ⟨c, hc, hpair⟩ := Option.map_eq_some_iff.mp h
        cases hpair
        exact ⟨[b], rfl, by simp, by simpa using escaped_ge hc⟩

/-- A string takes at least as many bytes as it has, and as many only if they stand for
themselves. -/
theorem readChars_takes {fuel : Nat} {s decoded rest : List UInt8}
    (h : readChars fuel s = some (decoded, rest)) :
    ∃ raw, Takes s raw decoded (34 :: rest) ∧
      (decoded.length = raw.length → raw = decoded ∧ ∀ b ∈ raw, isPlain b = true) := by
  induction fuel generalizing s decoded with
  | zero => cases h
  | succ fuel ih =>
    cases s with
    | nil => cases h
    | cons b s =>
      rw [readChars] at h
      split at h
      case isTrue hb =>
          cases h
          exact ⟨[], ⟨by rw [hb]; rfl, le_rfl, by simp⟩, fun _ => ⟨rfl, by simp⟩⟩
      case isFalse h34 =>
          split at h
          case isTrue h92 =>
              cases hescape : readEscape s with
              | none =>
                rw [hescape] at h
                cases h
              | some r =>
                obtain ⟨c, tail⟩ := r
                simp only [hescape] at h
                obtain ⟨r, hr, hpair⟩ := Option.map_eq_some_iff.mp h
                cases hpair
                obtain ⟨raw, hraw⟩ := readEscape_takes hescape
                obtain ⟨raw', hraw', -⟩ := ih hr
                have htakes := hraw.append hraw'
                have hlength := htakes.length
                refine ⟨_, htakes.cons (by rw [h92]; decide), fun heq => ?_⟩
                -- The backslash itself is one byte more.
                rw [List.length_cons] at heq
                omega
          case isFalse h92 =>
              split at h
              case isTrue => cases h
              case isFalse h32 =>
                  obtain ⟨r, hr, hpair⟩ := Option.map_eq_some_iff.mp h
                  cases hpair
                  obtain ⟨raw, hraw, hplain⟩ := ih hr
                  refine ⟨b :: raw, ⟨by rw [hraw.eq]; rfl, ?_, ?_⟩, ?_⟩
                  · exact Nat.succ_le_succ hraw.length
                  · exact List.forall_mem_cons.mpr ⟨by omega, hraw.control⟩
                  · intro heq
                    obtain ⟨hsame, hall⟩ := hplain (by simpa using heq)
                    refine ⟨by rw [hsame], List.forall_mem_cons.mpr ⟨?_, hall⟩⟩
                    exact isPlain_iff.mpr ⟨h34, h92, by omega⟩

/-- **Strings that are read as they were written** stand for themselves, if after the last
quote there is no quote before the next control character. -/
theorem readChars_eq_self {fuel : Nat} {key mid tail rest : List UInt8} {c : UInt8}
    (hmid : (34 : UInt8) ∉ mid) (hc : c.toNat < 32)
    (h : readChars fuel (key ++ 34 :: (mid ++ c :: tail)) = some (key, rest)) :
    (∀ b ∈ key, isPlain b = true) ∧ rest = mid ++ c :: tail := by
  obtain ⟨raw, hraw, hplain⟩ := readChars_takes h
  obtain hlt | heq := Nat.lt_or_eq_of_le hraw.length
  · -- The quote behind the key was taken for a part of it, and all up to the next quote.
    exfalso
    have h34 : (34 : UInt8) ≠ c := by
      rintro rfl
      exact absurd hc (by decide)
    obtain ⟨a, ha, hbehind⟩ | ⟨a, ha, -⟩ := List.append_eq_append_iff.mp hraw.eq
    · cases a with
      | nil =>
        rw [ha, List.append_nil] at hlt
        exact absurd hlt (Nat.lt_irrefl _)
      | cons q a =>
        have hcut : mid ++ c :: tail = a ++ 34 :: rest := (List.cons.inj hbehind).2
        obtain ⟨b, hb, hnext⟩ | ⟨b, hb, hnext⟩ := List.append_eq_append_iff.mp hcut
        · cases b with
          | nil => exact h34 (List.cons.inj hnext).1.symm
          | cons x b =>
            -- The control character is part of what was taken.
            have hmem : c ∈ raw := by
              rw [ha, hb, (List.cons.inj hnext).1]
              simp
            have := hraw.control c hmem
            omega
        · cases b with
          | nil => exact h34 (List.cons.inj hnext).1
          | cons x b =>
            apply hmid
            rw [hb, (List.cons.inj hnext).1]
            simp
    · rw [ha, List.length_append] at hlt
      omega
  · obtain ⟨rfl, hall⟩ := hplain heq
    have hrest := List.append_cancel_left hraw.eq
    exact ⟨hall, (List.cons.inj hrest).2.symm⟩

/-! ## Integers -/

/-- A byte that can follow an integer without being a part of a number. -/
def endsInteger (b : UInt8) : Bool := !isDigit b && b ≠ 46 && b ≠ 101 && b ≠ 69

theorem endsInteger_iff {b : UInt8} :
    endsInteger b = true ↔ isDigit b = false ∧ b ≠ 46 ∧ b ≠ 101 ∧ b ≠ 69 := by
  simp [endsInteger, and_assoc]

theorem natText_eq_cons (n : Nat) : ∃ d ds, natText n = d :: ds ∧ isDigit d = true := by
  obtain ⟨d, ds, hcons⟩ := List.exists_cons_of_ne_nil (natText_ne_nil n)
  exact ⟨d, ds, hcons, isDigit_natText n d (hcons ▸ List.mem_cons_self)⟩

theorem readMinus_intText (v : Int) (t : List UInt8) :
    ∃ negative, readMinus (intText v ++ t) = (negative, natText v.natAbs ++ t) ∧
      signed negative v.natAbs = v := by
  unfold intText
  split
  case isTrue hneg =>
      refine ⟨true, rfl, ?_⟩
      show -(v.natAbs : Int) = v
      omega
  case isFalse hpos =>
      obtain ⟨d, ds, hcons, hd⟩ := natText_eq_cons v.natAbs
      refine ⟨false, ?_, ?_⟩
      · rw [hcons, List.cons_append, readMinus, if_neg (digit_facts hd).2.1]
      · show (v.natAbs : Int) = v
        omega

/-- An integer in front of something else. -/
theorem readNumber_intText (v : Int) {t : List UInt8} (ht : ∀ b ∈ t.head?, endsInteger b = true) :
    readNumber (intText v ++ t) = some (.number v 0, t) := by
  obtain ⟨negative, hminus, hvalue⟩ := readMinus_intText v t
  have hdigits := isDigit_natText v.natAbs
  have hend : t.takeWhile isDigit = [] ∧ t.dropWhile isDigit = t ∧ readFraction t = some ([], t) ∧
      readExponent t = some (0, t) := by
    cases t with
    | nil => exact ⟨rfl, rfl, rfl, rfl⟩
    | cons b t =>
      obtain ⟨hb, h46, h101, h69⟩ := endsInteger_iff.mp (ht b rfl)
      simp [hb, readFraction, readExponent, h46, h101, h69]
  have hzero : ¬ (natText v.natAbs = [] ∨
      ((natText v.natAbs).head? = some 48 ∧ natText v.natAbs ≠ [48])) := by
    rintro (hnil | ⟨h48, hne⟩)
    · exact natText_ne_nil _ hnil
    · exact (natText_head v.natAbs).elim hne fun hhead => hhead h48
  unfold readNumber
  rw [hminus]
  simp only [List.takeWhile_append_of_pos hdigits, List.dropWhile_append_of_pos hdigits, hend.1,
    hend.2.1, List.append_nil]
  rw [if_neg hzero, hend.2.2.1]
  simp only [hend.2.2.2, List.append_nil, digitsValue_natText, hvalue, List.length_nil,
    Nat.cast_zero, sub_zero]

/-- A value that starts with a digit or a sign is a number. -/
theorem readValue_intText (fuel : Nat) (v : Int) {t : List UInt8}
    (ht : ∀ b ∈ t.head?, endsInteger b = true) :
    readValue (fuel + 1) (intText v ++ t) = some (.number v 0, t) := by
  have hhead : ∃ b s, intText v ++ t = b :: s ∧ b ≠ 123 ∧ b ≠ 91 ∧ b ≠ 34 ∧ b ≠ 116 ∧ b ≠ 102 ∧
      b ≠ 110 := by
    unfold intText
    split
    · exact ⟨45, _, rfl, by decide⟩
    · obtain ⟨d, ds, hcons, hd⟩ := natText_eq_cons v.natAbs
      refine ⟨d, ds ++ t, by rw [hcons]; rfl, ?_⟩
      refine ⟨?_, ?_, ?_, ?_, ?_, ?_⟩ <;> (rintro rfl; exact absurd hd (by decide))
  obtain ⟨b, s, hcons, h123, h91, h34, h116, h102, h110⟩ := hhead
  rw [← readNumber_intText v ht, hcons, readValue, if_neg h123, if_neg h91, if_neg h34,
    if_neg h116, if_neg h102, if_neg h110]

/-! ## Members -/

@[simp] theorem expect_cons_self (b : UInt8) (s : List UInt8) : expect b (b :: s) = some s :=
  if_pos rfl

theorem skipSpace_cons_of_space {b : UInt8} (h : isJsonSpace b = true) (s : List UInt8) :
    skipSpace (b :: s) = skipSpace s := List.dropWhile_cons_of_pos h

theorem skipSpace_cons_of_not {b : UInt8} (h : isJsonSpace b = false) (s : List UInt8) :
    skipSpace (b :: s) = b :: s := List.dropWhile_cons_of_neg (by simp [h])

theorem digit_not_space {b : UInt8} (h : isDigit b = true) : isJsonSpace b = false := by
  rw [isDigit, Bool.and_eq_true, decide_eq_true_eq, decide_eq_true_eq] at h
  simp only [isJsonSpace, Bool.or_eq_false_iff, decide_eq_false_iff_not]
  omega

theorem skipSpace_intText (v : Int) (t : List UInt8) :
    skipSpace (intText v ++ t) = intText v ++ t := by
  unfold intText
  split
  · exact skipSpace_cons_of_not rfl _
  · obtain ⟨d, ds, hcons, hd⟩ := natText_eq_cons v.natAbs
    rw [hcons]
    exact skipSpace_cons_of_not (digit_not_space hd) _

/-- A member with a name that stands for itself and an integer. -/
theorem readMembers_member (fuel : Nat) {key t : List UInt8} (v : Int)
    (hkey : ∀ b ∈ key, isPlain b = true) (ht : ∀ b ∈ t.head?, endsInteger b = true) :
    readMembers (fuel + 2) (34 :: (key ++ 34 :: 58 :: 32 :: (intText v ++ t))) =
      match expect 44 (skipSpace t) with
      | some s =>
        (readMembers (fuel + 1) (skipSpace s)).map fun r => ((key, .number v 0) :: r.1, r.2)
      | none => (expect 125 (skipSpace t)).map fun s => ([(key, .number v 0)], s) := by
  have hchars : readChars ((key ++ 34 :: 58 :: 32 :: (intText v ++ t)).length + 1)
      (key ++ 34 :: 58 :: 32 :: (intText v ++ t)) = some (key, 58 :: 32 :: (intText v ++ t)) := by
    apply readChars_plain hkey
    rw [List.length_append]
    omega
  have hcolon : skipSpace (58 :: 32 :: (intText v ++ t)) = 58 :: 32 :: (intText v ++ t) :=
    skipSpace_cons_of_not rfl _
  have hspace : skipSpace (32 :: (intText v ++ t)) = intText v ++ t := by
    rw [skipSpace_cons_of_space rfl, skipSpace_intText]
  rw [readMembers, expect_cons_self]
  simp only [hchars, hcolon, expect_cons_self, hspace, readValue_intText fuel v ht]

/-- The name of the first member stands for itself if it is read as it was written. -/
theorem plain_of_readMembers {fuel : Nat} {key mid tail rest : List UInt8} {c : UInt8}
    {value : JsonValue} {members : List (List UInt8 × JsonValue)} (hmid : (34 : UInt8) ∉ mid)
    (hc : c.toNat < 32)
    (h : readMembers fuel (34 :: (key ++ 34 :: (mid ++ c :: tail))) =
      some ((key, value) :: members, rest)) : ∀ b ∈ key, isPlain b = true := by
  cases fuel with
  | zero => cases h
  | succ fuel =>
    rw [readMembers, expect_cons_self] at h
    cases hchars : readChars ((key ++ 34 :: (mid ++ c :: tail)).length + 1)
        (key ++ 34 :: (mid ++ c :: tail)) with
    | none =>
      simp only [hchars] at h
      cases h
    | some r =>
      -- Whatever follows, the first name is the one that was read.
      have hname : r.1 = key := by
        simp only [hchars] at h
        split at h
        · cases h
        · split at h
          · cases h
          · split at h
            · obtain ⟨m, -, hm⟩ := Option.map_eq_some_iff.mp h
              exact congrArg Prod.fst (List.cons.inj (Prod.mk.inj hm).1).1
            · obtain ⟨m, -, hm⟩ := Option.map_eq_some_iff.mp h
              exact congrArg Prod.fst (List.cons.inj (Prod.mk.inj hm).1).1
      rw [← Prod.mk.eta (p := r), hname] at hchars
      exact (readChars_eq_self hmid hc hchars).1

end FarouKernel.Verified
