import FarouKernel.Ports.ClientInput
import FarouKernel.Verified.CString

/-!
# `net/network.c`: `sanitize_input` in its buffer

The function edits the string in place, in six passes that share the variable
`len`.  Each pass is a step on the buffer, `len` and the positions written so far.
`sanitizedString` says what the passes are for, one operation on the string for
each; `Edits` is what every pass keeps, and `sanitizeInput`, which the receive loop
uses, is the same function.

`buffer` is not `NULL`, as in the call of `handle_client`, and the log message is left
out.
-/

namespace FarouKernel.Ports.Net

open Verified

/-- The buffer, the variable `len` and the positions written so far. -/
structure EditState where
  bytes : ByteMem
  len : Nat
  writes : List Nat

namespace EditState

/-- `buffer[i] = b`. -/
def store (e : EditState) (i : Nat) (b : UInt8) : EditState :=
  { e with bytes := Function.update e.bytes i b, writes := i :: e.writes }

/-- `buffer[len = i] = '\0'`. -/
def endAt (e : EditState) (i : Nat) : EditState := { e.store i 0 with len := i }

/-- `if (len > 0 && buffer[len - 1] == b) buffer[--len] = '\0'`. -/
def stripLast (b : UInt8) (e : EditState) : EditState :=
  if 0 < e.len ∧ e.bytes (e.len - 1) = b then e.endAt (e.len - 1) else e

/-- Excessively long commands are cut. -/
def truncate (e : EditState) : EditState :=
  if maxCommandLineLength ≤ e.len then e.endAt (maxCommandLineLength - 1) else e

/-- A round of the loop that replaces the characters that cannot be printed. -/
def replaceRound (e : EditState) (i : Nat) : EditState :=
  if !isprint (e.bytes i) && !isspace (e.bytes i) then e.store i 63 else e

/-- The loop that replaces the characters that cannot be printed. -/
def replace (e : EditState) : EditState := (List.range e.len).foldl replaceRound e

/-- The loop that counts the leading spaces, with `n` characters left from `start` on. -/
def startLoop (bytes : ByteMem) : Nat → Nat → Nat
  | 0, start => start
  | n + 1, start => if isspace (bytes start) then startLoop bytes n (start + 1) else start

/-- `memmove(buffer, buffer + start, n)`. -/
def memmove (e : EditState) (start n : Nat) : EditState :=
  { e with
    bytes := fun i => if i < n then e.bytes (i + start) else e.bytes i
    writes := List.range n ++ e.writes }

/-- Leading whitespace is removed. -/
def trimLeft (e : EditState) : EditState :=
  let start := startLoop e.bytes e.len 0
  if 0 < start then { e.memmove start (e.len - start + 1) with len := e.len - start } else e

/-- The loop that removes trailing whitespace, with `len = n`. -/
def trimLoop : Nat → EditState → EditState
  | 0, e => e
  | n + 1, e => if isspace (e.bytes n) then trimLoop n (e.endAt n) else e

/-- Trailing whitespace is removed. -/
def trimRight (e : EditState) : EditState := trimLoop e.len e

end EditState

/-- `sanitize_input`, with the positions it writes. -/
def sanitizeInPlace (b : CBuffer) : EditState :=
  let e : EditState := ⟨b.bytes, b.strlen, []⟩
  let e := e.stripLast 10
  let e := e.stripLast 13
  let e := e.truncate
  let e := e.replace
  let e := e.trimLeft
  e.trimRight

/-- The placeholder for a character that is neither printable nor whitespace. -/
def printable (b : UInt8) : UInt8 := if !isprint b && !isspace b then 63 else b

/-- The string that `sanitize_input` is to leave. -/
def sanitizedString (s : List UInt8) : List UInt8 :=
  ((((stripLast 13 (stripLast 10 s)).take 1023).map printable).dropWhile isspace).rdropWhile isspace

/-- The buffer holds `s` with `len` its length, and nothing behind the position `N`
was written. -/
structure Edits (N : Nat) (e : EditState) (s : List UInt8) : Prop where
  length : e.len = s.length
  string : IsString e.bytes s
  inside : s.length ≤ N
  writes : ∀ i ∈ e.writes, i ≤ N

section Passes

variable {N i n : Nat} {e : EditState} {s : List UInt8}

theorem Edits.endAt (h : Edits N e s) (hn : n ≤ s.length) : Edits N (e.endAt n) (s.take n) := by
  have hinside := h.inside
  refine ⟨(List.length_take_of_le hn).symm, h.string.cut hn, ?_, ?_⟩
  · rw [List.length_take_of_le hn]
    omega
  · exact List.forall_mem_cons.mpr ⟨by omega, h.writes⟩

theorem Edits.store (h : Edits N e s) {b : UInt8} (hb : b ≠ 0) (hn : n < s.length) :
    Edits N (e.store n b) (s.set n b) := by
  have hinside := h.inside
  refine ⟨?_, h.string.set hb hn, ?_, ?_⟩
  · rw [List.length_set]
    exact h.length
  · rwa [List.length_set]
  · exact List.forall_mem_cons.mpr ⟨by omega, h.writes⟩

theorem getLast?_eq_char (h : IsString e.bytes s) (hpos : 0 < s.length) :
    s.getLast? = some (e.bytes (s.length - 1)) := by
  rw [List.getLast?_eq_getElem?, List.getElem?_eq_getElem (by omega), h.char (by omega)]

theorem Edits.stripLast (h : Edits N e s) (b : UInt8) :
    Edits N (e.stripLast b) (Net.stripLast b s) := by
  unfold EditState.stripLast Net.stripLast
  rw [h.length]
  by_cases hpos : 0 < s.length
  · simp only [getLast?_eq_char h.string hpos, hpos, true_and, Option.some.injEq]
    split
    · rw [List.dropLast_eq_take]
      exact h.endAt (Nat.sub_le _ _)
    · exact h
  · have hnil : s = [] := List.length_eq_zero_iff.mp (by omega)
    subst hnil
    simpa using h

theorem Edits.truncate (h : Edits N e s) : Edits N e.truncate (s.take 1023) := by
  unfold EditState.truncate maxCommandLineLength
  rw [h.length]
  split
  · exact h.endAt (by omega)
  · rw [List.take_of_length_le (by omega)]
    exact h

/-- A round of the loop replaces one character. -/
theorem Edits.replaceRound (h : Edits N e s) (hi : i < s.length) :
    Edits N (e.replaceRound i) (s.set i (printable s[i])) := by
  unfold EditState.replaceRound printable
  rw [h.string.char hi]
  split
  · exact h.store (by decide) hi
  · rw [List.set_getElem_self]
    exact h

/-- After `n` rounds the first `n` characters are replaced. -/
theorem Edits.replaceRounds (h : Edits N e s) (hn : n ≤ s.length) :
    Edits N ((List.range n).foldl EditState.replaceRound e)
      ((s.take n).map printable ++ s.drop n) := by
  induction n with
  | zero => simpa using h
  | succ n ih =>
    have hlt : n < s.length := by omega
    have hlen : ((s.take n).map printable).length = n := by
      rw [List.length_map, List.length_take_of_le (by omega)]
    have hbefore := ih (by omega)
    rw [List.drop_eq_getElem_cons hlt] at hbefore
    have hround := hbefore.replaceRound (i := n) (by simp; omega)
    rw [List.getElem_of_append rfl hlen, List.set_append_right _ _ (by omega), hlen,
      Nat.sub_self, List.set_cons_zero] at hround
    rw [List.range_succ, List.foldl_append, List.take_succ_eq_append_getElem hlt,
      List.map_append, List.append_assoc]
    exact hround

theorem Edits.replace (h : Edits N e s) : Edits N e.replace (s.map printable) := by
  have hrounds := h.replaceRounds (Nat.le_refl s.length)
  rw [List.take_length, List.drop_length, List.append_nil, ← h.length] at hrounds
  exact hrounds

/-- The loop stops at the first character that is no whitespace. -/
theorem startLoop_eq {bytes : ByteMem} (hstring : IsString bytes s) (hn : i + n = s.length) :
    EditState.startLoop bytes n i = i + (s.drop i).findIdx (!isspace ·) := by
  induction n generalizing i with
  | zero =>
    rw [List.drop_of_length_le (by omega)]
    rfl
  | succ n ih =>
    have hi : i < s.length := by omega
    rw [EditState.startLoop, List.drop_eq_getElem_cons hi, hstring.char hi]
    cases hspace : isspace s[i] with
    | true =>
      rw [if_pos rfl, ih (by omega), List.findIdx_cons, hspace]
      simp only [Bool.not_true, cond_false]
      omega
    | false =>
      rw [List.findIdx_cons, hspace]
      rfl

theorem Edits.memmove (h : Edits N e s) (hn : n ≤ s.length) :
    Edits N { e.memmove n (e.len - n + 1) with len := e.len - n } (s.drop n) := by
  have hinside := h.inside
  refine ⟨?_, ?_, ?_, ?_⟩
  · rw [List.length_drop, h.length]
  · apply h.string.shift hn
    intro i hi
    rw [← h.length] at hi
    exact if_pos hi
  · rw [List.length_drop]
    omega
  · intro i hi
    rw [EditState.memmove, List.mem_append, List.mem_range, h.length] at hi
    rcases hi with hnew | hold
    · omega
    · exact h.writes i hold

theorem Edits.trimLeft (h : Edits N e s) : Edits N e.trimLeft (s.dropWhile isspace) := by
  have hstart := startLoop_eq (i := 0) h.string (Nat.zero_add s.length)
  rw [Nat.zero_add, List.drop_zero] at hstart
  have hle : s.findIdx (!isspace ·) ≤ s.length := List.findIdx_le_length
  unfold EditState.trimLeft
  rw [List.dropWhile_eq_drop_findIdx_not]
  simp only [h.length, hstart]
  split
  · have hmove := h.memmove hle
    rwa [h.length] at hmove
  · have hzero : s.findIdx (!isspace ·) = 0 := by omega
    rw [hzero]
    exact h

theorem Edits.trimRight (h : Edits N e s) : Edits N e.trimRight (s.rdropWhile isspace) := by
  unfold EditState.trimRight
  rw [h.length]
  -- The induction takes the characters from the end.
  induction s using List.reverseRecOn generalizing e with
  | nil => exact h
  | append_singleton s b ih =>
    have hlast : e.bytes s.length = b := by
      rw [h.string.char (by simp)]
      simp
    rw [List.length_append, List.length_singleton, EditState.trimLoop, hlast]
    cases hspace : isspace b with
    | true =>
      have hend := h.endAt (n := s.length) (by simp)
      rw [List.take_left'] at hend
      · rw [if_pos rfl, List.rdropWhile_concat_pos _ _ _ hspace]
        exact ih hend
      · rfl
    | false =>
      rw [List.rdropWhile_concat_neg _ _ _ (by simp [hspace])]
      exact h

end Passes

theorem edits_start (b : CBuffer) : Edits b.strlen ⟨b.bytes, b.strlen, []⟩ b.string where
  length := b.length_string.symm
  string := b.isString
  inside := Nat.le_of_eq b.length_string
  writes := fun _ hi => absurd hi List.not_mem_nil

/-- What the passes leave, and where they write. -/
theorem edits_sanitizeInPlace (b : CBuffer) :
    Edits b.strlen (sanitizeInPlace b) (sanitizedString b.string) := by
  unfold sanitizeInPlace sanitizedString
  apply Edits.trimRight
  apply Edits.trimLeft
  apply Edits.replace
  apply Edits.truncate
  exact ((edits_start b).stripLast 10).stripLast 13

/-- The buffer that `sanitize_input` leaves. -/
def sanitized (b : CBuffer) : CBuffer where
  bytes := (sanitizeInPlace b).bytes
  terminated := ⟨_, (edits_sanitizeInPlace b).string.terminator⟩

theorem bytes_sanitized (b : CBuffer) : (sanitized b).bytes = (sanitizeInPlace b).bytes := by
  rw [sanitized]

theorem string_sanitized (b : CBuffer) : (sanitized b).string = sanitizedString b.string := by
  apply CBuffer.string_eq
  rw [bytes_sanitized]
  exact (edits_sanitizeInPlace b).string

/-- The receive loop has the same string. -/
theorem sanitizeInput_eq (buffer : List UInt8) :
    sanitizeInput buffer = sanitizedString (buffer.takeWhile (· ≠ 0)) := by
  unfold sanitizeInput sanitizedString maxCommandLineLength
  dsimp only
  split
  · rfl
  · rename_i hshort
    rw [List.take_of_length_le (by omega)]
    rfl

/-- A string that `sanitize_input` has nothing to do for. -/
structure Clean (s : List UInt8) : Prop where
  length : s.length ≤ 1023
  chars : ∀ b ∈ s, isprint b = true ∨ isspace b = true
  first : ∀ b, s.head? = some b → isspace b = false
  last : ∀ b, s.getLast? = some b → isspace b = false

theorem printable_spec (b : UInt8) :
    isprint (printable b) = true ∨ isspace (printable b) = true := by
  unfold printable
  split
  · exact Or.inl (by decide)
  · rename_i hchar
    by_cases hprint : isprint b = true
    · exact Or.inl hprint
    · simp only [Bool.not_eq_true] at hprint
      simp only [hprint, Bool.not_false, Bool.true_and, Bool.not_eq_true', Bool.not_eq_false]
        at hchar
      exact Or.inr hchar

theorem clean_sanitizedString (s : List UInt8) : Clean (sanitizedString s) := by
  let t := ((stripLast 13 (stripLast 10 s)).take 1023).map printable
  have hright : (t.dropWhile isspace).rdropWhile isspace <+: t.dropWhile isspace :=
    List.rdropWhile_prefix _ _
  have hleft : t.dropWhile isspace <:+ t := List.dropWhile_suffix _
  refine ⟨?_, ?_, ?_, ?_⟩
  · calc ((t.dropWhile isspace).rdropWhile isspace).length
        ≤ (t.dropWhile isspace).length := hright.length_le
      _ ≤ t.length := hleft.length_le
      _ ≤ 1023 := by
          rw [List.length_map]
          exact List.length_take_le _ _
  · intro b hb
    have hmem : b ∈ t := hleft.subset (hright.subset hb)
    rcases List.mem_map.mp hmem with ⟨c, _, rfl⟩
    exact printable_spec c
  · intro b hb
    have hhead : (t.dropWhile isspace).head? = some b := by
      rcases hright with ⟨r, hr⟩
      rw [← hr, List.head?_append]
      exact congrArg (Option.or · r.head?) hb
    have hfirst := List.head?_dropWhile_not isspace t
    rwa [hhead] at hfirst
  · intro b hb
    have hne : (t.dropWhile isspace).rdropWhile isspace ≠ [] := by
      intro hnil
      rw [show sanitizedString s = _ from hnil] at hb
      exact absurd hb (by simp)
    have hlast := List.rdropWhile_last_not isspace (t.dropWhile isspace) hne
    rw [List.getLast_eq_iff_getLast?_eq_some hne |>.mpr hb] at hlast
    exact Bool.eq_false_iff.mpr hlast

section CleanPasses

variable {N : Nat} {e : EditState} {s : List UInt8} (hs : Clean s) (h : Edits N e s)

include hs h

theorem Clean.stripLast {b : UInt8} (hb : isspace b = true) : e.stripLast b = e := by
  unfold EditState.stripLast
  rw [if_neg]
  rintro ⟨hpos, hlast⟩
  rw [h.length] at hpos hlast
  have hspace := hs.last _ (getLast?_eq_char h.string hpos)
  rw [hlast, hb] at hspace
  exact Bool.noConfusion hspace

theorem Clean.truncate : e.truncate = e := by
  have hlength := hs.length
  unfold EditState.truncate maxCommandLineLength
  rw [if_neg (by rw [h.length]; omega)]

theorem Clean.replace : e.replace = e := by
  unfold EditState.replace
  refine List.foldlRecOn (motive := (· = e)) _ _ rfl ?_
  rintro _ rfl i hi
  rw [List.mem_range, h.length] at hi
  have hchar := hs.chars s[i] (List.getElem_mem hi)
  unfold EditState.replaceRound
  rw [h.string.char hi, if_neg]
  rcases hchar with hprint | hspace
  · simp [hprint]
  · simp [hspace]

theorem Clean.trimLeft : e.trimLeft = e := by
  have hstart : EditState.startLoop e.bytes e.len 0 = 0 := by
    rw [h.length]
    cases s with
    | nil => rfl
    | cons b s =>
      have hfirst : e.bytes 0 = b := h.string.char (i := 0) (by simp)
      rw [List.length_cons, EditState.startLoop, hfirst, hs.first b rfl]
      rfl
  unfold EditState.trimLeft
  simp only [hstart, Nat.lt_irrefl, if_false]

theorem Clean.trimRight : e.trimRight = e := by
  unfold EditState.trimRight
  cases hlen : e.len with
  | zero => rfl
  | succ n =>
    have hpos : 0 < s.length := by rw [← h.length, hlen]; omega
    have hspace := hs.last _ (getLast?_eq_char h.string hpos)
    rw [← h.length, hlen, Nat.add_sub_cancel] at hspace
    rw [EditState.trimLoop, hspace]
    rfl

end CleanPasses

/-- **Nothing is left to do**: on a clean string `sanitize_input` writes nothing. -/
theorem Clean.sanitizeInPlace {b : CBuffer} (hs : Clean b.string) :
    sanitizeInPlace b = ⟨b.bytes, b.strlen, []⟩ := by
  have hstart := edits_start b
  unfold Net.sanitizeInPlace
  dsimp only
  rw [hs.stripLast hstart (by decide), hs.stripLast hstart (by decide), hs.truncate hstart,
    hs.replace hstart, hs.trimLeft hstart, hs.trimRight hstart]

/-- **`sanitize_input`** leaves the string it is to leave, which is clean; sanitising
it again writes nothing; and no write is behind the terminator of the string it was
given. -/
theorem sanitize_input_spec (b : CBuffer) :
    (sanitized b).string = sanitizedString b.string ∧
      (sanitized b).string = sanitizeInput b.string ∧
      (sanitized b).string.length ≤ 1023 ∧
      (∀ c ∈ (sanitized b).string, isprint c = true ∨ isspace c = true) ∧
      (∀ c, (sanitized b).string.head? = some c → isspace c = false) ∧
      (∀ c, (sanitized b).string.getLast? = some c → isspace c = false) ∧
      (sanitized (sanitized b)).bytes = (sanitized b).bytes ∧
      ∀ i ∈ (sanitizeInPlace b).writes, i ≤ b.strlen := by
  have hstring := string_sanitized b
  have hclean : Clean (sanitized b).string := hstring ▸ clean_sanitizedString b.string
  have hlist : sanitizeInput b.string = sanitizedString b.string := by
    have hwhole : b.string.takeWhile (· ≠ 0) = b.string := by
      rw [List.takeWhile_eq_self_iff]
      intro c hc
      exact decide_eq_true fun hzero => b.isString.nonzero (hzero ▸ hc)
    rw [sanitizeInput_eq, hwhole]
  refine ⟨hstring, hstring.trans hlist.symm, hclean.length, hclean.chars, hclean.first,
    hclean.last, ?_, (edits_sanitizeInPlace b).writes⟩
  rw [bytes_sanitized (sanitized b), hclean.sanitizeInPlace]

end FarouKernel.Ports.Net
