import FarouKernel.Ports.DataProcessorLines
import Mathlib.Data.List.Infix

/-!
# Which lines `parse` should read, and which it does

`LineFormat` is the format of a line as the configuration describes it: not a comment,
and a key, the delimiter and an integer alone.  `parse` looks at the first characters of
`commentStyle` and `delimiter` only, and `std::stoi` is content with a number at the
start of a text.  `Clear` says of a line, in terms of its characters, that none of this
matters for it.  If both strings are single characters, then only the text behind the
number does (`NumberEndsLine`).
-/

namespace FarouKernel.Ports.DataProcessor

open Verified
open Ports.Kprintf (text)

variable {config : Config} {line : List UInt8}

/-! ## Numbers -/

/-- An integer within the range of `int`, with nothing but white space around it. -/
def WholeNumber (s : List UInt8) (v : Int) : Prop :=
  InInt v ∧ ∃ ws body ws', s = ws ++ body ++ ws' ∧ (∀ b ∈ ws, isSpace b = true) ∧
    IsInteger body v ∧ ∀ b ∈ ws', isSpace b = true

/-- The text starts, behind white space, with an integer within the range of `int`; what
follows its last digit, `t`, may be anything. -/
def LeadingNumber (s : List UInt8) (v : Int) (t : List UInt8) : Prop :=
  InInt v ∧ ∃ ws body, s = ws ++ body ++ t ∧ (∀ b ∈ ws, isSpace b = true) ∧
    IsInteger body v ∧ ∀ b ∈ t.head?, isDigit b = false

variable {s t : List UInt8} {v : Int}

theorem leadingNumber_iff : LeadingNumber s v t ↔ InInt v ∧ numberPrefix s = some (v, t) := by
  rw [numberPrefix_eq_some_iff, LeadingNumber]

theorem wholeNumber_iff :
    WholeNumber s v ↔ ∃ t, LeadingNumber s v t ∧ ∀ b ∈ t, isSpace b = true := by
  constructor
  · rintro ⟨hv, ws, body, ws', rfl, hws, hbody, hws'⟩
    refine ⟨ws', ⟨hv, ws, body, rfl, hws, hbody, ?_⟩, hws'⟩
    intro b hb
    cases hdigit : isDigit b with
    | false => rfl
    | true =>
      have hspace := hws' b (List.mem_of_mem_head? hb)
      rw [(digit_facts hdigit).1] at hspace
      cases hspace
  · rintro ⟨t, ⟨hv, ws, body, rfl, hws, hbody, -⟩, ht⟩
    exact ⟨hv, ws, body, t, rfl, hws, hbody, ht⟩

/-- `std::stoi` is content with a number at the start. -/
theorem stoi_eq_ok_iff : stoi s = .ok v ↔ ∃ t, LeadingNumber s v t := by
  simp only [leadingNumber_iff]
  unfold stoi
  cases hread : numberPrefix s with
  | none => simp
  | some r =>
    obtain ⟨w, t⟩ := r
    by_cases hw : InInt w
    · simp only [if_pos hw, Except.ok.injEq, Option.some.injEq, Prod.mk.injEq]
      constructor
      · rintro rfl
        exact ⟨t, hw, rfl, rfl⟩
      · rintro ⟨-, -, rfl, -⟩
        rfl
    · simp only [if_neg hw, Option.some.injEq, Prod.mk.injEq, reduceCtorEq, false_iff]
      rintro ⟨-, hv, rfl, -⟩
      exact hw hv

/-! ## Lines -/

/-- A nonempty key without the delimiter, the delimiter, and an integer alone. -/
structure KeyNumber (config : Config) (line key number : List UInt8) (v : Int) : Prop where
  line_eq : line = key ++ (config.delimiter ++ number)
  key_ne_nil : key ≠ []
  key_free : ¬ config.delimiter <:+: key
  whole : WholeNumber number v

/-- The format of a line that gives a pair. -/
structure LineFormat (config : Config) (line key : List UInt8) (v : Int) : Prop where
  comment : ¬ config.commentStyle <+: line
  pair : ∃ number, KeyNumber config line key number v

/-- `parse` takes from the line the pair of its format, and nothing if it does not have
the format. -/
def ReadsFormat (config : Config) (line : List UInt8) : Prop :=
  ∀ key v, lineResult config line = some (key, v) ↔ LineFormat config line key v

/-- The shortcuts of `parse` do not matter for the line: it is not taken for a comment by
its first character alone, the number behind the first delimiter character is all there
is behind the delimiter, and the key and the rest of the delimiter do not hide it. -/
structure Clear (config : Config) (line : List UInt8) : Prop where
  /-- If it starts like a comment, it is one, or does not have the format. -/
  comment : front line = front config.commentStyle → ¬ config.commentStyle <+: line →
    ∀ key number v, ¬ KeyNumber config line key number v
  /-- A number behind the first delimiter character stands alone behind the delimiter. -/
  alone : front line ≠ front config.commentStyle → ∀ key rest v t,
    line = key ++ front config.delimiter :: rest → key ≠ [] → front config.delimiter ∉ key →
      LeadingNumber rest v t →
        ∃ number, rest = config.delimiter.tail ++ number ∧ WholeNumber number v
  /-- If it has the format, its key does not have the delimiter character, and the rest of
  the delimiter does not change the value. -/
  value : front line ≠ front config.commentStyle → ∀ key number v,
    KeyNumber config line key number v →
      front config.delimiter ∉ key ∧ ∃ t, LeadingNumber (config.delimiter.tail ++ number) v t

theorem front_cons_tail (h : s ≠ []) : front s :: s.tail = s := by
  cases s with
  | nil => exact absurd rfl h
  | cons b s => rfl

/-- A line that does not start like a comment is none. -/
theorem not_prefix_of_front_ne (h : s ≠ []) (hfront : front line ≠ front s) : ¬ s <+: line := by
  rintro ⟨t, rfl⟩
  rw [← front_cons_tail h] at hfront
  exact hfront rfl

/-- A key without the first character of the delimiter does not have the delimiter. -/
theorem not_infix_of_front_not_mem {key : List UInt8} (h : s ≠ []) (hkey : front s ∉ key) :
    ¬ s <:+: key := by
  intro hsub
  refine hkey (hsub.subset ?_)
  rw [← front_cons_tail h]
  exact List.mem_cons_self

/-- **One line** is read by its format exactly if it is clear. -/
theorem readsFormat_iff_clear (hdelimiter : config.delimiter ≠ [])
    (hcomment : config.commentStyle ≠ []) (hline : newline ∉ line) :
    ReadsFormat config line ↔ Clear config line := by
  have hcons := front_cons_tail hdelimiter
  -- Both readings of a line agree on where the delimiter character is.
  have hrest : ∀ {key rest number : List UInt8},
      key ++ front config.delimiter :: rest = key ++ (config.delimiter ++ number) →
        rest = config.delimiter.tail ++ number := by
    intro key rest number heq
    have hsame := List.append_cancel_left heq
    nth_rewrite 2 [← hcons] at hsame
    exact (List.cons.inj hsame).2
  constructor
  · intro h
    constructor
    · intro hfront hnot key number v hkey
      have hresult := (h key v).mpr ⟨hnot, number, hkey⟩
      exact ((lineResult_eq_some_iff hline).mp hresult).1 hfront
    · intro hfront key rest v t heq hne hfree hnumber
      have hresult := (lineResult_eq_some_iff hline).mpr
        ⟨hfront, hne, hfree, rest, heq, stoi_eq_ok_iff.mpr ⟨t, hnumber⟩⟩
      obtain ⟨number, hkey⟩ := ((h key v).mp hresult).pair
      exact ⟨number, hrest (heq.symm.trans hkey.line_eq), hkey.whole⟩
    · intro hfront key number v hkey
      have hresult := (h key v).mpr ⟨not_prefix_of_front_ne hcomment hfront, number, hkey⟩
      obtain ⟨-, -, hfree, rest, heq, hstoi⟩ := (lineResult_eq_some_iff hline).mp hresult
      exact ⟨hfree, hrest (heq.symm.trans hkey.line_eq) ▸ stoi_eq_ok_iff.mp hstoi⟩
  · intro h key v
    rw [lineResult_eq_some_iff hline]
    constructor
    · rintro ⟨hfront, hne, hfree, rest, heq, hstoi⟩
      obtain ⟨t, hleading⟩ := stoi_eq_ok_iff.mp hstoi
      obtain ⟨number, hnumber, hwhole⟩ := h.alone hfront key rest v t heq hne hfree hleading
      refine ⟨not_prefix_of_front_ne hcomment hfront, number, ?_, hne,
        not_infix_of_front_not_mem hdelimiter hfree, hwhole⟩
      rw [heq, hnumber, ← List.cons_append, hcons]
    · rintro ⟨hnot, number, hkey⟩
      have hfront : front line ≠ front config.commentStyle := fun hfront =>
        h.comment hfront hnot key number v hkey
      obtain ⟨hfree, hleading⟩ := h.value hfront key number v hkey
      refine ⟨hfront, hkey.key_ne_nil, hfree, _, ?_, stoi_eq_ok_iff.mpr hleading⟩
      rw [hkey.line_eq, ← List.cons_append, hcons]

/-- In a line that does not start with `c`, a number behind the first `d` is followed by
white space only. -/
def NumberEndsLine (d c : UInt8) (line : List UInt8) : Prop :=
  front line ≠ c → ∀ key rest v t, line = key ++ d :: rest → key ≠ [] → d ∉ key →
    LeadingNumber rest v t → ∀ b ∈ t, isSpace b = true

/-- If delimiter and comment are single characters, only what follows a number matters. -/
theorem clear_iff_of_single {d c : UInt8} (hd : config.delimiter = [d])
    (hc : config.commentStyle = [c]) : Clear config line ↔ NumberEndsLine d c line := by
  have hfd : front config.delimiter = d := by rw [hd]; rfl
  have hfc : front config.commentStyle = c := by rw [hc]; rfl
  have htail : config.delimiter.tail = [] := by rw [hd]; rfl
  constructor
  · intro h hfront key rest v t heq hne hfree hleading
    rw [← hfc] at hfront
    rw [← hfd] at heq hfree
    obtain ⟨number, hnumber, hwhole⟩ := h.alone hfront key rest v t heq hne hfree hleading
    rw [htail, List.nil_append] at hnumber
    obtain ⟨t', hleading', ht'⟩ := wholeNumber_iff.mp hwhole
    -- The text behind the number is where the reader stops.
    have hread := (leadingNumber_iff.mp hleading).2
    rw [hnumber, (leadingNumber_iff.mp hleading').2, Option.some.injEq, Prod.mk.injEq] at hread
    exact hread.2 ▸ ht'
  · intro h
    constructor
    · intro hfront hnot key number v hkey
      -- The line is not empty, so it starts with the comment.
      apply hnot
      cases line with
      | nil =>
        have hnil := hkey.line_eq
        simp [hkey.key_ne_nil] at hnil
      | cons b rest =>
        rw [hfc] at hfront
        rw [hc, show b = c from hfront]
        exact ⟨rest, rfl⟩
    · intro hfront key rest v t heq hne hfree hleading
      rw [hfc] at hfront
      rw [hfd] at heq hfree
      refine ⟨rest, by rw [htail, List.nil_append], wholeNumber_iff.mpr ⟨t, hleading, ?_⟩⟩
      exact h hfront key rest v t heq hne hfree hleading
    · intro hfront key number v hkey
      refine ⟨?_, ?_⟩
      · intro hmem
        apply hkey.key_free
        rw [hd, ← hfd]
        obtain ⟨a, b, rfl⟩ := List.append_of_mem hmem
        exact ⟨a, b, by simp⟩
      · rw [htail, List.nil_append]
        obtain ⟨t, hleading, -⟩ := wholeNumber_iff.mp hkey.whole
        exact ⟨t, hleading⟩

/-! ## Texts -/

/-- **The format.**  `parse` returns the pairs of its lines in order, and each line is read
by its format exactly if each line is clear.  With single characters for delimiter and
comment, that is: nothing but white space follows a number. -/
theorem parse_format_iff (config : Config) (hdelimiter : config.delimiter ≠ [])
    (hcomment : config.commentStyle ≠ []) (content : List UInt8) :
    (∃ log, parse config (some content) =
      .ok ⟨(textLines newline content).filterMap (lineResult config), log⟩) ∧
    ((∀ line ∈ textLines newline content, ReadsFormat config line) ↔
      ∀ line ∈ textLines newline content, Clear config line) ∧
    ∀ d c, config.delimiter = [d] → config.commentStyle = [c] → ∀ line,
      (Clear config line ↔ NumberEndsLine d c line) := by
  refine ⟨parse_eq config content, forall₂_congr fun line hmem => ?_,
    fun d c hd hc line => clear_iff_of_single hd hc⟩
  exact readsFormat_iff_clear hdelimiter hcomment (sep_not_mem_of_mem_textLines hmem)

/-- The lines of a text with a comment, a pair and a line without a number: all are read
by the format. -/
theorem parse_format_iff_default :
    parse {} (some (text "# note\na 12 \nb x\n")) =
        .ok ⟨[(text "a", 12)], [text "Invalid value in line: b x"]⟩ ∧
      ∀ line ∈ textLines newline (text "# note\na 12 \nb x\n"), ReadsFormat {} line := by
  obtain ⟨_, hiff, hsingle⟩ := parse_format_iff {} (by decide) (by decide)
    (text "# note\na 12 \nb x\n")
  refine ⟨rfl, hiff.mpr fun line hline => (hsingle 32 35 rfl rfl line).mpr ?_⟩
  intro hfront key rest v t heq hne hfree hleading
  have hlines : line = text "# note" ∨ line = 97 :: 32 :: text "12 " ∨
      line = 98 :: 32 :: text "x" := by
    simpa [show textLines newline (text "# note\na 12 \nb x\n") =
      [text "# note", 97 :: 32 :: text "12 ", 98 :: 32 :: text "x"] from rfl] using hline
  -- The key of the last two lines is their first character.
  have hsplit : ∀ b r, line = b :: 32 :: r → rest = r := by
    rintro b r rfl
    rcases key with _ | ⟨k, _ | ⟨d, key⟩⟩
    · exact absurd rfl hne
    · exact (List.cons.inj (List.cons.inj heq).2).2.symm
    · simp only [List.cons_append, List.cons.injEq] at heq
      exact absurd (by simp [heq.2.1]) hfree
  have hread := (leadingNumber_iff.mp hleading).2
  rcases hlines with hline | hline | hline
  · exact absurd (by rw [hline]; rfl) hfront
  · rw [hsplit _ _ hline, show numberPrefix (text "12 ") = some (12, [32]) from rfl,
      Option.some.injEq, Prod.mk.injEq] at hread
    rw [← hread.2]
    exact List.forall_mem_singleton.mpr rfl
  · rw [hsplit _ _ hline, show numberPrefix (text "x") = none from rfl] at hread
    cases hread

/-- A number is accepted whatever follows it, and a delimiter of two characters is not
recognised. -/
theorem parse_not_format :
    (parse {} (some (text "a 12abc\n")) = .ok ⟨[(text "a", 12)], []⟩ ∧
      ¬ LineFormat {} (text "a 12abc") (text "a") 12) ∧
    (parse { delimiter := text "::" } (some (text "a::1\n")) =
        .ok ⟨[], [text "Invalid value in line: a::1"]⟩ ∧
      LineFormat { delimiter := text "::" } (text "a::1") (text "a") 1) := by
  refine ⟨⟨rfl, ?_⟩, rfl, ?_⟩
  · rintro ⟨-, number, hkey⟩
    have hnumber : number = text "12abc" := by
      have hline := hkey.line_eq
      simpa [text] using hline.symm
    obtain ⟨t, hleading, ht⟩ := wholeNumber_iff.mp hkey.whole
    have hread := (leadingNumber_iff.mp hleading).2
    rw [hnumber, show numberPrefix (text "12abc") = some (12, text "abc") from rfl,
      Option.some.injEq, Prod.mk.injEq] at hread
    rw [← hread.2] at ht
    exact absurd ht (by decide)
  · refine ⟨by decide, text "1", rfl, by decide, by decide, wholeNumber_iff.mpr ?_⟩
    exact ⟨[], leadingNumber_iff.mpr ⟨by decide, rfl⟩, by simp⟩

end FarouKernel.Ports.DataProcessor
