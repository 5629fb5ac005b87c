import FarouKernel.Ports.DataProcessorModel

/-!
# What `parse` takes from a line, and the round trip

A line gives a pair if it does not start with the first character of `commentStyle`, has
the first character of `delimiter` behind a nonempty key, and a number behind that; what
follows the number is not looked at.  The lines that `generateCSV` and
`generateKeyValue` write are read back, whatever the values are.
-/

namespace FarouKernel.Ports.DataProcessor

open Verified
open Ports.Kprintf (text)

variable {config : Config}

/-! ## One line -/

/-- The pair that `parse` takes from a line. -/
def lineResult (config : Config) (line : List UInt8) : Option (List UInt8 × Int) :=
  if line = [] ∨ front line = front config.commentStyle then none
  else if (parseLine config line).1.1 = [] then none
  else some (parseLine config line).1

theorem parseStep_data (config : Config) (parsed : Parsed) (line : List UInt8) :
    (parseStep config parsed line).data = parsed.data ++ (lineResult config line).toList := by
  unfold parseStep lineResult
  split
  · exact (List.append_nil _).symm
  · show (if (parseLine config line).1.1 = [] then _ else _) = _
    split
    · exact (List.append_nil _).symm
    · rfl

theorem foldl_parseStep_data (config : Config) (lines : List (List UInt8)) (parsed : Parsed) :
    (lines.foldl (parseStep config) parsed).data =
      parsed.data ++ lines.filterMap (lineResult config) := by
  induction lines generalizing parsed with
  | nil => simp
  | cons line lines ih =>
    rw [List.foldl_cons, ih, parseStep_data, List.append_assoc, List.filterMap_cons]
    cases lineResult config line with
    | none => rfl
    | some pair => rfl

/-- **`parse`** takes at most one pair from each line, in the order of the lines. -/
theorem parse_eq (config : Config) (content : List UInt8) :
    ∃ log, parse config (some content) =
      .ok ⟨(textLines newline content).filterMap (lineResult config), log⟩ := by
  have hdata := foldl_parseStep_data config (textLines newline content) ⟨[], []⟩
  rw [List.nil_append] at hdata
  refine ⟨((textLines newline content).foldl (parseStep config) ⟨[], []⟩).log, ?_⟩
  rw [parse, forLines_good _ _ (FileStream.good_over content) (by simp), FileStream.rest_over,
    ← hdata]

theorem parseLine_of_not_mem {line : List UInt8} (h : front config.delimiter ∉ line) :
    (parseLine config line).1.1 = [] := by
  have hrun := FileStream.getline_end (FileStream.good_over line) h
  have hnext := FileStream.getline_not_good newline
    (FileStream.atEnd_not_good (FileStream.over line))
  unfold parseLine
  rw [hrun]
  simp only [hnext]
  split <;> rfl

/-- The text behind the first delimiter character is what `std::stoi` gets; an empty one
is not even given to it. -/
theorem parseLine_split {key rest : List UInt8} (hkey : front config.delimiter ∉ key)
    (hrest : newline ∉ rest) :
    (parseLine config (key ++ front config.delimiter :: rest)).1 =
      match stoi rest with
      | .ok value => (key, value)
      | .error _ => ([], 0) := by
  obtain ⟨hrun, htail⟩ := FileStream.getline_line
    (s := .over (key ++ front config.delimiter :: rest))
    rfl (FileStream.rest_over _) hkey
  generalize hmoved : (FileStream.over (key ++ front config.delimiter :: rest)).moved
    ((FileStream.over (key ++ front config.delimiter :: rest)).pos + (key.length + 1)) = iss at *
  have hgood : iss.good = true := by
    rw [← hmoved]
    rfl
  have hlast := FileStream.getline_end hgood (htail.symm ▸ hrest)
  have hfail := FileStream.atEnd_fail hgood
  unfold parseLine
  rw [hrun]
  simp only [FileStream.fail_of_good hgood, Bool.false_eq_true, if_false, hlast, htail, hfail]
  cases rest with
  | nil => rfl
  | cons b rest =>
    simp only [List.isEmpty_cons, Bool.false_eq_true, if_false]
    cases stoi (b :: rest) with
    | ok value => rfl
    | error e => cases e <;> rfl

/-- **What a line gives.** -/
theorem lineResult_eq_some_iff {line key : List UInt8} {v : Int} (hline : newline ∉ line) :
    lineResult config line = some (key, v) ↔
      front line ≠ front config.commentStyle ∧ key ≠ [] ∧ front config.delimiter ∉ key ∧
        ∃ rest, line = key ++ front config.delimiter :: rest ∧ stoi rest = .ok v := by
  unfold lineResult
  constructor
  · intro h
    split at h
    case isTrue => cases h
    case isFalse hcomment =>
        rw [not_or] at hcomment
        split at h
        case isTrue => cases h
        case isFalse hkey =>
            by_cases hmem : front config.delimiter ∈ line
            · obtain ⟨key', rest, rfl, hkey'⟩ := List.eq_append_cons_of_mem hmem
              have hrest : newline ∉ rest := by
                intro hn
                exact hline (by simp [hn])
              rw [parseLine_split hkey' hrest] at h hkey
              cases hstoi : stoi rest with
              | error e =>
                rw [hstoi] at hkey
                exact absurd rfl hkey
              | ok value =>
                simp only [hstoi, Option.some.injEq, Prod.mk.injEq] at h
                obtain ⟨rfl, rfl⟩ := h
                simp only [hstoi] at hkey
                exact ⟨hcomment.2, hkey, hkey', rest, rfl, hstoi⟩
            · exact absurd (parseLine_of_not_mem hmem) hkey
  · rintro ⟨hcomment, hkey, hfree, rest, rfl, hstoi⟩
    have hrest : newline ∉ rest := by
      intro hn
      exact hline (by simp [hn])
    have hpair := parseLine_split hfree hrest
    rw [hstoi] at hpair
    rw [if_neg (by simp [hcomment]), hpair, if_neg hkey]

/-! ## The round trip -/

/-- A written value is read back, also behind white space. -/
theorem stoi_intText {ws : List UInt8} {v : Int} (hws : ∀ b ∈ ws, isSpace b = true)
    (hv : InInt v) : stoi (ws ++ intText v) = .ok v := by
  have hread := numberPrefix_of_isInteger (t := []) hws (isInteger_intText v) (by simp)
  rw [List.append_nil] at hread
  simp only [stoi, hread, if_pos hv]

theorem newline_not_mem_intText (v : Int) : newline ∉ intText v :=
  fun hmem => absurd (intText_bytes v hmem) (by decide)

/-- The line of a pair: the key, the delimiter character, white space and the value. -/
def lineOf (config : Config) (ws : List UInt8) (pair : List UInt8 × Int) : List UInt8 :=
  pair.1 ++ front config.delimiter :: (ws ++ intText pair.2)

/-- A pair that can be read back from its line. -/
structure Readable (config : Config) (pair : List UInt8 × Int) : Prop where
  key_ne_nil : pair.1 ≠ []
  key_line : newline ∉ pair.1
  key_comment : front pair.1 ≠ front config.commentStyle
  key_delimiter : front config.delimiter ∉ pair.1
  value : InInt pair.2

theorem newline_not_mem_lineOf {ws : List UInt8} {pair : List UInt8 × Int}
    (hline : newline ∉ front config.delimiter :: ws) (h : Readable config pair) :
    newline ∉ lineOf config ws pair := by
  rw [List.mem_cons, not_or] at hline
  simp only [lineOf, List.mem_append, List.mem_cons, not_or]
  exact ⟨h.key_line, hline.1, hline.2, newline_not_mem_intText _⟩

theorem lineResult_lineOf {ws : List UInt8} {pair : List UInt8 × Int}
    (hws : ∀ b ∈ ws, isSpace b = true) (hline : newline ∉ front config.delimiter :: ws)
    (h : Readable config pair) : lineResult config (lineOf config ws pair) = some pair := by
  refine (lineResult_eq_some_iff (newline_not_mem_lineOf hline h)).mpr
    ⟨?_, h.key_ne_nil, h.key_delimiter, _, rfl, stoi_intText hws h.value⟩
  -- The line starts as its key does.
  obtain ⟨b, key, hcons⟩ := List.exists_cons_of_ne_nil h.key_ne_nil
  have hcomment := h.key_comment
  rw [hcons] at hcomment
  rw [lineOf, hcons]
  exact hcomment

/-- Such lines are read back. -/
theorem parse_lines (config : Config) (ws : List UInt8) (data : List (List UInt8 × Int))
    (hws : ∀ b ∈ ws, isSpace b = true) (hline : newline ∉ front config.delimiter :: ws)
    (h : ∀ pair ∈ data, Readable config pair) :
    ∃ log, parse config (some (data.flatMap fun pair =>
        pair.1 ++ front config.delimiter :: ws ++ intText pair.2 ++ [newline])) =
      .ok ⟨data, log⟩ := by
  have htext : (data.flatMap fun pair =>
      pair.1 ++ front config.delimiter :: ws ++ intText pair.2 ++ [newline]) =
      (data.map (lineOf config ws)).flatMap (· ++ [newline]) := by
    rw [List.flatMap_map]
    simp [lineOf]
  have hlines : textLines newline ((data.map (lineOf config ws)).flatMap (· ++ [newline])) =
      data.map (lineOf config ws) := by
    apply textLines_flatMap
    intro line hmem
    obtain ⟨pair, hpair, rfl⟩ := List.mem_map.mp hmem
    exact newline_not_mem_lineOf hline (h pair hpair)
  have hpairs : data.filterMap (lineResult config ∘ lineOf config ws) = data.filterMap some :=
    List.filterMap_congr fun pair hpair => lineResult_lineOf hws hline (h pair hpair)
  rw [htext]
  obtain ⟨log, hparse⟩ := parse_eq config ((data.map (lineOf config ws)).flatMap (· ++ [newline]))
  refine ⟨log, hparse.trans ?_⟩
  rw [hlines, List.filterMap_map, hpairs, List.filterMap_some]

/-- **The round trip.**  What `generateCSV` and `generateKeyValue` write is read back by
`parse` with the delimiter `,` or `:`, for all keys that do not have it in them, are not
empty, have no line end and do not start with the comment character. -/
theorem csv_keyValue_round_trip (config : Config) (data : List (List UInt8 × Int))
    (hkeys : ∀ pair ∈ data, pair.1 ≠ [] ∧ newline ∉ pair.1 ∧
      front pair.1 ≠ front config.commentStyle ∧ InInt pair.2) :
    ((∀ pair ∈ data, ','.toUInt8 ∉ pair.1) →
      ∃ log, parse { config with delimiter := text "," } (some (generateCSV data)) =
        .ok ⟨data, log⟩) ∧
    ((∀ pair ∈ data, ':'.toUInt8 ∉ pair.1) →
      ∃ log, parse { config with delimiter := text ":" } (some (generateKeyValue data)) =
        .ok ⟨data, log⟩) := by
  constructor
  · intro hfree
    apply parse_lines { config with delimiter := text "," } [] data (by simp)
    · show newline ∉ [front (text ",")]
      decide
    · intro pair hpair
      obtain ⟨hne, hline, hcomment, hint⟩ := hkeys pair hpair
      exact ⟨hne, hline, hcomment, hfree pair hpair, hint⟩
  · intro hfree
    apply parse_lines { config with delimiter := text ":" } [' '.toUInt8] data
    · rw [List.forall_mem_singleton]
      decide
    · show newline ∉ [front (text ":"), ' '.toUInt8]
      decide
    · intro pair hpair
      obtain ⟨hne, hline, hcomment, hint⟩ := hkeys pair hpair
      exact ⟨hne, hline, hcomment, hfree pair hpair, hint⟩

theorem csv_keyValue_round_trip_pairs :
    (∃ log, parse { delimiter := text "," }
        (some (generateCSV [(text "low", -2 ^ 31), (text "a b", 7)])) =
      .ok ⟨[(text "low", -2 ^ 31), (text "a b", 7)], log⟩) ∧
    ∃ log, parse { delimiter := text ":" }
        (some (generateKeyValue [(text "low", -2 ^ 31), (text "a b", 7)])) =
      .ok ⟨[(text "low", -2 ^ 31), (text "a b", 7)], log⟩ := by
  have htrip := csv_keyValue_round_trip {} [(text "low", -2 ^ 31), (text "a b", 7)] (by decide)
  exact ⟨htrip.1 (by decide), htrip.2 (by decide)⟩

end FarouKernel.Ports.DataProcessor
