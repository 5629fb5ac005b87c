import FarouKernel.Ports.ClientInput
import FarouKernel.Ports.KprintfModel

/-!
# `net/network.c`: which commands are answered

A translation of `is_valid_command` and of the part of `handle_client` that chooses
the answer to a sanitised command.  The validator accepts a command by the word it starts with and
the character behind it, the dispatcher compares whole commands; `MatchesCommand`
and `allowedLoop_iff` say what each of the two accepts.

A command has no zero byte, as `sanitize_input` leaves it, so `strncmp` with the
length of a word compares the first characters.  The texts of the answers, the log
messages and the result of `send_full` are left out.
-/

namespace FarouKernel.Ports.Net

open Ports.Kprintf (text)

/-- `allowed_commands`. -/
def allowedCommands : List (List UInt8) :=
  [text "help", text "info", text "exit", text "quit", text "echo"]

/-- The loop of `is_valid_command`. -/
def allowedLoop (command : List UInt8) : List (List UInt8) → Bool
  | [] => false
  | word :: words =>
    if command.take word.length = word then
      if word = text "echo" then true
      else
        match command[word.length]? with
        | none => true
        | some b => if isspace b then true else allowedLoop command words
    else allowedLoop command words

/-- `is_valid_command`. -/
def isValidCommand (command : List UInt8) : Bool :=
  if command = [] then false else allowedLoop command allowedCommands

/-- The branches of `handle_client` for a command. -/
inductive CommandBranch where
  | empty
  | exit
  | invalid
  | help
  | info
  | echoMessage
  | echoAlone
  | notImplemented
  deriving DecidableEq

/-- The branch that `handle_client` takes. -/
def commandBranch (command : List UInt8) : CommandBranch :=
  if command = [] then .empty
  else if isExit command = true then .exit
  else if isValidCommand command = false then .invalid
  else if command = text "help" then .help
  else if command = text "info" then .info
  else if command.take 5 = text "echo " then .echoMessage
  else if command = text "echo" then .echoAlone
  else .notImplemented

/-- A command branch matches: `help`, `info`, or `echo` with or without a message. -/
def MatchesCommand (command : List UInt8) : Prop :=
  command = text "help" ∨ command = text "info" ∨ command.take 5 = text "echo " ∨
    command = text "echo"

variable {r : List UInt8} {b : UInt8}

section Words

variable {command word : List UInt8}

/-- `strncmp` with the length of a word. -/
theorem take_eq_word_iff : command.take word.length = word ↔ ∃ r, command = word ++ r := by
  rw [eq_comm, ← List.prefix_iff_eq_take]
  exact exists_congr fun _ => eq_comm

/-- The character behind a word. -/
theorem getElem?_word (r : List UInt8) : (word ++ r)[word.length]? = r.head? := by
  rw [List.getElem?_append_right (Nat.le_refl _), Nat.sub_self, List.head?_eq_getElem?]

/-- **What the validator accepts**: a word of its list, with the end or whitespace
behind it unless the word is `echo`. -/
theorem allowedLoop_iff (words : List (List UInt8)) :
    allowedLoop command words = true ↔
      ∃ word ∈ words, ∃ r, command = word ++ r ∧
        (word = text "echo" ∨ ∀ b, r.head? = some b → isspace b = true) := by
  induction words with
  | nil => simp [allowedLoop]
  | cons word words ih =>
    rw [allowedLoop, List.exists_mem_cons_iff, ← ih]
    by_cases hword : ∃ r, command = word ++ r
    · rw [if_pos (take_eq_word_iff.mpr hword)]
      rcases hword with ⟨r, rfl⟩
      simp only [List.append_cancel_left_eq, exists_eq_left', getElem?_word]
      by_cases hecho : word = text "echo"
      · rw [if_pos hecho]
        simp only [hecho, true_or]
      · rw [if_neg hecho]
        cases hnext : r.head? with
        | none => simp
        | some b => simp [hecho]
    · have hhere : ¬∃ r, command = word ++ r ∧
          (word = text "echo" ∨ ∀ b, r.head? = some b → isspace b = true) :=
        fun ⟨r, hr, _⟩ => hword ⟨r, hr⟩
      rw [if_neg (mt take_eq_word_iff.mp hword), or_iff_right hhere]

/-- The words of the validator are as long as one another. -/
theorem length_word (hword : word ∈ allowedCommands) : word.length = 4 := by
  revert word
  decide

theorem append_ne_word {t : List UInt8} (hword : word ∈ allowedCommands)
    (ht : t ∈ allowedCommands) :
    word ++ b :: r ≠ t := by
  intro heq
  have hlength := congrArg List.length heq
  rw [List.length_append, List.length_cons, length_word hword, length_word ht] at hlength
  omega

/-- Of the commands with something behind their word only `echo` with a message is
answered. -/
theorem matchesCommand_append (hword : word ∈ allowedCommands) :
    MatchesCommand (word ++ b :: r) ↔ word = text "echo" ∧ b = 32 := by
  have hfive : (word ++ b :: r).take 5 = word ++ [b] := by
    have hlength := length_word hword
    rw [List.take_append, List.take_of_length_le (by omega), hlength]
    rfl
  have hecho : text "echo " = text "echo" ++ [32] := by decide
  unfold MatchesCommand
  rw [hfive, hecho, or_iff_right (append_ne_word hword (by decide)),
    or_iff_right (append_ne_word hword (by decide)),
    or_iff_left (append_ne_word hword (by decide))]
  constructor
  · intro heq
    have hparts := List.append_inj' heq rfl
    exact ⟨hparts.1, List.head_eq_of_cons_eq hparts.2⟩
  · rintro ⟨rfl, rfl⟩
    rfl

theorem isExit_iff : isExit command = true ↔ command = text "exit" ∨ command = text "quit" := by
  have hexit : text "exit" = [101, 120, 105, 116] := by decide
  have hquit : text "quit" = [113, 117, 105, 116] := by decide
  rw [isExit, hexit, hquit, Bool.or_eq_true, beq_iff_eq, beq_iff_eq]

/-- Each of the words alone is answered. -/
theorem word_answered (hword : word ∈ allowedCommands) :
    isExit word = true ∨ MatchesCommand word := by
  rw [isExit_iff]
  unfold MatchesCommand
  simp only [allowedCommands, List.mem_cons, List.not_mem_nil, or_false] at hword
  rcases hword with hhelp | hinfo | hexit | hquit | hecho
  · exact Or.inr (Or.inl hhelp)
  · exact Or.inr (Or.inr (Or.inl hinfo))
  · exact Or.inl (Or.inl hexit)
  · exact Or.inl (Or.inr hquit)
  · exact Or.inr (Or.inr (Or.inr (Or.inr hecho)))

theorem isValidCommand_append (hword : word ∈ allowedCommands)
    (hnext : word = text "echo" ∨ ∀ b, r.head? = some b → isspace b = true) :
    isValidCommand (word ++ r) = true := by
  have hne : word ++ r ≠ [] := by
    intro hnil
    have hlength := length_word hword
    rw [List.append_eq_nil_iff] at hnil
    rw [hnil.1] at hlength
    exact absurd hlength (by decide)
  rw [isValidCommand, if_neg hne, allowedLoop_iff]
  exact ⟨word, hword, r, rfl, hnext⟩

theorem commandBranch_eq_notImplemented_iff :
    commandBranch command = .notImplemented ↔
      command ≠ [] ∧ isExit command = false ∧ isValidCommand command = true ∧
        ¬MatchesCommand command := by
  unfold commandBranch MatchesCommand
  simp only [ite_eq_iff, reduceCtorEq, and_false, false_or, and_true, ne_eq, not_or,
    Bool.not_eq_true, Bool.not_eq_false]

/-- No word but `echo` has whitespace behind it, and `echo` has nothing or a space
behind it. -/
def Answerable (command : List UInt8) : Prop :=
  (∀ word ∈ [text "help", text "info", text "exit", text "quit"], ∀ b r,
      command = word ++ b :: r → isspace b = false) ∧
    ∀ b r, command = text "echo" ++ b :: r → b = 32

theorem isExit_append (hword : word ∈ allowedCommands) : isExit (word ++ b :: r) = false := by
  rw [Bool.eq_false_iff, ne_eq, isExit_iff, not_or]
  exact ⟨append_ne_word hword (by decide), append_ne_word hword (by decide)⟩

theorem notImplemented_of_not_answerable (h : ¬Answerable command) :
    commandBranch command = .notImplemented := by
  have hstray : ∃ word ∈ allowedCommands, ∃ b r, command = word ++ b :: r ∧
      (word = text "echo" ∨ isspace b = true) ∧ ¬(word = text "echo" ∧ b = 32) := by
    rw [Answerable, not_and_or] at h
    push Not at h
    rcases h with ⟨word, hword, b, r, rfl, hspace⟩ | ⟨b, r, rfl, hb⟩
    · have hecho : word ≠ text "echo" := by
        revert word
        decide
      exact ⟨word, List.mem_append_left [text "echo"] hword, b, r, rfl,
        Or.inr (Bool.not_eq_false _ ▸ hspace), fun heq => hecho heq.1⟩
    · exact ⟨text "echo", by decide, b, r, rfl, Or.inl rfl, fun heq => hb heq.2⟩
  rcases hstray with ⟨word, hword, b, r, rfl, hnext, hmessage⟩
  rw [commandBranch_eq_notImplemented_iff, matchesCommand_append hword]
  refine ⟨by simp, isExit_append hword, ?_, hmessage⟩
  apply isValidCommand_append hword
  apply hnext.imp_right
  rintro hspace c hc
  rw [List.head?_cons, Option.some.injEq] at hc
  exact hc ▸ hspace

theorem Answerable.matchesCommand (h : Answerable command) (hexit : isExit command = false)
    (hvalid : isValidCommand command = true) : MatchesCommand command := by
  rw [isValidCommand] at hvalid
  split at hvalid
  · exact Bool.noConfusion hvalid
  rcases (allowedLoop_iff allowedCommands).mp hvalid with ⟨word, hword, r, rfl, hnext⟩
  cases r with
  | nil =>
    rw [List.append_nil] at hexit ⊢
    exact (word_answered hword).resolve_left (Bool.eq_false_iff.mp hexit)
  | cons b r =>
    by_cases hecho : word = text "echo"
    · subst hecho
      exact (matchesCommand_append hword).mpr ⟨rfl, h.2 b r rfl⟩
    · have hother : word ∈ [text "help", text "info", text "exit", text "quit"] :=
        (List.mem_append.mp hword).resolve_right fun hlast => hecho (List.mem_singleton.mp hlast)
      have hspace := hnext.resolve_left hecho b rfl
      exact absurd hspace (Bool.eq_false_iff.mp (h.1 word hother b r rfl))

end Words

/-- **Validation and dispatch.**  A command is answered by one of the command branches,
and the last branch is not taken, exactly if no word but `echo` has whitespace behind
it, and `echo` has nothing or a space behind it. -/
theorem command_answered_iff (buffer : List UInt8) :
    ((sanitizeInput buffer ≠ [] → isExit (sanitizeInput buffer) = false →
          isValidCommand (sanitizeInput buffer) = true → MatchesCommand (sanitizeInput buffer)) ∧
        commandBranch (sanitizeInput buffer) ≠ .notImplemented) ↔
      (∀ word ∈ [text "help", text "info", text "exit", text "quit"], ∀ b r,
          sanitizeInput buffer = word ++ b :: r → isspace b = false) ∧
        ∀ b r, sanitizeInput buffer = text "echo" ++ b :: r → b = 32 := by
  change _ ↔ Answerable (sanitizeInput buffer)
  constructor
  · intro hanswered
    by_contra hno
    exact hanswered.2 (notImplemented_of_not_answerable hno)
  · intro hyes
    refine ⟨fun _ => hyes.matchesCommand, ?_⟩
    rw [ne_eq, commandBranch_eq_notImplemented_iff]
    rintro ⟨_, hexit, hvalid, hno⟩
    exact hno (hyes.matchesCommand hexit hvalid)

/-- `help foo` and `echofoo` pass the validator and are not answered. -/
theorem command_not_answered :
    (sanitizeInput (text "help foo\n") = text "help foo" ∧ text "help foo" ≠ [] ∧
        isExit (text "help foo") = false ∧ isValidCommand (text "help foo") = true ∧
        ¬MatchesCommand (text "help foo") ∧
        commandBranch (text "help foo") = .notImplemented) ∧
      sanitizeInput (text "echofoo\n") = text "echofoo" ∧
        isValidCommand (text "echofoo") = true ∧
        commandBranch (text "echofoo") = .notImplemented := by
  unfold MatchesCommand
  decide

end FarouKernel.Ports.Net
