import FarouKernel.Ports.KprintfModel
import FarouKernel.Verified.Runs

/-!
# Runs of `kprintf`

The loop tests for the end of the format string in its header only, but a round
moves the cursor up to three bytes: over the `%`, over an `l`, and over the byte
that is taken for the conversion.  So the loop stops at the terminator exactly for
the strings that are made of whole directives.  In every other string the last
directive is cut off, the terminator is taken for its conversion, and the cursor
goes on behind it.
-/

namespace FarouKernel.Ports.Kprintf

open Relation Verified

/-- The string at `a` is `s`, with a zero byte behind it. -/
def CString (mem : ByteMem) : Nat → List UInt8 → Prop
  | a, [] => mem a = 0
  | a, c :: s => mem a = c ∧ c ≠ 0 ∧ CString mem (a + 1) s

instance decidableCString (mem : ByteMem) : (a : Nat) → (s : List UInt8) →
    Decidable (CString mem a s)
  | a, [] => inferInstanceAs (Decidable (mem a = 0))
  | a, c :: s =>
    have := decidableCString mem (a + 1) s
    inferInstanceAs (Decidable (mem a = c ∧ c ≠ 0 ∧ CString mem (a + 1) s))

/-- The text is a sequence of whole directives: a byte other than `%`, a `%` with
its conversion, or `%l` with its conversion. -/
inductive Directives : List UInt8 → Prop
  | nil : Directives []
  | plain {c : UInt8} {s : List UInt8} (hc : c ≠ '%'.toUInt8) (hs : Directives s) :
      Directives (c :: s)
  | short {c : UInt8} {s : List UInt8} (hc : c ≠ 'l'.toUInt8) (hs : Directives s) :
      Directives ('%'.toUInt8 :: c :: s)
  | long {c : UInt8} {s : List UInt8} (hs : Directives s) :
      Directives ('%'.toUInt8 :: 'l'.toUInt8 :: c :: s)

/-- A call makes a step. -/
def CallStep (mem : ByteMem) (va : Nat → Nat) (c c' : Call) : Prop := c.step mem va = some c'

/-- The states of the call `kprintf(fmt, ..)`. -/
def Reached (mem : ByteMem) (va : Nat → Nat) (fmt : Nat) (c : Call) : Prop :=
  ReflTransGen (CallStep mem va) (Call.start fmt) c

/-- Where the loop makes its next test. -/
def Call.next (c : Call) : Nat :=
  match c.place with
  | .test => c.p
  | .puts _ _ => c.p + 1

/-- How far a round moves the cursor. -/
def directiveLength (mem : ByteMem) (p : Nat) : Nat :=
  if mem p ≠ '%'.toUInt8 then 1 else if mem (p + 1) = 'l'.toUInt8 then 3 else 2

/-- The cursor stays inside the format string, which ends at `stop`, and the loop
stops there. -/
structure StaysInside (mem : ByteMem) (va : Nat → Nat) (fmt stop : Nat) : Prop where
  inside : ∀ c, Reached mem va fmt c → c.p ≤ stop
  ends : ∃ c, Reached mem va fmt c ∧ c.p = stop ∧ c.step mem va = none

section Steps

variable {mem : ByteMem} {va : Nat → Nat} {fmt stop : Nat} {c c' : Call} {s : List UInt8}

theorem Call.p_le_next (c : Call) : c.p ≤ c.next := by
  unfold Call.next
  split
  · exact Nat.le_refl _
  · exact Nat.le_succ _

theorem Call.next_of_test (h : c.place = .test) : c.next = c.p := by
  unfold Call.next
  rw [h]

/-- **A round** ends at a test, or at the start of `serial_puts`; in both cases the
next test is behind the directive. -/
theorem Call.round_next (mem : ByteMem) (va : Nat → Nat) (c : Call) :
    (c.round mem va).next = c.p + directiveLength mem c.p ∧
      ((c.round mem va).place = .test ∨
        ∃ str, (c.round mem va).place = .puts str 0 ∧ (c.round mem va).p = c.p + 1) := by
  unfold Call.round directiveLength
  by_cases hplain : mem c.p ≠ '%'.toUInt8
  · rw [if_pos hplain, if_pos hplain]
    exact ⟨rfl, Or.inl rfl⟩
  rw [if_neg hplain, if_neg hplain]
  by_cases hl : mem (c.p + 1) = 'l'.toUInt8
  · rw [if_pos hl]
    simp only [hl]
    rw [if_neg (by decide), if_neg (by decide), if_pos trivial]
    split <;> exact ⟨rfl, Or.inl rfl⟩
  · rw [if_neg hl]
    simp only [if_neg hl]
    -- the other conversions
    split
    · exact ⟨rfl, Or.inl rfl⟩
    split
    · split
      · exact ⟨rfl, Or.inl rfl⟩
      · exact ⟨rfl, Or.inr ⟨va c.args, rfl, rfl⟩⟩
    split
    · exact ⟨rfl, Or.inl rfl⟩
    split <;> exact ⟨rfl, Or.inl rfl⟩

/-- **What a step does**: a round at a byte other than 0, or a step of
`serial_puts`, after which the next test is where it was. -/
theorem CallStep.cases (h : CallStep mem va c c') :
    (c.place = .test ∧ mem c.p ≠ 0 ∧ c' = c.round mem va) ∨ c'.next = c.next := by
  unfold CallStep Call.step at h
  split at h
  · rename_i hplace
    split at h
    · cases h
    · rename_i hbyte
      exact Or.inl ⟨hplace, hbyte, (Option.some.inj h).symm⟩
  · rename_i str i hplace
    right
    unfold Call.next
    rw [hplace]
    split at h
    · rw [← Option.some.inj h]
    · rw [← Option.some.inj h]
      rfl

theorem Reached.round (h : Reached mem va fmt c) (hplace : c.place = .test) (hbyte : mem c.p ≠ 0) :
    Reached mem va fmt (c.round mem va) := by
  apply h.tail
  unfold CallStep Call.step
  rw [hplace]
  exact if_neg hbyte

theorem Reached.puts_end (h : Reached mem va fmt c) {str i : Nat} (hplace : c.place = .puts str i)
    (hzero : mem (str + i) = 0) :
    ∃ c', Reached mem va fmt c' ∧ c'.place = .test ∧ c'.p = c.next := by
  refine ⟨c.finish c.p c.args [], h.tail ?_, rfl, ?_⟩
  · unfold CallStep Call.step
    rw [hplace]
    exact if_neg (not_not.mpr hzero)
  · unfold Call.next
    rw [hplace]
    rfl

/-- `serial_puts` comes to the end of its string. -/
theorem Reached.puts (h : Reached mem va fmt c) {str i d : Nat} (hplace : c.place = .puts str i)
    (hzero : mem (str + (i + d)) = 0) :
    ∃ c', Reached mem va fmt c' ∧ c'.place = .test ∧ c'.p = c.next := by
  induction d generalizing c i with
  | zero => exact h.puts_end hplace hzero
  | succ d ih =>
    by_cases hbyte : mem (str + i) = 0
    · exact h.puts_end hplace hbyte
    · have hstep : CallStep mem va c
          { c with place := .puts str (i + 1), out := c.out ++ [mem (str + i)] } := by
        unfold CallStep Call.step
        rw [hplace]
        exact if_pos hbyte
      have hnext : c.next = c.p + 1 := by
        unfold Call.next
        rw [hplace]
      rw [show i + (d + 1) = i + 1 + d by omega] at hzero
      rcases ih (h.tail hstep) rfl hzero with ⟨c', hreached, htest, hp⟩
      exact ⟨c', hreached, htest, hp.trans hnext.symm⟩

theorem CString.terminator {a : Nat} (hs : CString mem a s) : mem (a + s.length) = 0 := by
  induction s generalizing a with
  | nil => exact hs
  | cons c s ih =>
    rw [List.length_cons, Nat.add_comm s.length, ← Nat.add_assoc]
    exact ih hs.2.2

theorem directives_plain_iff {a : UInt8} (ha : a ≠ '%'.toUInt8) :
    Directives (a :: s) ↔ Directives s := by
  constructor
  · intro h
    cases h with
    | plain _ h => exact h
    | short _ _ => exact absurd rfl ha
    | long _ => exact absurd rfl ha
  · exact Directives.plain ha

theorem directives_short_iff {a : UInt8} (ha : a ≠ 'l'.toUInt8) :
    Directives ('%'.toUInt8 :: a :: s) ↔ Directives s := by
  constructor
  · intro h
    cases h with
    | plain h _ => exact absurd rfl h
    | short _ h => exact h
    | long _ => exact absurd rfl ha
  · exact Directives.short ha

theorem directives_long_iff {a : UInt8} :
    Directives ('%'.toUInt8 :: 'l'.toUInt8 :: a :: s) ↔ Directives s := by
  constructor
  · intro h
    cases h with
    | plain h _ => exact absurd rfl h
    | short h _ => exact absurd rfl h
    | long h => exact h
  · exact Directives.long

/-- Text without a `%` in front of directives. -/
theorem Directives.prepend {t : List UInt8} (h : Directives t) (hs : '%'.toUInt8 ∉ s) :
    Directives (s ++ t) := by
  induction s with
  | nil => exact h
  | cons c s ih =>
    rw [List.mem_cons, not_or] at hs
    exact Directives.plain (Ne.symm hs.1) (ih hs.2)

/-- **The first directive** of a string is whole, and the rest of the string is
behind it; or it is cut off, and the cursor moves one byte too far. -/
theorem CString.firstDirective {p : Nat} (hs : CString mem p s) (hbyte : mem p ≠ 0) :
    (∃ s', CString mem (p + directiveLength mem p) s' ∧
        s.length = directiveLength mem p + s'.length ∧ (Directives s ↔ Directives s')) ∨
      (directiveLength mem p = s.length + 1 ∧ ¬Directives s) := by
  unfold directiveLength
  cases s with
  | nil => exact absurd hs hbyte
  | cons a s =>
    rcases hs with ⟨hfirst, _, hs⟩
    by_cases hplain : a ≠ '%'.toUInt8
    · rw [if_pos (by rwa [hfirst])]
      exact Or.inl ⟨s, hs, Nat.add_comm _ _, directives_plain_iff hplain⟩
    rw [not_not] at hplain
    subst hplain
    rw [if_neg (not_not.mpr hfirst)]
    cases s with
    | nil =>
      -- the string ends in `%`
      have hend : mem (p + 1) = 0 := hs
      rw [if_neg (by rw [hend]; decide)]
      right
      refine ⟨rfl, ?_⟩
      intro h
      cases h with
      | plain h _ => exact h rfl
    | cons b s =>
      rcases hs with ⟨hsecond, _, hs⟩
      by_cases hlong : b = 'l'.toUInt8
      · subst hlong
        rw [if_pos hsecond]
        cases s with
        | nil =>
          -- the string ends in `%l`
          right
          refine ⟨rfl, ?_⟩
          intro h
          cases h with
          | plain h _ => exact h rfl
          | short h _ => exact h rfl
        | cons d s =>
          rcases hs with ⟨_, _, hs⟩
          exact Or.inl ⟨s, hs, Nat.add_comm _ 3, directives_long_iff⟩
      · rw [if_neg (by rwa [hsecond])]
        exact Or.inl ⟨s, hs, Nat.add_comm _ 2, directives_short_iff hlong⟩

/-- The next test is at the start of whole directives that end at `stop`. -/
def Call.AtDirective (mem : ByteMem) (stop : Nat) (c : Call) : Prop :=
  ∃ s, Directives s ∧ CString mem c.next s ∧ c.next + s.length = stop

theorem Call.AtDirective.step (h : c.AtDirective mem stop) (hstep : CallStep mem va c c') :
    c'.AtDirective mem stop := by
  rcases h with ⟨s, hdirectives, hs, hstop⟩
  rcases hstep.cases with ⟨hplace, hbyte, rfl⟩ | hnext
  · rw [Call.next_of_test hplace] at hs hstop
    rcases hs.firstDirective hbyte with ⟨s', hs', hlength, hiff⟩ | ⟨_, hcut⟩
    · unfold Call.AtDirective
      rw [(Call.round_next mem va c).1]
      exact ⟨s', hiff.mp hdirectives, hs', by omega⟩
    · exact absurd hdirectives hcut
  · unfold Call.AtDirective
    rw [hnext]
    exact ⟨s, hdirectives, hs, hstop⟩

/-- Every string that is printed while the cursor is in the format string ends. -/
def StringsEnd (mem : ByteMem) (va : Nat → Nat) (fmt stop : Nat) : Prop :=
  ∀ c, Reached mem va fmt c → c.p ≤ stop → ∀ str i, c.place = .puts str i →
    ∃ j, mem (str + j) = 0

/-- From one test to the next. -/
theorem Reached.nextTest (hstrings : StringsEnd mem va fmt stop) (h : Reached mem va fmt c)
    (hplace : c.place = .test) (hbyte : mem c.p ≠ 0) (hp : c.p < stop) :
    ∃ c', Reached mem va fmt c' ∧ c'.place = .test ∧ c'.p = c.p + directiveLength mem c.p := by
  have hround := h.round hplace hbyte
  rcases Call.round_next mem va c with ⟨hnext, htest | ⟨str, hputs, hcursor⟩⟩
  · exact ⟨_, hround, htest, (Call.next_of_test htest).symm.trans hnext⟩
  · have hinside : (c.round mem va).p ≤ stop := by
      rw [hcursor]
      exact hp
    rcases hstrings _ hround hinside str 0 hputs with ⟨j, hj⟩
    rw [← Nat.zero_add j] at hj
    rcases hround.puts hputs hj with ⟨c', hreached, htest, hp'⟩
    exact ⟨c', hreached, htest, hp'.trans hnext⟩

/-- **Where the loop gets**: to the terminator if the rest of the string is made of
whole directives, and otherwise to the byte behind it. -/
theorem Reached.end_cases (hstrings : StringsEnd mem va fmt stop) (h : Reached mem va fmt c)
    (hplace : c.place = .test) (hs : CString mem c.p s) (hstop : c.p + s.length = stop) :
    ∃ c', Reached mem va fmt c' ∧ c'.place = .test ∧
      (Directives s ∧ c'.p = stop ∨ ¬Directives s ∧ c'.p = stop + 1) := by
  induction hn : s.length using Nat.strong_induction_on generalizing c s with
  | _ n ih =>
    by_cases hbyte : mem c.p = 0
    · cases s with
      | nil => exact ⟨c, h, hplace, Or.inl ⟨.nil, hstop⟩⟩
      | cons a s => exact absurd (hs.1.symm.trans hbyte) hs.2.1
    have hpos : 0 < directiveLength mem c.p := by
      unfold directiveLength
      split
      · decide
      · split <;> decide
    have hp : c.p < stop := by
      cases s with
      | nil => exact absurd hs hbyte
      | cons a s =>
        rw [List.length_cons] at hstop
        omega
    rcases h.nextTest hstrings hplace hbyte hp with ⟨c', h', hplace', hp'⟩
    rcases hs.firstDirective hbyte with ⟨s', hs', hlength, hiff⟩ | ⟨hlength, hcut⟩
    · rw [← hp'] at hs'
      rw [hiff]
      exact ih s'.length (by omega) h' hplace' hs' (by omega) rfl
    · exact ⟨c', h', hplace', Or.inr ⟨hcut, by omega⟩⟩

end Steps

/-- **The cursor stays in the format string**, and the loop stops at its
terminator, exactly if the string is made of whole directives: no `%` and no `%l`
is cut off by the end of the string.  The arguments are arbitrary, except that the
strings among them end. -/
theorem kprintf_stays_inside_iff (mem : ByteMem) (va : Nat → Nat) (fmt : Nat) (s : List UInt8)
    (hs : CString mem fmt s) (hstrings : StringsEnd mem va fmt (fmt + s.length)) :
    StaysInside mem va fmt (fmt + s.length) ↔ Directives s := by
  rcases Reached.end_cases hstrings (c := Call.start fmt) .refl rfl hs rfl with
    ⟨c, hreached, hplace, hcase⟩
  constructor
  · intro h
    rcases hcase with ⟨hdirectives, _⟩ | ⟨_, hp⟩
    · exact hdirectives
    · have hle := h.inside c hreached
      omega
  · intro hdirectives
    constructor
    · intro c' hreached'
      have hat : c'.AtDirective mem (fmt + s.length) :=
        run_invariant (Call.AtDirective mem (fmt + s.length)) (fun _ _ h => h.step) hreached'
          ⟨s, hdirectives, hs, rfl⟩
      rcases hat with ⟨s', _, _, hstop⟩
      have hle := c'.p_le_next
      omega
    · rcases hcase with ⟨_, hp⟩ | ⟨hcut, _⟩
      · have hzero := hs.terminator
        rw [← hp] at hzero
        have hnone : c.step mem va = none := by
          unfold Call.step
          rw [hplace]
          exact if_pos hzero
        exact ⟨c, hreached, hp, hnone⟩
      · exact absurd hdirectives hcut

/-- A memory that holds the bytes at address 1 and zeros behind them. -/
def memoryOf (s : List UInt8) : ByteMem := fun x => s.getD (x - 1) 0

/-- Every string in such a memory ends. -/
theorem stringsEnd_memoryOf (s : List UInt8) (va : Nat → Nat) (fmt stop : Nat) :
    StringsEnd (memoryOf s) va fmt stop := by
  intro c _ _ str i _
  refine ⟨s.length + 1, ?_⟩
  unfold memoryOf
  rw [List.getD_eq_getElem?_getD, List.getElem?_eq_none (by omega)]
  rfl

/-- The format string of `kpanic`, with the message at address 13. -/
def panicText : List UInt8 := text "Reason: %s\n" ++ [0] ++ text "PMM"

theorem panicText_directives : Directives (text "Reason: %s\n") := by
  have hplain : '%'.toUInt8 ∉ text "Reason: " := by decide
  have hend : Directives (text "%s\n") := .short (by decide) (.plain (by decide) .nil)
  exact hend.prepend hplain

/-- The cursor stays in the format string of `kpanic`. -/
theorem kprintf_stays_inside_panic :
    StaysInside (memoryOf panicText) (fun _ => 13) 1 (1 + (text "Reason: %s\n").length) := by
  have hs : CString (memoryOf panicText) 1 (text "Reason: %s\n") := by decide
  exact (kprintf_stays_inside_iff _ _ 1 _ hs (stringsEnd_memoryOf _ _ _ _)).mpr
    panicText_directives

/-- The format strings `100%` and `%l`, whose terminators are at the addresses 5 and 3. -/
theorem kprintf_runs_past_end :
    (CString (memoryOf (text "100%")) 1 (text "100%") ∧
      ∃ c, Reached (memoryOf (text "100%")) (fun _ => 0) 1 c ∧ c.p = 6) ∧
    CString (memoryOf (text "%l")) 1 (text "%l") ∧
      ∃ c, Reached (memoryOf (text "%l")) (fun _ => 0) 1 c ∧ c.p = 4 := by
  have hround : ∀ {t : List UInt8} {c : Call}, Reached (memoryOf t) (fun _ => 0) 1 c →
      c.place = .test → memoryOf t c.p ≠ 0 →
      Reached (memoryOf t) (fun _ => 0) 1 (c.round (memoryOf t) fun _ => 0) := Reached.round
  have hfirst : Reached (memoryOf (text "100%")) (fun _ => 0) 1 ⟨.test, 2, 0, text "1"⟩ :=
    hround .refl rfl (by decide)
  have hsecond : Reached (memoryOf (text "100%")) (fun _ => 0) 1 ⟨.test, 3, 0, text "10"⟩ :=
    hround hfirst rfl (by decide)
  have hthird : Reached (memoryOf (text "100%")) (fun _ => 0) 1 ⟨.test, 4, 0, text "100"⟩ :=
    hround hsecond rfl (by decide)
  refine ⟨⟨by decide, _, hround hthird rfl (by decide), by decide⟩, by decide, _,
    hround .refl rfl (by decide), by decide⟩

end FarouKernel.Ports.Kprintf
