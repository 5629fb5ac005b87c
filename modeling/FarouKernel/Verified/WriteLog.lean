import Mathlib.Tactic.Common

/-!
# Logs of stores

A memory that is written in pieces and erased as a whole, described by the log
of what was done to it, newest entry first.  `latest` computes the contents from
the log; `latest_cases` says what they are: at every position the value of the
newest store that covers it since the last erasure, and the default if there is
none.
-/

namespace FarouKernel.Verified

variable {ι α : Type}

/-- An entry of the log.  A store is the partial function of the values it puts
at the positions it covers. -/
inductive LogEntry (ι α : Type) where
  | store (values : ι → Option α)
  | erase

/-- The entry neither covers the position nor erases it. -/
def LogEntry.Spares (i : ι) : LogEntry ι α → Prop
  | .store values => values i = none
  | .erase => False

/-- `a` was stored at the position, and nothing newer concerns it. -/
def LastStored (log : List (LogEntry ι α)) (i : ι) (a : α) : Prop :=
  ∃ newer values older, log = newer ++ .store values :: older ∧ values i = some a ∧
    ∀ e ∈ newer, e.Spares i

/-- No store since the last erasure covers the position. -/
def NotStored (log : List (LogEntry ι α)) (i : ι) : Prop :=
  ∀ newer values older, log = newer ++ .store values :: older → .erase ∉ newer → values i = none

/-- The contents the log leaves. -/
def latest (default : α) : List (LogEntry ι α) → ι → α
  | [], _ => default
  | .erase :: _, _ => default
  | .store values :: log, i => (values i).getD (latest default log i)

@[simp] theorem latest_erase (default : α) (log : List (LogEntry ι α)) (i : ι) :
    latest default (.erase :: log) i = default := rfl

theorem latest_store (default : α) (values : ι → Option α) (log : List (LogEntry ι α)) (i : ι) :
    latest default (.store values :: log) i = (values i).getD (latest default log i) := rfl

theorem notStored_nil (i : ι) : NotStored ([] : List (LogEntry ι α)) i := by
  intro newer values older heq
  simp at heq

theorem notStored_erase (log : List (LogEntry ι α)) (i : ι) : NotStored (.erase :: log) i := by
  intro newer values older heq hnot
  cases newer with
  | nil => simp at heq
  | cons e newer =>
    rw [List.cons_append, List.cons.injEq] at heq
    exact absurd (heq.1 ▸ List.mem_cons_self) hnot

section Store

variable {values : ι → Option α} {log : List (LogEntry ι α)} {i : ι}

theorem LastStored.spared {a : α} (h : LastStored log i a) (hnone : values i = none) :
    LastStored (.store values :: log) i a := by
  obtain ⟨newer, values', older, rfl, ha, hspares⟩ := h
  refine ⟨.store values :: newer, values', older, rfl, ha, ?_⟩
  intro e he
  rcases List.mem_cons.mp he with rfl | he
  · exact hnone
  · exact hspares e he

theorem NotStored.spared (h : NotStored log i) (hnone : values i = none) :
    NotStored (.store values :: log) i := by
  intro newer values' older heq hnot
  cases newer with
  | nil =>
    rw [List.nil_append, List.cons.injEq, LogEntry.store.injEq] at heq
    exact heq.1 ▸ hnone
  | cons e newer =>
    rw [List.cons_append, List.cons.injEq] at heq
    exact h newer values' older heq.2 fun hmem => hnot (List.mem_cons_of_mem e hmem)

end Store

/-- **The contents are those of the last writer.** -/
theorem latest_cases (default : α) (log : List (LogEntry ι α)) (i : ι) :
    LastStored log i (latest default log i) ∨
      NotStored log i ∧ latest default log i = default := by
  induction log with
  | nil => exact Or.inr ⟨notStored_nil i, rfl⟩
  | cons e log ih =>
    cases e with
    | erase => exact Or.inr ⟨notStored_erase log i, rfl⟩
    | store values =>
      rw [latest_store]
      cases hvalue : values i with
      | some a =>
        exact Or.inl ⟨[], values, log, rfl, hvalue, fun e he => absurd he (by simp)⟩
      | none =>
        rw [Option.getD_none]
        rcases ih with hstored | ⟨hnot, hdefault⟩
        · exact Or.inl (hstored.spared hvalue)
        · exact Or.inr ⟨hnot.spared hvalue, hdefault⟩

end FarouKernel.Verified
