import Mathlib.Logic.Relation

/-!
# Runs of a step relation

A system is a step relation on its states; a run is a path of steps, Mathlib's
`Relation.ReflTransGen`.  Safety is proved by one rule: what every step
preserves holds at the end of every run that starts with it.  Where the steps are
calls that may fail, the rule also says that none of them does.
-/

namespace FarouKernel.Verified

open Relation

variable {σ : Type} {step : σ → σ → Prop} {s t : σ}

/-- **The invariant rule.** -/
theorem run_invariant (P : σ → Prop) (hstep : ∀ s t, P s → step s t → P t)
    (hrun : ReflTransGen step s t) (hs : P s) : P t := by
  induction hrun with
  | refl => exact hs
  | tail _ hlast ih => exact hstep _ _ ih hlast

/-- **The invariant rule for calls.** -/
theorem calls_invariant {κ : Type} {call : σ → κ → Option σ} (P : σ → Prop) {calls : List κ}
    (hcall : ∀ s, ∀ a ∈ calls, P s → ∃ t, call s a = some t ∧ P t) (hs : P s) :
    ∃ t, calls.foldlM call s = some t ∧ P t := by
  induction calls generalizing s with
  | nil => exact ⟨s, rfl, hs⟩
  | cons a calls ih =>
    obtain ⟨u, hu, hP⟩ := hcall s a List.mem_cons_self hs
    obtain ⟨t, ht, hQ⟩ := ih (fun v b hb => hcall v b (List.mem_cons_of_mem a hb)) hP
    refine ⟨t, ?_, hQ⟩
    rw [List.foldlM_cons, hu]
    exact ht

end FarouKernel.Verified
