import Mathlib.Data.List.Basic
import Mathlib.Logic.Function.Basic
import Mathlib.Logic.Relation
import Mathlib.Order.RelClasses
import Mathlib.Tactic.Common

/-!
# Parent links

Nodes with at most one parent each.  The links are acyclic if every node is reached from
a root in finitely many steps, that is, if the parent relation is well-founded.  Taking a
link away keeps this.  Giving a root a parent keeps it exactly if the new parent is not
below the root.
-/

namespace FarouKernel.Verified

open Relation

variable {N : Type} {parent : N → Option N} {p c : N}

/-- `p` is the parent of `c`. -/
def IsParent (parent : N → Option N) (p c : N) : Prop := parent c = some p

/-- No node is above itself, and there is a root above every node. -/
def Acyclic (parent : N → Option N) : Prop := WellFounded (IsParent parent)

theorem acyclic_of_roots (h : ∀ c, parent c = none) : Acyclic parent :=
  ⟨fun c => ⟨c, fun p hp => by
    rw [IsParent, h c] at hp
    cases hp⟩⟩

theorem Acyclic.not_above_self (h : Acyclic parent) : ¬ TransGen (IsParent parent) c c :=
  fun hcycle => h.transGen.asymmetric c c hcycle hcycle

variable [DecidableEq N]

theorem isParent_update {x : N} {q : Option N} :
    IsParent (Function.update parent c q) p x ↔
      (x = c ∧ q = some p) ∨ (x ≠ c ∧ IsParent parent p x) := by
  by_cases hx : x = c <;> simp [IsParent, hx]

/-- Without a link. -/
theorem Acyclic.unlink (h : Acyclic parent) (c : N) : Acyclic (Function.update parent c none) := by
  refine Subrelation.wf (fun {p x} hp => ?_) h
  rw [isParent_update] at hp
  exact (hp.resolve_left (by simp)).2

/-- The nodes above `p` when `c`, which is not above it, gets another parent. -/
theorem acc_update_of_not_above {q : Option N} (h : Acyclic parent)
    (hnot : ¬ ReflTransGen (IsParent parent) c p) :
    Acc (IsParent (Function.update parent c q)) p := by
  induction p using h.induction with
  | _ p ih =>
    constructor
    intro x hx
    have hpc : p ≠ c := by
      intro heq
      exact hnot (heq ▸ .refl)
    have hold := ((isParent_update.mp hx).resolve_left (fun hleft => hpc hleft.1)).2
    exact ih x hold fun habove => hnot (habove.tail hold)

/-- **Linking a root.** -/
theorem acyclic_link_iff (h : Acyclic parent) (hroot : parent c = none) :
    Acyclic (Function.update parent c (some p)) ↔ ¬ ReflTransGen (IsParent parent) c p := by
  constructor
  · intro hnew habove
    -- The way from `c` down to `p` does not enter `c`, so it is there after the update.
    have hkept : ReflTransGen (IsParent (Function.update parent c (some p))) c p := by
      refine ReflTransGen.mono (fun a b hab => ?_) c p habove
      have hb : b ≠ c := by
        rintro rfl
        rw [IsParent, hroot] at hab
        cases hab
      exact isParent_update.mpr (Or.inr ⟨hb, hab⟩)
    have hlink : IsParent (Function.update parent c (some p)) p c :=
      isParent_update.mpr (Or.inl ⟨rfl, rfl⟩)
    exact hnew.not_above_self (TransGen.tail' hkept hlink)
  · intro hnot
    have hp := acc_update_of_not_above (q := some p) h hnot
    constructor
    intro x
    induction x using h.induction with
    | _ x ih =>
      constructor
      intro y hy
      obtain ⟨-, hq⟩ | ⟨-, hold⟩ := isParent_update.mp hy
      · exact (Option.some.inj hq) ▸ hp
      · exact ih y hold

end FarouKernel.Verified
