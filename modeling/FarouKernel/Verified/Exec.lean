import Mathlib.Order.Defs.Unbundled
import Mathlib.Tactic.Common

/-!
# Execution of imperative code with panics and bounded loops

Kernel code reads and writes one state record, may stop the machine with a
panic, and runs loops whose length the code itself never bounds.  `Exec σ α`
is the shallow embedding of such code: a function from the state to an
`Outcome`.

* `Outcome.ok` — the code returned a value in a new state.
* `Outcome.panic` — the code stopped; the state is the one it stopped in, so
  a statement can still say what the failing call had changed.
* `Outcome.exhausted` — a loop used up the fuel it was given.  No theorem may
  treat this as a return: a claim that code returns has to exhibit `ok` for
  every large enough fuel.

The simp set below runs a `do` block one command at a time.  A caller cites
the run equation of each callee and never unfolds the callee itself.  The
equations stand as proved facts and not as definitional ones (`(rfl)`): a chain
of definitional steps would be checked as a single one, by evaluating the code.
-/

namespace FarouKernel.Verified

/-- What a run of imperative code over the state `σ` ends in. -/
inductive Outcome (σ α : Type) where
  | ok (value : α) (state : σ)
  | panic (msg : String) (state : σ)
  | exhausted (state : σ)

/-- Imperative code over the state `σ` that computes an `α`. -/
def Exec (σ α : Type) : Type := σ → Outcome σ α

namespace Outcome

variable {σ α β : Type}

/-- Continue a run after it returned; a stopped run stays stopped. -/
def andThen (o : Outcome σ α) (f : α → Exec σ β) : Outcome σ β :=
  match o with
  | ok a s => f a s
  | panic msg s => panic msg s
  | exhausted s => exhausted s

@[simp] theorem andThen_ok (a : α) (s : σ) (f : α → Exec σ β) :
    (ok a s).andThen f = f a s := (rfl)

@[simp] theorem andThen_panic (msg : String) (s : σ) (f : α → Exec σ β) :
    (panic msg s : Outcome σ α).andThen f = panic msg s := (rfl)

@[simp] theorem andThen_exhausted (s : σ) (f : α → Exec σ β) :
    (exhausted s : Outcome σ α).andThen f = exhausted s := (rfl)

/-- A composed run returns exactly when both halves return. -/
theorem andThen_eq_ok_iff {o : Outcome σ α} {f : α → Exec σ β} {b : β} {s : σ} :
    o.andThen f = ok b s ↔ ∃ a s1, o = ok a s1 ∧ f a s1 = ok b s := by
  cases o with
  | ok a s1 => simp
  | panic msg s1 => simp
  | exhausted s1 => simp

/-- A test of the value and the state a run returned. -/
def test (p : α → σ → Bool) : Outcome σ α → Bool
  | ok a s => p a s
  | _ => false

/-- A test that succeeds exhibits the return of the run. -/
theorem exists_of_test {p : α → σ → Bool} {o : Outcome σ α} (h : o.test p = true) :
    ∃ a s, o = ok a s ∧ p a s = true := by
  cases o with
  | ok a s => exact ⟨a, s, rfl, h⟩
  | panic msg s => exact Bool.noConfusion h
  | exhausted s => exact Bool.noConfusion h

end Outcome

namespace Exec

variable {σ α β : Type}

instance : Monad (Exec σ) where
  pure a := fun s => .ok a s
  bind x f := fun s => (x s).andThen f

/-- Read the whole state. -/
def get : Exec σ σ := fun s => .ok s s

/-- Read one component of the state. -/
def gets (f : σ → α) : Exec σ α := fun s => .ok (f s) s

/-- Update the state. -/
def modify (f : σ → σ) : Exec σ Unit := fun s => .ok () (f s)

/-- Stop the machine. -/
def stop (msg : String) : Exec σ α := fun s => .panic msg s

/-- Report that a loop used up its fuel. -/
def exhaust : Exec σ α := fun s => .exhausted s

/-- Go on if the condition holds, stop the machine otherwise. -/
def require (c : Prop) [Decidable c] (msg : String) : Exec σ Unit :=
  if c then pure () else stop msg

@[simp] theorem pure_apply (a : α) (s : σ) : (pure a : Exec σ α) s = .ok a s := (rfl)

@[simp] theorem bind_apply (x : Exec σ α) (f : α → Exec σ β) (s : σ) :
    (x >>= f) s = (x s).andThen f := (rfl)

@[simp] theorem get_apply (s : σ) : (get : Exec σ σ) s = .ok s s := (rfl)

@[simp] theorem gets_apply (f : σ → α) (s : σ) : gets f s = .ok (f s) s := (rfl)

@[simp] theorem modify_apply (f : σ → σ) (s : σ) : modify f s = .ok () (f s) := (rfl)

@[simp] theorem stop_apply (msg : String) (s : σ) :
    (stop msg : Exec σ α) s = .panic msg s := rfl

@[simp] theorem exhaust_apply (s : σ) : (exhaust : Exec σ α) s = .exhausted s := rfl

theorem require_apply (c : Prop) [Decidable c] (msg : String) (s : σ) :
    require c msg s = if c then .ok () s else .panic msg s := by
  unfold require
  split <;> rfl

@[simp] theorem require_of (c : Prop) [Decidable c] (msg : String) (s : σ) (h : c) :
    require c msg s = .ok () s := by
  rw [require_apply, if_pos h]

@[simp] theorem require_of_not (c : Prop) [Decidable c] (msg : String) (s : σ)
    (h : ¬c) : require c msg s = .panic msg s := by
  rw [require_apply, if_neg h]

@[simp] theorem ite_run (c : Prop) [Decidable c] (x y : Exec σ α) (s : σ) :
    (if c then x else y) s = if c then x s else y s := by
  split <;> rfl

/-! ## What a command leaves alone

`Within R x` bounds the effect of `x` without running it: the state a returning
run ends in is related by `R` to the one it started in.  For a preorder `R` the
bound composes along the code. -/

/-- Every returning run of `x` relates its first state to its last by `R`. -/
def Within (R : σ → σ → Prop) (x : Exec σ α) : Prop :=
  ∀ s a s', x s = .ok a s' → R s s'

namespace Within

variable {R S : σ → σ → Prop}

theorem mono {x : Exec σ α} (h : Within R x) (hRS : ∀ s s', R s s' → S s s') : Within S x :=
  fun s a s' hrun => hRS s s' (h s a s' hrun)

theorem exhaust : Within R (Exec.exhaust : Exec σ α) := by
  intro s a s' h
  simp at h

theorem modify {f : σ → σ} (hf : ∀ s, R s (f s)) : Within R (Exec.modify f) := by
  intro s a s' h
  simp only [modify_apply, Outcome.ok.injEq] at h
  exact h.2 ▸ hf s

theorem ite {c : Prop} [Decidable c] {x y : Exec σ α} (hx : Within R x) (hy : Within R y) :
    Within R (if c then x else y) := by
  by_cases hc : c
  · rwa [if_pos hc]
  · rwa [if_neg hc]

theorem bind [IsTrans σ R] {x : Exec σ α} {f : α → Exec σ β} (hx : Within R x)
    (hf : ∀ a, Within R (f a)) : Within R (x >>= f) := by
  intro s b s' h
  rw [bind_apply, Outcome.andThen_eq_ok_iff] at h
  obtain ⟨a, s1, hrun1, hrun2⟩ := h
  exact IsTrans.trans _ _ _ (hx s a s1 hrun1) (hf a s1 b s' hrun2)

variable [Std.Refl R]

theorem pure (a : α) : Within R (Pure.pure a : Exec σ α) := by
  intro s b s' h
  simp only [pure_apply, Outcome.ok.injEq] at h
  exact h.2 ▸ refl_of R s

theorem gets (f : σ → α) : Within R (Exec.gets f) := by
  intro s b s' h
  simp only [gets_apply, Outcome.ok.injEq] at h
  exact h.2 ▸ refl_of R s

theorem get : Within R (Exec.get : Exec σ σ) := gets id

theorem require (c : Prop) [Decidable c] (msg : String) :
    Within R (Exec.require c msg : Exec σ Unit) := by
  intro s b s' h
  by_cases hc : c
  · rw [require_of c msg s hc, Outcome.ok.injEq] at h
    exact h.2 ▸ refl_of R s
  · rw [require_of_not c msg s hc] at h
    cases h

end Within

/-! ## More fuel

`Extends x y` says that `y` returns wherever `x` does, with the same result.  Code
with more fuel extends the code with less. -/

/-- Every returning run of `x` is a run of `y`. -/
def Extends (x y : Exec σ α) : Prop :=
  ∀ s a s', x s = .ok a s' → y s = .ok a s'

namespace Extends

theorem refl (x : Exec σ α) : Extends x x := fun _ _ _ h => h

theorem exhaust (y : Exec σ α) : Extends Exec.exhaust y := by
  intro s a s' h
  simp at h

theorem ite {c : Prop} [Decidable c] {x x' y y' : Exec σ α} (hx : Extends x x')
    (hy : Extends y y') : Extends (if c then x else y) (if c then x' else y') := by
  by_cases hc : c
  · rwa [if_pos hc, if_pos hc]
  · rwa [if_neg hc, if_neg hc]

theorem bind {x y : Exec σ α} {f g : α → Exec σ β} (hx : Extends x y)
    (hf : ∀ a, Extends (f a) (g a)) : Extends (x >>= f) (y >>= g) := by
  intro s b s' h
  rw [bind_apply, Outcome.andThen_eq_ok_iff] at h ⊢
  obtain ⟨a, s1, hrun1, hrun2⟩ := h
  exact ⟨a, s1, hx s a s1 hrun1, hf a s1 b s' hrun2⟩

theorem next {x : Exec σ α} {f g : α → Exec σ β} (hf : ∀ a, Extends (f a) (g a)) :
    Extends (x >>= f) (x >>= g) :=
  (refl x).bind hf

/-- **The rule for a loop with fuel**: a round extends a round if what follows it does. -/
theorem fuel {ι : Type} {L : Nat → ι → Exec σ α} (hzero : ∀ i, L 0 i = Exec.exhaust)
    (hsucc : ∀ f g, f ≤ g → (∀ i, Extends (L f i) (L g i)) →
      ∀ i, Extends (L (f + 1) i) (L (g + 1) i)) {f g : Nat} (h : f ≤ g) :
    ∀ i, Extends (L f i) (L g i) := by
  induction f generalizing g with
  | zero =>
    intro i
    rw [hzero]
    exact exhaust _
  | succ f ih =>
    obtain ⟨g, rfl⟩ : ∃ g', g = g' + 1 := ⟨g - 1, by omega⟩
    exact hsucc f g (by omega) (ih (by omega))

end Extends

end Exec

end FarouKernel.Verified
