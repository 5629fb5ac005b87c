import Mathlib.Data.List.Nodup
import Mathlib.Logic.Function.Basic
import Mathlib.Tactic.Common

/-!
# Singly linked lists threaded through a store

A linked list in memory is a pointer and a successor function.  `Chain null
next p xs` says that following `next` from `p` visits exactly the nodes `xs`,
in order, and then reaches `null`; a cyclic list satisfies it for no `xs`.

Code edits such a list one successor at a time, so one lemma carries every
edit: `Chain.relink` replaces everything behind a node by another chain.
Insertion, removal from the middle and appending at the tail are instances.

A free list is used as a set of nodes; `Visits` forgets their order, and its
lemmas say what taking off and putting back the first node does to the set.
-/

namespace FarouKernel.Verified

variable {P : Type}

/-- Following `next` from `p` visits exactly `xs` and then reaches `null`. -/
def Chain (null : P) (next : P → P) : P → List P → Prop
  | p, [] => p = null
  | p, x :: xs => p = x ∧ x ≠ null ∧ Chain null next (next x) xs

variable {p a x b : P} {xs ys zs : List P}

namespace Chain

variable {null : P} {next next' : P → P}

@[simp] theorem nil_iff : Chain null next p [] ↔ p = null := Iff.rfl

@[simp] theorem cons_iff :
    Chain null next p (x :: xs) ↔ p = x ∧ x ≠ null ∧ Chain null next (next x) xs :=
  Iff.rfl

/-- A chain reads only the successors of its own nodes. -/
theorem congr (h : Chain null next p xs) (heq : ∀ x ∈ xs, next' x = next x) :
    Chain null next' p xs := by
  induction xs generalizing p with
  | nil => exact h
  | cons x xs ih =>
    obtain ⟨hp, hx, htail⟩ := h
    refine ⟨hp, hx, ?_⟩
    rw [heq x List.mem_cons_self]
    exact ih htail fun y hy => heq y (List.mem_cons_of_mem x hy)

theorem ne_null (h : Chain null next p xs) (hx : x ∈ xs) : x ≠ null := by
  induction xs generalizing p with
  | nil => simp at hx
  | cons y ys ih =>
    obtain ⟨_, hy, htail⟩ := h
    rcases List.mem_cons.mp hx with rfl | hmem
    · exact hy
    · exact ih htail hmem

/-- The nodes visited are determined by the pointer and the successors. -/
theorem unique (hx : Chain null next p xs) (hy : Chain null next p ys) : xs = ys := by
  induction xs generalizing p ys with
  | nil =>
    cases ys with
    | nil => rfl
    | cons y ys =>
      have hp : p = null := hx
      exact absurd (hy.1.symm.trans hp) hy.2.1
  | cons x xs ih =>
    cases ys with
    | nil =>
      have hp : p = null := hy
      exact absurd (hx.1.symm.trans hp) hx.2.1
    | cons y ys =>
      have hxy : x = y := hx.1.symm.trans hy.1
      subst hxy
      rw [ih hx.2.2 hy.2.2]

/-- The pointer is null exactly if no node is visited. -/
theorem eq_null_iff (h : Chain null next p xs) : p = null ↔ xs = [] := by
  constructor
  · exact fun hp => h.unique (nil_iff.mpr hp)
  · rintro rfl
    exact h

/-- The chain behind an inner node. -/
theorem tail_of_append (h : Chain null next p (xs ++ a :: ys)) : Chain null next (next a) ys := by
  induction xs generalizing p with
  | nil => exact h.2.2
  | cons x xs ih => exact ih h.2.2

/-- A chain visits no node twice: what follows a node is determined by it. -/
theorem nodup (h : Chain null next p xs) : xs.Nodup := by
  induction xs generalizing p with
  | nil => exact List.nodup_nil
  | cons x xs ih =>
    refine List.nodup_cons.mpr ⟨?_, ih h.2.2⟩
    intro hx
    obtain ⟨as, bs, hxs⟩ := List.append_of_mem hx
    have hbehind : Chain null next (next x) bs := tail_of_append (hxs ▸ h.2.2)
    have hlength := congrArg List.length ((hbehind.unique h.2.2).trans hxs)
    rw [List.length_append, List.length_cons] at hlength
    omega

/-- Two nodes of a chain have no common successor. -/
theorem next_inj (h : Chain null next p xs) (ha : a ∈ xs) (hb : b ∈ xs) (heq : next a = next b) :
    a = b := by
  obtain ⟨as, as', hxs⟩ := List.append_of_mem ha
  obtain ⟨bs, bs', hxs'⟩ := List.append_of_mem hb
  have hbehind : Chain null next (next a) as' := tail_of_append (hxs ▸ h)
  have hbehind' : Chain null next (next a) bs' := heq ▸ tail_of_append (hxs' ▸ h)
  have hsuffix := hbehind.unique hbehind'
  subst hsuffix
  have hsplit : as ++ [a] ++ as' = bs ++ [b] ++ as' := by
    rw [List.append_assoc, List.append_assoc]
    exact hxs.symm.trans hxs'
  have hlast := (List.append_inj' (List.append_cancel_right hsplit) rfl).2
  exact List.singleton_inj.mp hlast

/-- A chain over other successors goes the same way as long as these agree. -/
theorem same_start (h : Chain null next p (xs ++ a :: ys)) (heq : ∀ x ∈ xs, next' x = next x)
    (hzs : Chain null next' p zs) : ∃ zs', zs = xs ++ a :: zs' := by
  induction xs generalizing p zs with
  | nil =>
    cases zs with
    | nil => exact absurd (h.1.symm.trans hzs) h.2.1
    | cons z zs => exact ⟨zs, by rw [← hzs.1, h.1]; rfl⟩
  | cons x xs ih =>
    cases zs with
    | nil => exact absurd (h.1.symm.trans hzs) h.2.1
    | cons z zs =>
      obtain ⟨rfl, hz, htail⟩ := hzs
      have hx : p = x := h.1
      subst hx
      rw [heq p List.mem_cons_self] at htail
      obtain ⟨zs', rfl⟩ := ih h.2.2 (fun y hy => heq y (List.mem_cons_of_mem p hy)) htail
      exact ⟨zs', rfl⟩

/-- The pointer to a chain is null or one of its nodes. -/
theorem null_or_mem (h : Chain null next p xs) : p = null ∨ p ∈ xs := by
  cases xs with
  | nil => exact Or.inl h
  | cons x xs =>
    rw [h.1]
    exact Or.inr List.mem_cons_self

section

variable (h : Chain null next p (xs ++ a :: ys))

include h

/-- What follows a node before the last is on the chain. -/
theorem next_mem (hx : x ∈ xs) :
    next x ∈ xs ++ a :: ys := by
  induction xs generalizing p with
  | nil => simp at hx
  | cons y xs ih =>
    rcases List.mem_cons.mp hx with rfl | hx
    · have hnull : next x ≠ null := by
        intro heq
        have hnil := h.2.2.unique (nil_iff.mpr heq)
        simp at hnil
      exact List.mem_cons_of_mem x (h.2.2.null_or_mem.resolve_left hnull)
    · exact List.mem_cons_of_mem y (ih h.2.2 hx)

/-- A successor changed so that it leaves `ok` lets no chain stay inside `ok`. -/
theorem not_of_leaves {ok : P → Prop}
    (hxs : ∀ x ∈ xs, next' x = next x ∨ next' x ≠ null ∧ ¬ ok (next' x))
    (ha : next' a ≠ null ∧ ¬ ok (next' a)) (hzs : Chain null next' p zs) : ¬ ∀ z ∈ zs, ok z := by
  intro hok
  -- The node `a`, or one before it whose successor is changed, has no room on the chain.
  have hleaves : ∀ q ws, Chain null next' (next' q) ws → (∀ w ∈ ws, ok w) →
      ¬ (next' q ≠ null ∧ ¬ ok (next' q)) := by
    rintro q ws hws hin ⟨hnull, hout⟩
    exact hout (hin _ (hws.null_or_mem.resolve_left hnull))
  induction xs generalizing p zs with
  | nil =>
    cases zs with
    | nil => exact h.2.1 (h.1.symm.trans hzs)
    | cons z zs =>
      obtain ⟨rfl, hz, htail⟩ := hzs
      have hp : p = a := h.1
      subst hp
      exact hleaves p zs htail (fun w hw => hok w (List.mem_cons_of_mem p hw)) ha
  | cons x xs ih =>
    cases zs with
    | nil => exact h.2.1 (h.1.symm.trans hzs)
    | cons z zs =>
      obtain ⟨rfl, hz, htail⟩ := hzs
      have hp : p = x := h.1
      subst hp
      have hin : ∀ w ∈ zs, ok w := fun w hw => hok w (List.mem_cons_of_mem p hw)
      rcases hxs p List.mem_cons_self with hsame | hout
      · rw [hsame] at htail
        exact ih h.2.2 (fun y hy => hxs y (List.mem_cons_of_mem p hy)) htail hin
      · exact hleaves p zs htail hin hout

/-- Cutting off a suffix and hanging the chain `zs` behind the node `a`. -/
theorem relink (heq : ∀ x ∈ xs, next' x = next x)
    (htail : Chain null next' (next' a) zs) : Chain null next' p (xs ++ a :: zs) := by
  induction xs generalizing p with
  | nil => exact ⟨h.1, h.2.1, htail⟩
  | cons x xs ih =>
    obtain ⟨hp, hx, hrest⟩ := h
    refine ⟨hp, hx, ?_⟩
    rw [heq x List.mem_cons_self]
    exact ih hrest fun y hy => heq y (List.mem_cons_of_mem x hy)

/-- If only the successor of `a` is changed, those before and behind it are kept. -/
theorem kept_around (heq : ∀ x ∈ xs ++ a :: ys, x ≠ a → next' x = next x) :
    (∀ x ∈ xs, next' x = next x) ∧ ∀ x ∈ ys, next' x = next x := by
  have hnodup := List.nodup_append.mp h.nodup
  constructor
  · intro x hx
    exact heq x (List.mem_append_left _ hx) (hnodup.2.2 x hx a List.mem_cons_self)
  · intro x hx
    refine heq x (List.mem_append_right _ (List.mem_cons_of_mem a hx)) ?_
    rintro rfl
    exact (List.nodup_cons.mp hnodup.2.1).1 hx

/-- Putting a node behind the node `a`. -/
theorem insert_behind (hb : b ≠ null) (ha : next' a = b)
    (hlink : next' b = next a) (heq : ∀ x ∈ xs ++ a :: ys, x ≠ a → next' x = next x) :
    Chain null next' p (xs ++ a :: b :: ys) := by
  obtain ⟨hxs, hys⟩ := h.kept_around heq
  exact h.relink hxs ⟨ha, hb, hlink ▸ h.tail_of_append.congr hys⟩

end

/-- Taking off the node behind the node `a`. -/
theorem remove_behind (h : Chain null next p (xs ++ a :: b :: ys)) (hlink : next' a = next b)
    (heq : ∀ x ∈ xs ++ a :: b :: ys, x ≠ a → next' x = next x) :
    Chain null next' p (xs ++ a :: ys) := by
  obtain ⟨hxs, hys⟩ := h.kept_around heq
  refine h.relink hxs (hlink ▸ h.tail_of_append.2.2.congr fun x hx => ?_)
  exact hys x (List.mem_cons_of_mem b hx)

/-- A chain through consecutive numbers. -/
theorem range' {null : Nat} {next : Nat → Nat} {k m : Nat}
    (hnext : ∀ i, k ≤ i → i < k + m → next i = i + 1) (hlast : next (k + m) = null)
    (hnull : ∀ i, i ≤ k + m → i ≠ null) : Chain null next k (List.range' k (m + 1)) := by
  induction m generalizing k with
  | zero => exact ⟨rfl, hnull k (Nat.le_refl k), hlast⟩
  | succ m ih =>
    have hshift : k + 1 + m = k + (m + 1) := by omega
    rw [List.range'_succ]
    refine ⟨rfl, hnull k (by omega), ?_⟩
    rw [hnext k (Nat.le_refl k) (by omega)]
    apply ih
    · intro i hi hi'
      exact hnext i (by omega) (by omega)
    · rw [hshift]
      exact hlast
    · intro i hi
      exact hnull i (by omega)

end Chain

/-! ## A list as a set of nodes -/

/-- The chain from `p` visits exactly the nodes in `F`. -/
def Visits (null : P) (next : P → P) (p : P) (F : P → Prop) : Prop :=
  ∃ xs, Chain null next p xs ∧ ∀ x, x ∈ xs ↔ F x

namespace Visits

variable {null p a : P} {next next' : P → P} {F : P → Prop} (h : Visits null next p F)

include h

theorem of_iff {G : P → Prop} (hiff : ∀ x, F x ↔ G x) :
    Visits null next p G := by
  rcases h with ⟨xs, hchain, hmem⟩
  exact ⟨xs, hchain, fun x => (hmem x).trans (hiff x)⟩

/-- The list is empty exactly if its pointer is null. -/
theorem eq_null_iff : p = null ↔ ∀ x, ¬F x := by
  rcases h with ⟨xs, hchain, hmem⟩
  cases xs with
  | nil => exact iff_of_true hchain fun x hx => List.not_mem_nil ((hmem x).mpr hx)
  | cons x xs =>
    refine iff_of_false ?_ fun hnone => hnone x ((hmem x).mp List.mem_cons_self)
    rw [hchain.1]
    exact hchain.2.1

/-- The nodes outside the list may have any successors. -/
theorem congr (heq : ∀ x, F x → next' x = next x) :
    Visits null next' p F := by
  rcases h with ⟨xs, hchain, hmem⟩
  exact ⟨xs, hchain.congr fun x hx => heq x ((hmem x).mp hx), hmem⟩

/-- Taking the first node off the list. -/
theorem pop (hp : p ≠ null) (heq : ∀ x, x ≠ p → next' x = next x) :
    F p ∧ Visits null next' (next p) fun x => F x ∧ x ≠ p := by
  rcases h with ⟨xs, hchain, hmem⟩
  cases xs with
  | nil => exact absurd hchain hp
  | cons x xs =>
    rcases hchain with ⟨rfl, _, htail⟩
    have hnodup := List.nodup_cons.mp (Chain.nodup ⟨rfl, hp, htail⟩)
    have hne : ∀ y ∈ xs, y ≠ p := fun y hy heq => hnodup.1 (heq ▸ hy)
    refine ⟨(hmem p).mp List.mem_cons_self, xs, ?_, ?_⟩
    · exact htail.congr fun y hy => heq y (hne y hy)
    · intro y
      show y ∈ xs ↔ F y ∧ y ≠ p
      rw [← hmem y, List.mem_cons]
      constructor
      · intro hy
        exact ⟨Or.inr hy, hne y hy⟩
      · intro hy
        exact hy.1.resolve_left hy.2

/-- Putting a node in front of the list. -/
theorem push (ha : a ≠ null) (hF : ¬F a) (hlink : next' a = p)
    (heq : ∀ x, x ≠ a → next' x = next x) : Visits null next' a fun x => F x ∨ x = a := by
  rcases h with ⟨xs, hchain, hmem⟩
  have hne : ∀ y ∈ xs, y ≠ a := fun y hy heq => hF (heq ▸ (hmem y).mp hy)
  refine ⟨a :: xs, ⟨rfl, ha, ?_⟩, ?_⟩
  · rw [hlink]
    exact hchain.congr fun y hy => heq y (hne y hy)
  · intro y
    show y ∈ a :: xs ↔ F y ∨ y = a
    rw [List.mem_cons, hmem y, or_comm]

end Visits

end FarouKernel.Verified
