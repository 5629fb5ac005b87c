import Mathlib.Algebra.Ring.Nat
import Mathlib.Data.List.Basic
import Mathlib.Tactic.Common

/-!
# Tilings of an address range

Allocators keep an address range divided into pieces without gap or overlap.
`Tiles start extent lo xs hi` says that the pieces `xs`, in order, begin at
`lo`, follow each other immediately and end at `hi`; `start` and `extent` read
the first address and the number of addresses off a piece.

Order and disjointness are consequences, so an allocator proof only has to
re-establish the tiling itself: replacing a run of pieces by another run over
the same range is `tiles_append` twice.
-/

namespace FarouKernel.Verified

variable {α : Type} (start extent : α → Nat)

/-- The pieces `xs` follow each other from `lo` to `hi` without gap. -/
def Tiles : Nat → List α → Nat → Prop
  | lo, [], hi => lo = hi
  | lo, x :: xs, hi => start x = lo ∧ Tiles (lo + extent x) xs hi

variable {start extent}

variable {lo hi : Nat} {xs ys : List α} {x y : α}

@[simp] theorem tiles_nil : Tiles start extent lo [] hi ↔ lo = hi := Iff.rfl

@[simp] theorem tiles_cons :
    Tiles start extent lo (x :: xs) hi ↔
      start x = lo ∧ Tiles start extent (lo + extent x) xs hi := Iff.rfl

theorem tiles_append :
    Tiles start extent lo (xs ++ ys) hi ↔
      ∃ mid, Tiles start extent lo xs mid ∧ Tiles start extent mid ys hi := by
  induction xs generalizing lo with
  | nil => simp
  | cons x xs ih =>
    simp only [List.cons_append, tiles_cons, ih]
    constructor
    · rintro ⟨hx, mid, hxs, hys⟩
      exact ⟨mid, ⟨hx, hxs⟩, hys⟩
    · rintro ⟨mid, ⟨hx, hxs⟩, hys⟩
      exact ⟨hx, mid, hxs, hys⟩

section

variable (h : Tiles start extent lo xs hi)

include h

/-- A tiling reads only its own pieces. -/
theorem Tiles.congr {start' extent' : α → Nat} (hstart : ∀ x ∈ xs, start' x = start x)
    (hextent : ∀ x ∈ xs, extent' x = extent x) : Tiles start' extent' lo xs hi := by
  induction xs generalizing lo with
  | nil => exact h
  | cons x xs ih =>
    refine ⟨(hstart x List.mem_cons_self).trans h.1, ?_⟩
    rw [hextent x List.mem_cons_self]
    exact ih h.2 (fun y hy => hstart y (List.mem_cons_of_mem x hy))
      fun y hy => hextent y (List.mem_cons_of_mem x hy)

/-- The pieces cover as many addresses as the range has. -/
theorem Tiles.sum_extent : lo + (xs.map extent).sum = hi := by
  induction xs generalizing lo with
  | nil => exact h
  | cons x xs ih =>
    have htail := ih h.2
    rw [List.map_cons, List.sum_cons]
    omega

theorem Tiles.le : lo ≤ hi := by
  induction xs generalizing lo with
  | nil => exact Nat.le_of_eq h
  | cons x xs ih =>
    have := ih h.2
    omega

/-- Every piece lies inside the range. -/
theorem Tiles.mem_bounds (hx : x ∈ xs) : lo ≤ start x ∧ start x + extent x ≤ hi := by
  induction xs generalizing lo with
  | nil => simp at hx
  | cons y ys ih =>
    obtain ⟨hy, htail⟩ := h
    rcases List.mem_cons.mp hx with rfl | hmem
    · have := htail.le
      omega
    · have := ih htail hmem
      omega

/-- Every address of the range lies in a piece. -/
theorem Tiles.exists_mem {a : Nat} (hlo : lo ≤ a) (hhi : a < hi) :
    ∃ x ∈ xs, start x ≤ a ∧ a < start x + extent x := by
  induction xs generalizing lo with
  | nil =>
    have hend : lo = hi := h
    omega
  | cons x xs ih =>
    obtain ⟨hx, htail⟩ := h
    by_cases hin : a < lo + extent x
    · exact ⟨x, List.mem_cons_self, by omega, by omega⟩
    · obtain ⟨y, hy, hbounds⟩ := ih htail (by omega)
      exact ⟨y, List.mem_cons_of_mem x hy, hbounds⟩

/-- Earlier pieces end before later ones begin. -/
theorem Tiles.pairwise : xs.Pairwise fun x y => start x + extent x ≤ start y := by
  induction xs generalizing lo with
  | nil => exact List.Pairwise.nil
  | cons x xs ih =>
    obtain ⟨hx, htail⟩ := h
    refine List.Pairwise.cons ?_ (ih htail)
    intro y hy
    have := (htail.mem_bounds hy).1
    omega

/-- Two different pieces do not overlap. -/
theorem Tiles.apart (hx : x ∈ xs) (hy : y ∈ xs) (hne : x ≠ y) :
    start x + extent x ≤ start y ∨ start y + extent y ≤ start x := by
  induction xs generalizing lo with
  | nil => simp at hx
  | cons z zs ih =>
    have hpair := List.pairwise_cons.mp h.pairwise
    rcases List.mem_cons.mp hx with rfl | hx'
    · rcases List.mem_cons.mp hy with rfl | hy'
      · exact absurd rfl hne
      · exact Or.inl (hpair.1 y hy')
    · rcases List.mem_cons.mp hy with rfl | hy'
      · exact Or.inr (hpair.1 x hx')
      · exact ih h.2 hx' hy'

end

/-- The pieces before and behind a piece of the tiling do not overlap it. -/
theorem Tiles.around (h : Tiles start extent lo (xs ++ ([x] ++ ys)) hi) (hy : y ∈ xs ++ ys) :
    start y + extent y ≤ start x ∨ start x + extent x ≤ start y := by
  obtain ⟨_, hback, hcross⟩ := List.pairwise_append.mp h.pairwise
  rcases List.mem_append.mp hy with hfront | hbehind
  · exact Or.inl (hcross y hfront x List.mem_cons_self)
  · exact Or.inr ((List.pairwise_cons.mp hback).1 y hbehind)

/-- A run of pieces may be replaced by any other run over the same range. -/
theorem Tiles.splice {zs : List α} (ys ys' : List α)
    (h : Tiles start extent lo (xs ++ (ys ++ zs)) hi)
    (hrun : ∀ a b, Tiles start extent a ys b → Tiles start extent a ys' b) :
    Tiles start extent lo (xs ++ (ys' ++ zs)) hi := by
  obtain ⟨a, hxs, hrest⟩ := tiles_append.mp h
  obtain ⟨b, hys, hzs⟩ := tiles_append.mp hrest
  exact tiles_append.mpr ⟨a, hxs, tiles_append.mpr ⟨b, hrun a b hys, hzs⟩⟩

/-- A piece that takes over the addresses of the one behind it. -/
theorem Tiles.join {extent' : α → Nat} (h : Tiles start extent lo (xs ++ x :: y :: ys) hi)
    (hjoin : extent' x = extent x + extent y) (heq : ∀ z ∈ xs ++ ys, extent' z = extent z) :
    Tiles start extent' lo (xs ++ x :: ys) hi := by
  obtain ⟨mid, hfront, hx, hy, hback⟩ := tiles_append.mp h
  rw [Nat.add_assoc, ← hjoin] at hback
  refine tiles_append.mpr ⟨mid, ?_, hx, ?_⟩
  · exact hfront.congr (fun _ _ => rfl) fun z hz => heq z (List.mem_append_left ys hz)
  · exact hback.congr (fun _ _ => rfl) fun z hz => heq z (List.mem_append_right xs hz)

/-- Pieces of at least `k` addresses each: there are not many of them. -/
theorem Tiles.length_mul_le {k : Nat} (h : Tiles start extent lo xs hi)
    (hk : ∀ x ∈ xs, k ≤ extent x) : lo + xs.length * k ≤ hi := by
  induction xs generalizing lo with
  | nil => simpa using Nat.le_of_eq h
  | cons x xs ih =>
    have hx := hk x List.mem_cons_self
    have htail := ih h.2 fun y hy => hk y (List.mem_cons_of_mem x hy)
    rw [List.length_cons, Nat.succ_mul]
    omega

end FarouKernel.Verified
