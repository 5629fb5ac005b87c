import Mathlib.Data.List.Sort
import Mathlib.Order.Defs.LinearOrder
import Mathlib.Tactic.Common

/-!
# Heaps in vectors

A vector is a heap if no element is above its parent, the element at place
`(i - 1) / 2`.

`HeapAlgorithms` collects what the C++ standard says of `std::make_heap` and
`std::pop_heap`; it leaves the order of the other elements open, so a result about
every `HeapAlgorithms` is one about every implementation of the two.
-/

namespace FarouKernel.Verified

variable {α : Type} [LinearOrder α]

/-- No element is above its parent. -/
def IsHeap (v : List α) : Prop :=
  ∀ i < v.length, ∀ parent ∈ v[(i - 1) / 2]?, ∀ x ∈ v[i]?, x ≤ parent

instance (v : List α) : Decidable (IsHeap v) :=
  inferInstanceAs (Decidable (∀ i < v.length, ∀ parent ∈ v[(i - 1) / 2]?, ∀ x ∈ v[i]?, x ≤ parent))

/-- A vector in descending order is a heap. -/
theorem isHeap_of_sorted {v : List α} (h : v.Pairwise (· ≥ ·)) : IsHeap v := by
  intro i hi parent hparent x hx
  obtain ⟨hp, rfl⟩ := List.getElem?_eq_some_iff.mp hparent
  obtain ⟨_, rfl⟩ := List.getElem?_eq_some_iff.mp hx
  by_cases heq : (i - 1) / 2 = i
  · simp only [heq, le_refl]
  · exact List.pairwise_iff_getElem.mp h _ _ hp hi (by omega)

/-- `std::make_heap` and `std::pop_heap` on a whole vector. -/
structure HeapAlgorithms (α : Type) [LinearOrder α] where
  makeHeap : List α → List α
  popHeap : List α → List α
  makeHeap_perm : ∀ v, (makeHeap v).Perm v
  makeHeap_isHeap : ∀ v, IsHeap (makeHeap v)
  /-- The first element changes places with the last one, and those before it are made
  a heap again. -/
  popHeap_eq : ∀ top rest, IsHeap (top :: rest) →
    ∃ heap, popHeap (top :: rest) = heap ++ [top] ∧ heap.Perm rest ∧ IsHeap heap

/-- The algorithms that sort. -/
def HeapAlgorithms.sorting : HeapAlgorithms α where
  makeHeap v := v.insertionSort (· ≥ ·)
  popHeap
    | [] => []
    | top :: rest => rest.insertionSort (· ≥ ·) ++ [top]
  makeHeap_perm v := List.perm_insertionSort _ v
  makeHeap_isHeap v := isHeap_of_sorted (List.pairwise_insertionSort _ v)
  popHeap_eq _ rest _ :=
    ⟨_, rfl, List.perm_insertionSort _ rest, isHeap_of_sorted (List.pairwise_insertionSort _ rest)⟩

end FarouKernel.Verified
