import FarouKernel.Verified.HeapOrder
import Mathlib.Data.Multiset.AddSub

/-!
# `mm/heap.h`: the heap

A translation of `Heap`.  The two library algorithms it calls are given from outside,
by what the standard says of them.  `std::pop_heap` is undefined on an empty vector and
on one that is not a heap; the result of `removeTop` is then `none`.

`removeTop` calls `std::pop_heap`, which moves the greatest element to the back of the
vector, and neither returns that element nor takes it out: it returns the greatest of
the others, and the vector keeps all its elements.
-/

namespace FarouKernel.Ports.HeapQueue

open Verified

/-- `Heap`; its only member is `_data`. -/
structure Heap where
  data : List Int
deriving DecidableEq

namespace Heap

variable (lib : HeapAlgorithms Int)

def insert (h : Heap) (value : Int) : Heap := ⟨lib.makeHeap (h.data ++ [value])⟩

/-- `removeTop`. -/
def removeTop (h : Heap) : Option (Int × Heap) :=
  if h.data ≠ [] ∧ IsHeap h.data then
    (lib.popHeap h.data).head?.map fun front => (front, ⟨lib.popHeap h.data⟩)
  else none

end Heap

/-- A call on a heap. -/
inductive Call where
  | insert (value : Int)
  | removeTop
deriving DecidableEq

/-- The heap serves the calls as a queue of the elements `elems` by priority does: a call
of `removeTop` returns a greatest element and takes this one element out. -/
def MaxQueue (lib : HeapAlgorithms Int) : Heap → Multiset Int → List Call → Prop
  | _, _, [] => True
  | h, elems, .insert value :: calls => MaxQueue lib (h.insert lib value) (value ::ₘ elems) calls
  | h, elems, .removeTop :: calls =>
    ∃ top h', h.removeTop lib = some (top, h') ∧ top ∈ elems ∧ (∀ x ∈ elems, x ≤ top) ∧
      (h'.data : Multiset Int) = elems.erase top ∧ MaxQueue lib h' (elems.erase top) calls

variable {lib : HeapAlgorithms Int}

/-! ## One call -/

@[simp] theorem coe_insert_data (h : Heap) (value : Int) :
    ((h.insert lib value).data : Multiset Int) = value ::ₘ (h.data : Multiset Int) := by
  rw [Heap.insert, Multiset.cons_coe, Multiset.coe_eq_coe]
  exact (lib.makeHeap_perm _).trans (List.perm_append_singleton value h.data)

/-- **Nothing is taken out**: after `removeTop` the vector has the elements it had. -/
theorem perm_of_removeTop {h h' : Heap} {front : Int}
    (hcall : h.removeTop lib = some (front, h')) : h'.data.Perm h.data := by
  rw [Heap.removeTop] at hcall
  split at hcall
  case isFalse => cases hcall
  case isTrue hpre =>
      cases hdata : h.data with
      | nil => exact absurd hdata hpre.1
      | cons top rest =>
        rw [hdata] at hpre hcall
        obtain ⟨heap, hpop, hperm, -⟩ := lib.popHeap_eq top rest hpre.2
        obtain ⟨y, -, hy⟩ := Option.map_eq_some_iff.mp hcall
        rw [← (Prod.mk.inj hy).2, hpop]
        exact (List.perm_append_singleton top _).trans (hperm.cons top)

/-! ## Sequences of calls -/

/-- A sequence without `removeTop` is served. -/
theorem maxQueue_of_not_mem {h : Heap} {elems : Multiset Int} {calls : List Call}
    (hcalls : Call.removeTop ∉ calls) : MaxQueue lib h elems calls := by
  induction calls generalizing h elems with
  | nil => trivial
  | cons call calls ih =>
    rw [List.mem_cons, not_or] at hcalls
    cases call with
    | insert value => exact ih hcalls.2
    | removeTop => exact absurd rfl hcalls.1

/-- The first call of `removeTop` is served wrongly: the vector keeps its size. -/
theorem not_mem_of_maxQueue {h : Heap} {elems : Multiset Int} {calls : List Call}
    (hdata : (h.data : Multiset Int) = elems) (hserved : MaxQueue lib h elems calls) :
    Call.removeTop ∉ calls := by
  induction calls generalizing h elems with
  | nil => exact List.not_mem_nil
  | cons call calls ih =>
    cases call with
    | insert value =>
      have hrest := ih (by rw [coe_insert_data, hdata]) hserved
      simpa using hrest
    | removeTop =>
      obtain ⟨top, h', hcall, htop, -, hkept, -⟩ := hserved
      have hsame : (h'.data : Multiset Int) = elems := by
        rw [← hdata]
        exact Multiset.coe_eq_coe.mpr (perm_of_removeTop hcall)
      have hsmaller := Multiset.card_erase_lt_of_mem htop
      rw [← hkept, hsame] at hsmaller
      exact absurd hsmaller (lt_irrefl _)

/-- **The queue.**  For every initial list, a sequence of calls is served as by a queue
with priorities exactly if it does not call `removeTop`. -/
theorem maxQueue_iff (lib : HeapAlgorithms Int) (list : List Int) (calls : List Call) :
    MaxQueue lib ⟨list⟩ list calls ↔ Call.removeTop ∉ calls :=
  ⟨not_mem_of_maxQueue rfl, maxQueue_of_not_mem⟩

/-- The calls of `main`: `removeTop` returns 5, and the vector keeps its six elements. -/
theorem main_not_maxQueue :
    ((Heap.mk [1, 2, 3, 4, 5]).insert .sorting 6).removeTop .sorting =
        some (5, ⟨[5, 4, 3, 2, 1, 6]⟩) ∧
      ¬ MaxQueue .sorting ⟨[1, 2, 3, 4, 5]⟩ ([1, 2, 3, 4, 5] : List Int)
        [.insert 6, .removeTop] := by
  refine ⟨by decide, fun hserved => ?_⟩
  exact not_mem_of_maxQueue rfl hserved (by decide)

end FarouKernel.Ports.HeapQueue
