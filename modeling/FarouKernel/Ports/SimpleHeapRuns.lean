import Mathlib.Data.List.Perm.Subperm
import FarouKernel.Verified.LinkedList
import FarouKernel.Verified.Tiling
import FarouKernel.Verified.Runs
import FarouKernel.Ports.SimpleHeapModel

/-!
# The blocks of the simple heap

Whatever was allocated and freed before, and in whatever order, the heap is divided into
blocks without gap or overlap: those on the free list and those the callers hold.  A
block is split and never merged, so the division only gets finer, and the free list needs
no order for it: `HeapRep` speaks of the blocks by address and of the list as a chain
through some of them.

`kmalloc` is taken in two parts, the split and the removal from the list, each with a
lemma of its own about that description.
-/

namespace FarouKernel.Ports.SimpleHeap

open Verified ByteMem
open Relation (ReflTransGen)

/-! ## Fields -/

/-- The header at `a` is not touched by going from `m` to `m'`. -/
def HeaderKept (m m' : ByteMem) (a : Nat) : Prop :=
  sizeAt m' a = sizeAt m a ∧ nextAt m' a = nextAt m a

variable {a size v : Nat} {m : ByteMem} {b d : Block}

theorem HeaderKept.trans {m' m'' : ByteMem} (h : HeaderKept m m' a) (h' : HeaderKept m' m'' a) :
    HeaderKept m m'' a :=
  ⟨h'.1.trans h.1, h'.2.trans h.2⟩

/-- Two headers do not overlap. -/
def Apart (a b : Nat) : Prop := a + headerSize ≤ b ∨ b + headerSize ≤ a

theorem headerKept_setSize {b : Nat} (h : Apart a b) : HeaderKept m (setSize b v m) a := by
  unfold Apart headerSize at h
  constructor <;> exact read64_write64_of_disjoint (by omega)

theorem headerKept_setNext {b : Nat} (h : Apart a b) : HeaderKept m (setNext b v m) a := by
  unfold Apart headerSize at h
  constructor <;> exact read64_write64_of_disjoint (by omega)

@[simp] theorem sizeAt_setNext (m : ByteMem) (a v : Nat) :
    sizeAt (setNext a v m) a = sizeAt m a :=
  read64_write64_of_disjoint (by omega)

theorem sizeAt_setSize (hv : v < 2 ^ 64) : sizeAt (setSize a v m) a = v :=
  read64_write64_of_lt hv

theorem nextAt_setNext (hv : v < 2 ^ 64) : nextAt (setNext a v m) a = v :=
  read64_write64_of_lt hv

/-- What splitting a block leaves in memory. -/
theorem splitBlock_spec {b : Nat} (hfit : size + headerSize < sizeAt m b)
    (hend : b + headerSize + size < 2 ^ 64) :
    sizeAt (splitBlock size b m) b = size ∧
      nextAt (splitBlock size b m) b = b + headerSize + size ∧
      sizeAt (splitBlock size b m) (b + headerSize + size) =
        sizeAt m b - size - headerSize ∧
      nextAt (splitBlock size b m) (b + headerSize + size) = nextAt m b ∧
      ∀ a, Apart a b → Apart a (b + headerSize + size) →
        HeaderKept m (splitBlock size b m) a := by
  have hsize : sizeAt m b < 2 ^ 64 := read64_lt m b
  have hnext : nextAt m b < 2 ^ 64 := read64_lt m (b + 8)
  have hrest : sub64 (sub64 (sizeAt m b) size) headerSize = sizeAt m b - size - headerSize := by
    rw [sub64_of_le (by omega) hsize, sub64_of_le (by omega) (by omega)]
  have hnew : Apart b (b + headerSize + size) := Or.inl (by omega)
  have hnew' : Apart (b + headerSize + size) b := Or.inr (by omega)
  -- The four stores, one after the other: two into the new header, two into the old one.
  have h1 : nextAt (setSize (b + headerSize + size) (sizeAt m b - size - headerSize) m) b =
      nextAt m b := (headerKept_setSize hnew).2
  unfold splitBlock
  simp only [hrest, h1]
  refine ⟨?_, ?_, ?_, ?_, ?_⟩
  · rw [sizeAt_setNext, sizeAt_setSize (by omega)]
  · rw [nextAt_setNext hend]
  · rw [(headerKept_setNext hnew').1, (headerKept_setSize hnew').1, sizeAt_setNext,
      sizeAt_setSize (by omega)]
  · rw [(headerKept_setNext hnew').2, (headerKept_setSize hnew').2, nextAt_setNext hnext]
  · intro a hb hn
    exact (((headerKept_setSize hn).trans (headerKept_setNext hn)).trans
      (headerKept_setSize hb)).trans (headerKept_setNext hb)

/-! ## The blocks -/

/-- The heap and the pointers the callers hold, with the sizes they asked for. -/
structure HeapConfig where
  heap : HeapState
  live : Nat → Option Nat

/-- A block: its header stands at `addr` and `size` bytes follow it. -/
structure Block where
  addr : Nat
  size : Nat
  deriving DecidableEq, Repr

namespace Block

/-- The bytes of a block with its header. -/
def extent (b : Block) : Nat := headerSize + b.size

/-- The pointer a caller gets. -/
def ptr (b : Block) : Nat := b.addr + headerSize

end Block

/-- The heap is divided into `blocks`; the free list visits those at `order`, and the
callers hold the others. -/
structure HeapRep (c : HeapConfig) (blocks : List Block) (order : List Nat) : Prop where
  tiles : Tiles Block.addr Block.extent heapStart blocks (heapStart + heapSize)
  sizes : ∀ b ∈ blocks, sizeAt c.heap.mem b.addr = b.size
  aligned : ∀ b ∈ blocks, b.addr % 8 = 0 ∧ b.size % 8 = 0
  chain : Chain 0 (nextAt c.heap.mem) c.heap.freeList order
  listed : ∀ a ∈ order, ∃ b ∈ blocks, b.addr = a
  free_iff : ∀ b ∈ blocks, b.addr ∈ order ↔ c.live b.ptr = none
  held : ∀ p n, c.live p = some n → ∃ b ∈ blocks, b.ptr = p ∧ n ≤ b.size

namespace HeapRep

variable {c : HeapConfig} {blocks : List Block} {order : List Nat}

section

variable (h : HeapRep c blocks order)

include h

theorem bounds (hb : b ∈ blocks) :
    heapStart ≤ b.addr ∧ b.addr + headerSize + b.size ≤ heapStart + heapSize := by
  have hbounds := h.tiles.mem_bounds hb
  unfold Block.extent at hbounds
  omega

theorem addr_lt (hb : b ∈ blocks) : b.addr + headerSize + b.size < 2 ^ 64 := by
  have hbounds := h.bounds hb
  have hlimit : heapStart + heapSize < 2 ^ 64 := by decide
  omega

/-- A block is determined by its address. -/
theorem eq_of_addr (hb : b ∈ blocks) (hd : d ∈ blocks) (haddr : b.addr = d.addr) : b = d := by
  by_contra hne
  have hapart := h.tiles.apart hb hd hne
  unfold Block.extent headerSize at hapart
  omega

/-- Another block ends before a block begins, or begins behind it. -/
theorem apart (hb : b ∈ blocks) (hd : d ∈ blocks) (hne : b.addr ≠ d.addr) :
    b.addr + headerSize + b.size ≤ d.addr ∨ d.addr + headerSize + d.size ≤ b.addr := by
  have hapart := h.tiles.apart hb hd fun heq => hne (heq ▸ rfl)
  unfold Block.extent at hapart
  omega

theorem header_apart (hb : b ∈ blocks) (hd : d ∈ blocks) (hne : b.addr ≠ d.addr) :
    Apart b.addr d.addr :=
  (h.apart hb hd hne).imp (by omega) (by omega)

/-- There are far fewer blocks on the list than the heap has bytes. -/
theorem length_lt : order.length < heapSize := by
  have hcount : heapStart + blocks.length * headerSize ≤ heapStart + heapSize :=
    h.tiles.length_mul_le fun b _ => Nat.le_add_right headerSize b.size
  have hsub : order ⊆ blocks.map Block.addr := by
    intro a ha
    obtain ⟨b, hb, haddr⟩ := h.listed a ha
    exact List.mem_map.mpr ⟨b, hb, haddr⟩
  have hle := (List.subperm_of_subset h.chain.nodup hsub).length_le
  rw [List.length_map] at hle
  unfold headerSize heapSize at *
  omega

/-- A free block is a block with its header on the list. -/
theorem exists_free (ha : a ∈ order) : ∃ b ∈ blocks, b.addr = a ∧ sizeAt c.heap.mem a = b.size := by
  obtain ⟨b, hb, rfl⟩ := h.listed a ha
  exact ⟨b, hb, rfl, h.sizes b hb⟩

/-- A store to bytes that are no header. -/
theorem store {m' : ByteMem} (hkept : ∀ b ∈ blocks, HeaderKept c.heap.mem m' b.addr) :
    HeapRep ⟨{ c.heap with mem := m' }, c.live⟩ blocks order := by
  refine ⟨h.tiles, ?_, h.aligned, ?_, h.listed, h.free_iff, h.held⟩
  · intro b hb
    rw [(hkept b hb).1, h.sizes b hb]
  · refine h.chain.congr fun a ha => ?_
    obtain ⟨b, hb, rfl⟩ := h.listed a ha
    exact (hkept b hb).2

end

/-! ### Splitting a block -/

/-- The front of a block that is split behind `size` bytes. -/
def front (b : Block) (size : Nat) : Block := ⟨b.addr, size⟩

/-- The rest of a block that is split behind `size` bytes. -/
def rest (b : Block) (size : Nat) : Block :=
  ⟨b.addr + headerSize + size, b.size - size - headerSize⟩

section Split

variable {pre post : List Block} {xs ys : List Nat}

theorem mem_whole : d ∈ pre ++ ([b] ++ post) ↔ d = b ∨ d ∈ pre ++ post := by
  simp only [List.mem_append, List.mem_singleton]
  tauto

theorem mem_parts : d ∈ pre ++ ([front b size, rest b size] ++ post) ↔
    d = front b size ∨ d = rest b size ∨ d ∈ pre ++ post := by
  simp only [List.mem_append, List.mem_cons, List.not_mem_nil, or_false]
  tauto

section

variable (h : HeapRep c (pre ++ ([b] ++ post)) order) (hfit : size + headerSize < b.size)

include h hfit

/-- No block begins inside another one. -/
theorem rest_fresh (hd : d ∈ pre ++ ([b] ++ post)) : d.addr ≠ (rest b size).addr := by
  intro heq
  have hb : b ∈ pre ++ ([b] ++ post) := mem_whole.mpr (Or.inl rfl)
  have haddr : d.addr = b.addr + headerSize + size := heq
  by_cases hsame : d.addr = b.addr
  · unfold headerSize at haddr
    omega
  · have hapart := h.apart hd hb hsame
    omega

/-- No caller holds a pointer into another block. -/
theorem rest_not_live : c.live (rest b size).ptr = none := by
  cases hlive : c.live (rest b size).ptr with
  | none => rfl
  | some n =>
    obtain ⟨d, hd, hptr, _⟩ := h.held _ n hlive
    exact absurd (Nat.add_right_cancel hptr) (h.rest_fresh hfit hd)

/-- Splitting does not touch the headers of the other blocks. -/
theorem split_kept (hd : d ∈ pre ++ post) :
    HeaderKept c.heap.mem (splitBlock size b.addr c.heap.mem) d.addr := by
  have hb : b ∈ pre ++ ([b] ++ post) := mem_whole.mpr (Or.inl rfl)
  have hlimit := h.addr_lt hb
  have hspec := splitBlock_spec ((h.sizes b hb).symm ▸ hfit)
    (show b.addr + headerSize + size < 2 ^ 64 by omega)
  have hapart := h.tiles.around hd
  unfold Block.extent at hapart
  exact hspec.2.2.2.2 d.addr (hapart.imp (by omega) (by omega)) (hapart.imp (by omega) (by omega))

end

/-- The list behind a split: the rest of the block follows the block. -/
theorem split_chain (h : HeapRep c (pre ++ ([b] ++ post)) (xs ++ b.addr :: ys))
    (hfit : size + headerSize < b.size) :
    Chain 0 (nextAt (splitBlock size b.addr c.heap.mem)) c.heap.freeList
      (xs ++ b.addr :: (rest b size).addr :: ys) := by
  have hb : b ∈ pre ++ ([b] ++ post) := mem_whole.mpr (Or.inl rfl)
  have hlimit := h.addr_lt hb
  obtain ⟨_, hfront, _, hrest, _⟩ := splitBlock_spec ((h.sizes b hb).symm ▸ hfit)
    (show b.addr + headerSize + size < 2 ^ 64 by omega)
  refine h.chain.insert_behind ?_ hfront hrest fun a ha hne => ?_
  · show b.addr + headerSize + size ≠ 0
    unfold headerSize
    omega
  · -- The other nodes of the list belong to other blocks.
    obtain ⟨d, hd, rfl⟩ := h.listed a ha
    rcases mem_whole.mp hd with rfl | hd
    · exact absurd rfl hne
    · exact (h.split_kept hfit hd).2

theorem mem_order {e f : Nat} : a ∈ xs ++ e :: f :: ys ↔ a = f ∨ a ∈ xs ++ e :: ys := by
  simp only [List.mem_append, List.mem_cons]
  tauto

/-- A block on the list is split: its rest follows it in memory and on the list. -/
theorem split (h : HeapRep c (pre ++ ([b] ++ post)) (xs ++ b.addr :: ys))
    (hfit : size + headerSize < b.size) (hsize : size % 8 = 0) :
    HeapRep ⟨{ c.heap with mem := splitBlock size b.addr c.heap.mem }, c.live⟩
      (pre ++ ([front b size, rest b size] ++ post))
      (xs ++ b.addr :: (rest b size).addr :: ys) := by
  have hb : b ∈ pre ++ ([b] ++ post) := mem_whole.mpr (Or.inl rfl)
  have hlimit := h.addr_lt hb
  obtain ⟨hb1, _, hn1, _, _⟩ := splitBlock_spec ((h.sizes b hb).symm ▸ hfit)
    (show b.addr + headerSize + size < 2 ^ 64 by omega)
  have hlisted : b.addr ∈ xs ++ b.addr :: ys := by simp
  refine ⟨?_, ?_, ?_, h.split_chain hfit, ?_, ?_, ?_⟩
  · refine Tiles.splice [b] [front b size, rest b size] h.tiles fun lo hi htile => ?_
    simp only [front, rest, tiles_cons, tiles_nil, Block.extent] at htile ⊢
    omega
  · intro d hd
    rcases mem_parts.mp hd with rfl | rfl | hold
    · exact hb1
    · exact hn1.trans (congrArg (· - size - headerSize) (h.sizes b hb))
    · exact (h.split_kept hfit hold).1.trans (h.sizes d (mem_whole.mpr (Or.inr hold)))
  · intro d hd
    have halign := h.aligned b hb
    rcases mem_parts.mp hd with rfl | rfl | hold
    · exact ⟨halign.1, hsize⟩
    · unfold rest headerSize
      constructor
      · show (b.addr + 16 + size) % 8 = 0
        omega
      · show (b.size - size - 16) % 8 = 0
        omega
    · exact h.aligned d (mem_whole.mpr (Or.inr hold))
  · intro a ha
    rcases mem_order.mp ha with rfl | hold
    · exact ⟨rest b size, mem_parts.mpr (Or.inr (Or.inl rfl)), rfl⟩
    · obtain ⟨d, hd, rfl⟩ := h.listed a hold
      rcases mem_whole.mp hd with rfl | hd
      · exact ⟨front d size, mem_parts.mpr (Or.inl rfl), rfl⟩
      · exact ⟨d, mem_parts.mpr (Or.inr (Or.inr hd)), rfl⟩
  · intro d hd
    rw [mem_order]
    rcases mem_parts.mp hd with rfl | rfl | hold
    · exact iff_of_true (Or.inr hlisted) ((h.free_iff b hb).mp hlisted)
    · exact iff_of_true (Or.inl rfl) (h.rest_not_live hfit)
    · have hd' : d ∈ pre ++ ([b] ++ post) := mem_whole.mpr (Or.inr hold)
      rw [← h.free_iff d hd']
      exact or_iff_right (h.rest_fresh hfit hd')
  · intro p n hlive
    obtain ⟨d, hd, rfl, hn⟩ := h.held p n hlive
    rcases mem_whole.mp hd with rfl | hd
    · rw [(h.free_iff d hb).mp hlisted] at hlive
      exact absurd hlive (by simp)
    · exact ⟨d, mem_parts.mpr (Or.inr (Or.inr hd)), rfl, hn⟩

end Split

/-! ### Taking a block off the list and putting it back -/

section Unlink

variable {n : Nat} {xs ys : List Nat}

theorem mem_without {e : Nat} : a ∈ xs ++ e :: ys ↔ a = e ∨ a ∈ xs ++ ys := by
  simp only [List.mem_append, List.mem_cons]
  tauto

theorem chain_ne (h : HeapRep c blocks (xs ++ b.addr :: ys)) (ha : a ∈ xs ++ ys) : a ≠ b.addr := by
  rintro rfl
  have hnodup := List.nodup_append.mp h.chain.nodup
  rcases List.mem_append.mp ha with hx | hy
  · exact hnodup.2.2 _ hx _ List.mem_cons_self rfl
  · exact (List.nodup_cons.mp hnodup.2.1).1 hy

theorem unlink_first (current : Nat) (s : HeapState) :
    unlink (([] : List Nat).getLastD 0) current s =
      { s with freeList := nextAt s.mem current } := by
  rw [unlink, List.getLastD_nil, if_neg (by simp)]

/-- The list without a block. -/
theorem unlink_chain (h : HeapRep c blocks (xs ++ b.addr :: ys)) :
    Chain 0 (nextAt (unlink (xs.getLastD 0) b.addr c.heap).mem)
      (unlink (xs.getLastD 0) b.addr c.heap).freeList (xs ++ ys) := by
  rcases List.eq_nil_or_concat' xs with rfl | ⟨zs, z, rfl⟩
  · rw [unlink_first]
    exact h.chain.tail_of_append
  · have hz : z ∈ zs ++ [z] ++ b.addr :: ys := by simp
    have hz0 : z ≠ 0 := h.chain.ne_null hz
    obtain ⟨d, hd, rfl⟩ := h.listed z hz
    have hlisted := h.listed
    have hchain := h.chain
    rw [List.append_assoc, List.singleton_append] at hlisted hchain
    simp only [unlink, List.getLastD_concat, if_pos hz0]
    rw [List.append_assoc, List.singleton_append]
    refine hchain.remove_behind (nextAt_setNext (read64_lt _ _)) fun a ha hne => ?_
    obtain ⟨e, he, rfl⟩ := hlisted a ha
    exact (headerKept_setNext (h.header_apart he hd hne)).2

/-- Taking a block off the list changes no size. -/
theorem unlink_size (h : HeapRep c blocks (xs ++ b.addr :: ys)) (hd : d ∈ blocks) :
    sizeAt (unlink (xs.getLastD 0) b.addr c.heap).mem d.addr = sizeAt c.heap.mem d.addr := by
  rcases List.eq_nil_or_concat' xs with rfl | ⟨zs, z, rfl⟩
  · rw [unlink_first]
  · have hz : z ∈ zs ++ [z] ++ b.addr :: ys := by simp
    obtain ⟨e, he, rfl⟩ := h.listed z hz
    simp only [unlink, List.getLastD_concat, if_pos (h.chain.ne_null hz)]
    by_cases hne : d.addr = e.addr
    · rw [hne, sizeAt_setNext]
    · exact (headerKept_setNext (h.header_apart hd he hne)).1

/-- A block is taken off the list and given to a caller. -/
theorem take (h : HeapRep c blocks (xs ++ b.addr :: ys)) (hb : b ∈ blocks) (hn : n ≤ b.size) :
    HeapRep ⟨unlink (xs.getLastD 0) b.addr c.heap, Function.update c.live b.ptr (some n)⟩
      blocks (xs ++ ys) := by
  refine ⟨h.tiles, ?_, h.aligned, h.unlink_chain, ?_, ?_, ?_⟩
  · intro d hd
    exact (h.unlink_size hd).trans (h.sizes d hd)
  · intro a ha
    exact h.listed a (mem_without.mpr (Or.inr ha))
  · intro d hd
    by_cases hsame : d.addr = b.addr
    · obtain rfl := h.eq_of_addr hd hb hsame
      refine iff_of_false (fun ha => h.chain_ne ha rfl) ?_
      simp
    · have hptr : d.ptr ≠ b.ptr := fun heq => hsame (Nat.add_right_cancel heq)
      show d.addr ∈ xs ++ ys ↔ Function.update c.live b.ptr (some n) d.ptr = none
      rw [Function.update_of_ne hptr, ← h.free_iff d hd, mem_without, or_iff_right hsame]
  · intro p k hlive
    by_cases hp : p = b.ptr
    · subst hp
      have hk : n = k := by simpa using hlive
      exact ⟨b, hb, rfl, hk ▸ hn⟩
    · have hold : Function.update c.live b.ptr (some n) p = some k := hlive
      rw [Function.update_of_ne hp] at hold
      exact h.held p k hold

theorem freeList_lt (h : HeapRep c blocks order) : c.heap.freeList < 2 ^ 64 := by
  rcases h.chain.null_or_mem with hnull | hmem
  · rw [hnull]
    decide
  · obtain ⟨d, hd, haddr⟩ := h.listed _ hmem
    have hlimit := h.addr_lt hd
    omega

/-- `kfree` finds the header of the block again. -/
theorem kfree_eq (h : HeapRep c blocks order) (hb : b ∈ blocks) :
    kfree b.ptr c.heap = ⟨setNext b.addr c.heap.freeList c.heap.mem, b.addr⟩ := by
  have hlimit := h.addr_lt hb
  have hptr : b.ptr = b.addr + headerSize := rfl
  have hblock : sub64 b.ptr headerSize = b.addr := by
    rw [sub64_of_le (by omega) (by omega)]
    omega
  rw [kfree, hblock]

/-- The list with a block in front. -/
theorem free_chain (h : HeapRep c blocks order) (hb : b ∈ blocks) (hnot : b.addr ∉ order) :
    Chain 0 (nextAt (setNext b.addr c.heap.freeList c.heap.mem)) b.addr (b.addr :: order) := by
  have hbounds := h.bounds hb
  refine ⟨rfl, ?_, ?_⟩
  · unfold heapStart at hbounds
    omega
  · rw [nextAt_setNext h.freeList_lt]
    refine h.chain.congr fun a ha => ?_
    obtain ⟨d, hd, rfl⟩ := h.listed a ha
    exact (headerKept_setNext (h.header_apart hd hb fun heq => hnot (heq ▸ ha))).2

/-- A caller's block is put on the list. -/
theorem free (h : HeapRep c blocks order) (hb : b ∈ blocks) (hlive : c.live b.ptr ≠ none) :
    HeapRep ⟨kfree b.ptr c.heap, Function.update c.live b.ptr none⟩ blocks
      (b.addr :: order) := by
  have hnot : b.addr ∉ order := fun ha => hlive ((h.free_iff b hb).mp ha)
  rw [h.kfree_eq hb]
  refine ⟨h.tiles, ?_, h.aligned, h.free_chain hb hnot, ?_, ?_, ?_⟩
  · intro d hd
    by_cases hsame : d.addr = b.addr
    · rw [← h.sizes d hd, hsame]
      exact sizeAt_setNext _ _ _
    · exact (headerKept_setNext (h.header_apart hd hb hsame)).1.trans (h.sizes d hd)
  · intro a ha
    rcases List.mem_cons.mp ha with rfl | ha
    · exact ⟨b, hb, rfl⟩
    · exact h.listed a ha
  · intro d hd
    show d.addr ∈ b.addr :: order ↔ Function.update c.live b.ptr none d.ptr = none
    rw [List.mem_cons, h.free_iff d hd]
    by_cases hsame : d.addr = b.addr
    · obtain rfl := h.eq_of_addr hd hb hsame
      exact iff_of_true (Or.inl rfl) (by simp)
    · have hptr : d.ptr ≠ b.ptr := fun heq => hsame (Nat.add_right_cancel heq)
      rw [Function.update_of_ne hptr, or_iff_right hsame]
  · intro p k hp
    have hold : Function.update c.live b.ptr none p = some k := hp
    by_cases hsame : p = b.ptr
    · subst hsame
      simp at hold
    · rw [Function.update_of_ne hsame] at hold
      exact h.held p k hold

end Unlink

end HeapRep

/-! ## `kmalloc` -/

/-- The size is rounded up to the next multiple of 8. -/
theorem roundedSize_eq (h : size ≤ heapSize) : roundedSize size = (size + 7) / 8 * 8 := by
  unfold heapSize at h
  have hmask := and_not64_lowMask (show size + 7 < 2 ^ 64 by omega) (show 3 ≤ 64 by omega)
  rw [roundedSize, add64_of_lt (by omega)]
  exact hmask

/-- The loop takes the first block on the list that is large enough. -/
theorem kmallocLoop_run {s : HeapState} {ys : List Nat} (rounds previous current : Nat)
    (hchain : Chain 0 (nextAt s.mem) current ys) (hrounds : ys.length < rounds) :
    (kmallocLoop size rounds previous current s = some (0, s) ∧
        ∀ a ∈ ys, sizeAt s.mem a < size) ∨
      ∃ as b bs, ys = as ++ b :: bs ∧ size ≤ sizeAt s.mem b ∧
        kmallocLoop size rounds previous current s =
          some (b + headerSize, takeBlock size (as.getLastD previous) b s) := by
  induction ys generalizing rounds previous current with
  | nil =>
    obtain ⟨rounds, rfl⟩ := Nat.exists_eq_succ_of_ne_zero (Nat.ne_of_gt hrounds)
    have hnull : current = 0 := hchain
    exact Or.inl ⟨by simp [kmallocLoop, hnull], by simp⟩
  | cons y ys ih =>
    obtain ⟨rounds, rfl⟩ := Nat.exists_eq_succ_of_ne_zero (Nat.ne_of_gt (Nat.zero_lt_of_lt hrounds))
    obtain ⟨rfl, hne, htail⟩ := hchain
    by_cases hfit : size ≤ sizeAt s.mem current
    · refine Or.inr ⟨[], current, ys, rfl, hfit, ?_⟩
      simp [kmallocLoop, hne, hfit]
    · have hnext : kmallocLoop size (rounds + 1) previous current s =
          kmallocLoop size rounds current (nextAt s.mem current) s := by
        simp [kmallocLoop, hne, hfit]
      have hlength : ys.length < rounds := by
        rw [List.length_cons] at hrounds
        omega
      rw [hnext]
      rcases ih rounds current _ htail hlength with ⟨hnone, hsmall⟩ | ⟨as, b, bs, rfl, hb, hrun⟩
      · refine Or.inl ⟨hnone, ?_⟩
        intro a ha
        rcases List.mem_cons.mp ha with rfl | ha
        · omega
        · exact hsmall a ha
      · refine Or.inr ⟨current :: as, b, bs, rfl, hb, ?_⟩
        rw [hrun, List.getLastD_cons]

namespace HeapRep

variable {c : HeapConfig} {blocks : List Block} {xs ys : List Nat}

/-- A block that is large enough is split if it is too large, and given to the caller. -/
theorem takeBlock {n : Nat} (h : HeapRep c blocks (xs ++ a :: ys))
    (hfit : size ≤ sizeAt c.heap.mem a) (hsize : size % 8 = 0) (hn : n ≤ size) :
    ∃ blocks' order', HeapRep ⟨SimpleHeap.takeBlock size (xs.getLastD 0) a c.heap,
        Function.update c.live (a + headerSize) (some n)⟩ blocks' order' ∧
      ∃ b ∈ blocks', b.ptr = a + headerSize ∧ n ≤ b.size := by
  obtain ⟨b, hb, rfl, hstored⟩ := h.exists_free (a := a) (by simp)
  have hlimit := h.addr_lt hb
  rw [hstored] at hfit
  have hadd : add64 size headerSize = size + headerSize := add64_of_lt (by omega)
  unfold SimpleHeap.takeBlock
  rw [hadd, hstored]
  by_cases hlarge : size + headerSize < b.size
  · rw [if_pos hlarge]
    obtain ⟨pre, post, rfl⟩ := List.append_of_mem hb
    have hsplit := HeapRep.split (show HeapRep c (pre ++ ([b] ++ post)) _ from h) hlarge hsize
    have hfront : front b size ∈ pre ++ ([front b size, rest b size] ++ post) := by simp
    exact ⟨_, _, hsplit.take (b := front b size) hfront hn, front b size, hfront, rfl, hn⟩
  · rw [if_neg hlarge]
    exact ⟨_, _, h.take hb (by omega), b, hb, rfl, by omega⟩

/-- `kmalloc` returns a block of its own that is large enough, or null if there is none. -/
theorem kmalloc {order : List Nat} (h : HeapRep c blocks order) (hsize : size ≤ heapSize) :
    (SimpleHeap.kmalloc size c.heap = some (0, c.heap) ∧
        ∀ a ∈ order, sizeAt c.heap.mem a < roundedSize size) ∨
      ∃ p s', SimpleHeap.kmalloc size c.heap = some (p, s') ∧ p ≠ 0 ∧ c.live p = none ∧
        ∃ blocks' order',
          HeapRep ⟨s', Function.update c.live p (some size)⟩ blocks' order' := by
  have hround := roundedSize_eq hsize
  unfold SimpleHeap.kmalloc
  rcases kmallocLoop_run heapSize 0 c.heap.freeList h.chain h.length_lt with
    hnone | ⟨xs, a, ys, rfl, hfit, hrun⟩
  · exact Or.inl hnone
  · obtain ⟨b, hb, rfl, _⟩ := h.exists_free (a := a) (by simp)
    obtain ⟨blocks', order', hrep, _⟩ := h.takeBlock hfit (by omega)
      (show size ≤ roundedSize size by omega)
    refine Or.inr ⟨_, _, hrun, ?_, (h.free_iff b hb).mp (by simp), blocks', order', hrep⟩
    unfold headerSize
    omega

end HeapRep

/-! ## Runs -/

/-- What the kernel does with its heap: it allocates, it frees what it holds, and it stores
into the bytes it was given. -/
inductive HeapStep : HeapConfig → HeapConfig → Prop
  | kmalloc {c : HeapConfig} {size p : Nat} {s' : HeapState} (hsize : size ≤ heapSize)
      (hcall : kmalloc size c.heap = some (p, s')) :
      HeapStep c ⟨s', if p = 0 then c.live else Function.update c.live p (some size)⟩
  | kfree {c : HeapConfig} {p n : Nat} (hlive : c.live p = some n) :
      HeapStep c ⟨kfree p c.heap, Function.update c.live p none⟩
  | store {c : HeapConfig} {p n x : Nat} {v : UInt8} (hlive : c.live p = some n)
      (hlo : p ≤ x) (hhi : x < p + n) :
      HeapStep c ⟨{ c.heap with mem := Function.update c.heap.mem x v }, c.live⟩

/-- The heap behind `init_heap`, whatever the memory held. -/
def initConfig (m : ByteMem) : HeapConfig := ⟨initHeap (boot m), fun _ => none⟩

/-- The heap is divided into blocks. -/
def Partitioned (c : HeapConfig) : Prop := ∃ blocks order, HeapRep c blocks order

/-- The one block behind `init_heap`. -/
theorem sizeAt_initHeap (m : ByteMem) :
    sizeAt (initHeap (boot m)).mem heapStart = heapSize - headerSize :=
  (sizeAt_setNext _ _ _).trans (sizeAt_setSize (by decide))

theorem partitioned_init (m : ByteMem) : Partitioned (initConfig m) := by
  have hnext : nextAt (initHeap (boot m)).mem heapStart = 0 := nextAt_setNext (by decide)
  refine ⟨[⟨heapStart, heapSize - headerSize⟩], [heapStart], ?_, ?_, ?_, ?_, ?_, ?_, ?_⟩
  · exact ⟨rfl, rfl⟩
  · intro b hb
    obtain rfl := List.mem_singleton.mp hb
    exact sizeAt_initHeap m
  · intro b hb
    obtain rfl := List.mem_singleton.mp hb
    exact ⟨rfl, rfl⟩
  · exact ⟨rfl, by decide, hnext⟩
  · intro a ha
    exact ⟨_, List.mem_singleton_self _, (List.mem_singleton.mp ha).symm⟩
  · intro b hb
    obtain rfl := List.mem_singleton.mp hb
    exact iff_of_true List.mem_cons_self rfl
  · intro p n hlive
    exact absurd hlive (by simp [initConfig])

/-- A store into a caller's bytes touches no header. -/
theorem HeapRep.store_kept {c : HeapConfig} {blocks : List Block} {order : List Nat}
    (h : HeapRep c blocks order) {p n x : Nat} {v : UInt8} (hlive : c.live p = some n) (hlo : p ≤ x)
    (hhi : x < p + n) (hd : d ∈ blocks) :
    HeaderKept c.heap.mem (Function.update c.heap.mem x v) d.addr := by
  obtain ⟨b, hb, rfl, hn⟩ := h.held p n hlive
  have hout : x < d.addr ∨ d.addr + headerSize ≤ x := by
    unfold Block.ptr at hlo hhi
    by_cases hsame : d.addr = b.addr
    · omega
    · have hapart := h.apart hd hb hsame
      omega
  unfold headerSize at hout
  constructor <;> exact read64_congr fun y hy hy' => Function.update_of_ne (by omega) _ _

theorem partitioned_step (c d : HeapConfig) (h : Partitioned c) (hstep : HeapStep c d) :
    Partitioned d := by
  obtain ⟨blocks, order, hrep⟩ := h
  cases hstep with
  | kmalloc hsize hcall =>
    rcases hrep.kmalloc hsize with ⟨hnone, _⟩ | ⟨p, s', hsome, hp, _, hnew⟩
    · rw [hnone] at hcall
      obtain ⟨rfl, rfl⟩ := Prod.mk.inj (Option.some.inj hcall)
      exact ⟨blocks, order, hrep⟩
    · rw [hsome] at hcall
      obtain ⟨rfl, rfl⟩ := Prod.mk.inj (Option.some.inj hcall)
      rw [if_neg hp]
      exact hnew
  | kfree hlive =>
    obtain ⟨b, hb, rfl, _⟩ := hrep.held _ _ hlive
    exact ⟨blocks, _, hrep.free hb (by simp [hlive])⟩
  | store hlive hlo hhi =>
    exact ⟨blocks, order, hrep.store fun d hd => hrep.store_kept hlive hlo hhi hd⟩

/-- **The heap stays divided into free and live blocks**, whatever the kernel allocates,
frees and stores: every `kmalloc` returns, either a pointer to a block that was free, or
null, if every free block is smaller than the rounded size. -/
theorem heap_partition {m : ByteMem} {c : HeapConfig}
    (hrun : ReflTransGen HeapStep (initConfig m) c) :
    ∃ blocks order, HeapRep c blocks order ∧ order.Nodup ∧
      ∀ size ≤ heapSize, ∃ p s', kmalloc size c.heap = some (p, s') ∧
        (p = 0 → ∀ b ∈ blocks, c.live b.ptr = none → b.size < roundedSize size) ∧
        (p ≠ 0 → p % 8 = 0 ∧ c.live p = none ∧ ∃ blocks' order',
          HeapRep ⟨s', Function.update c.live p (some size)⟩ blocks' order' ∧
          ∃ b ∈ blocks', b.ptr = p ∧ size ≤ b.size) := by
  obtain ⟨blocks, order, h⟩ :=
    run_invariant Partitioned partitioned_step hrun (partitioned_init m)
  refine ⟨blocks, order, h, h.chain.nodup, fun size hsize => ?_⟩
  rcases h.kmalloc hsize with ⟨hnone, hsmall⟩ | ⟨p, s', hsome, hp, hfree, blocks', order', hnew⟩
  · refine ⟨0, c.heap, hnone, fun _ b hb hfree => ?_, fun hne => absurd rfl hne⟩
    rw [← h.sizes b hb]
    exact hsmall b.addr ((h.free_iff b hb).mpr hfree)
  · obtain ⟨b, hb, hptr, hroom⟩ := hnew.held p size (by simp)
    have halign := (hnew.aligned b hb).1
    refine ⟨p, s', hsome, fun hzero => absurd hzero hp, fun _ => ⟨?_, hfree, blocks', order',
      hnew, b, hb, hptr, hroom⟩⟩
    rw [← hptr]
    unfold Block.ptr headerSize
    omega

/-- The heap after eight bytes were allocated. -/
def oneBlock : HeapConfig :=
  ⟨takeBlock 8 0 heapStart (initConfig fun _ => 0).heap,
    Function.update (fun _ => none) (heapStart + headerSize) (some 8)⟩

theorem heap_partition_one : HeapStep (initConfig fun _ => 0) oneBlock ∧
    ∃ blocks order, HeapRep oneBlock blocks order ∧ order.Nodup ∧
      ∀ size ≤ heapSize, ∃ p s', kmalloc size oneBlock.heap = some (p, s') ∧
        (p = 0 → ∀ b ∈ blocks, oneBlock.live b.ptr = none → b.size < roundedSize size) ∧
        (p ≠ 0 → p % 8 = 0 ∧ oneBlock.live p = none ∧ ∃ blocks' order',
          HeapRep ⟨s', Function.update oneBlock.live p (some size)⟩ blocks' order' ∧
          ∃ b ∈ blocks', b.ptr = p ∧ size ≤ b.size) := by
  have hround : roundedSize 8 = 8 := roundedSize_eq (by decide)
  have hfits : 8 ≤ sizeAt (initConfig fun _ => 0).heap.mem heapStart := by
    rw [show (initConfig fun _ => 0).heap = initHeap (boot fun _ => 0) from rfl, sizeAt_initHeap]
    decide
  have hcall : kmalloc 8 (initConfig fun _ => 0).heap =
      some (heapStart + headerSize, takeBlock 8 0 heapStart (initConfig fun _ => 0).heap) := by
    rw [kmalloc, hround]
    show kmallocLoop 8 (0xFFFFF + 1) 0 heapStart _ = _
    rw [kmallocLoop, if_neg (by decide), if_pos hfits]
  have hstep := HeapStep.kmalloc (by decide) hcall
  rw [if_neg (by decide)] at hstep
  exact ⟨hstep, heap_partition (.single hstep)⟩

end FarouKernel.Ports.SimpleHeap
