import FarouKernel.Ports.BuddyRecords
import FarouKernel.Verified.LinkedList
import FarouKernel.Verified.Tiling

/-!
# Merging blocks of a partition

The blocks on the chain partition the managed memory.  `merge_blocks` adds the size of the
buddy to the block and lets the chain go on behind the buddy, so it takes for granted that
the buddy is the next block.  If it is, the partition stays one.  If the buddy is the block
itself, the block doubles; if it is an earlier block, the chain becomes a circle; and if
it is a later one, the blocks between them are lost.
-/

namespace FarouKernel.Ports.Buddy

open Verified

variable {l : Layout} {f f' : Nat → Block} {xs zs : List Nat} {p : Nat}

/-- The managed byte at which the block of a record begins, `16 * i` for
`memory_blocks[i]`. -/
def offset (l : Layout) (p : Nat) : Nat := blockSize * ((p - l.base) / recordSize)

/-- The records `xs` are the chain, and partition the managed memory.  Buddies belong to
each other, and a block that has been merged is its own buddy. -/
structure Partition (l : Layout) (f : Nat → Block) (xs : List Nat) : Prop where
  chain : Chain 0 (fun p => (f p).next) (recordAddr l.base 0) xs
  tiles : Tiles (offset l) (fun p => (f p).size) 0 xs memorySize
  isRecord : ∀ x ∈ xs, IsRecord l x
  buddy_mem : ∀ x ∈ xs, (f x).buddy ∈ xs
  buddy_buddy : ∀ x ∈ xs, (f (f x).buddy).buddy = x
  sizes : ∀ x ∈ xs, (f x).size = 16 ∨ (f x).size = 32 ∧ (f x).buddy = x

namespace Partition

theorem size_bounds (h : Partition l f xs) {x : Nat} (hx : x ∈ xs) :
    16 ≤ (f x).size ∧ (f x).size ≤ 32 := by
  have := h.sizes x hx
  omega

theorem length_le (h : Partition l f xs) : xs.length ≤ blockCount := by
  have hcount := h.tiles.length_mul_le fun x hx => (h.size_bounds hx).1
  simp only [memorySize, blockCount, blockSize] at hcount ⊢
  omega

/-- Only the links and sizes of the blocks matter. -/
theorem of_flags (h : Partition l f xs)
    (heq : ∀ x ∈ xs, f' x = { f x with isFree := (f' x).isFree }) : Partition l f' xs := by
  have hnext : ∀ x ∈ xs, (f' x).next = (f x).next := fun x hx => by rw [heq x hx]
  have hsize : ∀ x ∈ xs, (f' x).size = (f x).size := fun x hx => by rw [heq x hx]
  have hbuddy : ∀ x ∈ xs, (f' x).buddy = (f x).buddy := fun x hx => by rw [heq x hx]
  constructor
  case chain => exact h.chain.congr hnext
  case tiles => exact h.tiles.congr (fun _ _ => rfl) hsize
  case isRecord => exact h.isRecord
  case buddy_mem =>
    intro x hx
    rw [hbuddy x hx]
    exact h.buddy_mem x hx
  case buddy_buddy =>
    intro x hx
    rw [hbuddy x hx, hbuddy _ (h.buddy_mem x hx)]
    exact h.buddy_buddy x hx
  case sizes =>
    intro x hx
    rw [hsize x hx, hbuddy x hx]
    exact h.sizes x hx

/-- The chain around a block whose buddy is the next one: both have 16 bytes, and neither
stands in another place. -/
theorem split_buddy (h : Partition l f xs) (hp : p ∈ xs) (hnext : (f p).next = (f p).buddy) :
    ∃ as bs, xs = as ++ p :: (f p).buddy :: bs ∧ (f p).buddy ≠ p ∧
      (f p).size = 16 ∧ (f (f p).buddy).size = 16 ∧
      (∀ x ∈ as ++ bs, x ≠ p) ∧ ∀ x ∈ as ++ bs, x ≠ (f p).buddy := by
  have hb := h.buddy_mem p hp
  have hback := h.buddy_buddy p hp
  have hsizeP := h.sizes p hp
  have hsizeB := h.sizes _ hb
  obtain ⟨as, ys, rfl⟩ := List.append_of_mem hp
  have hbehind := h.chain.tail_of_append
  have hnodup := h.chain.nodup
  cases ys with
  | nil => exact absurd (hnext.symm.trans hbehind) (h.chain.ne_null hb)
  | cons y ys =>
    have hy : (f p).buddy = y := hnext.symm.trans hbehind.1
    rw [hy] at hsizeP hsizeB hback ⊢
    rw [List.nodup_append, List.nodup_cons, List.nodup_cons] at hnodup
    obtain ⟨-, ⟨hpy, hyys, -⟩, has⟩ := hnodup
    have hne : y ≠ p := fun heq => hpy (heq ▸ List.mem_cons_self)
    refine ⟨as, ys, rfl, hne, by omega, by omega, ?_, ?_⟩
    · intro x hx heq
      rcases List.mem_append.mp hx with hx | hx
      · exact has x hx p List.mem_cons_self heq
      · exact hpy (List.mem_cons_of_mem y (heq ▸ hx))
    · intro x hx heq
      rcases List.mem_append.mp hx with hx | hx
      · exact has x hx y (List.mem_cons_of_mem p List.mem_cons_self) heq
      · exact hyys (heq ▸ hx)

end Partition

/-- The block `p` has been merged with its buddy, and nothing else has changed. -/
structure MergedAt (p : Nat) (xs : List Nat) (f f' : Nat → Block) : Prop where
  mem : p ∈ xs
  self : f' p = { Block.merged p (f p) (f (f p).buddy) with isFree := true }
  other : ∀ x ∈ xs, x ≠ p → f' x = f x

namespace MergedAt

section

variable (hmerged : MergedAt p xs f f')

include hmerged

theorem next_self : (f' p).next = (f (f p).buddy).next := by
  rw [hmerged.self]
  rfl

theorem buddy_self : (f' p).buddy = p := by
  rw [hmerged.self]
  rfl

theorem size_self (h : Partition l f xs) : (f' p).size = (f p).size + (f (f p).buddy).size := by
  have hp := h.size_bounds hmerged.mem
  have hb := h.size_bounds (h.buddy_mem p hmerged.mem)
  rw [hmerged.self]
  exact add64_of_lt (by omega)

/-- A buddy that is the next block: the two become one. -/
theorem partition (h : Partition l f xs) (hnext : (f p).next = (f p).buddy) :
    ∃ xs', Partition l f' xs' ∧ ∀ x ∈ xs, x ≠ (f p).buddy → x ∈ xs' := by
  have hback := h.buddy_buddy p hmerged.mem
  have hsizeSelf := hmerged.size_self h
  have hbuddySelf := hmerged.buddy_self
  have hnextSelf := hmerged.next_self
  obtain ⟨as, bs, hxs, hne, hsizeP, hsizeB, hasP, hasB⟩ := h.split_buddy hmerged.mem hnext
  generalize hb : (f p).buddy = b at *
  subst hxs
  -- What is left of the chain, and its records.
  have hmem : ∀ x, x ∈ as ++ p :: bs ↔ x = p ∨ x ∈ as ++ bs := by
    intro x
    simp only [List.mem_append, List.mem_cons]
    tauto
  have hold : ∀ x ∈ as ++ bs, x ∈ as ++ p :: b :: bs := by
    intro x hx
    simp only [List.mem_append, List.mem_cons] at hx ⊢
    tauto
  have hrest : ∀ x ∈ as ++ p :: b :: bs, x ≠ p → x ≠ b → x ∈ as ++ bs := by
    intro x hx hxp hxb
    simp only [List.mem_append, List.mem_cons] at hx ⊢
    tauto
  have hkeep : ∀ x ∈ as ++ bs, f' x = f x := fun x hx => hmerged.other x (hold x hx) (hasP x hx)
  refine ⟨as ++ p :: bs, ?_, ?_⟩
  case refine_2 =>
    intro x hx hxb
    rw [hmem]
    by_cases hxp : x = p
    · exact Or.inl hxp
    · exact Or.inr (hrest x hx hxp hxb)
  constructor
  case chain =>
    exact h.chain.remove_behind hnextSelf fun x hx hxp => by rw [hmerged.other x hx hxp]
  case tiles =>
    exact h.tiles.join hsizeSelf fun x hx => by rw [hkeep x hx]
  case isRecord =>
    intro x hx
    rcases (hmem x).mp hx with rfl | hx
    · exact h.isRecord x hmerged.mem
    · exact h.isRecord x (hold x hx)
  case buddy_mem =>
    intro x hx
    rcases (hmem x).mp hx with rfl | hx
    · rw [hbuddySelf]
      exact (hmem x).mpr (Or.inl rfl)
    · rw [hkeep x hx, hmem]
      by_cases hbuddy : (f x).buddy = p
      · exact Or.inl hbuddy
      · refine Or.inr (hrest _ (h.buddy_mem x (hold x hx)) hbuddy fun heq => hasP x hx ?_)
        rw [← h.buddy_buddy x (hold x hx), heq, hback]
  case buddy_buddy =>
    intro x hx
    rcases (hmem x).mp hx with rfl | hx
    · rw [hbuddySelf, hbuddySelf]
    · have hbuddy := h.buddy_buddy x (hold x hx)
      have hne' : (f x).buddy ≠ p := by
        intro heq
        rw [heq, hb] at hbuddy
        exact hasB x hx hbuddy.symm
      rw [hkeep x hx, hmerged.other _ (h.buddy_mem x (hold x hx)) hne', hbuddy]
  case sizes =>
    intro x hx
    rcases (hmem x).mp hx with rfl | hx
    · right
      rw [hsizeSelf, hbuddySelf, hsizeP, hsizeB]
      exact ⟨rfl, rfl⟩
    · rw [hkeep x hx]
      exact h.sizes x (hold x hx)

/-- A sum in which only one element has changed. -/
theorem sum_sizes (h : Partition l f xs) {as bs : List Nat} (has : ∀ x ∈ as ++ bs, x ∈ xs ∧ x ≠ p) :
    ((as ++ p :: bs).map fun x => (f' x).size).sum =
      ((as ++ p :: bs).map fun x => (f x).size).sum + (f (f p).buddy).size := by
  have hkeep : ∀ cs : List Nat, (∀ x ∈ cs, x ∈ as ++ bs) →
      (cs.map fun x => (f' x).size) = cs.map fun x => (f x).size := by
    intro cs hcs
    refine List.map_congr_left fun x hx => ?_
    rw [hmerged.other x (has x (hcs x hx)).1 (has x (hcs x hx)).2]
  rw [List.map_append, List.map_append, List.map_cons, List.map_cons,
    hkeep as fun x hx => List.mem_append_left bs hx,
    hkeep bs fun x hx => List.mem_append_right as hx, hmerged.size_self h]
  simp only [List.sum_append, List.sum_cons]
  omega

/-- Where the chain goes after a merge, if it still ends: it leads to `p` as before, and
goes on behind the buddy, which is `p` itself or a later block. -/
theorem chain_cases (h : Partition l f xs)
    (hchain : Chain 0 (fun x => (f' x).next) (recordAddr l.base 0) zs) :
    ∃ as ys cs, xs = as ++ p :: ys ∧ zs = as ++ p :: cs ∧ (∀ x ∈ as ++ ys, x ≠ p) ∧
      ((f p).buddy = p ∧ cs = ys ∨ ∃ ds, ys = ds ++ (f p).buddy :: cs) := by
  have hb := h.buddy_mem p hmerged.mem
  have hnodup := h.chain.nodup
  have hother := hmerged.other
  have hnextSelf := hmerged.next_self
  obtain ⟨as, ys, rfl⟩ := List.append_of_mem hmerged.mem
  have hbehind := h.chain.tail_of_append
  rw [List.nodup_append, List.nodup_cons] at hnodup
  obtain ⟨-, ⟨hpys, -⟩, has⟩ := hnodup
  have hasP : ∀ x ∈ as, x ≠ p := fun x hx => has x hx p List.mem_cons_self
  have hysP : ∀ x ∈ ys, x ≠ p := fun x hx heq => hpys (heq ▸ hx)
  have hkeep : ∀ x ∈ ys, (f' x).next = (f x).next := by
    intro x hx
    rw [hother x (List.mem_append_right as (List.mem_cons_of_mem p hx)) (hysP x hx)]
  obtain ⟨cs, rfl⟩ : ∃ cs, zs = as ++ p :: cs := by
    refine h.chain.same_start (fun x hx => ?_) hchain
    rw [hother x (List.mem_append_left _ hx) (hasP x hx)]
  have hcs := hchain.tail_of_append
  rw [hnextSelf] at hcs
  refine ⟨as, ys, cs, rfl, rfl, ?_, ?_⟩
  · intro x hx
    exact (List.mem_append.mp hx).elim (hasP x) (hysP x)
  rcases List.mem_append.mp hb with hearlier | hb
  · -- The chain would come back to the block behind the buddy.
    have hne := hasP _ hearlier
    have hsame : (f' p).next = (f' (f p).buddy).next := by rw [hnextSelf, hother _ hb hne]
    have heq := hchain.next_inj (List.mem_append_right as List.mem_cons_self)
      (List.mem_append_left _ hearlier) hsame
    exact absurd heq.symm hne
  rcases List.mem_cons.mp hb with hself | hlater
  · left
    rw [hself] at hcs
    exact ⟨hself, hcs.unique (hbehind.congr hkeep)⟩
  · right
    obtain ⟨ds, es, hys⟩ := List.append_of_mem hlater
    rw [hys] at hbehind hkeep
    have hes := hbehind.tail_of_append.congr fun x hx =>
      hkeep x (List.mem_append_right ds (List.mem_cons_of_mem _ hx))
    exact ⟨ds, by rw [hcs.unique hes, hys]⟩

/-- A buddy that is not the next block: the blocks are not a partition any more. -/
theorem not_partition (h : Partition l f xs) (hnext : (f p).next ≠ (f p).buddy)
    (hchain : Chain 0 (fun x => (f' x).next) (recordAddr l.base 0) zs) :
    (zs.map fun x => (f' x).size).sum ≠ memorySize := by
  have htotal := h.tiles.sum_extent
  have hbound := h.size_bounds (h.buddy_mem p hmerged.mem)
  obtain ⟨as, ys, cs, hxs, rfl, hne, hcases⟩ := hmerged.chain_cases h hchain
  have hsum : ∀ x ∈ as ++ cs, x ∈ xs ∧ x ≠ p := by
    intro x hx
    have hmem : x ∈ as ++ ys := by
      rcases hcases with ⟨-, rfl⟩ | ⟨ds, rfl⟩
      · exact hx
      · simp only [List.mem_append, List.mem_cons] at hx ⊢
        tauto
    refine ⟨?_, hne x hmem⟩
    rw [hxs]
    simp only [List.mem_append, List.mem_cons] at hmem ⊢
    tauto
  rw [hmerged.sum_sizes h hsum]
  rcases hcases with ⟨-, rfl⟩ | ⟨ds, hys⟩
  · -- The block has doubled.
    rw [hxs] at htotal
    omega
  · -- The blocks between the two are lost, and there is at least one.
    rw [hxs, hys] at htotal
    cases ds with
    | nil =>
      have hbehind := (hxs ▸ h.chain).tail_of_append
      rw [hys] at hbehind
      exact absurd hbehind.1 hnext
    | cons d ds =>
      have hd := h.size_bounds (x := d) (by rw [hxs, hys]; simp)
      simp only [List.map_append, List.map_cons, List.cons_append, List.sum_append,
        List.sum_cons] at htotal ⊢
      omega

end

end MergedAt

end FarouKernel.Ports.Buddy
