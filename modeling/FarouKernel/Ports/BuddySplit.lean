import FarouKernel.Ports.BuddyPartition

/-!
# Splitting a block

`split_block` takes the record of the second half at the address of the first plus the
size of the first half in bytes.  For a block of 32 bytes that is 16 bytes into its own
record, where `next` is, and no element of `memory_blocks`.  Setting `is_free` there
changes the lowest byte of the block's own `buddy`, and the last assignment goes through
that pointer, to the word 25 bytes behind the last multiple of 256.

So the chain leaves the array at the split block, unless the stray word has changed the
lowest byte of an earlier `next`; and then it leaves the array there.
-/

namespace FarouKernel.Ports.Buddy

open Verified ByteMem

variable {l : Layout} {m : ByteMem} {b x : Nat} {xs zs : List Nat}

/-- A pointer out of `memory_blocks`. -/
def Leaves (l : Layout) (q : Nat) : Prop := q ≠ 0 ∧ ¬ IsRecord l q

/-- All assignments of `split_block` but the last. -/
def splitFields (b : Nat) (m : ByteMem) : ByteMem :=
  let m := setSize (b + 16) (sub64 (sizeAt m b) 16) m
  let m := setFree (b + 16) true m
  let m := setNext (b + 16) (nextAt m b) m
  let m := setBuddy (b + 16) (buddyAt m b) m
  let m := setSize b 16 m
  let m := setNext b (b + 16) m
  setBuddy b (buddyAt m (b + 16)) m

theorem splitBlock_eq (hb : IsRecord l b) :
    splitBlock b 16 m =
      setBuddy (buddyAt (splitFields b m) (b + 16)) (b + 16) (splitFields b m) := by
  have hbounds := hb.bounds
  have hend := l.end_le
  unfold splitBlock splitFields
  rw [add64_of_lt (by omega)]

theorem splitFields_outside {y : Nat} (hy : y < b ∨ b + 48 ≤ y) : splitFields b m y = m y := by
  unfold splitFields setBuddy setNext setFree setSize
  rw [write64_apply_of_outside (by omega), write64_apply_of_outside (by omega),
    write64_apply_of_outside (by omega), write64_apply_of_outside (by omega),
    write64_apply_of_outside (by omega), fill_apply_of_outside (by omega),
    write64_apply_of_outside (by omega)]

/-- The block itself now points into its own record. -/
theorem nextAt_splitFields_self (hb : IsRecord l b) : nextAt (splitFields b m) b = b + 16 := by
  have hbounds := hb.bounds
  have hend := l.end_le
  unfold splitFields nextAt setBuddy
  rw [read64_write64_of_disjoint (by omega)]
  exact read64_write64_of_lt (by omega)

theorem nextAt_splitFields_other (hb : IsRecord l b) (hx : IsRecord l x) (hne : x ≠ b) :
    nextAt (splitFields b m) x = nextAt m x := by
  have hapart := hb.apart hx hne
  exact read64_congr fun y _ _ => splitFields_outside (by omega)

/-- A pointer whose lowest byte has been set to 1. -/
theorem read64_fill_low {a : Nat} : read64 (fill m a 1 1) a = read64 m a / 256 * 256 + 1 := by
  have hlow : read64 (fill m a 1 1) a % 256 = 1 := by
    rw [read64_mod, fill, if_pos (by omega)]
    rfl
  have hhigh : read64 (fill m a 1 1) a / 256 = read64 m a / 256 := by
    rw [read64_div, read64_div]
    exact readLE_congr fun x _ _ => fill_apply_of_outside (by omega)
  omega

/-- The buddy of the new record is the block, but for the byte that `is_free` has set. -/
theorem buddyAt_splitFields (hself : buddyAt m b = b) :
    buddyAt (splitFields b m) (b + 16) = b / 256 * 256 + 1 := by
  have hlow : ∀ v, buddyAt (setFree (b + 16) true (setSize (b + 16) v m)) b =
      b / 256 * 256 + 1 := by
    intro v
    have hword : read64 (setSize (b + 16) v m) (b + 24) = b :=
      (read64_write64_of_disjoint (by omega)).trans hself
    have hset := read64_fill_low (m := setSize (b + 16) v m) (a := b + 24)
    rw [hword] at hset
    exact hset
  have hlt : b / 256 * 256 + 1 < 2 ^ 64 := by
    rw [← hlow 0]
    exact read64_lt _ _
  have hcopy : ∀ m' u, buddyAt (setNext (b + 16) u m') b = buddyAt m' b :=
    fun m' u => read64_write64_of_disjoint (by omega)
  simp only [splitFields, hcopy, hlow]
  -- The three later assignments are to the fields of the block.
  unfold buddyAt setBuddy setNext setSize
  rw [read64_write64_of_disjoint (by omega), read64_write64_of_disjoint (by omega),
    read64_write64_of_disjoint (by omega), read64_write64_of_lt hlt]

/-- The last assignment of `split_block`. -/
def strayWrite (b : Nat) (m : ByteMem) : ByteMem :=
  setBuddy (b / 256 * 256 + 1) (b + 16) m

/-- The stray word leaves a pointer of a record alone, or turns it into one that leaves
the array. -/
theorem nextAt_strayWrite (hb : IsRecord l b) (hx : IsRecord l x) (hnext : 256 ≤ nextAt m x) :
    nextAt (strayWrite b m) x = nextAt m x ∨ Leaves l (nextAt (strayWrite b m) x) := by
  have hbBounds := hb.bounds
  have hxBounds := hx.bounds
  have haligned := l.aligned
  have hcanonical := l.canonical
  by_cases hoverlap : x = b / 256 * 256 + 16
  case neg => exact Or.inl (read64_write64_of_disjoint (by omega))
  right
  -- The lowest byte of the pointer is now the highest byte of an address.
  have hlow : nextAt (strayWrite b m) x % 256 = (b + 16) / 2 ^ 56 % 256 := by
    have hbyte : strayWrite b m (x + 16) = UInt8.ofNat ((b + 16) / 256 ^ 7) := by
      unfold strayWrite setBuddy write64 writeLE
      rw [if_pos (by omega), show x + 16 - (b / 256 * 256 + 1 + 24) = 7 by omega]
    rw [nextAt, read64_mod, hbyte]
    exact UInt8.toNat_ofNat'
  have hhigh : nextAt (strayWrite b m) x / 256 = nextAt m x / 256 := by
    unfold nextAt
    rw [read64_div, read64_div]
    exact readLE_congr fun y _ _ => write64_apply_of_outside (by omega)
  have hbyte : (b + 16) / 2 ^ 56 % 256 = 0 ∨ (b + 16) / 2 ^ 56 % 256 = 255 := by
    simp only [recordSize, blockCount, memorySize, blockSize] at hcanonical
    omega
  constructor
  · omega
  · intro hrecord
    have hbounds := hrecord.bounds
    omega

/-- The new record is none of `memory_blocks`. -/
theorem leaves_newBlock (hb : IsRecord l b) : Leaves l (b + 16) := by
  have hbounds := hb.bounds
  constructor
  · omega
  · intro hrecord
    have hbounds' := hrecord.bounds
    omega

theorem nextAt_setFree {v : Bool} (hb : IsRecord l b) (hx : IsRecord l x) :
    nextAt (setFree b v m) x = nextAt m x := by
  have := hb.bounds
  have := hx.bounds
  exact read64_setFree (by omega)

/-- After a split no chain from the first record stays inside the array. -/
theorem Partition.not_chain_of_split (h : Partition l (recordAt m) xs) (hb : b ∈ xs)
    (hsize : sizeAt m b = 32)
    (hchain : Chain 0 (nextAt (takeBlock b 16 m)) (recordAddr l.base 0) zs) :
    ¬ ∀ z ∈ zs, IsRecord l z := by
  have hrecord := h.isRecord
  have hself : buddyAt m b = b := by
    rcases h.sizes b hb with hsmall | hmerged
    · exact absurd (hsize.symm.trans hsmall) (by decide)
    · exact hmerged.2
  have htake : takeBlock b 16 m = setFree b false (strayWrite b (splitFields b m)) := by
    rw [takeBlock, hsize, if_pos (by decide), splitBlock_eq (hrecord b hb),
      buddyAt_splitFields hself, strayWrite]
  have hnext : ∀ x ∈ xs, nextAt (takeBlock b 16 m) x =
      nextAt (strayWrite b (splitFields b m)) x := by
    intro x hx
    rw [htake]
    exact nextAt_setFree (hrecord b hb) (hrecord x hx)
  have hpointer : ∀ q, IsRecord l q → 256 ≤ q := by
    intro q hq
    have := hq.bounds
    have := l.mapped
    omega
  obtain ⟨as, ys, rfl⟩ := List.append_of_mem hb
  have hnodup := List.nodup_append.mp h.chain.nodup
  refine h.chain.not_of_leaves ?_ ?_ hchain
  · intro x hx
    have hmem : x ∈ as ++ b :: ys := List.mem_append_left _ hx
    have hne : x ≠ b := hnodup.2.2 x hx b List.mem_cons_self
    have hinside : IsRecord l (nextAt m x) := hrecord _ (h.chain.next_mem hx)
    have hkeep : nextAt (splitFields b m) x = nextAt m x :=
      nextAt_splitFields_other (hrecord b hb) (hrecord x hmem) hne
    have hlarge : 256 ≤ nextAt (splitFields b m) x := by
      rw [hkeep]
      exact hpointer _ hinside
    have hstray := nextAt_strayWrite (hrecord b hb) (hrecord x hmem) hlarge
    rw [hnext x hmem]
    rw [hkeep] at hstray
    exact hstray
  · have hkeep : nextAt (splitFields b m) b = b + 16 := nextAt_splitFields_self (hrecord b hb)
    have hlarge : 256 ≤ nextAt (splitFields b m) b := by
      rw [hkeep]
      exact Nat.le_add_right_of_le (hpointer b (hrecord b hb))
    rw [hnext b hb]
    rcases nextAt_strayWrite (hrecord b hb) (hrecord b hb) hlarge with hsame | hleaves
    · rw [hsame, hkeep]
      exact leaves_newBlock (hrecord b hb)
    · exact hleaves

end FarouKernel.Ports.Buddy
