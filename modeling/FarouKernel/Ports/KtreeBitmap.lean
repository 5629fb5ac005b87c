import FarouKernel.Ports.KtreeModel
import FarouKernel.Verified.Runs

/-!
# The bitmap is a finite set

Index `i` is bit `i % 64` of word `i / 64`, so the calls are the operations of
`Verified.Bitmap` on the words of the array.  A configuration is the bitmap with the set
of indices it should hold.

`ktree_bitmap_count` counts in 32 bits.  The set can have `2 ^ 32` members, the number
of indices a `uint32_t` can be, and the count is then 0.
-/

namespace FarouKernel.Ports.Ktree

open Verified

/-- An index of the bitmap: a `uint32_t` below `KTREE_MAX_NODES`. -/
def IsIndex (maxNodes bit : Nat) : Prop := bit < maxNodes ∧ bit < 2 ^ 32

/-- A call that changes a bitmap. -/
inductive BitmapCall where
  | set (bit : Nat)
  | clear (bit : Nat)
  | testAndSet (bit : Nat)

/-- The index of a call. -/
def BitmapCall.bit : BitmapCall → Nat
  | .set bit => bit
  | .clear bit => bit
  | .testAndSet bit => bit

/-- The bitmap and the set it should be. -/
structure BitmapConfig where
  bitmap : KtreeBitmap
  members : Finset Nat

/-- After `ktree_bitmap_init`. -/
def BitmapConfig.init (maxNodes : Nat) (bitmap : KtreeBitmap) : BitmapConfig :=
  ⟨ktreeBitmapInit maxNodes bitmap, ∅⟩

/-- After a call, if it stays inside the array. -/
def BitmapConfig.call (maxNodes : Nat) (c : BitmapConfig) : BitmapCall → Option BitmapConfig
  | .set bit =>
    (ktreeBitmapSet maxNodes c.bitmap bit).map fun bitmap => ⟨bitmap, insert bit c.members⟩
  | .clear bit =>
    (ktreeBitmapClear maxNodes c.bitmap bit).map fun bitmap => ⟨bitmap, c.members.erase bit⟩
  | .testAndSet bit =>
    (ktreeBitmapTestAndSet maxNodes c.bitmap bit).map fun (_, bitmap) =>
      ⟨bitmap, insert bit c.members⟩

/-- The bitmap is the set, as its tests and its count say. -/
structure IsSet (maxNodes : Nat) (c : BitmapConfig) : Prop where
  test : ∀ bit, IsIndex maxNodes bit →
    ktreeBitmapTest maxNodes c.bitmap bit = some (decide (bit ∈ c.members))
  testAndSet : ∀ bit, IsIndex maxNodes bit → ∃ bitmap,
    ktreeBitmapTestAndSet maxNodes c.bitmap bit = some (decide (bit ∈ c.members), bitmap)
  count : ktreeBitmapCount maxNodes c.bitmap = c.members.card % 2 ^ 32
  count_exact : maxNodes < 2 ^ 32 → ktreeBitmapCount maxNodes c.bitmap = c.members.card

section

variable {maxNodes bit : Nat} {bitmap : KtreeBitmap} {c : BitmapConfig}

/-! ## The calls -/

theorem lt_bitmapWords (hbit : bit < maxNodes) : bit < 64 * bitmapWords maxNodes := by
  unfold bitmapWords
  split <;> omega

theorem shift_eq (bit : Nat) : bit >>> 6 = bit / 64 := Nat.shiftRight_eq_div_pow bit 6

theorem mask_eq (bit : Nat) : bit &&& 0x3F = bit % 64 := Nat.and_two_pow_sub_one_eq_mod bit 6

theorem word_lt (hbit : bit < maxNodes) : bit / 64 < bitmapWords maxNodes := by
  have hlt := lt_bitmapWords hbit
  omega

theorem ktreeBitmapSet_eq (hbit : bit < maxNodes) :
    ktreeBitmapSet maxNodes bitmap bit = some ⟨setBit bitmap.bits bit⟩ := by
  rw [ktreeBitmapSet, shift_eq, mask_eq, KtreeBitmap.store, if_pos (word_lt hbit), setBit_eq_update]

theorem ktreeBitmapClear_eq (hbit : bit < maxNodes) :
    ktreeBitmapClear maxNodes bitmap bit = some ⟨clearBit bitmap.bits bit⟩ := by
  rw [ktreeBitmapClear, shift_eq, mask_eq, KtreeBitmap.store, if_pos (word_lt hbit),
    clearBit_eq_update]

theorem tested_eq (word offset : Nat) : (word &&& 1 <<< offset != 0) = word.testBit offset := by
  rw [Bool.eq_iff_iff, bne_iff_ne]
  exact and_shiftLeft_ne_zero word offset

theorem ktreeBitmapTest_eq (hbit : bit < maxNodes) :
    ktreeBitmapTest maxNodes bitmap bit = some (bitAt bitmap.bits bit) := by
  rw [ktreeBitmapTest, shift_eq, mask_eq, if_pos (word_lt hbit), tested_eq]
  rfl

theorem ktreeBitmapTestAndSet_eq (hbit : bit < maxNodes) :
    ktreeBitmapTestAndSet maxNodes bitmap bit =
      some (bitAt bitmap.bits bit, ⟨setBit bitmap.bits bit⟩) := by
  rw [ktreeBitmapTestAndSet, shift_eq, mask_eq, KtreeBitmap.store, if_pos (word_lt hbit),
    setBit_eq_update, tested_eq]
  rfl

/-! ## Sequences of calls -/

/-- What holds after every sequence of calls: the bits of all words are those of the set. -/
structure BitmapInv (maxNodes : Nat) (c : BitmapConfig) : Prop where
  bits : ∀ i, i < 64 * bitmapWords maxNodes → bitAt c.bitmap.bits i = decide (i ∈ c.members)
  inside : ∀ i ∈ c.members, i < maxNodes

theorem clearWords_eq (bits : Nat → Nat) {n i : Nat} (hi : i < n) : clearWords bits n i = 0 := by
  induction n with
  | zero => exact absurd hi (Nat.not_lt_zero i)
  | succ n ih =>
    rw [clearWords, Function.update_apply]
    split
    · rfl
    · exact ih (by omega)

theorem bitmapInv_init (bitmap : KtreeBitmap) :
    BitmapInv maxNodes (BitmapConfig.init maxNodes bitmap) where
  bits i hi := by
    have hword : clearWords bitmap.bits (bitmapWords maxNodes) (i / 64) = 0 :=
      clearWords_eq bitmap.bits (by omega)
    show (clearWords bitmap.bits (bitmapWords maxNodes) (i / 64)).testBit (i % 64) = _
    rw [hword, Nat.zero_testBit]
    rfl
  inside i hi := absurd hi (Finset.notMem_empty i)

theorem BitmapInv.insert (h : BitmapInv maxNodes c) (hbit : bit < maxNodes) :
    BitmapInv maxNodes ⟨⟨setBit c.bitmap.bits bit⟩, insert bit c.members⟩ where
  bits i hi := by
    rw [bitAt_setBit, h.bits i hi, ← Bool.decide_or]
    apply decide_eq_decide.mpr
    rw [Finset.mem_insert, or_comm]
  inside i hi := by
    rcases Finset.mem_insert.mp hi with rfl | hi
    · exact hbit
    · exact h.inside i hi

theorem BitmapInv.erase (h : BitmapInv maxNodes c) (bit : Nat) :
    BitmapInv maxNodes ⟨⟨clearBit c.bitmap.bits bit⟩, c.members.erase bit⟩ where
  bits i hi := by
    rw [bitAt_clearBit, h.bits i hi, ← decide_not, ← Bool.decide_and]
    apply decide_eq_decide.mpr
    rw [Finset.mem_erase, and_comm]
  inside i hi := h.inside i (Finset.mem_of_mem_erase hi)

theorem BitmapInv.call (h : BitmapInv maxNodes c) {call : BitmapCall}
    (hbit : IsIndex maxNodes call.bit) :
    ∃ c', c.call maxNodes call = some c' ∧ BitmapInv maxNodes c' := by
  cases call with
  | set bit =>
    have hlt : bit < maxNodes := hbit.1
    exact ⟨_, by rw [BitmapConfig.call, ktreeBitmapSet_eq hlt]; rfl, h.insert hlt⟩
  | clear bit =>
    have hlt : bit < maxNodes := hbit.1
    exact ⟨_, by rw [BitmapConfig.call, ktreeBitmapClear_eq hlt]; rfl, h.erase bit⟩
  | testAndSet bit =>
    have hlt : bit < maxNodes := hbit.1
    exact ⟨_, by rw [BitmapConfig.call, ktreeBitmapTestAndSet_eq hlt]; rfl, h.insert hlt⟩

/-! ## Counting -/

theorem countWords_eq (bits : Nat → Nat) (n : Nat) :
    countWords bits n = Nat.count (fun i => bitAt bits i = true) (64 * n) % 2 ^ 32 := by
  induction n with
  | zero => rfl
  | succ n ih => rw [countWords, ih, count_bitAt_succ, Nat.mod_add_mod]

theorem BitmapInv.count (h : BitmapInv maxNodes c) :
    ktreeBitmapCount maxNodes c.bitmap = c.members.card % 2 ^ 32 := by
  rw [ktreeBitmapCount, countWords_eq, Nat.count_eq_card_filter_range]
  congr 2
  ext i
  rw [Finset.mem_filter, Finset.mem_range]
  constructor
  · rintro ⟨hi, hbit⟩
    rw [h.bits i hi] at hbit
    exact of_decide_eq_true hbit
  · intro hi
    have hlt := lt_bitmapWords (h.inside i hi)
    exact ⟨hlt, by rw [h.bits i hlt]; exact decide_eq_true hi⟩

theorem BitmapInv.card_le (h : BitmapInv maxNodes c) : c.members.card ≤ maxNodes := by
  have hsub : c.members ⊆ Finset.range maxNodes :=
    fun i hi => Finset.mem_range.mpr (h.inside i hi)
  simpa using Finset.card_le_card hsub

theorem BitmapInv.isSet (h : BitmapInv maxNodes c) : IsSet maxNodes c where
  test bit hbit := by rw [ktreeBitmapTest_eq hbit.1, h.bits bit (lt_bitmapWords hbit.1)]
  testAndSet bit hbit :=
    ⟨_, by rw [ktreeBitmapTestAndSet_eq hbit.1, h.bits bit (lt_bitmapWords hbit.1)]⟩
  count := h.count
  count_exact hmax := by
    rw [h.count]
    exact Nat.mod_eq_of_lt (Nat.lt_of_le_of_lt h.card_le hmax)

end

/-- **The bitmap is a finite set.**  Every sequence of calls on indices after
`ktree_bitmap_init` stays inside the array and leaves the set it describes: the tests
return membership, and the count is the number of members, in 32 bits. -/
theorem ktree_bitmap_isSet (maxNodes : Nat) (bitmap : KtreeBitmap) (calls : List BitmapCall)
    (hcalls : ∀ call ∈ calls, IsIndex maxNodes call.bit) :
    ∃ c, calls.foldlM (BitmapConfig.call maxNodes) (BitmapConfig.init maxNodes bitmap) = some c ∧
      IsSet maxNodes c := by
  obtain ⟨c, hrun, hinv⟩ := calls_invariant (BitmapInv maxNodes)
    (fun c call hcall h => h.call (hcalls call hcall)) (bitmapInv_init bitmap)
  exact ⟨c, hrun, hinv.isSet⟩

/-- A bitmap whose last word is used in part. -/
theorem ktree_bitmap_isSet_part :
    ∃ c, [BitmapCall.set 70, .testAndSet 3, .clear 70].foldlM (BitmapConfig.call 100)
        (BitmapConfig.init 100 ⟨fun _ => 1⟩) = some c ∧ IsSet 100 c :=
  ktree_bitmap_isSet 100 _ _ (by unfold IsIndex; decide)

/-! ## The largest set -/

/-- Setting the first indices one after the other. -/
theorem set_range (maxNodes n : Nat) (hn : n ≤ maxNodes) (bitmap : KtreeBitmap) :
    ∃ c, ((List.range n).map BitmapCall.set).foldlM (BitmapConfig.call maxNodes)
        (BitmapConfig.init maxNodes bitmap) = some c ∧
      BitmapInv maxNodes c ∧ c.members = Finset.range n := by
  induction n with
  | zero => exact ⟨_, rfl, bitmapInv_init bitmap, rfl⟩
  | succ n ih =>
    obtain ⟨c, hrun, hinv, hmembers⟩ := ih (by omega)
    refine ⟨⟨⟨setBit c.bitmap.bits n⟩, insert n c.members⟩, ?_, hinv.insert hn, ?_⟩
    · rw [List.range_succ, List.map_append, List.foldlM_append, hrun]
      show (BitmapConfig.call maxNodes c (.set n)).bind some = _
      rw [Option.bind_fun_some, BitmapConfig.call, ktreeBitmapSet_eq hn]
      rfl
    · rw [hmembers, Finset.range_add_one]

/-- With all `2 ^ 32` indices in it, the set has the count of the empty one. -/
theorem ktree_bitmap_count_wraps :
    ∃ c, ((List.range (2 ^ 32)).map BitmapCall.set).foldlM (BitmapConfig.call (2 ^ 32))
        (BitmapConfig.init (2 ^ 32) ⟨fun _ => 0⟩) = some c ∧
      (∀ call ∈ (List.range (2 ^ 32)).map BitmapCall.set, IsIndex (2 ^ 32) call.bit) ∧
      c.members.card = 2 ^ 32 ∧ ktreeBitmapCount (2 ^ 32) c.bitmap = 0 := by
  obtain ⟨c, hrun, hinv, hmembers⟩ := set_range (2 ^ 32) (2 ^ 32) (Nat.le_refl _) ⟨fun _ => 0⟩
  have hcard : c.members.card = 2 ^ 32 := by rw [hmembers, Finset.card_range]
  refine ⟨c, hrun, ?_, hcard, ?_⟩
  · intro call hcall
    obtain ⟨bit, hbit, rfl⟩ := List.mem_map.mp hcall
    exact ⟨List.mem_range.mp hbit, List.mem_range.mp hbit⟩
  · rw [hinv.count, hcard, Nat.mod_self]

end FarouKernel.Ports.Ktree
