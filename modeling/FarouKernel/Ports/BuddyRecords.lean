import FarouKernel.Ports.BuddyModel

/-!
# The records of the buddy allocator

As long as every pointer in use is the address of an element of `memory_blocks`, the
bytes behave like an array of records: a write to a field changes that field of that
record and nothing else.  `recordAt` reads a record as a whole, and each lemma says what
a write, `kfree` or `init_memory` makes of the records.
-/

namespace FarouKernel.Ports.Buddy

open Verified ByteMem

/-- The fields of a `memory_block`. -/
@[ext]
structure Block where
  size : Nat
  isFree : Bool
  next : Nat
  buddy : Nat

/-- The record at an address. -/
def recordAt (m : ByteMem) (p : Nat) : Block :=
  ⟨sizeAt m p, isFreeAt m p, nextAt m p, buddyAt m p⟩

theorem sizeAt_eq (m : ByteMem) (p : Nat) : sizeAt m p = (recordAt m p).size := rfl

theorem isFreeAt_eq (m : ByteMem) (p : Nat) : isFreeAt m p = (recordAt m p).isFree := rfl

theorem nextAt_eq (m : ByteMem) (p : Nat) : nextAt m p = (recordAt m p).next := rfl

theorem buddyAt_eq (m : ByteMem) (p : Nat) : buddyAt m p = (recordAt m p).buddy := rfl

/-- Where the linker may put `memory_blocks` on x86-64: a large array is aligned to 16
bytes, the first page is never mapped, and addresses are canonical. -/
structure Layout where
  base : Nat
  aligned : base % 16 = 0
  mapped : 4096 ≤ base
  canonical : base + recordSize * blockCount ≤ 2 ^ 47 ∨
    2 ^ 64 - 2 ^ 47 ≤ base ∧ base + recordSize * blockCount ≤ 2 ^ 64

variable {l : Layout} {m m' : ByteMem} {p q v : Nat}

/-- The address of an element of `memory_blocks`. -/
def IsRecord (l : Layout) (p : Nat) : Prop := ∃ i < blockCount, p = recordAddr l.base i

theorem isRecord_recordAddr {i : Nat} (h : i < blockCount) : IsRecord l (recordAddr l.base i) :=
  ⟨i, h, rfl⟩

theorem Layout.end_le (l : Layout) : l.base + 2 ^ 21 ≤ 2 ^ 64 := by
  have hcanonical := l.canonical
  simp only [recordSize, blockCount, memorySize, blockSize] at hcanonical
  omega

/-- A record lies in the address space, and at a multiple of 32 bytes from the first. -/
theorem IsRecord.bounds (hp : IsRecord l p) :
    l.base ≤ p ∧ p + 32 ≤ l.base + 2 ^ 21 ∧ (p - l.base) % 32 = 0 := by
  obtain ⟨i, hi, rfl⟩ := hp
  simp only [recordAddr, recordSize, blockCount, memorySize, blockSize] at hi ⊢
  omega

theorem IsRecord.lt (hp : IsRecord l p) : p < 2 ^ 64 := by
  have := hp.bounds
  have := l.end_le
  omega

theorem IsRecord.ne_zero (hp : IsRecord l p) : p ≠ 0 := by
  have := hp.bounds
  have := l.mapped
  omega

/-- Two records are one or lie apart. -/
theorem IsRecord.apart (hp : IsRecord l p) (hq : IsRecord l q) (hne : q ≠ p) :
    q + 32 ≤ p ∨ p + 32 ≤ q := by
  have := hp.bounds
  have := hq.bounds
  omega

/-! ## Writing a field -/

/-- A record is read from its own bytes. -/
theorem recordAt_congr (h : ∀ x, p ≤ x → x < p + 32 → m x = m' x) :
    recordAt m p = recordAt m' p := by
  have hword : ∀ offset, offset + 8 ≤ 32 → read64 m (p + offset) = read64 m' (p + offset) := by
    intro offset hoffset
    exact read64_congr fun x hlo hhi => h x (by omega) (by omega)
  have hsize : read64 m p = read64 m' p := hword 0 (by omega)
  have hbyte : m (p + 8) = m' (p + 8) := h (p + 8) (by omega) (by omega)
  unfold recordAt sizeAt isFreeAt nextAt buddyAt
  rw [hsize, hbyte, hword 16 (by omega), hword 24 (by omega)]

theorem isFreeAt_write64 {a b : Nat} (h : b + 8 < a ∨ a + 8 ≤ b + 8) :
    isFreeAt (write64 m a v) b = isFreeAt m b := by
  unfold isFreeAt
  rw [write64_apply_of_outside h]

theorem read64_setFree {b : Bool} {a : Nat} (h : a + 8 ≤ p + 8 ∨ p + 9 ≤ a) :
    read64 (setFree p b m) a = read64 m a :=
  read64_congr fun _ _ _ => fill_apply_of_outside (by omega)

theorem recordAt_setSize_same (hv : v < 2 ^ 64) :
    recordAt (setSize p v m) p = { recordAt m p with size := v } := by
  unfold recordAt sizeAt nextAt buddyAt setSize
  rw [read64_write64_of_lt hv, isFreeAt_write64 (by omega),
    read64_write64_of_disjoint (by omega), read64_write64_of_disjoint (by omega)]

theorem recordAt_setNext_same (hv : v < 2 ^ 64) :
    recordAt (setNext p v m) p = { recordAt m p with next := v } := by
  unfold recordAt sizeAt nextAt buddyAt setNext
  rw [read64_write64_of_lt hv, isFreeAt_write64 (by omega),
    read64_write64_of_disjoint (by omega), read64_write64_of_disjoint (by omega)]

theorem recordAt_setBuddy_same (hv : v < 2 ^ 64) :
    recordAt (setBuddy p v m) p = { recordAt m p with buddy := v } := by
  unfold recordAt sizeAt nextAt buddyAt setBuddy
  rw [read64_write64_of_lt hv, isFreeAt_write64 (by omega),
    read64_write64_of_disjoint (by omega), read64_write64_of_disjoint (by omega)]

theorem recordAt_setFree_same {b : Bool} :
    recordAt (setFree p b m) p = { recordAt m p with isFree := b } := by
  have hfree : isFreeAt (setFree p b m) p = b := by
    cases b <;> simp [isFreeAt, setFree, fill]
  unfold recordAt sizeAt nextAt buddyAt
  rw [hfree, read64_setFree (by omega), read64_setFree (by omega), read64_setFree (by omega)]

/-- The records in memory, as a function. -/
def Holds (l : Layout) (m : ByteMem) (f : Nat → Block) : Prop :=
  ∀ q, IsRecord l q → recordAt m q = f q

theorem holds_recordAt (l : Layout) (m : ByteMem) : Holds l m (recordAt m) := fun _ _ => rfl

namespace Holds

variable {f : Nat → Block}

variable (h : Holds l m f) (hp : IsRecord l p)

include h hp

/-- A write inside one record leaves the other records alone. -/
theorem within {a : Block} (hself : recordAt m' p = a)
    (hout : ∀ x, x < p ∨ p + 32 ≤ x → m' x = m x) : Holds l m' (Function.update f p a) := by
  intro q hq
  by_cases hqp : q = p
  · rw [hqp, Function.update_self, hself]
  · have hapart := hp.apart hq hqp
    rw [Function.update_of_ne hqp, ← h q hq]
    exact recordAt_congr fun x _ _ => hout x (by omega)

theorem setSize (hv : v < 2 ^ 64) :
    Holds l (setSize p v m) (Function.update f p { f p with size := v }) := by
  rw [← h p hp]
  exact h.within hp (recordAt_setSize_same hv) fun x _ => write64_apply_of_outside (by omega)

theorem setNext (hv : v < 2 ^ 64) :
    Holds l (setNext p v m) (Function.update f p { f p with next := v }) := by
  rw [← h p hp]
  exact h.within hp (recordAt_setNext_same hv) fun x _ => write64_apply_of_outside (by omega)

theorem setBuddy (hv : v < 2 ^ 64) :
    Holds l (setBuddy p v m) (Function.update f p { f p with buddy := v }) := by
  rw [← h p hp]
  exact h.within hp (recordAt_setBuddy_same hv) fun x _ => write64_apply_of_outside (by omega)

theorem setFree (b : Bool) :
    Holds l (setFree p b m) (Function.update f p { f p with isFree := b }) := by
  rw [← h p hp]
  exact h.within hp recordAt_setFree_same fun x _ => fill_apply_of_outside (by omega)

end Holds

/-! ## `kfree` -/

variable {j n : Nat} {f : Nat → Block}

/-- What an update keeps of one record it keeps of all. -/
theorem field_update {α : Type} (field : Block → α) {a : Block} (h : field a = field (f p)) :
    field (Function.update f p a q) = field (f q) := by
  by_cases hqp : q = p
  · rw [hqp, Function.update_self, h]
  · rw [Function.update_of_ne hqp]

/-- A block merged with its buddy `b`. -/
def Block.merged (p : Nat) (a b : Block) : Block :=
  ⟨add64 a.size b.size, a.isFree, b.next, p⟩

/-- `merge_blocks` on a block whose buddy is free and has the block as its buddy. -/
theorem Holds.mergeBlocks {b : Nat} (h : Holds l m f) (hp : IsRecord l p) (hb : (f p).buddy = b)
    (hrecord : IsRecord l b) (hback : (f b).buddy = p) (hfree : (f b).isFree = true) :
    Holds l (mergeBlocks p m) (Function.update f p (.merged p (f p) (f b))) := by
  have hlt : (f b).next < 2 ^ 64 := by
    rw [← h b hrecord]
    exact read64_lt m _
  have h1 := h.setSize hp (add64_lt (f p).size (f b).size)
  have h2 := h1.setNext hp hlt
  have h3 := h2.setBuddy hp hp.lt
  -- The pointers that are read between the writes.
  have hnext := congrArg Block.next (h1 b hrecord)
  have hbuddy := congrArg Block.buddy (h2 b hrecord)
  have hself := congrArg Block.buddy (h3 p hp)
  rw [field_update Block.next (by rfl)] at hnext
  rw [field_update Block.buddy (by rfl), field_update Block.buddy (by rfl), hback] at hbuddy
  rw [Function.update_self] at hself
  have hmerge : Buddy.mergeBlocks p m = Buddy.setBuddy p p (Buddy.setBuddy p p
      (Buddy.setNext p (f b).next (Buddy.setSize p (add64 (f p).size (f b).size) m))) := by
    unfold Buddy.mergeBlocks
    simp only [buddyAt_eq, isFreeAt_eq, sizeAt_eq, nextAt_eq, h p hp, hb, h b hrecord, hfree,
      if_true, hnext, hbuddy, hself]
  have h4 := h3.setBuddy hp hp.lt
  simp only [Function.update_idem, Function.update_self] at h4
  rw [hmerge]
  exact h4

/-- `kfree` of a block whose buddy is another one, in use. -/
theorem recordAt_kfree_of_used (hp : IsRecord l p) (hq : IsRecord l q)
    (hbuddy : IsRecord l (recordAt m p).buddy) (hne : (recordAt m p).buddy ≠ p)
    (hused : (recordAt m (recordAt m p).buddy).isFree = false) :
    recordAt (kfree p m) q =
      Function.update (recordAt m) p { recordAt m p with isFree := true } q := by
  have h := (holds_recordAt l m).setFree hp true
  have hskip : mergeBlocks p (setFree p true m) = setFree p true m := by
    unfold mergeBlocks
    simp only [buddyAt_eq, isFreeAt_eq, h p hp, Function.update_self, h _ hbuddy,
      Function.update_of_ne hne, hused, Bool.false_eq_true, if_false]
  rw [kfree, hskip]
  exact h q hq

/-- `kfree` of a block whose buddy is itself or free. -/
theorem recordAt_kfree_of_free (hp : IsRecord l p) (hq : IsRecord l q)
    (hbuddy : IsRecord l (recordAt m p).buddy)
    (hback : (recordAt m (recordAt m p).buddy).buddy = p)
    (hfree : (recordAt m p).buddy = p ∨ (recordAt m (recordAt m p).buddy).isFree = true) :
    recordAt (kfree p m) q = Function.update (recordAt m) p
      { Block.merged p (recordAt m p) (recordAt m (recordAt m p).buddy) with isFree := true }
      q := by
  obtain ⟨b, hb⟩ : ∃ b, (recordAt m p).buddy = b := ⟨_, rfl⟩
  obtain ⟨f, hf⟩ : ∃ f, f = Function.update (recordAt m) p { recordAt m p with isFree := true } :=
    ⟨_, rfl⟩
  rw [hb] at hbuddy hback hfree ⊢
  have h : Holds l (setFree p true m) f := hf ▸ (holds_recordAt l m).setFree hp true
  have hself : f p = { recordAt m p with isFree := true } := by rw [hf, Function.update_self]
  have hsize : (f b).size = (recordAt m b).size := hf ▸ field_update Block.size rfl
  have hnext : (f b).next = (recordAt m b).next := hf ▸ field_update Block.next rfl
  have hkeep : (f b).buddy = (recordAt m b).buddy := hf ▸ field_update Block.buddy rfl
  have hfree' : (f b).isFree = true := by
    by_cases hbp : b = p
    · rw [hbp, hself]
    · rw [hf, Function.update_of_ne hbp]
      exact hfree.resolve_left hbp
  have hmerged : Block.merged p (f p) (f b) =
      { Block.merged p (recordAt m p) (recordAt m b) with isFree := true } := by
    rw [Block.merged, hsize, hnext, hself]
    rfl
  have hrun := h.mergeBlocks hp (hself ▸ hb) hbuddy (hkeep.trans hback) hfree' q hq
  rw [hmerged, hf, Function.update_idem] at hrun
  exact hrun

/-! ## `init_memory` -/

theorem recordAddr_inj {base i : Nat} : recordAddr base i = recordAddr base j ↔ i = j := by
  unfold recordAddr recordSize
  omega

theorem Holds.clearRecord (h : Holds l m f) (hp : IsRecord l p) :
    Holds l (clearRecord p m) (Function.update f p ⟨blockSize, true, 0, 0⟩) := by
  have hsize : blockSize < 2 ^ 64 := by decide
  have hzero : 0 < 2 ^ 64 := by decide
  have hset := (((h.setSize hp hsize).setFree hp true).setNext hp hzero).setBuddy hp hzero
  simp only [Function.update_idem, Function.update_self] at hset
  exact hset

theorem recordAt_clearLoop (hn : n ≤ blockCount) (hj : j < n) :
    recordAt (clearLoop l.base n m) (recordAddr l.base j) = ⟨blockSize, true, 0, 0⟩ := by
  induction n with
  | zero => exact absurd hj (Nat.not_lt_zero j)
  | succ n ih =>
    rw [clearLoop, (holds_recordAt l _).clearRecord (isRecord_recordAddr hn) _
      (isRecord_recordAddr (Nat.lt_of_lt_of_le hj hn))]
    by_cases hjn : j = n
    · rw [hjn, Function.update_self]
    · rw [Function.update_of_ne (mt recordAddr_inj.mp hjn)]
      exact ih (by omega) (by omega)

/-- The index of the buddy. -/
def partner (j : Nat) : Nat := if j % 2 = 0 then j + 1 else j - 1

/-- The buddies of the pairs that begin below `n` are set. -/
theorem recordAt_pairLoop (hn : n ≤ blockCount) (hj : j < blockCount) :
    recordAt (pairLoop l.base n m) (recordAddr l.base j) =
      if j / 2 * 2 < n then
        { recordAt m (recordAddr l.base j) with buddy := recordAddr l.base (partner j) }
      else recordAt m (recordAddr l.base j) := by
  induction n with
  | zero => rfl
  | succ n ih =>
    have ih := ih (by omega)
    rw [pairLoop, pairRecord]
    by_cases heven : n % 2 = 0
    · have hnext : n + 1 < blockCount := by
        simp only [blockCount, memorySize, blockSize] at hn ⊢
        omega
      have hn' : n < blockCount := by omega
      have hfst := isRecord_recordAddr (l := l) hn'
      have hsnd := isRecord_recordAddr (l := l) hnext
      have hset := ((holds_recordAt l (pairLoop l.base n m)).setBuddy hfst hsnd.lt).setBuddy hsnd
        hfst.lt
      rw [if_pos heven, hset _ (isRecord_recordAddr hj)]
      by_cases hsecond : j = n + 1
      · subst hsecond
        rw [Function.update_self, Function.update_of_ne (mt recordAddr_inj.mp (by omega)), ih,
          if_neg (by omega), if_pos (by omega), partner, if_neg (by omega), Nat.add_sub_cancel]
      · rw [Function.update_of_ne (mt recordAddr_inj.mp hsecond)]
        by_cases hfirst : j = n
        · subst hfirst
          rw [Function.update_self, ih, if_neg (by omega), if_pos (by omega), partner, if_pos heven]
        · rw [Function.update_of_ne (mt recordAddr_inj.mp hfirst), ih]
          exact if_congr (by omega) rfl rfl
    · rw [if_neg heven, ih]
      exact if_congr (by omega) rfl rfl

/-- After `n` rounds of the third loop the first `n` records are linked. -/
theorem recordAt_linkLoop (hn : n < blockCount) :
    (linkLoop l.base n m).1 = recordAddr l.base n ∧
      ∀ j < blockCount, recordAt (linkLoop l.base n m).2 (recordAddr l.base j) =
        if j < n then
          { recordAt m (recordAddr l.base j) with next := recordAddr l.base (j + 1) }
        else recordAt m (recordAddr l.base j) := by
  induction n with
  | zero => exact ⟨rfl, fun j _ => rfl⟩
  | succ n ih =>
    obtain ⟨hcurrent, hrecords⟩ := ih (by omega)
    have hn' : n < blockCount := by omega
    have hrecord := isRecord_recordAddr (l := l) hn'
    rw [linkLoop, linkRecord, hcurrent]
    constructor
    · rw [nextAt_eq, recordAt_setNext_same (isRecord_recordAddr hn).lt]
    · intro j hj
      rw [(holds_recordAt l _).setNext hrecord (isRecord_recordAddr hn).lt _
        (isRecord_recordAddr hj)]
      by_cases hjn : j = n
      · subst hjn
        rw [Function.update_self, hrecords j hj, if_neg (by omega), if_pos (by omega)]
      · rw [Function.update_of_ne (mt recordAddr_inj.mp hjn), hrecords j hj]
        exact if_congr (by omega) rfl rfl

/-- `init_memory` leaves free blocks of 16 bytes, paired and on one chain. -/
theorem recordAt_initMemory (hj : j < blockCount) :
    recordAt (initMemory l.base m) (recordAddr l.base j) =
      ⟨blockSize, true, if j + 1 < blockCount then recordAddr l.base (j + 1) else 0,
        recordAddr l.base (partner j)⟩ := by
  have hpair : j / 2 * 2 < blockCount := by omega
  rw [initMemory, (recordAt_linkLoop (by decide)).2 j hj, recordAt_pairLoop (Nat.le_refl _) hj,
    if_pos hpair, recordAt_clearLoop (Nat.le_refl _) hj]
  by_cases hlast : j + 1 < blockCount
  · have hinner : j < blockCount - 1 := by omega
    rw [if_pos hinner, if_pos hlast]
  · have hend : ¬ j < blockCount - 1 := by omega
    rw [if_neg hend, if_neg hlast]

end FarouKernel.Ports.Buddy
