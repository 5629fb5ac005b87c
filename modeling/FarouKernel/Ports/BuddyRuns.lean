import FarouKernel.Ports.BuddySplit
import Mathlib.Order.Bounds.Defs

/-!
# When the buddy allocator keeps its memory partitioned

After `init_memory` the chain has all the blocks, of 16 bytes each.  A call of `kmalloc`
that finds a block of just the rounded size only clears its flag, and a call of `kfree`
whose buddy is in use only sets it; a call of `kfree` whose buddy is the next block merges
the two.  These calls keep the partition.  Every other call ends it at once: a split lets
the chain leave the array, and a merge with a buddy that is not the next block makes the
sizes wrong or the chain a circle.
-/

namespace FarouKernel.Ports.Buddy

open Verified ByteMem

variable {l : Layout} {m : ByteMem} {xs : List Nat} {c : Config}

/-! ## After `init_memory` -/

/-- The records in order. -/
def records (base k n : Nat) : List Nat := (List.range' k n).map (recordAddr base)

variable {size ptr k b : Nat}

theorem chain_records {n : Nat} (hn : k + n = blockCount) :
    Chain 0 (fun p => (recordAt (initMemory l.base m) p).next)
      (if k < blockCount then recordAddr l.base k else 0) (records l.base k n) := by
  induction n generalizing k with
  | zero => exact if_neg (by omega)
  | succ n ih =>
    have hk : k < blockCount := by omega
    have hnext : (recordAt (initMemory l.base m) (recordAddr l.base k)).next =
        if k + 1 < blockCount then recordAddr l.base (k + 1) else 0 := by
      rw [recordAt_initMemory hk]
    have htail := ih (k := k + 1) (by omega)
    rw [← hnext] at htail
    rw [if_pos hk]
    exact ⟨rfl, (isRecord_recordAddr hk).ne_zero, htail⟩

theorem tiles_records {n : Nat} (hn : k + n ≤ blockCount) :
    Tiles (offset l) (fun p => (recordAt (initMemory l.base m) p).size) (blockSize * k)
      (records l.base k n) (blockSize * (k + n)) := by
  induction n generalizing k with
  | zero => rfl
  | succ n ih =>
    have hk : k < blockCount := by omega
    have hstart : offset l (recordAddr l.base k) = blockSize * k := by
      rw [offset, recordAddr, Nat.add_sub_cancel_left, Nat.mul_div_cancel_left k (by decide)]
    have hsize : (recordAt (initMemory l.base m) (recordAddr l.base k)).size = blockSize := by
      rw [recordAt_initMemory hk]
    have htail := ih (k := k + 1) (by omega)
    rw [Nat.mul_add, Nat.mul_one, Nat.add_right_comm] at htail
    refine ⟨hstart, ?_⟩
    show Tiles _ _ (blockSize * k + (recordAt (initMemory l.base m) _).size) _ _
    rw [hsize]
    exact htail

theorem partner_lt {j : Nat} (hj : j < blockCount) : partner j < blockCount := by
  simp only [partner, blockCount, memorySize, blockSize] at hj ⊢
  split <;> omega

theorem partner_partner (j : Nat) : partner (partner j) = j := by
  unfold partner
  split <;> split <;> omega

theorem partition_initMemory :
    Partition l (recordAt (initMemory l.base m)) (records l.base 0 blockCount) := by
  have hmem : ∀ x ∈ records l.base 0 blockCount, ∃ j < blockCount, x = recordAddr l.base j := by
    intro x hx
    obtain ⟨j, hj, rfl⟩ := List.mem_map.mp hx
    exact ⟨j, by simpa using hj, rfl⟩
  constructor
  case chain => exact chain_records (Nat.zero_add _)
  case tiles => exact tiles_records (k := 0) (by decide)
  case isRecord => exact hmem
  case buddy_mem =>
    intro x hx
    obtain ⟨j, hj, rfl⟩ := hmem x hx
    rw [recordAt_initMemory hj]
    exact List.mem_map_of_mem (by simpa using partner_lt hj)
  case buddy_buddy =>
    intro x hx
    obtain ⟨j, hj, rfl⟩ := hmem x hx
    rw [recordAt_initMemory hj, recordAt_initMemory (partner_lt hj), partner_partner]
  case sizes =>
    intro x hx
    obtain ⟨j, hj, rfl⟩ := hmem x hx
    rw [recordAt_initMemory hj]
    exact Or.inl rfl

/-! ## `kmalloc` -/

/-- The rounded size is the first power of 2 that is not below the size. -/
theorem roundLoop_eq {rounds : Nat} (hsize : size ≤ 2 ^ 63) (hk : k ≤ 63)
    (hrounds : 63 - k < rounds) (hbelow : ∀ i < k, 2 ^ i < size) :
    ∃ j, roundLoop size rounds (2 ^ k) = some (2 ^ j) ∧ size ≤ 2 ^ j ∧ ∀ i < j, 2 ^ i < size := by
  induction rounds generalizing k with
  | zero => exact absurd hrounds (Nat.not_lt_zero _)
  | succ rounds ih =>
    rw [roundLoop]
    by_cases hlt : 2 ^ k < size
    · have hk' : k < 63 := by
        have hpow : 2 ^ k < 2 ^ 63 := Nat.lt_of_lt_of_le hlt hsize
        exact (Nat.pow_lt_pow_iff_right (by decide)).mp hpow
      have hdouble : 2 ^ k * 2 % 2 ^ 64 = 2 ^ (k + 1) := by
        rw [← Nat.pow_succ]
        exact Nat.mod_eq_of_lt (Nat.pow_lt_pow_right (by decide) (by omega))
      rw [if_pos hlt, hdouble]
      apply ih hk' (by omega)
      intro i hi
      rcases Nat.lt_succ_iff_lt_or_eq.mp hi with hi | rfl
      · exact hbelow i hi
      · exact hlt
    · rw [if_neg hlt]
      exact ⟨k, rfl, Nat.le_of_not_lt hlt, hbelow⟩

/-- Shifted out of its 64 bits, the rounded size is 0 and stays below the size. -/
theorem roundLoop_none (hsize : 2 ^ 63 < size) (rounds k : Nat) :
    roundLoop size rounds (2 ^ k % 2 ^ 64) = none := by
  induction rounds generalizing k with
  | zero => rfl
  | succ rounds ih =>
    have hle : 2 ^ k % 2 ^ 64 ≤ 2 ^ 63 := by
      by_cases hk : k ≤ 63
      · exact (Nat.mod_le _ _).trans (Nat.pow_le_pow_right (by decide) hk)
      · have hdvd : 2 ^ 64 ∣ 2 ^ k := Nat.pow_dvd_pow 2 (by omega)
        rw [Nat.mod_eq_zero_of_dvd hdvd]
        exact Nat.zero_le _
    rw [roundLoop, if_pos (Nat.lt_of_le_of_lt hle hsize), Nat.mod_mul_mod, ← Nat.pow_succ]
    exact ih (k + 1)

/-- The loop of `kmalloc` ends, with the least power of 2 that is not below the size. -/
def RoundsUp (size : Nat) : Prop :=
  ∃ rounds rounded, roundLoop size rounds 1 = some rounded ∧
    IsLeast {p | size ≤ p ∧ ∃ k, p = 2 ^ k} rounded

theorem roundsUp_of_le (hsize : size ≤ 2 ^ 63) : RoundsUp size := by
  obtain ⟨j, hround, hle, hbelow⟩ :=
    roundLoop_eq (k := 0) hsize (by decide) (show 63 - 0 < 65 by decide) (by simp)
  refine ⟨65, 2 ^ j, hround, ⟨hle, j, rfl⟩, ?_⟩
  rintro p ⟨hp, i, rfl⟩
  by_contra hlt
  have hij : i < j := (Nat.pow_lt_pow_iff_right (by decide)).mp (Nat.lt_of_not_le hlt)
  exact absurd (hbelow i hij) (Nat.not_lt.mpr hp)

/-- Above `2 ^ 63` the loop runs on, so the request is not refused either. -/
theorem not_rounded_of_lt (hsize : 2 ^ 63 < size) (base : Nat) (m : ByteMem) :
    ¬(RoundsUp size ∨ kmalloc base size m = some (0, m)) := by
  have hnone : ∀ rounds, roundLoop size rounds 1 = none :=
    fun rounds => roundLoop_none hsize rounds 0
  rintro (⟨rounds, rounded, hends, _⟩ | hrefused)
  · rw [hnone] at hends
    cases hends
  · rw [kmalloc, roundedSize, hnone] at hrefused
    cases hrefused

/-- **Rounding ends up to `2 ^ 63`.**  The loop of `kmalloc` ends with the least power of 2
that is not below the size, or the request is refused, exactly if the size is at most
`2 ^ 63`. -/
theorem rounds_up_or_refused_iff (base size : Nat) (m : ByteMem) :
    RoundsUp size ∨ kmalloc base size m = some (0, m) ↔ size ≤ 2 ^ 63 := by
  constructor
  · intro h
    by_contra hlarge
    exact not_rounded_of_lt (Nat.lt_of_not_le hlarge) base m h
  · intro hsize
    exact Or.inl (roundsUp_of_le hsize)

/-- One byte more, and the loop runs on. -/
theorem rounding_runs_on :
    ¬(RoundsUp (2 ^ 63 + 1) ∨ kmalloc 4096 (2 ^ 63 + 1) (fun _ => 0) = some (0, fun _ => 0)) :=
  not_rounded_of_lt (by decide) 4096 fun _ => 0

/-- `find_free_block` returns the first block of the chain that is free and large enough. -/
theorem findLoop_of_chain {rounds p : Nat} (h : Chain 0 (nextAt m) p xs)
    (hrounds : xs.length < rounds) :
    findLoop size m rounds p =
      some ((xs.find? fun x => isFreeAt m x && decide (size ≤ sizeAt m x)).getD 0) := by
  induction xs generalizing p rounds with
  | nil =>
    cases rounds with
    | zero => exact absurd hrounds (Nat.not_lt_zero _)
    | succ rounds =>
      have hnull : p = 0 := h
      rw [findLoop, if_pos hnull]
      rfl
  | cons x xs ih =>
    cases rounds with
    | zero => exact absurd hrounds (Nat.not_lt_zero _)
    | succ rounds =>
      obtain ⟨rfl, hne, htail⟩ := h
      rw [findLoop, if_neg hne, List.find?_cons]
      by_cases hfits : isFreeAt m p ∧ size ≤ sizeAt m p
      · rw [if_pos hfits]
        simp [hfits.1, hfits.2]
      · rw [if_neg hfits, ih htail (Nat.lt_of_succ_lt_succ hrounds)]
        have hfalse : (isFreeAt m p && decide (size ≤ sizeAt m p)) = false := by simpa using hfits
        rw [hfalse]

/-- What `kmalloc` does to a partition. -/
theorem Partition.kmalloc_cases (h : Partition l (recordAt m) xs) (hsize : size ≤ memorySize) :
    ∃ j, roundedSize size = some (2 ^ j) ∧ size ≤ 2 ^ j ∧
      ((findFreeBlock l.base (2 ^ j) m = some 0 ∧ kmalloc l.base size m = some (0, m)) ∨
        ∃ b ∈ xs, isFreeAt m b = true ∧ 2 ^ j ≤ sizeAt m b ∧
          findFreeBlock l.base (2 ^ j) m = some b ∧
          kmalloc l.base size m = some (b, takeBlock b (2 ^ j) m)) := by
  obtain ⟨j, hround, hle, _⟩ : ∃ j, roundedSize size = some (2 ^ j) ∧ size ≤ 2 ^ j ∧ _ :=
    roundLoop_eq (k := 0) (hsize.trans (by decide)) (by decide) (by decide) (by simp)
  refine ⟨j, hround, hle, ?_⟩
  have hlength : xs.length < addresses := Nat.lt_of_le_of_lt h.length_le (by decide)
  have hfind : findFreeBlock l.base (2 ^ j) m = _ := findLoop_of_chain h.chain hlength
  cases hfound : xs.find? fun x => isFreeAt m x && decide (2 ^ j ≤ sizeAt m x) with
  | none =>
    left
    rw [hfound] at hfind
    refine ⟨hfind, ?_⟩
    unfold kmalloc
    rw [hround, Option.bind_eq_bind, Option.bind_some, hfind]
    rfl
  | some b =>
    right
    rw [hfound] at hfind
    have hfits := List.find?_some hfound
    rw [Bool.and_eq_true, decide_eq_true_eq] at hfits
    have hb := List.mem_of_find?_eq_some hfound
    have hne : b ≠ 0 := (h.isRecord b hb).ne_zero
    refine ⟨b, hb, hfits.1, hfits.2, hfind, ?_⟩
    unfold kmalloc
    rw [hround, Option.bind_eq_bind, Option.bind_some, hfind]
    exact if_neg hne

/-! ## One call -/

/-- The managed bytes of two blocks are disjoint. -/
def Apart (l : Layout) (m : ByteMem) (p q : Nat) : Prop :=
  offset l p + sizeAt m p ≤ offset l q ∨ offset l q + sizeAt m q ≤ offset l p

/-- The chain from `memory_blocks[0]` has records whose sizes add up to `MEMORY_SIZE`, and
no two blocks that are handed out overlap. -/
def Partitioned (l : Layout) (c : Config) : Prop :=
  (∃ xs, Chain 0 (nextAt c.mem) (recordAddr l.base 0) xs ∧ (∀ x ∈ xs, IsRecord l x) ∧
      (xs.map (sizeAt c.mem)).sum = memorySize) ∧
    c.live.Pairwise (Apart l c.mem)

/-- The calls considered: sizes from 16 bytes to `MEMORY_SIZE`, and pointers that are
handed out. -/
def Legal (c : Config) : Call → Prop
  | .kmalloc size => 16 ≤ size ∧ size ≤ memorySize
  | .kfree ptr => ptr ∈ c.live

/-- The call splits no block, and merges none with a buddy that is not the next block. -/
def Harmless (l : Layout) (c : Config) : Call → Prop
  | .kmalloc size => ∀ rounded block, roundedSize size = some rounded →
      findFreeBlock l.base rounded c.mem = some block →
      block = 0 ∨ sizeAt c.mem block = rounded
  | .kfree ptr =>
    (buddyAt c.mem ptr ≠ ptr ∧ isFreeAt c.mem (buddyAt c.mem ptr) = false) ∨
      nextAt c.mem ptr = buddyAt c.mem ptr

/-- The blocks handed out are blocks of the partition, each once and none of them free. -/
structure Sound (l : Layout) (c : Config) (xs : List Nat) : Prop where
  partition : Partition l (recordAt c.mem) xs
  live_mem : ∀ p ∈ c.live, p ∈ xs
  live_used : ∀ p ∈ c.live, isFreeAt c.mem p = false
  live_nodup : c.live.Nodup

theorem sound_start : Sound l (start l.base m) (records l.base 0 blockCount) := by
  constructor
  case partition => exact partition_initMemory
  case live_mem => exact fun p hp => absurd hp List.not_mem_nil
  case live_used => exact fun p hp => absurd hp List.not_mem_nil
  case live_nodup => exact List.nodup_nil

theorem step_kmalloc (hsome : kmalloc l.base size c.mem = some (b, m)) (hne : b ≠ 0) :
    step l.base c (.kmalloc size) = some ⟨m, b :: c.live⟩ := by
  rw [step, hsome, Option.map_some]
  simp only [hne, if_false]

namespace Sound

section

variable (h : Sound l c xs)

include h

theorem partitioned : Partitioned l c := by
  have htotal := h.partition.tiles.sum_extent
  rw [Nat.zero_add] at htotal
  refine ⟨⟨xs, h.partition.chain, h.partition.isRecord, htotal⟩, ?_⟩
  refine h.live_nodup.imp_of_mem fun hp hq hne => ?_
  exact h.partition.tiles.apart (h.live_mem _ hp) (h.live_mem _ hq) hne

/-- A free block of the partition is handed out. -/
theorem hand_out (hb : b ∈ xs) (hfree : isFreeAt c.mem b = true) :
    Sound l ⟨setFree b false c.mem, b :: c.live⟩ xs := by
  have hrecord := h.partition.isRecord
  have hupdate : ∀ x ∈ xs, recordAt (setFree b false c.mem) x =
      Function.update (recordAt c.mem) b { recordAt c.mem b with isFree := false } x :=
    fun x hx => (holds_recordAt l c.mem).setFree (hrecord b hb) false x (hrecord x hx)
  have hne : ∀ p ∈ c.live, p ≠ b := by
    intro p hp heq
    have hused := h.live_used p hp
    rw [heq, hfree] at hused
    cases hused
  constructor
  case partition =>
    refine h.partition.of_flags fun x hx => ?_
    rw [hupdate x hx]
    by_cases hxb : x = b
    · rw [hxb, Function.update_self]
    · rw [Function.update_of_ne hxb]
  case live_mem =>
    intro p hp
    rcases List.mem_cons.mp hp with rfl | hp
    · exact hb
    · exact h.live_mem p hp
  case live_used =>
    intro p hp
    rcases List.mem_cons.mp hp with rfl | hp
    · rw [isFreeAt_eq, hupdate p hb, Function.update_self]
    · rw [isFreeAt_eq, hupdate p (h.live_mem p hp), Function.update_of_ne (hne p hp)]
      exact h.live_used p hp
  case live_nodup => exact List.nodup_cons.mpr ⟨fun hmem => hne b hmem rfl, h.live_nodup⟩

/-- A block that is handed out is taken back. -/
theorem take_back {m : ByteMem} {xs' : List Nat} (hpartition : Partition l (recordAt m) xs')
    (hmem : ∀ p ∈ c.live, p ≠ ptr → p ∈ xs')
    (hother : ∀ p ∈ xs, p ≠ ptr → recordAt m p = recordAt c.mem p) :
    Sound l ⟨m, c.live.erase ptr⟩ xs' := by
  have hlive : ∀ p ∈ c.live.erase ptr, p ∈ c.live ∧ p ≠ ptr := by
    intro p hp
    have hboth := h.live_nodup.mem_erase_iff.mp hp
    exact ⟨hboth.2, hboth.1⟩
  constructor
  case partition => exact hpartition
  case live_mem => exact fun p hp => hmem p (hlive p hp).1 (hlive p hp).2
  case live_used =>
    intro p hp
    obtain ⟨hold, hne⟩ := hlive p hp
    rw [isFreeAt_eq, hother p (h.live_mem p hold) hne]
    exact h.live_used p hold
  case live_nodup => exact h.live_nodup.erase ptr

/-- `kfree` of a block whose buddy is another one, in use. -/
theorem kfree_used (hptr : ptr ∈ c.live) (hne : buddyAt c.mem ptr ≠ ptr)
    (hused : isFreeAt c.mem (buddyAt c.mem ptr) = false) :
    Sound l ⟨kfree ptr c.mem, c.live.erase ptr⟩ xs := by
  have hp := h.live_mem ptr hptr
  have hrecord := h.partition.isRecord
  have hupdate : ∀ x ∈ xs, recordAt (kfree ptr c.mem) x =
      Function.update (recordAt c.mem) ptr { recordAt c.mem ptr with isFree := true } x :=
    fun x hx => recordAt_kfree_of_used (hrecord ptr hp) (hrecord x hx)
      (hrecord _ (h.partition.buddy_mem ptr hp)) hne hused
  refine h.take_back ?_ (fun p hp _ => h.live_mem p hp) fun p hp hne => ?_
  · refine h.partition.of_flags fun x hx => ?_
    rw [hupdate x hx]
    by_cases hxp : x = ptr
    · rw [hxp, Function.update_self]
    · rw [Function.update_of_ne hxp]
  · rw [hupdate p hp, Function.update_of_ne hne]

/-- `kfree` of a block whose buddy is itself or free is a merge. -/
theorem mergedAt_kfree (hptr : ptr ∈ c.live)
    (hfree : buddyAt c.mem ptr = ptr ∨ isFreeAt c.mem (buddyAt c.mem ptr) = true) :
    MergedAt ptr xs (recordAt c.mem) (recordAt (kfree ptr c.mem)) := by
  have hp := h.live_mem ptr hptr
  have hrecord := h.partition.isRecord
  have hupdate := fun x hx => recordAt_kfree_of_free (hrecord ptr hp) (hrecord x hx)
    (hrecord _ (h.partition.buddy_mem ptr hp)) (h.partition.buddy_buddy ptr hp) hfree
  constructor
  case mem => exact hp
  case self => rw [hupdate ptr hp, Function.update_self]
  case other =>
    intro x hx hne
    rw [hupdate x hx, Function.update_of_ne hne]

/-- `kfree` of a block whose buddy is free and the next block. -/
theorem kfree_next (hptr : ptr ∈ c.live) (hfree : isFreeAt c.mem (buddyAt c.mem ptr) = true)
    (hnext : nextAt c.mem ptr = buddyAt c.mem ptr) :
    ∃ xs', Sound l ⟨kfree ptr c.mem, c.live.erase ptr⟩ xs' := by
  have hmerged := h.mergedAt_kfree hptr (Or.inr hfree)
  obtain ⟨xs', hpartition, hkeep⟩ := hmerged.partition h.partition hnext
  refine ⟨xs', h.take_back hpartition (fun p hp _ => ?_) hmerged.other⟩
  -- The buddy is free, so it is not handed out.
  refine hkeep p (h.live_mem p hp) fun heq => ?_
  have hused := h.live_used p hp
  rw [heq, ← buddyAt_eq, hfree] at hused
  cases hused

/-- A harmless call keeps the partition. -/
theorem step_harmless {call : Call} (hlegal : Legal c call) (hharmless : Harmless l c call) :
    ∃ c', step l.base c call = some c' ∧ ∃ xs', Sound l c' xs' := by
  cases call with
  | kmalloc size =>
    obtain ⟨j, hround, -, hcases⟩ := h.partition.kmalloc_cases hlegal.2
    rcases hcases with ⟨-, hnone⟩ | ⟨b, hb, hfree, -, hfind, hsome⟩
    · exact ⟨c, by rw [step, hnone]; rfl, xs, h⟩
    · have hne : b ≠ 0 := (h.partition.isRecord b hb).ne_zero
      have hexact := (hharmless _ b hround hfind).resolve_left hne
      have htake : takeBlock b (2 ^ j) c.mem = setFree b false c.mem := by
        rw [takeBlock, hexact, if_neg (Nat.lt_irrefl _)]
      rw [htake] at hsome
      exact ⟨_, step_kmalloc hsome hne, xs, h.hand_out hb hfree⟩
  | kfree ptr =>
    have hptr : ptr ∈ c.live := hlegal
    refine ⟨⟨kfree ptr c.mem, c.live.erase ptr⟩, rfl, ?_⟩
    rcases hharmless with ⟨hne, hused⟩ | hnext
    · exact ⟨xs, h.kfree_used hptr hne hused⟩
    · cases hfree : isFreeAt c.mem (buddyAt c.mem ptr) with
      | true => exact h.kfree_next hptr hfree hnext
      | false =>
        obtain ⟨_, _, -, hne, -⟩ := h.partition.split_buddy (h.live_mem ptr hptr) hnext
        exact ⟨xs, h.kfree_used hptr hne hfree⟩

/-- A block that is split has 32 bytes and is cut in the middle. -/
theorem split_size {j : Nat} (hb : b ∈ xs) (hlow : 16 ≤ 2 ^ j) (hfits : 2 ^ j < sizeAt c.mem b) :
    sizeAt c.mem b = 32 ∧ 2 ^ j = 16 := by
  have hsize : sizeAt c.mem b = 32 := by
    rcases h.partition.sizes b hb with hsmall | hmerged
    · have hsmall : sizeAt c.mem b = 16 := hsmall
      omega
    · exact hmerged.1
  have hj : j < 5 := by
    have hpow : 2 ^ j < 2 ^ 5 := Nat.lt_of_lt_of_eq hfits hsize
    exact (Nat.pow_lt_pow_iff_right (by decide)).mp hpow
  have hj' : 4 ≤ j := by
    have hpow : 2 ^ 4 ≤ 2 ^ j := hlow
    exact (Nat.pow_le_pow_iff_right (by decide)).mp hpow
  have hfour : j = 4 := by omega
  subst hfour
  exact ⟨hsize, rfl⟩

/-- Any other call ends it. -/
theorem step_harmful {call : Call} (hlegal : Legal c call) (hharmful : ¬ Harmless l c call)
    {c' : Config} (hstep : step l.base c call = some c') : ¬ Partitioned l c' := by
  rintro ⟨⟨zs, hchain, hrecords, hsum⟩, -⟩
  cases call with
  | kmalloc size =>
    obtain ⟨j, hround, hle, hcases⟩ := h.partition.kmalloc_cases hlegal.2
    rcases hcases with ⟨hnull, -⟩ | ⟨b, hb, -, hfits, hfind, hsome⟩
    · refine hharmful fun rounded block hrounded hblock => Or.inl ?_
      rw [hround, Option.some.injEq] at hrounded
      rw [← hrounded, hnull, Option.some.injEq] at hblock
      exact hblock.symm
    · have hne : b ≠ 0 := (h.partition.isRecord b hb).ne_zero
      have hinexact : sizeAt c.mem b ≠ 2 ^ j := by
        refine fun hexact => hharmful fun rounded block hrounded hblock => Or.inr ?_
        rw [hround, Option.some.injEq] at hrounded
        rw [← hrounded, hfind, Option.some.injEq] at hblock
        rw [← hblock, hexact, hrounded]
      obtain ⟨hsize, hhalf⟩ := h.split_size hb (Nat.le_trans hlegal.1 hle)
        (Nat.lt_of_le_of_ne hfits hinexact.symm)
      rw [step_kmalloc hsome hne, hhalf, Option.some.injEq] at hstep
      subst hstep
      exact h.partition.not_chain_of_split hb hsize hchain hrecords
  | kfree ptr =>
    have hptr : ptr ∈ c.live := hlegal
    cases hstep
    obtain ⟨hmerges, hnext⟩ := not_or.mp hharmful
    have hfree : buddyAt c.mem ptr = ptr ∨ isFreeAt c.mem (buddyAt c.mem ptr) = true := by
      rw [not_and_or, not_not, Bool.not_eq_false] at hmerges
      exact hmerges
    exact (h.mergedAt_kfree hptr hfree).not_partition h.partition hnext hchain hsum

end

end Sound

/-! ## Sequences of calls -/

/-- All calls of a sequence are of those considered, as far as they return. -/
def LegalRun (l : Layout) : Config → List Call → Prop
  | _, [] => True
  | c, call :: calls =>
    Legal c call ∧ ∀ c', step l.base c call = some c' → LegalRun l c' calls

/-- Every call of a sequence returns, and the memory is partitioned at every moment. -/
def StaysPartitioned (l : Layout) : Config → List Call → Prop
  | c, [] => Partitioned l c
  | c, call :: calls =>
    Partitioned l c ∧ ∃ c', step l.base c call = some c' ∧ StaysPartitioned l c' calls

/-- All calls of a sequence are harmless. -/
def AllHarmless (l : Layout) : Config → List Call → Prop
  | _, [] => True
  | c, call :: calls =>
    Harmless l c call ∧ ∀ c', step l.base c call = some c' → AllHarmless l c' calls

theorem StaysPartitioned.head {calls : List Call} (h : StaysPartitioned l c calls) :
    Partitioned l c := by
  cases calls with
  | nil => exact h
  | cons call calls => exact h.1

/-- The calls from a sound configuration on, by induction on them. -/
theorem Sound.staysPartitioned_iff {calls : List Call} (h : Sound l c xs)
    (hlegal : LegalRun l c calls) : StaysPartitioned l c calls ↔ AllHarmless l c calls := by
  induction calls generalizing c xs with
  | nil => exact iff_of_true h.partitioned trivial
  | cons call calls ih =>
    constructor
    · rintro ⟨-, c', hstep, hrest⟩
      have hharmless : Harmless l c call := by
        by_contra hharmful
        exact h.step_harmful hlegal.1 hharmful hstep hrest.head
      obtain ⟨c1, hstep1, xs1, h1⟩ := h.step_harmless hlegal.1 hharmless
      refine ⟨hharmless, fun c2 hstep2 => ?_⟩
      rw [hstep, Option.some.injEq] at hstep1 hstep2
      subst hstep1 hstep2
      exact (ih h1 (hlegal.2 _ hstep)).mp hrest
    · rintro ⟨hharmless, hrest⟩
      obtain ⟨c', hstep, xs', h'⟩ := h.step_harmless hlegal.1 hharmless
      exact ⟨h.partitioned, c', hstep, (ih h' (hlegal.2 _ hstep)).mpr (hrest _ hstep)⟩

/-! ## The first block -/

/-- `kmalloc` hands out the first record, if that is free and of the rounded size. -/
theorem kmalloc_first {rounded : Nat} (hround : roundedSize size = some rounded)
    (hfree : (recordAt c.mem (recordAddr l.base 0)).isFree = true)
    (hsize : (recordAt c.mem (recordAddr l.base 0)).size = rounded) :
    Harmless l c (.kmalloc size) ∧ step l.base c (.kmalloc size) =
      some ⟨setFree (recordAddr l.base 0) false c.mem, recordAddr l.base 0 :: c.live⟩ := by
  have hne : recordAddr l.base 0 ≠ 0 := (isRecord_recordAddr (l := l) (by decide)).ne_zero
  have hfits : sizeAt c.mem (recordAddr l.base 0) = rounded := hsize
  have hfind : findFreeBlock l.base rounded c.mem = some (recordAddr l.base 0) := by
    obtain ⟨rounds, hrounds⟩ : ∃ rounds, addresses = rounds + 1 := ⟨2 ^ 64 - 1, rfl⟩
    rw [findFreeBlock, hrounds, findLoop, if_neg hne, if_pos ⟨hfree, Nat.le_of_eq hfits.symm⟩]
  constructor
  · intro rounded' block hround' hblock
    rw [hround, Option.some.injEq] at hround'
    rw [← hround', hfind, Option.some.injEq] at hblock
    rw [← hblock, hfits, hround']
    exact Or.inr rfl
  · refine step_kmalloc ?_ hne
    unfold kmalloc
    rw [hround, Option.bind_eq_bind, Option.bind_some, hfind, Option.bind_some, if_neg hne,
      takeBlock, hfits, if_neg (Nat.lt_irrefl _)]

/-- The first block handed out. -/
def firstHeld (l : Layout) (m : ByteMem) : Config :=
  ⟨setFree (recordAddr l.base 0) false (initMemory l.base m), [recordAddr l.base 0]⟩

/-- The first block taken back. -/
def firstFreed (l : Layout) (m : ByteMem) : Config :=
  ⟨kfree (recordAddr l.base 0) (firstHeld l m).mem, []⟩

section

variable (l : Layout) (m : ByteMem)

theorem recordAt_firstHeld :
    recordAt (firstHeld l m).mem (recordAddr l.base 0) =
      ⟨16, false, recordAddr l.base 1, recordAddr l.base 1⟩ := by
  rw [firstHeld, recordAt_setFree_same, recordAt_initMemory (by decide)]
  rfl

theorem recordAt_second :
    recordAt (firstHeld l m).mem (recordAddr l.base 1) =
      ⟨16, true, recordAddr l.base 2, recordAddr l.base 0⟩ := by
  rw [firstHeld, (holds_recordAt l _).setFree (isRecord_recordAddr (by decide)) false _
    (isRecord_recordAddr (by decide)), Function.update_of_ne (mt recordAddr_inj.mp (by decide)),
    recordAt_initMemory (by decide)]
  rfl

/-- The first block taken back is merged with the second. -/
theorem recordAt_firstFreed :
    recordAt (firstFreed l m).mem (recordAddr l.base 0) =
      ⟨32, true, recordAddr l.base 2, recordAddr l.base 0⟩ := by
  have hfirst := recordAt_firstHeld l m
  have hsecond := recordAt_second l m
  have hbuddy : (recordAt (firstHeld l m).mem (recordAddr l.base 0)).buddy =
      recordAddr l.base 1 := by rw [hfirst]
  have hrecord := isRecord_recordAddr (l := l) (i := 0) (by decide)
  rw [firstFreed, recordAt_kfree_of_free hrecord hrecord, Function.update_self, hbuddy, hfirst,
    hsecond]
  · rfl
  · rw [hbuddy]
    exact isRecord_recordAddr (by decide)
  · rw [hbuddy, hsecond]
  · rw [hbuddy, hsecond]
    exact Or.inr rfl

theorem kmalloc_start :
    Harmless l (start l.base m) (.kmalloc 16) ∧
      step l.base (start l.base m) (.kmalloc 16) = some (firstHeld l m) := by
  have hrecord : recordAt (start l.base m).mem (recordAddr l.base 0) = _ :=
    recordAt_initMemory (by decide)
  exact kmalloc_first rfl (by rw [hrecord]) (by rw [hrecord]; rfl)

theorem kfree_firstHeld :
    Harmless l (firstHeld l m) (.kfree (recordAddr l.base 0)) ∧
      step l.base (firstHeld l m) (.kfree (recordAddr l.base 0)) = some (firstFreed l m) := by
  constructor
  · right
    rw [nextAt_eq, buddyAt_eq, recordAt_firstHeld]
  · rw [step, firstFreed, firstHeld, List.erase_cons_head]

/-- The merged block handed out, and taken back: its buddy is itself. -/
theorem kfree_merged_harmful :
    ∃ c, step l.base (firstFreed l m) (.kmalloc 32) = some c ∧ recordAddr l.base 0 ∈ c.live ∧
      ¬ Harmless l c (.kfree (recordAddr l.base 0)) := by
  have hrecord := recordAt_firstFreed l m
  have hround : roundedSize 32 = some 32 := rfl
  have hcall := kmalloc_first (l := l) (c := firstFreed l m) hround (by rw [hrecord])
    (by rw [hrecord])
  refine ⟨_, hcall.2, List.mem_cons_self, ?_⟩
  have hmerged : recordAt (setFree (recordAddr l.base 0) false (firstFreed l m).mem)
      (recordAddr l.base 0) = ⟨32, false, recordAddr l.base 2, recordAddr l.base 0⟩ := by
    rw [recordAt_setFree_same, hrecord]
  have hnext := congrArg Block.next hmerged
  have hbuddy := congrArg Block.buddy hmerged
  rintro (⟨hother, -⟩ | hbehind)
  · exact hother hbuddy
  · have heq : recordAddr l.base 2 = recordAddr l.base 0 :=
      hnext.symm.trans (hbehind.trans hbuddy)
    exact absurd (recordAddr_inj.mp heq) (by decide)

end

/-- **The partition of the managed memory.**  Over a sequence of calls after
`init_memory` the memory stays partitioned exactly if no call splits a block or merges one
with a buddy that is not the next block. -/
theorem calls_partitioned_iff (l : Layout) (m : ByteMem) (calls : List Call)
    (hlegal : LegalRun l (start l.base m) calls) :
    StaysPartitioned l (start l.base m) calls ↔ AllHarmless l (start l.base m) calls :=
  sound_start.staysPartitioned_iff hlegal

/-- `memory_blocks` at two megabytes. -/
def lowLayout : Layout := ⟨0x200000, by decide, by decide, Or.inl (by decide)⟩

/-- One block handed out and taken back. -/
theorem first_block_partitioned :
    StaysPartitioned lowLayout (start lowLayout.base fun _ => 0)
      [.kmalloc 16, .kfree (recordAddr lowLayout.base 0)] := by
  obtain ⟨hharmless, hstep⟩ := kmalloc_start lowLayout fun _ => 0
  obtain ⟨hharmless', -⟩ := kfree_firstHeld lowLayout fun _ => 0
  refine (calls_partitioned_iff _ _ _ ?_).mpr ?_
  · refine ⟨⟨by decide, by decide⟩, fun c hc => ?_⟩
    rw [hstep, Option.some.injEq] at hc
    subst hc
    exact ⟨List.mem_cons_self, fun _ _ => trivial⟩
  · refine ⟨hharmless, fun c hc => ?_⟩
    rw [hstep, Option.some.injEq] at hc
    subst hc
    exact ⟨hharmless', fun _ _ => trivial⟩

/-- The same block handed out again, with 32 bytes, and taken back: it is merged with
itself, and the blocks have 32 bytes more than there are. -/
theorem merged_block_not_partitioned :
    LegalRun lowLayout (start lowLayout.base fun _ => 0)
        [.kmalloc 16, .kfree (recordAddr lowLayout.base 0), .kmalloc 32,
          .kfree (recordAddr lowLayout.base 0)] ∧
      ¬ StaysPartitioned lowLayout (start lowLayout.base fun _ => 0)
        [.kmalloc 16, .kfree (recordAddr lowLayout.base 0), .kmalloc 32,
          .kfree (recordAddr lowLayout.base 0)] := by
  obtain ⟨-, hstep1⟩ := kmalloc_start lowLayout fun _ => 0
  obtain ⟨-, hstep2⟩ := kfree_firstHeld lowLayout fun _ => 0
  obtain ⟨c, hstep3, hlive, hharmful⟩ := kfree_merged_harmful lowLayout fun _ => 0
  have hlegal : LegalRun lowLayout (start lowLayout.base fun _ => 0)
      [.kmalloc 16, .kfree (recordAddr lowLayout.base 0), .kmalloc 32,
        .kfree (recordAddr lowLayout.base 0)] := by
    refine ⟨⟨by decide, by decide⟩, fun c1 hc1 => ?_⟩
    rw [hstep1, Option.some.injEq] at hc1
    subst hc1
    refine ⟨List.mem_cons_self, fun c2 hc2 => ?_⟩
    rw [hstep2, Option.some.injEq] at hc2
    subst hc2
    refine ⟨⟨by decide, by decide⟩, fun c3 hc3 => ?_⟩
    rw [hstep3, Option.some.injEq] at hc3
    subst hc3
    exact ⟨hlive, fun _ _ => trivial⟩
  refine ⟨hlegal, fun hstays => hharmful ?_⟩
  have hall := (sound_start.staysPartitioned_iff hlegal).mp hstays
  exact (((hall.2 _ hstep1).2 _ hstep2).2 _ hstep3).1

end FarouKernel.Ports.Buddy
