import FarouKernel.Ports.KheapModel
import FarouKernel.Verified.LinkedList

/-!
# The kernel heap's free list as a list of blocks

The free list is a linked list threaded through the headers of the free
blocks.  `FreeRep m p l` says that the memory `m` and the head pointer `p`
hold the list of blocks `l`: the links, the sizes and the magic numbers are
those of `l`, and the headers are aligned, ascending and do not overlap.

Each routine of the heap then has one run equation.  It consumes a `FreeRep`,
produces a `FreeRep` of an explicitly computed list, and bounds the bytes it
writes.  The lists are computed with the code's own wrapping arithmetic, so
the equations hold for every size, also where the heap later goes wrong.
-/

namespace FarouKernel.Ports.Kheap

open Verified ByteMem Ports.Memory

/-- A block: a header at `addr` and `size` data bytes behind it. -/
structure Block where
  addr : Nat
  size : Nat
  deriving DecidableEq, Repr

/-- Two headers that do not overlap. -/
def HeadersApart (a b : Nat) : Prop := a + 32 ≤ b ∨ b + 32 ≤ a

/-- The byte `x` is one of the bytes `lo ≤ · < hi` of a header of `l`. -/
def InHeaders (l : List Block) (lo hi x : Nat) : Prop :=
  ∃ b ∈ l, b.addr + lo ≤ x ∧ x < b.addr + hi

/-- The memory `m` and the head pointer `p` hold the free list `l`. -/
structure FreeRep (m : ByteMem) (p : Nat) (l : List Block) : Prop where
  chain : Chain 0 (nextAt m) p (l.map Block.addr)
  sizes : ∀ b ∈ l, sizeAt m b.addr = b.size
  magics : ∀ b ∈ l, magicAt m b.addr = kheapMagic
  sorted : l.Pairwise fun b c => b.addr + 32 ≤ c.addr
  aligned : ∀ b ∈ l, b.addr % 16 = 0
  addr_lt : ∀ b ∈ l, b.addr < 2 ^ 64

/-- The header of a listed block. -/
structure Listed (m : ByteMem) (b : Block) : Prop where
  size : sizeAt m b.addr = b.size
  magic : magicAt m b.addr = kheapMagic
  aligned : b.addr % 16 = 0
  lt : b.addr < 2 ^ 64

variable {b : Block} {m : ByteMem} {v p : Nat}

/-- A store that meets neither the size nor the magic number. -/
theorem Listed.store (h : Listed m b) {a : Nat}
    (hout : a + 8 ≤ b.addr ∨ a = b.addr + 8 ∨ b.addr + 24 ≤ a) : Listed (write64 m a v) b where
  size := (read64_write64_of_disjoint (by omega)).trans h.size
  magic := (read64_write64_of_disjoint (by omega)).trans h.magic
  aligned := h.aligned
  lt := h.lt

namespace FreeRep

variable {m m' : ByteMem} {p : Nat} {l pre post : List Block} {b : Block}

theorem of_listed (hchain : Chain 0 (nextAt m) p (l.map Block.addr))
    (hlisted : ∀ b ∈ l, Listed m b) (hsorted : l.Pairwise fun b c => b.addr + 32 ≤ c.addr) :
    FreeRep m p l where
  chain := hchain
  sizes b hb := (hlisted b hb).size
  magics b hb := (hlisted b hb).magic
  sorted := hsorted
  aligned b hb := (hlisted b hb).aligned
  addr_lt b hb := (hlisted b hb).lt

theorem listed (h : FreeRep m p l) (hb : b ∈ l) : Listed m b :=
  ⟨h.sizes b hb, h.magics b hb, h.aligned b hb, h.addr_lt b hb⟩

theorem addr_ne_zero (h : FreeRep m p l) (hb : b ∈ l) : b.addr ≠ 0 :=
  h.chain.ne_null (List.mem_map_of_mem hb)

theorem nil (m : ByteMem) : FreeRep m 0 [] := of_listed rfl (by simp) List.Pairwise.nil

theorem head_lt (h : FreeRep m p l) : p < 2 ^ 64 := by
  cases l with
  | nil =>
    have hp : p = 0 := h.chain
    omega
  | cons b l =>
    have hp : p = b.addr := h.chain.1
    rw [hp]
    exact h.addr_lt b List.mem_cons_self

/-- A free list survives any change outside its links, sizes and magics. -/
theorem frame (h : FreeRep m p l) (heq : ∀ x, InHeaders l 0 24 x → m' x = m x) :
    FreeRep m' p l := by
  have hword : ∀ b ∈ l, ∀ k, k ≤ 16 → read64 m' (b.addr + k) = read64 m (b.addr + k) := by
    intro b hb k hk
    refine read64_congr ?_
    intro x hx hx'
    exact heq x ⟨b, hb, by omega, by omega⟩
  refine ⟨h.chain.congr ?_, ?_, ?_, h.sorted, h.aligned, h.addr_lt⟩
  · intro x hx
    obtain ⟨b, hb, rfl⟩ := List.mem_map.mp hx
    exact hword b hb 8 (by omega)
  · intro b hb
    exact (hword b hb 0 (by omega)).trans (h.sizes b hb)
  · intro b hb
    exact (hword b hb 16 (by omega)).trans (h.magics b hb)

/-- A free list survives a change in a gap between its blocks. -/
theorem frame_between (h : FreeRep m p (pre ++ post)) {lo hi : Nat}
    (hpre : ∀ c ∈ pre, c.addr + 32 ≤ lo) (hpost : ∀ c ∈ post, hi ≤ c.addr)
    (heq : ∀ x, ¬(lo ≤ x ∧ x < hi) → m' x = m x) : FreeRep m' p (pre ++ post) := by
  refine h.frame ?_
  rintro x ⟨c, hc, hx, hx'⟩
  apply heq
  rcases List.mem_append.mp hc with hc | hc
  · have := hpre c hc
    omega
  · have := hpost c hc
    omega

/-- Blocks before an inner block lie below it, blocks behind it above it. -/
theorem sorted_middle (h : FreeRep m p (pre ++ b :: post)) :
    (∀ c ∈ pre, c.addr + 32 ≤ b.addr) ∧ (∀ c ∈ post, b.addr + 32 ≤ c.addr) ∧
      (pre ++ post).Pairwise fun b c => b.addr + 32 ≤ c.addr := by
  have hs := h.sorted
  rw [List.pairwise_append, List.pairwise_cons] at hs
  obtain ⟨hpre, ⟨hb, hpost⟩, hcross⟩ := hs
  refine ⟨?_, hb, ?_⟩
  · intro c hc
    exact hcross c hc b List.mem_cons_self
  · rw [List.pairwise_append]
    refine ⟨hpre, hpost, ?_⟩
    intro c hc d hd
    exact hcross c hc d (List.mem_cons_of_mem b hd)

/-- The list behind an inner block. -/
theorem tail (h : FreeRep m p (pre ++ b :: post)) :
    FreeRep m (nextAt m b.addr) post := by
  have hchain := h.chain
  rw [List.map_append, List.map_cons] at hchain
  refine of_listed hchain.tail_of_append (fun c hc => h.listed (by simp [hc])) ?_
  exact (List.pairwise_cons.mp (List.pairwise_append.mp h.sorted).2.1).2

/-- The list behind the first block. -/
theorem tail_cons (h : FreeRep m p (b :: l)) : FreeRep m (nextAt m b.addr) l :=
  @tail m p [] l b h

/-- Writing the link of a block that lies below the whole list puts it in
front. -/
theorem cons_head (h : FreeRep m p l) {block : Nat}
    (hbelow : ∀ c ∈ l, block + 32 ≤ c.addr) (hmagic : magicAt m block = kheapMagic)
    (halign : block % 16 = 0) (hne : block ≠ 0) (hlt : block < 2 ^ 64) :
    FreeRep (write64 m (block + 8) p) block (⟨block, sizeAt m block⟩ :: l) := by
  have hrest : FreeRep (write64 m (block + 8) p) p l := by
    refine h.frame ?_
    rintro x ⟨c, hc, hx, hx'⟩
    have := hbelow c hc
    exact write64_apply_of_outside (by omega)
  have hnext : nextAt (write64 m (block + 8) p) block = p :=
    read64_write64_of_lt h.head_lt
  have hlisted : Listed m ⟨block, sizeAt m block⟩ := ⟨rfl, hmagic, halign, hlt⟩
  refine of_listed ⟨rfl, hne, ?_⟩ ?_ (List.Pairwise.cons hbelow hrest.sorted)
  · rw [hnext]
    exact hrest.chain
  · exact List.forall_mem_cons.mpr
      ⟨hlisted.store (Or.inr (Or.inl rfl)), fun c hc => hrest.listed hc⟩

/-- Hanging another list behind an inner block, by writing its link. -/
theorem relink (h : FreeRep m p (pre ++ b :: post)) {q : Nat} {post' : List Block}
    (h' : FreeRep m q post') (habove : ∀ c ∈ post', b.addr + 32 ≤ c.addr) :
    FreeRep (write64 m (b.addr + 8) q) p (pre ++ b :: post') := by
  have hbelow := h.sorted_middle.1
  have hchain := h.chain
  rw [List.map_append, List.map_cons] at hchain
  refine of_listed ?_ ?_ ?_
  · rw [List.map_append, List.map_cons]
    refine hchain.relink ?_ ?_
    · intro x hx
      obtain ⟨c, hc, rfl⟩ := List.mem_map.mp hx
      have := hbelow c hc
      exact read64_write64_of_disjoint (by omega)
    · have hnext : nextAt (write64 m (b.addr + 8) q) b.addr = q :=
        read64_write64_of_lt h'.head_lt
      rw [hnext]
      refine h'.chain.congr ?_
      intro x hx
      obtain ⟨c, hc, rfl⟩ := List.mem_map.mp hx
      have := habove c hc
      exact read64_write64_of_disjoint (by omega)
  · -- only the link of `b` changes: its other words and all other headers stay
    rw [List.forall_mem_append, List.forall_mem_cons]
    refine ⟨fun c hc => ?_, (h.listed (by simp)).store (by omega), fun c hc => ?_⟩
    · have := hbelow c hc
      exact (h.listed (by simp [hc])).store (by omega)
    · have := habove c hc
      exact (h'.listed hc).store (by omega)
  · have hs := h.sorted
    rw [List.pairwise_append] at hs ⊢
    refine ⟨hs.1, List.Pairwise.cons habove h'.sorted, ?_⟩
    intro c hc d hd
    have hcb := hbelow c hc
    rcases List.mem_cons.mp hd with rfl | hd
    · exact hcb
    · have := habove d hd
      omega

/-- Writing the size of a listed block changes that block alone. -/
theorem resize (h : FreeRep m p (pre ++ b :: post)) (hv : v < 2 ^ 64) :
    FreeRep (write64 m b.addr v) p (pre ++ ⟨b.addr, v⟩ :: post) := by
  obtain ⟨hbelow, habove, _⟩ := h.sorted_middle
  have hb : b ∈ pre ++ b :: post := by simp
  have haddrs : (pre ++ (⟨b.addr, v⟩ : Block) :: post).map Block.addr =
      (pre ++ b :: post).map Block.addr := by simp
  refine of_listed ?_ ?_ ?_
  · rw [haddrs]
    refine h.chain.congr ?_
    intro x hx
    obtain ⟨c, hc, rfl⟩ := List.mem_map.mp hx
    have hapart : c.addr + 32 ≤ b.addr ∨ c.addr = b.addr ∨ b.addr + 32 ≤ c.addr := by
      rcases List.mem_append.mp hc with hc | hc
      · exact Or.inl (hbelow c hc)
      · exact Or.inr ((List.mem_cons.mp hc).imp (congrArg Block.addr) (habove c))
    exact read64_write64_of_disjoint (by omega)
  · rw [List.forall_mem_append, List.forall_mem_cons]
    refine ⟨fun c hc => ?_, ⟨read64_write64_of_lt hv, ?_, h.aligned b hb, h.addr_lt b hb⟩,
      fun c hc => ?_⟩
    · have := hbelow c hc
      exact (h.listed (by simp [hc])).store (by omega)
    · exact (read64_write64_of_disjoint (by simp)).trans (h.magics b hb)
    · have := habove c hc
      exact (h.listed (by simp [hc])).store (by omega)
  · have hs := h.sorted
    rw [← List.pairwise_map (f := Block.addr) (R := fun a c => a + 32 ≤ c)] at hs ⊢
    rwa [haddrs]

end FreeRep

/-! ## Insertion -/

/-- The insertion loop walks over the nodes below the block and returns the
last of them. -/
theorem kheapInsertLoop_run (s : KheapState) (block fuel cur : Nat) (pre post : List Nat)
    (hchain : Chain 0 (nextAt s.mem) (nextAt s.mem cur) (pre ++ post))
    (hpre : ∀ y ∈ pre, y < block) (hpost : ∀ y ∈ post, block ≤ y)
    (hfuel : pre.length < fuel) :
    kheapInsertLoop block fuel cur s = .ok (pre.getLastD cur) s := by
  induction pre generalizing fuel cur with
  | nil =>
    obtain ⟨fuel, rfl⟩ := Nat.exists_eq_succ_of_ne_zero (by omega : fuel ≠ 0)
    have hstop : ¬(nextAt s.mem cur ≠ 0 ∧ nextAt s.mem cur < block) := by
      rintro ⟨hne, hlt⟩
      cases post with
      | nil => exact hne hchain
      | cons y post =>
        have hle := hpost y List.mem_cons_self
        have hnext : nextAt s.mem cur = y := hchain.1
        omega
    simp [kheapInsertLoop, hstop]
  | cons y pre ih =>
    obtain ⟨fuel, rfl⟩ := Nat.exists_eq_succ_of_ne_zero (by omega : fuel ≠ 0)
    obtain ⟨hnext, hne, htail⟩ := hchain
    have hlt : y < block := hpre y List.mem_cons_self
    have hrun := ih fuel y htail
      (fun z hz => hpre z (List.mem_cons_of_mem y hz)) (by simpa using hfuel)
    rw [List.getLastD_cons]
    simpa [kheapInsertLoop, hnext, hne, hlt] using hrun

/-- The insertion loop on a represented list: a list with a block below the
new one is not empty, does not start above it, and the walk ends at the last
block below. -/
theorem FreeRep.insertLoop_run (s : KheapState) (fuel block : Nat) (pre post : List Block)
    (hrep : FreeRep m p (pre ++ b :: post)) (hm : s.mem = m) (hp : s.freeList = p)
    (hpre : ∀ c ∈ pre ++ [b], c.addr < block) (hpost : ∀ c ∈ post, block ≤ c.addr)
    (hfuel : (pre ++ [b]).length < fuel) :
    ¬(s.freeList = 0 ∨ block < s.freeList) ∧
      kheapInsertLoop block fuel s.freeList s = .ok b.addr s := by
  subst hm hp
  have hge : ∀ y ∈ post.map Block.addr, block ≤ y := by
    intro y hy
    obtain ⟨c, hc, rfl⟩ := List.mem_map.mp hy
    exact hpost c hc
  have hchain := hrep.chain
  cases pre with
  | nil =>
    obtain ⟨hfirst, hbne, hrest⟩ := hchain
    have hlt : b.addr < block := hpre b (by simp)
    have hrun := kheapInsertLoop_run s block fuel b.addr [] _ hrest (by simp) hge
      (by simp at hfuel ⊢; omega)
    rw [← hfirst] at hrun hbne hlt
    exact ⟨by omega, by rw [hrun, ← hfirst]; rfl⟩
  | cons c pre =>
    obtain ⟨hfirst, hcne, hrest⟩ := hchain
    have hlt : c.addr < block := hpre c (by simp)
    have hbelow : ∀ y ∈ (pre ++ [b]).map Block.addr, y < block := by
      intro y hy
      obtain ⟨d, hd, rfl⟩ := List.mem_map.mp hy
      exact hpre d (List.mem_cons_of_mem c hd)
    have hrun := kheapInsertLoop_run s block fuel c.addr ((pre ++ [b]).map Block.addr) _
      (by simpa using hrest) hbelow hge (by simp at hfuel ⊢; omega)
    rw [List.map_append, List.map_singleton, List.getLastD_concat] at hrun
    rw [← hfirst] at hrun hcne hlt
    exact ⟨by omega, hrun⟩

/-- A block is put behind a listed one: it takes over the list behind that block, which
then links to it. -/
theorem FreeRep.insert_behind {block : Nat} {pre post : List Block}
    (h : FreeRep m p (pre ++ b :: post)) (hpre : ∀ c ∈ pre ++ [b], c.addr + 32 ≤ block)
    (hpost : ∀ c ∈ post, block + 32 ≤ c.addr) (hmagic : magicAt m block = kheapMagic)
    (halign : block % 16 = 0) (hne : block ≠ 0) (hlt : block < 2 ^ 64) :
    FreeRep (write64 (write64 m (block + 8) (nextAt m b.addr)) (b.addr + 8) block) p
      (pre ++ b :: ⟨block, sizeAt m block⟩ :: post) := by
  have hb : b.addr + 32 ≤ block := hpre b (by simp)
  have htail : FreeRep (write64 m (block + 8) (nextAt m b.addr)) block
      (⟨block, sizeAt m block⟩ :: post) :=
    h.tail.cons_head hpost hmagic halign hne hlt
  have hlinked : FreeRep (write64 m (block + 8) (nextAt m b.addr)) p (pre ++ b :: post) := by
    rw [List.append_cons] at h ⊢
    exact h.frame_between hpre hpost fun x hx => write64_apply_of_outside (by omega)
  refine hlinked.relink htail fun c hc => ?_
  rcases List.mem_cons.mp hc with rfl | hc
  · exact hb
  · have := hpost c hc
    omega

/-- `kheap_add_to_free_list` puts the block at its place in the list.  It
writes the link and the magic number of the block and the link of one listed
block. -/
theorem kheapAddToFreeList_run (s : KheapState) (fuel block : Nat) (pre post : List Block)
    (hrep : FreeRep s.mem s.freeList (pre ++ post))
    (hpre : ∀ c ∈ pre, c.addr + 32 ≤ block) (hpost : ∀ c ∈ post, block + 32 ≤ c.addr)
    (halign : block % 16 = 0) (hne : block ≠ 0) (hlt : block < 2 ^ 64)
    (hfuel : pre.length < fuel) :
    ∃ m' p', kheapAddToFreeList fuel block s = .ok () (s.withList m' p') ∧
      FreeRep m' p' (pre ++ ⟨block, sizeAt s.mem block⟩ :: post) ∧
      ∀ x, ¬(block + 8 ≤ x ∧ x < block + 24) → ¬InHeaders (pre ++ post) 8 16 x →
        m' x = s.mem x := by
  -- the two header writes in front of the walk
  generalize hm1 : write64 (write64 s.mem (block + 16) kheapMagic) (block + 8) 0 = m1
  have hout1 : ∀ x, ¬(block + 8 ≤ x ∧ x < block + 24) → m1 x = s.mem x := by
    intro x hx
    rw [← hm1, write64_apply_of_outside (by omega), write64_apply_of_outside (by omega)]
  have hsize1 : sizeAt m1 block = sizeAt s.mem block := by
    refine read64_congr fun x hx hx' => hout1 x (by omega)
  have hmagic1 : magicAt m1 block = kheapMagic := by
    rw [← hm1, magicAt, read64_write64_of_disjoint (by omega), read64_write64_of_lt (by decide)]
  have hrep1 : FreeRep m1 s.freeList (pre ++ post) :=
    hrep.frame_between hpre hpost fun x hx => hout1 x (by omega)
  rcases List.eq_nil_or_concat pre with rfl | ⟨pre, b, rfl⟩
  · -- nothing lies below the block: it becomes the head
    have hhead : s.freeList = 0 ∨ block < s.freeList := by
      cases post with
      | nil => exact Or.inl hrep.chain
      | cons c post =>
        have hfirst : s.freeList = c.addr := hrep.chain.1
        have := hpost c List.mem_cons_self
        omega
    have hm2 : FreeRep (write64 m1 (block + 8) s.freeList) block
        (⟨block, sizeAt m1 block⟩ :: post) :=
      hrep1.cons_head hpost hmagic1 halign hne hlt
    refine ⟨write64 m1 (block + 8) s.freeList, block, ?_, ?_, ?_⟩
    · simp [kheapAddToFreeList, kheapMinAlignment, halign, hhead, hm1]
    · rw [← hsize1]
      exact hm2
    · intro x hx _
      rw [write64_apply_of_outside (by omega), hout1 x hx]
  · -- the walk ends at `b`, the last block below
    simp only [List.concat_eq_append] at hpre hfuel hrep1 ⊢
    rw [List.append_assoc, List.singleton_append] at hrep1
    have hbelow : ∀ c ∈ pre ++ [b], c.addr < block := by
      intro c hc
      have := hpre c hc
      omega
    have hloop := hrep1.insertLoop_run (s.withList m1 s.freeList) fuel block pre post rfl rfl
      hbelow (fun c hc => by have := hpost c hc; omega) hfuel
    simp only [withList_freeList] at hloop
    obtain ⟨hhead, hloop⟩ := hloop
    have hrep2 := hrep1.insert_behind hpre hpost hmagic1 halign hne hlt
    refine ⟨write64 (write64 m1 (block + 8) (nextAt m1 b.addr)) (b.addr + 8) block,
      s.freeList, ?_, ?_, ?_⟩
    · simp [kheapAddToFreeList, kheapMinAlignment, halign, hhead, hm1, hloop]
    · rw [hsize1] at hrep2
      simpa using hrep2
    · intro x hx hout
      have hx' : x < b.addr + 8 ∨ b.addr + 8 + 8 ≤ x := by
        by_contra hcon
        exact hout ⟨b, by simp, by omega, by omega⟩
      rw [write64_apply_of_outside hx', write64_apply_of_outside (by omega), hout1 x hx]

/-! ## Coalescing -/

/-- What the coalescing loop makes of the block `b` and the blocks behind it. -/
def coalesceFrom (b : Block) : List Block → List Block
  | [] => [b]
  | c :: rest =>
    if add64 (add64 b.addr 32) b.size = c.addr then
      coalesceFrom ⟨b.addr, add64 b.size (add64 32 c.size)⟩ rest
    else b :: coalesceFrom c rest

/-- What `kheap_coalesce_free_list` makes of the free list. -/
def coalesce : List Block → List Block
  | [] => []
  | b :: rest => coalesceFrom b rest

/-- Merging a block with its successor: the two header writes of the loop. -/
theorem FreeRep.merge {c : Block} {pre rest : List Block} (h : FreeRep m p (pre ++ b :: c :: rest))
    (hv : v < 2 ^ 64) :
    FreeRep (write64 (write64 m b.addr v) (b.addr + 8) (nextAt m c.addr)) p
      (pre ++ ⟨b.addr, v⟩ :: rest) := by
  have hmid := h.sorted_middle
  have hbc : b.addr + 32 ≤ c.addr := hmid.2.1 c List.mem_cons_self
  have hsize := h.resize hv
  have htail : FreeRep (write64 m b.addr v) (nextAt m c.addr) rest := by
    have hassoc : pre ++ (⟨b.addr, v⟩ : Block) :: c :: rest =
        (pre ++ [⟨b.addr, v⟩]) ++ c :: rest := by simp
    rw [hassoc] at hsize
    have hnext : nextAt (write64 m b.addr v) c.addr = nextAt m c.addr :=
      read64_write64_of_disjoint (by omega)
    rw [← hnext]
    exact hsize.tail
  refine hsize.relink htail ?_
  intro d hd
  exact hmid.2.1 d (List.mem_cons_of_mem c hd)

/-- The coalescing loop standing on `b`.  It writes sizes and links of listed
blocks, never a magic number: a block merged away keeps its header. -/
theorem kheapCoalesceLoop_run (s : KheapState) (fuel : Nat) (m : ByteMem) (p : Nat)
    (pre : List Block) (b : Block) (rest : List Block)
    (hrep : FreeRep m p (pre ++ b :: rest)) (hfuel : rest.length < fuel) :
    ∃ m', kheapCoalesceLoop fuel b.addr (s.withList m p) =
        .ok () (s.withList m' p) ∧
      FreeRep m' p (pre ++ coalesceFrom b rest) ∧
      ∀ x, ¬InHeaders (b :: rest) 0 16 x → m' x = m x := by
  induction rest generalizing fuel m pre b with
  | nil =>
    obtain ⟨fuel, rfl⟩ := Nat.exists_eq_succ_of_ne_zero (by omega : fuel ≠ 0)
    have hnext : nextAt m b.addr = 0 := hrep.tail.chain
    refine ⟨m, ?_, hrep, fun _ _ => rfl⟩
    simp [kheapCoalesceLoop, hnext]
  | cons c rest ih =>
    obtain ⟨fuel, rfl⟩ := Nat.exists_eq_succ_of_ne_zero (by omega : fuel ≠ 0)
    have hb : b ∈ pre ++ b :: c :: rest := by simp
    have hc : c ∈ pre ++ b :: c :: rest := by simp
    have hnext : nextAt m b.addr = c.addr := hrep.tail.chain.1
    have hbc : b.addr + 32 ≤ c.addr := hrep.sorted_middle.2.1 c List.mem_cons_self
    have hbne := hrep.addr_ne_zero hb
    have hcne := hrep.addr_ne_zero hc
    have hbmagic := hrep.magics b hb
    have hcmagic := hrep.magics c hc
    have hbsize := hrep.sizes b hb
    have hcsize := hrep.sizes c hc
    by_cases hadj : add64 (add64 b.addr 32) b.size = c.addr
    · -- merge and stay
      let v := add64 b.size (add64 32 c.size)
      have hmerged := hrep.merge (add64_lt b.size (add64 32 c.size))
      obtain ⟨m', hrun, hrep', hout⟩ := ih fuel _ pre ⟨b.addr, v⟩ hmerged (by simpa using hfuel)
      have hnext' : nextAt (write64 m b.addr v) b.addr = c.addr :=
        (read64_write64_of_disjoint (by simp)).trans hnext
      have hnext'' : nextAt (write64 m b.addr v) c.addr = nextAt m c.addr :=
        read64_write64_of_disjoint (by omega)
      refine ⟨m', ?_, ?_, ?_⟩
      · rw [← hrun]
        simp [kheapCoalesceLoop, kheapHeaderSize, hnext, hbne, hcne, hbmagic, hcmagic,
          hbsize, hcsize, hadj, hnext', hnext'', v]
      · simpa [coalesceFrom, hadj] using hrep'
      · intro x hx
        have hx' : ¬InHeaders (⟨b.addr, v⟩ :: rest) 0 16 x := by
          rintro ⟨d, hd, hlo, hhi⟩
          rcases List.mem_cons.mp hd with rfl | hd
          · exact hx ⟨b, List.mem_cons_self, hlo, hhi⟩
          · exact hx ⟨d, by simp [hd], hlo, hhi⟩
        have hbout : ¬(b.addr ≤ x ∧ x < b.addr + 16) := by
          rintro ⟨hlo, hhi⟩
          exact hx ⟨b, List.mem_cons_self, hlo, hhi⟩
        rw [hout x hx', write64_apply_of_outside (by omega), write64_apply_of_outside (by omega)]
    · -- move on to the next block
      have hassoc : pre ++ b :: c :: rest = (pre ++ [b]) ++ c :: rest := by simp
      rw [hassoc] at hrep
      obtain ⟨m', hrun, hrep', hout⟩ := ih fuel m (pre ++ [b]) c hrep (by simpa using hfuel)
      refine ⟨m', ?_, ?_, ?_⟩
      · rw [← hrun]
        simp [kheapCoalesceLoop, kheapHeaderSize, hnext, hbne, hcne, hbmagic, hcmagic, hbsize, hadj]
      · simpa [coalesceFrom, hadj] using hrep'
      · intro x hx
        refine hout x ?_
        rintro ⟨d, hd, hbounds⟩
        exact hx ⟨d, List.mem_cons_of_mem b hd, hbounds⟩

/-- `kheap_coalesce_free_list` merges the blocks that touch. -/
theorem kheapCoalesceFreeList_run (s : KheapState) (fuel : Nat) (l : List Block)
    (hrep : FreeRep s.mem s.freeList l) (hfuel : l.length < fuel) :
    ∃ m', kheapCoalesceFreeList fuel s = .ok () (s.withList m' s.freeList) ∧
      FreeRep m' s.freeList (coalesce l) ∧
      ∀ x, ¬InHeaders l 0 16 x → m' x = s.mem x := by
  cases l with
  | nil =>
    obtain ⟨fuel, rfl⟩ := Nat.exists_eq_succ_of_ne_zero (by omega : fuel ≠ 0)
    have hp : s.freeList = 0 := hrep.chain
    refine ⟨s.mem, ?_, hrep, fun _ _ => rfl⟩
    rw [withList_self]
    simp [kheapCoalesceFreeList, kheapCoalesceLoop, hp]
  | cons b rest =>
    have hp : s.freeList = b.addr := hrep.chain.1
    obtain ⟨m', hrun, hrep', hout⟩ := kheapCoalesceLoop_run s fuel s.mem s.freeList [] b rest
      hrep (by simp at hfuel; omega)
    refine ⟨m', ?_, hrep', hout⟩
    rw [← hp, withList_self] at hrun
    simpa [kheapCoalesceFreeList] using hrun

/-! ## Searching and taking a block -/

/-- The search passes a block that is too small. -/
theorem kmallocSearch_skip {s : KheapState} {a cur : Nat} {l : List Block} (fuel prev : Nat)
    (hrep : FreeRep s.mem cur (b :: l)) (hlt : b.size < a) :
    kmallocSearch a (fuel + 1) prev cur s =
      kmallocSearch a fuel b.addr (nextAt s.mem b.addr) s := by
  have hcur : cur = b.addr := hrep.chain.1
  have hne := hrep.addr_ne_zero List.mem_cons_self
  have hsize := hrep.sizes b List.mem_cons_self
  have hmagic := hrep.magics b List.mem_cons_self
  subst hcur
  simp [kmallocSearch, hne, hsize, hmagic, Nat.not_le.mpr hlt]

/-- No listed block is large enough: the search comes back empty. -/
theorem kmallocSearch_none (s : KheapState) (a fuel prev cur : Nat) (l : List Block)
    (hrep : FreeRep s.mem cur l) (hsmall : ∀ b ∈ l, b.size < a) (hfuel : l.length < fuel) :
    kmallocSearch a fuel prev cur s = .ok none s := by
  induction l generalizing fuel prev cur with
  | nil =>
    obtain ⟨fuel, rfl⟩ := Nat.exists_eq_succ_of_ne_zero (by omega : fuel ≠ 0)
    have hcur : cur = 0 := hrep.chain
    simp [kmallocSearch, hcur]
  | cons b l ih =>
    obtain ⟨fuel, rfl⟩ := Nat.exists_eq_succ_of_ne_zero (by omega : fuel ≠ 0)
    rw [kmallocSearch_skip fuel prev hrep (hsmall b List.mem_cons_self)]
    exact ih fuel b.addr _ hrep.tail_cons (fun c hc => hsmall c (List.mem_cons_of_mem b hc))
      (by simpa using hfuel)

/-- The address of the last block of a list, or `prev` if it is empty. -/
def lastAddr (prev : Nat) (l : List Block) : Nat := (l.map Block.addr).getLastD prev

/-- The search stops at the first block that is large enough. -/
theorem kmallocSearch_some (s : KheapState) (a fuel prev cur : Nat) (pre post : List Block)
    (b : Block) (hrep : FreeRep s.mem cur (pre ++ b :: post))
    (hsmall : ∀ c ∈ pre, c.size < a) (hfit : a ≤ b.size) (hfuel : pre.length < fuel) :
    kmallocSearch a fuel prev cur s = .ok (some (lastAddr prev pre, b.addr)) s := by
  induction pre generalizing fuel prev cur with
  | nil =>
    obtain ⟨fuel, rfl⟩ := Nat.exists_eq_succ_of_ne_zero (by omega : fuel ≠ 0)
    have hcur : cur = b.addr := hrep.chain.1
    have hne := hrep.addr_ne_zero (b := b) List.mem_cons_self
    have hsize := hrep.sizes b List.mem_cons_self
    have hmagic := hrep.magics b List.mem_cons_self
    subst hcur
    simp [kmallocSearch, hne, hsize, hmagic, hfit, lastAddr]
  | cons c pre ih =>
    obtain ⟨fuel, rfl⟩ := Nat.exists_eq_succ_of_ne_zero (by omega : fuel ≠ 0)
    have hlast : lastAddr prev (c :: pre) = lastAddr c.addr pre := by
      simp only [lastAddr, List.map_cons, List.getLastD_cons]
    rw [kmallocSearch_skip fuel prev hrep (hsmall c List.mem_cons_self), hlast]
    exact ih fuel c.addr _ hrep.tail_cons (fun d hd => hsmall d (List.mem_cons_of_mem c hd))
      (by simpa using hfuel)

/-- Every list either has a first block of at least `a` bytes or none at all. -/
theorem firstFit_cases (a : Nat) (l : List Block) :
    (∀ b ∈ l, b.size < a) ∨
      ∃ pre b post, l = pre ++ b :: post ∧ (∀ c ∈ pre, c.size < a) ∧ a ≤ b.size := by
  cases hfind : l.find? fun b => decide (a ≤ b.size) with
  | none =>
    left
    intro b hb
    simpa using List.find?_eq_none.mp hfind b hb
  | some b =>
    right
    obtain ⟨hfit, pre, post, rfl, hpre⟩ := List.find?_eq_some_iff_append.mp hfind
    exact ⟨pre, b, post, rfl, fun c hc => by simpa using hpre c hc, of_decide_eq_true hfit⟩

/-- Unlinking the found block: the predecessor, or the head pointer, skips it. -/
theorem kmallocUnlink_run (s : KheapState) (b : Block) (pre post : List Block)
    (h : FreeRep s.mem s.freeList (pre ++ b :: post)) :
    ∃ m' p', kmallocUnlink (lastAddr 0 pre) (nextAt s.mem b.addr) s =
        .ok () (s.withList m' p') ∧
      FreeRep m' p' (pre ++ post) ∧ ∀ x, ¬InHeaders pre 8 16 x → m' x = s.mem x := by
  rcases List.eq_nil_or_concat pre with rfl | ⟨pre, a, rfl⟩
  · refine ⟨s.mem, nextAt s.mem b.addr, ?_, h.tail, fun _ _ => rfl⟩
    simp [kmallocUnlink, lastAddr]
  · rw [List.concat_eq_append] at h ⊢
    have hassoc : pre ++ [a] ++ b :: post = pre ++ a :: b :: post := by simp
    have ha : a.addr ≠ 0 := h.addr_ne_zero (by simp)
    have hlast : lastAddr 0 (pre ++ [a]) = a.addr := by
      simp only [lastAddr, List.map_append, List.map_singleton, List.getLastD_concat]
    have hmid := (hassoc ▸ h).sorted_middle
    refine ⟨write64 s.mem (a.addr + 8) (nextAt s.mem b.addr), s.freeList, ?_, ?_, ?_⟩
    · simp [kmallocUnlink, hlast, ha]
    · have := (hassoc ▸ h).relink h.tail (fun c hc => hmid.2.1 c (List.mem_cons_of_mem b hc))
      simpa using this
    · intro x hx
      have hx' : x < a.addr + 8 ∨ a.addr + 8 + 8 ≤ x := by
        by_contra hcon
        exact hx ⟨a, by simp, by omega, by omega⟩
      exact write64_apply_of_outside hx'

/-- The free remainder `kmalloc` splits off when it takes `a` bytes from `b`. -/
def remainder (a : Nat) (b : Block) : List Block :=
  if 48 ≤ b.size - a then [⟨b.addr + 32 + a, b.size - a - 32⟩] else []

/-- The size `kmalloc` leaves in the header of the block it takes. -/
def takenSize (a : Nat) (b : Block) : Nat := if 48 ≤ b.size - a then a else b.size

/-- Splitting the unlinked block `b`: its remainder, if any, enters the list
where `b` was. -/
theorem kmallocSplit_run (s : KheapState) (fuel a : Nat) (pre post : List Block) (b : Block)
    (hrep : FreeRep s.mem s.freeList (pre ++ post)) (hsize : sizeAt s.mem b.addr = b.size)
    (ha : a % 16 = 0) (hb : b.addr % 16 = 0) (hend : b.addr + 32 + b.size < 2 ^ 64)
    (hfit : a ≤ b.size) (hpre : ∀ c ∈ pre, c.addr + 32 ≤ b.addr)
    (hpost : ∀ c ∈ post, b.addr + 32 + b.size ≤ c.addr) (hfuel : pre.length < fuel) :
    ∃ m' p', kmallocSplit fuel a b.addr (b.size - a) s = .ok () (s.withList m' p') ∧
      FreeRep m' p' (pre ++ (remainder a b ++ post)) ∧
      sizeAt m' b.addr = takenSize a b ∧
      ∀ x, ¬(b.addr ≤ x ∧ x < b.addr + 8) → ¬InHeaders (pre ++ post) 8 16 x →
        ¬InHeaders (remainder a b) 0 24 x → m' x = s.mem x := by
  by_cases hroom : 48 ≤ b.size - a
  · have hrem : remainder a b = [⟨b.addr + 32 + a, b.size - a - 32⟩] := if_pos hroom
    have htaken : takenSize a b = a := if_pos hroom
    generalize hm1 : write64 (write64 s.mem (b.addr + 32 + a) (b.size - a - 32)) b.addr a = m1
    have hout1 : ∀ x, ¬(b.addr ≤ x ∧ x < b.addr + 8) →
        ¬(b.addr + 32 + a ≤ x ∧ x < b.addr + 32 + a + 8) → m1 x = s.mem x := by
      intro x hx hx'
      rw [← hm1, write64_apply_of_outside (by omega), write64_apply_of_outside (by omega)]
    have hrep1 : FreeRep m1 s.freeList (pre ++ post) :=
      hrep.frame_between hpre hpost fun x hx => hout1 x (by omega) (by omega)
    have hsplit : sizeAt m1 (b.addr + 32 + a) = b.size - a - 32 := by
      rw [← hm1, sizeAt, read64_write64_of_disjoint (by omega), read64_write64_of_lt (by omega)]
    have hsize1 : sizeAt m1 b.addr = a := by rw [← hm1, sizeAt, read64_write64_of_lt (by omega)]
    obtain ⟨m', p', hrun, hrep', hout⟩ := kheapAddToFreeList_run (s.withList m1 s.freeList)
      fuel (b.addr + 32 + a) pre post hrep1
      (fun c hc => by have := hpre c hc; omega) (fun c hc => by have := hpost c hc; omega)
      (by omega) (by omega) (by omega) hfuel
    simp only [withList_mem] at hrep' hout
    refine ⟨m', p', ?_, ?_, ?_, ?_⟩
    · have hptr : add64 (add64 b.addr 32) a = b.addr + 32 + a := by
        rw [add64_of_lt (a := b.addr) (by omega), add64_of_lt (by omega)]
      have hsub : sub64 (b.size - a) 32 = b.size - a - 32 :=
        sub64_of_le (by omega) (by omega)
      simpa [kmallocSplit, kheapHeaderSize, kheapMinAlignment, hroom, hptr, hsub, hm1]
        using hrun
    · rw [hrem, ← hsplit]
      exact hrep'
    · rw [htaken, ← hsize1]
      refine read64_congr ?_
      intro x hx hx'
      refine hout x (by omega) ?_
      rintro ⟨c, hc, hlo, hhi⟩
      rcases List.mem_append.mp hc with hc | hc
      · have := hpre c hc
        omega
      · have := hpost c hc
        omega
    · intro x hx hin hrest
      have hx' : ¬(b.addr + 32 + a ≤ x ∧ x < b.addr + 32 + a + 24) := by
        rintro ⟨hlo, hhi⟩
        exact hrest ⟨_, hrem ▸ List.mem_singleton.mpr rfl, hlo, hhi⟩
      rw [hout x (by omega) hin]
      exact hout1 x hx (by omega)
  · have hrem : remainder a b = [] := if_neg hroom
    refine ⟨s.mem, s.freeList, ?_, ?_, ?_, fun _ _ _ _ => rfl⟩
    · simp [kmallocSplit, kheapHeaderSize, kheapMinAlignment, hroom, withList_self]
    · simpa [hrem] using hrep
    · rw [hsize, takenSize, if_neg hroom]

/-- Taking the found block: it leaves the list, its remainder (if any) takes
its place, and its header says how many bytes it has and that it is
allocated. -/
theorem kmallocTake_run (s : KheapState) (fuel a : Nat) (pre post : List Block) (b : Block)
    (hrep : FreeRep s.mem s.freeList (pre ++ b :: post)) (ha : a % 16 = 0)
    (hfit : a ≤ b.size) (hend : b.addr + 32 + b.size < 2 ^ 64)
    (hpost : ∀ c ∈ post, b.addr + 32 + b.size ≤ c.addr) (hfuel : pre.length < fuel) :
    ∃ m' p', kmallocTake fuel a (lastAddr 0 pre) b.addr s =
        .ok (b.addr + 32) (s.withList m' p') ∧
      FreeRep m' p' (pre ++ (remainder a b ++ post)) ∧
      sizeAt m' b.addr = takenSize a b ∧ magicAt m' b.addr = not64 kheapMagic ∧
      ∀ x, ¬(b.addr ≤ x ∧ x < b.addr + 24) → ¬InHeaders (pre ++ post) 8 16 x →
        ¬InHeaders (remainder a b) 0 24 x → m' x = s.mem x := by
  have hbmem : b ∈ pre ++ b :: post := by simp
  have hbalign := hrep.aligned b hbmem
  have hmid := hrep.sorted_middle
  obtain ⟨m1, p1, hunlink, hrep1, hout1⟩ := kmallocUnlink_run s b pre post hrep
  have hinpre : ∀ x, ¬InHeaders (pre ++ post) 8 16 x → ¬InHeaders pre 8 16 x := by
    rintro x hx ⟨c, hc, hbounds⟩
    exact hx ⟨c, by simp [hc], hbounds⟩
  have hsize1 : sizeAt m1 b.addr = b.size := by
    rw [← hrep.sizes b hbmem]
    refine read64_congr ?_
    intro x hx hx'
    refine hout1 x ?_
    rintro ⟨c, hc, hlo, hhi⟩
    have := hmid.1 c hc
    omega
  obtain ⟨m2, p2, hsplit, hrep2, hsize2, hout2⟩ := kmallocSplit_run (s.withList m1 p1) fuel a
    pre post b hrep1 hsize1 ha hbalign hend hfit hmid.1 hpost hfuel
  simp only [withList_mem, withList_withList] at hsplit hout2
  -- the magic number is written last, into a header that is in no list
  have hapart : ∀ c ∈ pre ++ (remainder a b ++ post), HeadersApart b.addr c.addr := by
    intro c hc
    simp only [List.mem_append, remainder] at hc
    rcases hc with hc | hc | hc
    · exact Or.inr (hmid.1 c hc)
    · split at hc
      · rw [List.mem_singleton.mp hc]
        exact Or.inl (by simp)
      · simp at hc
    · exact Or.inl (by have := hpost c hc; omega)
  refine ⟨write64 m2 (b.addr + 16) (not64 kheapMagic), p2, ?_, hrep2.frame ?_, ?_,
    read64_write64_of_lt (by decide), ?_⟩
  · have hremaining : sub64 b.size a = b.size - a := sub64_of_le hfit (by omega)
    have hdata : add64 b.addr 32 = b.addr + 32 := add64_of_lt (by omega)
    have hdataAlign : (b.addr + 32) % 16 = 0 := by omega
    simp [kmallocTake, kheapHeaderSize, kheapMinAlignment, hunlink, hsize1, hremaining,
      hsplit, hdata, hdataAlign]
  · rintro x ⟨c, hc, hlo, hhi⟩
    have := hapart c hc
    unfold HeadersApart at this
    exact write64_apply_of_outside (by omega)
  · rw [← hsize2]
    exact read64_write64_of_disjoint (by omega)
  · intro x hx hin hrest
    rw [write64_apply_of_outside (by omega), hout2 x (by omega) hin hrest, hout1 x (hinpre x hin)]

end FarouKernel.Ports.Kheap
