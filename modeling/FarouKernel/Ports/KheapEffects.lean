import FarouKernel.Ports.KheapSizes

/-!
# What the calls of the kernel heap do, and what they leave alone

Three consequences of the tiling.

* `kmalloc` serves a request from the lowest free block that is large enough, and
  if there is none, from the heap after exactly one expansion.
* A call writes headers of free blocks, of the block it allocates or frees, and of
  the space it adds.  All other live blocks keep every byte, header and data.
* `kheap_coalesce_free_list` never writes a magic number, so the header of a freed
  block keeps `KHEAP_MAGIC` also when the block is absorbed by a neighbour.  Until
  the next `kmalloc`, a second `kfree` of the block stops at the magic check.
-/

namespace FarouKernel.Ports.Kheap

open Relation Verified ByteMem Ports.Memory

/-! ## First fit -/

/-- `kmalloc` took `a` bytes from the lowest block of the free list `l` that has
them.  It split the block exactly if 48 bytes or more remained. -/
def TookFirstFit (a : Nat) (l : List Block) (s s' : KheapState) (ptr : Nat) : Prop :=
  ∃ before b after, l = before ++ b :: after ∧ a ≤ b.size ∧
    (∀ c ∈ l, a ≤ c.size → b.addr ≤ c.addr) ∧ ptr = b.addr + 32 ∧
    sizeAt s'.mem b.addr = (if a + 48 ≤ b.size then a else b.size) ∧
    magicAt s'.mem b.addr = not64 kheapMagic ∧
    FreeListIs s' (before ++
      ((if a + 48 ≤ b.size then [⟨b.addr + 32 + a, b.size - a - 32⟩] else []) ++ after)) ∧
    s'.currentBreak = s.currentBreak ∧ s'.expansions = s.expansions

variable {cells : List Cell} {c : HeapConfig}

theorem Allocated.tookFirstFit {s : KheapState} {m : ByteMem} {p a ptr : Nat} {cells' : List Cell}
    (h : HeapRep s cells) (h' : HeapRep (s.withList m p) cells')
    (halloc : Allocated a cells cells' ptr) :
    TookFirstFit a (freeBlocks cells) s (s.withList m p) ptr := by
  obtain ⟨pre, b, post, rfl, hpre, hfit, rfl, rfl⟩ := halloc
  have hroom : 48 ≤ b.size - a ↔ a + 48 ≤ b.size := by omega
  have hlive := h'.live ⟨b.addr, takenSize a b⟩ (by simp)
  have hfree := h'.free.freeListIs
  refine ⟨freeBlocks pre, b, freeBlocks post, by simp, hfit, ?_, rfl, ?_, hlive.2, ?_, rfl, rfl⟩
  · intro c hc hsize
    simp only [freeBlocks_append, freeBlocks_cons, if_true, List.mem_append, List.mem_cons] at hc
    rcases hc with hc | rfl | hc
    · have := hpre c hc
      omega
    · exact Nat.le_refl _
    · have := h.middle_after hc
      omega
  · rw [hlive.1]
    exact if_congr hroom rfl rfl
  · simpa only [freeBlocks_append, freeBlocks_takeCells, remainder, if_congr hroom rfl rfl]
      using hfree

section

variable (pages : Nat → PageResult) {s : KheapState} {cells : List Cell} {size fuel : Nat}

/-- Within the heap's maximal size, nothing wraps. -/
theorem sizes_unwrapped (hsize : size ≤ kernelHeapMaxSize) :
    alignedDataSize size = ceilSixteen size ∧
      expansionSize size = ceilPage (32 + ceilSixteen size) := by
  have hmax : kernelHeapMaxSize = 2 ^ 26 := rfl
  have hroom : 0 + ceilPage (32 + ceilSixteen size) < 2 ^ 64 := by
    unfold ceilPage ceilSixteen
    omega
  obtain ⟨ha, _, he⟩ := expansion_unwrapped hroom
  exact ⟨ha, he⟩

theorem kmalloc_serves (h : HeapRep s cells) (hpos : size ≠ 0) (hfuel : 2 ^ 21 < fuel)
    (hfit : ∃ c ∈ freeBlocks cells, alignedDataSize size ≤ c.size) :
    ∃ ptr s', kmalloc pages (fuel + 1) size s = .ok ptr s' ∧
      TookFirstFit (alignedDataSize size) (freeBlocks cells) s s' ptr := by
  obtain ⟨ptr, m, p, cells', hrun, hrep, halloc, _⟩ := kmalloc_fit pages h hpos hfit hfuel
  exact ⟨ptr, _, hrun, halloc.tookFirstFit h hrep⟩

/-- One expansion, and then the request is served. -/
theorem kmalloc_expands_once (h : HeapRep s cells) (hpages : PagesAvailable pages)
    (hpos : size ≠ 0) (hsize : size ≤ kernelHeapMaxSize) (hfuel : 2 ^ 21 < fuel)
    (hnone : ∀ c ∈ freeBlocks cells, c.size < alignedDataSize size)
    (hmax : s.currentBreak + expansionSize size ≤ s.maxBreak) :
    ∃ s1 l ptr s', kmalloc pages (fuel + 2) size s = kmalloc pages (fuel + 1) size s1 ∧
      FreeListIs s1 l ∧ s1.currentBreak = s.currentBreak + expansionSize size ∧
      s1.expansions = s.expansions + 1 ∧ kmalloc pages (fuel + 1) size s1 = .ok ptr s' ∧
      TookFirstFit (alignedDataSize size) l s1 s' ptr := by
  obtain ⟨hcover, _, htotal⟩ := expansionSize_bounds hsize
  have hpos' : 0 < expansionSize size := by omega
  have htotal' : totalBlockSizeNeeded size ≤ expansionSize size := by omega
  rcases kmalloc_grow pages h hpos hnone hmax hpos' htotal' (Nat.lt_succ_of_lt hfuel) with
    ⟨k, s', _, _, _, _, _, _, _, hfailed⟩ | ⟨s1, hrep, hbreak, hcount, hretry, _⟩
  · exact absurd hfailed (hpages.not_failed _)
  · obtain ⟨ptr, s', hrun, htook⟩ :=
      kmalloc_serves pages hrep hpos hfuel (h.exists_fit_after_growth hcover)
    exact ⟨s1, _, ptr, s', hretry, hrep.free.freeListIs, hbreak, hcount, hrun, htook⟩

end

/-- **First fit with exactly one expansion.**  With pages available, and `a` the
request rounded up to 16: `kmalloc` takes `a` bytes from the lowest free block that
has them; if there is none, it grows the heap by `32 + a` bytes rounded up to pages
and then serves the request from the free list; if the heap cannot grow that far,
it returns `NULL` and changes nothing. -/
theorem kmalloc_first_fit (pages : Nat → PageResult) (fuel : Nat) (s : KheapState)
    (cells : List Cell) (size : Nat) (h : HeapRep s cells) (hpages : PagesAvailable pages)
    (hpos : 0 < size) (hsize : size ≤ kernelHeapMaxSize) (hfuel : 2 ^ 22 ≤ fuel) :
    ((∃ c ∈ freeBlocks cells, ceilSixteen size ≤ c.size) →
      ∃ ptr s', kmalloc pages fuel size s = .ok ptr s' ∧
        TookFirstFit (ceilSixteen size) (freeBlocks cells) s s' ptr) ∧
    ((∀ c ∈ freeBlocks cells, c.size < ceilSixteen size) →
      s.currentBreak + ceilPage (32 + ceilSixteen size) ≤ s.maxBreak →
      ∃ s1 l ptr s', kmalloc pages fuel size s = kmalloc pages (fuel - 1) size s1 ∧
        FreeListIs s1 l ∧
        s1.currentBreak = s.currentBreak + ceilPage (32 + ceilSixteen size) ∧
        s1.expansions = s.expansions + 1 ∧ kmalloc pages (fuel - 1) size s1 = .ok ptr s' ∧
        TookFirstFit (ceilSixteen size) l s1 s' ptr) ∧
    ((∀ c ∈ freeBlocks cells, c.size < ceilSixteen size) →
      s.maxBreak < s.currentBreak + ceilPage (32 + ceilSixteen size) →
      kmalloc pages fuel size s = .ok 0 s) := by
  obtain ⟨ha, he⟩ := sizes_unwrapped hsize
  obtain ⟨f, rfl⟩ : ∃ f, fuel = f + 2 := ⟨fuel - 2, by omega⟩
  have hpos' : size ≠ 0 := by omega
  rw [← he, ← ha]
  refine ⟨?_, ?_, ?_⟩
  · exact kmalloc_serves pages h hpos' (show 2 ^ 21 < f + 1 by omega)
  · exact kmalloc_expands_once pages h hpages hpos' hsize (show 2 ^ 21 < f by omega)
  · intro hnone hmax
    have hlt := h.break_add_lt (expansionSize_bounds hsize).2.1
    exact kmalloc_beyond_max pages h hpos' hnone hlt hmax (show 2 ^ 21 < f + 1 by omega)

/-- The heap `memory_init` leaves is expanded by one page to serve one byte. -/
theorem kmalloc_first_fit_start :
    ∃ s1 l ptr s', kmalloc plentifulPages (2 ^ 22) 1 (kheapInit fun _ => 0) =
        kmalloc plentifulPages (2 ^ 22 - 1) 1 s1 ∧ FreeListIs s1 l ∧
      s1.currentBreak = kernelHeapStart + 4096 ∧ s1.expansions = 1 ∧
      kmalloc plentifulPages (2 ^ 22 - 1) 1 s1 = .ok ptr s' ∧
      TookFirstFit (ceilSixteen 1) l s1 s' ptr :=
  (kmalloc_first_fit plentifulPages (2 ^ 22) (kheapInit fun _ => 0) [] 1 (heapRep_init _)
    plentifulPages_available (by decide) (by decide) (Nat.le_refl _)).2.1 (by simp) (by decide)

/-! ## Other owners' memory -/

/-- The byte `x` belongs to the live block at `ptr`, to its header or its data area. -/
def HeapConfig.InBlockOf (c : HeapConfig) (ptr x : Nat) : Prop :=
  ptr - 32 ≤ x ∧ x < ptr + sizeAt c.heap.mem (ptr - 32)

/-- The live block of a live pointer, as a block of the tiling. -/
theorem HeapRep.inBlockOf (h : HeapRep c.heap cells) {b : Block} (hb : b ∈ liveBlocks cells)
    (x : Nat) : c.InBlockOf b.dataPtr x ↔ b.addr ≤ x ∧ x < b.addr + 32 + b.size := by
  rw [HeapConfig.InBlockOf, Block.dataPtr, Nat.add_sub_cancel, (h.live b hb).1]

theorem HeapInv.malloc_spares {pages : Nat → PageResult} {fuel size : Nat} (h : HeapInv c)
    (hpages : PagesAvailable pages) (hfuel : 2 ^ 22 ≤ fuel) (hsize : size ≤ kernelHeapMaxSize) :
    ∃ ptr s', kmalloc pages fuel size c.heap = .ok ptr s' ∧
      ∀ q ∈ c.live, ∀ x, c.InBlockOf q x → s'.mem x = c.heap.mem x := by
  obtain ⟨cells, hrep, hcoal, hlive⟩ := h
  obtain ⟨f, rfl⟩ : ∃ f, fuel = f + 2 := ⟨fuel - 2, by omega⟩
  obtain ⟨ptr, s', cells', hrun, _, _, _, _, hout⟩ :=
    kmalloc_ok pages hrep hcoal hpages.not_failed hsize (show 2 ^ 21 < f by omega)
  refine ⟨ptr, s', hrun, fun q hq x hx => ?_⟩
  obtain ⟨b, hb, rfl⟩ := List.mem_map.mp (hlive.mem_iff.mp hq)
  obtain ⟨hlo, hhi⟩ := (hrep.inBlockOf hb x).mp hx
  have hbounds := hrep.live_bounds hb
  exact hout x (by omega) (hrep.live_not_inFree hb hlo hhi)

/-- What `kfree` of one live block does not touch in another. -/
theorem Freed.spares {s s' : KheapState} {cells' : List Cell} {b d : Block}
    (hfreed : Freed b s s' cells cells') (h : HeapRep s cells) (hb : b ∈ liveBlocks cells)
    (hd : d ∈ liveBlocks cells) (hne : d ≠ b) {x : Nat} (hlo : d.addr ≤ x)
    (hhi : x < d.addr + 32 + d.size) : s'.mem x = s.mem x := by
  have hcells : (⟨b, false⟩ : Cell) ≠ ⟨d, false⟩ := fun heq => hne (congrArg Cell.toBlock heq).symm
  have hapart := h.tiles.apart (mem_liveBlocks.mp hb) (mem_liveBlocks.mp hd) hcells
  simp only [Cell.extent] at hapart
  apply hfreed.bytes x
  · omega
  · exact fun hin => h.live_not_inFree hd hlo hhi (hin.inFree (by omega))

theorem HeapInv.free_spares {fuel ptr : Nat} (h : HeapInv c) (hfuel : 2 ^ 22 ≤ fuel)
    (hptr : ptr ∈ c.live) :
    ∃ s', kfree fuel ptr c.heap = .ok () s' ∧
      ∀ q ∈ c.live, q ≠ ptr → ∀ x, c.InBlockOf q x → s'.mem x = c.heap.mem x := by
  obtain ⟨cells, hrep, _, hlive⟩ := h
  obtain ⟨b, hb, rfl⟩ := List.mem_map.mp (hlive.mem_iff.mp hptr)
  obtain ⟨s', cells', hrun, _, _, hfreed⟩ := kfree_ok hrep hb (show 2 ^ 21 < fuel by omega)
  refine ⟨s', hrun, fun q hq hne x hx => ?_⟩
  obtain ⟨d, hd, rfl⟩ := List.mem_map.mp (hlive.mem_iff.mp hq)
  obtain ⟨hlo, hhi⟩ := (hrep.inBlockOf hd x).mp hx
  exact hfreed.spares hrep hb hd (fun heq => hne (heq ▸ rfl)) hlo hhi

/-- **The heap's calls never touch other owners' memory.**  In every configuration a
run reaches, a `kmalloc` of up to `KERNEL_HEAP_MAX_SIZE` bytes leaves every byte of
every live block as it was, header and data, and a `kfree` of a live pointer every
byte of every other live block. -/
theorem kheap_spares_live_blocks (pages : Nat → PageResult) (fuel : Nat) (mem : ByteMem)
    (c : HeapConfig) (hpages : PagesAvailable pages) (hfuel : 2 ^ 22 ≤ fuel)
    (hrun : ReflTransGen (HeapStep pages fuel) (HeapConfig.init mem) c) :
    (∀ size, size ≤ kernelHeapMaxSize → ∃ ptr s', kmalloc pages fuel size c.heap = .ok ptr s' ∧
      ∀ q ∈ c.live, ∀ x, c.InBlockOf q x → s'.mem x = c.heap.mem x) ∧
      ∀ ptr ∈ c.live, ∃ s', kfree fuel ptr c.heap = .ok () s' ∧
        ∀ q ∈ c.live, q ≠ ptr → ∀ x, c.InBlockOf q x → s'.mem x = c.heap.mem x := by
  have hinv := heapInv_run hpages hfuel hrun
  exact ⟨fun size hsize => hinv.malloc_spares hpages hfuel hsize,
    fun ptr hptr => hinv.free_spares hfuel hptr⟩

theorem kheap_spares_live_blocks_one :
    ∃ (c : HeapConfig) (q ptr : Nat) (s' : KheapState), c.live = [q] ∧
      kmalloc plentifulPages (2 ^ 22) 16 c.heap = .ok ptr s' ∧
      ∀ x, c.InBlockOf q x → s'.mem x = c.heap.mem x := by
  obtain ⟨c, q, hrun, hlive, _⟩ := exists_run_one_live
  obtain ⟨ptr, s', hcall, hspares⟩ := (kheap_spares_live_blocks plentifulPages (2 ^ 22) (fun _ => 0)
    c plentifulPages_available (Nat.le_refl _) hrun).1 16 (by decide)
  exact ⟨c, q, ptr, s', hlive, hcall, hspares q (hlive ▸ List.mem_singleton_self q)⟩

/-! ## Double frees -/

/-- The header at `q` carries the magic number of a free block, and is the header of
a free block or lies in the data area of one. -/
def StaleHeader (s : KheapState) (cells : List Cell) (q : Nat) : Prop :=
  magicAt s.mem q = kheapMagic ∧ ∃ b ∈ freeBlocks cells, (⟨q, 0⟩ : Block).Within b

/-- The steps between the two frees: frees of live pointers and stores into live data
areas. -/
inductive ReleaseStep (fuel : Nat) : HeapConfig → HeapConfig → Prop
  | free {c : HeapConfig} {ptr : Nat} {s' : KheapState}
      (hlive : ptr ∈ c.live) (hcall : kfree fuel ptr c.heap = .ok () s') :
      ReleaseStep fuel c ⟨c.live.erase ptr, s'⟩
  | store {c : HeapConfig} {m : ByteMem}
      (hstore : ∀ x, ¬c.InLiveData x → m x = c.heap.mem x) :
      ReleaseStep fuel c ⟨c.live, c.heap.withList m c.heap.freeList⟩

/-- The invariant between the two frees. -/
def ReleasedInv (q : Nat) (c : HeapConfig) : Prop :=
  ∃ cells, HeapRep c.heap cells ∧ c.live.Perm ((liveBlocks cells).map Block.dataPtr) ∧
    StaleHeader c.heap cells q

section

variable {fuel : Nat} {s s' : KheapState} {cells cells' : List Cell} {b : Block} {q : Nat}

/-- The magic number of a stale header lies in a free block, outside the sizes and
links of all free blocks. -/
theorem HeapRep.stale_magic (h : HeapRep s cells) (hq : StaleHeader s cells q) {x : Nat}
    (hlo : q + 16 ≤ x) (hhi : x < q + 24) :
    InFree cells x ∧ ¬InHeaders (freeBlocks cells) 0 16 x := by
  obtain ⟨_, d, hd, hwithin⟩ := hq
  unfold Block.Within at hwithin
  simp only at hwithin
  refine ⟨⟨d, hd, by omega, by omega⟩, ?_⟩
  rintro ⟨e, he, helo, hehi⟩
  by_cases hsame : e = d
  · subst hsame
    omega
  · have hcells : (⟨e, true⟩ : Cell) ≠ ⟨d, true⟩ := fun heq => hsame (congrArg Cell.toBlock heq)
    have hapart := h.tiles.apart (mem_freeBlocks.mp he) (mem_freeBlocks.mp hd) hcells
    simp only [Cell.extent] at hapart
    omega

/-- A stale header survives every change that spares its magic number, as long as
free blocks are only merged. -/
theorem StaleHeader.later (hq : StaleHeader s cells q)
    (hmem : ∀ x, q + 16 ≤ x → x < q + 24 → s'.mem x = s.mem x)
    (habsorbed : ∀ d ∈ freeBlocks cells, ∃ c ∈ freeBlocks cells', d.Within c) :
    StaleHeader s' cells' q := by
  obtain ⟨hmagic, d, hd, hwithin⟩ := hq
  obtain ⟨c, hc, hdc⟩ := habsorbed d hd
  have hword : magicAt s'.mem q = magicAt s.mem q :=
    read64_congr fun x hlo hhi => hmem x hlo (by omega)
  exact ⟨hword.trans hmagic, c, hc, hwithin.trans hdc⟩

/-- The header of the block just freed is stale. -/
theorem Freed.stale (hfreed : Freed b s s' cells cells') : StaleHeader s' cells' b.addr := by
  obtain ⟨c, hc, hwithin⟩ := hfreed.absorbed b List.mem_cons_self
  refine ⟨hfreed.magic, c, hc, Block.Within.trans (c := b) ?_ hwithin⟩
  exact Or.inl ⟨rfl, Nat.zero_le _⟩

theorem Freed.keeps_stale (hfreed : Freed b s s' cells cells') (h : HeapRep s cells)
    (hb : b ∈ liveBlocks cells) (hq : StaleHeader s cells q) : StaleHeader s' cells' q := by
  refine hq.later ?_ fun d hd => hfreed.absorbed d (List.mem_cons_of_mem b hd)
  intro x hlo hhi
  obtain ⟨hfree, hheaders⟩ := h.stale_magic hq hlo hhi
  apply hfreed.bytes x _ hheaders
  rintro ⟨hblo, hbhi⟩
  exact h.live_not_inFree hb hblo (by omega) hfree

theorem releasedInv_step (hfuel : 2 ^ 22 ≤ fuel) (c c' : HeapConfig) (h : ReleasedInv q c)
    (hstep : ReleaseStep fuel c c') : ReleasedInv q c' := by
  obtain ⟨cells, hrep, hlive, hq⟩ := h
  cases hstep with
  | free hptr hcall =>
    obtain ⟨b, hb, rfl⟩ := List.mem_map.mp (hlive.mem_iff.mp hptr)
    obtain ⟨s', cells', hrun, hrep', _, hfreed⟩ :=
      kfree_ok hrep hb (show 2 ^ 21 < fuel by omega)
    have hsame := hcall.symm.trans hrun
    cases hsame
    exact ⟨cells', hrep', perm_erase_dataPtr hlive hfreed.live, hfreed.keeps_stale hrep hb hq⟩
  | store hstore =>
    refine ⟨cells, hrep.store fun x hx => hstore x (hrep.not_inLiveData hlive hx), hlive, ?_⟩
    refine hq.later ?_ fun d hd => ⟨d, hd, Block.Within.refl d⟩
    intro x hlo hhi
    obtain ⟨hfree, _⟩ := hrep.stale_magic hq hlo hhi
    refine hstore x (hrep.not_inLiveData hlive ?_)
    rintro b hb ⟨hblo, hbhi⟩
    exact hrep.live_not_inFree hb (by omega) hbhi hfree

/-- `kfree` of a stale header stops at the magic check. -/
theorem StaleHeader.kfree_panics (hq : StaleHeader s cells q) (hlt : q + 32 < 2 ^ 64) :
    kfree fuel (q + 32) s = .panic "Assertion failed: block->magic == ~KHEAP_MAGIC" s := by
  have hheader : sub64 (q + 32) kheapHeaderSize = q := by
    rw [sub64_of_le (by simp only [kheapHeaderSize]; omega) hlt]
    simp only [kheapHeaderSize]
    omega
  have hmagic : ¬magicAt s.mem q = not64 kheapMagic := by
    rw [hq.1]
    decide
  simp [kfree, hheader, hmagic]

end

/-- **A double free is caught before reuse.**  In every configuration a run reaches,
after `kfree` of a live pointer and any number of frees of other live pointers and
stores into live data areas, a second `kfree` of the pointer stops at the magic
check, with the heap as it was. -/
theorem kheap_double_free_panics (pages : Nat → PageResult) (fuel : Nat) (mem : ByteMem)
    (c : HeapConfig) (ptr : Nat) (hpages : PagesAvailable pages) (hfuel : 2 ^ 22 ≤ fuel)
    (hrun : ReflTransGen (HeapStep pages fuel) (HeapConfig.init mem) c) (hptr : ptr ∈ c.live) :
    ∃ s', kfree fuel ptr c.heap = .ok () s' ∧
      ∀ c', ReflTransGen (ReleaseStep fuel) ⟨c.live.erase ptr, s'⟩ c' →
        kfree fuel ptr c'.heap =
          .panic "Assertion failed: block->magic == ~KHEAP_MAGIC" c'.heap := by
  obtain ⟨cells, hrep, hcoal, hlive⟩ := heapInv_run hpages hfuel hrun
  obtain ⟨b, hb, rfl⟩ := List.mem_map.mp (hlive.mem_iff.mp hptr)
  obtain ⟨s', cells', hcall, hrep', _, hfreed⟩ := kfree_ok hrep hb (show 2 ^ 21 < fuel by omega)
  refine ⟨s', hcall, fun c' hrest => ?_⟩
  have hstart : ReleasedInv b.addr ⟨c.live.erase b.dataPtr, s'⟩ :=
    ⟨cells', hrep', perm_erase_dataPtr hlive hfreed.live, hfreed.stale⟩
  obtain ⟨_, _, _, hq⟩ := run_invariant (ReleasedInv b.addr) (releasedInv_step hfuel) hrest hstart
  have hbounds := hrep.live_bounds hb
  have hlt := hrep.break_lt
  exact hq.kfree_panics (by omega)

theorem kheap_double_free_panics_one :
    ∃ (c : HeapConfig) (ptr : Nat) (s' : KheapState), c.live = [ptr] ∧
      kfree (2 ^ 22) ptr c.heap = .ok () s' ∧
      kfree (2 ^ 22) ptr s' = .panic "Assertion failed: block->magic == ~KHEAP_MAGIC" s' := by
  obtain ⟨c, ptr, hrun, hlive, _⟩ := exists_run_one_live
  obtain ⟨s', hcall, hagain⟩ := kheap_double_free_panics plentifulPages (2 ^ 22) (fun _ => 0) c ptr
    plentifulPages_available (Nat.le_refl _) hrun (hlive ▸ List.mem_singleton_self ptr)
  exact ⟨c, ptr, s', hlive, hcall, hagain _ .refl⟩

end FarouKernel.Ports.Kheap
