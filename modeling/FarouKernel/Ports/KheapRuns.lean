import FarouKernel.Ports.KheapCalls
import FarouKernel.Verified.Runs
import Mathlib.Data.List.Perm.Basic

/-!
# Runs of the kernel heap

A run starts from the empty heap that `memory_init` sets up and takes any
number of steps: a `kmalloc` of at most `KERNEL_HEAP_MAX_SIZE` bytes, a `kfree`
of `NULL` or of a pointer still live, or a store by a client into the data
areas it holds.  The configuration carries the live pointers next to the heap.

The invariant of the runs is `HeapInv`: the heap is represented by a coalesced
tiling whose live blocks are the live pointers.  From it follow the
representation invariant in the source's own terms and, since a coalesced heap
is determined by its live blocks, that the order of frees does not matter.
-/

namespace FarouKernel.Ports.Kheap

open Relation Verified ByteMem Ports.Memory

/-- The pointers handed out and not freed since, and the heap. -/
structure HeapConfig where
  live : List Nat
  heap : KheapState

/-- The byte `x` belongs to the data area of a live block. -/
def HeapConfig.InLiveData (c : HeapConfig) (x : Nat) : Prop :=
  ∃ ptr ∈ c.live, ptr ≤ x ∧ x < ptr + sizeAt c.heap.mem (ptr - 32)

/-- The steps of a run: calls of `kmalloc` and `kfree` that return, and stores of the
callers into the data of their blocks. -/
inductive HeapStep (pages : Nat → PageResult) (fuel : Nat) : HeapConfig → HeapConfig → Prop
  | malloc {c : HeapConfig} {size ptr : Nat} {s' : KheapState}
      (hsize : size ≤ kernelHeapMaxSize) (hcall : kmalloc pages fuel size c.heap = .ok ptr s') :
      HeapStep pages fuel c ⟨if ptr = 0 then c.live else ptr :: c.live, s'⟩
  | free {c : HeapConfig} {ptr : Nat} {s' : KheapState}
      (hlive : ptr ∈ c.live) (hcall : kfree fuel ptr c.heap = .ok () s') :
      HeapStep pages fuel c ⟨c.live.erase ptr, s'⟩
  | freeNull {c : HeapConfig} {s' : KheapState} (hcall : kfree fuel 0 c.heap = .ok () s') :
      HeapStep pages fuel c ⟨c.live, s'⟩
  | store {c : HeapConfig} {m : ByteMem}
      (hstore : ∀ x, ¬c.InLiveData x → m x = c.heap.mem x) :
      HeapStep pages fuel c ⟨c.live, c.heap.withList m c.heap.freeList⟩

/-- The configuration `memory_init` leaves. -/
def HeapConfig.init (mem : ByteMem) : HeapConfig := ⟨[], kheapInit mem⟩

/-- Every page request succeeds. -/
def PagesAvailable (pages : Nat → PageResult) : Prop :=
  ∀ i, (pages i).frame ≠ 0 ∧ (pages i).mapOk = true

theorem PagesAvailable.not_failed {pages : Nat → PageResult} (h : PagesAvailable pages)
    (i : Nat) : ¬(pages i).Failed := by
  intro hcase
  rcases hcase with hframe | hmap
  · exact (h i).1 hframe
  · rw [(h i).2] at hmap
    exact Bool.noConfusion hmap

/-- The pointer `kmalloc` returned for a block. -/
def Block.dataPtr (b : Block) : Nat := b.addr + 32

/-- The invariant of the runs. -/
def HeapInv (c : HeapConfig) : Prop :=
  ∃ cells, HeapRep c.heap cells ∧ Coalesced cells ∧
    c.live.Perm ((liveBlocks cells).map Block.dataPtr)

theorem heapRep_init (mem : ByteMem) : HeapRep (kheapInit mem) [] := by
  refine
    { tiles := rfl, free := FreeRep.nil mem, live := by simp, sizes := by simp
      breakAligned := show kernelHeapStart % 4096 = 0 by decide
      breakLe := Nat.le_add_right _ _, maxBreak := rfl, mapped := ?_ }
  intro a hlo hhi
  have hbreak : a < kernelHeapStart := hhi
  omega

theorem heapInv_init (mem : ByteMem) : HeapInv (HeapConfig.init mem) :=
  ⟨[], heapRep_init mem, List.isChain_nil, List.Perm.refl _⟩

variable {c : HeapConfig} {cells : List Cell} {bs : List Block} {lo hi : Nat} {ptrs : List Nat}

/-- A store into live data areas touches no header. -/
theorem HeapRep.store {s : KheapState} (h : HeapRep s cells) {m : ByteMem}
    (hstore : ∀ x, (∀ b ∈ liveBlocks cells, ¬(b.addr + 32 ≤ x ∧ x < b.addr + 32 + b.size)) →
      m x = s.mem x) : HeapRep (s.withList m s.freeList) cells := by
  have hheader : ∀ c ∈ cells, ∀ x, c.addr ≤ x → x < c.addr + 32 → m x = s.mem x := by
    intro c hc x hlo hhi
    apply hstore
    intro b hb hdata
    by_cases hsame : (⟨b, false⟩ : Cell) = c
    · subst hsame
      simp only at hlo hhi
      omega
    · have hapart := h.tiles.apart (mem_liveBlocks.mp hb) hc hsame
      simp only [Cell.extent] at hapart
      omega
  apply h.withList h.tiles
  · apply h.free.frame
    rintro x ⟨c, hc, hlo, hhi⟩
    exact hheader _ (mem_freeBlocks.mp hc) x (by simpa using hlo) (by simp only; omega)
  · apply h.live_frame (fun d hd => hd)
    intro d hd x hlo hhi
    exact hheader _ (mem_liveBlocks.mp hd) x hlo (by simp only; omega)
  · exact h.sizes

/-- A byte outside the data areas of the live blocks is in no live data area. -/
theorem HeapRep.not_inLiveData (h : HeapRep c.heap cells)
    (hlive : c.live.Perm ((liveBlocks cells).map Block.dataPtr)) {x : Nat}
    (hx : ∀ b ∈ liveBlocks cells, ¬(b.addr + 32 ≤ x ∧ x < b.addr + 32 + b.size)) :
    ¬c.InLiveData x := by
  rintro ⟨ptr, hptr, hlo, hhi⟩
  obtain ⟨b, hb, rfl⟩ := List.mem_map.mp (hlive.mem_iff.mp hptr)
  simp only [Block.dataPtr, Nat.add_sub_cancel, (h.live b hb).1] at hlo hhi
  exact hx b hb ⟨hlo, hhi⟩

theorem heapInv_store (h : HeapInv c) {m : ByteMem}
    (hstore : ∀ x, ¬c.InLiveData x → m x = c.heap.mem x) :
    HeapInv ⟨c.live, c.heap.withList m c.heap.freeList⟩ := by
  obtain ⟨cells, hrep, hcoal, hlive⟩ := h
  exact ⟨cells, hrep.store fun x hx => hstore x (hrep.not_inLiveData hlive hx), hcoal, hlive⟩

section Steps

variable {pages : Nat → PageResult} {fuel : Nat}

/-- `kmalloc` returns, and keeps the invariant. -/
theorem heapInv_malloc (h : HeapInv c) (hpages : PagesAvailable pages) (hfuel : 2 ^ 22 ≤ fuel)
    {size : Nat} (hsize : size ≤ kernelHeapMaxSize) :
    ∃ ptr s', kmalloc pages fuel size c.heap = .ok ptr s' ∧
      HeapInv ⟨if ptr = 0 then c.live else ptr :: c.live, s'⟩ := by
  obtain ⟨cells, hrep, hcoal, hlive⟩ := h
  obtain ⟨f, rfl⟩ : ∃ f, fuel = f + 2 := ⟨fuel - 2, by omega⟩
  obtain ⟨ptr, s', cells', hrun, hrep', hcoal', hcases, _⟩ :=
    kmalloc_ok pages hrep hcoal hpages.not_failed hsize (show 2 ^ 21 < f by omega)
  refine ⟨ptr, s', hrun, cells', hrep', hcoal', ?_⟩
  rcases hcases with ⟨hnull, hsame, _⟩ | ⟨b, hptr, _, hperm⟩
  · simpa [hnull, hsame] using hlive
  · have hne : ptr ≠ 0 := by omega
    have hptr' : ptr = b.dataPtr := hptr
    simp only [if_neg hne]
    have hcons : (ptr :: c.live).Perm (b.dataPtr :: (liveBlocks cells).map Block.dataPtr) :=
      hptr' ▸ hlive.cons ptr
    exact hcons.trans (hperm.map Block.dataPtr).symm

/-- A request the heap has room for is served. -/
theorem HeapInv.malloc_served (h : HeapInv c) (hpages : PagesAvailable pages)
    (hfuel : 2 ^ 22 ≤ fuel) {size : Nat} (hpos : size ≠ 0) (hsize : size ≤ kernelHeapMaxSize)
    (hroom : c.heap.currentBreak + expansionSize size ≤ kernelHeapStart + kernelHeapMaxSize) :
    ∃ ptr s', HeapStep pages fuel c ⟨ptr :: c.live, s'⟩ ∧
      s'.currentBreak ≤ c.heap.currentBreak + expansionSize size := by
  obtain ⟨cells, hrep, hcoal, _⟩ := h
  obtain ⟨f, rfl⟩ : ∃ f, fuel = f + 2 := ⟨fuel - 2, by omega⟩
  obtain ⟨ptr, s', _, hrun, _, _, hcases, hbreak, _⟩ :=
    kmalloc_ok pages hrep hcoal hpages.not_failed hsize (show 2 ^ 21 < f by omega)
  have hmax := hrep.maxBreak
  rcases hcases with ⟨_, _, hnone⟩ | ⟨b, hptr, _, _⟩
  · omega
  · have hne : ptr ≠ 0 := by omega
    have hstep := HeapStep.malloc (c := c) hsize hrun
    rw [if_neg hne] at hstep
    exact ⟨ptr, s', hstep, hbreak⟩

/-- Taking one block off takes its pointer off the live ones. -/
theorem perm_erase_dataPtr {live : List Nat} {bs' : List Block} {b : Block}
    (hlive : live.Perm (bs.map Block.dataPtr)) (hperm : bs.Perm (b :: bs')) :
    (live.erase b.dataPtr).Perm (bs'.map Block.dataPtr) := by
  have hall := (hlive.trans (hperm.map Block.dataPtr)).erase b.dataPtr
  rwa [List.map_cons, List.erase_cons_head] at hall

/-- `kfree` of a live pointer returns, and keeps the invariant. -/
theorem heapInv_free (h : HeapInv c) (hfuel : 2 ^ 22 ≤ fuel) {ptr : Nat} (hptr : ptr ∈ c.live) :
    ∃ s', kfree fuel ptr c.heap = .ok () s' ∧ HeapInv ⟨c.live.erase ptr, s'⟩ := by
  obtain ⟨cells, hrep, hcoal, hlive⟩ := h
  obtain ⟨b, hb, rfl⟩ := List.mem_map.mp (hlive.mem_iff.mp hptr)
  obtain ⟨s', cells', hrun, hrep', hcoal', hfreed⟩ :=
    kfree_ok hrep hb (show 2 ^ 21 < fuel by omega)
  exact ⟨s', hrun, cells', hrep', hcoal', perm_erase_dataPtr hlive hfreed.live⟩

theorem heapInv_step (hpages : PagesAvailable pages) (hfuel : 2 ^ 22 ≤ fuel)
    (c c' : HeapConfig) (h : HeapInv c) (hstep : HeapStep pages fuel c c') : HeapInv c' := by
  cases hstep with
  | malloc hsize hcall =>
    obtain ⟨ptr, s', hrun, hinv⟩ := heapInv_malloc h hpages hfuel hsize
    cases hcall.symm.trans hrun
    exact hinv
  | free hlive hcall =>
    obtain ⟨s', hrun, hinv⟩ := heapInv_free h hfuel hlive
    cases hcall.symm.trans hrun
    exact hinv
  | freeNull hcall =>
    have hnop : kfree fuel 0 c.heap = .ok () c.heap := by simp [kfree]
    cases hnop.symm.trans hcall
    exact h
  | store hstore => exact heapInv_store h hstore

/-- The invariant holds in every configuration a run reaches. -/
theorem heapInv_run (hpages : PagesAvailable pages) (hfuel : 2 ^ 22 ≤ fuel) {mem : ByteMem}
    (hrun : ReflTransGen (HeapStep pages fuel) (HeapConfig.init mem) c) : HeapInv c :=
  run_invariant HeapInv (heapInv_step hpages hfuel) hrun (heapInv_init mem)

end Steps

/-- A page source that always delivers. -/
def plentifulPages : Nat → PageResult := fun _ => ⟨1, true⟩

theorem plentifulPages_available : PagesAvailable plentifulPages := fun _ =>
  ⟨Nat.one_ne_zero, rfl⟩

/-- A run that leaves one live pointer. -/
theorem exists_run_one_live :
    ∃ c ptr, ReflTransGen (HeapStep plentifulPages (2 ^ 22)) (HeapConfig.init fun _ => 0) c ∧
      c.live = [ptr] ∧ c.heap.currentBreak ≤ kernelHeapStart + 4096 := by
  obtain ⟨ptr, s', hstep, hbreak⟩ := (heapInv_init fun _ => 0).malloc_served
    plentifulPages_available (Nat.le_refl _) (show 16 ≠ 0 by decide) (by decide) (by decide)
  exact ⟨_, ptr, .single hstep, rfl, hbreak⟩

/-- A run that leaves two. -/
theorem exists_run_two_live :
    ∃ c p q, ReflTransGen (HeapStep plentifulPages (2 ^ 22)) (HeapConfig.init fun _ => 0) c ∧
      c.live = [q, p] := by
  obtain ⟨c, p, hrun, hlive, hbreak⟩ := exists_run_one_live
  have hexpand : expansionSize 100 = 4096 := by decide
  have hmax : kernelHeapMaxSize = 2 ^ 26 := rfl
  obtain ⟨q, s', hstep, _⟩ := (heapInv_run plentifulPages_available (Nat.le_refl _)
    hrun).malloc_served plentifulPages_available (Nat.le_refl _) (show 100 ≠ 0 by decide)
    (by decide) (by omega)
  exact ⟨_, p, q, hrun.tail hstep, by rw [hlive]⟩

/-! ## The representation invariant in the source's terms -/

/-- The free list starting in `kheap_free_list` and ending in `NULL`, as the
blocks its headers describe. -/
def FreeListIs (s : KheapState) (l : List Block) : Prop :=
  Chain 0 (nextAt s.mem) s.freeList (l.map Block.addr) ∧ ∀ b ∈ l, sizeAt s.mem b.addr = b.size

theorem FreeRep.freeListIs {s : KheapState} {l : List Block}
    (h : FreeRep s.mem s.freeList l) : FreeListIs s l :=
  ⟨h.chain, h.sizes⟩

/-- What a configuration of the heap looks like to the source: its blocks
`cells` tile the heap, its free list holds the free ones, its live pointers
are those of the live ones. -/
structure WellFormedHeap (c : HeapConfig) (cells : List Cell) : Prop where
  tiles : CellTiles kernelHeapStart cells c.heap.currentBreak
  livePointers : c.live.Perm ((liveBlocks cells).map Block.dataPtr)
  freeList : FreeListIs c.heap (freeBlocks cells)
  increasing : ((freeBlocks cells).map Block.addr).Pairwise (· < ·)
  notAdjacent : ∀ b ∈ freeBlocks cells, ∀ d ∈ freeBlocks cells,
    b.addr + 32 + b.size ≠ d.addr
  headers : ∀ d ∈ cells, sizeAt c.heap.mem d.addr = d.size ∧
    magicAt c.heap.mem d.addr = if d.free then kheapMagic else not64 kheapMagic
  multiples : ∀ d ∈ cells, d.addr % 16 = 0 ∧ d.size % 16 = 0
  breakAligned : c.heap.currentBreak % pageSize = 0
  breakLe : c.heap.currentBreak ≤ c.heap.maxBreak

/-- In a coalesced tiling no free block ends where another begins. -/
theorem Coalesced.not_adjacent (h : Coalesced cells) (htiles : CellTiles lo cells hi) :
    ∀ b ∈ freeBlocks cells, ∀ d ∈ freeBlocks cells, b.addr + 32 + b.size ≠ d.addr := by
  intro b hb d hd hadj
  obtain ⟨pre, post, rfl⟩ := List.append_of_mem (mem_freeBlocks.mp hb)
  obtain ⟨mid, hpre, hrest⟩ := tiles_append.mp htiles
  have hbaddr : b.addr = mid := hrest.1
  have hpost : CellTiles (mid + (32 + b.size)) post hi := hrest.2
  have hdcell := mem_freeBlocks.mp hd
  simp only [List.mem_append, List.mem_cons] at hdcell
  rcases hdcell with hdcell | hdcell | hdcell
  · have hbounds := hpre.mem_bounds hdcell
    simp only [Cell.extent] at hbounds
    omega
  · have hsame : d = b := congrArg Cell.toBlock hdcell
    subst hsame
    omega
  · -- `d` begins where `post` begins, so it is its first block
    cases post with
    | nil => simp at hdcell
    | cons e es =>
      have hdrest : CellTiles (mid + (32 + b.size) + (32 + e.size)) es hi := hpost.2
      have hfirst : (⟨d, true⟩ : Cell) = e := by
        rcases List.mem_cons.mp hdcell with hfirst | hlater
        · exact hfirst
        · have hbounds := hdrest.mem_bounds hlater
          simp only at hbounds
          omega
      have hchain := List.isChain_append.mp h
      exact hchain.2.1.rel_head? (y := e) rfl ⟨rfl, by rw [← hfirst]⟩

theorem HeapInv.wellFormed (h : HeapInv c) : ∃ cells, WellFormedHeap c cells := by
  obtain ⟨cells, hrep, hcoal, hlive⟩ := h
  refine ⟨cells, ?_⟩
  refine
    { tiles := hrep.tiles, livePointers := hlive, freeList := hrep.free.freeListIs
      increasing := ?_, notAdjacent := hcoal.not_adjacent hrep.tiles, headers := ?_
      multiples := fun d hd => ⟨hrep.addr_aligned hd, hrep.sizes d hd⟩
      breakAligned := hrep.breakAligned, breakLe := hrep.breakLe }
  · refine List.pairwise_map.mpr (hrep.free.sorted.imp ?_)
    intro b d hbd
    omega
  · intro d hd
    cases hfree : d.free with
    | true =>
      have hd' : d.toBlock ∈ freeBlocks cells := by
        rw [mem_freeBlocks, ← hfree]
        exact hd
      exact ⟨hrep.free.sizes _ hd', by simpa using hrep.free.magics _ hd'⟩
    | false =>
      have hd' : d.toBlock ∈ liveBlocks cells := by
        rw [mem_liveBlocks, ← hfree]
        exact hd
      exact ⟨(hrep.live _ hd').1, by simpa using (hrep.live _ hd').2⟩

/-- **The heap's representation invariant.**  In every configuration a run
reaches the heap is well formed, and every call the run may make next returns:
no assertion fails and no loop runs on. -/
theorem kheap_run_wellFormed (pages : Nat → PageResult) (fuel : Nat) (mem : ByteMem)
    (c : HeapConfig) (hpages : PagesAvailable pages) (hfuel : 2 ^ 22 ≤ fuel)
    (hrun : ReflTransGen (HeapStep pages fuel) (HeapConfig.init mem) c) :
    (∃ cells, WellFormedHeap c cells) ∧
      (∀ size, size ≤ kernelHeapMaxSize →
        ∃ ptr s', kmalloc pages fuel size c.heap = .ok ptr s') ∧
      ∀ ptr, ptr = 0 ∨ ptr ∈ c.live → ∃ s', kfree fuel ptr c.heap = .ok () s' := by
  have hinv := heapInv_run hpages hfuel hrun
  refine ⟨hinv.wellFormed, ?_, ?_⟩
  · intro size hsize
    obtain ⟨ptr, s', hcall, _⟩ := heapInv_malloc hinv hpages hfuel hsize
    exact ⟨ptr, s', hcall⟩
  · intro ptr hptr
    rcases hptr with rfl | hlive
    · exact ⟨c.heap, by simp [kfree]⟩
    · obtain ⟨s', hcall, _⟩ := heapInv_free hinv hfuel hlive
      exact ⟨s', hcall⟩

/-- The heap after two allocations and the release of the second. -/
theorem kheap_run_wellFormed_freed :
    ∃ (c : HeapConfig) (p q : Nat) (s' : KheapState), c.live = [q, p] ∧
      kfree (2 ^ 22) q c.heap = .ok () s' ∧ (∃ cells, WellFormedHeap ⟨[p], s'⟩ cells) ∧
      (∀ size, size ≤ kernelHeapMaxSize →
        ∃ ptr s1, kmalloc plentifulPages (2 ^ 22) size s' = .ok ptr s1) ∧
      ∃ s1, kfree (2 ^ 22) p s' = .ok () s1 := by
  obtain ⟨c, p, q, hrun, hlive⟩ := exists_run_two_live
  have hq : q ∈ c.live := by simp [hlive]
  obtain ⟨s', hcall, _⟩ := heapInv_free (heapInv_run plentifulPages_available (Nat.le_refl _) hrun)
    (Nat.le_refl _) hq
  have hstep : HeapStep plentifulPages (2 ^ 22) c _ := HeapStep.free hq hcall
  rw [hlive, List.erase_cons_head] at hstep
  obtain ⟨hformed, hmalloc, hfree⟩ := kheap_run_wellFormed plentifulPages (2 ^ 22) (fun _ => 0) _
    plentifulPages_available (Nat.le_refl _) (hrun.tail hstep)
  exact ⟨c, p, q, s', hlive, hcall, hformed, hmalloc, hfree p (Or.inr (List.mem_singleton_self p))⟩

/-! ## Frees commute -/

/-- Freeing a list of pointers, in its order. -/
def kfreeAll (fuel : Nat) : List Nat → Exec KheapState Unit
  | [] => pure ()
  | ptr :: ptrs => do
      kfree fuel ptr
      kfreeAll fuel ptrs

/-- Freeing live blocks one after the other, in any order. -/
theorem kfreeAll_run {fuel : Nat} (hfuel : 2 ^ 22 ≤ fuel) (bs rest : List Block)
    (s : KheapState) (cells : List Cell) (h : HeapRep s cells) (hcoal : Coalesced cells)
    (hlive : (liveBlocks cells).Perm (bs ++ rest)) :
    ∃ s' cells', kfreeAll fuel (bs.map Block.dataPtr) s = .ok () s' ∧ HeapRep s' cells' ∧
      Coalesced cells' ∧ (liveBlocks cells').Perm rest ∧
      s'.currentBreak = s.currentBreak := by
  induction bs generalizing s cells with
  | nil => exact ⟨s, cells, by simp [kfreeAll], h, hcoal, hlive, rfl⟩
  | cons b bs ih =>
    have hb : b ∈ liveBlocks cells := hlive.mem_iff.mpr List.mem_cons_self
    obtain ⟨s1, cells1, hrun1, hrep1, hcoal1, hfreed1⟩ :=
      kfree_ok h hb (show 2 ^ 21 < fuel by omega)
    have hlive1 : (liveBlocks cells1).Perm (bs ++ rest) :=
      (hfreed1.live.symm.trans hlive).cons_inv
    obtain ⟨s2, cells2, hrun2, hrep2, hcoal2, hperm2, hbreak2⟩ := ih s1 cells1 hrep1 hcoal1 hlive1
    refine ⟨s2, cells2, ?_, hrep2, hcoal2, hperm2, hbreak2.trans hfreed1.currentBreak⟩
    have hrun1' : kfree fuel b.dataPtr s = .ok () s1 := hrun1
    simp [kfreeAll, hrun1', hrun2]

/-- Live blocks stand in the order of their addresses. -/
theorem liveBlocks_pairwise (h : CellTiles lo cells hi) :
    (liveBlocks cells).Pairwise fun b d => b.addr < d.addr := by
  have hcells : cells.Pairwise fun b d => b.addr < d.addr := by
    refine h.pairwise.imp ?_
    intro b d hbd
    simp only [Cell.extent] at hbd
    omega
  exact List.pairwise_map.mpr (hcells.filter _)

/-- Two tilings with the same live blocks have them in the same order. -/
theorem liveBlocks_eq_of_perm {lo' hi' : Nat} {cells' : List Cell} (h : CellTiles lo cells hi)
    (h' : CellTiles lo' cells' hi') (hperm : (liveBlocks cells).Perm (liveBlocks cells')) :
    liveBlocks cells = liveBlocks cells' := by
  refine List.Perm.eq_of_pairwise ?_ (liveBlocks_pairwise h) (liveBlocks_pairwise h') hperm
  intro b d _ _ hbd hdb
  omega

/-- The live blocks a list of distinct live pointers stands for. -/
theorem exists_blocks_of_pointers {live : List Nat} (hlive : live.Perm (bs.map Block.dataPtr))
    (hnodup : ptrs.Nodup) (hsub : ptrs ⊆ live) :
    ∃ freed rest : List Block, ptrs = freed.map Block.dataPtr ∧ bs.Perm (freed ++ rest) := by
  induction ptrs generalizing bs live with
  | nil => exact ⟨[], bs, rfl, List.Perm.refl _⟩
  | cons p ptrs ih =>
    obtain ⟨hp, hnodup'⟩ := List.nodup_cons.mp hnodup
    obtain ⟨b, hb, rfl⟩ := List.mem_map.mp (hlive.mem_iff.mp (hsub List.mem_cons_self))
    have hsplit : bs.Perm (b :: bs.erase b) := List.perm_cons_erase hb
    have hlive' := perm_erase_dataPtr hlive hsplit
    have hsub' : ptrs ⊆ live.erase b.dataPtr := by
      intro q hq
      have hne : q ≠ b.dataPtr := fun heq => hp (heq ▸ hq)
      exact (List.mem_erase_of_ne hne).mpr (hsub (List.mem_cons_of_mem _ hq))
    obtain ⟨freed, rest, hptrs, hperm⟩ := ih hlive' hnodup' hsub'
    exact ⟨b :: freed, rest, by rw [List.map_cons, hptrs], hsplit.trans (hperm.cons b)⟩

/-- Another order of the same pointers frees the same blocks in another order. -/
theorem exists_reordered_blocks (h : ptrs.Perm (bs.map Block.dataPtr)) :
    ∃ bs' : List Block, ptrs = bs'.map Block.dataPtr ∧ bs'.Perm bs := by
  have hmap : List.Forall₂ (fun p (b : Block) => p = b.dataPtr) (bs.map Block.dataPtr) bs := by
    rw [← List.forall₂_map_right_iff, List.forall₂_eq_eq_eq]
  obtain ⟨bs', hbs', hperm⟩ := List.perm_comp_forall₂ h hmap
  rw [← List.forall₂_map_right_iff, List.forall₂_eq_eq_eq] at hbs'
  exact ⟨bs', hbs', hperm⟩

theorem HeapInv.live_nodup (h : HeapInv c) : c.live.Nodup := by
  obtain ⟨cells, hrep, _, hlive⟩ := h
  refine hlive.nodup_iff.mpr (List.pairwise_map.mpr ?_)
  refine (liveBlocks_pairwise hrep.tiles).imp ?_
  intro b d hbd heq
  simp only [Block.dataPtr] at heq
  omega

/-- Two orders of freeing the same live pointers end with the same free list,
the gaps that the blocks still live leave. -/
theorem HeapInv.kfreeAll_gaps {fuel : Nat} (h : HeapInv c) (hfuel : 2 ^ 22 ≤ fuel)
    (hnodup : ptrs.Nodup) (hsub : ptrs ⊆ c.live) :
    ∃ live : List Block, live.length + ptrs.length = c.live.length ∧
      ∀ order, order.Perm ptrs → ∃ s', kfreeAll fuel order c.heap = .ok () s' ∧
        s'.currentBreak = c.heap.currentBreak ∧
        FreeListIs s' (gaps kernelHeapStart live c.heap.currentBreak) := by
  obtain ⟨cells, hrep, hcoal, hlive⟩ := h
  obtain ⟨freed, rest, hptrs, hperm⟩ := exists_blocks_of_pointers hlive hnodup hsub
  -- the reference order fixes the blocks that stay live
  obtain ⟨s0, cells0, _, hrep0, _, hperm0, _⟩ := kfreeAll_run hfuel freed rest _ _ hrep hcoal hperm
  refine ⟨liveBlocks cells0, ?_, ?_⟩
  · have hlen := hlive.length_eq
    have hlen' := hperm.length_eq
    have hlen0 := hperm0.length_eq
    simp only [List.length_map, List.length_append] at hlen hlen'
    rw [hptrs, List.length_map]
    omega
  · intro order horder
    rw [hptrs] at horder
    obtain ⟨freed', horder', hfreed'⟩ := exists_reordered_blocks horder
    obtain ⟨s', cells', hrun, hrep', hcoal', hperm', hbreak⟩ :=
      kfreeAll_run hfuel freed' rest _ _ hrep hcoal
        (hperm.trans (hfreed'.symm.append_right rest))
    refine ⟨s', by rw [horder', hrun], hbreak, ?_⟩
    have hsame : liveBlocks cells' = liveBlocks cells0 :=
      liveBlocks_eq_of_perm hrep'.tiles hrep0.tiles (hperm'.trans hperm0.symm)
    rw [← hsame, ← hbreak, ← freeBlocks_eq_gaps cells' _ _ hrep'.tiles hcoal']
    exact hrep'.free.freeListIs

/-- **Frees commute and coalesce.**  After any run, freeing everything still
live, in any order, leaves one free block over the whole heap (none if the heap
was never expanded); and any two orders of freeing the same live pointers leave
the same free list. -/
theorem kheap_frees_commute (pages : Nat → PageResult) (fuel : Nat) (mem : ByteMem)
    (c : HeapConfig) (hpages : PagesAvailable pages) (hfuel : 2 ^ 22 ≤ fuel)
    (hrun : ReflTransGen (HeapStep pages fuel) (HeapConfig.init mem) c) :
    (∀ order, order.Perm c.live → ∃ s', kfreeAll fuel order c.heap = .ok () s' ∧
      s'.currentBreak = c.heap.currentBreak ∧
      FreeListIs s' (if kernelHeapStart < s'.currentBreak then
        [⟨kernelHeapStart, s'.currentBreak - kernelHeapStart - 32⟩] else [])) ∧
      ∀ order order', order.Nodup → order ⊆ c.live → order'.Perm order →
        ∃ s1 s2 l, kfreeAll fuel order c.heap = .ok () s1 ∧
          kfreeAll fuel order' c.heap = .ok () s2 ∧ FreeListIs s1 l ∧ FreeListIs s2 l := by
  have hinv := heapInv_run hpages hfuel hrun
  constructor
  · intro order horder
    obtain ⟨live, hlen, hall⟩ :=
      hinv.kfreeAll_gaps hfuel hinv.live_nodup (List.Subset.refl c.live)
    have hnone : live = [] := List.eq_nil_of_length_eq_zero (by omega)
    obtain ⟨s', hfree, hbreak, hlist⟩ := hall order horder
    refine ⟨s', hfree, hbreak, ?_⟩
    rw [hnone, ← hbreak] at hlist
    exact hlist
  · intro order order' hnodup hsub horder
    obtain ⟨live, _, hall⟩ := hinv.kfreeAll_gaps hfuel hnodup hsub
    obtain ⟨s1, hfree1, _, hlist1⟩ := hall order (List.Perm.refl _)
    obtain ⟨s2, hfree2, _, hlist2⟩ := hall order' horder
    exact ⟨s1, s2, _, hfree1, hfree2, hlist1, hlist2⟩

/-- Two live blocks, freed in both orders. -/
theorem kheap_frees_commute_two :
    ∃ (c : HeapConfig) (p q : Nat) (s1 s2 : KheapState) (whole : Block), c.live = [q, p] ∧
      kfreeAll (2 ^ 22) [p, q] c.heap = .ok () s1 ∧ kfreeAll (2 ^ 22) [q, p] c.heap = .ok () s2 ∧
      whole = ⟨kernelHeapStart, c.heap.currentBreak - kernelHeapStart - 32⟩ ∧
      FreeListIs s1 [whole] ∧ FreeListIs s2 [whole] := by
  obtain ⟨c, p, q, hrun, hlive⟩ := exists_run_two_live
  obtain ⟨cells, hrep, _, hperm⟩ := heapInv_run plentifulPages_available (Nat.le_refl _) hrun
  have hgrown : kernelHeapStart < c.heap.currentBreak := by
    have hp : p ∈ c.live := by simp [hlive]
    obtain ⟨b, hb, _⟩ := List.mem_map.mp (hperm.mem_iff.mp hp)
    have hbounds := hrep.live_bounds hb
    omega
  have hall := (kheap_frees_commute plentifulPages (2 ^ 22) (fun _ => 0) c
    plentifulPages_available (Nat.le_refl _) hrun).1
  rw [hlive] at hall
  obtain ⟨s1, hfree1, hbreak1, hlist1⟩ := hall [p, q] (List.Perm.swap q p [])
  obtain ⟨s2, hfree2, hbreak2, hlist2⟩ := hall [q, p] (List.Perm.refl _)
  rw [hbreak1, if_pos hgrown] at hlist1
  rw [hbreak2, if_pos hgrown] at hlist2
  exact ⟨c, p, q, s1, s2, _, hlive, hfree1, hfree2, rfl, hlist1, hlist2⟩

/-- The heap that was never expanded: freeing everything still live, that is
nothing, leaves no block of any size at `KERNEL_HEAP_START`. -/
theorem kheap_frees_unexpanded :
    ReflTransGen (HeapStep plentifulPages (2 ^ 22)) (HeapConfig.init fun _ => 0)
        ⟨[], kheapInit fun _ => 0⟩ ∧
      kfreeAll (2 ^ 22) [] (kheapInit fun _ => 0) = .ok () (kheapInit fun _ => 0) ∧
      ∀ size, ¬FreeListIs (kheapInit fun _ => 0) [⟨kernelHeapStart, size⟩] := by
  refine ⟨.refl, by simp [kfreeAll], ?_⟩
  intro size hlist
  have hhead := hlist.1
  simp [Chain, kheapInit] at hhead
  revert hhead
  decide

/-! ## `kfree` undoes `kmalloc` -/

theorem HeapRep.freeListIs_gaps {s : KheapState} (h : HeapRep s cells) (hcoal : Coalesced cells) :
    FreeListIs s (gaps kernelHeapStart (liveBlocks cells) s.currentBreak) := by
  rw [← freeBlocks_eq_gaps cells _ _ h.tiles hcoal]
  exact h.free.freeListIs

/-- **Freeing what `kmalloc` returned** leaves the free list as it was: the gaps between the
blocks `live` of the live pointers, up to a break that an expansion may have moved. -/
theorem kheap_free_undoes_malloc (pages : Nat → PageResult) (fuel size : Nat) (mem : ByteMem)
    (c : HeapConfig) (hpages : PagesAvailable pages) (hfuel : 2 ^ 22 ≤ fuel)
    (hrun : ReflTransGen (HeapStep pages fuel) (HeapConfig.init mem) c)
    (hsize : size ≤ kernelHeapMaxSize) :
    ∃ ptr s1 s2 live, (live.map Block.dataPtr).Perm c.live ∧
      kmalloc pages fuel size c.heap = .ok ptr s1 ∧ kfree fuel ptr s1 = .ok () s2 ∧
      s2.currentBreak = s1.currentBreak ∧
      FreeListIs c.heap (gaps kernelHeapStart live c.heap.currentBreak) ∧
      FreeListIs s2 (gaps kernelHeapStart live s2.currentBreak) := by
  obtain ⟨cells, hrep, hcoal, hlive⟩ := heapInv_run hpages hfuel hrun
  obtain ⟨f, rfl⟩ : ∃ f, fuel = f + 2 := ⟨fuel - 2, by omega⟩
  obtain ⟨ptr, s1, cells1, hmalloc, hrep1, hcoal1, hcases, _⟩ :=
    kmalloc_ok pages hrep hcoal hpages.not_failed hsize (show 2 ^ 21 < f by omega)
  have hlist := hrep.freeListIs_gaps hcoal
  rcases hcases with ⟨rfl, hsame, _⟩ | ⟨b, rfl, _, hperm⟩
  · exact ⟨0, s1, s1, _, hlive.symm, hmalloc, by simp [kfree], rfl, hlist,
      hsame ▸ hrep1.freeListIs_gaps hcoal1⟩
  · obtain ⟨s2, cells2, hfree, hrep2, hcoal2, hfreed⟩ :=
      kfree_ok hrep1 (hperm.mem_iff.mpr List.mem_cons_self) (show 2 ^ 21 < f + 2 by omega)
    have hsame : liveBlocks cells2 = liveBlocks cells :=
      liveBlocks_eq_of_perm hrep2.tiles hrep.tiles (hfreed.live.symm.trans hperm).cons_inv
    exact ⟨_, s1, s2, _, hlive.symm, hmalloc, hfree, hfreed.currentBreak, hlist,
      hsame ▸ hrep2.freeListIs_gaps hcoal2⟩

/-- A request on a heap with a live block, and its release. -/
theorem kheap_free_undoes_malloc_one :
    ∃ (c : HeapConfig) (q ptr : Nat) (s1 s2 : KheapState) (live : List Block), c.live = [q] ∧
      live.map Block.dataPtr = [q] ∧ kmalloc plentifulPages (2 ^ 22) 100 c.heap = .ok ptr s1 ∧
      kfree (2 ^ 22) ptr s1 = .ok () s2 ∧
      FreeListIs c.heap (gaps kernelHeapStart live c.heap.currentBreak) ∧
      FreeListIs s2 (gaps kernelHeapStart live s2.currentBreak) := by
  obtain ⟨c, q, hrun, hlive, _⟩ := exists_run_one_live
  obtain ⟨ptr, s1, s2, live, hperm, hmalloc, hfree, _, hbefore, hafter⟩ :=
    kheap_free_undoes_malloc plentifulPages (2 ^ 22) 100 (fun _ => 0) c plentifulPages_available
      (Nat.le_refl _) hrun (by decide)
  exact ⟨c, q, ptr, s1, s2, live, hlive, List.perm_singleton.mp (hlive ▸ hperm), hmalloc, hfree,
    hbefore, hafter⟩

end FarouKernel.Ports.Kheap
