import FarouKernel.Ports.KheapTiling

/-!
# The kernel heap, one call at a time

What a call of `kmalloc` or `kfree` does to a well-formed heap.  The statements
follow the source's own case distinction: `kmalloc` takes the first free block
that fits (`kmalloc_fit`), or asks for pages and then gives up
(`kmalloc_beyond_max`, `kmalloc_grow`) or tries again on the larger heap.

Each statement is about the whole call: it exhibits the result for every fuel
above a fixed bound, so none of them speaks of a call that never returns.
-/

namespace FarouKernel.Ports.Kheap

open Verified ByteMem Ports.Memory

variable (pages : Nat → PageResult)

/-! ## Expansion -/

/-- The pages mapped since `s` lie between `lo` and `hi`. -/
def MappedWithin (s s' : KheapState) (lo hi : Nat) : Prop :=
  ∃ new, s'.mappedPages = new ++ s.mappedPages ∧ ∀ p ∈ new, lo ≤ p.1 ∧ p.1 + 4096 ≤ hi

theorem MappedWithin.refl (s : KheapState) (lo hi : Nat) : MappedWithin s s lo hi :=
  ⟨[], rfl, by simp⟩

variable {s s1 s' : KheapState} {cells : List Cell} {size fuel lo hi addr n : Nat}

theorem MappedWithin.trans {s2 s3 : KheapState} {mid : Nat} (h : MappedWithin s1 s2 lo mid)
    (h' : MappedWithin s2 s3 mid hi) (hlo : lo ≤ mid) (hhi : mid ≤ hi) :
    MappedWithin s1 s3 lo hi := by
  obtain ⟨new, hnew, hin⟩ := h
  obtain ⟨new', hnew', hin'⟩ := h'
  refine ⟨new' ++ new, by rw [hnew', hnew, List.append_assoc], ?_⟩
  intro p hp
  rcases List.mem_append.mp hp with hp | hp
  · have := hin' p hp
    omega
  · have := hin p hp
    omega

/-- `s'` is `s` with the pages from `lo` to `hi` newly mapped. -/
structure ExpandedTo (s s' : KheapState) (lo hi : Nat) : Prop where
  freeList : s'.freeList = s.freeList
  maxBreak : s'.maxBreak = s.maxBreak
  mem : ∀ x, ¬(lo ≤ x ∧ x < hi) → s'.mem x = s.mem x
  kept : ∀ p ∈ s.mappedPages, p ∈ s'.mappedPages
  added : ∀ a, lo ≤ a → a < hi → a % 4096 = 0 → ∃ frame, (a, frame) ∈ s'.mappedPages
  within : MappedWithin s s' lo hi

/-- Nothing was mapped. -/
theorem ExpandedTo.none (hfree : s'.freeList = s.freeList) (hmax : s'.maxBreak = s.maxBreak)
    (hmem : s'.mem = s.mem) (hmapped : s'.mappedPages = s.mappedPages) : ExpandedTo s s' lo lo where
  freeList := hfree
  maxBreak := hmax
  mem := fun x _ => congrFun hmem x
  kept := fun p hp => hmapped ▸ hp
  added := fun a hlo hhi => by omega
  within := ⟨[], hmapped, by simp⟩

/-- A request that `kheap_expand` cannot use. -/
def PageResult.Failed (r : PageResult) : Prop := r.frame = 0 ∨ r.mapOk = false

/-- Of the requests from number `first` on, number `k` is the first that fails. -/
def FirstFailure (pages : Nat → PageResult) (first k : Nat) : Prop :=
  (∀ j < k, ¬(pages (first + j)).Failed) ∧ (pages (first + k)).Failed

theorem not_failed_succ {pages : Nat → PageResult} {first n : Nat} (hok : ¬(pages first).Failed)
    (h : ∀ j < n, ¬(pages (first + 1 + j)).Failed) :
    ∀ j < n + 1, ¬(pages (first + j)).Failed := by
  intro j hj
  cases j with
  | zero => exact hok
  | succ j =>
    rw [show first + (j + 1) = first + 1 + j by omega]
    exact h j (by omega)

/-- After a request that does not fail, the first failure is one further on. -/
theorem FirstFailure.succ {pages : Nat → PageResult} {first k : Nat}
    (hok : ¬(pages first).Failed) (h : FirstFailure pages (first + 1) k) :
    FirstFailure pages first (k + 1) := by
  refine ⟨not_failed_succ hok h.1, ?_⟩
  rw [show first + (k + 1) = first + 1 + k by omega]
  exact h.2

/-- The page at `addr` is mapped by the next request. -/
def KheapState.mapNext (s : KheapState) (addr frame : Nat) : KheapState :=
  { s with
    pageRequests := s.pageRequests + 1
    mem := fill s.mem addr pageSize 0
    mappedPages := (addr, frame) :: s.mappedPages }

/-- One page more is mapped in front. -/
theorem ExpandedTo.mapNext {frame : Nat} (halign : addr % 4096 = 0) (hhi : addr + 4096 ≤ hi)
    (h : ExpandedTo (s.mapNext addr frame) s' (addr + 4096) hi) : ExpandedTo s s' addr hi := by
  have hone : MappedWithin s (s.mapNext addr frame) addr (addr + 4096) :=
    ⟨[(addr, frame)], rfl, by simp⟩
  refine ⟨h.freeList, h.maxBreak, ?_, ?_, ?_, hone.trans h.within (by omega) hhi⟩
  · intro x hx
    rw [h.mem x (by omega)]
    exact fill_apply_of_outside (by simp only [pageSize]; omega)
  · intro p hp
    exact h.kept p (List.mem_cons_of_mem _ hp)
  · intro a hlo ha hpage
    by_cases hfirst : a = addr
    · exact ⟨frame, hfirst ▸ h.kept _ List.mem_cons_self⟩
    · exact h.added a (by omega) ha hpage

/-- A round of the mapping loop whose request fails. -/
theorem kheapExpandLoop_failed {newBreak : Nat} (hmore : addr < newBreak)
    (hfailed : (pages s.pageRequests).Failed) (fuel : Nat) :
    ∃ s', kheapExpandLoop pages newBreak (fuel + 1) addr s = .ok false s' ∧
      ExpandedTo s s' addr addr ∧ s'.expansions = s.expansions ∧ s'.currentBreak = addr ∧
      s'.pageRequests = s.pageRequests + 1 := by
  by_cases hframe : (pages s.pageRequests).frame = 0
  · let s1 : KheapState := { s with pageRequests := s.pageRequests + 1, currentBreak := addr }
    exact ⟨s1, by simp [kheapExpandLoop, hmore, hframe, s1], ExpandedTo.none rfl rfl rfl rfl, rfl,
      rfl, rfl⟩
  · have hmap := hfailed.resolve_left hframe
    let s1 : KheapState :=
      { s with
        pageRequests := s.pageRequests + 1
        returnedFrames := (pages s.pageRequests).frame :: s.returnedFrames
        currentBreak := addr }
    exact ⟨s1, by simp [kheapExpandLoop, hmore, hframe, hmap, s1],
      ExpandedTo.none rfl rfl rfl rfl, rfl, rfl, rfl⟩

/-- A round of the mapping loop that maps a page. -/
theorem kheapExpandLoop_mapped {newBreak : Nat} (hmore : addr < newBreak)
    (hnext : add64 addr pageSize = addr + 4096) (hok : ¬(pages s.pageRequests).Failed)
    (fuel : Nat) :
    kheapExpandLoop pages newBreak (fuel + 1) addr s =
      kheapExpandLoop pages newBreak fuel (addr + 4096)
        (s.mapNext addr (pages s.pageRequests).frame) := by
  rw [PageResult.Failed, not_or] at hok
  simp [kheapExpandLoop, hmore, hok.1, hok.2, hnext, KheapState.mapNext]

/-- The mapping loop either maps all `n` pages, or stops at the first request
that fails, with the break moved to the page it could not map. -/
theorem kheapExpandLoop_run (s : KheapState)
    (fuel n addr newBreak : Nat)
    (hnew : newBreak = addr + 4096 * n) (halign : addr % 4096 = 0) (hlt : newBreak < 2 ^ 64)
    (hfuel : n < fuel) :
    (∃ s', kheapExpandLoop pages newBreak fuel addr s = .ok true s' ∧
        ExpandedTo s s' addr newBreak ∧ s'.expansions = s.expansions ∧
        s'.pageRequests = s.pageRequests + n ∧ ∀ j < n, ¬(pages (s.pageRequests + j)).Failed) ∨
      ∃ k s', k < n ∧ kheapExpandLoop pages newBreak fuel addr s = .ok false s' ∧
        ExpandedTo s s' addr (addr + 4096 * k) ∧ s'.expansions = s.expansions ∧
        s'.currentBreak = addr + 4096 * k ∧ s'.pageRequests = s.pageRequests + k + 1 ∧
        FirstFailure pages s.pageRequests k := by
  induction n generalizing s fuel addr with
  | zero =>
    left
    obtain ⟨fuel, rfl⟩ : ∃ f, fuel = f + 1 := ⟨fuel - 1, by omega⟩
    have hend : newBreak = addr := by omega
    refine ⟨s, ?_, hend ▸ ExpandedTo.none rfl rfl rfl rfl, rfl, rfl, by simp⟩
    simp [kheapExpandLoop, hnew]
  | succ n ih =>
    obtain ⟨fuel, rfl⟩ : ∃ f, fuel = f + 1 := ⟨fuel - 1, by omega⟩
    have hmore : addr < newBreak := by omega
    by_cases hfailed : (pages s.pageRequests).Failed
    · right
      obtain ⟨s', hrun, hexp, hcount, hbreak, hmade⟩ :=
        kheapExpandLoop_failed pages hmore hfailed fuel
      exact ⟨0, s', by omega, hrun, hexp, hcount, hbreak, hmade, by simp, hfailed⟩
    -- the page at `addr` is mapped; the rest of the loop starts one page later
    have hnext : add64 addr pageSize = addr + 4096 :=
      add64_of_lt (by simp only [pageSize]; omega)
    rw [kheapExpandLoop_mapped pages hmore hnext hfailed]
    rcases ih (s.mapNext addr (pages s.pageRequests).frame) fuel (addr + 4096) (by omega)
        (by omega) (by omega) with
      ⟨s', hrun, hexp, hcount, hmade, hok⟩ |
        ⟨k, s', hk, hrun, hexp, hcount, hbreak, hmade, hfirst⟩
    · simp only [KheapState.mapNext] at hmade
      exact Or.inl ⟨s', hrun, hexp.mapNext halign (by omega), hcount, by omega,
        not_failed_succ hfailed hok⟩
    · right
      simp only [KheapState.mapNext] at hmade
      have hend : addr + 4096 * (k + 1) = addr + 4096 + 4096 * k := by omega
      rw [← hend] at hexp
      exact ⟨k + 1, s', by omega, hrun, hexp.mapNext halign (by omega), hcount, by omega,
        by omega, hfirst.succ hfailed⟩

/-- A free block behind the last cell, up to the new break. -/
theorem HeapRep.append (h : HeapRep s cells) (hn : 0 < n)
    (hbreak : s'.currentBreak = s.currentBreak + 4096 * n) (hmax : s'.maxBreak = s.maxBreak)
    (hle : s.currentBreak + 4096 * n ≤ s.maxBreak)
    (hfree : FreeRep s'.mem s'.freeList (freeBlocks cells ++ [⟨s.currentBreak, 4096 * n - 32⟩]))
    (hout : ∀ x, x < s.currentBreak → ¬InFree cells x → s'.mem x = s.mem x)
    (hkept : ∀ p ∈ s.mappedPages, p ∈ s'.mappedPages)
    (hadded : ∀ a, s.currentBreak ≤ a → a < s.currentBreak + 4096 * n → a % 4096 = 0 →
      ∃ frame, (a, frame) ∈ s'.mappedPages) :
    HeapRep s' (cells ++ [⟨⟨s.currentBreak, 4096 * n - 32⟩, true⟩]) := by
  have halign := h.breakAligned
  refine
    { tiles := ?_, free := ?_, live := ?_, sizes := ?_, breakAligned := ?_, breakLe := ?_,
      maxBreak := ?_, mapped := ?_ }
  · refine tiles_append.mpr ⟨s.currentBreak, h.tiles, rfl, ?_⟩
    simp only [Cell.extent, hbreak, tiles_nil]
    omega
  · simpa using hfree
  · have hlive : liveBlocks (cells ++ [⟨⟨s.currentBreak, 4096 * n - 32⟩, true⟩]) =
        liveBlocks cells := by simp
    rw [hlive]
    apply h.live_frame (fun d hd => hd)
    intro d hd x hx hx'
    have hdbelow := (h.live_bounds hd).2
    exact hout x (by omega) (h.live_not_inFree hd hx (by omega))
  · rw [List.forall_mem_append, List.forall_mem_singleton]
    refine ⟨h.sizes, ?_⟩
    show (4096 * n - 32) % 16 = 0
    omega
  · rw [hbreak]
    omega
  · rw [hbreak, hmax]
    exact hle
  · rw [hmax]
    exact h.maxBreak
  · intro a hlo hhi hpage
    rw [hbreak] at hhi
    by_cases hold : a < s.currentBreak
    · obtain ⟨frame, hmapped⟩ := h.mapped a hlo hold hpage
      exact ⟨frame, hkept _ hmapped⟩
    · exact hadded a (by omega) hhi hpage

/-- A block at the break is put on the free list, behind all others. -/
theorem HeapRep.add_last (h : HeapRep s cells) (hlist : s1.freeList = s.freeList)
    (hmem : ∀ x, x < s.currentBreak → s1.mem x = s.mem x) (hsize : size < 2 ^ 64)
    (hfuel : 2 ^ 21 < fuel) :
    ∃ m p, kheapAddToFreeList fuel s.currentBreak
          (s1.withList (write64 s1.mem s.currentBreak size) s1.freeList) =
        .ok () (s1.withList m p) ∧
      FreeRep m p (freeBlocks cells ++ [⟨s.currentBreak, size⟩]) ∧
      ∀ x, x < s.currentBreak → ¬InFree cells x → m x = s.mem x := by
  have hstart : 0 < kernelHeapStart := by decide
  have hle := h.tiles.le
  have halign := h.breakAligned
  have hlen := h.freeBlocks_length_le
  have hbelow : ∀ c ∈ freeBlocks cells, c.addr + 32 ≤ s.currentBreak := by
    intro c hc
    have hbounds := h.free_bounds hc
    omega
  have hmem1 : ∀ x, x < s.currentBreak → write64 s1.mem s.currentBreak size x = s.mem x := by
    intro x hx
    rw [write64_apply_of_outside (Or.inl hx), hmem x hx]
  have hfree : FreeRep (write64 s1.mem s.currentBreak size) s1.freeList
      (freeBlocks cells ++ []) := by
    rw [List.append_nil, hlist]
    apply h.free.frame
    rintro x ⟨c, hc, hlo, hhi⟩
    have hc' := hbelow c hc
    exact hmem1 x (by omega)
  obtain ⟨m, p, hrun, hrep, hframe⟩ :=
    kheapAddToFreeList_run (s1.withList (write64 s1.mem s.currentBreak size) s1.freeList) fuel
      s.currentBreak (freeBlocks cells) [] hfree hbelow (by simp) (by omega) (by omega)
      h.break_lt (by omega)
  have hread : sizeAt (write64 s1.mem s.currentBreak size) s.currentBreak = size :=
    read64_write64_of_lt hsize
  rw [withList_mem, hread] at hrep
  refine ⟨m, p, hrun, hrep, ?_⟩
  intro x hx hnot
  rw [hframe x (by omega), withList_mem, hmem1 x hx]
  rw [List.append_nil]
  exact fun hin => hnot (hin.inFree (by omega))

/-- Below the break the headers of the list with that block are those of the free
blocks. -/
theorem not_inHeaders_last {brk x : Nat} (hx : x < brk) (hnot : ¬InFree cells x) (hhi : hi ≤ 32) :
    ¬InHeaders (freeBlocks cells ++ [⟨brk, size⟩]) lo hi x := by
  rintro ⟨c, hc, hlo, hlt⟩
  rcases List.mem_append.mp hc with hc | hc
  · exact hnot ⟨c, hc, by omega, by omega⟩
  · rw [List.mem_singleton] at hc
    subst hc
    simp only at hlo
    omega

/-- The heap after the newly mapped pages have been put on the free list as
one block. -/
theorem HeapRep.extend_run (h : HeapRep s cells)
    (hexp : ExpandedTo s s1 s.currentBreak (s.currentBreak + 4096 * n))
    (hbreak : s1.currentBreak = s.currentBreak + 4096 * n) (hn : 0 < n)
    (hmax : s.currentBreak + 4096 * n ≤ s.maxBreak) (hfuel : 2 ^ 21 < fuel) :
    ∃ m p, kheapAddToFreeList fuel s.currentBreak
          (s1.withList (write64 s1.mem s.currentBreak (4096 * n - 32)) s1.freeList) =
        .ok () (s1.withList m p) ∧
      HeapRep (s1.withList m p)
        (cells ++ [⟨⟨s.currentBreak, 4096 * n - 32⟩, true⟩]) ∧
      ∀ x, x < s.currentBreak → ¬InFree cells x → m x = s.mem x := by
  have hend := kernelHeapEnd_lt
  have hmaxBreak := h.maxBreak
  obtain ⟨m, p, hrun, hrep, hout⟩ := h.add_last hexp.freeList
    (fun x hx => hexp.mem x (by omega)) (show 4096 * n - 32 < 2 ^ 64 by omega) hfuel
  refine ⟨m, p, hrun, ?_, hout⟩
  exact h.append hn hbreak hexp.maxBreak hmax hrep hout hexp.kept hexp.added

/-! ## `kmalloc` -/

/-- The size `kmalloc` searches for: the request rounded to 16, with the wrap. -/
def alignedDataSize (size : Nat) : Nat := alignUp size kheapMinAlignment

/-- The bytes `kmalloc` asks `kheap_expand` for, with the wrap. -/
def totalBlockSizeNeeded (size : Nat) : Nat := add64 kheapHeaderSize (alignedDataSize size)

/-- The bytes `kheap_expand` then adds to the break, with the wrap. -/
def expansionSize (size : Nat) : Nat := alignUp (totalBlockSizeNeeded size) pageSize

theorem alignedDataSize_eq (size : Nat) :
    alignedDataSize size = (size + 15) % 2 ^ 64 / 16 * 16 :=
  alignUp_sixteen size

theorem totalBlockSizeNeeded_eq (size : Nat) :
    totalBlockSizeNeeded size = (32 + alignedDataSize size) % 2 ^ 64 := rfl

theorem expansionSize_eq (size : Nat) :
    expansionSize size = (totalBlockSizeNeeded size + 4095) % 2 ^ 64 / 4096 * 4096 :=
  alignUp_page _

theorem alignedDataSize_mod (size : Nat) : alignedDataSize size % 16 = 0 := by
  rw [alignedDataSize_eq]
  omega

/-- The first free block of `a` bytes became the live block whose data begins
at `ptr`. -/
def Allocated (a : Nat) (cells cells' : List Cell) (ptr : Nat) : Prop :=
  ∃ pre b post, cells = pre ++ ⟨b, true⟩ :: post ∧ (∀ c ∈ freeBlocks pre, c.size < a) ∧
    a ≤ b.size ∧ cells' = pre ++ (takeCells a b ++ post) ∧ ptr = b.addr + 32

/-- The first fit of the free list as a place in the tiling. -/
theorem firstFit_cell (a : Nat) (cells : List Cell) (hfit : ∃ c ∈ freeBlocks cells, a ≤ c.size) :
    ∃ pre b post, cells = pre ++ ⟨b, true⟩ :: post ∧ (∀ c ∈ freeBlocks pre, c.size < a) ∧
      a ≤ b.size := by
  obtain ⟨d, hd, hsize⟩ := hfit
  cases hfind : cells.find? fun c => c.free && decide (a ≤ c.size) with
  | none =>
    have hnone := List.find?_eq_none.mp hfind _ (mem_freeBlocks.mp hd)
    simp [hsize] at hnone
  | some c =>
    obtain ⟨hc, pre, post, rfl, hpre⟩ := List.find?_eq_some_iff_append.mp hfind
    rw [Bool.and_eq_true, decide_eq_true_iff] at hc
    refine ⟨pre, c.toBlock, post, by rw [Cell.eq_of_free hc.1], fun e he => ?_, hc.2⟩
    simpa using hpre _ (mem_freeBlocks.mp he)

/-- `kmalloc` when the search finds the block `b`. -/
theorem kmalloc_search_some {pre post : List Block} {b : Block}
    (hrep : FreeRep s.mem s.freeList (pre ++ b :: post)) (hsize : size ≠ 0)
    (hpre : ∀ c ∈ pre, c.size < alignedDataSize size) (hfit : alignedDataSize size ≤ b.size)
    (hfuel : pre.length < fuel) :
    kmalloc pages (fuel + 1) size s =
      kmallocTake fuel (alignedDataSize size) (lastAddr 0 pre) b.addr s := by
  have hsearch := kmallocSearch_some s (alignedDataSize size) fuel 0 s.freeList pre post b hrep
    hpre hfit hfuel
  rw [alignedDataSize] at hsearch
  simp [kmalloc, hsize, hsearch, alignedDataSize]

/-- `kmalloc` up to the expansion, when the search finds nothing. -/
theorem kmalloc_search_none {l : List Block} (hrep : FreeRep s.mem s.freeList l) (hsize : size ≠ 0)
    (hnone : ∀ c ∈ l, c.size < alignedDataSize size) (hfuel : l.length < fuel) :
    kmalloc pages (fuel + 1) size s =
      (kheapExpand pages fuel (totalBlockSizeNeeded size) s).andThen (fun expanded =>
        if expanded = false then pure 0
        else do
          kmallocAddRegion fuel (totalBlockSizeNeeded size) s.currentBreak
          kmalloc pages fuel size) := by
  have hsearch := kmallocSearch_none s (alignedDataSize size) fuel 0 s.freeList l hrep hnone hfuel
  rw [alignedDataSize] at hsearch
  simp [kmalloc, hsize, hsearch, totalBlockSizeNeeded, alignedDataSize]

/-- **`kmalloc` when a free block fits.** -/
theorem kmalloc_fit (h : HeapRep s cells) (hsize : size ≠ 0)
    (hfit : ∃ c ∈ freeBlocks cells, alignedDataSize size ≤ c.size) (hfuel : 2 ^ 21 < fuel) :
    ∃ ptr m p cells', kmalloc pages (fuel + 1) size s = .ok ptr (s.withList m p) ∧
      HeapRep (s.withList m p) cells' ∧ Allocated (alignedDataSize size) cells cells' ptr ∧
      ∀ x, ¬InFree cells x → m x = s.mem x := by
  obtain ⟨pre, b, post, rfl, hpre, hb⟩ := firstFit_cell _ cells hfit
  have hlen := h.freeBlocks_length_le
  have hfree : freeBlocks (pre ++ ⟨b, true⟩ :: post) =
      freeBlocks pre ++ b :: freeBlocks post := by simp
  rw [hfree, List.length_append] at hlen
  obtain ⟨m, p, htake, hrep, hout⟩ := h.take_run (alignedDataSize_mod size) hb hfuel
  refine ⟨b.addr + 32, m, p, _, ?_, hrep, ⟨pre, b, post, rfl, hpre, hb, rfl, rfl⟩, hout⟩
  rw [kmalloc_search_some pages (hfree ▸ h.free) hsize hpre hb (by omega), htake]

/-- **`kmalloc` beyond the heap's maximal size** returns `NULL` and changes
nothing. -/
theorem kmalloc_beyond_max (h : HeapRep s cells) (hsize : size ≠ 0)
    (hnone : ∀ c ∈ freeBlocks cells, c.size < alignedDataSize size)
    (hlt : s.currentBreak + expansionSize size < 2 ^ 64)
    (hmax : s.maxBreak < s.currentBreak + expansionSize size) (hfuel : 2 ^ 21 < fuel) :
    kmalloc pages (fuel + 1) size s = .ok 0 s := by
  have hlen := h.freeBlocks_length_le
  rw [kmalloc_search_none pages h.free hsize hnone (by omega)]
  rw [← add64_of_lt hlt, expansionSize] at hmax
  simp [kheapExpand, hmax]

/-- **`kmalloc` growing the heap.**  Either a page request fails, and the call
returns `NULL` with the break moved over the pages it did get; or the new
space joins the free list and the call starts over on the larger heap. -/
theorem kmalloc_grow (h : HeapRep s cells) (hsize : size ≠ 0)
    (hnone : ∀ c ∈ freeBlocks cells, c.size < alignedDataSize size)
    (hmax : s.currentBreak + expansionSize size ≤ s.maxBreak) (hpos : 0 < expansionSize size)
    (hcover : totalBlockSizeNeeded size ≤ expansionSize size) (hfuel : 2 ^ 21 < fuel) :
    (∃ k s', 4096 * k < expansionSize size ∧ kmalloc pages (fuel + 1) size s = .ok 0 s' ∧
        ExpandedTo s s' s.currentBreak (s.currentBreak + 4096 * k) ∧
        s'.expansions = s.expansions ∧ s'.currentBreak = s.currentBreak + 4096 * k ∧
        s'.pageRequests = s.pageRequests + k + 1 ∧ FirstFailure pages s.pageRequests k) ∨
      ∃ s', HeapRep s' (coalesceCells
          (cells ++ [⟨⟨s.currentBreak, expansionSize size - 32⟩, true⟩])) ∧
        s'.currentBreak = s.currentBreak + expansionSize size ∧
        s'.expansions = s.expansions + 1 ∧
        kmalloc pages (fuel + 1) size s = kmalloc pages fuel size s' ∧
        (∀ x, x < s.currentBreak → ¬InFree cells x → s'.mem x = s.mem x) ∧
        MappedWithin s s' s.currentBreak s'.currentBreak ∧
        s'.pageRequests = s.pageRequests + expansionSize size / 4096 ∧
        ∀ j < expansionSize size / 4096, ¬(pages (s.pageRequests + j)).Failed := by
  obtain ⟨n, hn⟩ : ∃ n, expansionSize size = 4096 * n := by
    refine ⟨(totalBlockSizeNeeded size + 4095) % 2 ^ 64 / 4096, ?_⟩
    rw [expansionSize_eq, Nat.mul_comm]
  rw [hn] at hmax hpos hcover
  have hend := kernelHeapEnd_lt
  have hmaxBreak := h.maxBreak
  have hheapSize : kernelHeapMaxSize = 2 ^ 26 := rfl
  have hle := h.tiles.le
  have halign := h.breakAligned
  have hnew : add64 s.currentBreak (alignUp (totalBlockSizeNeeded size) pageSize) =
      s.currentBreak + 4096 * n := by
    rw [← expansionSize, hn]
    exact add64_of_lt (by omega)
  have hnot : ¬s.maxBreak < s.currentBreak + 4096 * n := by omega
  have hlen := h.freeBlocks_length_le
  rw [kmalloc_search_none pages h.free hsize hnone (by omega), hn]
  rcases kheapExpandLoop_run pages s fuel n s.currentBreak _ rfl halign (by omega)
    (by omega) with
    ⟨s1, hrun, hexp, hcount, hmade, hok⟩ |
      ⟨k, s', hk, hrun, hexp, hcount, hbreak, hmade, hfailed⟩
  · right
    let s2 : KheapState :=
      { s1 with currentBreak := s.currentBreak + 4096 * n, expansions := s1.expansions + 1 }
    have hexp2 : ExpandedTo s s2 s.currentBreak (s.currentBreak + 4096 * n) :=
      ⟨hexp.freeList, hexp.maxBreak, hexp.mem, hexp.kept, hexp.added, hexp.within⟩
    obtain ⟨m, p, hadd, hrep, hout⟩ := h.extend_run hexp2 rfl (by omega) hmax hfuel
    obtain ⟨m', hcoal, hrep', hout'⟩ := hrep.coalesce_run hfuel
    have hregion : sub64 (s.currentBreak + 4096 * n) s.currentBreak = 4096 * n := by
      rw [sub64_of_le (by omega) (by omega)]
      omega
    have hdata : sub64 (4096 * n) kheapHeaderSize = 4096 * n - 32 :=
      sub64_of_le (by simp only [kheapHeaderSize]; omega) (by omega)
    have hcount2 : s2.expansions = s.expansions + 1 := by simp only [s2, hcount]
    have hkept : ∀ x, x < s.currentBreak → ¬InFree cells x → m' x = s.mem x := by
      intro x hx hnot
      rw [hout' x, withList_mem, hout x hx hnot]
      rw [freeBlocks_append, freeBlocks_cons, if_pos rfl, freeBlocks_nil]
      exact not_inHeaders_last hx hnot (by omega)
    rw [Nat.mul_div_cancel_left n (by decide)]
    refine ⟨_, hrep', rfl, hcount2, ?_, hkept, hexp.within, hmade, hok⟩
    have hregionRun : kmallocAddRegion fuel (totalBlockSizeNeeded size) s.currentBreak s2 =
        .ok () ((s2.withList m p).withList m' p) := by
      rw [withList_freeList] at hcoal
      simp [kmallocAddRegion, s2, hregion, hcover, hdata]
      simp [s2] at hadd hcoal
      simp [hadd, hcoal]
    have hexpand : kheapExpand pages fuel (totalBlockSizeNeeded size) s = .ok true s2 := by
      simp [kheapExpand, hnew, hnot, hrun, s2]
    simp [hexpand, hregionRun]
  · left
    refine ⟨k, s', by omega, ?_, hexp, hcount, hbreak, hmade, hfailed⟩
    simp [kheapExpand, hnew, hnot, hrun]

/-! ## Requests within the heap's maximal size

Up to `KERNEL_HEAP_MAX_SIZE` none of the additions wraps, so a call either finds
a block at once, or fails, or finds one after a single expansion. -/

theorem alignedDataSize_bounds (h : size ≤ kernelHeapMaxSize) :
    size ≤ alignedDataSize size ∧ alignedDataSize size ≤ size + 15 := by
  have hmax : kernelHeapMaxSize = 2 ^ 26 := rfl
  rw [alignedDataSize_eq]
  omega

theorem expansionSize_bounds (h : size ≤ kernelHeapMaxSize) :
    alignedDataSize size + 32 ≤ expansionSize size ∧ expansionSize size < 2 ^ 27 ∧
      totalBlockSizeNeeded size = alignedDataSize size + 32 := by
  have hmax : kernelHeapMaxSize = 2 ^ 26 := rfl
  have hbounds := alignedDataSize_bounds h
  rw [expansionSize_eq, totalBlockSizeNeeded_eq]
  omega

theorem HeapRep.break_add_lt (h : HeapRep s cells) (hn : n < 2 ^ 27) :
    s.currentBreak + n < 2 ^ 64 := by
  have hend : kernelHeapStart + kernelHeapMaxSize + 2 ^ 27 < 2 ^ 64 := by decide
  have hbreak := h.breakLe
  rw [h.maxBreak] at hbreak
  omega

/-- The live blocks after an allocation. -/
theorem Allocated.live_perm {a ptr : Nat} {cells' : List Cell} (h : Allocated a cells cells' ptr) :
    ∃ b : Block, ptr = b.addr + 32 ∧ a ≤ b.size ∧
      (liveBlocks cells').Perm (b :: liveBlocks cells) := by
  obtain ⟨pre, b, post, rfl, _, hfit, rfl, rfl⟩ := h
  refine ⟨⟨b.addr, takenSize a b⟩, rfl, le_takenSize hfit, ?_⟩
  simp only [liveBlocks_append, liveBlocks_takeCells, liveBlocks_cons, if_true,
    List.singleton_append]
  exact List.perm_middle

theorem Allocated.coalesced {a ptr : Nat} {cells' : List Cell} (h : Allocated a cells cells' ptr)
    (hcoal : Coalesced cells) : Coalesced cells' := by
  obtain ⟨pre, b, post, rfl, _, _, rfl, _⟩ := h
  exact hcoal.take

/-- The new block is found by the retry. -/
theorem HeapRep.exists_fit_after_growth (h : HeapRep s cells)
    (hcover : alignedDataSize size + 32 ≤ expansionSize size) :
    ∃ c ∈ freeBlocks (coalesceCells
        (cells ++ [⟨⟨s.currentBreak, expansionSize size - 32⟩, true⟩])),
      alignedDataSize size ≤ c.size := by
  have htiles : CellTiles kernelHeapStart
      (cells ++ [⟨⟨s.currentBreak, expansionSize size - 32⟩, true⟩])
      (s.currentBreak + expansionSize size) := by
    refine tiles_append.mpr ⟨s.currentBreak, h.tiles, rfl, ?_⟩
    simp only [Cell.extent, tiles_nil]
    omega
  obtain ⟨c, hc, hwithin⟩ :=
    exists_within_coalesceGo (b := ⟨s.currentBreak, expansionSize size - 32⟩) none _ _ _ htiles
      (by simp [accCells])
  have hle := hwithin.size_le
  simp only at hle
  exact ⟨c, hc, by omega⟩

/-- **`kmalloc` with pages available.**  The call returns; it hands out a new
live block of at least the requested size, or `NULL` with the live blocks as
they were if nothing is requested or the heap cannot grow. -/
theorem kmalloc_ok (h : HeapRep s cells) (hcoal : Coalesced cells) (hpages : ∀ i, ¬(pages i).Failed)
    (hsize : size ≤ kernelHeapMaxSize) (hfuel : 2 ^ 21 < fuel) :
    ∃ ptr s' cells', kmalloc pages (fuel + 2) size s = .ok ptr s' ∧ HeapRep s' cells' ∧
      Coalesced cells' ∧
      (ptr = 0 ∧ liveBlocks cells' = liveBlocks cells ∧
          (size = 0 ∨ s.maxBreak < s.currentBreak + expansionSize size) ∨
        ∃ b : Block, ptr = b.addr + 32 ∧ size ≤ b.size ∧
          (liveBlocks cells').Perm (b :: liveBlocks cells)) ∧
      s'.currentBreak ≤ s.currentBreak + expansionSize size ∧
      ∀ x, x < s.currentBreak → ¬InFree cells x → s'.mem x = s.mem x := by
  have hbounds := alignedDataSize_bounds hsize
  obtain ⟨hcover, hsmall, htotal⟩ := expansionSize_bounds hsize
  by_cases hzero : size = 0
  · exact ⟨0, s, cells, by simp [kmalloc, hzero], h, hcoal, Or.inl ⟨rfl, rfl, Or.inl hzero⟩,
      Nat.le_add_right _ _, fun _ _ _ => rfl⟩
  by_cases hfit : ∃ c ∈ freeBlocks cells, alignedDataSize size ≤ c.size
  · obtain ⟨ptr, m, p, cells', hrun, hrep, halloc, hout⟩ :=
      kmalloc_fit pages h hzero hfit (show 2 ^ 21 < fuel + 1 by omega)
    obtain ⟨b, hptr, hb, hperm⟩ := halloc.live_perm
    exact ⟨ptr, _, cells', hrun, hrep, halloc.coalesced hcoal,
      Or.inr ⟨b, hptr, by omega, hperm⟩, Nat.le_add_right _ _, fun x _ => hout x⟩
  have hnone : ∀ c ∈ freeBlocks cells, c.size < alignedDataSize size := by
    intro c hc
    by_contra hle
    exact hfit ⟨c, hc, by omega⟩
  have hfuel' : 2 ^ 21 < fuel + 1 := Nat.lt_succ_of_lt hfuel
  have hpos : 0 < expansionSize size := by omega
  have hcovers : totalBlockSizeNeeded size ≤ expansionSize size := by omega
  by_cases hmax : s.maxBreak < s.currentBreak + expansionSize size
  · have hnull := kmalloc_beyond_max pages h hzero hnone (h.break_add_lt hsmall) hmax hfuel'
    exact ⟨0, s, cells, hnull, h, hcoal, Or.inl ⟨rfl, rfl, Or.inr hmax⟩, Nat.le_add_right _ _,
      fun _ _ _ => rfl⟩
  rcases kmalloc_grow pages h hzero hnone (Nat.le_of_not_lt hmax) hpos hcovers hfuel' with
    ⟨k, s', _, _, _, _, _, _, _, hfailed⟩ | ⟨s', hrep, hbreak, _, hretry, hkept, _⟩
  · exact absurd hfailed (hpages _)
  · obtain ⟨ptr, m, p, cells', hrun, hrep', halloc, hout⟩ :=
      kmalloc_fit pages hrep hzero (h.exists_fit_after_growth hcover) hfuel
    obtain ⟨b, hptr, hb, hperm⟩ := halloc.live_perm
    refine ⟨ptr, _, cells', hretry.trans hrun, hrep',
      halloc.coalesced (coalesceGo_coalesced none _), Or.inr ⟨b, hptr, by omega, ?_⟩,
      Nat.le_of_eq hbreak, ?_⟩
    · simpa [coalesceCells, liveBlocks_coalesceGo] using hperm
    · have hlive : ∀ d ∈ liveBlocks cells, d ∈ liveBlocks (coalesceCells
          (cells ++ [⟨⟨s.currentBreak, expansionSize size - 32⟩, true⟩])) := by
        intro d hd
        simpa [coalesceCells, liveBlocks_coalesceGo] using hd
      intro x hx hnot
      rw [withList_mem, hout x (h.not_inFree_later hrep hlive hx hnot)]
      exact hkept x hx hnot

/-! ## `kfree` -/

/-- What `kfree` of the live block `b` does: it writes the link and the magic number
of `b` and sizes and links of free blocks, and every block free afterwards is made
of free blocks of before and `b`. -/
structure Freed (b : Block) (s s' : KheapState) (cells cells' : List Cell) : Prop where
  live : (liveBlocks cells).Perm (b :: liveBlocks cells')
  currentBreak : s'.currentBreak = s.currentBreak
  bytes : ∀ x, ¬(b.addr ≤ x ∧ x < b.addr + 24) → ¬InHeaders (freeBlocks cells) 0 16 x →
    s'.mem x = s.mem x
  magic : magicAt s'.mem b.addr = kheapMagic
  absorbed : ∀ d ∈ b :: freeBlocks cells, ∃ c ∈ freeBlocks cells', d.Within c

/-- **`kfree` of a live block.**  The call returns; the block is free, and
merged with its free neighbours. -/
theorem kfree_ok {b : Block} (h : HeapRep s cells) (hb : b ∈ liveBlocks cells)
    (hfuel : 2 ^ 21 < fuel) :
    ∃ s' cells', kfree fuel (b.addr + 32) s = .ok () s' ∧ HeapRep s' cells' ∧
      Coalesced cells' ∧ Freed b s s' cells cells' := by
  have hcell := mem_liveBlocks.mp hb
  have hbounds := h.cell_bounds hcell
  have hlt := h.break_lt
  simp only at hbounds
  have hheader : sub64 (b.addr + 32) kheapHeaderSize = b.addr := by
    rw [sub64_of_le (by simp only [kheapHeaderSize]; omega) (by omega)]
    simp only [kheapHeaderSize]
    omega
  have hmagic := (h.live b hb).2
  obtain ⟨pre, post, rfl⟩ := List.append_of_mem hcell
  obtain ⟨m, p, hadd, hrep, hout⟩ := h.release_run hfuel
  obtain ⟨m', hcoal, hrep', hout'⟩ := hrep.coalesce_run hfuel
  have hfree : ∀ d, d ∈ freeBlocks (pre ++ ⟨b, true⟩ :: post) ↔
      d ∈ b :: freeBlocks (pre ++ ⟨b, false⟩ :: post) := by
    intro d
    simp only [freeBlocks_append, freeBlocks_cons, if_true, Bool.false_eq_true, if_false,
      List.mem_append, List.mem_cons]
    exact or_left_comm
  have hbfree : b ∈ freeBlocks (pre ++ ⟨b, true⟩ :: post) := (hfree b).mpr List.mem_cons_self
  refine ⟨_, _, ?_, hrep', coalesceGo_coalesced none _, ?_, rfl, ?_, ?_, ?_⟩
  · simp [kfree, hheader, hmagic, hadd, hcoal]
  · simp only [coalesceCells, liveBlocks_coalesceGo, liveBlocks_append, liveBlocks_cons,
      if_true, Bool.false_eq_true, if_false]
    exact List.perm_middle
  · intro x hxb hnot
    rw [withList_mem, hout' x, withList_mem, hout x (by omega)]
    · rintro ⟨c, hc, hlo, hhi⟩
      exact hnot ⟨c, hc, by omega, by omega⟩
    · rintro ⟨c, hc, hlo, hhi⟩
      rcases List.mem_cons.mp ((hfree c).mp hc) with rfl | hc
      · omega
      · exact hnot ⟨c, hc, hlo, hhi⟩
  · -- merging writes no magic number
    refine (read64_congr fun x hlo hhi => hout' x ?_).trans (hrep.free.magics b hbfree)
    rintro ⟨c, hc, hclo, hchi⟩
    by_cases hbc : (⟨b, true⟩ : Cell) = ⟨c, true⟩
    · have hsame : b = c := congrArg Cell.toBlock hbc
      subst hsame
      omega
    · have hapart := hrep.tiles.apart (mem_freeBlocks.mp hbfree) (mem_freeBlocks.mp hc) hbc
      simp only [Cell.extent] at hapart
      omega
  · intro d hd
    exact exists_within_coalesceGo none _ _ _ hrep.tiles (mem_freeBlocks.mp ((hfree d).mpr hd))

end FarouKernel.Ports.Kheap
