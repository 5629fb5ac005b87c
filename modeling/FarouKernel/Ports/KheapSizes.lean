import FarouKernel.Ports.KheapRuns

/-!
# `kmalloc` over the whole range of request sizes

`kmalloc` rounds the request to 16, adds the header and rounds to a page, and
`kheap_expand` adds the result to the break: four additions modulo `2 ^ 64`,
each followed by a comparison that takes the result for the sum.
`kmalloc_safe_iff` says for which requests the call is safe all the same.  With
the sums read in the natural numbers, these are

* requests a free block can serve, and requests whose expansion ends below
  `2 ^ 64`;
* by accident, the topmost requests on a heap so full that the small expansion
  they wrap to is refused.

Every other request fails in one of four ways: a block too small for it
(`size` above `2 ^ 64 - 16` rounds to zero), a block beyond the break (the
break addition wraps), a failed assertion (the page rounding wraps to zero), or
one expansion after the other (the header addition wraps).
-/

namespace FarouKernel.Ports.Kheap

open Relation Verified ByteMem Ports.Memory

/-- What a safe call of `kmalloc` guarantees about the pointer it returns and
the heap it leaves: the data area lies inside the heap and holds the request,
the break is in range with every page below it mapped, and the heap was
expanded at most once. -/
structure KmallocPost (s : KheapState) (size ptr : Nat) (s' : KheapState) : Prop where
  dataArea : ptr ≠ 0 → size ≤ sizeAt s'.mem (ptr - 32) ∧ kernelHeapStart + 32 ≤ ptr ∧
    ptr + size ≤ s'.currentBreak
  breakGe : kernelHeapStart ≤ s'.currentBreak
  breakLe : s'.currentBreak ≤ s'.maxBreak
  mapped : ∀ a, kernelHeapStart ≤ a → a < s'.currentBreak → a % pageSize = 0 →
    ∃ frame, (a, frame) ∈ s'.mappedPages
  expansions : s'.expansions ≤ s.expansions + 1

/-- The call is safe: whatever the page requests answer, it returns, and its
result meets `KmallocPost`. -/
def KmallocSafe (s : KheapState) (size : Nat) : Prop :=
  ∀ pages, ∃ enough, ∀ fuel, enough ≤ fuel →
    ∃ ptr s', kmalloc pages fuel size s = .ok ptr s' ∧ KmallocPost s size ptr s'

/-- Rounding up to 16 without wrap. -/
def ceilSixteen (n : Nat) : Nat := (n + 15) / 16 * 16

/-- Rounding up to a page without wrap. -/
def ceilPage (n : Nat) : Nat := (n + 4095) / 4096 * 4096

/-- The requests `kmalloc` serves safely. -/
def ServableSize (s : KheapState) (cells : List Cell) (size : Nat) : Prop :=
  size = 0 ∨
    (size ≤ 2 ^ 64 - 16 ∧ ∃ b ∈ freeBlocks cells, ceilSixteen size ≤ b.size) ∨
    s.currentBreak + ceilPage (32 + ceilSixteen size) < 2 ^ 64 ∨
    (2 ^ 64 - 16 < size ∧ freeBlocks cells = [] ∧ s.maxBreak < s.currentBreak + 4096) ∨
    (2 ^ 64 - 32 < size ∧ size ≤ 2 ^ 64 - 16 ∧ s.maxBreak < s.currentBreak + 8192)

/-! ## What the list code leaves alone -/

/-- Only memory and the head of the free list differ. -/
def OnlyListChanged (s s' : KheapState) : Prop := ∃ m p, s' = s.withList m p

instance : Std.Refl OnlyListChanged := ⟨fun s => ⟨s.mem, s.freeList, rfl⟩⟩

instance : IsTrans KheapState OnlyListChanged where
  trans := by
    rintro s _ _ ⟨m, p, rfl⟩ ⟨m', p', rfl⟩
    exact ⟨m', p', rfl⟩

namespace OnlyListChanged

open Exec

theorem setSize (block v : Nat) : Within OnlyListChanged (Kheap.setSize block v) :=
  Within.modify fun _ => ⟨_, _, rfl⟩

theorem setNext (block v : Nat) : Within OnlyListChanged (Kheap.setNext block v) :=
  Within.modify fun _ => ⟨_, _, rfl⟩

theorem setMagic (block v : Nat) : Within OnlyListChanged (Kheap.setMagic block v) :=
  Within.modify fun _ => ⟨_, _, rfl⟩

theorem setFreeList (p : Nat) : Within OnlyListChanged (Kheap.setFreeList p) :=
  Within.modify fun _ => ⟨_, _, rfl⟩

theorem kassert (c : Prop) [Decidable c] (text : String) :
    Within OnlyListChanged (Memory.kassert c text) :=
  Within.require c _

theorem insertLoop (block fuel current : Nat) :
    Within OnlyListChanged (kheapInsertLoop block fuel current) := by
  induction fuel generalizing current with
  | zero => exact Within.exhaust
  | succ fuel ih =>
    exact (Within.gets _).bind fun next => Within.ite (ih next) (Within.pure current)

theorem addToFreeList (fuel block : Nat) :
    Within OnlyListChanged (kheapAddToFreeList fuel block) := by
  refine (setMagic _ _).bind fun _ => (setNext _ _).bind fun _ => (kassert _ _).bind fun _ =>
    (Within.gets _).bind fun freeList => Within.ite ?_ ?_
  · exact (setNext _ _).bind fun _ => setFreeList _
  · exact (insertLoop _ _ _).bind fun _ => (Within.gets _).bind fun _ =>
      (setNext _ _).bind fun _ => setNext _ _

theorem coalesceLoop (fuel current : Nat) :
    Within OnlyListChanged (kheapCoalesceLoop fuel current) := by
  induction fuel generalizing current with
  | zero => exact Within.exhaust
  | succ fuel ih =>
    refine (Within.gets _).bind fun m => Within.ite ?_ (Within.pure ())
    refine (kassert _ _).bind fun _ => (kassert _ _).bind fun _ => Within.ite ?_ (ih _)
    exact (setSize _ _).bind fun _ => (Within.gets _).bind fun _ =>
      (setNext _ _).bind fun _ => ih _

theorem coalesceFreeList (fuel : Nat) : Within OnlyListChanged (kheapCoalesceFreeList fuel) :=
  (Within.gets _).bind fun _ => coalesceLoop fuel _

theorem search (a fuel prev current : Nat) :
    Within OnlyListChanged (kmallocSearch a fuel prev current) := by
  induction fuel generalizing prev current with
  | zero => exact Within.exhaust
  | succ fuel ih =>
    refine Within.ite (Within.pure none) ?_
    exact (Within.gets _).bind fun _ => (kassert _ _).bind fun _ =>
      Within.ite (Within.pure _) (ih _ _)

theorem take (fuel a prev current : Nat) :
    Within OnlyListChanged (kmallocTake fuel a prev current) := by
  refine (Within.gets _).bind fun _ => (Within.ite (setNext _ _) (setFreeList _)).bind fun _ =>
    (Within.gets _).bind fun _ => (Within.ite ?_ (Within.pure ())).bind fun _ =>
    (setMagic _ _).bind fun _ => (kassert _ _).bind fun _ => Within.pure _
  exact (setSize _ _).bind fun _ => (setSize _ _).bind fun _ => addToFreeList _ _

theorem addRegion (fuel total start : Nat) :
    Within OnlyListChanged (kmallocAddRegion fuel total start) :=
  (Within.gets _).bind fun _ => (kassert _ _).bind fun _ => (setSize _ _).bind fun _ =>
    (addToFreeList _ _).bind fun _ => coalesceFreeList _

end OnlyListChanged

/-! ## The number of expansions never falls -/

/-- At least as many expansions, under the same maximal break. -/
def MoreExpanded (s s' : KheapState) : Prop :=
  s.expansions ≤ s'.expansions ∧ s'.maxBreak = s.maxBreak

instance : Std.Refl MoreExpanded := ⟨fun _ => ⟨Nat.le_refl _, rfl⟩⟩

instance : IsTrans KheapState MoreExpanded :=
  ⟨fun _ _ _ h h' => ⟨Nat.le_trans h.1 h'.1, h'.2.trans h.2⟩⟩

theorem OnlyListChanged.moreExpanded (s s' : KheapState) (h : OnlyListChanged s s') :
    MoreExpanded s s' := by
  obtain ⟨m, p, rfl⟩ := h
  exact ⟨Nat.le_refl _, rfl⟩

section Pages

open Exec

variable (pages : Nat → PageResult)

theorem kheapExpandLoop_moreExpanded (newBreak fuel addr : Nat) :
    Within MoreExpanded (kheapExpandLoop pages newBreak fuel addr) := by
  induction fuel generalizing addr with
  | zero => exact Within.exhaust
  | succ fuel ih =>
    refine Within.ite ?_ (Within.pure true)
    refine (Within.gets _).bind fun request => ?_
    refine Within.bind (Within.modify fun s => ?_) fun _ =>
      Within.ite ?_ (Within.ite ?_ ?_)
    · exact ⟨Nat.le_refl s.expansions, rfl⟩
    · exact Within.bind (Within.modify fun s => ⟨Nat.le_refl s.expansions, rfl⟩)
        fun _ => Within.pure false
    · exact Within.bind (Within.modify fun s => ⟨Nat.le_refl s.expansions, rfl⟩)
        fun _ => Within.pure false
    · exact Within.bind (Within.modify fun s => ⟨Nat.le_refl s.expansions, rfl⟩) fun _ => ih _

theorem kheapExpand_moreExpanded (fuel bytes : Nat) :
    Within MoreExpanded (kheapExpand pages fuel bytes) := by
  refine Within.get.bind fun _ => Within.ite (Within.pure false) ?_
  refine (kheapExpandLoop_moreExpanded pages _ _ _).bind fun _ =>
    Within.ite (Within.pure false) ?_
  exact Within.bind (Within.modify fun s => ⟨Nat.le_succ s.expansions, rfl⟩)
    fun _ => Within.pure true

/-- What the list code and the expansions keep to, a whole call keeps to. -/
theorem kmalloc_within {R : KheapState → KheapState → Prop} [Std.Refl R] [IsTrans KheapState R]
    (hlist : ∀ s s', OnlyListChanged s s' → R s s')
    (hexpand : ∀ fuel bytes, Within R (kheapExpand pages fuel bytes)) (fuel size : Nat) :
    Within R (kmalloc pages fuel size) := by
  induction fuel with
  | zero => exact Within.exhaust
  | succ fuel ih =>
    refine Within.ite (Within.pure 0) ?_
    refine (Within.gets _).bind fun _ =>
      ((OnlyListChanged.search _ _ _ _).mono hlist).bind fun found => ?_
    cases found with
    | some blocks => exact (OnlyListChanged.take _ _ _ _).mono hlist
    | none =>
      refine (Within.gets _).bind fun _ =>
        (hexpand _ _).bind fun _ => Within.ite (Within.pure 0) ?_
      exact ((OnlyListChanged.addRegion _ _ _).mono hlist).bind fun _ => ih

theorem kmalloc_moreExpanded (fuel size : Nat) :
    Within MoreExpanded (kmalloc pages fuel size) :=
  kmalloc_within pages OnlyListChanged.moreExpanded (kheapExpand_moreExpanded pages) fuel size

end Pages

/-! ## Requests that are served safely -/

variable {s : KheapState} {cells : List Cell} {size : Nat}

variable {s' : KheapState} {fuel v a : Nat}

/-- Returning `NULL` with a well-formed heap is safe. -/
theorem HeapRep.post_null {s : KheapState} {cells : List Cell} (h : HeapRep s' cells)
    (hcount : s'.expansions ≤ s.expansions + 1) : KmallocPost s size 0 s' where
  dataArea := fun hne => absurd rfl hne
  breakGe := h.tiles.le
  breakLe := h.breakLe
  mapped := h.mapped
  expansions := hcount

/-- Returning the block just taken is safe if it is large enough. -/
theorem Allocated.post {s : KheapState} {cells cells' : List Cell} {ptr : Nat}
    (halloc : Allocated a cells cells' ptr) (h : HeapRep s' cells') (hsize : size ≤ a)
    (hcount : s'.expansions ≤ s.expansions + 1) : KmallocPost s size ptr s' := by
  obtain ⟨b, hptr, hb, hperm⟩ := halloc.live_perm
  have hlive : b ∈ liveBlocks cells' := hperm.mem_iff.mpr List.mem_cons_self
  have hbounds := h.live_bounds hlive
  have hnull : KmallocPost s size 0 s' := h.post_null hcount
  refine { hnull with dataArea := ?_ }
  intro _
  rw [hptr, Nat.add_sub_cancel, (h.live b hlive).1]
  omega

theorem alignedDataSize_of_le (h : size ≤ 2 ^ 64 - 16) :
    alignedDataSize size = ceilSixteen size := by
  rw [alignedDataSize_eq, ceilSixteen]
  omega

theorem le_ceilSixteen (size : Nat) : size ≤ ceilSixteen size := by
  unfold ceilSixteen
  omega

/-- When the expansion ends below `2 ^ 64`, no addition of the call wraps. -/
theorem expansion_unwrapped {brk : Nat} (h : brk + ceilPage (32 + ceilSixteen size) < 2 ^ 64) :
    alignedDataSize size = ceilSixteen size ∧
      totalBlockSizeNeeded size = 32 + ceilSixteen size ∧
      expansionSize size = ceilPage (32 + ceilSixteen size) := by
  have ha : alignedDataSize size = ceilSixteen size := by
    apply alignedDataSize_of_le
    unfold ceilPage ceilSixteen at h
    omega
  have ht : totalBlockSizeNeeded size = 32 + ceilSixteen size := by
    rw [totalBlockSizeNeeded_eq, ha]
    unfold ceilPage at h
    omega
  refine ⟨ha, ht, ?_⟩
  rw [expansionSize_eq, ht]
  unfold ceilPage at h ⊢
  omega

/-- A call that returned `NULL` because a page request failed left the break
over the pages it did get. -/
theorem HeapRep.post_partial {s : KheapState} {cells : List Cell} {k : Nat} (h : HeapRep s cells)
    (hexp : ExpandedTo s s' s.currentBreak (s.currentBreak + 4096 * k))
    (hbreak : s'.currentBreak = s.currentBreak + 4096 * k)
    (hle : s.currentBreak + 4096 * k ≤ s.maxBreak) (hcount : s'.expansions = s.expansions) :
    KmallocPost s size 0 s' := by
  have hge := h.tiles.le
  refine
    { dataArea := fun hne => absurd rfl hne, breakGe := by omega, breakLe := ?_, mapped := ?_
      expansions := by omega }
  · rw [hexp.maxBreak, hbreak]
    exact hle
  · intro a hlo hhi hpage
    rw [hbreak] at hhi
    by_cases hold : a < s.currentBreak
    · obtain ⟨frame, hmem⟩ := h.mapped a hlo hold hpage
      exact ⟨frame, hexp.kept _ hmem⟩
    · exact hexp.added a (by omega) hhi hpage

/-- A request that is served safely at any fuel is safe. -/
theorem kmallocSafe_of_runs
    (h : ∀ pages f, 2 ^ 22 ≤ f → ∃ ptr s', kmalloc pages (f + 2) size s = .ok ptr s' ∧
      KmallocPost s size ptr s') : KmallocSafe s size := by
  intro pages
  refine ⟨2 ^ 22 + 2, fun fuel hfuel => ?_⟩
  obtain ⟨f, rfl⟩ : ∃ f, fuel = f + 2 := ⟨fuel - 2, by omega⟩
  exact h pages f (by omega)

theorem kmallocSafe_zero (h : HeapRep s cells) : KmallocSafe s 0 := by
  refine kmallocSafe_of_runs fun pages f _ => ⟨0, s, ?_, h.post_null (Nat.le_succ _)⟩
  simp [kmalloc]

theorem kmallocSafe_of_fit (h : HeapRep s cells) (hpos : size ≠ 0) (hle : size ≤ 2 ^ 64 - 16)
    (hfit : ∃ b ∈ freeBlocks cells, ceilSixteen size ≤ b.size) : KmallocSafe s size := by
  rw [← alignedDataSize_of_le hle] at hfit
  refine kmallocSafe_of_runs fun pages f hf => ?_
  obtain ⟨ptr, m, p, cells', hrun, hrep, halloc, _⟩ :=
    kmalloc_fit pages h hpos hfit (show 2 ^ 21 < f + 1 by omega)
  refine ⟨ptr, _, hrun, halloc.post hrep ?_ (Nat.le_succ _)⟩
  rw [alignedDataSize_of_le hle]
  exact le_ceilSixteen size

theorem kmallocSafe_of_room (h : HeapRep s cells) (hpos : size ≠ 0)
    (hroom : s.currentBreak + ceilPage (32 + ceilSixteen size) < 2 ^ 64)
    (hnone : ∀ c ∈ freeBlocks cells, c.size < alignedDataSize size) : KmallocSafe s size := by
  obtain ⟨ha, ht, he⟩ := expansion_unwrapped hroom
  have hcover : totalBlockSizeNeeded size ≤ expansionSize size := by
    rw [ht, he]
    unfold ceilPage
    omega
  have hbig : 0 < expansionSize size := by omega
  refine kmallocSafe_of_runs fun pages f hfuel => ?_
  have hf : 2 ^ 21 < f + 1 := by omega
  have hf' : 2 ^ 21 < f := by omega
  by_cases hmax : s.maxBreak < s.currentBreak + expansionSize size
  · rw [← he] at hroom
    exact ⟨0, s, kmalloc_beyond_max pages h hpos hnone hroom hmax hf, h.post_null (Nat.le_succ _)⟩
  rcases kmalloc_grow pages h hpos hnone (Nat.le_of_not_lt hmax) hbig hcover hf with
    ⟨k, s', hk, hrun, hexp, hcount, hbreak, _⟩ | ⟨s', hrep, _, hcount, hretry, _⟩
  · exact ⟨0, s', hrun, h.post_partial hexp hbreak (by omega) hcount⟩
  · obtain ⟨ptr, m, p, cells', hrun, hrep', halloc, _⟩ := kmalloc_fit pages hrep hpos
      (h.exists_fit_after_growth (by omega)) hf'
    refine ⟨ptr, _, hretry.trans hrun, halloc.post hrep' ?_ (Nat.le_of_eq hcount)⟩
    rw [ha]
    exact le_ceilSixteen size

/-- The topmost requests round to zero and ask for one page. -/
theorem sizes_of_top (hlo : 2 ^ 64 - 16 < size) (hhi : size < 2 ^ 64) :
    alignedDataSize size = 0 ∧ totalBlockSizeNeeded size = 32 ∧ expansionSize size = 4096 := by
  rw [expansionSize_eq, totalBlockSizeNeeded_eq, alignedDataSize_eq]
  omega

/-- The requests just below them wrap when the header is added. -/
theorem sizes_of_header_wrap (hlo : 2 ^ 64 - 32 < size) (hhi : size ≤ 2 ^ 64 - 16) :
    alignedDataSize size = 2 ^ 64 - 16 ∧ totalBlockSizeNeeded size = 16 ∧
      expansionSize size = 4096 := by
  rw [expansionSize_eq, totalBlockSizeNeeded_eq, alignedDataSize_eq]
  omega

/-- Below these, one block size makes the header addition wrap to exactly zero. -/
theorem sizes_of_total_zero (hlo : 2 ^ 64 - 48 < size) (hhi : size ≤ 2 ^ 64 - 32) :
    alignedDataSize size = 2 ^ 64 - 32 ∧ totalBlockSizeNeeded size = 0 ∧
      expansionSize size = 0 := by
  rw [expansionSize_eq, totalBlockSizeNeeded_eq, alignedDataSize_eq]
  omega

/-- No free block of a well-formed heap serves a request beyond its maximal
size. -/
theorem HeapRep.none_fits (h : HeapRep s cells) (ha : kernelHeapMaxSize ≤ a) :
    ∀ c ∈ freeBlocks cells, c.size < a := by
  intro c hc
  have hbounds := h.free_bounds hc
  have hle := h.breakLe
  rw [h.maxBreak] at hle
  omega

theorem kmallocSafe_of_top (h : HeapRep s cells) (hlo : 2 ^ 64 - 16 < size) (hhi : size < 2 ^ 64)
    (hempty : freeBlocks cells = []) (hfull : s.maxBreak < s.currentBreak + 4096) :
    KmallocSafe s size := by
  obtain ⟨_, _, he⟩ := sizes_of_top hlo hhi
  exact kmallocSafe_of_runs fun pages f hf =>
    ⟨0, s, kmalloc_beyond_max pages h (by omega) (by simp [hempty])
      (he ▸ h.break_add_lt (by decide)) (by omega) (by omega), h.post_null (Nat.le_succ _)⟩

theorem kmallocSafe_of_header_wrap (h : HeapRep s cells) (hlo : 2 ^ 64 - 32 < size)
    (hhi : size ≤ 2 ^ 64 - 16) (hfull : s.maxBreak < s.currentBreak + 8192) :
    KmallocSafe s size := by
  obtain ⟨ha, ht, he⟩ := sizes_of_header_wrap hlo hhi
  have hbig : kernelHeapMaxSize ≤ alignedDataSize size := by
    rw [ha]
    decide
  have hrefused : ∀ {s' : KheapState} {cells' : List Cell} {f : Nat} (pages : Nat → PageResult),
      HeapRep s' cells' → s'.maxBreak < s'.currentBreak + 4096 → 2 ^ 21 < f →
      kmalloc pages (f + 1) size s' = .ok 0 s' := by
    intro s' cells' f pages h' hmax hf
    exact kmalloc_beyond_max pages h' (by omega) (h'.none_fits hbig)
      (he ▸ h'.break_add_lt (by decide)) (by omega) hf
  refine kmallocSafe_of_runs fun pages f hfuel => ?_
  have hf : 2 ^ 21 < f + 1 := by omega
  have hf' : 2 ^ 21 < f := by omega
  by_cases hmax : s.maxBreak < s.currentBreak + 4096
  · exact ⟨0, s, hrefused pages h hmax hf, h.post_null (Nat.le_succ _)⟩
  rcases kmalloc_grow pages h (by omega) (h.none_fits hbig) (by omega) (by omega) (by omega) hf
    with ⟨k, s', hk, hrun, hexp, hcount, hbreak, _⟩ | ⟨s', hrep, hbreak, hcount, hretry, _⟩
  · exact ⟨0, s', hrun, h.post_partial hexp hbreak (by omega) hcount⟩
  · have hmax' : s'.maxBreak < s'.currentBreak + 4096 := by
      have hsame := hrep.maxBreak.trans h.maxBreak.symm
      omega
    exact ⟨0, s', hretry.trans (hrefused pages hrep hmax' hf'),
      hrep.post_null (Nat.le_of_eq hcount)⟩

/-! ## Requests that are not

The pages are plentiful here: a failing page request would only make the call
return `NULL`. -/

/-- A call that returns nothing acceptable, at any fuel, is not safe. -/
theorem not_kmallocSafe
    (h : ∀ f ptr s', 2 ^ 22 ≤ f → kmalloc plentifulPages (f + 2) size s = .ok ptr s' →
      ¬KmallocPost s size ptr s') : ¬KmallocSafe s size := by
  intro hsafe
  obtain ⟨enough, hall⟩ := hsafe plentifulPages
  obtain ⟨ptr, s', hrun, hpost⟩ := hall (enough + 2 ^ 22 + 2) (by omega)
  exact h (enough + 2 ^ 22) ptr s' (by omega) hrun hpost

/-- A request beyond the heap's maximal size cannot be served from inside the
heap. -/
theorem KmallocPost.ptr_eq_zero {ptr : Nat} {pages : Nat → PageResult}
    (hpost : KmallocPost s size ptr s') (h : HeapRep s cells) (hbig : kernelHeapMaxSize ≤ size)
    (hrun : kmalloc pages fuel size s = .ok ptr s') : ptr = 0 := by
  by_contra hne
  obtain ⟨_, hlo, hhi⟩ := hpost.dataArea hne
  have hle := hpost.breakLe
  rw [(kmalloc_moreExpanded pages fuel size s ptr s' hrun).2, h.maxBreak] at hle
  omega

theorem not_safe_of_top (h : HeapRep s cells) (hlo : 2 ^ 64 - 16 < size) (hhi : size < 2 ^ 64)
    (hroom : freeBlocks cells ≠ [] ∨ s.currentBreak + 4096 ≤ s.maxBreak) :
    ¬KmallocSafe s size := by
  obtain ⟨ha, ht, he⟩ := sizes_of_top hlo hhi
  have hbig : kernelHeapMaxSize ≤ size := by
    have hmax : kernelHeapMaxSize = 2 ^ 26 := rfl
    omega
  apply not_kmallocSafe
  intro f ptr s' hf hrun hpost
  have hzero := hpost.ptr_eq_zero h hbig hrun
  -- a first fit for zero bytes is any free block at all
  have hserved : ∀ {s1 : KheapState} {cells1 : List Cell} {f1 : Nat}, HeapRep s1 cells1 →
      freeBlocks cells1 ≠ [] → 2 ^ 21 < f1 →
      kmalloc plentifulPages (f1 + 1) size s1 = .ok ptr s' → False := by
    intro s1 cells1 f1 h1 hne hf1 hrun1
    obtain ⟨c, hc⟩ := List.exists_mem_of_ne_nil _ hne
    obtain ⟨ptr', m, p, cells', hrun', _, halloc, _⟩ :=
      kmalloc_fit plentifulPages h1 (show size ≠ 0 by omega) ⟨c, hc, by omega⟩ hf1
    rw [hrun1] at hrun'
    obtain ⟨b, hptr, _⟩ := halloc.live_perm
    cases hrun'
    omega
  by_cases hempty : freeBlocks cells = []
  · have hmax : s.currentBreak + 4096 ≤ s.maxBreak := hroom.resolve_left (absurd hempty)
    rcases kmalloc_grow plentifulPages h (show size ≠ 0 by omega) (by simp [hempty]) (by omega)
      (by omega) (by omega) (show 2 ^ 21 < f + 1 by omega) with
      ⟨k, s1, _, _, _, _, _, _, _, hfailed⟩ | ⟨s1, hrep, _, _, hretry, _⟩
    · exact plentifulPages_available.not_failed _ hfailed
    · obtain ⟨c, hc, _⟩ := h.exists_fit_after_growth (show _ ≤ expansionSize size by omega)
      exact hserved hrep (List.ne_nil_of_mem hc) (show 2 ^ 21 < f by omega) (hretry ▸ hrun)
  · exact hserved h hempty (show 2 ^ 21 < f + 1 by omega) hrun

theorem not_safe_of_header_wrap (h : HeapRep s cells) (hlo : 2 ^ 64 - 32 < size)
    (hhi : size ≤ 2 ^ 64 - 16) (hroom : s.currentBreak + 8192 ≤ s.maxBreak) :
    ¬KmallocSafe s size := by
  obtain ⟨ha, ht, he⟩ := sizes_of_header_wrap hlo hhi
  have hbig : kernelHeapMaxSize ≤ alignedDataSize size := by
    rw [ha]
    decide
  -- no block is ever found, so the call expands as long as it can
  have hgrows : ∀ {s1 : KheapState} {cells1 : List Cell} {f1 : Nat}, HeapRep s1 cells1 →
      s1.currentBreak + 4096 ≤ s1.maxBreak → 2 ^ 21 < f1 →
      ∃ s2 cells2, HeapRep s2 cells2 ∧ s2.currentBreak = s1.currentBreak + 4096 ∧
        s2.expansions = s1.expansions + 1 ∧
        kmalloc plentifulPages (f1 + 1) size s1 = kmalloc plentifulPages f1 size s2 := by
    intro s1 cells1 f1 h1 hmax hf1
    rcases kmalloc_grow plentifulPages h1 (show size ≠ 0 by omega) (h1.none_fits hbig)
      (by omega) (by omega) (by omega) hf1 with
      ⟨k, s2, _, _, _, _, _, _, _, hfailed⟩ | ⟨s2, hrep, hbreak, hcount, hretry, _⟩
    · exact absurd hfailed (plentifulPages_available.not_failed _)
    · exact ⟨s2, _, hrep, by omega, hcount, hretry⟩
  apply not_kmallocSafe
  intro f ptr s' hf hrun hpost
  obtain ⟨s1, cells1, h1, hbreak1, hcount1, hretry1⟩ := hgrows h (by omega)
    (show 2 ^ 21 < f + 1 by omega)
  have hmax1 : s1.maxBreak = s.maxBreak := h1.maxBreak.trans h.maxBreak.symm
  obtain ⟨g, rfl⟩ : ∃ g, f = g + 1 := ⟨f - 1, by omega⟩
  obtain ⟨s2, cells2, h2, _, hcount2, hretry2⟩ := hgrows h1 (by omega)
    (show 2 ^ 21 < g + 1 by omega)
  rw [hretry1, hretry2] at hrun
  have hmore := (kmalloc_moreExpanded plentifulPages _ _ _ _ _ hrun).1
  have hlimit := hpost.expansions
  omega

/-! ### When the break addition wraps

The new break is then at or below the old one, the mapping loop maps nothing,
and the region "between" the two becomes a free block beyond the break. -/

theorem kheapExpand_wrapped (pages : Nat → PageResult) {bytes : Nat}
    (hwrap : add64 s.currentBreak (alignUp bytes pageSize) ≤ s.currentBreak)
    (hle : s.currentBreak ≤ s.maxBreak) :
    kheapExpand pages (fuel + 1) bytes s =
      .ok true { s with
        currentBreak := add64 s.currentBreak (alignUp bytes pageSize)
        expansions := s.expansions + 1 } := by
  have hmax : ¬s.maxBreak < add64 s.currentBreak (alignUp bytes pageSize) := by omega
  have hloop : ¬s.currentBreak < add64 s.currentBreak (alignUp bytes pageSize) := by omega
  simp [kheapExpand, kheapExpandLoop, hmax, hloop]

theorem coalesceFrom_addr (b : Block) (l : List Block) :
    ∀ c ∈ coalesceFrom b l, ∃ d ∈ b :: l, d.addr = c.addr := by
  fun_induction coalesceFrom b l with
  | case1 b => exact fun c hc => ⟨c, hc, rfl⟩
  | case2 b e l hmerged ih =>
    intro c hc
    obtain ⟨d, hd, haddr⟩ := ih c hc
    rcases List.mem_cons.mp hd with rfl | hd
    · exact ⟨b, List.mem_cons_self, haddr⟩
    · exact ⟨d, List.mem_cons_of_mem _ (List.mem_cons_of_mem _ hd), haddr⟩
  | case3 b e l hapart ih =>
    intro c hc
    rcases List.mem_cons.mp hc with rfl | hc
    · exact ⟨c, List.mem_cons_self, rfl⟩
    · obtain ⟨d, hd, haddr⟩ := ih c hc
      exact ⟨d, List.mem_cons_of_mem _ hd, haddr⟩

theorem coalesceFrom_length (b : Block) (l : List Block) :
    (coalesceFrom b l).length ≤ l.length + 1 := by
  fun_induction coalesceFrom b l with
  | case1 b => exact Nat.le_refl 1
  | case2 b e l hmerged ih => exact Nat.le_succ_of_le ih
  | case3 b e l hapart ih => exact Nat.succ_le_succ ih

theorem coalesce_addr (l : List Block) : ∀ c ∈ coalesce l, ∃ d ∈ l, d.addr = c.addr := by
  cases l with
  | nil => simp [coalesce]
  | cons b l => exact coalesceFrom_addr b l

theorem coalesce_length (l : List Block) : (coalesce l).length ≤ l.length := by
  cases l with
  | nil => exact Nat.le_refl 0
  | cons b l => exact coalesceFrom_length b l

/-- The first round of a call whose break addition wraps: the free list it
starts over with. -/
theorem kmalloc_wrapped (pages : Nat → PageResult) (h : HeapRep s cells) (hpos : size ≠ 0)
    (hnone : ∀ c ∈ freeBlocks cells, c.size < alignedDataSize size)
    (hwrap : add64 s.currentBreak (expansionSize size) ≤ s.currentBreak)
    (hregion : sub64 (add64 s.currentBreak (expansionSize size)) s.currentBreak =
      expansionSize size) (hcover : totalBlockSizeNeeded size ≤ expansionSize size)
    (hfuel : 2 ^ 22 ≤ fuel) :
    ∃ s', kmalloc pages (fuel + 1) size s = kmalloc pages fuel size s' ∧
      FreeRep s'.mem s'.freeList (coalesce
        (freeBlocks cells ++ [⟨s.currentBreak, sub64 (expansionSize size) 32⟩])) ∧
      s'.currentBreak = add64 s.currentBreak (expansionSize size) ∧
      s'.maxBreak = s.maxBreak ∧ s'.expansions = s.expansions + 1 ∧
      s'.mappedPages = s.mappedPages ∧
      ∀ x, x < s.currentBreak → ¬InFree cells x → s'.mem x = s.mem x := by
  obtain ⟨f, rfl⟩ : ∃ f, fuel = f + 1 := ⟨fuel - 1, by omega⟩
  have hlen := h.freeBlocks_length_le
  let s1 : KheapState :=
    { s with
      currentBreak := add64 s.currentBreak (expansionSize size)
      expansions := s.expansions + 1 }
  have hexpand : kheapExpand pages (f + 1) (totalBlockSizeNeeded size) s = .ok true s1 :=
    kheapExpand_wrapped pages hwrap h.breakLe
  obtain ⟨m2, p2, hadd, hrep2, hout2⟩ := h.add_last
    (show s1.freeList = s.freeList from rfl) (fun _ _ => rfl)
    (sub64_lt (expansionSize size) 32) (show 2 ^ 21 < f + 1 by omega)
  obtain ⟨m3, hcoal, hrep3, hout3⟩ :=
    kheapCoalesceFreeList_run (s1.withList m2 p2) (f + 1) _ hrep2 (by
      rw [List.length_append, List.length_singleton]
      omega)
  have hregionRun : kmallocAddRegion (f + 1) (totalBlockSizeNeeded size) s.currentBreak s1 =
      .ok () (s1.withList m3 p2) := by
    have hadd' : kheapAddToFreeList (f + 1) s.currentBreak
        (s1.withList (write64 s1.mem s.currentBreak
          (sub64 (expansionSize size) kheapHeaderSize)) s1.freeList) =
        .ok () (s1.withList m2 p2) := hadd
    have hs1 : s1.currentBreak = add64 s.currentBreak (expansionSize size) := rfl
    simp [kmallocAddRegion, hs1, hregion, hcover, hadd', hcoal]
  refine ⟨s1.withList m3 p2, ?_, hrep3, rfl, rfl, rfl, rfl, ?_⟩
  · rw [kmalloc_search_none pages h.free hpos hnone (by omega)]
    simp [hexpand, hregionRun]
  · intro x hx hnot
    rw [withList_mem, hout3 x (not_inHeaders_last hx hnot (by omega)), withList_mem,
      hout2 x hx hnot]

/-- What `kmalloc` returns for the block it took. -/
theorem kmallocTake_value {prev current : Nat} (h : kmallocTake fuel a prev current s = .ok v s') :
    v = add64 current 32 := by
  simp only [kmallocTake, Exec.bind_apply, Exec.gets_apply, Outcome.andThen_ok,
    Outcome.andThen_eq_ok_iff, Exec.pure_apply, Outcome.ok.injEq] at h
  obtain ⟨_, _, _, _, _, _, _, _, _, _, _, _, hv, _⟩ := h
  exact hv.symm

/-- A call that finds a block on its free list does not return `NULL`. -/
theorem kmalloc_served_ne_zero (pages : Nat → PageResult) {l : List Block}
    (hrep : FreeRep s.mem s.freeList l) (hpos : size ≠ 0)
    (hfit : ∃ c ∈ l, alignedDataSize size ≤ c.size) (haddr : ∀ c ∈ l, c.addr + 32 < 2 ^ 64)
    (hlen : l.length ≤ fuel) (hrun : kmalloc pages (fuel + 1) size s = .ok v s') : v ≠ 0 := by
  rcases firstFit_cases (alignedDataSize size) l with hnone | ⟨pre, b, post, rfl, hpre, hb⟩
  · obtain ⟨c, hc, hle⟩ := hfit
    have := hnone c hc
    omega
  · have hmem : b ∈ pre ++ b :: post := by simp
    rw [List.length_append, List.length_cons] at hlen
    rw [kmalloc_search_some pages hrep hpos hpre hb (by omega)] at hrun
    rw [kmallocTake_value hrun, add64_of_lt (haddr b hmem)]
    omega

/-- The free list after a wrapped expansion has no header beyond the old break. -/
theorem HeapRep.wrapped_addr_lt (h : HeapRep s cells) :
    ∀ c ∈ coalesce (freeBlocks cells ++ [⟨s.currentBreak, v⟩]), c.addr + 32 < 2 ^ 64 := by
  intro c hc
  obtain ⟨d, hd, haddr⟩ := coalesce_addr _ c hc
  have hroom := h.break_add_lt (n := 32) (by decide)
  rcases List.mem_append.mp hd with hd | hd
  · have hbounds := h.free_bounds hd
    omega
  · rw [List.mem_singleton] at hd
    rw [← haddr, hd]
    exact hroom

theorem kheapExpandLoop_plentiful {newBreak addr : Nat} {b : Bool}
    (h : kheapExpandLoop plentifulPages newBreak fuel addr s = .ok b s') : b = true := by
  induction fuel generalizing addr s with
  | zero => simp [kheapExpandLoop] at h
  | succ fuel ih =>
    by_cases hmore : addr < newBreak
    · simp [kheapExpandLoop, hmore, plentifulPages] at h
      exact ih h
    · simp [kheapExpandLoop, hmore] at h
      exact h.1

/-- With plentiful pages an expansion is refused only by the limit. -/
theorem kheapExpand_plentiful {bytes : Nat} {b : Bool}
    (h : kheapExpand plentifulPages fuel bytes s = .ok b s') :
    (b = false ∧ s' = s ∧ s.maxBreak < add64 s.currentBreak (alignUp bytes pageSize)) ∨
      (b = true ∧ s.expansions + 1 ≤ s'.expansions) := by
  by_cases hmax : s.maxBreak < add64 s.currentBreak (alignUp bytes pageSize)
  · left
    simp [kheapExpand, hmax] at h
    exact ⟨h.1, h.2.symm, hmax⟩
  · right
    simp only [kheapExpand, Exec.bind_apply, Exec.get_apply, Outcome.andThen_ok, Exec.ite_run,
      gt_iff_lt, if_neg hmax, Outcome.andThen_eq_ok_iff] at h
    obtain ⟨mapped, s1, hloop, hrest⟩ := h
    have hmapped := kheapExpandLoop_plentiful hloop
    have hcount := (kheapExpandLoop_moreExpanded _ _ _ _ _ _ _ hloop).1
    simp [hmapped] at hrest
    obtain ⟨hb, rfl⟩ := hrest
    exact ⟨hb, Nat.succ_le_succ hcount⟩

theorem not_safe_of_wrapped (h : HeapRep s cells) (hbig : kernelHeapMaxSize < size)
    (hnone : ∀ c ∈ freeBlocks cells, c.size < alignedDataSize size)
    (hwrap : add64 s.currentBreak (expansionSize size) ≤ s.currentBreak)
    (hregion : sub64 (add64 s.currentBreak (expansionSize size)) s.currentBreak =
      expansionSize size)
    (hcover : totalBlockSizeNeeded size ≤ expansionSize size)
    (hagain : kernelHeapStart ≤ add64 s.currentBreak (expansionSize size) →
      add64 (add64 s.currentBreak (expansionSize size)) (expansionSize size) ≤ s.maxBreak) :
    ¬KmallocSafe s size := by
  have hpos : size ≠ 0 := by omega
  apply not_kmallocSafe
  intro f ptr s' hf hrun hpost
  have hzero := hpost.ptr_eq_zero h (Nat.le_of_lt hbig) hrun
  obtain ⟨s1, hretry, hrep1, hbreak1, hmax1, hcount1, _⟩ :=
    kmalloc_wrapped plentifulPages h hpos hnone hwrap hregion hcover (show 2 ^ 22 ≤ f + 1 by omega)
  rw [hretry] at hrun
  have hlen := h.freeBlocks_length_le
  have hlen1 := coalesce_length
    (freeBlocks cells ++ [⟨s.currentBreak, sub64 (expansionSize size) 32⟩])
  rw [List.length_append, List.length_singleton] at hlen1
  rcases firstFit_cases (alignedDataSize size) (coalesce
    (freeBlocks cells ++ [⟨s.currentBreak, sub64 (expansionSize size) 32⟩])) with
    hnone1 | ⟨pre, b, post, hsplit, _, hfit⟩
  · -- nothing fits yet: a second expansion, or a refusal with the break below the heap
    rw [kmalloc_search_none plentifulPages hrep1 hpos hnone1 (by omega),
      Outcome.andThen_eq_ok_iff] at hrun
    obtain ⟨expanded, s2, hexpand, hrest⟩ := hrun
    rcases kheapExpand_plentiful hexpand with ⟨hb, hsame, hrefused⟩ | ⟨hb, hcount2⟩
    · simp [hb] at hrest
      have hge := hpost.breakGe
      rw [← hrest.2, hsame, hbreak1] at hge
      rw [← expansionSize, hbreak1, hmax1] at hrefused
      have := hagain hge
      omega
    · simp only [hb, Bool.true_eq_false, if_false, Exec.bind_apply,
        Outcome.andThen_eq_ok_iff] at hrest
      obtain ⟨_, s3, hregionRun, hlast⟩ := hrest
      have hcount3 := ((OnlyListChanged.addRegion _ _ _ _ _ _ hregionRun).moreExpanded).1
      have hcount4 := (kmalloc_moreExpanded _ _ _ _ _ _ hlast).1
      have hlimit := hpost.expansions
      omega
  · -- the block beyond the break is handed out
    have hserved : ∃ c ∈ coalesce
        (freeBlocks cells ++ [⟨s.currentBreak, sub64 (expansionSize size) 32⟩]),
        alignedDataSize size ≤ c.size := ⟨b, by rw [hsplit]; simp, hfit⟩
    exact kmalloc_served_ne_zero plentifulPages hrep1 hpos hserved h.wrapped_addr_lt (by omega)
      hrun hzero

/-- When the page rounding wraps to zero, the region is empty and the assertion
that it covers the request fails. -/
theorem kmalloc_ne_ok_of_assert (pages : Nat → PageResult) (h : HeapRep s cells) (hpos : size ≠ 0)
    (hnone : ∀ c ∈ freeBlocks cells, c.size < alignedDataSize size) (hzero : expansionSize size = 0)
    (hneed : 0 < totalBlockSizeNeeded size) (hfuel : 2 ^ 22 ≤ fuel) :
    kmalloc pages (fuel + 2) size s ≠ .ok v s' := by
  have hadd : add64 s.currentBreak (expansionSize size) = s.currentBreak := by
    rw [hzero, add64_of_lt (by have := h.break_lt; omega), Nat.add_zero]
  have hregion : sub64 s.currentBreak s.currentBreak = 0 := by
    rw [sub64_of_le (Nat.le_refl _) h.break_lt, Nat.sub_self]
  have hlen := h.freeBlocks_length_le
  intro hrun
  rw [kmalloc_search_none pages h.free hpos hnone (by omega),
    kheapExpand_wrapped pages (show _ ≤ _ from Nat.le_of_eq hadd) h.breakLe,
    ← expansionSize, hadd] at hrun
  have hfails : ¬totalBlockSizeNeeded size ≤ 0 := by omega
  simp [kmallocAddRegion, hregion, hfails] at hrun

theorem not_safe_of_assert (h : HeapRep s cells) (hpos : size ≠ 0)
    (hnone : ∀ c ∈ freeBlocks cells, c.size < alignedDataSize size)
    (hzero : expansionSize size = 0) (hneed : 0 < totalBlockSizeNeeded size) :
    ¬KmallocSafe s size := by
  apply not_kmallocSafe
  intro f ptr s' hf hrun _
  exact kmalloc_ne_ok_of_assert plentifulPages h hpos hnone hzero hneed hf hrun

/-- A request below `2 ^ 64 - 47` that no free block serves and whose expansion
does not end below `2 ^ 64`. -/
theorem not_safe_of_break_wrap (h : HeapRep s cells) (hhi : size ≤ 2 ^ 64 - 48)
    (hnone : ∀ c ∈ freeBlocks cells, c.size < alignedDataSize size)
    (hover : ¬s.currentBreak + ceilPage (32 + ceilSixteen size) < 2 ^ 64) :
    ¬KmallocSafe s size := by
  have hle := h.breakLe
  have hge := h.tiles.le
  have hlt := h.break_lt
  rw [h.maxBreak] at hle
  have hstart : kernelHeapStart = 0xFFFF800040000000 := rfl
  have hmax : kernelHeapMaxSize = 2 ^ 26 := rfl
  have ha : alignedDataSize size = ceilSixteen size := alignedDataSize_of_le (by omega)
  have haligned : ceilSixteen size ≤ size + 15 ∧ ceilSixteen size % 16 = 0 := by
    unfold ceilSixteen
    omega
  have ht : totalBlockSizeNeeded size = 32 + ceilSixteen size := by
    rw [totalBlockSizeNeeded_eq, ha]
    omega
  have hbig : 2 ^ 46 < size := by
    unfold ceilPage at hover
    omega
  by_cases hpage : totalBlockSizeNeeded size ≤ 2 ^ 64 - 4096
  · have he : expansionSize size = ceilPage (32 + ceilSixteen size) := by
      rw [expansionSize_eq, ht]
      unfold ceilPage
      omega
    have hcover : totalBlockSizeNeeded size ≤ expansionSize size ∧
        expansionSize size ≤ 2 ^ 64 - 4096 := by
      rw [he, ht]
      unfold ceilPage
      omega
    have hnew : add64 s.currentBreak (expansionSize size) =
        s.currentBreak + expansionSize size - 2 ^ 64 := by
      unfold add64
      omega
    apply not_safe_of_wrapped h (by omega) hnone (by omega) ?_ hcover.1 ?_
    · rw [hnew]
      unfold sub64
      omega
    · intro hagain
      rw [hnew] at hagain ⊢
      rw [h.maxBreak]
      unfold add64
      omega
  · have he : expansionSize size = 0 := by
      rw [expansionSize_eq, ht]
      omega
    exact not_safe_of_assert h (by omega) hnone he (by omega)

/-- A request whose header addition wraps to exactly zero. -/
theorem not_safe_of_total_zero (h : HeapRep s cells) (hlo : 2 ^ 64 - 48 < size)
    (hhi : size ≤ 2 ^ 64 - 32) : ¬KmallocSafe s size := by
  have hmax : kernelHeapMaxSize = 2 ^ 26 := rfl
  obtain ⟨ha, ht, he⟩ := sizes_of_total_zero hlo hhi
  have hbig : kernelHeapMaxSize < size := by omega
  have hnone := h.none_fits (show kernelHeapMaxSize ≤ alignedDataSize size by omega)
  have hadd : add64 s.currentBreak 0 = s.currentBreak := by
    rw [add64_of_lt h.break_lt, Nat.add_zero]
  have hsub : sub64 s.currentBreak s.currentBreak = 0 := by
    rw [sub64_of_le (Nat.le_refl _) h.break_lt, Nat.sub_self]
  apply not_safe_of_wrapped h hbig hnone
  · rw [he, hadd]
  · rw [he, hadd, hsub]
  · rw [ht]
    exact Nat.zero_le _
  · intro _
    rw [he, hadd, hadd]
    exact h.breakLe

/-! ### The four ranges of the request -/

theorem servableSize_top (hlo : 2 ^ 64 - 16 < size) :
    ServableSize s cells size ↔
      freeBlocks cells = [] ∧ s.maxBreak < s.currentBreak + 4096 := by
  constructor
  · intro hcase
    rcases hcase with hserv | ⟨hserv, _⟩ | hserv | ⟨_, hserv⟩ | ⟨_, hserv, _⟩
    · omega
    · omega
    · unfold ceilPage ceilSixteen at hserv
      omega
    · exact hserv
    · omega
  · intro hserv
    exact Or.inr (Or.inr (Or.inr (Or.inl ⟨hlo, hserv⟩)))

theorem servableSize_wrap (h : HeapRep s cells) (hlo : 2 ^ 64 - 48 < size)
    (hhi : size ≤ 2 ^ 64 - 16) :
    ServableSize s cells size ↔ 2 ^ 64 - 32 < size ∧ s.maxBreak < s.currentBreak + 8192 := by
  constructor
  · intro hcase
    rcases hcase with hserv | ⟨_, b, hb, hserv⟩ | hserv | ⟨hserv, _⟩ | ⟨hwrap, _, hserv⟩
    · omega
    · have hsmall := h.none_fits (Nat.le_refl kernelHeapMaxSize) b hb
      have hmax : kernelHeapMaxSize = 2 ^ 26 := rfl
      have := le_ceilSixteen size
      omega
    · unfold ceilPage ceilSixteen at hserv
      omega
    · omega
    · exact ⟨hwrap, hserv⟩
  · intro hserv
    exact Or.inr (Or.inr (Or.inr (Or.inr ⟨hserv.1, hhi, hserv.2⟩)))

theorem servableSize_low (hpos : size ≠ 0) (hhi : size ≤ 2 ^ 64 - 48) :
    ServableSize s cells size ↔
      (∃ b ∈ freeBlocks cells, ceilSixteen size ≤ b.size) ∨
        s.currentBreak + ceilPage (32 + ceilSixteen size) < 2 ^ 64 := by
  constructor
  · intro hcase
    rcases hcase with hserv | ⟨_, hserv⟩ | hserv | ⟨hserv, _⟩ | ⟨hserv, _⟩
    · exact absurd hserv hpos
    · exact Or.inl hserv
    · exact Or.inr hserv
    · omega
    · omega
  · intro hcase
    rcases hcase with hserv | hserv
    · exact Or.inr (Or.inl ⟨by omega, hserv⟩)
    · exact Or.inr (Or.inr (Or.inl hserv))

theorem kmallocSafe_low_iff (h : HeapRep s cells) (hpos : size ≠ 0) (hhi : size ≤ 2 ^ 64 - 48) :
    KmallocSafe s size ↔
      (∃ b ∈ freeBlocks cells, ceilSixteen size ≤ b.size) ∨
        s.currentBreak + ceilPage (32 + ceilSixteen size) < 2 ^ 64 := by
  have hle : size ≤ 2 ^ 64 - 16 := by omega
  by_cases hfit : ∃ b ∈ freeBlocks cells, ceilSixteen size ≤ b.size
  · exact ⟨fun _ => Or.inl hfit, fun _ => kmallocSafe_of_fit h hpos hle hfit⟩
  have hnone : ∀ c ∈ freeBlocks cells, c.size < alignedDataSize size := by
    intro c hc
    rw [alignedDataSize_of_le hle]
    by_contra hge
    exact hfit ⟨c, hc, by omega⟩
  by_cases hroom : s.currentBreak + ceilPage (32 + ceilSixteen size) < 2 ^ 64
  · exact ⟨fun _ => Or.inr hroom, fun _ => kmallocSafe_of_room h hpos hroom hnone⟩
  · constructor
    · intro hsafe
      exact absurd hsafe (not_safe_of_break_wrap h hhi hnone hroom)
    · intro hcase
      rcases hcase with hserv | hserv
      · exact absurd hserv hfit
      · exact absurd hserv hroom

theorem kmallocSafe_top_iff (h : HeapRep s cells) (hlo : 2 ^ 64 - 16 < size)
    (hhi : size < 2 ^ 64) :
    KmallocSafe s size ↔ freeBlocks cells = [] ∧ s.maxBreak < s.currentBreak + 4096 := by
  constructor
  · intro hsafe
    by_contra hroom
    refine not_safe_of_top h hlo hhi ?_ hsafe
    by_cases hempty : freeBlocks cells = []
    · right
      by_contra hlt
      exact hroom ⟨hempty, by omega⟩
    · exact Or.inl hempty
  · intro hserv
    exact kmallocSafe_of_top h hlo hhi hserv.1 hserv.2

/-- **The request sizes `kmalloc` handles safely**, on every well-formed heap. -/
theorem kmalloc_safe_iff (s : KheapState) (cells : List Cell) (size : Nat)
    (h : HeapRep s cells) (hsize : size < 2 ^ 64) :
    KmallocSafe s size ↔ ServableSize s cells size := by
  by_cases hpos : size = 0
  · subst hpos
    exact ⟨fun _ => Or.inl rfl, fun _ => kmallocSafe_zero h⟩
  by_cases htop : 2 ^ 64 - 16 < size
  · rw [servableSize_top htop, kmallocSafe_top_iff h htop hsize]
  have hhi : size ≤ 2 ^ 64 - 16 := Nat.le_of_not_lt htop
  by_cases hwrap : 2 ^ 64 - 32 < size
  · rw [servableSize_wrap h (by omega) hhi, and_iff_right hwrap]
    constructor
    · intro hsafe
      by_contra hfull
      exact not_safe_of_header_wrap h hwrap hhi (by omega) hsafe
    · exact kmallocSafe_of_header_wrap h hwrap hhi
  by_cases hzero : 2 ^ 64 - 48 < size
  · rw [servableSize_wrap h hzero hhi]
    exact iff_of_false (not_safe_of_total_zero h hzero (by omega)) fun hserv => hwrap hserv.1
  · rw [servableSize_low hpos (by omega), kmallocSafe_low_iff h hpos (by omega)]

/-- The heap `memory_init` leaves grows by one page for a small request, and the page is
then its only block. -/
theorem kmalloc_start_grows {f : Nat} (mem : ByteMem) (hf : 2 ^ 21 < f) (hpos : size ≠ 0)
    (ht : totalBlockSizeNeeded size ≤ 4096) (he : expansionSize size = 4096) :
    ∃ s1, HeapRep s1 [⟨⟨kernelHeapStart, 4064⟩, true⟩] ∧
      kmalloc plentifulPages (f + 1) size (kheapInit mem) = kmalloc plentifulPages f size s1 := by
  have hroom : (kheapInit mem).currentBreak + expansionSize size ≤ (kheapInit mem).maxBreak := by
    rw [he]
    show kernelHeapStart + 4096 ≤ kernelHeapStart + kernelHeapMaxSize
    decide
  rcases kmalloc_grow plentifulPages (heapRep_init mem) hpos (by simp) hroom (by omega) (by omega)
    hf with ⟨k, s1, _, _, _, _, _, _, _, hfailed⟩ | ⟨s1, hrep, _, _, hretry, _⟩
  · exact absurd hfailed (plentifulPages_available.not_failed _)
  · have hcells : coalesceCells ([] ++ [⟨⟨(kheapInit mem).currentBreak,
        expansionSize size - 32⟩, true⟩]) = [⟨⟨kernelHeapStart, 4064⟩, true⟩] := by
      rw [he]
      rfl
    rw [hcells] at hrep
    exact ⟨s1, hrep, hretry⟩

/-- A heap with one free block of 4064 bytes serves 4000 bytes. -/
theorem kmalloc_safe_iff_page :
    ∃ s, HeapRep s [⟨⟨kernelHeapStart, 4064⟩, true⟩] ∧ KmallocSafe s 4000 := by
  obtain ⟨s, hrep, _⟩ := kmalloc_start_grows (fun _ => 0) (Nat.lt_succ_self _)
    (show 16 ≠ 0 by decide) (by decide) (by decide)
  refine ⟨s, hrep, (kmalloc_safe_iff s _ 4000 hrep (by decide)).mpr ?_⟩
  refine Or.inr (Or.inl ⟨by decide, ?_⟩)
  exact ⟨⟨kernelHeapStart, 4064⟩, List.mem_singleton_self _, by decide⟩

/-- A topmost request on the heap `memory_init` leaves gets the first bytes of
a new page, as a block of no data bytes at all. -/
theorem kmalloc_top_start {f : Nat} (mem : ByteMem) (hf : 2 ^ 21 < f) (hlo : 2 ^ 64 - 16 < size)
    (hhi : size < 2 ^ 64) :
    ∃ s', kmalloc plentifulPages (f + 2) size (kheapInit mem) =
        .ok (kernelHeapStart + 32) s' ∧ sizeAt s'.mem kernelHeapStart = 0 := by
  obtain ⟨ha, ht, he⟩ := sizes_of_top hlo hhi
  have hpos : size ≠ 0 := by omega
  obtain ⟨s1, hrep, hretry⟩ := kmalloc_start_grows mem (Nat.lt_succ_of_lt hf) hpos (by omega) he
  obtain ⟨ptr, m, p, cells', hrun, hrep', ⟨pre, b, post, hsplit, _, _, hcells', hptr⟩, _⟩ :=
    kmalloc_fit plentifulPages hrep hpos ⟨_, List.mem_cons_self, by rw [ha]; exact Nat.zero_le _⟩
      hf
  -- the only block of the heap is the one taken
  have hb : pre = [] ∧ b = ⟨kernelHeapStart, 4064⟩ ∧ post = [] := by
    cases pre with
    | nil =>
      simp only [List.nil_append, List.cons.injEq, Cell.mk.injEq, and_true] at hsplit
      exact ⟨rfl, hsplit.1.symm, hsplit.2.symm⟩
    | cons c pre =>
      simp at hsplit
  obtain ⟨rfl, rfl, rfl⟩ := hb
  refine ⟨s1.withList m p, ?_, ?_⟩
  · rw [hretry, hrun, hptr]
  · have htaken : (⟨kernelHeapStart, 0⟩ : Block) ∈ liveBlocks cells' := by
      rw [hcells', ha]
      simp [takenSize]
    exact (hrep'.live _ htaken).1

/-- On the heap `memory_init` leaves, a request of `2 ^ 64 - 1` bytes is not
refused: the call returns a block whose data area is empty. -/
theorem kmalloc_size_max_start :
    ¬KmallocSafe (kheapInit fun _ => 0) (2 ^ 64 - 1) ∧
      ∃ s', kmalloc plentifulPages (2 ^ 22) (2 ^ 64 - 1) (kheapInit fun _ => 0) =
          .ok (kernelHeapStart + 32) s' ∧ sizeAt s'.mem kernelHeapStart = 0 := by
  have hfuel : 2 ^ 22 - 2 + 2 = 2 ^ 22 := by decide
  refine ⟨not_safe_of_top (heapRep_init _) (by decide) (by decide) (Or.inr (by decide)), ?_⟩
  rw [← hfuel]
  exact kmalloc_top_start _ (by decide) (by decide) (by decide)

end FarouKernel.Ports.Kheap
