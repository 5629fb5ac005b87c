import FarouKernel.Ports.BlockRuns
import FarouKernel.Ports.KernelVmmModel
import FarouKernel.Ports.PagingTree

/-!
# The calls of the virtual memory manager

The block allocator as the supply of page tables (`PmmSource`), the invariant
`VmmInv` of the manager and the lemmas that each call keeps it.

`vmm_free_pages` gives back whatever block a page is mapped to, so it keeps the
invariant only if none of these blocks holds a page table.  The rollback of
`vmm_alloc_pages` gives back virtual addresses; these lie behind the last block
of memory, which is why nothing is freed.
-/

namespace FarouKernel.Ports.KernelVmm

open Verified PageTables Ports.Paging Ports.Block

/-! ## The supply of blocks -/

/-- All blocks in use are marked, and memory fits below `KERNEL_VIRTUAL_BASE`. -/
structure PmmSource (s : PmmState) (taken : Nat → Prop) : Prop where
  wf : BlockWf s
  small : s.totalBlocks ≤ 2 ^ 35
  used : ∀ x, taken x → s.isUsed (x / blockSize) = true

variable {x b : Nat}

section Source

variable {s : PmmState} {taken taken' : Nat → Prop}

theorem PmmSource.mono (h : PmmSource s taken) (hsub : ∀ x, taken' x → taken x) :
    PmmSource s taken' :=
  ⟨h.wf, h.small, fun x hx => h.used x (hsub x hx)⟩

theorem PmmSource.marked (h : PmmSource s taken) {used : Bool} {n usedBlocks last : Nat}
    (hused : ∀ x, taken' x → (s.marked used b n usedBlocks last).isUsed (x / blockSize) = true) :
    PmmSource (s.marked used b n usedBlocks last) taken' :=
  ⟨h.wf.marked _ _ _ _ _, h.small, hused⟩

theorem pmmSource_supplies : Supplies pmmAllocBlock PmmSource where
  supply s taken h := by
    rcases h.wf.alloc_cases 1 with hnone | ⟨first, _, hin, hfree, hsome⟩
    · left
      rw [pmmAllocBlock, hnone]
      exact ⟨rfl, h⟩
    · rw [pmmAllocBlock, hsome]
      have hself : InBlocks first 1 first := ⟨Nat.le_refl _, Nat.lt_succ_self _⟩
      have hdiv : first * blockSize / blockSize = first := Nat.mul_div_cancel first (by decide)
      have hused : ∀ x, taken x ∨ x = first * blockSize →
          (s.marked true first 1 (add64 s.usedBlocks 1) (first + 1)).isUsed (x / blockSize) =
            true := by
        intro x hx
        rw [isUsed_marked]
        split
        · rfl
        · rename_i hout
          rcases hx with hx | rfl
          · exact h.used x hx
          · rw [hdiv] at hout
            exact absurd hself hout
      have hsource : PmmSource (s.marked true first 1 (add64 s.usedBlocks 1) (first + 1))
          fun x => taken x ∨ x = first * blockSize := h.marked hused
      by_cases hnull : first * blockSize = 0
      · exact Or.inl ⟨hnull, hsource.mono fun x hx => Or.inl hx⟩
      · refine Or.inr ⟨hnull, Nat.mul_mod_left _ _, ?_, ?_, hsource⟩
        · have hsmall := h.small
          unfold Low blockSize
          omega
        · intro htaken
          have hbit := h.used _ htaken
          rw [hdiv, hfree first hself] at hbit
          cases hbit

/-- A block that is returned was free. -/
theorem alloc_unused (hwf : BlockWf s) (hsome : (pmmAllocBlock s).1 ≠ 0) :
    s.isUsed ((pmmAllocBlock s).1 / blockSize) = false ∧
      (pmmAllocBlock s).1 / blockSize < s.totalBlocks := by
  rcases hwf.alloc_cases 1 with hnone | ⟨first, _, hin, hfree, halloc⟩
  · rw [pmmAllocBlock, hnone] at hsome
    exact absurd rfl hsome
  · have hdiv : first * blockSize / blockSize = first := Nat.mul_div_cancel first (by decide)
    rw [pmmAllocBlock, halloc, hdiv]
    exact ⟨hfree first ⟨Nat.le_refl _, Nat.lt_succ_self _⟩, hin⟩

/-- Nothing is freed behind the last block. -/
theorem pmmFreeBlock_behind (hx : x < 2 ^ 64) (hbehind : s.totalBlocks ≤ x / blockSize) :
    pmmFreeBlock x s = s := by
  have hindex : x / blockSize < 2 ^ 52 := by
    unfold blockSize
    omega
  rw [pmmFreeBlock, pmmFreeBlocks]
  split
  · rfl
  · dsimp only
    rw [add64_of_lt (by omega), if_pos (by omega)]

/-- Giving back a block that nothing in use lies in. -/
theorem PmmSource.free (h : PmmSource s taken) (hx : x < 2 ^ 64)
    (hnot : ∀ y, taken y → y / blockSize ≠ x / blockSize) : PmmSource (pmmFreeBlock x s) taken := by
  by_cases hnull : x = 0
  · rw [pmmFreeBlock, pmmFreeBlocks, if_pos (Or.inl hnull)]
    exact h
  by_cases hin : x / blockSize + 1 ≤ s.totalBlocks
  · rcases h.wf.free_eq hnull (by decide) hin with ⟨last, hfree⟩
    rw [pmmFreeBlock, hfree]
    apply h.marked
    intro y hy
    have hout : ¬InBlocks (x / blockSize) 1 (y / blockSize) := by
      intro hin'
      exact hnot y hy (Nat.le_antisymm (Nat.le_of_lt_succ hin'.2) hin'.1)
    rw [isUsed_marked, if_neg hout]
    exact h.used y hy
  · rw [pmmFreeBlock_behind hx (Nat.le_of_lt_succ (Nat.not_le.mp hin))]
    exact h

end Source

/-! ## The page tables -/

section Tables

variable {taken : Nat → Prop} {st : PagingState PmmState}

section

variable (h : PagingInv PmmSource taken st)

include h

/-- The blocks in use may be taken to be the tables. -/
theorem onlyTables : PagingInv PmmSource st.IsTable st :=
  ⟨h.source.mono h.tables, h.tree, h.low, fun _ hn => hn, h.blank⟩

/-- The blocks in use may be taken to be all that are marked. -/
theorem allMarked : PagingInv PmmSource (fun x => st.pmm.isUsed (x / blockSize) = true) st :=
  ⟨⟨h.source.wf, h.source.small, fun _ hx => hx⟩, h.tree, h.low,
    fun n hn => h.source.used n (h.tables n hn), h.blank⟩

theorem withFreed (hx : x < 2 ^ 64) (hnot : ∀ y, taken y → y / blockSize ≠ x / blockSize) :
    PagingInv PmmSource taken { st with pmm := pmmFreeBlock x st.pmm } :=
  h.withPmm (h.source.free hx hnot) fun _ hy => hy

theorem pagingMapPage_inv (p v flags : Nat) :
    PagingInv PmmSource (pagingMapPage pmmAllocBlock p v flags st).2.IsTable
      (pagingMapPage pmmAllocBlock p v flags st).2 := by
  rcases h.map pmmSource_supplies p v flags rfl with ⟨taken', h', _⟩
  exact onlyTables h'

theorem pagingUnmapPage_inv (v : Nat) :
    PagingInv PmmSource (pagingUnmapPage pmmAllocBlock v st).IsTable
      (pagingUnmapPage pmmAllocBlock v st) :=
  onlyTables (h.unmap v).1

end

theorem unmapRange_inv (virtStart i : Nat) (h : PagingInv PmmSource st.IsTable st) :
    PagingInv PmmSource (unmapRange virtStart i st).IsTable (unmapRange virtStart i st) := by
  induction i generalizing st with
  | zero => exact h
  | succ i ih => exact ih (pagingUnmapPage_inv h _)

theorem mapRangeLoop_inv (physStart virtStart flags left i : Nat)
    (h : PagingInv PmmSource st.IsTable st) :
    PagingInv PmmSource (mapRangeLoop physStart virtStart flags left i st).2.IsTable
      (mapRangeLoop physStart virtStart flags left i st).2 := by
  induction left generalizing st i with
  | zero => exact h
  | succ left ih =>
    rw [mapRangeLoop]
    have hmap := pagingMapPage_inv h (add64 physStart (i * pageSize))
      (add64 virtStart (i * pageSize)) flags
    split
    · exact unmapRange_inv virtStart i hmap
    · exact ih (i + 1) hmap

theorem vmmMapRange_inv (physStart virtStart pages flags : Nat)
    (h : PagingInv PmmSource st.IsTable st) :
    PagingInv PmmSource (vmmMapRange physStart virtStart pages flags st).2.IsTable
      (vmmMapRange physStart virtStart pages flags st).2 := by
  rw [vmmMapRange]
  split
  · exact h
  · exact mapRangeLoop_inv _ _ _ _ _ h

/-- The rollback passes addresses behind the last block, so it frees nothing. -/
theorem rollback_inv (currentVirt i : Nat)
    (hhigh : ∀ k, k < i → 2 ^ 47 ≤ sub64 currentVirt (pageSize * (k + 1)))
    (h : PagingInv PmmSource taken st) :
    PagingInv PmmSource taken (rollback currentVirt i st) := by
  induction i generalizing st with
  | zero => exact h
  | succ i ih =>
    have haddr := hhigh i (Nat.lt_succ_self i)
    have hlt : sub64 currentVirt (pageSize * (i + 1)) < 2 ^ 64 := Nat.mod_lt _ (by decide)
    have hbehind : st.pmm.totalBlocks ≤ sub64 currentVirt (pageSize * (i + 1)) / blockSize := by
      have hsmall := h.source.small
      unfold blockSize
      omega
    rw [rollback, pmmFreeBlock_behind hlt hbehind]
    exact ih (fun k hk => hhigh k (by omega)) (h.unmap _).1

theorem pagingGetPhysicalAddress_lt (v : Nat) :
    pagingGetPhysicalAddress pmmAllocBlock st v < 2 ^ 64 := by
  rw [pagingGetPhysicalAddress]
  split
  · decide
  · apply Nat.or_lt_two_pow <;> exact Nat.lt_of_le_of_lt Nat.and_le_right (by decide)

/-- Giving back a block and unmapping a page changes no other page's address. -/
theorem unmapFreed (h : PagingInv PmmSource taken st) (hx : x < 2 ^ 64)
    (hnot : ∀ y, taken y → y / blockSize ≠ x / blockSize) (v : Nat) :
    PagingInv PmmSource taken
        (pagingUnmapPage pmmAllocBlock v { st with pmm := pmmFreeBlock x st.pmm }) ∧
      ∀ w, w % 4096 = 0 →
        pagingGetPhysicalAddress pmmAllocBlock
            (pagingUnmapPage pmmAllocBlock v { st with pmm := pmmFreeBlock x st.pmm }) w = 0 ∨
          pagingGetPhysicalAddress pmmAllocBlock
              (pagingUnmapPage pmmAllocBlock v { st with pmm := pmmFreeBlock x st.pmm }) w =
            pagingGetPhysicalAddress pmmAllocBlock st w := by
  have hunmap : PagingInv _ taken
      (pagingUnmapPage pmmAllocBlock v { st with pmm := pmmFreeBlock x st.pmm }) ∧ _ :=
    (withFreed h hx hnot).unmap v
  rcases hunmap with ⟨h', hpages⟩
  refine ⟨h', ?_⟩
  intro w hw
  have hentry := hpages (virtPath w) rfl
  by_cases hsame : virtPath w = virtPath v
  · rw [if_pos hsame] at hentry
    exact Or.inl (h'.getPhysicalAddress_absent hw hentry)
  · rw [if_neg hsame] at hentry
    exact Or.inr (h.getPhysicalAddress_congr h' hw hentry)

/-- Freeing pages that are not mapped to tables.  The set `taken` stays that of
the tables at the start, since unmapping makes no new ones. -/
theorem freeLoop_inv (left virt : Nat) (hvirt : virt < 2 ^ 64) (halign : virt % 4096 = 0)
    (h : PagingInv PmmSource taken st)
    (hspares : ∀ i, i < left → ∀ n, taken n →
      pagingGetPhysicalAddress pmmAllocBlock st (add64 virt (i * pageSize)) ≠ 0 →
      n / blockSize ≠
        pagingGetPhysicalAddress pmmAllocBlock st (add64 virt (i * pageSize)) / blockSize) :
    PagingInv PmmSource taken (freeLoop left virt st) := by
  induction left generalizing st virt with
  | zero => exact h
  | succ left ih =>
    have hnext : ∀ i, add64 (add64 virt pageSize) (i * pageSize) =
        add64 virt ((i + 1) * pageSize) := by
      intro i
      unfold add64 pageSize
      omega
    have hstart : add64 virt (0 * pageSize) = virt := by
      unfold add64
      omega
    have hlater : add64 virt pageSize < 2 ^ 64 ∧ add64 virt pageSize % 4096 = 0 := by
      unfold add64 pageSize
      omega
    rw [freeLoop]
    dsimp only
    split
    · rename_i hphys
      have hfirst := hspares 0 (Nat.succ_pos left)
      rw [hstart] at hfirst
      rcases unmapFreed h (pagingGetPhysicalAddress_lt virt)
        (fun y hy => hfirst y hy hphys) virt with ⟨h', haddress⟩
      apply ih _ hlater.1 hlater.2 h'
      intro i hi n hn hne
      have haligned : add64 virt ((i + 1) * pageSize) % 4096 = 0 := by
        unfold add64 pageSize
        omega
      rw [hnext] at hne ⊢
      rcases haddress _ haligned with hzero | hsame
      · exact absurd hzero hne
      · rw [hsame] at hne ⊢
        exact hspares (i + 1) (by omega) n hn hne
    · apply ih _ hlater.1 hlater.2 h
      intro i hi
      rw [hnext]
      exact hspares (i + 1) (by omega)

end Tables

/-! ## Allocating pages -/

/-- `n` pages from `virt` on were mapped to blocks that were not in use, and
nothing else changed. -/
structure PagesAdded (taken : Nat → Prop) (st : PagingState PmmState) (virt n : Nat)
    (blocks : Nat → Nat) (taken' : Nat → Prop) (st' : PagingState PmmState) : Prop where
  inv : PagingInv PmmSource taken' st'
  more : ∀ x, taken x → taken' x
  aligned : ∀ j, j < n → blocks j % 4096 = 0
  low : ∀ j, j < n → blocks j < 2 ^ 47
  free : ∀ j, j < n → ¬taken (blocks j)
  owned : ∀ j, j < n → taken' (blocks j)
  distinct : ∀ j k, j < k → k < n → blocks j ≠ blocks k
  mapped : ∀ j, j < n →
    st'.entryAt (virtPath (virt + j * 4096)) = some (entryFor (blocks j) kernelFlags)
  others : ∀ r, r.length = 4 → (∀ j, j < n → r ≠ virtPath (virt + j * 4096)) →
    st'.entryAt r = st.entryAt r

/-- The blocks of a range with one more page in front. -/
def consBlock (b : Nat) (blocks : Nat → Nat) : Nat → Nat
  | 0 => b
  | j + 1 => blocks j

section Alloc

variable {taken taken' taken1 : Nat → Prop} {st st' st1 : PagingState PmmState} {virt n : Nat}
  {blocks : Nat → Nat}

/-- Pages of the upper half have different paths. -/
theorem virtPath_high_ne {v j : Nat} (hv : kernelVirtualBase ≤ v) (hj : 0 < j)
    (hle : v + j * 4096 < 2 ^ 64) : virtPath v ≠ virtPath (v + j * 4096) := by
  intro heq
  rw [virtPath_eq_iff, SamePage] at heq
  unfold kernelVirtualBase at hv
  omega

theorem PagesAdded.nil (h : PagingInv PmmSource taken st) :
    PagesAdded taken st virt 0 (fun _ => 0) taken st :=
  ⟨h, fun _ hx => hx, fun _ hj => absurd hj (Nat.not_lt_zero _),
    fun _ hj => absurd hj (Nat.not_lt_zero _), fun _ hj => absurd hj (Nat.not_lt_zero _),
    fun _ hj => absurd hj (Nat.not_lt_zero _), fun _ _ _ hk => absurd hk (Nat.not_lt_zero _),
    fun _ hj => absurd hj (Nat.not_lt_zero _), fun _ _ _ => rfl⟩

/-- One page in front of a range. -/
theorem PagesAdded.cons (hvirt : kernelVirtualBase ≤ virt) (hend : virt + (n + 1) * 4096 ≤ 2 ^ 64)
    (halign : b % 4096 = 0) (hlow : b < 2 ^ 47) (hfree : ¬taken b)
    (hmore : ∀ x, taken x ∨ x = b → taken1 x) (hpages : ∀ r, r.length = 4 → st1.entryAt r =
      if r = virtPath virt then some (entryFor b kernelFlags) else st.entryAt r)
    (h : PagesAdded taken1 st1 (virt + 4096) n blocks taken' st') :
    PagesAdded taken st virt (n + 1) (consBlock b blocks) taken' st' := by
  have hshift : ∀ j, virt + (j + 1) * 4096 = virt + 4096 + j * 4096 := by
    intro j
    omega
  have hfirst : virt + 0 * 4096 = virt := by omega
  refine ⟨h.inv, fun x hx => h.more x (hmore x (Or.inl hx)), ?_, ?_, ?_, ?_, ?_, ?_, ?_⟩
  · intro j hj
    cases j with
    | zero => exact halign
    | succ j => exact h.aligned j (by omega)
  · intro j hj
    cases j with
    | zero => exact hlow
    | succ j => exact h.low j (by omega)
  · intro j hj
    cases j with
    | zero => exact hfree
    | succ j => exact fun htaken => h.free j (by omega) (hmore _ (Or.inl htaken))
  · intro j hj
    cases j with
    | zero => exact h.more b (hmore b (Or.inr rfl))
    | succ j => exact h.owned j (by omega)
  · intro j k hjk hk
    cases k with
    | zero => omega
    | succ k =>
      cases j with
      | zero =>
        intro heq
        exact h.free k (by omega) (hmore _ (Or.inr heq.symm))
      | succ j => exact h.distinct j k (by omega) (by omega)
  · intro j hj
    cases j with
    | zero =>
      -- the later pages have other paths
      rw [hfirst, h.others (virtPath virt) rfl, hpages (virtPath virt) rfl, if_pos rfl]
      · rfl
      · intro j hj
        rw [← hshift]
        exact virtPath_high_ne hvirt (Nat.succ_pos j) (by omega)
    | succ j =>
      rw [hshift]
      exact h.mapped j (by omega)
  · intro r hr hne
    have hhead := hne 0 (Nat.succ_pos n)
    rw [hfirst] at hhead
    rw [h.others r hr, hpages r hr, if_neg hhead]
    intro j hj
    rw [← hshift]
    exact hne (j + 1) (by omega)

/-- The exit at which a block that was to be mapped is given back: what was in use
before it was allocated, and the tables, are still in use. -/
theorem withFreed_new (h : PagingInv PmmSource taken st)
    (hunused : st.pmm.isUsed (b / blockSize) = false) (hb : b < 2 ^ 64) (halign : b % 4096 = 0)
    (h1 : PagingInv PmmSource taken1 st1) (hmore : ∀ x, taken x → taken1 x)
    (hfresh : ∀ n, st1.IsTable n → st.IsTable n ∨ n ≠ b) :
    ∃ taken', PagingInv PmmSource taken' { st1 with pmm := pmmFreeBlock b st1.pmm } ∧
      ∀ x, taken x → taken' x := by
  have hkept : PagingInv PmmSource (fun x => taken x ∨ st1.IsTable x) st1 :=
    ⟨h1.source.mono fun x hx => hx.elim (hmore x) (h1.tables x), h1.tree, h1.low,
      fun _ hn => Or.inr hn, h1.blank⟩
  have hused : ∀ y, taken y → y / blockSize ≠ b / blockSize := by
    intro y hy heq
    have hbit := h.source.used y hy
    rw [heq, hunused] at hbit
    cases hbit
  refine ⟨_, withFreed hkept hb ?_, fun _ hx => Or.inl hx⟩
  rintro y (hy | hy) heq
  · exact hused y hy heq
  · have hyalign := h1.tree.aligned y hy
    rcases hfresh y hy with hold | hne
    · exact hused y (h.tables y hold) heq
    · unfold blockSize at heq
      omega

/-- **The loop of `vmm_alloc_pages`** fails, and what was in use is still in use, or
maps its pages to new blocks. -/
theorem allocLoop_cases (left i : Nat) (hvirt : kernelVirtualBase + i * 4096 ≤ virt)
    (hle : virt ≤ 2 ^ 64) (halign : virt % 4096 = 0) (h : PagingInv PmmSource taken st) :
    ((allocLoop left i (virt % 2 ^ 64) st).1 = none ∧
        ∃ taken', PagingInv PmmSource taken' (allocLoop left i (virt % 2 ^ 64) st).2 ∧
          ∀ x, taken x → taken' x) ∨
      virt + left * 4096 ≤ 2 ^ 64 ∧
        (allocLoop left i (virt % 2 ^ 64) st).1 = some ((virt + left * 4096) % 2 ^ 64) ∧
        ∃ blocks taken', PagesAdded taken st virt left blocks taken'
          (allocLoop left i (virt % 2 ^ 64) st).2 := by
  induction left generalizing i virt st taken with
  | zero =>
    right
    refine ⟨by omega, ?_, _, _, PagesAdded.nil h⟩
    rw [Nat.zero_mul, Nat.add_zero]
    rfl
  | succ left ih =>
    rw [allocLoop]
    dsimp only
    rcases pmmSource_supplies.supply st.pmm taken h.source with
      ⟨hnull, hsource⟩ | ⟨hsome, hbalign, hlow, hfree, hsource⟩
    · left
      rw [if_pos hnull]
      refine ⟨rfl, taken, rollback_inv _ _ ?_ (h.withPmm hsource fun _ hx => hx), fun _ hx => hx⟩
      intro k hk
      unfold kernelVirtualBase at hvirt
      unfold sub64 pageSize
      omega
    · have htaken := h.withPmm hsource fun _ hx => Or.inl hx
      have hunused := (alloc_unused h.source.wf hsome).1
      rw [if_neg hsome]
      rcases htaken.map pmmSource_supplies (pmmAllocBlock st.pmm).1 (virt % 2 ^ 64)
        kernelFlags rfl with ⟨taken1, h1, hmore, hfresh, hcase, _⟩
      generalize hblock : (pmmAllocBlock st.pmm).1 = b at *
      generalize hmap : pagingMapPage pmmAllocBlock b (virt % 2 ^ 64) kernelFlags
        { st with pmm := (pmmAllocBlock st.pmm).2 } = r at *
      have hbsmall : b < 2 ^ 47 := by
        unfold Low at hlow
        omega
      by_cases hresult : r.1 = 0
      · left
        rw [if_pos hresult]
        refine ⟨rfl, withFreed_new h hunused (by omega) hbalign h1
          (fun x hx => hmore x (Or.inl hx)) ?_⟩
        intro y hy
        rcases hfresh y hy with hold | hnew
        · exact Or.inl hold
        · exact Or.inr fun hyb => hnew (Or.inr hyb)
      · rw [if_neg hresult]
        rcases hcase with ⟨hnull, _⟩ | ⟨_, hr, hpages⟩
        · exact absurd hnull hresult
        have hlt : virt < 2 ^ 64 := by omega
        have hself : virt % 2 ^ 64 = virt := Nat.mod_eq_of_lt hlt
        have hnext : add64 (virt % 2 ^ 64) pageSize = (virt + 4096) % 2 ^ 64 := by
          rw [hself]
          rfl
        have hshift : virt + 4096 + left * 4096 = virt + (left + 1) * 4096 := by omega
        rw [hnext]
        have hstart : kernelVirtualBase + (i + 1) * 4096 ≤ virt + 4096 := by
          rw [Nat.succ_mul, ← Nat.add_assoc]
          exact Nat.add_le_add_right hvirt 4096
        rcases ih (i + 1) hstart (by omega) (by omega) h1 with
          hfail | ⟨hend, hvalue, blocks, taken', hadded⟩
        · rcases hfail with ⟨hnone, taken', hinv, hmore'⟩
          exact Or.inl ⟨hnone, taken', hinv, fun x hx => hmore' x (hmore x (Or.inl hx))⟩
        · right
          rw [hshift] at hend hvalue
          rw [hself] at hpages
          exact ⟨hend, hvalue, consBlock b blocks, taken', hadded.cons (by omega) hend hbalign
            hbsmall hfree hmore hpages⟩

end Alloc

/-! ## The invariant of the manager -/

/-- The invariant: the tables are a tree of blocks in use, and `next_free_page` is a page
of the upper half, or 0 once all have been handed out. -/
structure VmmInv (st : VmmState) : Prop where
  paging : PagingInv PmmSource st.paging.IsTable st.paging
  next : ∃ virt, kernelVirtualBase ≤ virt ∧ virt ≤ 2 ^ 64 ∧ virt % 4096 = 0 ∧
    st.nextFreePage = virt % 2 ^ 64

/-- No block the call gives back holds a page table. -/
def SparesTables (st : VmmState) (addr count : Nat) : Prop :=
  ∀ i, i < count → ∀ n, st.paging.IsTable n →
    pagingGetPhysicalAddress pmmAllocBlock st.paging (add64 addr (i * pageSize)) ≠ 0 →
    n / blockSize ≠
      pagingGetPhysicalAddress pmmAllocBlock st.paging (add64 addr (i * pageSize)) / blockSize

section Calls

variable {st : VmmState}

theorem isPageAligned_iff (addr : Nat) : isPageAligned addr = true ↔ addr % 4096 = 0 := by
  rw [isPageAligned, decide_eq_true_iff]
  exact iff_of_eq (congrArg (· = 0) (Nat.and_two_pow_sub_one_eq_mod addr 12))

/-- **`vmm_alloc_pages`** returns `NULL`, or the address in `next_free_page` with
that many pages added. -/
theorem VmmInv.alloc_cases (h : VmmInv st) (count : Nat) :
    VmmInv (vmmAllocPages count st).2 ∧
      ((vmmAllocPages count st).1 = 0 ∨
        (vmmAllocPages count st).1 = st.nextFreePage ∧ kernelVirtualBase ≤ st.nextFreePage ∧
          st.nextFreePage % 4096 = 0 ∧ st.nextFreePage + count * 4096 ≤ 2 ^ 64 ∧
          ∃ blocks taken', PagesAdded (fun x => st.paging.pmm.isUsed (x / blockSize) = true)
            st.paging st.nextFreePage count blocks taken' (vmmAllocPages count st).2.paging) := by
  rcases h.next with ⟨virt, hvirt, hle, halign, hnext⟩
  rw [vmmAllocPages]
  by_cases hzero : count = 0
  · rw [if_pos hzero]
    exact ⟨h, Or.inl rfl⟩
  rw [if_neg hzero]
  rcases allocLoop_cases count 0 (by omega) hle halign (allMarked h.paging) with
    ⟨hnone, taken', hinv, _⟩ | ⟨hend, hsome, blocks, taken', hadded⟩
  · rw [← hnext] at hnone hinv
    generalize allocLoop count 0 st.nextFreePage st.paging = r at *
    rcases r with ⟨r, paging⟩
    cases hnone
    exact ⟨⟨onlyTables hinv, virt, hvirt, hle, halign, hnext⟩, Or.inl rfl⟩
  · rw [← hnext] at hsome hadded
    have hself : virt = st.nextFreePage := by omega
    subst hself
    generalize allocLoop count 0 st.nextFreePage st.paging = r at *
    rcases r with ⟨r, paging⟩
    cases hsome
    exact ⟨⟨onlyTables hadded.inv, st.nextFreePage + count * 4096, by omega, hend, by omega, rfl⟩,
      Or.inr ⟨rfl, hvirt, halign, hend, blocks, taken', hadded⟩⟩

theorem VmmInv.map (h : VmmInv st) (phys virt flags : Nat) :
    VmmInv (vmmMapPage phys virt flags st).2 := by
  rw [vmmMapPage]
  split
  · exact h
  · exact ⟨pagingMapPage_inv h.paging phys virt flags, h.next⟩

theorem VmmInv.free (h : VmmInv st) {addr count : Nat} (haddr : addr < 2 ^ 64)
    (hspares : SparesTables st addr count) : VmmInv (vmmFreePages addr count st) := by
  rw [vmmFreePages]
  split
  · exact h
  · rename_i hvalid
    have halign : addr % 4096 = 0 := by
      rw [← isPageAligned_iff]
      simpa using fun hfalse => hvalid (Or.inr (Or.inr hfalse))
    exact ⟨onlyTables (freeLoop_inv count addr haddr halign h.paging hspares), h.next⟩

end Calls

/-! ## Initialisation -/

section Init

variable (mem : ByteMem) {pmm : PmmState}

/-- The block for the top table is that of the first attempt. -/
theorem pmmAllocBlockAligned_pageSize (h : BlockWf pmm) :
    pmmAllocBlockAligned pageSize pmm = pmmAllocBlock pmm := by
  have halign : (pmmAllocBlocks 1 pmm).1 % pageSize = 0 := by
    rcases h.alloc_cases 1 with hnone | ⟨first, _, _, _, hsome⟩
    · rw [hnone]
      rfl
    · rw [hsome]
      exact Nat.mul_mod_left first pageSize
  rw [pmmAllocBlockAligned, allocAlignedLoop]
  exact if_pos halign

/-- **`paging_init`** leaves empty tables, unless there is no block for the top
one. -/
theorem pagingInit_inv (hwf : BlockWf pmm) (hsmall : pmm.totalBlocks ≤ 2 ^ 35)
    (hsome : (pmmAllocBlock pmm).1 ≠ 0) :
    PagingInv PmmSource (pagingInit ⟨mem, 0, pmm⟩).IsTable (pagingInit ⟨mem, 0, pmm⟩) ∧
      (pagingInit ⟨mem, 0, pmm⟩).pmm = (pmmAllocBlock pmm).2 := by
  have hnothing : PmmSource pmm fun _ => False := ⟨hwf, hsmall, fun _ hx => hx.elim⟩
  rcases pmmSource_supplies.supply pmm _ hnothing with ⟨hnull, _⟩ | ⟨_, halign, hlow, _, hsource⟩
  · exact absurd hnull hsome
  rw [pagingInit, pmmAllocBlockAligned_pageSize hwf]
  dsimp only
  rcases clearEntries_eq ⟨mem, (pmmAllocBlock pmm).1, (pmmAllocBlock pmm).2⟩ hlow 512
    (Nat.le_refl _) with ⟨m, hcleared, hm⟩
  rw [hcleared]
  refine ⟨onlyTables (pagingInv_zero halign hlow ?_ (hsource.mono fun _ hx => Or.inr hx)), rfl⟩
  intro x hx
  exact (hm x).trans (if_pos hx)

/-- **`vmm_init`** establishes the invariant. -/
theorem vmmInit_inv (hwf : BlockWf pmm) (hsmall : pmm.totalBlocks ≤ 2 ^ 35)
    (hsome : (pmmAllocBlock pmm).1 ≠ 0) : VmmInv (vmmInit (.start mem pmm)) where
  paging := vmmMapRange_inv _ _ _ _
    (vmmMapRange_inv _ _ _ _ (pagingInit_inv mem hwf hsmall hsome).1)
  next := ⟨kernelVirtualBase, Nat.le_refl _, by decide, by decide, rfl⟩

end Init

end FarouKernel.Ports.KernelVmm
