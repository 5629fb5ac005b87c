import FarouKernel.Ports.PagingTree
import FarouKernel.Verified.Runs

/-!
# Runs of `paging_map_page` and `paging_unmap_page`

The page tables as a finite map from pages to translations.  The block allocator
is any sequence of results in which a block that was returned is not returned
again and is not the top table.

`paging_map_page` returns the virtual address it was given.  For the page at
address 0 that is `NULL`, so there a map that succeeds cannot be told from one
that fails; for every other address the functions refine the map.

`paging_is_page_present` and `paging_get_physical_address` both follow the path of
the address, but only the former tests the last entry: after an unmap the latter
still returns the offset in the page.
-/

namespace FarouKernel.Ports.Paging

open Relation Verified ByteMem PageTables

/-! ## Runs -/

/-- An allocator given by the results of its calls. -/
def nextResult (results : Nat → Nat) (k : Nat) : Nat × Nat := (results k, k + 1)

/-- Every result is `NULL` or a block in the memory both views show, which is
neither the top table nor a block returned before. -/
structure FreshResults (results : Nat → Nat) (pml4 : Nat) : Prop where
  block : ∀ k, results k ≠ 0 → results k % 4096 = 0 ∧ Low (results k) ∧ results k ≠ pml4
  distinct : ∀ k l, k < l → results l ≠ 0 → results k ≠ results l

/-- The blocks in use are the top table and blocks returned so far. -/
def ReturnedSoFar (results : Nat → Nat) (pml4 : Nat) (k : Nat) (taken : Nat → Prop) : Prop :=
  ∀ x, taken x → x = pml4 ∨ ∃ j, j < k ∧ results j = x

theorem FreshResults.supplies {results : Nat → Nat} {pml4 : Nat} (h : FreshResults results pml4) :
    Supplies (nextResult results) (ReturnedSoFar results pml4) where
  supply k taken htaken := by
    have hlater : ∀ x, taken x → x = pml4 ∨ ∃ j, j < k + 1 ∧ results j = x := by
      intro x hx
      rcases htaken x hx with hroot | ⟨j, hj, hjx⟩
      · exact Or.inl hroot
      · exact Or.inr ⟨j, by omega, hjx⟩
    by_cases hnull : results k = 0
    · exact Or.inl ⟨hnull, hlater⟩
    · right
      rcases h.block k hnull with ⟨halign, hlow, hroot⟩
      refine ⟨hnull, halign, hlow, ?_, ?_⟩
      · intro hold
        rcases htaken _ hold with heq | ⟨j, hj, hjk⟩
        · exact hroot heq
        · exact h.distinct j k hj hnull hjk
      · intro x hx
        rcases hx with hx | hx
        · exact hlater x hx
        · exact Or.inr ⟨k, Nat.lt_succ_self k, hx.symm⟩

/-- One call. -/
inductive PagingStep (results : Nat → Nat) : PagingState Nat → PagingState Nat → Prop
  | map (st : PagingState Nat) (p v flags : Nat) (hp : p % 4096 = 0) :
      PagingStep results st (pagingMapPage (nextResult results) p v flags st).2
  | unmap (st : PagingState Nat) (v : Nat) :
      PagingStep results st (pagingUnmapPage (nextResult results) v st)

section Runs

variable {results : Nat → Nat} {pml4 : Nat} {mem : ByteMem} {st : PagingState Nat}

theorem pagingInv_run (hfresh : FreshResults results pml4) (halign : pml4 % 4096 = 0)
    (hlow : Low pml4) (hzero : ∀ x, InPage pml4 x → mem x = 0)
    (hrun : ReflTransGen (PagingStep results) ⟨mem, pml4, 0⟩ st) :
    ∃ taken, PagingInv (ReturnedSoFar results pml4) taken st := by
  refine run_invariant (fun st => ∃ taken, PagingInv (ReturnedSoFar results pml4) taken st) ?_ hrun
    ⟨_, pagingInv_zero halign hlow hzero fun _ hx => Or.inl hx⟩
  rintro st st' ⟨taken, h⟩ hstep
  cases hstep with
  | map p v flags _ =>
    rcases h.map hfresh.supplies p v flags rfl with ⟨taken', h', _⟩
    exact ⟨taken', h'⟩
  | unmap v => exact ⟨taken, (h.unmap v).1⟩

end Runs

/-- **The page tables refine a finite map.**  After any run on a cleared top
table: a map of a page-aligned `p` at an address other than 0 that does not
return `NULL` makes the page present, with the physical address `p` and every
offset in it; one that returns `NULL` changes no page; an unmap makes its page
absent; and in each case every other page keeps its presence and address. -/
theorem paging_refines_map (results : Nat → Nat) (pml4 : Nat) (mem : ByteMem)
    (hfresh : FreshResults results pml4) (halign : pml4 % 4096 = 0) (hlow : Low pml4)
    (hzero : ∀ x, InPage pml4 x → mem x = 0) (st : PagingState Nat)
    (hrun : ReflTransGen (PagingStep results) ⟨mem, pml4, 0⟩ st) :
    (∀ p v flags, p % 4096 = 0 → p < 2 ^ 64 → v ≠ 0 →
      ((pagingMapPage (nextResult results) p v flags st).1 ≠ 0 →
        pagingIsPagePresent (nextResult results)
            (pagingMapPage (nextResult results) p v flags st).2 v = true ∧
          ∀ o, o < 4096 → pagingGetPhysicalAddress (nextResult results)
            (pagingMapPage (nextResult results) p v flags st).2 (pageBase v + o) = p ||| o) ∧
      ((pagingMapPage (nextResult results) p v flags st).1 = 0 → ∀ w,
        SameTranslation (nextResult results) st
          (pagingMapPage (nextResult results) p v flags st).2 w) ∧
      ∀ w, ¬SamePage w v → SameTranslation (nextResult results) st
        (pagingMapPage (nextResult results) p v flags st).2 w) ∧
    ∀ v, pagingIsPagePresent (nextResult results) (pagingUnmapPage (nextResult results) v st) v =
        false ∧
      ∀ w, ¬SamePage w v → SameTranslation (nextResult results) st
        (pagingUnmapPage (nextResult results) v st) w := by
  rcases pagingInv_run hfresh halign hlow hzero hrun with ⟨taken, h⟩
  constructor
  · intro p v flags hp hp64 hv
    rcases h.map hfresh.supplies p v flags rfl with ⟨taken', h', _, _, hcase, _⟩
    rcases hcase with ⟨hnull, hpages⟩ | ⟨_, hresult, hpages⟩
    · have hsame : ∀ w, SameTranslation (nextResult results) st
          (pagingMapPage (nextResult results) p v flags st).2 w :=
        fun w => h.sameTranslation h' (hpages (virtPath w) rfl)
      exact ⟨fun hne => absurd hnull hne, fun _ => hsame, fun w _ => hsame w⟩
    · refine ⟨fun _ => ?_, fun hnull => absurd (hresult.symm.trans hnull) hv, ?_⟩
      · have hentry := hpages (virtPath v) rfl
        rw [if_pos rfl] at hentry
        exact h'.mapped hp hp64 hentry
      · intro w hw
        apply h.sameTranslation h'
        rw [hpages (virtPath w) rfl, if_neg fun heq => hw (virtPath_eq_iff.mp heq)]
  · intro v
    have hunmap : PagingInv _ taken (pagingUnmapPage (nextResult results) v st) ∧ _ := h.unmap v
    rcases hunmap with ⟨h', hpages⟩
    constructor
    · rw [h'.isPagePresent_eq, hpages (virtPath v) rfl, if_pos rfl]
      rfl
    · intro w hw
      apply h.sameTranslation h'
      rw [hpages (virtPath w) rfl, if_neg fun heq => hw (virtPath_eq_iff.mp heq)]

/-- An allocator with three blocks. -/
def threeBlocks (k : Nat) : Nat := if k < 3 then (k + 2) * 4096 else 0

/-- Empty tables with the top one at the second page. -/
def emptyTables : PagingState Nat := ⟨fun _ => 0, 4096, 0⟩

theorem threeBlocks_fresh : FreshResults threeBlocks 4096 := by
  constructor
  · intro k hk
    unfold threeBlocks Low at *
    split at hk
    · rw [if_pos (by assumption)]
      omega
    · exact absurd rfl hk
  · intro k l hkl hl
    unfold threeBlocks at *
    split at hl
    · rw [if_pos (by omega), if_pos (by assumption)]
      intro heq
      omega
    · exact absurd rfl hl

/-- The first page takes the three blocks for its tables. -/
theorem emptyTables_map {p : Nat} (v flags : Nat) (hp : p % 4096 = 0) :
    pagingMapPage (nextResult threeBlocks) p v flags emptyTables =
      (v, ⟨write64 (write64 (write64 (write64 (fun _ => 0)
        (0x1000 + 8 * indexAt 39 v) (entryFor 0x2000 flags))
        (0x2000 + 8 * indexAt 30 v) (entryFor 0x3000 flags))
        (0x3000 + 8 * indexAt 21 v) (entryFor 0x4000 flags))
        (0x4000 + 8 * indexAt 12 v) (entryFor p flags), 0x1000, 3⟩) :=
  pagingMapPage_zero v flags rfl rfl rfl (by simp [Low]) (by decide) hp

/-- The page at 4096 is mapped. -/
theorem paging_refines_map_page :
    pagingGetPhysicalAddress (nextResult threeBlocks)
      (pagingMapPage (nextResult threeBlocks) 0x9000 0x1000 3 emptyTables).2 (pageBase 0x1000 + 5) =
        0x9000 ||| 5 := by
  have hrefines := paging_refines_map threeBlocks 4096 (fun _ => 0) threeBlocks_fresh (by decide)
    (by unfold Low; decide) (fun _ _ => rfl) emptyTables .refl
  have hmapped := (hrefines.1 0x9000 0x1000 3 (by decide) (by decide) (by decide)).1
    (by rw [emptyTables_map _ _ rfl]; decide)
  exact hmapped.2 5 (by decide)

/-- The page at 0 is mapped as well, and the result is `NULL`. -/
theorem paging_map_null_page :
    (pagingMapPage (nextResult threeBlocks) 0x9000 0 3 emptyTables).1 = 0 ∧
      pagingIsPagePresent (nextResult threeBlocks) emptyTables 0 = false ∧
      pagingIsPagePresent (nextResult threeBlocks)
        (pagingMapPage (nextResult threeBlocks) 0x9000 0 3 emptyTables).2 0 = true := by
  rw [emptyTables_map _ _ rfl]
  decide +kernel

/-! ## Presence and lookup -/

/-- One call, where pages are mapped to frames other than the one at 0. -/
inductive FrameStep (results : Nat → Nat) : PagingState Nat → PagingState Nat → Prop
  | map (st : PagingState Nat) (p v flags : Nat) (hp : p % 4096 = 0) (hp0 : p ≠ 0)
      (hp64 : p < 2 ^ 64) :
      FrameStep results st (pagingMapPage (nextResult results) p v flags st).2
  | unmap (st : PagingState Nat) (v : Nat) :
      FrameStep results st (pagingUnmapPage (nextResult results) v st)

/-- Every page that is mapped has a frame other than the one at 0. -/
def Framed (st : PagingState Nat) : Prop :=
  ∀ r, r.length = 4 → ∀ e, st.entryAt r = some e → alignPage e ≠ 0

section Frames

variable {results : Nat → Nat} {pml4 : Nat} {mem : ByteMem} {st : PagingState Nat}

theorem Framed.of_pages {st st' : PagingState Nat} (hframed : Framed st)
    (hpages : ∀ r, r.length = 4 → st'.entryAt r = st.entryAt r) : Framed st' := by
  intro r hr e he
  rw [hpages r hr] at he
  exact hframed r hr e he

theorem framed_run (hfresh : FreshResults results pml4) (halign : pml4 % 4096 = 0)
    (hlow : Low pml4) (hzero : ∀ x, InPage pml4 x → mem x = 0)
    (hrun : ReflTransGen (FrameStep results) ⟨mem, pml4, 0⟩ st) :
    (∃ taken, PagingInv (ReturnedSoFar results pml4) taken st) ∧ Framed st := by
  have hstart : Framed ⟨mem, pml4, 0⟩ := by
    intro r _ e he
    rw [PagingState.entryAt, (tree_zero alignPage 4 halign hzero).2 r] at he
    cases he
  refine run_invariant
    (fun st => (∃ taken, PagingInv (ReturnedSoFar results pml4) taken st) ∧ Framed st) ?_ hrun
    ⟨⟨_, pagingInv_zero halign hlow hzero fun _ hx => Or.inl hx⟩, hstart⟩
  rintro st st' ⟨⟨taken, h⟩, hframed⟩ hstep
  cases hstep with
  | map p v flags hp hp0 hp64 =>
    rcases h.map_cases hfresh.supplies v flags hp with
      ⟨_, _, taken', hgrown⟩ | ⟨_, _, taken', hmapped⟩
    · exact ⟨⟨taken', hgrown.inv⟩, hframed.of_pages hgrown.pages⟩
    · refine ⟨⟨taken', hmapped.inv⟩, ?_⟩
      intro r hr e he
      by_cases hpage : r = virtPath v
      · rw [hpage, hmapped.page] at he
        cases he
        rw [alignPage_entryFor hp64 hp]
        exact hp0
      · rw [hmapped.others hr hpage] at he
        exact hframed r hr e he
  | unmap v =>
    have hunmap : PagingInv _ taken (pagingUnmapPage (nextResult results) v st) ∧ _ := h.unmap v
    rcases hunmap with ⟨h', hpages⟩
    refine ⟨⟨taken, h'⟩, ?_⟩
    intro r hr e he
    rw [hpages r hr] at he
    split at he
    · cases he
    · exact hframed r hr e he

end Frames

/-- **Presence and lookup.**  After any run that maps frames other than the one at 0,
`paging_get_physical_address` is non-zero exactly for the addresses that
`paging_is_page_present` accepts, if and only if the address is that of a page, has
no table, or has a present entry in it. -/
theorem presence_lookup_iff (results : Nat → Nat) (pml4 : Nat) (mem : ByteMem)
    (hfresh : FreshResults results pml4) (halign : pml4 % 4096 = 0) (hlow : Low pml4)
    (hzero : ∀ x, InPage pml4 x → mem x = 0) (st : PagingState Nat)
    (hrun : ReflTransGen (FrameStep results) ⟨mem, pml4, 0⟩ st) (v : Nat) :
    (pagingGetPhysicalAddress (nextResult results) st v ≠ 0 ↔
        pagingIsPagePresent (nextResult results) st v = true) ↔
      v % 4096 = 0 ∨
        ∀ n, st.tableAt (tablePath v) = some n → entries st.mem n (indexAt 12 v) ≠ none := by
  rcases framed_run hfresh halign hlow hzero hrun with ⟨⟨taken, h⟩, hframed⟩
  rw [h.isPagePresent_eq]
  cases he : st.entryAt (virtPath v) with
  | some e =>
    have haddr : pagingGetPhysicalAddress (nextResult results) st v ≠ 0 := by
      rw [h.getPhysicalAddress_present he]
      exact fun hor => hframed _ rfl e he (Nat.or_eq_zero_iff.mp hor).1
    have htable : ∀ n, st.tableAt (tablePath v) = some n →
        entries st.mem n (indexAt 12 v) ≠ none := by
      intro n hn
      rw [← PagingState.entryAt_concat hn, ← virtPath_eq, he]
      exact Option.some_ne_none e
    exact iff_of_true (iff_of_true haddr rfl) (Or.inr htable)
  | none =>
    rw [h.getPhysicalAddress_unmapped he]
    cases hn : st.tableAt (tablePath v) with
    | none => simp
    | some n =>
      have hentry : entries st.mem n (indexAt 12 v) = none := by
        rw [← PagingState.entryAt_concat hn]
        exact he
      simp [hentry]

/-- One page is mapped and the next one unmapped; an address in the middle of the first. -/
theorem presence_lookup_mapped :
    ∃ st, ReflTransGen (FrameStep threeBlocks) emptyTables st ∧
      pagingGetPhysicalAddress (nextResult threeBlocks) st 0x1005 = 0x9005 ∧
      (pagingGetPhysicalAddress (nextResult threeBlocks) st 0x1005 ≠ 0 ↔
        pagingIsPagePresent (nextResult threeBlocks) st 0x1005 = true) := by
  have hmap := @FrameStep.map threeBlocks emptyTables 0x9000 0x1000 3 (by decide)
    (by decide) (by decide)
  have hrun := (ReflTransGen.single hmap).tail (FrameStep.unmap _ 0x2000)
  refine ⟨_, hrun, by rw [emptyTables_map _ _ rfl]; decide +kernel, ?_⟩
  apply (presence_lookup_iff threeBlocks 4096 (fun _ => 0) threeBlocks_fresh (by decide)
    (by unfold Low; decide) (fun _ _ => rfl) _ hrun 0x1005).mpr
  right
  rw [emptyTables_map _ _ rfl]
  intro n hn
  obtain rfl : 0x4000 = n := Option.some.inj ((by decide +kernel : _ = some 0x4000).symm.trans hn)
  decide +kernel

/-- A page is mapped and unmapped; the lookup of an address in it returns the offset. -/
theorem presence_lookup_unmapped :
    ReflTransGen (FrameStep threeBlocks) emptyTables
        (pagingUnmapPage (nextResult threeBlocks) 0x1000
          (pagingMapPage (nextResult threeBlocks) 0x9000 0x1000 3 emptyTables).2) ∧
      pagingGetPhysicalAddress (nextResult threeBlocks)
        (pagingUnmapPage (nextResult threeBlocks) 0x1000
          (pagingMapPage (nextResult threeBlocks) 0x9000 0x1000 3 emptyTables).2) 0x1005 = 5 ∧
      pagingIsPagePresent (nextResult threeBlocks)
        (pagingUnmapPage (nextResult threeBlocks) 0x1000
          (pagingMapPage (nextResult threeBlocks) 0x9000 0x1000 3 emptyTables).2) 0x1005 =
            false := by
  refine ⟨?_, by rw [emptyTables_map _ _ rfl]; decide +kernel⟩
  have hmap := @FrameStep.map threeBlocks emptyTables 0x9000 0x1000 3 (by decide)
    (by decide) (by decide)
  exact (ReflTransGen.single hmap).tail (FrameStep.unmap _ 0x1000)

end FarouKernel.Ports.Paging
