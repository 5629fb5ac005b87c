import Mathlib.Data.Finset.Card
import FarouKernel.Ports.KernelVmmReach

/-!
# When `vmm_map_range` fails

At the first page that cannot be mapped the code unmaps the earlier pages of the
range.  That is a rollback only if none of them was mapped before the call.

How far the loop comes is settled by the state before the call: the pages up to the
`j`-th can be mapped if the allocator has the blocks for all tables that they lack
together.  The page at 0 ends the loop in any case, since `paging_map_page` returns
its address, which is `NULL`, and that page stays mapped.
-/

namespace FarouKernel.Ports.KernelVmm

open Relation Verified PageTables Ports.Paging Ports.Block

/-! ## The tables that several pages lack -/

section Lacking

variable {σ : Type} {pmmAllocBlock : σ → Nat × σ} {Inv : σ → (Nat → Prop) → Prop}
  {taken taken' : Nat → Prop} {st st' : PagingState σ} {p v flags : Nat} {q : List (Fin 512)}

/-- The tables that the pages need and that are not there, by the paths to them. -/
def lacking (st : PagingState σ) (vs : List Nat) : Finset (List (Fin 512)) :=
  (vs.flatMap fun v => (tablePath v).inits).toFinset.filter fun q => q ≠ [] ∧ st.entryAt q = none

theorem mem_lacking {vs : List Nat} :
    q ∈ lacking st vs ↔ (∃ v ∈ vs, q <+: tablePath v) ∧ q ≠ [] ∧ st.entryAt q = none := by
  rw [lacking, Finset.mem_filter, List.mem_toFinset, List.mem_flatMap]
  simp only [List.mem_inits]

theorem lacking_mono {vs vs' : List Nat} (hsub : vs ⊆ vs') :
    (lacking st vs).card ≤ (lacking st vs').card := by
  apply Finset.card_le_card
  intro q hq
  rw [mem_lacking] at hq ⊢
  rcases hq with ⟨⟨v, hv, hpre⟩, hrest⟩
  exact ⟨⟨v, hsub hv, hpre⟩, hrest⟩

/-- One page lacks the tables that are missing on its path. -/
theorem card_lacking_singleton (st : PagingState σ) (v : Nat) :
    (lacking st [v]).card = st.missing v := by
  have hinits : ([v].flatMap fun v => (tablePath v).inits).toFinset =
      {[], [indexAt 39 v], [indexAt 39 v, indexAt 30 v], tablePath v} := by
    simp [tablePath]
  rw [lacking, hinits, PagingState.missing]
  simp only [Finset.filter_insert, Finset.filter_singleton, tablePath, PagingState.missingFrom]
  by_cases h1 : st.entryAt [indexAt 39 v] = none <;>
    by_cases h2 : st.entryAt [indexAt 39 v, indexAt 30 v] = none <;>
    by_cases h3 : st.entryAt [indexAt 39 v, indexAt 30 v, indexAt 21 v] = none <;>
    simp [h1, h2, h3]

/-- An entry is absent after a page was mapped if it was absent before and is not on
the path of the page. -/
theorem mapped_entryAt_eq_none_iff
    (h : Mapped pmmAllocBlock Inv taken st taken' st' p v flags) (hq : q ≠ [])
    (hlen : q.length ≤ 3) :
    st'.entryAt q = none ↔ st.entryAt q = none ∧ ¬q <+: tablePath v := by
  have hne : q ≠ virtPath v := by
    rintro rfl
    exact absurd hlen (by simp [virtPath])
  by_cases hnone : st.entryAt q = none
  · by_cases hpre : q <+: tablePath v
    · rcases h.fill q hq hpre hnone with ⟨b, hb⟩
      rw [hb]
      simp [hpre]
    · rw [h.old q (by omega) hne (Or.inl hpre)]
      simp [hpre]
  · rw [h.old q (by omega) hne (Or.inr hnone)]
    simp [hnone]

/-- **Mapping the first page** leaves the tables to create for the others. -/
theorem card_lacking_cons (h : Mapped pmmAllocBlock Inv taken st taken' st' p v flags)
    (vs : List Nat) :
    (lacking st (v :: vs)).card = st.missing v + (lacking st' vs).card := by
  have hunion : lacking st (v :: vs) = lacking st [v] ∪ lacking st' vs := by
    ext q
    rw [Finset.mem_union, mem_lacking, mem_lacking, mem_lacking]
    constructor
    · rintro ⟨⟨w, hw, hpre⟩, hq, hnone⟩
      by_cases hfirst : q <+: tablePath v
      · exact Or.inl ⟨⟨v, List.mem_singleton_self v, hfirst⟩, hq, hnone⟩
      · rcases List.mem_cons.mp hw with rfl | hw
        · exact absurd hpre hfirst
        · exact Or.inr ⟨⟨w, hw, hpre⟩, hq, (mapped_entryAt_eq_none_iff h hq hpre.length_le).mpr
            ⟨hnone, hfirst⟩⟩
    · rintro (⟨⟨w, hw, hpre⟩, hq, hnone⟩ | ⟨⟨w, hw, hpre⟩, hq, hnone⟩)
      · exact ⟨⟨w, List.mem_cons.mpr (Or.inl (List.mem_singleton.mp hw)), hpre⟩, hq, hnone⟩
      · exact ⟨⟨w, List.mem_cons_of_mem v hw, hpre⟩, hq,
          ((mapped_entryAt_eq_none_iff h hq hpre.length_le).mp hnone).1⟩
  have hdisjoint : Disjoint (lacking st [v]) (lacking st' vs) := by
    rw [Finset.disjoint_left]
    intro q hq hq'
    rw [mem_lacking] at hq hq'
    rcases hq with ⟨⟨w, hw, hpre⟩, hne, _⟩
    rw [List.mem_singleton.mp hw] at hpre
    exact ((mapped_entryAt_eq_none_iff h hne hpre.length_le).mp hq'.2.2).2 hpre
  rw [hunion, Finset.card_union_of_disjoint hdisjoint, card_lacking_singleton]

end Lacking

/-! ## Ranges -/

/-- The `j`-th page of a range. -/
def pageAt (start j : Nat) : Nat := add64 start (j * pageSize)

/-- The `n` pages of a range from the `i`-th on. -/
def pagesFrom (start i n : Nat) : List Nat := (List.range' i n).map (pageAt start)

/-- How many tables the pages lack. -/
@[irreducible] def needs (st : PagingState PmmState) (start i n : Nat) : Nat :=
  (lacking st (pagesFrom start i n)).card

variable {m n i : Nat}

section Ranges

variable {taken : Nat → Prop} {st : PagingState PmmState} {start : Nat}

theorem pageAt_aligned (hstart : start % 4096 = 0) (j : Nat) : pageAt start j % 4096 = 0 := by
  unfold pageAt add64 pageSize
  omega

theorem mem_pagesFrom {v : Nat} :
    v ∈ pagesFrom start i n ↔ ∃ j, i ≤ j ∧ j < i + n ∧ pageAt start j = v := by
  rw [pagesFrom, List.mem_map]
  simp only [List.mem_range'_1, and_assoc]

theorem needs_mono (st : PagingState PmmState) (start i : Nat) (hle : m ≤ n) :
    needs st start i m ≤ needs st start i n := by
  rw [needs, needs]
  apply lacking_mono
  intro v hv
  rw [mem_pagesFrom] at hv ⊢
  rcases hv with ⟨j, hij, hj, hv⟩
  exact ⟨j, hij, by omega, hv⟩

theorem needs_zero (st : PagingState PmmState) (start i : Nat) : needs st start i 0 = 0 := by
  rw [needs]
  rfl

theorem needs_one (st : PagingState PmmState) (start i : Nat) :
    needs st start i 1 = st.missing (pageAt start i) := by
  rw [needs]
  exact card_lacking_singleton st (pageAt start i)

/-- The paths of the first `n` pages. -/
def pathsTo (start n : Nat) : List (List (Fin 512)) := (pagesFrom start 0 n).map virtPath

theorem mem_pathsTo {r : List (Fin 512)} :
    r ∈ pathsTo start n ↔ ∃ j, j < n ∧ virtPath (pageAt start j) = r := by
  rw [pathsTo, List.mem_map]
  constructor
  · rintro ⟨v, hv, hr⟩
    rcases mem_pagesFrom.mp hv with ⟨j, _, hj, rfl⟩
    exact ⟨j, by omega, hr⟩
  · rintro ⟨j, hj, hr⟩
    exact ⟨pageAt start j, mem_pagesFrom.mpr ⟨j, Nat.zero_le j, by omega, rfl⟩, hr⟩

/-- **The loop that unmaps** the first pages of the range. -/
theorem unmapRange_entries (i : Nat) (h : PagingInv PmmSource taken st) :
    PagingInv PmmSource taken (unmapRange start i st) ∧
      ∀ r, r.length = 4 → (unmapRange start i st).entryAt r =
        if r ∈ pathsTo start i then none else st.entryAt r := by
  induction i generalizing st with
  | zero => exact ⟨h, fun _ _ => rfl⟩
  | succ i ih =>
    have hunmap : PagingInv PmmSource taken (pagingUnmapPage pmmAllocBlock (pageAt start i) st) ∧
      _ := h.unmap (pageAt start i)
    rcases hunmap with ⟨h', hpage⟩
    rcases ih h' with ⟨hinv, hentry⟩
    refine ⟨hinv, ?_⟩
    intro r hr
    have hmem : r ∈ pathsTo start (i + 1) ↔
        r ∈ pathsTo start i ∨ r = virtPath (pageAt start i) := by
      rw [mem_pathsTo, mem_pathsTo]
      constructor
      · rintro ⟨j, hj, hjr⟩
        rcases Nat.lt_succ_iff_lt_or_eq.mp hj with hlt | rfl
        · exact Or.inl ⟨j, hlt, hjr⟩
        · exact Or.inr hjr.symm
      · rintro (⟨j, hj, hjr⟩ | hr)
        · exact ⟨j, by omega, hjr⟩
        · exact ⟨i, Nat.lt_succ_self i, hr.symm⟩
    have hstep := hentry r hr
    rw [hpage r hr] at hstep
    refine hstep.trans ?_
    by_cases hold : r ∈ pathsTo start i
    · rw [if_pos hold, if_pos (hmem.mpr (Or.inl hold))]
    · by_cases hlast : r = virtPath (pageAt start i)
      · rw [if_neg hold, if_pos hlast, if_pos (hmem.mpr (Or.inr hlast))]
      · rw [if_neg hold, if_neg hlast, if_neg fun hin => (hmem.mp hin).elim hold hlast]

end Ranges

/-! ## The loop -/

/-- The loop from the `i`-th page on stopped after `m` pages: for want of blocks, or
at the page at 0, which it maps. -/
structure Stopped (st : PagingState PmmState) (physStart virtStart flags i m : Nat)
    (st' : PagingState PmmState) : Prop where
  inv : ∃ taken, PagingInv PmmSource taken st'
  nonzero : ∀ j, i ≤ j → j < i + m → pageAt virtStart j ≠ 0
  ready : Ready pmmAllocBlock (needs st virtStart i m) st.pmm
  exit : (¬Ready pmmAllocBlock (needs st virtStart i (m + 1)) st.pmm ∧
      ∀ r, r.length = 4 → st'.entryAt r =
        if r ∈ pathsTo virtStart (i + m) then none else st.entryAt r) ∨
    pageAt virtStart (i + m) = 0 ∧
      Ready pmmAllocBlock (needs st virtStart i (m + 1)) st.pmm ∧
      ∀ r, r.length = 4 → st'.entryAt r =
        if r ∈ pathsTo virtStart (i + m) then none
        else if r = virtPath 0 then some (entryFor (pageAt physStart (i + m)) flags)
        else st.entryAt r

section Loop

variable {taken taken' : Nat → Prop} {st st1 st' : PagingState PmmState}
  {physStart virtStart flags : Nat}

section First

variable
  (h : Mapped pmmAllocBlock PmmSource taken st taken' st1 (pageAt physStart i)
    (pageAt virtStart i) flags)
  (hready : Ready pmmAllocBlock (st.missing (pageAt virtStart i)) st.pmm)

include h hready

/-- The blocks for the first page and for the others. -/
theorem ready_needs_succ :
    Ready pmmAllocBlock (needs st virtStart i (n + 1)) st.pmm ↔
      Ready pmmAllocBlock (needs st1 virtStart (i + 1) n) st1.pmm := by
  have hsplit : needs st virtStart i (n + 1) =
      st.missing (pageAt virtStart i) + needs st1 virtStart (i + 1) n := by
    rw [needs, needs]
    exact card_lacking_cons h (pagesFrom virtStart (i + 1) n)
  rw [hsplit, ready_add, ← h.pmm, and_iff_right hready]

/-- One more page in front of a loop that stopped. -/
theorem Stopped.cons (hne : pageAt virtStart i ≠ 0)
    (hstopped : Stopped st1 physStart virtStart flags (i + 1) m st') :
    Stopped st physStart virtStart flags i (m + 1) st' := by
  have hshift : i + 1 + m = i + (m + 1) := by omega
  have hpages : ∀ r, r.length = 4 → r ∉ pathsTo virtStart (i + (m + 1)) →
      st1.entryAt r = st.entryAt r := by
    intro r hr hout
    apply h.others hr
    rintro rfl
    exact hout (mem_pathsTo.mpr ⟨i, by omega, rfl⟩)
  refine ⟨hstopped.inv, ?_, (ready_needs_succ h hready).mpr hstopped.ready, ?_⟩
  · intro j hij hj
    by_cases hji : j = i
    · rw [hji]
      exact hne
    · exact hstopped.nonzero j (by omega) (by omega)
  · rw [ready_needs_succ h hready, ← hshift]
    rw [← hshift] at hpages
    rcases hstopped.exit with ⟨hfail, hentry⟩ | ⟨hzero, hlast, hentry⟩
    · refine Or.inl ⟨hfail, ?_⟩
      intro r hr
      rw [hentry r hr]
      split
      · rfl
      · rename_i hout
        exact hpages r hr hout
    · refine Or.inr ⟨hzero, hlast, ?_⟩
      intro r hr
      rw [hentry r hr]
      split
      · rfl
      · rename_i hout
        rw [hpages r hr hout]

end First

/-- **The loop of `vmm_map_range`** maps all its pages, or stops at one of them. -/
theorem mapRangeLoop_cases (hphys : physStart % 4096 = 0) (left i : Nat)
    (h : PagingInv PmmSource taken st) :
    (mapRangeLoop physStart virtStart flags left i st).1 = true ∨
      (mapRangeLoop physStart virtStart flags left i st).1 = false ∧
        ∃ m, m < left ∧ Stopped st physStart virtStart flags i m
          (mapRangeLoop physStart virtStart flags left i st).2 := by
  induction left generalizing st i taken with
  | zero => exact Or.inl rfl
  | succ left ih =>
    have haligned := pageAt_aligned hphys i
    have hnothing : Ready pmmAllocBlock (needs st virtStart i 0) st.pmm := by
      rw [needs_zero]
      trivial
    rw [mapRangeLoop]
    rcases h.map_cases pmmSource_supplies (pageAt virtStart i) flags haligned with
      ⟨hfail, hresult, taken', hgrown⟩ | ⟨hready, hresult, taken', hmapped⟩
    · right
      rw [pageAt, pageAt] at hresult
      rw [if_pos hresult]
      rcases unmapRange_entries i hgrown.inv with ⟨hinv, hentry⟩
      rw [← needs_one] at hfail
      refine ⟨rfl, 0, Nat.succ_pos left, ⟨⟨_, hinv⟩, fun j hij hj => by omega, hnothing, ?_⟩⟩
      refine Or.inl ⟨hfail, ?_⟩
      intro r hr
      rw [Nat.add_zero, ← hgrown.pages r hr]
      exact hentry r hr
    · by_cases hzero : pageAt virtStart i = 0
      · right
        have hnull := hresult.trans hzero
        rw [pageAt, pageAt] at hnull
        rw [if_pos hnull]
        rcases unmapRange_entries i hmapped.inv with ⟨hinv, hentry⟩
        rw [← needs_one] at hready
        refine ⟨rfl, 0, Nat.succ_pos left, ⟨⟨_, hinv⟩, fun j hij hj => by omega, hnothing, ?_⟩⟩
        refine Or.inr ⟨hzero, hready, ?_⟩
        intro r hr
        rw [Nat.add_zero]
        refine (hentry r hr).trans ?_
        split
        · rfl
        · split
          · rename_i hpage
            rw [hpage, ← hzero]
            exact hmapped.page
          · rename_i hother
            rw [← hzero] at hother
            exact hmapped.others hr hother
      · have hne : (pagingMapPage pmmAllocBlock (pageAt physStart i) (pageAt virtStart i) flags
            st).1 ≠ 0 := by
          rw [hresult]
          exact hzero
        rw [pageAt, pageAt] at hne
        rw [if_neg hne]
        rcases ih (i + 1) hmapped.inv with htrue | ⟨hfalse, m, hm, hstopped⟩
        · exact Or.inl htrue
        · exact Or.inr ⟨hfalse, m + 1, by omega, hstopped.cons hmapped hready hzero⟩

/-! ## The rollback -/

variable (hst : Stopped st physStart virtStart flags 0 m st')

include hst

/-- The loop does not come farther than to the page at which it stopped. -/
theorem Stopped.not_past {z : Nat} (hz : m ≤ z) (hnonzero : ∀ k, k < z → pageAt virtStart k ≠ 0)
    (hready : Ready pmmAllocBlock (needs st virtStart 0 (z + 1)) st.pmm) :
    z = m ∧ pageAt virtStart m = 0 := by
  rcases hst.exit with ⟨hfail, _⟩ | ⟨hzero, _, _⟩
  · exact absurd (hready.mono (needs_mono st virtStart 0 (by omega))) hfail
  · rw [Nat.zero_add] at hzero
    rcases Nat.lt_or_eq_of_le hz with hlt | heq
    · exact absurd hzero (hnonzero m hlt)
    · exact ⟨heq.symm, hzero⟩

/-- The pages in front of that page are unmapped. -/
theorem Stopped.unmapped {j : Nat} (hj : j < m) :
    st'.entryAt (virtPath (pageAt virtStart j)) = none := by
  have hmem : virtPath (pageAt virtStart j) ∈ pathsTo virtStart (0 + m) :=
    mem_pathsTo.mpr ⟨j, by omega, rfl⟩
  rcases hst.exit with ⟨_, hentry⟩ | ⟨_, _, hentry⟩ <;> rw [hentry _ rfl, if_pos hmem]

/-- The frames of all pages are the same exactly if the pages of the range that were
mapped and unmapped had none, and the page at 0 has its old one. -/
theorem Stopped.frames_iff (hphys : physStart % 4096 = 0) :
    (∀ w, (st'.entryAt (virtPath w)).map alignPage = (st.entryAt (virtPath w)).map alignPage) ↔
      (∀ j, j < m → st.entryAt (virtPath (pageAt virtStart j)) = none) ∧
        (pageAt virtStart m = 0 → Ready pmmAllocBlock (needs st virtStart 0 (m + 1)) st.pmm →
          virtPath 0 ∈ pathsTo virtStart m ∨
            (st.entryAt (virtPath 0)).map alignPage = some (pageAt physStart m)) := by
  have hframe : alignPage (entryFor (pageAt physStart m) flags) = pageAt physStart m :=
    alignPage_entryFor (add64_lt _ _) (pageAt_aligned hphys m) flags
  have hexit := hst.exit
  rw [Nat.zero_add] at hexit
  constructor
  · intro hsame
    refine ⟨?_, ?_⟩
    · intro j hj
      have hj' := hsame (pageAt virtStart j)
      rw [hst.unmapped hj, Option.map_none] at hj'
      exact Option.map_eq_none_iff.mp hj'.symm
    · intro hzero hready
      rcases hexit with ⟨hfail, _⟩ | ⟨_, _, hentry⟩
      · exact absurd hready hfail
      · by_cases hmem : virtPath 0 ∈ pathsTo virtStart m
        · exact Or.inl hmem
        · right
          rw [← hsame 0, hentry (virtPath 0) rfl, if_neg hmem, if_pos rfl, Option.map_some, hframe]
  · rintro ⟨hunmapped, hlast⟩ w
    by_cases hmem : virtPath w ∈ pathsTo virtStart m
    · rcases mem_pathsTo.mp hmem with ⟨j, hj, hjw⟩
      rw [← hjw, hst.unmapped hj, hunmapped j hj]
    · rcases hexit with ⟨_, hentry⟩ | ⟨hzero, hready, hentry⟩
      · rw [hentry _ rfl, if_neg hmem]
      · rw [hentry _ rfl, if_neg hmem]
        by_cases hw : virtPath w = virtPath 0
        · rw [if_pos hw, hw, Option.map_some, hframe]
          rw [hw] at hmem
          exact ((hlast hzero hready).resolve_left hmem).symm
        · rw [if_neg hw]

/-- **A failed call in a state with the invariant.** -/
theorem Stopped.same_translation_iff {pages : Nat} (hm : m < pages)
    (h : PagingInv PmmSource taken st) (hphys : physStart % 4096 = 0) :
    (∀ w, SameTranslation pmmAllocBlock st st' w) ↔
      (∀ j, j < pages → (∀ k, k ≤ j → pageAt virtStart k ≠ 0) →
          Ready pmmAllocBlock (needs st virtStart 0 (j + 1)) st.pmm →
          pagingIsPagePresent pmmAllocBlock st (pageAt virtStart j) = false) ∧
        ∀ z, z < pages → pageAt virtStart z = 0 → (∀ k, k < z → pageAt virtStart k ≠ 0) →
          Ready pmmAllocBlock (needs st virtStart 0 (z + 1)) st.pmm →
          (∃ j, j < z ∧ SamePage (pageAt virtStart j) 0) ∨
            pagingIsPagePresent pmmAllocBlock st 0 = true ∧
              pagingGetPhysicalAddress pmmAllocBlock st 0 = pageAt physStart z := by
  have habsent : ∀ v, pagingIsPagePresent pmmAllocBlock st v = false ↔
      st.entryAt (virtPath v) = none := by
    intro v
    rw [h.isPagePresent_eq, Option.isSome_eq_false_iff, Option.isNone_iff_eq_none]
  have hnull : ∀ z, (virtPath 0 ∈ pathsTo virtStart z ∨
        (st.entryAt (virtPath 0)).map alignPage = some (pageAt physStart z)) ↔
      ((∃ j, j < z ∧ SamePage (pageAt virtStart j) 0) ∨
        pagingIsPagePresent pmmAllocBlock st 0 = true ∧
          pagingGetPhysicalAddress pmmAllocBlock st 0 = pageAt physStart z) := by
    intro z
    have hframe : (st.entryAt (virtPath 0)).map alignPage = some (pageAt physStart z) ↔
        pagingIsPagePresent pmmAllocBlock st 0 = true ∧
          pagingGetPhysicalAddress pmmAllocBlock st 0 = pageAt physStart z :=
      h.frame_eq_some_iff rfl
    rw [mem_pathsTo, hframe]
    simp only [virtPath_eq_iff]
  have hnonzero : ∀ k, k < m → pageAt virtStart k ≠ 0 :=
    fun k hk => hst.nonzero k (Nat.zero_le k) (by omega)
  rcases hst.inv with ⟨taken', hinv⟩
  rw [forall_congr' fun w => h.sameTranslation_iff hinv, hst.frames_iff hphys]
  constructor
  · rintro ⟨hunmapped, hlast⟩
    constructor
    · intro j _ hne hready
      rw [habsent]
      by_cases hj : j < m
      · exact hunmapped j hj
      · rcases hst.not_past (Nat.not_lt.mp hj) (fun k hk => hne k (by omega)) hready with
          ⟨rfl, hzero⟩
        exact absurd hzero (hne j (Nat.le_refl j))
    · intro z _ hzero hne hready
      have hz : m ≤ z := by
        by_contra hlt
        exact hnonzero z (by omega) hzero
      rcases hst.not_past hz hne hready with ⟨rfl, _⟩
      exact (hnull z).mp (hlast hzero hready)
  · rintro ⟨hunmapped, hlast⟩
    constructor
    · intro j hj
      rw [← habsent]
      exact hunmapped j (by omega) (fun k hk => hnonzero k (by omega))
        (hst.ready.mono (needs_mono st virtStart 0 (by omega)))
    · intro hzero hready
      exact (hnull m).mpr (hlast m hm hzero hnonzero hready)

end Loop

/-- **Failed range mapping.**  In every state the kernel reaches, a call of
`vmm_map_range` with page-aligned addresses that returns false leaves every page as
it was, if and only if no page that the call can map was mapped before, and the page
at 0, if the call comes to it, is one of these or was mapped to the same frame. -/
theorem vmm_map_range_rollback_iff (mem : ByteMem) (pmm : PmmState) (hwf : BlockWf pmm)
    (hsmall : pmm.totalBlocks ≤ 2 ^ 35) (hinit : (pmmAllocBlock pmm).1 ≠ 0) (st : VmmState)
    (hrun : ReflTransGen KernelStep (vmmInit (.start mem pmm)) st)
    (physStart virtStart pages flags : Nat) (hphys : physStart % 4096 = 0)
    (hvirt : virtStart % 4096 = 0)
    (hfalse : (vmmMapRange physStart virtStart pages flags st.paging).1 = false) :
    (∀ w, SameTranslation pmmAllocBlock st.paging
        (vmmMapRange physStart virtStart pages flags st.paging).2 w) ↔
      (∀ j, j < pages → (∀ k, k ≤ j → pageAt virtStart k ≠ 0) →
          Ready pmmAllocBlock (needs st.paging virtStart 0 (j + 1)) st.paging.pmm →
          pagingIsPagePresent pmmAllocBlock st.paging (pageAt virtStart j) = false) ∧
        ∀ z, z < pages → pageAt virtStart z = 0 → (∀ k, k < z → pageAt virtStart k ≠ 0) →
          Ready pmmAllocBlock (needs st.paging virtStart 0 (z + 1)) st.paging.pmm →
          (∃ j, j < z ∧ SamePage (pageAt virtStart j) 0) ∨
            pagingIsPagePresent pmmAllocBlock st.paging 0 = true ∧
              pagingGetPhysicalAddress pmmAllocBlock st.paging 0 = pageAt physStart z := by
  have h := (kernel_run hwf hsmall hinit hrun).paging
  have haligned : ¬(isPageAligned physStart = false ∨ isPageAligned virtStart = false) := by
    rw [(isPageAligned_iff physStart).mpr hphys, (isPageAligned_iff virtStart).mpr hvirt]
    decide
  rw [vmmMapRange, if_neg haligned] at hfalse ⊢
  rcases mapRangeLoop_cases hphys pages 0 h with htrue | ⟨_, m, hm, hstopped⟩
  · cases htrue.symm.trans hfalse
  · exact hstopped.same_translation_iff hm h hphys

/-- The second page of the range lacks a table, and the first was not mapped: it is
not mapped after the call. -/
theorem vmm_map_range_rollback_new :
    SameTranslation pmmAllocBlock fiveInit.paging
      (vmmMapRange 0xA000 0x1FF000 2 3 fiveInit.paging).2 0x1FF000 := by
  have hcall : (vmmMapRange 0xA000 0x1FF000 2 3 fiveInit.paging).1 = false ∧
      pagingIsPagePresent pmmAllocBlock fiveInit.paging 0x1FF000 = false ∧
      pagingIsPagePresent pmmAllocBlock fiveInit.paging 0x200000 = false := by
    rw [fiveInit_eq]
    decide +kernel
  have hiff := vmm_map_range_rollback_iff (fun _ => 0) fiveBlocks fiveBlocks_wf (by decide)
    (by decide +kernel) fiveInit .refl 0xA000 0x1FF000 2 3 (by decide) (by decide)
    hcall.1
  refine hiff.mpr ⟨?_, ?_⟩ 0x1FF000
  · intro j hj _ _
    rcases Nat.lt_succ_iff_lt_or_eq.mp hj with hj | rfl
    · rw [Nat.lt_one_iff.mp hj]
      exact hcall.2.1
    · exact hcall.2.2
  · intro z hz hzero
    have hne : pageAt 0x1FF000 z ≠ 0 := by
      unfold pageAt add64 pageSize
      omega
    exact absurd hzero hne

/-- The same call after its first page was mapped: that page is lost. -/
theorem vmm_map_range_loses_page :
    ReflTransGen KernelStep fiveInit (vmmMapPage 0x9000 0x1FF000 3 fiveInit).2 ∧
      pagingIsPagePresent pmmAllocBlock (vmmMapPage 0x9000 0x1FF000 3 fiveInit).2.paging
        0x1FF000 = true ∧
      (vmmMapRange 0xA000 0x1FF000 2 3 (vmmMapPage 0x9000 0x1FF000 3 fiveInit).2.paging).1 =
        false ∧
      pagingIsPagePresent pmmAllocBlock (vmmMapRange 0xA000 0x1FF000 2 3
        (vmmMapPage 0x9000 0x1FF000 3 fiveInit).2.paging).2 0x1FF000 = false := by
  refine ⟨.single (KernelStep.map _ _ _ _), ?_⟩
  rw [fiveInit_eq]
  decide +kernel

end FarouKernel.Ports.KernelVmm
