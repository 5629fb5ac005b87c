import FarouKernel.Ports.PagingRuns

/-!
# The rights of a page

The processor grants a right on a page only if the entries of all four levels do.
`paging_map_page` gives the flags of the call to the entry of the page and to the
entries of the tables it creates, and leaves those of the tables it finds.  So the
page has the rights that were asked for exactly if the tables on its path, as far
as they are there already, grant them.
-/

namespace FarouKernel.Ports.Paging

open Relation Verified Radix PageTables

/-- The rights that entries grant. -/
inductive Right where
  | writable
  | user

/-- The flag of an entry that grants the right. -/
def Right.flag : Right → Nat
  | .writable => pageWritable
  | .user => pageUser

section

variable {σ : Type}

/-- The right the processor derives for the page of `v`: every entry on the path
grants it.  Bit 7 (`PAGE_HUGE`), with which an entry above the last level would map a
large page and end the path, is not considered. -/
def PagingState.Effective (st : PagingState σ) (right : Right) (v : Nat) : Prop :=
  ∀ q, q ≠ [] → q <+: virtPath v → ∃ e, st.entryAt q = some e ∧ e &&& right.flag ≠ 0

/-- The page of `v` has the rights of the flags, and the other pages that were
mapped have the rights they had. -/
structure RightsAsRequested (st st' : PagingState σ) (v flags : Nat) : Prop where
  page : ∀ right, st'.Effective right v ↔ flags &&& right.flag ≠ 0
  others : ∀ w, ¬SamePage w v → st.entryAt (virtPath w) ≠ none →
    ∀ right, st'.Effective right w ↔ st.Effective right w

/-- The tables that are on the path of `v` grant the rights of the flags. -/
def PagingState.PathGrants (st : PagingState σ) (v flags : Nat) : Prop :=
  ∀ q, q ≠ [] → q <+: tablePath v → ∀ e, st.entryAt q = some e →
    ∀ right : Right, flags &&& right.flag ≠ 0 → e &&& right.flag ≠ 0

/-- An entry grants the rights of the flags it was made with. -/
theorem entryFor_and_flag (addr flags : Nat) (right : Right) :
    entryFor addr flags &&& right.flag = flags &&& right.flag := by
  have hmask : pageMask &&& right.flag = 0 := by cases right <;> decide
  have hflags : pageFlagsMask &&& right.flag = right.flag := by cases right <;> decide
  have hpresent : pagePresent &&& right.flag = 0 := by cases right <;> decide
  rw [entryFor, alignPage, Nat.and_or_distrib_right, Nat.and_or_distrib_right, Nat.and_assoc,
    Nat.and_assoc, hmask, hflags, hpresent, Nat.and_zero, Nat.or_zero, Nat.zero_or]

/-- An entry on the path of a page is that of the page or leads to a table. -/
theorem prefix_virtPath_iff {q : List (Fin 512)} {v : Nat} :
    q <+: virtPath v ↔ q = virtPath v ∨ q <+: tablePath v := by
  rw [virtPath_eq]
  exact List.prefix_concat_iff

variable {pmmAllocBlock : σ → Nat × σ} {Inv : σ → (Nat → Prop) → Prop}
  {taken taken' : Nat → Prop} {st st' : PagingState σ} {p v flags : Nat}

/-- The rights of the other pages. -/
theorem Mapped.effective_others (h : Mapped pmmAllocBlock Inv taken st taken' st' p v flags)
    {w : Nat} (hw : ¬SamePage w v) (hmapped : st.entryAt (virtPath w) ≠ none) (right : Right) :
    st'.Effective right w ↔ st.Effective right w := by
  have hsame : ∀ q, q ≠ [] → q <+: virtPath w → st'.entryAt q = st.entryAt q := by
    intro q hq hpre
    have hlen : q.length ≤ 4 := hpre.length_le
    apply h.old q hlen
    · rintro rfl
      -- a path of full length is that of `w`
      have hfull : virtPath v = virtPath w := hpre.eq_of_length rfl
      exact hw (virtPath_eq_iff.mp hfull.symm)
    · right
      exact walk_of_prefix hq hpre hmapped
  constructor
  · intro heffective q hq hpre
    rw [← hsame q hq hpre]
    exact heffective q hq hpre
  · intro heffective q hq hpre
    rw [hsame q hq hpre]
    exact heffective q hq hpre

/-- **The rights of a page that was just mapped.** -/
theorem Mapped.rights_iff (h : Mapped pmmAllocBlock Inv taken st taken' st' p v flags) :
    RightsAsRequested st st' v flags ↔ st.PathGrants v flags := by
  have hkept : ∀ q, q ≠ [] → q <+: tablePath v → ∀ e, st.entryAt q = some e →
      st'.entryAt q = some e := by
    intro q hq hpre e he
    have hlen : q.length ≤ 3 := hpre.length_le
    rw [← he]
    apply h.old q (by omega)
    · rintro rfl
      exact absurd hlen (by simp [virtPath])
    · rw [he]
      exact Or.inr (Option.some_ne_none e)
  constructor
  · intro hrights q hq hpre e he right hflag
    rcases (hrights.page right).mpr hflag q hq (prefix_virtPath_iff.mpr (Or.inr hpre)) with
      ⟨e', he', hgrants⟩
    rw [hkept q hq hpre e he] at he'
    cases he'
    exact hgrants
  · intro hpath
    refine ⟨?_, fun w hw hmapped right => h.effective_others hw hmapped right⟩
    intro right
    constructor
    · intro heffective
      rcases heffective (virtPath v) (by simp [virtPath]) List.prefix_rfl with ⟨e, he, hgrants⟩
      cases h.page.symm.trans he
      rwa [entryFor_and_flag] at hgrants
    · intro hflag q hq hpre
      rcases prefix_virtPath_iff.mp hpre with rfl | hpre
      · exact ⟨_, h.page, by rwa [entryFor_and_flag]⟩
      · cases he : st.entryAt q with
        | none =>
          rcases h.fill q hq hpre he with ⟨b, hb⟩
          exact ⟨_, hb, by rwa [entryFor_and_flag]⟩
        | some e => exact ⟨e, hkept q hq hpre e he, hpath q hq hpre e he right hflag⟩

end

/-- **The rights that were asked for.**  After any run, a call of `paging_map_page`
that does not return `NULL` gives its page exactly the rights of its flags, and
leaves those of the other pages, if and only if the tables that are already on the
path of the page grant the rights of the flags. -/
theorem paging_rights_iff (results : Nat → Nat) (pml4 : Nat) (mem : ByteMem)
    (hfresh : FreshResults results pml4) (halign : pml4 % 4096 = 0) (hlow : Low pml4)
    (hzero : ∀ x, InPage pml4 x → mem x = 0) (st : PagingState Nat)
    (hrun : ReflTransGen (PagingStep results) ⟨mem, pml4, 0⟩ st) (p v flags : Nat)
    (hsome : (pagingMapPage (nextResult results) p v flags st).1 ≠ 0) :
    RightsAsRequested st (pagingMapPage (nextResult results) p v flags st).2 v flags ↔
      st.PathGrants v flags := by
  rcases pagingInv_run hfresh halign hlow hzero hrun with ⟨taken, h⟩
  have hp : p % 4096 = 0 := by
    by_contra hp
    rw [pagingMapPage, and_not_pageMask, if_pos hp] at hsome
    exact hsome rfl
  rcases h.map_cases hfresh.supplies v flags hp with ⟨_, hnull, _⟩ | ⟨_, _, taken', hmapped⟩
  · exact absurd hnull hsome
  · exact hmapped.rights_iff

/-- Two pages of the same tables. -/
theorem paging_rights_second :
    RightsAsRequested (pagingMapPage (nextResult threeBlocks) 0x9000 0x1000 3 emptyTables).2
      (pagingMapPage (nextResult threeBlocks) 0xA000 0x2000 3
        (pagingMapPage (nextResult threeBlocks) 0x9000 0x1000 3 emptyTables).2).2 0x2000 3 := by
  have hrights := paging_rights_iff threeBlocks 4096 (fun _ => 0) threeBlocks_fresh (by decide)
    (by unfold Low; decide) fun _ _ => rfl
  have hfirst : RightsAsRequested emptyTables
      (pagingMapPage (nextResult threeBlocks) 0x9000 0x1000 3 emptyTables).2 0x1000 3 := by
    apply (hrights emptyTables .refl 0x9000 0x1000 3
      (by rw [emptyTables_map _ _ rfl]; decide)).mpr
    intro q _ _ e he
    have hnone : emptyTables.entryAt q = none :=
      (tree_zero alignPage 4 (by decide) fun _ _ => rfl).2 q
    cases hnone.symm.trans he
  have hrun : ReflTransGen (PagingStep threeBlocks) emptyTables
      (pagingMapPage (nextResult threeBlocks) 0x9000 0x1000 3 emptyTables).2 :=
    .single (PagingStep.map _ _ _ _ (by decide))
  apply (hrights _ hrun 0xA000 0x2000 3 (by rw [emptyTables_map _ _ rfl]; decide +kernel)).mpr
  -- the tables are those of the first page
  have htables : tablePath 0x2000 = tablePath 0x1000 := by decide
  intro q hq hpre e he right hflag
  obtain ⟨e', he', hgrants⟩ := (hfirst.page right).mpr hflag q hq
    (prefix_virtPath_iff.mpr (Or.inr (htables ▸ hpre)))
  cases he.symm.trans he'
  exact hgrants

/-- A page is mapped without the right to write; the next page, in the same tables,
is mapped with it and is not writable. -/
theorem paging_rights_lost :
    ReflTransGen (PagingStep threeBlocks) emptyTables
        (pagingMapPage (nextResult threeBlocks) 0x9000 0x1000 1 emptyTables).2 ∧
      (pagingMapPage (nextResult threeBlocks) 0xA000 0x2000 3
        (pagingMapPage (nextResult threeBlocks) 0x9000 0x1000 1 emptyTables).2).1 ≠ 0 ∧
      3 &&& Right.writable.flag ≠ 0 ∧
      ¬(pagingMapPage (nextResult threeBlocks) 0xA000 0x2000 3
        (pagingMapPage (nextResult threeBlocks) 0x9000 0x1000 1 emptyTables).2).2.Effective
          .writable 0x2000 := by
  have hcall : (pagingMapPage (nextResult threeBlocks) 0xA000 0x2000 3
        (pagingMapPage (nextResult threeBlocks) 0x9000 0x1000 1 emptyTables).2).1 ≠ 0 ∧
      (pagingMapPage (nextResult threeBlocks) 0xA000 0x2000 3
        (pagingMapPage (nextResult threeBlocks) 0x9000 0x1000 1 emptyTables).2).2.entryAt
          [indexAt 39 0x2000] = some 0x2001 := by
    rw [emptyTables_map _ _ rfl]
    decide +kernel
  refine ⟨.single (PagingStep.map _ _ _ _ (by decide)), hcall.1, by decide, ?_⟩
  intro heffective
  rcases heffective [indexAt 39 0x2000] (by simp) (List.prefix_append _ _) with ⟨e, he, hgrants⟩
  cases hcall.2.symm.trans he
  exact hgrants (by decide)

end FarouKernel.Ports.Paging
