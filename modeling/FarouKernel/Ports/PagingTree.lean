import FarouKernel.Ports.PagingModel
import FarouKernel.Verified.PageTables

/-!
# The page tables as a tree

What the functions of `paging.c` do to the tree of tables.  `Supplies` is all
that is asked of the block allocator: a block it returns is none of those taken
so far.  `PagingInv` is the invariant, for a set of taken blocks that contains
the tables.

A lookup that may not create a table reads the tree (`lastTable_lookup`).  One
that may, creates the missing tables on the path and changes no page
(`descend_create`); mapping and unmapping then set one entry of the tree.
-/

namespace FarouKernel.Ports.Paging

open Verified ByteMem Radix PageTables

variable {σ : Type} {pmmAllocBlock : σ → Nat × σ}

/-! ## Words and pointers -/

variable {v b w flags p x e : Nat} {s pmm : σ} {taken' : Nat → Prop} {st' st1 : PagingState σ}
  {m : ByteMem}

theorem alignPage_eq (hx : x < 2 ^ 64) : alignPage x = x / 4096 * 4096 := by
  have hmask : pageMask = not64 (2 ^ 12 - 1) := by decide
  exact (hmask ▸ and_not64_lowMask hx (by decide) : x &&& pageMask = _)

/-- The entry for a new table or page. -/
def entryFor (addr flags : Nat) : Nat := alignPage addr ||| flags &&& pageFlagsMask ||| pagePresent

/-- The address field of an entry. -/
theorem alignPage_entryFor (hx : x < 2 ^ 64) (halign : x % 4096 = 0) (flags : Nat) :
    alignPage (entryFor x flags) = x := by
  have hflags : pageFlagsMask &&& pageMask = 0 := by decide
  have hpresent : pagePresent &&& pageMask = 0 := by decide
  have hself : alignPage x = x := by
    rw [alignPage_eq hx]
    omega
  rw [entryFor, alignPage, Nat.and_or_distrib_right, Nat.and_or_distrib_right, Nat.and_assoc,
    hflags, hpresent, Nat.and_zero, Nat.or_zero, Nat.or_zero, hself]
  exact hself

theorem entryFor_lt (x flags : Nat) : entryFor x flags < 2 ^ 64 := by
  have haddr : alignPage x < 2 ^ 64 := Nat.lt_of_le_of_lt Nat.and_le_right (by decide)
  have hflags : flags &&& pageFlagsMask < 2 ^ 64 :=
    Nat.lt_of_le_of_lt Nat.and_le_right (by decide)
  exact Nat.or_lt_two_pow (Nat.or_lt_two_pow haddr hflags) (by decide)

theorem pagePresent_eq : pagePresent = 1 := by decide

theorem present_entryFor (addr flags : Nat) :
    present (entryFor addr flags) = some (entryFor addr flags) := by
  rw [entryFor, pagePresent_eq]
  exact present_or_one _

theorem and_not_pageMask (x : Nat) : x &&& not64 pageMask = x % 4096 := by
  have hmask : not64 pageMask = 2 ^ 12 - 1 := by decide
  rw [hmask, Nat.and_two_pow_sub_one_eq_mod]

/-- The pointer gives access to the table at `n`. -/
def Points (ptr n : Nat) : Prop := ∀ i : Fin 512, cellOf (ptr + 8 * i) = n + 8 * i

/-- The table lies in the memory both views show. -/
def Low (n : Nat) : Prop := n + 4096 ≤ 2 ^ 47

theorem points_low {n : Nat} (h : Low n) : Points n n := by
  intro i
  have hi := i.isLt
  unfold Low at h
  rw [cellOf, if_neg]
  unfold kernelVirtualBase
  omega

theorem high_eq {n : Nat} (h : Low n) : add64 n kernelVirtualBase = n + kernelVirtualBase := by
  unfold Low at h
  apply add64_of_lt
  unfold kernelVirtualBase
  omega

theorem points_high {n : Nat} (h : Low n) : Points (add64 n kernelVirtualBase) n := by
  intro i
  rw [high_eq h, cellOf, if_pos (by omega)]
  omega

theorem high_ne_zero {n : Nat} (h : Low n) : add64 n kernelVirtualBase ≠ 0 := by
  rw [high_eq h]
  unfold kernelVirtualBase
  omega

/-! ## What the functions leave -/

section Keeps

theorem PagingState.setEntry_pml4 (st : PagingState σ) (table index value : Nat) :
    (st.setEntry table index value).pml4 = st.pml4 := rfl

theorem PagingState.setEntry_pmm (st : PagingState σ) (table index value : Nat) :
    (st.setEntry table index value).pmm = st.pmm := rfl

theorem PagingState.clearEntries_pml4 (st : PagingState σ) (table k : Nat) :
    (st.clearEntries table k).pml4 = st.pml4 := by
  induction k with
  | zero => rfl
  | succ k ih => exact ih

theorem PagingState.clearEntries_pmm (st : PagingState σ) (table k : Nat) :
    (st.clearEntries table k).pmm = st.pmm := by
  induction k with
  | zero => rfl
  | succ k ih => exact ih

-- a property of the top table and the allocator that each allocation keeps
variable {P : Nat → σ → Prop} (halloc : ∀ root s, P root s → P root (pmmAllocBlock s).2)
  {st : PagingState σ}

include halloc

theorem getNextLevel_keeps (table index : Nat) (create : Bool) (flags : Nat)
    (h : P st.pml4 st.pmm) :
    P (getNextLevel pmmAllocBlock table index create flags st).2.pml4
      (getNextLevel pmmAllocBlock table index create flags st).2.pmm := by
  rw [getNextLevel]
  split
  · split
    · exact h
    · dsimp only
      split
      · exact halloc _ _ h
      · rw [PagingState.setEntry_pml4, PagingState.setEntry_pmm, PagingState.clearEntries_pml4,
          PagingState.clearEntries_pmm]
        exact halloc _ _ h
  · exact h

theorem lastTable_keeps (create : Bool) (flags v : Nat) (h : P st.pml4 st.pmm) :
    P (lastTable pmmAllocBlock create flags v st).2.pml4
      (lastTable pmmAllocBlock create flags v st).2.pmm := by
  have hpdpt := getNextLevel_keeps halloc st.pml4 (pml4Index v) create flags h
  rw [lastTable]
  dsimp only
  split
  · exact hpdpt
  · have hpd := getNextLevel_keeps halloc
      (getNextLevel pmmAllocBlock st.pml4 (pml4Index v) create flags st).1 (pdptIndex v) create
      flags hpdpt
    split
    · exact hpd
    · exact getNextLevel_keeps halloc _ _ _ _ hpd

theorem pagingMapPage_keeps (p v flags : Nat) (h : P st.pml4 st.pmm) :
    P (pagingMapPage pmmAllocBlock p v flags st).2.pml4
      (pagingMapPage pmmAllocBlock p v flags st).2.pmm := by
  have hpt := lastTable_keeps halloc true flags v h
  rw [pagingMapPage]
  split
  · exact h
  · dsimp only
    split <;> exact hpt

theorem pagingUnmapPage_keeps (v : Nat) (h : P st.pml4 st.pmm) :
    P (pagingUnmapPage pmmAllocBlock v st).pml4 (pagingUnmapPage pmmAllocBlock v st).pmm := by
  have hpt := lastTable_keeps halloc false 0 v h
  rw [pagingUnmapPage]
  split <;> exact hpt

end Keeps

/-! ## The invariant -/

/-- A block returned is new, page-aligned and in the memory both views show. -/
structure Supplies (pmmAllocBlock : σ → Nat × σ) (Inv : σ → (Nat → Prop) → Prop) : Prop where
  supply : ∀ s taken, Inv s taken →
    ((pmmAllocBlock s).1 = 0 ∧ Inv (pmmAllocBlock s).2 taken) ∨
      ((pmmAllocBlock s).1 ≠ 0 ∧ (pmmAllocBlock s).1 % 4096 = 0 ∧ Low (pmmAllocBlock s).1 ∧
        ¬taken (pmmAllocBlock s).1 ∧
        Inv (pmmAllocBlock s).2 fun x => taken x ∨ x = (pmmAllocBlock s).1)

/-- The next `k` calls of the allocator return a block. -/
def Ready (pmmAllocBlock : σ → Nat × σ) : Nat → σ → Prop
  | 0, _ => True
  | k + 1, s => (pmmAllocBlock s).1 ≠ 0 ∧ Ready pmmAllocBlock k (pmmAllocBlock s).2

/-- The allocator after `k` calls. -/
def drawn (pmmAllocBlock : σ → Nat × σ) : Nat → σ → σ
  | 0, s => s
  | k + 1, s => drawn pmmAllocBlock k (pmmAllocBlock s).2

theorem ready_add (j k : Nat) (s : σ) :
    Ready pmmAllocBlock (j + k) s ↔
      Ready pmmAllocBlock j s ∧ Ready pmmAllocBlock k (drawn pmmAllocBlock j s) := by
  induction j generalizing s with
  | zero => rw [Nat.zero_add, Ready, drawn, true_and]
  | succ j ih => rw [Nat.succ_add, Ready, Ready, drawn, ih, and_assoc]

theorem drawn_add (j k : Nat) (s : σ) :
    drawn pmmAllocBlock (j + k) s = drawn pmmAllocBlock k (drawn pmmAllocBlock j s) := by
  induction j generalizing s with
  | zero => rw [Nat.zero_add, drawn]
  | succ j ih => rw [Nat.succ_add, drawn, drawn, ih]

theorem drawn_succ (k : Nat) (s : σ) :
    drawn pmmAllocBlock (k + 1) s = (pmmAllocBlock (drawn pmmAllocBlock k s)).2 := by
  rw [drawn_add]
  rfl

theorem Ready.mono {j k : Nat} (h : Ready pmmAllocBlock k s) (hle : j ≤ k) :
    Ready pmmAllocBlock j s := by
  rw [← Nat.add_sub_cancel' hle, ready_add] at h
  exact h.1

theorem not_ready_of_null {k : Nat} (hnull : (pmmAllocBlock s).1 = 0) :
    ¬Ready pmmAllocBlock (k + 1) s := fun h => h.1 hnull

/-- The table at the end of a path. -/
def PagingState.tableAt (st : PagingState σ) (q : List (Fin 512)) : Option Nat :=
  reach alignPage (entries st.mem) st.pml4 q

/-- The entry a path selects. -/
def PagingState.entryAt (st : PagingState σ) (q : List (Fin 512)) : Option Nat :=
  walk alignPage (entries st.mem) st.pml4 q

/-- The page holds a table. -/
def PagingState.IsTable (st : PagingState σ) (n : Nat) : Prop :=
  PageTables.IsTable alignPage 4 st.pml4 st.mem n

/-- The invariant of the page tables over an allocator with the invariant `Inv`; `taken`
are blocks that are in use, and the tables are among them. -/
structure PagingInv (Inv : σ → (Nat → Prop) → Prop) (taken : Nat → Prop) (st : PagingState σ) :
    Prop where
  source : Inv st.pmm taken
  tree : Tree alignPage 4 st.pml4 st.mem
  low : ∀ n, st.IsTable n → Low n
  tables : ∀ n, st.IsTable n → taken n
  /-- An entry that is not present is 0. -/
  blank : ∀ n, st.IsTable n → ∀ i : Fin 512, entries st.mem n i = none →
    read64 st.mem (n + 8 * i) = 0

variable {Inv : σ → (Nat → Prop) → Prop} {taken : Nat → Prop} {st : PagingState σ}
  {q : List (Fin 512)} {i : Fin 512} {n table : Nat}

theorem PagingState.isTable_of_tableAt (hq : q.length < 4) (hn : st.tableAt q = some n) :
    st.IsTable n := ⟨q, hq, hn⟩

theorem PagingInv.low_at (h : PagingInv Inv taken st) (hq : q.length < 4)
    (hn : st.tableAt q = some n) : Low n := h.low n ⟨q, hq, hn⟩

theorem PagingState.tableAt_of_entryAt {a : Nat} (h : st.entryAt q = some a) :
    st.tableAt q = some (alignPage a) := reach_of_walk h

theorem PagingState.entryAt_concat (hn : st.tableAt q = some n) :
    st.entryAt (q ++ [i]) = entries st.mem n i := by
  have hreach : reach alignPage (entries st.mem) st.pml4 q = some n := hn
  rw [entryAt, walk_concat, hreach]
  rfl

theorem PagingState.entry_eq (hptr : Points table n) :
    st.entry table i = read64 st.mem (n + 8 * i) := by
  rw [entry, hptr i]

/-- A cleared top table without further tables. -/
theorem pagingInv_zero {mem : ByteMem} {pml4 : Nat} (halign : pml4 % 4096 = 0) (hlow : Low pml4)
    (hzero : ∀ x, InPage pml4 x → mem x = 0) (hsource : Inv pmm fun x => x = pml4) :
    PagingInv Inv (fun x => x = pml4) ⟨mem, pml4, pmm⟩ := by
  rcases tree_zero alignPage 4 halign hzero with ⟨htree, hnone⟩
  have honly : ∀ n, (⟨mem, pml4, pmm⟩ : PagingState σ).IsTable n → n = pml4 := by
    rintro n ⟨q, _, hn⟩
    by_cases hq : q = []
    · subst hq
      exact (Option.some.inj hn).symm
    · rw [reach_eq_map_walk hq] at hn
      rw [show walk alignPage (entries mem) pml4 q = none from hnone q] at hn
      cases hn
  refine ⟨hsource, htree, ?_, honly, ?_⟩
  · intro n hn
    rw [honly n hn]
    exact hlow
  · intro n hn i _
    rw [honly n hn]
    exact read64_entry_zero hzero i

/-! ## Lookups -/

/-- `get_next_level` without `create` reads one entry. -/
theorem getNextLevel_lookup (hptr : Points table n) (flags : Nat) :
    getNextLevel pmmAllocBlock table i false flags st =
      ((match entries st.mem n i with
        | none => 0
        | some a => add64 (alignPage a) kernelVirtualBase), st) := by
  rw [getNextLevel, PagingState.entry_eq hptr, pagePresent_eq]
  cases hentry : entries st.mem n i with
  | none => rw [if_pos (present_eq_none.mp hentry), if_pos rfl]
  | some a =>
    rcases present_eq_some hentry with ⟨rfl, hne⟩
    rw [if_neg hne]

/-- The path to the table of a page. -/
def tablePath (v : Nat) : List (Fin 512) := [indexAt 39 v, indexAt 30 v, indexAt 21 v]

theorem virtPath_eq (v : Nat) : virtPath v = tablePath v ++ [indexAt 12 v] := rfl

/-- A page without a table is not mapped. -/
theorem PagingState.entryAt_of_no_table (hn : st.tableAt (tablePath v) = none) :
    st.entryAt (tablePath v ++ [indexAt 12 v]) = none := by
  have hreach : reach alignPage (entries st.mem) st.pml4 (tablePath v) = none := hn
  rw [PagingState.entryAt, walk_concat, hreach]
  rfl

/-- The lookups of a path, one after the other; 0 as soon as one gives `NULL`. -/
def descend (pmmAllocBlock : σ → Nat × σ) (create : Bool) (flags : Nat) :
    List (Fin 512) → Nat → PagingState σ → Nat × PagingState σ
  | [], table, st => (table, st)
  | i :: rest, table, st =>
    let r := getNextLevel pmmAllocBlock table i create flags st
    if r.1 = 0 then r else descend pmmAllocBlock create flags rest r.1 r.2

theorem lastTable_eq_descend (create : Bool) (flags v : Nat) (st : PagingState σ) :
    lastTable pmmAllocBlock create flags v st =
      descend pmmAllocBlock create flags (tablePath v) st.pml4 st := by
  have hlast : ∀ (i : Fin 512) (table : Nat) (st : PagingState σ),
      descend pmmAllocBlock create flags [i] table st =
        getNextLevel pmmAllocBlock table i create flags st := by
    intro i table st
    rw [descend]
    exact ite_self _
  rw [lastTable, tablePath, descend, descend, hlast]
  rfl

theorem PagingState.tableAt_concat (hn : st.tableAt q = some n) :
    st.tableAt (q ++ [i]) = (entries st.mem n i).map alignPage := by
  rw [PagingState.tableAt, reach_eq_map_walk (by simp), ← PagingState.entryAt_concat hn]
  rfl

theorem PagingState.tableAt_append_of_none (hn : st.tableAt q = none) (r : List (Fin 512)) :
    st.tableAt (q ++ r) = none := by
  rw [PagingState.tableAt, reach_append]
  exact congrArg (Option.bind · _) hn

section

variable (h : PagingInv Inv taken st)

include h

/-- **The lookups follow the tree.** -/
theorem PagingInv.descend_lookup (flags : Nat) (i : Fin 512) (rest : List (Fin 512))
    (hlen : q.length + rest.length + 1 < 4) (hn : st.tableAt q = some n) (hptr : Points table n) :
    descend pmmAllocBlock false flags (i :: rest) table st =
      ((match st.tableAt (q ++ i :: rest) with
        | none => 0
        | some n => add64 n kernelVirtualBase), st) := by
  induction rest generalizing q i n table with
  | nil =>
    rw [descend, getNextLevel_lookup hptr, PagingState.tableAt_concat hn]
    cases entries st.mem n i with
    | none => rfl
    | some a => exact ite_self _
  | cons j rest ih =>
    rw [List.length_cons] at hlen
    have hassoc : q ++ i :: j :: rest = q ++ [i] ++ j :: rest := by simp
    have hnext := PagingState.tableAt_concat (i := i) hn
    rw [descend, getNextLevel_lookup hptr, hassoc]
    cases ha : entries st.mem n i with
    | none =>
      rw [ha] at hnext
      rw [PagingState.tableAt_append_of_none hnext]
      rfl
    | some a =>
      rw [ha] at hnext
      have hlow := h.low_at (by simp; omega) hnext
      simp only [if_neg (high_ne_zero hlow)]
      exact ih j (by simp; omega) hnext (points_high hlow)

theorem PagingInv.lastTable_lookup (flags v : Nat) :
    lastTable pmmAllocBlock false flags v st =
      ((match st.tableAt (tablePath v) with
        | none => 0
        | some n => add64 n kernelVirtualBase), st) := by
  have hroot : st.tableAt [] = some st.pml4 := rfl
  have hlow := h.low_at (by decide) hroot
  rw [lastTable_eq_descend]
  exact h.descend_lookup flags _ _ (by simp) hroot (points_low hlow)

/-- `paging_is_page_present` is a walk of the tree. -/
theorem PagingInv.isPagePresent_eq (v : Nat) :
    pagingIsPagePresent pmmAllocBlock st v = (st.entryAt (virtPath v)).isSome := by
  rw [pagingIsPagePresent, h.lastTable_lookup, virtPath_eq]
  cases hn : st.tableAt (tablePath v) with
  | none =>
    rw [PagingState.entryAt_of_no_table hn]
    rfl
  | some n =>
    have hlow := h.low_at (by simp [tablePath]) hn
    simp only [if_neg (high_ne_zero hlow)]
    rw [show ptIndex v = (indexAt 12 v : Nat) from rfl,
      PagingState.entry_eq (points_high hlow), PagingState.entryAt_concat hn, pagePresent_eq]
    unfold entries present
    split <;> simp_all

/-- `paging_get_physical_address` of a page that is present. -/
theorem PagingInv.getPhysicalAddress_present (he : st.entryAt (virtPath v) = some e) :
    pagingGetPhysicalAddress pmmAllocBlock st v = alignPage e ||| v % 4096 := by
  rw [pagingGetPhysicalAddress, h.lastTable_lookup, and_not_pageMask]
  rw [virtPath_eq] at he
  cases hn : st.tableAt (tablePath v) with
  | none =>
    rw [PagingState.entryAt_of_no_table hn] at he
    cases he
  | some n =>
    have hlow := h.low_at (by simp [tablePath]) hn
    rw [PagingState.entryAt_concat hn] at he
    simp only [if_neg (high_ne_zero hlow)]
    rw [show ptIndex v = (indexAt 12 v : Nat) from rfl, PagingState.entry_eq (points_high hlow),
      (present_eq_some he).1]

/-- `paging_get_physical_address` of a page that is not present: 0 without a table,
and otherwise the offset in the page. -/
theorem PagingInv.getPhysicalAddress_unmapped (hnone : st.entryAt (virtPath v) = none) :
    pagingGetPhysicalAddress pmmAllocBlock st v =
      if st.tableAt (tablePath v) = none then 0 else v % 4096 := by
  rw [pagingGetPhysicalAddress, h.lastTable_lookup, and_not_pageMask]
  rw [virtPath_eq] at hnone
  cases hn : st.tableAt (tablePath v) with
  | none => rfl
  | some n =>
    have htable := PagingState.isTable_of_tableAt (by simp [tablePath]) hn
    rw [PagingState.entryAt_concat hn] at hnone
    simp only [if_neg (high_ne_zero (h.low n htable))]
    rw [show ptIndex v = (indexAt 12 v : Nat) from rfl,
      PagingState.entry_eq (points_high (h.low n htable)), h.blank n htable _ hnone,
      if_neg (Option.some_ne_none n)]
    exact Nat.zero_or _

/-- The address of a page that is not present is 0. -/
theorem PagingInv.getPhysicalAddress_absent (hv : v % 4096 = 0)
    (hnone : st.entryAt (virtPath v) = none) : pagingGetPhysicalAddress pmmAllocBlock st v = 0 := by
  rw [h.getPhysicalAddress_unmapped hnone, hv, ite_self]

end

/-! ## Creating tables -/

/-- `st'` has the pages of `st` and possibly more tables. -/
structure Grown (Inv : σ → (Nat → Prop) → Prop) (taken : Nat → Prop) (st : PagingState σ)
    (taken' : Nat → Prop) (st' : PagingState σ) : Prop where
  inv : PagingInv Inv taken' st'
  more : ∀ x, taken x → taken' x
  /-- A new table was not in use. -/
  fresh : ∀ n, st'.IsTable n → st.IsTable n ∨ ¬taken n
  root : st'.pml4 = st.pml4
  pages : ∀ r, r.length = 4 → st'.entryAt r = st.entryAt r
  kept : ∀ r n, r.length < 4 → st.tableAt r = some n → st'.tableAt r = some n

theorem Grown.refl (h : PagingInv Inv taken st) : Grown Inv taken st taken st :=
  ⟨h, fun _ hx => hx, fun _ hn => Or.inl hn, rfl, fun _ _ => rfl, fun _ _ _ hn => hn⟩

theorem Grown.trans {taken'' : Nat → Prop} {st'' : PagingState σ}
    (h : Grown Inv taken st taken' st') (h' : Grown Inv taken' st' taken'' st'') :
    Grown Inv taken st taken'' st'' where
  inv := h'.inv
  more x hx := h'.more x (h.more x hx)
  fresh n hn := by
    rcases h'.fresh n hn with hn | hnew
    · exact h.fresh n hn
    · exact Or.inr fun hn' => hnew (h.more n hn')
  root := h'.root.trans h.root
  pages r hr := (h'.pages r hr).trans (h.pages r hr)
  kept r n hr hn := h'.kept r n hr (h.kept r n hr hn)

/-- The invariant does not depend on the allocator's state beyond `Inv`. -/
theorem PagingInv.withPmm (h : PagingInv Inv taken st) (hsource : Inv pmm taken')
    (hmore : ∀ x, taken x → taken' x) : PagingInv Inv taken' { st with pmm := pmm } :=
  ⟨hsource, h.tree, h.low, fun n hn => hmore n (h.tables n hn), h.blank⟩

/-- The invariant depends on the pages of the tables only. -/
theorem PagingInv.withMem (h : PagingInv Inv taken st) {mem : ByteMem}
    (hmem : ∀ n, st.IsTable n → ∀ x, InPage n x → mem x = st.mem x) :
    PagingInv Inv taken { st with mem := mem } ∧
      (∀ n, PagingState.IsTable { st with mem := mem } n ↔ st.IsTable n) ∧
      ∀ r, r.length ≤ 4 → PagingState.entryAt { st with mem := mem } r = st.entryAt r := by
  rcases h.tree.of_agree hmem with ⟨htree, htables, hwalk⟩
  refine ⟨⟨h.source, htree, fun n hn => h.low n ((htables n).mp hn),
    fun n hn => h.tables n ((htables n).mp hn), ?_⟩, htables, hwalk⟩
  intro n hn i hnone
  have hread := read64_entry_congr (hmem n ((htables n).mp hn)) i
  rw [entries, hread] at hnone
  rw [hread]
  exact h.blank n ((htables n).mp hn) i hnone

/-- Clearing a table through its own address. -/
theorem clearEntries_eq (st : PagingState σ) (hlow : Low b) (k : Nat) (hk : k ≤ 512) :
    ∃ m, st.clearEntries b k = { st with mem := m } ∧
      ∀ x, m x = if b ≤ x ∧ x < b + 8 * k then 0 else st.mem x := by
  induction k with
  | zero =>
    refine ⟨st.mem, rfl, ?_⟩
    intro x
    rw [if_neg (by omega)]
  | succ k ih =>
    rcases ih (by omega) with ⟨m, hst, hm⟩
    have hcell : cellOf (b + 8 * k) = b + 8 * k := points_low hlow ⟨k, by omega⟩
    refine ⟨write64 m (b + 8 * k) 0, ?_, ?_⟩
    · rw [PagingState.clearEntries, hst, PagingState.setEntry, hcell]
    · intro x
      by_cases hx : b + 8 * k ≤ x ∧ x < b + 8 * k + 8
      · rw [write64, writeLE, if_pos hx, if_pos (by omega)]
        simp
      · have hiff : (b ≤ x ∧ x < b + 8 * k) ↔ (b ≤ x ∧ x < b + 8 * (k + 1)) := by omega
        rw [write64_apply_of_outside (by omega), hm x, if_congr hiff rfl rfl]

/-- After a store of an entry, absent entries are still zero. -/
theorem PagingInv.blank_stored (h : PagingInv Inv taken st) (hq : q.length < 4)
    (hn : st.tableAt q = some n) (hv : v < 2 ^ 64)
    (hm : ∀ t, st.IsTable t → ∀ x, InPage t x → m x = write64 st.mem (n + 8 * i) v x)
    (hblank : present v = none → v = 0) {t : Nat} (ht : st.IsTable t) {j : Fin 512}
    (hj : entries m t j = none) : read64 m (t + 8 * j) = 0 := by
  have hread := h.tree.read64_set hq hn hv hm ht j
  rw [entries, hread] at hj
  rw [hread]
  by_cases hcell : t = n ∧ j = i
  · rw [if_pos hcell] at hj ⊢
    exact hblank hj
  · rw [if_neg hcell] at hj ⊢
    exact h.blank t ht j hj

/-- The invariant for a new memory with one more table. -/
theorem PagingInv.linked (h : PagingInv Inv taken st) (hq : q.length + 1 < 4)
    (hn : st.tableAt q = some n) (hnone : entries st.mem n i = none) (hv : v < 2 ^ 64)
    (hpresent : present v = some v) (hnext : alignPage v = b) (halign : b % 4096 = 0) (hlow : Low b)
    (hfresh : ¬taken b) (hsource : Inv pmm fun x => taken x ∨ x = b)
    (hzero : ∀ x, InPage b x → m x = 0)
    (hm : ∀ t, st.IsTable t → ∀ x, InPage t x → m x = write64 st.mem (n + 8 * i) v x) :
    Grown Inv taken st (fun x => taken x ∨ x = b) ⟨m, st.pml4, pmm⟩ ∧
      (⟨m, st.pml4, pmm⟩ : PagingState σ).tableAt (q ++ [i]) = some b ∧
      ∀ r, r.length ≤ 4 → (⟨m, st.pml4, pmm⟩ : PagingState σ).entryAt r =
        if r = q ++ [i] then some v else st.entryAt r := by
  have hwalk : walk alignPage (entries st.mem) st.pml4 (q ++ [i]) = none :=
    (PagingState.entryAt_concat hn).trans hnone
  rcases h.tree.link (by omega) hn hv hm hwalk hpresent hnext halign
    (fun hb => hfresh (h.tables b hb)) hzero with ⟨htree, hentry⟩
  have htables : ∀ t, (⟨m, st.pml4, pmm⟩ : PagingState σ).IsTable t → st.IsTable t ∨ t = b := by
    intro t ht
    rcases hentry.isTable ht with hold | ⟨_, a, ha, rfl⟩
    · exact Or.inl hold
    · cases ha
      exact Or.inr hnext
  refine ⟨?_, ?_, hentry⟩
  · refine ⟨⟨hsource, htree, ?_, ?_, ?_⟩, fun x hx => Or.inl hx, ?_, rfl, ?_,
      fun r t hr ht => hentry.reach_mono (fun _ => hwalk) hr ht⟩
    · intro t ht
      rcases htables t ht with hold | rfl
      · exact h.low t hold
      · exact hlow
    · intro t ht
      exact (htables t ht).imp_left (h.tables t)
    · intro t ht j hj
      rcases htables t ht with hold | rfl
      · refine h.blank_stored (by omega) hn hv hm (fun habsent => ?_) hold hj
        cases hpresent.symm.trans habsent
      · exact read64_entry_zero hzero j
    · intro t ht
      rcases htables t ht with hold | rfl
      · exact Or.inl hold
      · exact Or.inr hfresh
    · intro r hr
      refine (hentry r (by omega)).trans (if_neg ?_)
      rintro rfl
      rw [List.length_append, List.length_singleton] at hr
      omega
  · have hself : walk alignPage (entries m) st.pml4 (q ++ [i]) = some v := by
      rw [hentry (q ++ [i]) (by simpa using Nat.le_of_lt hq), if_pos rfl]
    exact hnext ▸ reach_of_walk hself

/-- `get_next_level` on an absent entry, with a block from the allocator. -/
theorem getNextLevel_new (flags : Nat) (hptr : Points table n) (hnone : entries st.mem n i = none)
    (halloc : pmmAllocBlock st.pmm = (b, s)) (hb : b ≠ 0) (halign : b % 4096 = 0) (hlow : Low b) :
    ∃ m, (∀ x, m x = if InPage b x then 0 else st.mem x) ∧
      getNextLevel pmmAllocBlock table i true flags st =
        (add64 b kernelVirtualBase, ⟨write64 m (n + 8 * i) (entryFor b flags), st.pml4, s⟩) := by
  rw [getNextLevel, PagingState.entry_eq hptr, pagePresent_eq,
    if_pos (present_eq_none.mp hnone), if_neg (by simp)]
  simp only [halloc, if_neg hb]
  rcases clearEntries_eq { st with pmm := s } hlow 512 (Nat.le_refl _) with ⟨m, hcleared, hclear⟩
  refine ⟨m, hclear, ?_⟩
  have hb64 : b < 2 ^ 64 := by
    unfold Low at hlow
    omega
  rw [hcleared, PagingState.setEntry, PagingState.entry, hptr i]
  show (add64 (alignPage (read64 (write64 m (n + 8 * i) (entryFor b flags)) (n + 8 * i))) _, _) = _
  rw [read64_write64_of_lt (entryFor_lt _ _), alignPage_entryFor hb64 halign]
  rfl

/-- **`get_next_level`** with `create` follows a present entry.  For an absent one
it asks for a block, and returns `NULL` without it; with it, the block becomes an
empty table. -/
theorem PagingInv.getNextLevel_create (h : PagingInv Inv taken st)
    (hsupplies : Supplies pmmAllocBlock Inv) (flags : Nat) (hq : q.length + 1 < 4)
    (hn : st.tableAt q = some n) (hptr : Points table n) (halloc : pmmAllocBlock st.pmm = (b, s)) :
    (∃ a, st.entryAt (q ++ [i]) = some a ∧
        getNextLevel pmmAllocBlock table i true flags st =
          (add64 (alignPage a) kernelVirtualBase, st)) ∨
      (st.entryAt (q ++ [i]) = none ∧ b = 0 ∧
        getNextLevel pmmAllocBlock table i true flags st = (0, { st with pmm := s }) ∧
        Inv s taken) ∨
      st.entryAt (q ++ [i]) = none ∧ b ≠ 0 ∧
        ∃ st' taken', getNextLevel pmmAllocBlock table i true flags st =
            (add64 b kernelVirtualBase, st') ∧
          st'.pmm = s ∧ Grown Inv taken st taken' st' ∧ st'.tableAt (q ++ [i]) = some b ∧
          ∀ r, r.length ≤ 4 → st'.entryAt r =
            if r = q ++ [i] then some (entryFor b flags) else st.entryAt r := by
  rw [PagingState.entryAt_concat hn]
  cases hentry : entries st.mem n i with
  | some a =>
    left
    rw [getNextLevel, PagingState.entry_eq hptr, pagePresent_eq]
    rcases present_eq_some hentry with ⟨rfl, hne⟩
    rw [if_neg hne]
    exact ⟨_, rfl, rfl⟩
  | none =>
    right
    have hsupply := hsupplies.supply st.pmm taken h.source
    rw [halloc] at hsupply
    rcases hsupply with ⟨rfl, hsource⟩ | ⟨hsome, halign, hlow, hfresh, hsource⟩
    · left
      rw [getNextLevel, PagingState.entry_eq hptr, pagePresent_eq,
        if_pos (present_eq_none.mp hentry), if_neg (by simp)]
      simp only [halloc, if_true]
      exact ⟨trivial, trivial, trivial, hsource⟩
    · right
      rcases getNextLevel_new flags hptr hentry halloc hsome halign hlow with
        ⟨m, hclear, hresult⟩
      have htable : st.IsTable n := PagingState.isTable_of_tableAt (by omega) hn
      -- the page of a table does not meet the new page
      have hapart : ∀ t, st.IsTable t → ∀ x, InPage t x → ¬InPage b x := by
        intro t ht x hx hx'
        have htalign := h.tree.aligned t ht
        have hne : t ≠ b := fun heq => hfresh (heq ▸ h.tables t ht)
        unfold InPage at hx hx'
        omega
      have hb64 : b < 2 ^ 64 := by
        unfold Low at hlow
        omega
      have hzero : ∀ x, InPage b x → write64 m (n + 8 * i) (entryFor b flags) x = 0 := by
        intro x hx
        have hi := i.isLt
        have hout : ¬InPage n x := fun hx' => hapart n htable x hx' hx
        unfold InPage at hout
        rw [write64_apply_of_outside (by omega), hclear x, if_pos hx]
      have hm : ∀ t, st.IsTable t → ∀ x, InPage t x →
          write64 m (n + 8 * i) (entryFor b flags) x =
            write64 st.mem (n + 8 * i) (entryFor b flags) x := by
        intro t ht x hx
        apply write64_apply_congr
        rw [hclear x, if_neg (hapart t ht x hx)]
      rcases h.linked hq hn hentry (entryFor_lt _ flags) (present_entryFor _ flags)
        (alignPage_entryFor hb64 halign flags) halign hlow hfresh hsource hzero hm with
        ⟨hgrown, hreach, hentries⟩
      exact ⟨rfl, hsome, _, _, hresult, rfl, hgrown, hreach, hentries⟩

/-! ## The path to a page -/

/-- How many of the entries on the way from the path `q` along `rest` are absent. -/
def PagingState.missingFrom (st : PagingState σ) : List (Fin 512) → List (Fin 512) → Nat
  | _, [] => 0
  | q, i :: rest =>
    (if st.entryAt (q ++ [i]) = none then 1 else 0) + st.missingFrom (q ++ [i]) rest

/-- How many tables the page needs that are not there. -/
def PagingState.missing (st : PagingState σ) (v : Nat) : Nat := st.missingFrom [] (tablePath v)

theorem missingFrom_congr {st : PagingState σ} (rest : List (Fin 512)) {q : List (Fin 512)}
    (h : ∀ r, r ≠ [] → r <+: rest → st'.entryAt (q ++ r) = st.entryAt (q ++ r)) :
    st'.missingFrom q rest = st.missingFrom q rest := by
  induction rest generalizing q with
  | nil => rfl
  | cons i rest ih =>
    have hfirst := h [i] (by simp) (List.prefix_append [i] rest)
    have hlater : st'.missingFrom (q ++ [i]) rest = st.missingFrom (q ++ [i]) rest := by
      apply ih
      intro r _ hpre
      rw [List.append_assoc]
      exact h ([i] ++ r) (by simp) ((List.prefix_append_right_inj [i]).mpr hpre)
    rw [PagingState.missingFrom, PagingState.missingFrom, hfirst, hlater]

theorem missing_withPmm (st : PagingState σ) (pmm : σ) (v : Nat) :
    PagingState.missing { st with pmm := pmm } v = st.missing v :=
  missingFrom_congr _ fun _ _ _ => rfl

theorem missingFrom_le (st : PagingState σ) (q rest : List (Fin 512)) :
    st.missingFrom q rest ≤ rest.length := by
  induction rest generalizing q with
  | nil => exact Nat.le_refl 0
  | cons i rest ih =>
    have hrest := ih (q ++ [i])
    rw [PagingState.missingFrom, List.length_cons]
    split <;> omega

/-- `st'` is `st` with the tables of the path created: the entries that were absent
lead to new tables, and all others are as before. -/
structure Opened (Inv : σ → (Nat → Prop) → Prop) (taken : Nat → Prop) (st : PagingState σ)
    (taken' : Nat → Prop) (st' : PagingState σ) (flags : Nat) (path : List (Fin 512)) : Prop where
  grown : Grown Inv taken st taken' st'
  fill : ∀ r, r ≠ [] → r <+: path → st.entryAt r = none →
    ∃ b, st'.entryAt r = some (entryFor b flags)
  old : ∀ r, r.length ≤ 4 → (¬r <+: path ∨ st.entryAt r ≠ none) → st'.entryAt r = st.entryAt r

theorem Opened.refl (h : PagingInv Inv taken st) {path : List (Fin 512)}
    (hpath : ∀ r, r ≠ [] → r <+: path → st.entryAt r ≠ none) :
    Opened Inv taken st taken st flags path :=
  ⟨Grown.refl h, fun r hr hpre hnone => absurd hnone (hpath r hr hpre), fun _ _ _ => rfl⟩

/-- Creating one table and then the rest of the path. -/
theorem Opened.cons {taken1 : Nat → Prop} {path : List (Fin 512)}
    (hgrown : Grown Inv taken st taken1 st1) (hpre : q ++ [i] <+: path)
    (hnone : st.entryAt (q ++ [i]) = none) (hentry : ∀ r, r.length ≤ 4 → st1.entryAt r =
      if r = q ++ [i] then some (entryFor b flags) else st.entryAt r) (hlen : path.length ≤ 4)
    (h : Opened Inv taken1 st1 taken' st' flags path) :
    Opened Inv taken st taken' st' flags path := by
  refine ⟨hgrown.trans h.grown, ?_, ?_⟩
  · intro r hr hpath hr'
    have hle : r.length ≤ 4 := Nat.le_trans hpath.length_le hlen
    by_cases hsame : r = q ++ [i]
    · have hnew := hentry r hle
      rw [if_pos hsame] at hnew
      have hkept := h.old r hle (Or.inr (by rw [hnew]; exact Option.some_ne_none _))
      exact ⟨b, hkept.trans hnew⟩
    · apply h.fill r hr hpath
      rw [hentry r hle, if_neg hsame]
      exact hr'
  · intro r hle hr
    have hne : r ≠ q ++ [i] := by
      rintro rfl
      rcases hr with hr | hr
      · exact hr hpre
      · exact hr hnone
    have hsame := hentry r hle
    rw [if_neg hne] at hsame
    rw [← hsame] at hr ⊢
    exact h.old r hle hr

/-- The entries on a path with one more at its end. -/
theorem PagingState.path_concat (hpath : ∀ r, r ≠ [] → r <+: q → st.entryAt r ≠ none)
    (hlast : st.entryAt (q ++ [i]) ≠ none) (r : List (Fin 512)) (hr : r ≠ [])
    (hpre : r <+: q ++ [i]) : st.entryAt r ≠ none := by
  rcases List.prefix_concat_iff.mp hpre with rfl | hpre
  · exact hlast
  · exact hpath r hr hpre

/-- The path after the entry at its end was set. -/
theorem PagingState.path_created (hlen : q.length < 4)
    (hpath : ∀ r, r ≠ [] → r <+: q → st.entryAt r ≠ none)
    (hentries : ∀ r, r.length ≤ 4 → st1.entryAt r = if r = q ++ [i] then some e else st.entryAt r)
    (r : List (Fin 512)) (hr : r ≠ []) (hpre : r <+: q ++ [i]) : st1.entryAt r ≠ none := by
  refine PagingState.path_concat ?_ ?_ r hr hpre
  · intro r hr hpre
    have hle := hpre.length_le
    rw [hentries r (by omega)]
    split
    · exact Option.some_ne_none _
    · exact hpath r hr hpre
  · rw [hentries _ (by rw [List.length_append, List.length_singleton]; omega), if_pos rfl]
    exact Option.some_ne_none _

/-- The tables that are missing behind the new one. -/
theorem missingFrom_created {rest : List (Fin 512)} (hlen : (q ++ [i]).length + rest.length ≤ 4)
    (hentries : ∀ r, r.length ≤ 4 → st1.entryAt r = if r = q ++ [i] then some e else st.entryAt r) :
    st1.missingFrom (q ++ [i]) rest = st.missingFrom (q ++ [i]) rest := by
  apply missingFrom_congr
  intro r hr hpre
  have hle := hpre.length_le
  rw [hentries _ (by rw [List.length_append]; omega), if_neg]
  intro heq
  exact hr (List.append_cancel_left (heq.trans (List.append_nil _).symm))

/-- **The lookups of a path with `create`** return `NULL` and change no page if the
allocator does not have the blocks for the missing tables; otherwise they take these
blocks and create the tables. -/
theorem PagingInv.descend_create (hsupplies : Supplies pmmAllocBlock Inv) (flags : Nat)
    (rest : List (Fin 512)) {taken : Nat → Prop} {st : PagingState σ} {q : List (Fin 512)}
    {n table : Nat} (h : PagingInv Inv taken st) (hlen : q.length + rest.length < 4)
    (hpath : ∀ r, r ≠ [] → r <+: q → st.entryAt r ≠ none)
    (hn : st.tableAt q = some n) (hptr : Points table n) :
    (¬Ready pmmAllocBlock (st.missingFrom q rest) st.pmm ∧
        (descend pmmAllocBlock true flags rest table st).1 = 0 ∧
        ∃ taken', Grown Inv taken st taken' (descend pmmAllocBlock true flags rest table st).2) ∨
      Ready pmmAllocBlock (st.missingFrom q rest) st.pmm ∧
        ∃ taken' n' ptr st', descend pmmAllocBlock true flags rest table st = (ptr, st') ∧
          Opened Inv taken st taken' st' flags (q ++ rest) ∧
          st'.pmm = drawn pmmAllocBlock (st.missingFrom q rest) st.pmm ∧
          st'.tableAt (q ++ rest) = some n' ∧ Points ptr n' ∧
          (table ≠ 0 ∨ rest ≠ [] → ptr ≠ 0) := by
  induction rest generalizing taken st q n table with
  | nil =>
    right
    rw [List.append_nil]
    refine ⟨trivial, taken, n, table, st, rfl, Opened.refl h hpath, rfl, hn, hptr, ?_⟩
    rintro (hne | hne)
    · exact hne
    · exact absurd rfl hne
  | cons i rest ih =>
    rw [List.length_cons] at hlen
    have hlength : (q ++ [i]).length = q.length + 1 := by simp
    have hassoc : q ++ i :: rest = q ++ [i] ++ rest := by simp
    rw [descend, PagingState.missingFrom, hassoc]
    rcases h.getNextLevel_create (i := i) hsupplies flags (by omega) hn hptr rfl with
      ⟨a, ha, hresult⟩ | ⟨hnone, hnull, hresult, hsource⟩ |
      ⟨hnone, hsome, st1, taken1, hresult, hpmm, hgrown, hn1, hentries⟩
    · -- the table is there
      have hn1 := PagingState.tableAt_of_entryAt ha
      have hlow := h.low_at (by omega) hn1
      have hpath1 := PagingState.path_concat hpath (by rw [ha]; exact Option.some_ne_none _)
      rw [hresult, if_neg (by rw [ha]; exact Option.some_ne_none _), Nat.zero_add]
      simp only [if_neg (high_ne_zero hlow)]
      rcases ih h (by omega) hpath1 hn1 (points_high hlow) with
        hfail | ⟨hready, taken', n', ptr, st', hdescend, hopened, hdrawn, hn', hptr', hne⟩
      · exact Or.inl hfail
      · exact Or.inr ⟨hready, taken', n', ptr, st', hdescend, hopened, hdrawn, hn', hptr',
          fun _ => hne (Or.inl (high_ne_zero hlow))⟩
    · -- there is no block for it
      left
      rw [hresult, if_pos hnone, Nat.add_comm 1]
      simp only [if_true]
      exact ⟨fun hready => hready.1 hnull, trivial, taken,
        ⟨h.withPmm hsource fun _ hx => hx, fun _ hx => hx, fun _ ht => Or.inl ht, rfl,
          fun _ _ => rfl, fun _ _ _ hr => hr⟩⟩
    · -- it is created
      have hlow := hgrown.inv.low_at (by omega) hn1
      have hmissing : st1.missingFrom (q ++ [i]) rest = st.missingFrom (q ++ [i]) rest :=
        missingFrom_created (by omega) hentries
      rw [hresult, if_pos hnone, Nat.add_comm 1, ← hmissing]
      simp only [if_neg (high_ne_zero hlow)]
      rw [Ready, drawn, ← hpmm]
      rcases ih hgrown.inv (by omega) (PagingState.path_created (by omega) hpath hentries) hn1
        (points_high hlow) with
        ⟨hfail, hzero, taken', hgrown'⟩ |
        ⟨hready, taken', n', ptr, st', hdescend, hopened, hdrawn, hn', hptr', hne⟩
      · exact Or.inl ⟨fun hready => hfail hready.2, hzero, taken', hgrown.trans hgrown'⟩
      · right
        refine ⟨⟨hsome, hready⟩, taken', n', ptr, st', hdescend, ?_, hdrawn, hn', hptr',
          fun _ => hne (Or.inl (high_ne_zero hlow))⟩
        exact Opened.cons hgrown (List.prefix_append _ _) hnone hentries
          (by rw [List.length_append]; omega) hopened

/-! ## Pages -/

/-- Writing the entry of a page through the pointer to its table. -/
theorem PagingInv.setPage (h : PagingInv Inv taken st) (hn : st.tableAt (tablePath v) = some n)
    (hptr : Points table n) (hw : w < 2 ^ 64) (hblank : present w = none → w = 0) :
    PagingInv Inv taken (st.setEntry table (ptIndex v) w) ∧
      (∀ t, (st.setEntry table (ptIndex v) w).IsTable t → st.IsTable t) ∧
      ∀ r, r.length ≤ 4 → (st.setEntry table (ptIndex v) w).entryAt r =
        if r = virtPath v then present w else st.entryAt r := by
  have hset : st.setEntry table (ptIndex v) w =
      ⟨write64 st.mem (n + 8 * (indexAt 12 v : Nat)) w, st.pml4, st.pmm⟩ := by
    rw [PagingState.setEntry]
    exact congrArg (fun a => (⟨write64 st.mem a w, st.pml4, st.pmm⟩ : PagingState σ))
      (hptr (indexAt 12 v))
  rw [hset]
  have hlen : (tablePath v).length < 4 := by simp [tablePath]
  rcases h.tree.setLeaf (i := indexAt 12 v) hlen hn hw (fun _ _ _ _ => rfl) rfl with
    ⟨htree, hentry⟩
  have htables : ∀ t, PageTables.IsTable alignPage 4 st.pml4
      (write64 st.mem (n + 8 * (indexAt 12 v : Nat)) w) t → st.IsTable t := by
    intro t ht
    rcases hentry.isTable ht with hold | ⟨hlt, _⟩
    · exact hold
    · exact absurd hlt (by simp [tablePath])
  exact ⟨⟨h.source, htree, fun t ht => h.low t (htables t ht),
    fun t ht => h.tables t (htables t ht), fun t ht j hj =>
      h.blank_stored hlen hn hw (fun _ _ _ _ => rfl) hblank (htables t ht) hj⟩, htables, hentry⟩

/-- `st'` is `st` with the page of `v` mapped to `p`: the missing tables were created
from the next blocks of the allocator. -/
structure Mapped (pmmAllocBlock : σ → Nat × σ) (Inv : σ → (Nat → Prop) → Prop)
    (taken : Nat → Prop) (st : PagingState σ) (taken' : Nat → Prop) (st' : PagingState σ)
    (p v flags : Nat) : Prop where
  inv : PagingInv Inv taken' st'
  more : ∀ x, taken x → taken' x
  /-- A new table was not in use. -/
  fresh : ∀ n, st'.IsTable n → st.IsTable n ∨ ¬taken n
  root : st'.pml4 = st.pml4
  pmm : st'.pmm = drawn pmmAllocBlock (st.missing v) st.pmm
  page : st'.entryAt (virtPath v) = some (entryFor p flags)
  fill : ∀ r, r ≠ [] → r <+: tablePath v → st.entryAt r = none →
    ∃ b, st'.entryAt r = some (entryFor b flags)
  old : ∀ r, r.length ≤ 4 → r ≠ virtPath v → (¬r <+: tablePath v ∨ st.entryAt r ≠ none) →
    st'.entryAt r = st.entryAt r

/-- The other pages. -/
theorem Mapped.others (h : Mapped pmmAllocBlock Inv taken st taken' st' p v flags)
    {r : List (Fin 512)} (hr : r.length = 4) (hne : r ≠ virtPath v) :
    st'.entryAt r = st.entryAt r := by
  apply h.old r (Nat.le_of_eq hr) hne
  left
  intro hpre
  have hle := hpre.length_le
  rw [hr] at hle
  exact absurd hle (by simp [tablePath])

/-- **`paging_map_page`** of a page-aligned address maps the page and returns `v` if
the allocator has the blocks for the missing tables; otherwise it returns `NULL` and
changes no page. -/
theorem PagingInv.map_cases (h : PagingInv Inv taken st) (hsupplies : Supplies pmmAllocBlock Inv)
    (v flags : Nat) (hp : p % 4096 = 0) :
    (¬Ready pmmAllocBlock (st.missing v) st.pmm ∧
        (pagingMapPage pmmAllocBlock p v flags st).1 = 0 ∧
        ∃ taken', Grown Inv taken st taken' (pagingMapPage pmmAllocBlock p v flags st).2) ∨
      Ready pmmAllocBlock (st.missing v) st.pmm ∧
        (pagingMapPage pmmAllocBlock p v flags st).1 = v ∧
        ∃ taken', Mapped pmmAllocBlock Inv taken st taken'
          (pagingMapPage pmmAllocBlock p v flags st).2 p v flags := by
  have hroot : st.tableAt [] = some st.pml4 := rfl
  have hlow := h.low_at (by decide) hroot
  rw [pagingMapPage, and_not_pageMask, if_neg (not_not.mpr hp), lastTable_eq_descend]
  rcases PagingInv.descend_create hsupplies flags (tablePath v) h (by simp [tablePath])
    (fun r hr hpre => absurd (List.prefix_nil.mp hpre) hr) hroot (points_low hlow) with
    ⟨hfail, hnull, taken', hgrown⟩ | ⟨hready, taken', n, ptr, st1, hdescend, hopened, hpmm, hn,
      hptr, hne⟩
  · left
    simp only [hnull, if_true]
    exact ⟨hfail, trivial, taken', hgrown⟩
  · right
    have hgrown := hopened.grown
    rcases hgrown.inv.setPage hn hptr (entryFor_lt p flags)
      (fun hnone => by rw [present_entryFor] at hnone; cases hnone) with ⟨hinv, htables, hentry⟩
    rw [present_entryFor] at hentry
    rw [hdescend]
    simp only [if_neg (hne (Or.inr (by simp [tablePath])))]
    refine ⟨hready, trivial, taken', ⟨hinv, hgrown.more, fun t ht => hgrown.fresh t (htables t ht),
      hgrown.root, ?_, ?_, ?_, ?_⟩⟩
    · rw [PagingState.setEntry_pmm]
      exact hpmm
    · exact (hentry (virtPath v) (Nat.le_refl 4)).trans (if_pos rfl)
    · intro r hr hpre hnone
      have hle : r.length ≤ 3 := hpre.length_le
      have hne : r ≠ virtPath v := by
        rintro rfl
        exact absurd hle (by simp [virtPath])
      have hkept := hentry r (by omega)
      rw [if_neg hne] at hkept
      rcases hopened.fill r hr hpre hnone with ⟨b, hb⟩
      exact ⟨b, hkept.trans hb⟩
    · intro r hle hne hr
      have hkept := hentry r hle
      rw [if_neg hne] at hkept
      exact hkept.trans (hopened.old r hle hr)

/-- `paging_map_page` sets the entry of its page and returns the address, or returns
`NULL` and changes no page.  It does the former if three blocks are to be had. -/
theorem PagingInv.map {res : Nat × PagingState σ} (h : PagingInv Inv taken st)
    (hsupplies : Supplies pmmAllocBlock Inv) (p v flags : Nat)
    (hres : pagingMapPage pmmAllocBlock p v flags st = res) :
    ∃ taken', PagingInv Inv taken' res.2 ∧ (∀ x, taken x → taken' x) ∧
      (∀ n, res.2.IsTable n → st.IsTable n ∨ ¬taken n) ∧
      (res.1 = 0 ∧ (∀ r, r.length = 4 → res.2.entryAt r = st.entryAt r) ∨
        p % 4096 = 0 ∧ res.1 = v ∧ ∀ r, r.length = 4 → res.2.entryAt r =
          if r = virtPath v then some (entryFor p flags) else st.entryAt r) ∧
      ∀ k, p % 4096 = 0 → Ready pmmAllocBlock (k + 3) st.pmm →
        res.1 = v ∧ res.2.entryAt (virtPath v) = some (entryFor p flags) ∧
          Ready pmmAllocBlock k res.2.pmm := by
  subst hres
  by_cases hp : p % 4096 = 0
  · have hthree : st.missing v ≤ 3 := missingFrom_le st [] (tablePath v)
    rcases h.map_cases hsupplies v flags hp with
      ⟨hfail, hnull, taken', hgrown⟩ | ⟨_, hresult, taken', hmapped⟩
    · exact ⟨taken', hgrown.inv, hgrown.more, hgrown.fresh, Or.inl ⟨hnull, hgrown.pages⟩,
        fun k _ hready => absurd (hready.mono (by omega)) hfail⟩
    · refine ⟨taken', hmapped.inv, hmapped.more, hmapped.fresh, Or.inr ⟨hp, hresult, ?_⟩, ?_⟩
      · intro r hr
        split
        · rename_i hsame
          rw [hsame]
          exact hmapped.page
        · rename_i hne
          exact hmapped.others hr hne
      · intro k _ hready
        have hsplit : k + 3 = st.missing v + (k + 3 - st.missing v) := by omega
        rw [hsplit, ready_add, ← hmapped.pmm] at hready
        exact ⟨hresult, hmapped.page, hready.2.mono (by omega)⟩
  · rw [pagingMapPage, and_not_pageMask, if_pos hp]
    exact ⟨taken, h, fun _ hx => hx, fun _ hn => Or.inl hn, Or.inl ⟨rfl, fun _ _ => rfl⟩,
      fun k hp' => absurd hp' hp⟩

/-- **`paging_unmap_page`** clears the entry of its page. -/
theorem PagingInv.unmap (h : PagingInv Inv taken st) (v : Nat) :
    PagingInv Inv taken (pagingUnmapPage pmmAllocBlock v st) ∧
      ∀ r, r.length = 4 → (pagingUnmapPage pmmAllocBlock v st).entryAt r =
        if r = virtPath v then none else st.entryAt r := by
  rw [pagingUnmapPage, h.lastTable_lookup]
  cases hn : st.tableAt (tablePath v) with
  | none =>
    refine ⟨h, ?_⟩
    intro r _
    by_cases hr : r = virtPath v
    · rw [if_pos hr, hr, virtPath_eq]
      exact PagingState.entryAt_of_no_table hn
    · rw [if_neg hr]
      rfl
  | some n =>
    have hlow := h.low_at (by simp [tablePath]) hn
    rcases h.setPage hn (points_high hlow) (show 0 < 2 ^ 64 by decide) fun _ => rfl with
      ⟨hinv, _, hentry⟩
    simp only [if_neg (high_ne_zero hlow)]
    exact ⟨hinv, fun r hr => hentry r (Nat.le_of_eq hr)⟩

/-! ## Memory that is zero -/

section Zero

/-- Clearing a page that is zero changes nothing. -/
theorem eq_of_cleared {m' : ByteMem} (hm : ∀ x, m x = if InPage b x then 0 else m' x)
    (hzero : ∀ x, InPage b x → m' x = 0) : m = m' := by
  funext x
  rw [hm x]
  split
  · rename_i hx
    exact (hzero x hx).symm
  · rfl

theorem clearEntries_of_zero (hlow : Low b) (hzero : ∀ x, InPage b x → st.mem x = 0) :
    st.clearEntries b 512 = st := by
  rcases clearEntries_eq st hlow 512 (Nat.le_refl _) with ⟨m, hcleared, hm⟩
  rw [hcleared, eq_of_cleared hm hzero]

/-- `get_next_level` on an absent entry, with a block that is zero already. -/
theorem getNextLevel_zero (hptr : Points table n) (hnone : entries st.mem n i = none)
    (halloc : pmmAllocBlock st.pmm = (b, s)) (hb : b ≠ 0) (halign : b % 4096 = 0) (hlow : Low b)
    (hzero : ∀ x, InPage b x → st.mem x = 0) :
    getNextLevel pmmAllocBlock table i true flags st =
      (add64 b kernelVirtualBase, ⟨write64 st.mem (n + 8 * i) (entryFor b flags), st.pml4, s⟩) := by
  rcases getNextLevel_new flags hptr hnone halloc hb halign hlow with ⟨m, hm, hresult⟩
  rw [hresult, eq_of_cleared hm hzero]

theorem write64_other_page (hn : n % 4096 = 0) (hb : b % 4096 = 0) (hne : b ≠ n) (hx : InPage b x) :
    write64 m (n + 8 * i) w x = m x := by
  have hi := i.isLt
  unfold InPage at hx
  apply write64_apply_of_outside
  omega

/-- **The first page of empty tables** in a memory of zeros. -/
theorem pagingMapPage_zero {root b1 b2 b3 : Nat} {s1 s2 s3 : σ} (v flags : Nat)
    (halloc1 : pmmAllocBlock s = (b1, s1)) (halloc2 : pmmAllocBlock s1 = (b2, s2))
    (halloc3 : pmmAllocBlock s2 = (b3, s3))
    (hblocks : ∀ b ∈ [root, b1, b2, b3], b ≠ 0 ∧ b % 4096 = 0 ∧ Low b)
    (hdistinct : [root, b1, b2, b3].Nodup) (hp : p % 4096 = 0) :
    pagingMapPage pmmAllocBlock p v flags ⟨fun _ => 0, root, s⟩ =
      (v, ⟨write64 (write64 (write64 (write64 (fun _ => 0)
        (root + 8 * indexAt 39 v) (entryFor b1 flags)) (b1 + 8 * indexAt 30 v) (entryFor b2 flags))
        (b2 + 8 * indexAt 21 v) (entryFor b3 flags)) (b3 + 8 * indexAt 12 v) (entryFor p flags),
        root, s3⟩) := by
  rcases hblocks root (by simp) with ⟨_, haroot, hlroot⟩
  rcases hblocks b1 (by simp) with ⟨hb1, ha1, hl1⟩
  rcases hblocks b2 (by simp) with ⟨hb2, ha2, hl2⟩
  rcases hblocks b3 (by simp) with ⟨hb3, ha3, hl3⟩
  simp only [List.nodup_cons, List.mem_cons, not_or] at hdistinct
  rcases hdistinct with ⟨⟨hr1, hr2, hr3, _⟩, ⟨h12, h13, _⟩, _⟩
  have hpdpt : getNextLevel pmmAllocBlock root (indexAt 39 v) true flags
      ⟨fun _ => 0, root, s⟩ = _ :=
    getNextLevel_zero (points_low hlroot) (entries_zero (fun _ _ => rfl) _) halloc1 hb1 ha1 hl1
      fun _ _ => rfl
  have hzero1 : ∀ b x, b % 4096 = 0 → b ≠ root → InPage b x →
      write64 (fun _ => 0) (root + 8 * indexAt 39 v) (entryFor b1 flags) x = 0 :=
    fun b x hb hne hx => write64_other_page haroot hb hne hx
  generalize hm1 : write64 (fun _ => 0) (root + 8 * indexAt 39 v) (entryFor b1 flags) = m1 at *
  have hpd : getNextLevel pmmAllocBlock (add64 b1 kernelVirtualBase) (indexAt 30 v) true flags
      ⟨m1, root, s1⟩ = _ :=
    getNextLevel_zero (points_high hl1) (entries_zero (hzero1 b1 · ha1 (Ne.symm hr1)) _) halloc2 hb2
      ha2 hl2 (hzero1 b2 · ha2 (Ne.symm hr2))
  have hzero2 : ∀ b x, b % 4096 = 0 → b ≠ root → b ≠ b1 → InPage b x →
      write64 m1 (b1 + 8 * indexAt 30 v) (entryFor b2 flags) x = 0 :=
    fun b x hb hne hne1 hx => (write64_other_page ha1 hb hne1 hx).trans (hzero1 b x hb hne hx)
  generalize hm2 : write64 m1 (b1 + 8 * indexAt 30 v) (entryFor b2 flags) = m2 at *
  have hpt : getNextLevel pmmAllocBlock (add64 b2 kernelVirtualBase) (indexAt 21 v) true flags
      ⟨m2, root, s2⟩ = _ :=
    getNextLevel_zero (points_high hl2)
      (entries_zero (hzero2 b2 · ha2 (Ne.symm hr2) (Ne.symm h12)) _) halloc3 hb3 ha3 hl3
      (hzero2 b3 · ha3 (Ne.symm hr3) (Ne.symm h13))
  have hindices : pml4Index v = (indexAt 39 v : Nat) ∧ pdptIndex v = (indexAt 30 v : Nat) ∧
      pdIndex v = (indexAt 21 v : Nat) ∧ ptIndex v = (indexAt 12 v : Nat) := ⟨rfl, rfl, rfl, rfl⟩
  rw [pagingMapPage, and_not_pageMask, if_neg (not_not.mpr hp), lastTable, hindices.1,
    hindices.2.1, hindices.2.2.1, hindices.2.2.2]
  simp only [hpdpt, if_neg (high_ne_zero hl1), hpd, if_neg (high_ne_zero hl2), hpt,
    if_neg (high_ne_zero hl3), PagingState.setEntry, points_high hl3 (indexAt 12 v)]
  rfl

end Zero

/-! ## What the functions say about a page -/

section Observers

variable (pmmAllocBlock)

/-- The first address of the page. -/
def pageBase (v : Nat) : Nat := v / 4096 * 4096

/-- The presence and the physical address of the page of `w` are the same in both
states, and if it is present those of all its addresses. -/
structure SameTranslation (st st' : PagingState σ) (w : Nat) : Prop where
  isPresent : pagingIsPagePresent pmmAllocBlock st' w = pagingIsPagePresent pmmAllocBlock st w
  address : pagingGetPhysicalAddress pmmAllocBlock st' (pageBase w) =
    pagingGetPhysicalAddress pmmAllocBlock st (pageBase w)
  offsets : pagingIsPagePresent pmmAllocBlock st w = true → ∀ o, o < 4096 →
    pagingGetPhysicalAddress pmmAllocBlock st' (pageBase w + o) =
      pagingGetPhysicalAddress pmmAllocBlock st (pageBase w + o)

theorem virtPath_offset (v : Nat) {o : Nat} (ho : o < 4096) :
    virtPath (pageBase v + o) = virtPath v := by
  rw [virtPath_eq_iff, SamePage, pageBase]
  omega

theorem virtPath_pageBase (v : Nat) : virtPath (pageBase v) = virtPath v := by
  rw [virtPath_eq_iff, SamePage, pageBase]
  omega

variable {pmmAllocBlock}

section

variable (h : PagingInv Inv taken st)

include h

theorem PagingInv.getPhysicalAddress_congr (h' : PagingInv Inv taken' st') (hw : w % 4096 = 0)
    (hsame : st'.entryAt (virtPath w) = st.entryAt (virtPath w)) :
    pagingGetPhysicalAddress pmmAllocBlock st' w = pagingGetPhysicalAddress pmmAllocBlock st w := by
  cases he : st.entryAt (virtPath w) with
  | none =>
    rw [h.getPhysicalAddress_absent hw he, h'.getPhysicalAddress_absent hw (hsame.trans he)]
  | some e =>
    rw [h.getPhysicalAddress_present he, h'.getPhysicalAddress_present (hsame.trans he)]

/-- The translation of a page is the frame in its entry. -/
theorem PagingInv.frame_eq_some_iff (hw : w % 4096 = 0) :
    (st.entryAt (virtPath w)).map alignPage = some b ↔
      pagingIsPagePresent pmmAllocBlock st w = true ∧
        pagingGetPhysicalAddress pmmAllocBlock st w = b := by
  rw [h.isPagePresent_eq]
  cases he : st.entryAt (virtPath w) with
  | none => simp
  | some e =>
    rw [h.getPhysicalAddress_present he, hw, Nat.or_zero]
    simp

/-- The address of a page is the frame in its entry, or 0. -/
theorem PagingInv.getPhysicalAddress_base (w : Nat) :
    pagingGetPhysicalAddress pmmAllocBlock st (pageBase w) =
      ((st.entryAt (virtPath w)).map alignPage).getD 0 := by
  have hbase : pageBase w % 4096 = 0 := Nat.mul_mod_left _ _
  rw [← virtPath_pageBase w]
  cases he : st.entryAt (virtPath (pageBase w)) with
  | none =>
    rw [h.getPhysicalAddress_absent hbase he]
    rfl
  | some e =>
    rw [h.getPhysicalAddress_present he, hbase]
    exact Nat.or_zero _

/-- **Pages have the same translation if their entries have the same frame.** -/
theorem PagingInv.sameTranslation_iff (h' : PagingInv Inv taken' st') :
    SameTranslation pmmAllocBlock st st' w ↔
      (st'.entryAt (virtPath w)).map alignPage = (st.entryAt (virtPath w)).map alignPage := by
  constructor
  · rintro ⟨hpresent, haddress, _⟩
    rw [h.isPagePresent_eq, h'.isPagePresent_eq] at hpresent
    rw [h.getPhysicalAddress_base, h'.getPhysicalAddress_base] at haddress
    cases he : st.entryAt (virtPath w) <;> cases he' : st'.entryAt (virtPath w) <;> simp_all
  · intro hframe
    have hpresent := congrArg Option.isSome hframe
    rw [Option.isSome_map, Option.isSome_map] at hpresent
    refine ⟨?_, ?_, fun hsome o ho => ?_⟩
    · rw [h.isPagePresent_eq, h'.isPagePresent_eq, hpresent]
    · rw [h.getPhysicalAddress_base, h'.getPhysicalAddress_base, hframe]
    · rw [h.isPagePresent_eq, Option.isSome_iff_exists] at hsome
      rcases hsome with ⟨e, he⟩
      rw [he, Option.map_some, Option.map_eq_some_iff] at hframe
      rcases hframe with ⟨e', he', hsame⟩
      rw [h.getPhysicalAddress_present (virtPath_offset w ho ▸ he),
        h'.getPhysicalAddress_present (virtPath_offset w ho ▸ he'), hsame]

/-- Pages with the same entry have the same translation. -/
theorem PagingInv.sameTranslation (h' : PagingInv Inv taken' st')
    (hsame : st'.entryAt (virtPath w) = st.entryAt (virtPath w)) :
    SameTranslation pmmAllocBlock st st' w := by
  rw [h.sameTranslation_iff h', hsame]

/-- A page whose entry was written for the physical page `p`. -/
theorem PagingInv.mapped (hp : p % 4096 = 0) (hp64 : p < 2 ^ 64)
    (he : st.entryAt (virtPath v) = some (entryFor p flags)) :
    pagingIsPagePresent pmmAllocBlock st v = true ∧ ∀ o, o < 4096 →
      pagingGetPhysicalAddress pmmAllocBlock st (pageBase v + o) = p ||| o := by
  constructor
  · rw [h.isPagePresent_eq, he]
    rfl
  · intro o ho
    have hoffset : (pageBase v + o) % 4096 = o := by
      unfold pageBase
      omega
    rw [h.getPhysicalAddress_present (virtPath_offset v ho ▸ he), alignPage_entryFor hp64 hp,
      hoffset]

end

end Observers

end FarouKernel.Ports.Paging
