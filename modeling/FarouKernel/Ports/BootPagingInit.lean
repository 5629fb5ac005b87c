import FarouKernel.Ports.BootPagingModel

/-!
# The tables that `paging_init` leaves

The loop of `paging_init` fills one directory, which covers 1 GiB, and does not set bit 7
in its entries.  So the processor takes each of them for a pointer to a table of pages,
at the physical address that was to be mapped, and what it finds for an address below
1 GiB depends on the word that happens to be there.  Above, it finds nothing.
-/

namespace FarouKernel.Ports.BootPaging

open Verified ByteMem PageTables

/-! ## Entries -/

theorem or_flags {a b : Nat} (ha : a % 4096 = 0) (hb : b < 4096) : a ||| b = a + b := by
  have hor := Nat.two_pow_add_eq_or_of_lt (i := 12) (show b < 2 ^ 12 from hb) (a / 4096)
  have hmul : 2 ^ 12 * (a / 4096) = a := by omega
  rw [hmul] at hor
  exact hor.symm

theorem or_pageNx {a : Nat} (ha : a < 2 ^ 63) : a ||| pageNx = a + 2 ^ 63 := by
  have hor := Nat.two_pow_add_eq_or_of_lt (i := 63) ha 1
  rw [Nat.or_comm, show pageNx = 2 ^ 63 * 1 from rfl, ← hor]
  omega

variable {j t : Nat}

/-- A pointer to a table. -/
theorem or_present_rw (ht : t % 4096 = 0) : t ||| pagePresent ||| pageRw = t + 3 := by
  rw [Nat.or_assoc, show pagePresent ||| pageRw = 3 from rfl, or_flags ht (by decide)]

theorem identityEntry_eq {i : Nat} (hi : i < 512) :
    identityEntry i = i * 2 ^ 21 + 3 + 2 ^ 63 := by
  rw [identityEntry, or_present_rw (by unfold pageSize2Mb; omega),
    or_pageNx (by unfold pageSize2Mb; omega)]
  rfl

theorem present_of_odd {e : Nat} (h : e % 2 = 1) : present e = some e := by
  rw [present, if_neg]
  rw [Nat.and_one_is_mod]
  omega

theorem large_iff (e : Nat) : Large e ↔ e / 2 ^ 7 % 2 = 1 := by
  rw [Large, show (0x80 : Nat) = 1 <<< 7 from rfl, and_shiftLeft_ne_zero,
    Nat.testBit_eq_decide_div_mod_eq, decide_eq_true_eq]

theorem tableOf_mod (e : Nat) : tableOf e % 4096 = 0 := by
  unfold tableOf
  omega

/-- What the processor makes of a pointer to a table. -/
theorem tableOf_pointer (ht : t % 4096 = 0) (hlow : t < 2 ^ 52) :
    present (t + 3) = some (t + 3) ∧ ¬Large (t + 3) ∧ tableOf (t + 3) = t := by
  refine ⟨present_of_odd (by omega), ?_, ?_⟩
  · rw [large_iff]
    omega
  · unfold tableOf
    omega

/-- What the processor makes of an entry of the directory. -/
theorem tableOf_identityEntry {i : Nat} (hi : i < 512) :
    present (identityEntry i) = some (identityEntry i) ∧ ¬Large (identityEntry i) ∧
      tableOf (identityEntry i) = i * 2 ^ 21 := by
  rw [identityEntry_eq hi]
  refine ⟨present_of_odd (by omega), ?_, ?_⟩
  · rw [large_iff]
    omega
  · unfold tableOf
    omega

/-! ## Stores -/

section Stores

variable {m : ByteMem} {t n i j v : Nat}

theorem entryAt_setEntry (hn : n % 4096 = 0) (ht : t % 4096 = 0) (hi : i < 512) (hj : j < 512)
    (hv : v < 2 ^ 64) :
    entryAt (setEntry n i v m) t j = if t = n ∧ j = i then v else entryAt m t j := by
  have hread := read64_write_entry (m := m) (i := ⟨i, hi⟩) (j := ⟨j, hj⟩) hn ht hv
  simp only [Fin.mk.injEq] at hread
  exact hread

theorem entryAt_clearTable (hn : n % 4096 = 0) (ht : t % 4096 = 0) (hj : j < 512) :
    entryAt (clearTable n m) t j = if t = n then 0 else entryAt m t j := by
  unfold entryAt clearTable
  by_cases hsame : t = n
  · rw [if_pos hsame, read64_fill_inside (by omega) (by omega), read64_const_zero]
  · rw [if_neg hsame]
    exact read64_congr fun x hlo hhi => fill_apply_of_outside (by omega)

end Stores

/-! ## `paging_init` -/

namespace Layout

variable (L : Layout)

theorem pml4_mod : L.pml4 % 4096 = 0 := L.aligned _ (by simp)

theorem pdpt_mod : L.pdpt % 4096 = 0 := L.aligned _ (by simp)

theorem pd_mod : L.pd % 4096 = 0 := L.aligned _ (by simp)

theorem pt_mod : L.pt % 4096 = 0 := L.aligned _ (by simp)

theorem pml4_lt : L.pml4 < 2 ^ 48 := L.low _ (by simp)

theorem pdpt_lt : L.pdpt < 2 ^ 48 := L.low _ (by simp)

theorem pd_lt : L.pd < 2 ^ 48 := L.low _ (by simp)

/-- The tables are different pages. -/
theorem pages_ne : L.pml4 ≠ L.pdpt ∧ L.pml4 ≠ L.pd ∧ L.pdpt ≠ L.pd ∧ L.pml4 ≠ L.pt ∧
    L.pdpt ≠ L.pt ∧ L.pd ≠ L.pt := by
  have hapart := L.apart
  simp only [List.nodup_cons, List.mem_cons, List.not_mem_nil, or_false, not_or] at hapart
  obtain ⟨⟨h1, h2, h3⟩, ⟨h4, h5⟩, h6, _⟩ := hapart
  exact ⟨h1, h2, h4, h3, h5, h6⟩

end Layout

section Init

variable (L : Layout) (m : ByteMem)

/-- The loop writes the entries of the directory and nothing else. -/
theorem entryAt_fillDirectory {k : Nat} (hk : k ≤ 512) (ht : t % 4096 = 0) (hj : j < 512) :
    entryAt (fillDirectory L k m) t j =
      if t = L.pd ∧ j < k then identityEntry j else entryAt m t j := by
  induction k with
  | zero => simp [fillDirectory]
  | succ k ih =>
    have hentry : identityEntry k < 2 ^ 64 := by
      rw [identityEntry_eq (by omega)]
      omega
    rw [fillDirectory, entryAt_setEntry L.pd_mod ht (by omega) hj hentry, ih (by omega)]
    by_cases hlast : t = L.pd ∧ j = k
    · rw [if_pos hlast, if_pos ⟨hlast.1, by omega⟩, hlast.2]
    · rw [if_neg hlast]
      congr 1
      rw [eq_iff_iff]
      refine and_congr_right fun hpd => ?_
      have hne : j ≠ k := fun heq => hlast ⟨hpd, heq⟩
      omega

/-- The words of the tables after `paging_init`. -/
theorem entryAt_pagingInit (ht : t % 4096 = 0) (hj : j < 512) :
    entryAt (pagingInit L m) t j =
      if t = L.pml4 ∧ j = 511 then L.pml4 + 3
      else if t = L.pml4 ∧ j = 0 then L.pdpt + 3
      else if t = L.pdpt ∧ j = 0 then L.pd + 3
      else if t = L.pd then identityEntry j
      else if t ∈ [L.pml4, L.pdpt, L.pt] then 0
      else entryAt m t j := by
  have h1 := L.pml4_lt
  have h2 := L.pdpt_lt
  have h3 := L.pd_lt
  unfold pagingInit
  simp only [or_present_rw L.pml4_mod, or_present_rw L.pdpt_mod, or_present_rw L.pd_mod]
  rw [entryAt_setEntry L.pml4_mod ht (by omega) hj (by omega),
    entryAt_setEntry L.pml4_mod ht (by omega) hj (by omega),
    entryAt_setEntry L.pdpt_mod ht (by omega) hj (by omega),
    entryAt_fillDirectory L _ (Nat.le_refl 512) ht hj,
    entryAt_clearTable L.pt_mod ht hj, entryAt_clearTable L.pd_mod ht hj,
    entryAt_clearTable L.pdpt_mod ht hj, entryAt_clearTable L.pml4_mod ht hj]
  simp only [hj, and_true, List.mem_cons, List.not_mem_nil, or_false]
  by_cases hpd : t = L.pd
  · simp [hpd]
  · by_cases hpt : t = L.pt
    · simp [hpt]
    · by_cases hpdpt : t = L.pdpt
      · simp [hpdpt]
      · simp [hpd, hpt, hpdpt]

theorem entryAt_pml4 (hj : j < 512) : entryAt (pagingInit L m) L.pml4 j =
    if j = 511 then L.pml4 + 3 else if j = 0 then L.pdpt + 3 else 0 := by
  obtain ⟨h1, h2, _⟩ := L.pages_ne
  rw [entryAt_pagingInit L m L.pml4_mod hj]
  simp [h1, h2]

theorem entryAt_pdpt (hj : j < 512) :
    entryAt (pagingInit L m) L.pdpt j = if j = 0 then L.pd + 3 else 0 := by
  obtain ⟨h1, _, h3, _⟩ := L.pages_ne
  rw [entryAt_pagingInit L m L.pdpt_mod hj]
  simp [Ne.symm h1, h3]

theorem entryAt_pd (hj : j < 512) : entryAt (pagingInit L m) L.pd j = identityEntry j := by
  obtain ⟨_, h2, h3, _⟩ := L.pages_ne
  rw [entryAt_pagingInit L m L.pd_mod hj]
  simp [Ne.symm h2, Ne.symm h3]

end Init

/-! ## The walk -/

theorem indexAt_val (k v : Nat) : (indexAt k v : Nat) = v / 2 ^ k % 512 := index_eq v k

/-- The walk goes on through an entry that leads to a table. -/
theorem leafOf_pointer {m : ByteMem} {n e : Nat} {i : Fin 512} {rest : List (Fin 512)}
    (hrest : rest ≠ []) (hentry : entryAt m n i = e) (hpresent : present e = some e)
    (hsmall : ¬Large e) : leafOf tableOf m n (i :: rest) = leafOf tableOf m (tableOf e) rest := by
  rw [leafOf, show read64 m (n + 8 * i) = e from hentry, hpresent, Option.bind_some,
    if_neg (by simp [hrest, hsmall])]

/-- The walk fails at an entry of zero. -/
theorem leafOf_absent {m : ByteMem} {n : Nat} {i : Fin 512} {rest : List (Fin 512)}
    (hentry : entryAt m n i = 0) : leafOf tableOf m n (i :: rest) = none := by
  rw [leafOf, show read64 m (n + 8 * i) = 0 from hentry]
  rfl

/-- The walk ends at the last level. -/
theorem leafOf_last (m : ByteMem) (n : Nat) (i : Fin 512) :
    leafOf tableOf m n [i] = (present (entryAt m n i)).map fun e => (e, 0) := by
  rw [leafOf, show read64 m (n + 8 * i) = entryAt m n i from rfl]
  cases present (entryAt m n i) <;> rfl

/-- The walk of an address below 512 GiB after `paging_init`. -/
theorem leafOf_pagingInit (L : Layout) (m : ByteMem) {v : Nat} (hv : v < 2 ^ 39) :
    leafOf tableOf (pagingInit L m) L.pml4 (virtPath v) =
      if v < 2 ^ 30 then
        (present (entryAt (pagingInit L m) (v / 2 ^ 21 * 2 ^ 21) (v / 2 ^ 12 % 512))).map
          fun e => (e, 0)
      else none := by
  have hpml4 : (indexAt 39 v : Nat) = 0 := by
    rw [indexAt_val]
    omega
  have hpdpt := indexAt_val 30 v
  have hpd := indexAt_val 21 v
  have hptr := tableOf_pointer L.pdpt_mod (by have := L.pdpt_lt; omega)
  rw [virtPath, leafOf_pointer (by simp)
    (by rw [hpml4, entryAt_pml4 L m (by decide), if_neg (by decide), if_pos rfl]) hptr.1 hptr.2.1,
    hptr.2.2]
  by_cases hlow : v < 2 ^ 30
  · have hzero : (indexAt 30 v : Nat) = 0 := by omega
    have hdir : (indexAt 21 v : Nat) = v / 2 ^ 21 := by omega
    have hptr' := tableOf_pointer L.pd_mod (by have := L.pd_lt; omega)
    have hentry := tableOf_identityEntry (indexAt 21 v).isLt
    rw [if_pos hlow, leafOf_pointer (by simp)
      (by rw [hzero, entryAt_pdpt L m (by decide), if_pos rfl]) hptr'.1 hptr'.2.1, hptr'.2.2,
      leafOf_pointer (by simp) (entryAt_pd L m (indexAt 21 v).isLt) hentry.1 hentry.2.1,
      hentry.2.2, leafOf_last, hdir, indexAt_val]
  · have hother : (indexAt 30 v : Nat) ≠ 0 := by omega
    rw [if_neg hlow, leafOf_absent (by rw [entryAt_pdpt L m (indexAt 30 v).isLt, if_neg hother])]

/-- The word that the walk takes for the page-table entry of `v`, at the beginning of
the 2 MiB that were to be mapped, is the entry of its page.  It is part of the memory
`m` that `paging_init` found; of its own tables only a directory at 0 has such a word. -/
def FindsEntry (L : Layout) (m : ByteMem) (v : Nat) : Prop :=
  L.pd = 0 ∧ v < 2 ^ 12 ∨ v / 2 ^ 21 * 2 ^ 21 ∉ [L.pml4, L.pdpt, L.pd, L.pt] ∧
    ∃ e, present (entryAt m (v / 2 ^ 21 * 2 ^ 21) (v / 2 ^ 12 % 512)) = some e ∧
      tableOf e = v / 2 ^ 12 * 2 ^ 12

theorem findsEntry_iff (L : Layout) (m : ByteMem) (v : Nat) :
    (∃ e, present (entryAt (pagingInit L m) (v / 2 ^ 21 * 2 ^ 21) (v / 2 ^ 12 % 512)) = some e ∧
      tableOf e = v / 2 ^ 12 * 2 ^ 12) ↔ FindsEntry L m v := by
  have hpml4 := tableOf_pointer L.pml4_mod (by have := L.pml4_lt; omega)
  have hpdpt := tableOf_pointer L.pdpt_mod (by have := L.pdpt_lt; omega)
  have hpd := tableOf_pointer L.pd_mod (by have := L.pd_lt; omega)
  have hentry := tableOf_identityEntry (show v / 2 ^ 12 % 512 < 512 by omega)
  have hzero : present 0 = none := rfl
  obtain ⟨h1, h2, h3, _⟩ := L.pages_ne
  rw [FindsEntry, entryAt_pagingInit L m (by omega) (by omega)]
  simp only [List.mem_cons, List.not_mem_nil, or_false]
  -- the branches of the table of entries, in its order
  split_ifs
  · simp only [hpml4.1, Option.some.injEq, exists_eq_left', hpml4.2.2]
    omega
  · simp only [hpdpt.1, Option.some.injEq, exists_eq_left', hpdpt.2.2]
    omega
  · simp only [hpd.1, Option.some.injEq, exists_eq_left', hpd.2.2]
    omega
  · simp only [hentry.1, Option.some.injEq, exists_eq_left', hentry.2.2]
    omega
  · simp only [hzero, reduceCtorEq, false_and, exists_false, false_iff]
    omega
  · constructor
    · exact fun hfound => Or.inr ⟨by omega, hfound⟩
    · rintro (⟨_, _⟩ | ⟨_, hfound⟩)
      · omega
      · exact hfound

/-- The translation of one address. -/
theorem translate_pagingInit_iff (L : Layout) (m : ByteMem) {v : Nat} (hv : v < 2 ^ 32) :
    translate L (pagingInit L m) v = some v ↔ v < 2 ^ 30 ∧ FindsEntry L m v := by
  have hcanonical : Canonical v := Or.inl (by omega)
  rw [translate, if_pos hcanonical, leafOf_pagingInit L m (by omega), ← findsEntry_iff]
  by_cases hlow : v < 2 ^ 30
  · rw [if_pos hlow]
    cases present (entryAt (pagingInit L m) (v / 2 ^ 21 * 2 ^ 21) (v / 2 ^ 12 % 512)) with
    | none => simp
    | some e =>
      simp only [Option.map_some, Option.bind_some, leafAddress, Option.some.injEq, hlow,
        true_and, exists_eq_left']
      omega
  · rw [if_neg hlow]
    exact iff_of_false (by simp) fun h => hlow h.1

/-- **The identity map of `paging_init`.**  An address below 4 GiB is translated to itself
exactly if it is below 1 GiB and memory happens to have the entry of its page where the
walk looks for it.  So not all of them are. -/
theorem boot_identity_iff (L : Layout) (m : ByteMem) :
    (∀ v, v < 2 ^ 32 → (translate L (pagingInit L m) v = some v ↔
      v < 2 ^ 30 ∧ FindsEntry L m v)) ∧
      ¬∀ v, v < 2 ^ 32 → translate L (pagingInit L m) v = some v := by
  refine ⟨fun v hv => translate_pagingInit_iff L m hv, ?_⟩
  intro hall
  have hgib := (translate_pagingInit_iff L m (by decide)).mp (hall (2 ^ 30) (by decide))
  exact absurd hgib.1 (by decide)

/-- The tables at the addresses from `0x1000` on. -/
def lowLayout : Layout where
  pml4 := 0x1000
  pdpt := 0x2000
  pd := 0x3000
  pt := 0x4000
  aligned := by decide
  apart := by decide
  low := by decide

theorem boot_identity_byte :
    translate lowLayout (pagingInit lowLayout (write64 (fun _ => 0) 0 1)) 0x10 = some 0x10 := by
  refine ((boot_identity_iff lowLayout _).1 _ (by decide)).mpr
    ⟨by decide, Or.inr ⟨by decide, 1, ?_, by decide⟩⟩
  decide

/-- Nothing is mapped at 1 GiB, and if memory is zero then nothing is mapped at 0. -/
theorem boot_identity_fails :
    translate lowLayout (pagingInit lowLayout fun _ => 0) 0x40000000 = none ∧
      translate lowLayout (pagingInit lowLayout fun _ => 0) 0 = none := by
  have hword : entryAt (pagingInit lowLayout fun _ => 0) 0 0 = 0 := by
    rw [entryAt_pagingInit lowLayout _ rfl (by decide)]
    rfl
  constructor
  · rw [translate, if_pos (by decide), leafOf_pagingInit lowLayout _ (by decide),
      if_neg (by decide)]
    rfl
  · rw [translate, if_pos (by decide), leafOf_pagingInit lowLayout _ (by decide),
      if_pos (by decide)]
    show ((present (entryAt (pagingInit lowLayout fun _ => 0) 0 0)).map _).bind _ = none
    rw [hword]
    rfl

end FarouKernel.Ports.BootPaging
