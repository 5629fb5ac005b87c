import FarouKernel.Verified.WalkCells
import FarouKernel.Ports.BootPagingInit

/-!
# What `map_memory` maps

`map_memory` puts a missing table on the page `&pd + 4096 * index`, whatever its level and
whatever is there: index 0 is `pd` itself, and tables of different levels with one index
are one page.  It goes down through entries without looking at bit 7 and keeps their
execute-disable bit in the address, and it makes a page of 2 MiB whenever the virtual
address allows it, whether the physical address does or not.

So it maps the range only if none of this happens to do harm.  `RoundSound` says what a
round may meet, in terms of the words that the walks of the other addresses read; the
walk of the processor is followed word by word, since the entry 511 of `pml4` points to
`pml4` and a table is reached at several levels.
-/

namespace FarouKernel.Ports.BootPaging

open Verified ByteMem PageTables

/-! ## What a round may meet -/

/-- The address is translated, by a walk that reads the word at `a` with `k` levels below
it. -/
def Reads (L : Layout) (m : ByteMem) (v a k : Nat) : Prop :=
  translate L m v ≠ none ∧ (a, k) ∈ cellsOf tableOf m L.pml4 (virtPath v)

/-- `get_next_table` finds a pointer to a table, with no other bits in it, or makes a table
on a page that is not on the way and that no walk from `P` reads. -/
def TableSound (L : Layout) (P : Nat → Prop) (path : List Nat) (m : ByteMem)
    (table index : Nat) : Prop :=
  if entryAt m table index &&& pagePresent = 0 then
    L.pd + 4096 * index ∉ path ∧
      ∀ v a k, P v → Reads L m v a k → ¬InPage (L.pd + 4096 * index) a
  else
    ¬Large (entryAt m table index) ∧
      entryAt m table index &&& not64 0xFFF = tableOf (entryAt m table index)

/-- The entry of the page is not one of the words that lead to it, and the walks from `P`
that read it can do with the new entry. -/
def LeafSound (L : Layout) (P : Nat → Prop) (words : List Nat) (m : ByteMem)
    (table index entry : Nat) : Prop :=
  table + 8 * index ∉ words ∧
    ∀ v k, P v → Reads L m v (table + 8 * index) k →
      Alike tableOf k (entryAt m table index) entry

/-- The address is outside of what is still to be mapped. -/
def Settled (last : Nat) (s : MapState) (v : Nat) : Prop := v < s.vaddr ∨ last ≤ v

namespace MapState

/-- The words that lead to the directory of the current address. -/
def pdWords (L : Layout) (s : MapState) : List Nat :=
  [L.pml4 + 8 * indexAt 39 s.vaddr, (s.pdptTable L).1 + 8 * indexAt 30 s.vaddr]

/-- The words that lead to the last table of the current address. -/
def ptWords (L : Layout) (s : MapState) : List Nat :=
  s.pdWords L ++ [(s.pdTable L).1 + 8 * indexAt 21 s.vaddr]

end MapState

/-- A round does no harm: the tables on the way are found, or made where no settled
translation needs the memory, and the leaf is written where none depends on it.  Each
level is looked at in the memory that the level above it leaves. -/
structure RoundSound (L : Layout) (flags : PageFlags) (last : Nat) (s : MapState) : Prop where
  pdpt : TableSound L (Settled last s) [L.pml4] s.mem L.pml4 (indexAt 39 s.vaddr)
  pd : TableSound L (Settled last s) [L.pml4, (s.pdptTable L).1] (s.pdptTable L).2
    (s.pdptTable L).1 (indexAt 30 s.vaddr)
  large : s.OnLarge → s.paddr % pageSize2Mb = 0 ∧
    LeafSound L (Settled last s) (s.pdWords L) (s.pdTable L).2 (s.pdTable L).1
      (indexAt 21 s.vaddr) (s.largeEntry flags)
  small : ¬s.OnLarge →
    TableSound L (Settled last s) [L.pml4, (s.pdptTable L).1, (s.pdTable L).1]
        (s.pdTable L).2 (s.pdTable L).1 (indexAt 21 s.vaddr) ∧
      LeafSound L (Settled last s) (s.ptWords L) (s.ptTable L).2 (s.ptTable L).1
        (indexAt 12 s.vaddr) (s.smallEntry flags)

/-- No round does harm. -/
inductive RoundsSound (L : Layout) (flags : PageFlags) (last : Nat) : MapState → Prop
  | done {s : MapState} (hend : last ≤ s.vaddr) : RoundsSound L flags last s
  | round {s : MapState} (hlt : s.vaddr < last) (hround : RoundSound L flags last s)
      (hrest : RoundsSound L flags last (mapStep L flags s)) : RoundsSound L flags last s

/-- The range has translations at all, and no round does harm. -/
structure MapSound (L : Layout) (flags : PageFlags) (m : ByteMem) (vaddr paddr size : Nat) :
    Prop where
  canonical : ∀ o < size, Canonical (vaddr + o)
  width : 0 < size → paddr + size ≤ 2 ^ 52
  rounds : RoundsSound L flags (vaddr + size) ⟨vaddr, paddr, size, m⟩

/-! ## Entries -/

theorem PageFlags.bits_lt (flags : PageFlags) : flags.bits < 8 ∧ flags.bits % 2 = 1 := by
  cases flags <;> decide

theorem PageFlags.bits_or (flags : PageFlags) : flags.bits ||| 1 <<< 7 = flags.bits + 128 := by
  cases flags <;> rfl

section Leaves

variable {s : MapState}

theorem smallEntry_spec (flags : PageFlags) (halign : s.paddr % 4096 = 0) (hlt : s.paddr < 2 ^ 52) :
    present (s.smallEntry flags) = some (s.smallEntry flags) ∧
      tableOf (s.smallEntry flags) = s.paddr ∧ s.smallEntry flags < 2 ^ 64 := by
  have hbits := flags.bits_lt
  have heq : s.smallEntry flags = s.paddr + flags.bits + 2 ^ 63 := by
    rw [MapState.smallEntry, or_flags halign (by omega), or_pageNx (by omega)]
  rw [heq]
  refine ⟨present_of_odd (by omega), ?_, by omega⟩
  unfold tableOf
  omega

theorem largeEntry_spec (flags : PageFlags) (halign : s.paddr % 4096 = 0) (hlt : s.paddr < 2 ^ 52) :
    present (s.largeEntry flags) = some (s.largeEntry flags) ∧ Large (s.largeEntry flags) ∧
      tableOf (s.largeEntry flags) = s.paddr ∧ s.largeEntry flags < 2 ^ 64 := by
  have hbits := flags.bits_lt
  have heq : s.largeEntry flags = s.paddr + (flags.bits + 128) + 2 ^ 63 := by
    rw [MapState.largeEntry, Nat.or_right_comm, Nat.or_assoc s.paddr, flags.bits_or,
      or_flags halign (by omega), or_pageNx (by omega)]
  rw [heq]
  refine ⟨present_of_odd (by omega), ?_, ?_, by omega⟩
  · rw [large_iff]
    omega
  · unfold tableOf
    omega

end Leaves

/-! ## Walks -/

variable {t n k j v : Nat}

section Walks

variable {L : Layout} {m m' : ByteMem} {v p : Nat}

/-- The address of a leaf depends on the page it leads to. -/
theorem leafAddress_congr {e e' : Nat} (h : tableOf e' = tableOf e) (v k : Nat) :
    leafAddress v (e', k) = leafAddress v (e, k) := by
  rcases k with _ | _ | _ | k <;> simp only [leafAddress, largePage, h]

theorem translate_eq_some (h : translate L m v = some p) :
    Canonical v ∧ ∃ e k, leafOf tableOf m L.pml4 (virtPath v) = some (e, k) ∧
      leafAddress v (e, k) = some p := by
  unfold translate at h
  split at h
  · rename_i hcanonical
    rw [Option.bind_eq_some_iff] at h
    obtain ⟨⟨e, k⟩, hleaf, haddr⟩ := h
    exact ⟨hcanonical, e, k, hleaf, haddr⟩
  · cases h

/-- The words of a successful walk are present entries of tables. -/
theorem Reads.entry {a : Nat} (h : Reads L m v a k) :
    ∃ t, t % 4096 = 0 ∧ ∃ i < 512, a = t + 8 * i ∧ present (entryAt m t i) ≠ none := by
  obtain ⟨hsome, hcell⟩ := h
  obtain ⟨p, hp⟩ := Option.ne_none_iff_exists'.mp hsome
  obtain ⟨_, e, k', hleaf, _⟩ := translate_eq_some hp
  have hpresent := present_of_mem_cellsOf hleaf hcell
  obtain ⟨t, ht, i, ha⟩ := mem_cellsOf_aligned tableOf_mod L.pml4_mod hcell
  simp only at ha hpresent
  exact ⟨t, ht, i, i.isLt, ha, by rw [entryAt, ← ha]; exact hpresent⟩

/-- A translation stays if the entries its walk reads are replaced by ones like them. -/
theorem translate_of_kept (h : translate L m v = some p)
    (hkept : ∀ a k, Reads L m v a k → KeptAt tableOf m m' a k) : translate L m' v = some p := by
  obtain ⟨hcanonical, e, k, hleaf, haddr⟩ := translate_eq_some h
  obtain ⟨e', hleaf', hsame⟩ := leafOf_of_kept hleaf fun c hc =>
    hkept c.1 c.2 ⟨by rw [h]; exact Option.some_ne_none p, hc⟩
  rw [translate, if_pos hcanonical, hleaf', Option.bind_some, leafAddress_congr hsame, haddr]

/-- The entry is a pointer to the table `t`. -/
structure Linked (m : ByteMem) (n i t : Nat) : Prop where
  present : PageTables.present (entryAt m n i) = some (entryAt m n i)
  small : ¬Large (entryAt m n i)
  leads : tableOf (entryAt m n i) = t

theorem Linked.congr {i : Nat} (h : Linked m n i t) (heq : entryAt m' n i = entryAt m n i) :
    Linked m' n i t := by
  obtain ⟨hpresent, hsmall, hleads⟩ := h
  rw [← heq] at hpresent hsmall hleads
  exact ⟨hpresent, hsmall, hleads⟩

theorem Linked.leafOf {i : Fin 512} {rest : List (Fin 512)} (h : Linked m n i t)
    (hrest : rest ≠ []) :
    PageTables.leafOf tableOf m n (i :: rest) = PageTables.leafOf tableOf m t rest := by
  rw [leafOf_pointer hrest rfl h.present h.small, h.leads]

end Walks

/-! ## `get_next_table` -/

section Descent

variable {L : Layout} {P : Nat → Prop} {path : List Nat} {m : ByteMem} {table index : Nat}

/-- What `get_next_table` leaves: a pointer to the table it returns, the translations of the
addresses in `P`, and the entries of the tables on the way. -/
structure Descent (L : Layout) (P : Nat → Prop) (path : List Nat) (m : ByteMem)
    (table index : Nat) (result : Nat × ByteMem) : Prop where
  linked : Linked result.2 table index result.1
  translates : ∀ v p, P v → translate L m v = some p → translate L result.2 v = some p
  keeps : ∀ n ∈ path, n % 4096 = 0 → ∀ j < 512, present (entryAt m n j) ≠ none →
    entryAt result.2 n j = entryAt m n j

/-- The entry that `get_next_table` writes, read back. -/
theorem getNextTable_absent (hindex : index < 512)
    (habsent : entryAt m table index &&& pagePresent = 0) :
    getNextTable L table index true m = (L.pd + 4096 * index,
      setEntry table index (L.pd + 4096 * index + 3) (clearTable (L.pd + 4096 * index) m)) := by
  have hmod := L.pd_mod
  have hlt := L.pd_lt
  have hback : ∀ m', entryAt (setEntry table index (L.pd + 4096 * index + 3) m') table index =
      L.pd + 4096 * index + 3 := fun m' => read64_write64_of_lt (by omega)
  have hmask : (L.pd + 4096 * index + 3) &&& not64 0xFFF = L.pd + 4096 * index := by
    rw [show (0xFFF : Nat) = 2 ^ 12 - 1 from rfl, and_not64_lowMask (by omega) (by omega)]
    omega
  unfold getNextTable
  rw [if_pos habsent, if_pos rfl]
  simp only [or_present_rw (show (L.pd + 4096 * index) % 4096 = 0 by omega), hback, hmask]

theorem getNextTable_present (hpresent : entryAt m table index &&& pagePresent ≠ 0) :
    getNextTable L table index true m = (entryAt m table index &&& not64 0xFFF, m) := by
  rw [getNextTable, if_neg hpresent]

/-- A table is made where it does no harm. -/
theorem descent_absent (htable : table % 4096 = 0) (hindex : index < 512)
    (habsent : entryAt m table index &&& pagePresent = 0)
    (hpath : L.pd + 4096 * index ∉ path)
    (hwalks : ∀ v a k, P v → Reads L m v a k → ¬InPage (L.pd + 4096 * index) a) :
    Descent L P path m table index (getNextTable L table index true m) := by
  have hmod := L.pd_mod
  have hlt := L.pd_lt
  rw [getNextTable_absent hindex habsent]
  generalize hT : L.pd + 4096 * index = T at *
  -- A present entry of another page than `T` is not touched.
  have hkeep : ∀ n, n % 4096 = 0 → n ≠ T → ∀ j < 512, present (entryAt m n j) ≠ none →
      entryAt (setEntry table index (T + 3) (clearTable T m)) n j = entryAt m n j := by
    intro n hn hne j hj hpresent
    have hcell : ¬(n = table ∧ j = index) := by
      rintro ⟨rfl, rfl⟩
      exact hpresent (present_eq_none.mpr habsent)
    rw [entryAt_setEntry htable hn hindex hj (by omega), if_neg hcell,
      entryAt_clearTable (by omega) hn hj, if_neg hne]
  have hentry : entryAt (setEntry table index (T + 3) (clearTable T m)) table index = T + 3 :=
    read64_write64_of_lt (by omega)
  obtain ⟨hpointer, hsmall, hleads⟩ := tableOf_pointer (t := T) (by omega) (by omega)
  rw [← hentry] at hpointer hsmall hleads
  refine ⟨⟨hpointer, hsmall, hleads⟩, ?_, ?_⟩
  · intro v p hv hp
    refine translate_of_kept hp fun a k hreads => KeptAt.of_eq ?_
    obtain ⟨t, ht, i, hi, rfl, hpresent⟩ := hreads.entry
    refine hkeep t ht ?_ i hi hpresent
    rintro rfl
    exact hwalks v _ k hv hreads ⟨by omega, by omega⟩
  · intro n hn hmod' j hj hpresent
    exact hkeep n hmod' (fun heq => hpath (heq ▸ hn)) j hj hpresent

/-- `get_next_table`, where it does no harm. -/
theorem getNextTable_sound (htable : table % 4096 = 0) (hindex : index < 512)
    (h : TableSound L P path m table index) :
    Descent L P path m table index (getNextTable L table index true m) := by
  unfold TableSound at h
  split at h
  · rename_i habsent
    exact descent_absent htable hindex habsent h.1 h.2
  · rename_i hpresent
    rw [getNextTable_present hpresent]
    refine ⟨⟨?_, h.1, h.2.symm⟩, fun v p _ hp => hp, fun _ _ _ _ _ _ => rfl⟩
    exact if_neg hpresent

theorem Descent.table_mod {result : Nat × ByteMem} (h : Descent L P path m table index result) :
    result.1 % 4096 = 0 := by
  rw [← h.linked.leads]
  exact tableOf_mod _

/-- A pointer on the way survives the next step down. -/
theorem Descent.linked_of {result : Nat × ByteMem} (h : Descent L P path m table index result)
    (hn : n ∈ path) (hmod : n % 4096 = 0) (hj : j < 512) (hlink : Linked m n j t) :
    Linked result.2 n j t :=
  hlink.congr (h.keeps n hn hmod j hj (by rw [hlink.present]; exact Option.some_ne_none _))

/-- The entry of a page is written where it does no harm. -/
theorem leaf_translates {words : List Nat} {entry : Nat} (htable : table % 4096 = 0)
    (hindex : index < 512) (hentry : entry < 2 ^ 64) (hpresent : present entry = some entry)
    (h : LeafSound L P words m table index entry) {p : Nat} (hv : P v)
    (hp : translate L m v = some p) : translate L (setEntry table index entry m) v = some p := by
  refine translate_of_kept hp fun a k hreads => ?_
  obtain ⟨t, ht, i, hi, rfl, _⟩ := hreads.entry
  have hread := entryAt_setEntry (m := m) htable ht hindex hi hentry
  by_cases hcell : t = table ∧ i = index
  · obtain ⟨rfl, rfl⟩ := hcell
    rw [if_pos ⟨rfl, rfl⟩] at hread
    intro e he
    obtain rfl : entryAt m t i = e := (present_eq_some he).1
    exact ⟨entry, (congrArg present hread).trans hpresent, h.2 v k hv hreads⟩
  · rw [if_neg hcell] at hread
    exact KeptAt.of_eq hread

/-- A pointer that leads to the entry survives it. -/
theorem Linked.setEntry {entry : Nat} (hlink : Linked m n j t) (htable : table % 4096 = 0)
    (hindex : index < 512) (hentry : entry < 2 ^ 64) (hn : n % 4096 = 0) (hj : j < 512)
    (hne : table + 8 * index ≠ n + 8 * j) :
    Linked (BootPaging.setEntry table index entry m) n j t := by
  refine hlink.congr ?_
  rw [entryAt_setEntry htable hn hindex hj hentry, if_neg]
  rintro ⟨rfl, rfl⟩
  exact hne rfl

end Descent

/-! ## A round -/

theorem Linked.table_mod {m : ByteMem} {i : Nat} (h : Linked m n i t) : t % 4096 = 0 := by
  rw [← h.leads]
  exact tableOf_mod _

section Round

variable {L : Layout} {flags : PageFlags} {last : Nat} {s : MapState}

section

variable (h : RoundSound L flags last s)

include h

/-- The way to the directory of the current address. -/
theorem RoundSound.reach_pd :
    Linked (s.pdTable L).2 L.pml4 (indexAt 39 s.vaddr) (s.pdptTable L).1 ∧
      Linked (s.pdTable L).2 (s.pdptTable L).1 (indexAt 30 s.vaddr) (s.pdTable L).1 ∧
      ∀ v p, Settled last s v → translate L s.mem v = some p →
        translate L (s.pdTable L).2 v = some p := by
  have hpdpt := getNextTable_sound L.pml4_mod (indexAt 39 s.vaddr).isLt h.pdpt
  have hpd := getNextTable_sound hpdpt.table_mod (indexAt 30 s.vaddr).isLt h.pd
  refine ⟨?_, hpd.linked, fun v p hv hp => hpd.translates v p hv (hpdpt.translates v p hv hp)⟩
  exact hpd.linked_of List.mem_cons_self L.pml4_mod (indexAt 39 s.vaddr).isLt hpdpt.linked

/-- The way to the last table of the current address. -/
theorem RoundSound.reach_pt (hsmall : ¬s.OnLarge) :
    Linked (s.ptTable L).2 L.pml4 (indexAt 39 s.vaddr) (s.pdptTable L).1 ∧
      Linked (s.ptTable L).2 (s.pdptTable L).1 (indexAt 30 s.vaddr) (s.pdTable L).1 ∧
      Linked (s.ptTable L).2 (s.pdTable L).1 (indexAt 21 s.vaddr) (s.ptTable L).1 ∧
      ∀ v p, Settled last s v → translate L s.mem v = some p →
        translate L (s.ptTable L).2 v = some p := by
  obtain ⟨hpml4, hpdpt, htranslates⟩ := h.reach_pd
  have hpt := getNextTable_sound hpdpt.table_mod (indexAt 21 s.vaddr).isLt (h.small hsmall).1
  refine ⟨?_, ?_, hpt.linked, fun v p hv hp => hpt.translates v p hv (htranslates v p hv hp)⟩
  · exact hpt.linked_of (by simp) L.pml4_mod (indexAt 39 s.vaddr).isLt hpml4
  · exact hpt.linked_of (by simp) hpml4.table_mod (indexAt 30 s.vaddr).isLt hpdpt

end

/-- The addresses of a page share the indices above it. -/
theorem indexAt_add {o : Nat} (hkj : k ≤ j) (hv : v % 2 ^ k = 0) (ho : o < 2 ^ k) :
    indexAt j (v + o) = indexAt j v := by
  apply Fin.ext
  rw [indexAt_val, indexAt_val]
  obtain ⟨i, rfl⟩ := Nat.exists_eq_add_of_le hkj
  have hdiv : (v + o) / 2 ^ k = v / 2 ^ k := by
    rw [Nat.add_div (Nat.two_pow_pos k), hv, Nat.div_eq_of_lt ho, Nat.mod_eq_of_lt ho,
      if_neg (by omega), Nat.add_zero]
  rw [Nat.pow_add, ← Nat.div_div_eq_div_mul, ← Nat.div_div_eq_div_mul, hdiv]

/-- In `m'` the page in front is mapped, and no other translation is lost. -/
def PageMapped (L : Layout) (last : Nat) (s : MapState) (m' : ByteMem) (page : Nat) : Prop :=
  (∀ v p, Settled last s v → translate L s.mem v = some p → translate L m' v = some p) ∧
    ∀ o < page, Canonical (s.vaddr + o) → translate L m' (s.vaddr + o) = some (s.paddr + o)

/-- A round that maps 2 MiB. -/
theorem RoundSound.large_page (h : RoundSound L flags last s) (hlarge : s.OnLarge)
    (hvaddr : s.vaddr % 2 ^ 21 = 0) (hpaddr : s.paddr < 2 ^ 52) :
    PageMapped L last s (setEntry (s.pdTable L).1 (indexAt 21 s.vaddr) (s.largeEntry flags)
      (s.pdTable L).2) (2 ^ 21) := by
  obtain ⟨hpml4, hpdpt, htranslates⟩ := h.reach_pd
  obtain ⟨halign, hleaf⟩ := h.large hlarge
  have halign' : s.paddr % 2 ^ 21 = 0 := halign
  have hindex := (indexAt 21 s.vaddr).isLt
  obtain ⟨hpresent, hbit, htable, hlt⟩ := largeEntry_spec flags
    (show s.paddr % 4096 = 0 by omega) hpaddr
  have hwords := hleaf.1
  simp only [MapState.pdWords, List.mem_cons, List.not_mem_nil, or_false, not_or] at hwords
  constructor
  · intro v p hv hp
    exact leaf_translates hpdpt.table_mod hindex hlt hpresent hleaf hv (htranslates v p hv hp)
  · intro o ho hcanonical
    have hpml4' := hpml4.setEntry hpdpt.table_mod hindex hlt L.pml4_mod
      (indexAt 39 s.vaddr).isLt hwords.1
    have hpdpt' := hpdpt.setEntry hpdpt.table_mod hindex hlt hpml4.table_mod
      (indexAt 30 s.vaddr).isLt hwords.2
    have hentry : read64 (setEntry (s.pdTable L).1 (indexAt 21 s.vaddr) (s.largeEntry flags)
        (s.pdTable L).2) ((s.pdTable L).1 + 8 * indexAt 21 s.vaddr) = s.largeEntry flags :=
      read64_write64_of_lt hlt
    rw [translate, if_pos hcanonical, virtPath, indexAt_add (by omega) hvaddr ho,
      indexAt_add (by omega) hvaddr ho, indexAt_add (Nat.le_refl 21) hvaddr ho,
      hpml4'.leafOf (by simp), hpdpt'.leafOf (by simp), leafOf, hentry, hpresent,
      Option.bind_some, if_pos (Or.inr hbit), Option.bind_some]
    show largePage 21 (s.largeEntry flags) (s.vaddr + o) = some (s.paddr + o)
    rw [largePage, htable, if_pos (by omega)]
    refine congrArg some ?_
    omega

/-- A round that maps 4 KiB. -/
theorem RoundSound.small_page (h : RoundSound L flags last s) (hsmall : ¬s.OnLarge)
    (hvaddr : s.vaddr % 2 ^ 12 = 0) (halign : s.paddr % 2 ^ 12 = 0) (hpaddr : s.paddr < 2 ^ 52) :
    PageMapped L last s (setEntry (s.ptTable L).1 (indexAt 12 s.vaddr) (s.smallEntry flags)
      (s.ptTable L).2) (2 ^ 12) := by
  obtain ⟨hpml4, hpdpt, hpd, htranslates⟩ := h.reach_pt hsmall
  have hleaf := (h.small hsmall).2
  have hindex := (indexAt 12 s.vaddr).isLt
  obtain ⟨hpresent, htable, hlt⟩ := smallEntry_spec flags halign hpaddr
  have hwords := hleaf.1
  simp only [MapState.ptWords, MapState.pdWords, List.cons_append, List.nil_append,
    List.mem_cons, List.not_mem_nil, or_false, not_or] at hwords
  constructor
  · intro v p hv hp
    exact leaf_translates hpd.table_mod hindex hlt hpresent hleaf hv (htranslates v p hv hp)
  · intro o ho hcanonical
    have hpml4' := hpml4.setEntry hpd.table_mod hindex hlt L.pml4_mod
      (indexAt 39 s.vaddr).isLt hwords.1
    have hpdpt' := hpdpt.setEntry hpd.table_mod hindex hlt hpml4.table_mod
      (indexAt 30 s.vaddr).isLt hwords.2.1
    have hpd' := hpd.setEntry hpd.table_mod hindex hlt hpdpt.table_mod
      (indexAt 21 s.vaddr).isLt hwords.2.2
    have hentry : entryAt (setEntry (s.ptTable L).1 (indexAt 12 s.vaddr) (s.smallEntry flags)
        (s.ptTable L).2) (s.ptTable L).1 (indexAt 12 s.vaddr) = s.smallEntry flags :=
      read64_write64_of_lt hlt
    rw [translate, if_pos hcanonical, virtPath, indexAt_add (by omega) hvaddr ho,
      indexAt_add (by omega) hvaddr ho, indexAt_add (by omega) hvaddr ho,
      indexAt_add (Nat.le_refl 12) hvaddr ho, hpml4'.leafOf (by simp), hpdpt'.leafOf (by simp),
      hpd'.leafOf (by simp), leafOf_last, hentry, hpresent]
    show some (tableOf (s.smallEntry flags) + (s.vaddr + o) % 2 ^ 12) = some (s.paddr + o)
    rw [htable]
    refine congrArg some ?_
    omega

end Round

/-! ## The loop -/

section Loop

variable {L : Layout} {flags : PageFlags} {last : Nat} {s : MapState}

/-- The variables of the loop: whole pages are left, up to `last`, and they have
translations. -/
structure LoopInv (last : Nat) (s : MapState) : Prop where
  vaddr : s.vaddr % 4096 = 0
  paddr : s.paddr % 4096 = 0
  size : s.size % 4096 = 0
  ends : s.vaddr + s.size = last
  wrap : last < 2 ^ 64
  width : 0 < s.size → s.paddr + s.size ≤ 2 ^ 52
  canonical : ∀ o < s.size, Canonical (s.vaddr + o)

/-- The variables behind a page. -/
theorem LoopInv.advance (h : LoopInv last s) (page : Nat) (m' : ByteMem)
    (hpage : page % 4096 = 0) (hpos : 0 < page) (hle : page ≤ s.size) :
    s.advance page m' = ⟨s.vaddr + page, s.paddr + page, s.size - page, m'⟩ ∧
      LoopInv last (s.advance page m') := by
  obtain ⟨hvaddr, hpaddr, hsize, hends, hwrap, hwidth, hcanonical⟩ := h
  have hfits := hwidth (by omega)
  have heq : s.advance page m' = ⟨s.vaddr + page, s.paddr + page, s.size - page, m'⟩ := by
    rw [MapState.advance, add64_of_lt (by omega), add64_of_lt (by omega),
      sub64_of_le hle (by omega)]
  refine ⟨heq, ?_⟩
  rw [heq]
  refine ⟨?_, ?_, ?_, ?_, hwrap, ?_, ?_⟩ <;> dsimp only <;> try omega
  intro o ho
  have hcan := hcanonical (page + o) (by omega)
  rwa [← Nat.add_assoc] at hcan

/-- A round maps a page in front and goes on behind it. -/
theorem mapStep_sound (hinv : LoopInv last s) (hlt : s.vaddr < last)
    (h : RoundSound L flags last s) :
    ∃ page m', mapStep L flags s = s.advance page m' ∧ page % 4096 = 0 ∧ 4096 ≤ page ∧
      page ≤ s.size ∧ PageMapped L last s m' page := by
  obtain ⟨hvaddr, hpaddr, hsize, hends, _, hwidth, _⟩ := hinv
  have hfits := hwidth (by omega)
  by_cases hlarge : s.OnLarge
  · have hle : 2 ^ 21 ≤ s.size := hlarge.1
    have hmod : s.vaddr % 2 ^ 21 = 0 :=
      (Nat.and_two_pow_sub_one_eq_mod s.vaddr 21).symm.trans hlarge.2
    have hstep : mapStep L flags s = s.advance (2 ^ 21) (setEntry (s.pdTable L).1
        (indexAt 21 s.vaddr) (s.largeEntry flags) (s.pdTable L).2) := if_pos hlarge
    exact ⟨2 ^ 21, _, hstep, by decide, by decide, hle, h.large_page hlarge hmod (by omega)⟩
  · have hstep : mapStep L flags s = s.advance (2 ^ 12) (setEntry (s.ptTable L).1
        (indexAt 12 s.vaddr) (s.smallEntry flags) (s.ptTable L).2) := if_neg hlarge
    exact ⟨2 ^ 12, _, hstep, by decide, by decide, by omega,
      h.small_page hlarge hvaddr hpaddr (by omega)⟩

/-- The loop maps what is left, and keeps the translations of all other addresses. -/
theorem mapLoop_sound (h : RoundsSound L flags last s) (hinv : LoopInv last s) (rounds : Nat)
    (hrounds : s.size < 4096 * rounds) :
    ∃ m', mapLoop L flags last rounds s = some m' ∧
      (∀ v p, Settled last s v → translate L s.mem v = some p → translate L m' v = some p) ∧
      ∀ o < s.size, translate L m' (s.vaddr + o) = some (s.paddr + o) := by
  induction h generalizing rounds with
  | @done s hend =>
    obtain ⟨rounds, rfl⟩ := Nat.exists_eq_succ_of_ne_zero (show rounds ≠ 0 by omega)
    have hends := hinv.ends
    refine ⟨s.mem, if_neg (by omega), fun v p _ hp => hp, fun o ho => ?_⟩
    omega
  | @round s hlt hround _ ih =>
    obtain ⟨rounds, rfl⟩ := Nat.exists_eq_succ_of_ne_zero (show rounds ≠ 0 by omega)
    obtain ⟨page, m1, hstep, hmod, hpage, hle, hkeeps, hmaps⟩ := mapStep_sound hinv hlt hround
    obtain ⟨heq, hinv'⟩ := hinv.advance page m1 hmod (by omega) hle
    rw [← hstep] at heq hinv'
    have hsize : (mapStep L flags s).size = s.size - page := by rw [heq]
    obtain ⟨m', hloop, hkeeps', hmaps'⟩ := ih hinv' rounds (by omega)
    rw [heq] at hkeeps' hmaps'
    refine ⟨m', (if_pos hlt).trans hloop, ?_, ?_⟩
    · intro v p hv hp
      refine hkeeps' v p ?_ (hkeeps v p hv hp)
      unfold Settled at hv ⊢
      show v < s.vaddr + page ∨ last ≤ v
      omega
    · intro o ho
      -- The page of this round is settled for the next ones.
      by_cases hin : o < page
      · refine hkeeps' _ _ (Or.inl ?_) (hmaps o hin (hinv.canonical o ho))
        exact Nat.add_lt_add_left hin s.vaddr
      · have hmap := hmaps' (o - page) (show o - page < s.size - page by omega)
        rwa [show s.vaddr + page + (o - page) = s.vaddr + o by omega,
          show s.paddr + page + (o - page) = s.paddr + o by omega] at hmap

end Loop

/-- **`map_memory` maps the range**, where no round does harm: it returns true, every
address of the range is translated as asked, and no other translation is lost. -/
theorem map_memory_exact (L : Layout) (m : ByteMem) (flags : PageFlags) {vaddr paddr size : Nat}
    (hvaddr : vaddr % 4096 = 0) (hpaddr : paddr % 4096 = 0) (hsize : size % 4096 = 0)
    (hwrap : vaddr + size < 2 ^ 64) (h : MapSound L flags m vaddr paddr size) :
    ∃ m', mapMemory L vaddr paddr size flags m = some (true, m') ∧
      (∀ o < size, translate L m' (vaddr + o) = some (paddr + o)) ∧
      ∀ v p, v < vaddr ∨ vaddr + size ≤ v → translate L m v = some p →
        translate L m' v = some p := by
  have hinv : LoopInv (vaddr + size) ⟨vaddr, paddr, size, m⟩ :=
    ⟨hvaddr, hpaddr, hsize, rfl, hwrap, h.width, h.canonical⟩
  obtain ⟨m', hloop, hkeeps, hmaps⟩ := mapLoop_sound h.rounds hinv (2 ^ 52)
    (show size < 4096 * 2 ^ 52 by omega)
  refine ⟨m', ?_, hmaps, hkeeps⟩
  rw [mapMemory, add64_of_lt hwrap, hloop]
  rfl

/-- The tables that a walk can come to after `paging_init`, if memory was zero. -/
def InitTable (L : Layout) (t : Nat) : Prop :=
  t ∈ [L.pml4, L.pdpt, L.pd] ∨ ∃ i < 512, t = i * 2 ^ 21

theorem initTable_next (L : Layout) (ht : t % 4096 = 0) (i : Fin 512) {e : Nat}
    (he : present (entryAt (pagingInit L fun _ => 0) t i) = some e) : InitTable L (tableOf e) := by
  obtain ⟨heq, hne⟩ := present_eq_some he
  have hpml4 := (tableOf_pointer L.pml4_mod (by have := L.pml4_lt; omega)).2.2
  have hpdpt := (tableOf_pointer L.pdpt_mod (by have := L.pdpt_lt; omega)).2.2
  have hpd := (tableOf_pointer L.pd_mod (by have := L.pd_lt; omega)).2.2
  rw [← heq]
  rw [entryAt_pagingInit L _ ht i.isLt] at hne ⊢
  unfold InitTable
  -- the branches of the table of entries, in its order
  split_ifs at hne ⊢
  · exact Or.inl (by simp [hpml4])
  · exact Or.inl (by simp [hpdpt])
  · exact Or.inl (by simp [hpd])
  · exact Or.inr ⟨i, i.isLt, (tableOf_identityEntry i.isLt).2.2⟩
  · exact absurd rfl hne
  · exact absurd (by rw [entryAt, read64_const_zero]; rfl) hne

/-- The words that the walks read after `paging_init`, if memory was zero. -/
theorem reads_pagingInit (L : Layout) {a : Nat} (h : Reads L (pagingInit L fun _ => 0) v a k) :
    ∃ t, InitTable L t ∧ ∃ i : Fin 512, a = t + 8 * i := by
  have hmod : ∀ t, InitTable L t → t % 4096 = 0 := by
    rintro t (ht | ⟨i, _, rfl⟩)
    · refine L.aligned t ?_
      simp only [List.mem_cons, List.not_mem_nil, or_false] at ht ⊢
      tauto
    · omega
  exact mem_cellsOf_closed (InitTable L)
    (fun t ht i e he _ => initTable_next L (hmod t ht) i he) (Or.inl List.mem_cons_self) h.2

/-- The first round for the 2 MiB from 1 GiB on. -/
def firstRound (m : ByteMem) : MapState := ⟨0x40000000, 0x40000000, 0x200000, m⟩

theorem pdptTable_firstRound {m : ByteMem} (h : entryAt m lowLayout.pml4 0 = 0x2003) :
    ((firstRound m).pdptTable lowLayout).1 = 0x2000 ∧
      ((firstRound m).pdptTable lowLayout).2 = m := by
  have hindex : (indexAt 39 (firstRound m).vaddr : Nat) = 0 := by
    rw [indexAt_val]
    show 0x40000000 / 2 ^ 39 % 512 = 0
    decide
  have hmem : (firstRound m).mem = m := rfl
  rw [MapState.pdptTable, hindex, hmem, getNextTable_present (by rw [h]; decide), h]
  exact ⟨rfl, rfl⟩

theorem roundSound_firstRound :
    RoundSound lowLayout .kernelRw 0x40200000 (firstRound (pagingInit lowLayout fun _ => 0)) := by
  have hindex : (indexAt 30 (firstRound (pagingInit lowLayout fun _ => 0)).vaddr : Nat) = 1 := by
    decide +kernel
  obtain ⟨htable, hmem⟩ := pdptTable_firstRound (m := pagingInit lowLayout fun _ => 0)
    (by decide +kernel)
  refine ⟨?_, ?_, ?_, ?_⟩
  · rw [TableSound, if_neg (by decide +kernel)]
    decide +kernel
  · rw [htable, hmem, hindex, TableSound, if_pos (by decide +kernel)]
    refine ⟨by decide, fun v a k _ hreads => ?_⟩
    obtain ⟨t, ht, i, rfl⟩ := reads_pagingInit lowLayout hreads
    have hi := i.isLt
    have hpage : lowLayout.pd + 4096 * 1 = 0x4000 := rfl
    have htable : t = 0x1000 ∨ t = 0x2000 ∨ t = 0x3000 ∨ ∃ j < 512, t = j * 2 ^ 21 := by
      simpa [InitTable, lowLayout, or_assoc] using ht
    rw [hpage]
    unfold InPage
    omega
  · intro _
    refine ⟨by decide +kernel, by decide +kernel, fun v k _ hreads => ?_⟩
    obtain ⟨t, _, i, _, ha, hpresent⟩ := hreads.entry
    rw [entryAt, ← ha] at hpresent
    exact absurd (by decide +kernel) hpresent
  · intro hsmall
    exact absurd (by decide +kernel) hsmall

theorem map_memory_exact_gib :
    ∃ m', mapMemory lowLayout 0x40000000 0x40000000 0x200000 .kernelRw
        (pagingInit lowLayout fun _ => 0) = some (true, m') ∧
      (∀ o < 0x200000, translate lowLayout m' (0x40000000 + o) = some (0x40000000 + o)) ∧
      ∀ v p, v < 0x40000000 ∨ 0x40000000 + 0x200000 ≤ v →
        translate lowLayout (pagingInit lowLayout fun _ => 0) v = some p →
        translate lowLayout m' v = some p := by
  refine map_memory_exact lowLayout _ .kernelRw (by decide) (by decide) (by decide) (by decide)
    ⟨?_, fun _ => by decide,
      RoundsSound.round (by decide) roundSound_firstRound (RoundsSound.done ?_)⟩
  · intro o ho
    exact Or.inl (by omega)
  · decide +kernel

/-- Two calls right after `paging_init`.  A page of 2 MiB is made for a physical address
that is not a multiple of 2 MiB; and the table for a page of 4 KiB is put on `pd`, whose
entries are lost. -/
theorem map_memory_harms :
    (mapMemory lowLayout 0x40000000 0x1000 0x200000 .kernelRw
        (pagingInit lowLayout fun _ => 0)).map
      (fun r => (r.1, translate lowLayout r.2 0x40000000)) = some (true, some 0) ∧
    translate lowLayout (pagingInit lowLayout fun _ => 0) 0xFFFFFF8000001000 = some 0x200000 ∧
    (mapMemory lowLayout 0x40000000 0x200000 0x1000 .kernelRw
        (pagingInit lowLayout fun _ => 0)).map
      (fun r => (r.1, translate lowLayout r.2 0xFFFFFF8000001000)) = some (true, none) := by
  refine ⟨?_, ?_, ?_⟩ <;> decide +kernel

end FarouKernel.Ports.BootPaging
