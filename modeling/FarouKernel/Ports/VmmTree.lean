import FarouKernel.Ports.PmmFrames
import FarouKernel.Ports.VmmModel
import FarouKernel.Verified.PageTables

/-!
# Page tables as a radix tree

The page tables of an address space are a radix tree of depth four over physical
memory.  `AddressSpace` ties the tree to the frame allocator: the frames in use
are those of the other clients and those of the tables, and no frame is both.

The operations of the manager are built from three primitives: adding an empty
table, removing an empty table, and writing the entry of a page.  Each changes
the tree at one path (`AddressSpace.link`, `AddressSpace.unlink`,
`AddressSpace.setPage`).  What the other clients of the frame allocator do
changes it nowhere.
-/

namespace FarouKernel.Ports.Vmm

open Verified ByteMem Radix
open Verified.PageTables (InPage)
open Ports.Memory Ports.Pmm

/-- The tables in physical memory. -/
def pageEntries (m : ByteMem) : Tables Nat (Fin 512) Nat := fun table i =>
  presentEntry (read64 m (table + 8 * i))

theorem pageEntries_apply (m : ByteMem) (table : Nat) (i : Fin 512) :
    pageEntries m table i = presentEntry (read64 m (table + 8 * i)) := rfl

/-- The entry of the address space that a path selects. -/
def entryAt (s : Machine) (root : Nat) (q : List (Fin 512)) : Option Nat :=
  walk tableOf (pageEntries s.mem) root q

/-- The table of the address space at the end of a path. -/
def tableAt (s : Machine) (root : Nat) (q : List (Fin 512)) : Option Nat :=
  reach tableOf (pageEntries s.mem) root q

/-! ## Entries -/

variable {m : ByteMem} {s' : Machine} {x a : Nat}

theorem and_addrMask (hlt : x < 2 ^ 52) (halign : x % 4096 = 0) : x &&& pteAddrMask = x := by
  have hmask : pteAddrMask = (2 ^ 40 - 1) <<< 12 := by decide
  have hx : x = (x / 4096) <<< 12 := by
    rw [Nat.shiftLeft_eq]
    omega
  rw [hmask, hx, ← Nat.shiftLeft_and_distrib, Nat.and_two_pow_sub_one_eq_mod,
    Nat.mod_eq_of_lt (by omega)]

/-- The entry `vmm_get_next_level` writes for a new table. -/
def tableEntry (frame : Nat) : Nat := frame ||| ptePresent ||| pteWrite

theorem tableOf_tableEntry {f : Nat} (hf : f < 2 ^ 40) :
    tableOf (tableEntry (f * 4096)) = f * 4096 := by
  have hpresent : ptePresent &&& pteAddrMask = 0 := by decide
  have hwrite : pteWrite &&& pteAddrMask = 0 := by decide
  rw [tableOf, tableEntry, Nat.and_or_distrib_right, Nat.and_or_distrib_right, hpresent, hwrite,
    Nat.or_zero, Nat.or_zero, and_addrMask (by omega) (Nat.mul_mod_left f 4096)]

theorem or_present_ne_zero (x : Nat) : (x ||| ptePresent) &&& ptePresent ≠ 0 := by
  have hone : ptePresent = 1 := by decide
  intro hzero
  have hbit : ((x ||| ptePresent) &&& ptePresent).testBit 0 = false := by
    rw [hzero]
    rfl
  rw [hone] at hbit
  simp at hbit

theorem presentEntry_tableEntry (frame : Nat) :
    presentEntry (tableEntry frame) = some (tableEntry frame) := by
  have hcomm : tableEntry frame = frame ||| pteWrite ||| ptePresent := by
    rw [tableEntry, Nat.or_assoc, Nat.or_assoc, Nat.or_comm ptePresent]
  rw [hcomm, presentEntry, if_neg (or_present_ne_zero _)]

/-- The entry `vmm_map_page` writes for a page. -/
def pageEntry (physAddr flags : Nat) : Nat :=
  physAddr &&& pteAddrMask ||| flags &&& pteFlagsMask ||| ptePresent

theorem presentEntry_pageEntry (physAddr flags : Nat) :
    presentEntry (pageEntry physAddr flags) = some (pageEntry physAddr flags) := by
  rw [presentEntry, pageEntry, if_neg (or_present_ne_zero _)]

theorem pageEntry_and_addrMask (physAddr flags : Nat) :
    pageEntry physAddr flags &&& pteAddrMask = physAddr &&& pteAddrMask := by
  have hpresent : ptePresent &&& pteAddrMask = 0 := by decide
  have hflags : pteFlagsMask &&& pteAddrMask = 0 := by decide
  rw [pageEntry, Nat.and_or_distrib_right, Nat.and_or_distrib_right, hpresent, Nat.or_zero,
    Nat.and_assoc, Nat.and_assoc, hflags, Nat.and_self, Nat.and_zero, Nat.or_zero]

theorem pageEntry_and_flagsMask (physAddr flags : Nat) :
    pageEntry physAddr flags &&& pteFlagsMask = flags &&& pteFlagsMask ||| ptePresent := by
  have hpresent : ptePresent &&& pteFlagsMask = ptePresent := by decide
  have haddr : pteAddrMask &&& pteFlagsMask = 0 := by decide
  rw [pageEntry, Nat.and_or_distrib_right, Nat.and_or_distrib_right, hpresent, Nat.and_assoc,
    Nat.and_assoc, haddr, Nat.and_self, Nat.and_zero, Nat.zero_or]

theorem pageEntry_lt (physAddr flags : Nat) : pageEntry physAddr flags < 2 ^ 64 := by
  have haddr : physAddr &&& pteAddrMask < 2 ^ 64 :=
    Nat.lt_of_le_of_lt Nat.and_le_right (by decide)
  have hflags : flags &&& pteFlagsMask < 2 ^ 64 :=
    Nat.lt_of_le_of_lt Nat.and_le_right (by decide)
  exact Nat.or_lt_two_pow (Nat.or_lt_two_pow haddr hflags) (by decide)

theorem tableEntry_lt {f : Nat} (hf : f < 2 ^ 40) : tableEntry (f * 4096) < 2 ^ 64 :=
  Nat.or_lt_two_pow (Nat.or_lt_two_pow (by omega) (by decide)) (by decide)

/-! ## Tables in memory -/

theorem inPage_iff {f : Nat} : InPage (f * 4096) x ↔ InFrame f x := by
  unfold InPage InFrame
  omega

/-- A store into an entry stays in the frame of the table. -/
theorem write_entry_of_not_inFrame {f v : Nat} {i : Fin 512} (hx : ¬InFrame f x) :
    write64 m (f * 4096 + 8 * i) v x = m x := by
  have hi := i.isLt
  unfold InFrame at hx
  exact write64_apply_of_outside (by omega)

/-- `vmm_is_table_empty`. -/
theorem noEntryPresent_eq_true {table : Nat} (left i : Nat) :
    noEntryPresent m table left i = true ↔
      ∀ k, i ≤ k → k < i + left → read64 m (table + 8 * k) &&& ptePresent = 0 := by
  induction left generalizing i with
  | zero =>
    simp only [noEntryPresent, true_iff]
    intro k hlo hhi
    omega
  | succ left ih =>
    rw [noEntryPresent]
    by_cases hentry : read64 m (table + 8 * i) &&& ptePresent = 0
    · rw [if_neg (not_not.mpr hentry), ih]
      constructor
      · intro h k hlo hhi
        by_cases hk : k = i
        · rw [hk, hentry]
        · exact h k (by omega) (by omega)
      · intro h k hlo hhi
        exact h k (by omega) (by omega)
    · rw [if_pos hentry]
      constructor
      · intro h
        exact Bool.noConfusion h
      · intro h
        exact absurd (h i (Nat.le_refl i) (by omega)) hentry

theorem presentEntry_eq_none {e : Nat} : presentEntry e = none ↔ e &&& ptePresent = 0 := by
  unfold presentEntry
  split <;> simp_all

theorem vmmIsTableEmpty_run (s : Machine) (table : Nat) :
    vmmIsTableEmpty table s =
      .ok (decide (∀ i, pageEntries s.mem table i = none)) s := by
  have hiff : noEntryPresent s.mem table 512 0 = true ↔ ∀ i, pageEntries s.mem table i = none := by
    rw [noEntryPresent_eq_true]
    constructor
    · intro h i
      have hi := i.isLt
      exact presentEntry_eq_none.mpr (h i (Nat.zero_le _) (by omega))
    · intro h k _ hk
      exact presentEntry_eq_none.mp (h ⟨k, by omega⟩)
  have hdecide : noEntryPresent s.mem table 512 0 =
      decide (∀ i, pageEntries s.mem table i = none) := by
    rw [Bool.eq_iff_iff, hiff, decide_eq_true_iff]
  rw [vmmIsTableEmpty, Exec.gets_apply, hdecide]

/-! ## The address space -/

/-- The frame holds a table other than the top one. -/
def IsTable (s : Machine) (root frame : Nat) : Prop :=
  ∃ q a, q.length < 4 ∧ entryAt s root q = some a ∧ tableOf a = frame * 4096

/-- The frame holds a table. -/
def TableFrame (s : Machine) (root frame : Nat) : Prop :=
  ∃ q, q.length < 4 ∧ tableAt s root q = some (frame * 4096)

/-- An address space over the frame allocator; `others` are the frames that are
in use for something else than its tables below the top one. -/
structure AddressSpace (root : Nat) (others : Nat → Bool) (s : Machine) : Prop where
  wellFormed : PmmWf s
  /-- A page-table entry has room for physical addresses below `2 ^ 52`. -/
  width : s.highestFrame < 2 ^ 40
  rootFrame : ∃ f, root = f * 4096 ∧ f ≤ s.highestFrame ∧ others f = true ∧ ¬s.HoldsBitmap f
  tables : ∀ q a, q.length < 4 → entryAt s root q = some a →
    ∃ f, tableOf a = f * 4096 ∧ f ≤ s.highestFrame ∧ others f = false ∧ ¬s.HoldsBitmap f
  unshared : Unshared tableOf (pageEntries s.mem) 4 root
  used : ∀ g, g ≤ s.highestFrame →
    (s.frameUsed g = true ↔ others g = true ∨ IsTable s root g)

/-- The constants of the frame allocator are the same. -/
structure SameLayout (s s' : Machine) : Prop where
  bitmap : s'.bitmap = s.bitmap
  size : s'.bitmapSizeQwords = s.bitmapSizeQwords
  highest : s'.highestFrame = s.highestFrame

theorem SameLayout.refl (s : Machine) : SameLayout s s := ⟨rfl, rfl, rfl⟩

theorem SameLayout.trans {s s'' : Machine} (h : SameLayout s s') (h' : SameLayout s' s'') :
    SameLayout s s'' :=
  ⟨h'.bitmap.trans h.bitmap, h'.size.trans h.size, h'.highest.trans h.highest⟩

variable {s : Machine} {root n f v : Nat} {others : Nat → Bool} {q : List (Fin 512)} {i : Fin 512}

section

variable (h : AddressSpace root others s)

include h

/-- Every table lies in a used frame that holds no part of the bitmap. -/
theorem AddressSpace.frame_of_table (hq : q.length < 4) (hn : tableAt s root q = some n) :
    ∃ f, n = f * 4096 ∧ f ≤ s.highestFrame ∧ s.frameUsed f = true ∧ ¬s.HoldsBitmap f := by
  by_cases hnil : q = []
  · subst hnil
    obtain ⟨f, hf, hle, hothers, hbitmap⟩ := h.rootFrame
    cases hn
    exact ⟨f, hf, hle, (h.used f hle).mpr (Or.inl hothers), hbitmap⟩
  · have hmap : (entryAt s root q).map tableOf = some n := by
      rw [← hn]
      exact (reach_eq_map_walk hnil).symm
    obtain ⟨a, ha, rfl⟩ := Option.map_eq_some_iff.mp hmap
    obtain ⟨f, hf, hle, _, hbitmap⟩ := h.tables q a hq ha
    exact ⟨f, hf, hle, (h.used f hle).mpr (Or.inr ⟨q, a, hq, ha, hf⟩), hbitmap⟩

theorem AddressSpace.tableFrame (hf : TableFrame s root f) :
    s.frameUsed f = true ∧ ¬s.HoldsBitmap f := by
  obtain ⟨q, hq, hn⟩ := hf
  obtain ⟨g, hg, _, hframe⟩ := h.frame_of_table hq hn
  obtain rfl : f = g := by omega
  exact hframe

/-- The bytes of a table are no part of the bitmap. -/
theorem AddressSpace.not_inBitmap (hf : TableFrame s root f) (hx : InFrame f x) :
    ¬s.InBitmap x :=
  not_inBitmap_of_inFrame (h.tableFrame hf).2 hx

theorem AddressSpace.tree : PageTables.Tree tableOf 4 root s.mem := by
  refine ⟨?_, h.unshared⟩
  rintro n ⟨q, hq, hn⟩
  obtain ⟨f, rfl, _⟩ := h.frame_of_table hq hn
  exact Nat.mul_mod_left f 4096

/-- What holds of the bytes of every table's frame. -/
theorem AddressSpace.on_tables {P : Nat → Prop}
    (hP : ∀ f, TableFrame s root f → ∀ x, InFrame f x → P x) :
    ∀ t, PageTables.IsTable tableOf 4 root s.mem t → ∀ x, InPage t x → P x := by
  rintro t ⟨q, hq, hn⟩ x hx
  obtain ⟨f, rfl, _⟩ := h.frame_of_table hq hn
  exact hP f ⟨q, hq, hn⟩ x (inPage_iff.mp hx)

/-- A store into a table does not touch the bitmap. -/
theorem AddressSpace.write_inBitmap (hf : TableFrame s root f) (hx : s.InBitmap x) :
    write64 m (f * 4096 + 8 * i) v x = m x :=
  write_entry_of_not_inFrame fun hframe => h.not_inBitmap hf hframe hx

/-- A free frame is no table. -/
theorem AddressSpace.not_tableFrame (hfree : s.frameUsed f = false) : ¬TableFrame s root f := by
  intro htable
  cases (h.tableFrame htable).1.symm.trans hfree

/-- After a frame was taken, the tables are as before. -/
theorem AddressSpace.mem_of_taken (ht : FrameTaken s m f) :
    ∀ g, TableFrame s root g → ∀ x, InFrame g x → m x = s.mem x := by
  intro g hg x hx
  refine ht.outside x (h.not_inBitmap hg hx) fun hxf => ?_
  exact h.not_tableFrame ht.free (hx.unique hxf ▸ hg)

end

/-! ## The three primitives -/

/-- The tree of `s'` is that of `s` with `e` at the path `q`. -/
def EntrySet (s s' : Machine) (root : Nat) (q : List (Fin 512)) (e : Option Nat) : Prop :=
  ∀ r, r.length ≤ 4 → entryAt s' root r = if r = q then e else entryAt s root r

/-- An entry afterwards is the new one or was there before. -/
theorem EntrySet.entryAt_some {e : Option Nat} {r : List (Fin 512)} (h : EntrySet s s' root q e)
    (hr : r.length ≤ 4) (ha : entryAt s' root r = some a) :
    (r = q ∧ e = some a) ∨ (r ≠ q ∧ entryAt s root r = some a) := by
  rw [h r hr] at ha
  by_cases hsame : r = q
  · rw [if_pos hsame] at ha
    exact Or.inl ⟨hsame, ha⟩
  · rw [if_neg hsame] at ha
    exact Or.inr ⟨hsame, ha⟩

theorem concat_ne_of_length {r : List (Fin 512)} (h : r.length ≠ q.length + 1) :
    r ≠ q ++ [i] := by
  rintro rfl
  simp at h

theorem isTable_congr (h : ∀ r, r.length < 4 → entryAt s' root r = entryAt s root r) (g : Nat) :
    IsTable s' root g ↔ IsTable s root g :=
  exists_congr fun r => exists_congr fun a => and_congr_right fun hr => by rw [h r hr]

/-- A new entry adds its table. -/
theorem EntrySet.isTable_some (h : EntrySet s s' root q (some a)) (hq : q.length < 4)
    (hnone : entryAt s root q = none) (ha : tableOf a = f * 4096) (g : Nat) :
    IsTable s' root g ↔ IsTable s root g ∨ g = f := by
  constructor
  · rintro ⟨r, b, hr, hb, hbg⟩
    rcases h.entryAt_some (Nat.le_of_lt hr) hb with ⟨_, hb⟩ | ⟨_, hb⟩
    · cases hb
      right
      omega
    · exact Or.inl ⟨r, b, hr, hb, hbg⟩
  · intro hcase
    rcases hcase with ⟨r, b, hr, hb, hbg⟩ | rfl
    · refine ⟨r, b, hr, ?_, hbg⟩
      rw [h r (by omega), if_neg, hb]
      rintro rfl
      cases hnone.symm.trans hb
    · refine ⟨q, a, hq, ?_, ha⟩
      rw [h q (by omega), if_pos rfl]

/-- Clearing an entry removes its table. -/
theorem EntrySet.isTable_none (h : EntrySet s s' root q none)
    (hun : Unshared tableOf (pageEntries s.mem) 4 root) (hq : q.length < 4)
    (ha : entryAt s root q = some a) (hf : tableOf a = f * 4096) (g : Nat) :
    IsTable s' root g ↔ IsTable s root g ∧ g ≠ f := by
  constructor
  · rintro ⟨r, b, hr, hb, hbg⟩
    rcases h.entryAt_some (Nat.le_of_lt hr) hb with ⟨_, hb⟩ | ⟨hsame, hb⟩
    · cases hb
    · refine ⟨⟨r, b, hr, hb, hbg⟩, ?_⟩
      rintro rfl
      -- No other path leads to the table, so its entry is not left behind.
      have htable : tableOf b = tableOf a := hbg.trans hf.symm
      exact hsame (hun r q (tableOf a) hr hq (htable ▸ reach_of_walk hb) (reach_of_walk ha))
  · rintro ⟨⟨r, b, hr, hb, hbg⟩, hne⟩
    refine ⟨r, b, hr, ?_, hbg⟩
    rw [h r (by omega), if_neg, hb]
    rintro rfl
    cases ha.symm.trans hb
    omega

/-- Writing the entry of a page. -/
theorem AddressSpace.setPage (h : AddressSpace root others s) (hq : q.length = 3)
    (hn : tableAt s root q = some n) (hv : v < 2 ^ 64) :
    AddressSpace root others (s.withMem (write64 s.mem (n + 8 * i) v)) ∧
      EntrySet s (s.withMem (write64 s.mem (n + 8 * i) v)) root (q ++ [i]) (presentEntry v) := by
  obtain ⟨f, rfl, _⟩ := h.frame_of_table (by omega) hn
  have hframe : TableFrame s root f := ⟨q, by omega, hn⟩
  obtain ⟨htree, hset⟩ :=
    h.tree.setLeaf (i := i) (by omega) hn hv (fun _ _ _ _ => rfl) (by omega)
  have hsame : ∀ r, r.length < 4 →
      entryAt (s.withMem (write64 s.mem (f * 4096 + 8 * i) v)) root r = entryAt s root r := by
    intro r hr
    exact (hset r (by omega)).trans (if_neg (concat_ne_of_length (by omega)))
  have hbitmap : ∀ x, s.InBitmap x → write64 s.mem (f * 4096 + 8 * i) v x = s.mem x :=
    fun x hx => h.write_inBitmap hframe hx
  refine ⟨⟨h.wellFormed.withMem hbitmap, h.width, h.rootFrame, ?_, htree.unshared, ?_⟩, hset⟩
  · intro r a hr ha
    rw [hsame r hr] at ha
    exact h.tables r a hr ha
  · intro g hg
    have hcovered := h.wellFormed.covered
    have hg' : g ≤ s.highestFrame := hg
    rw [frameUsed_congr hbitmap (by omega), h.used g hg, isTable_congr hsame]

/-- Adding a table: `m` is memory after the frame `f` was taken and cleared. -/
theorem AddressSpace.link (h : AddressSpace root others s) (hq : q.length + 1 < 4)
    (hn : tableAt s root q = some n) (hnone : entryAt s root (q ++ [i]) = none)
    (ht : FrameTaken s m f) :
    AddressSpace root others
        ((s.taken m f).withMem (write64 m (n + 8 * i) (tableEntry (f * 4096)))) ∧
      EntrySet s ((s.taken m f).withMem (write64 m (n + 8 * i) (tableEntry (f * 4096)))) root
        (q ++ [i]) (some (tableEntry (f * 4096))) := by
  have ⟨hle, hfree, hzero, _, hbits⟩ := ht
  obtain ⟨g, rfl, _⟩ := h.frame_of_table (by omega) hn
  have hwidth := h.width
  have hcovered := h.wellFormed.covered
  have hframe : TableFrame s root g := ⟨q, by omega, hn⟩
  have hfresh := h.not_tableFrame hfree
  have hgf : f ≠ g := fun heq => hfresh (heq ▸ hframe)
  have htarget : tableOf (tableEntry (f * 4096)) = f * 4096 := tableOf_tableEntry (by omega)
  have hcleared : ∀ x, InPage (f * 4096) x →
      write64 m (g * 4096 + 8 * i) (tableEntry (f * 4096)) x = 0 := by
    intro x hx
    rw [inPage_iff] at hx
    rw [write_entry_of_not_inFrame fun hxg => hgf (hx.unique hxg), hzero x hx]
  obtain ⟨htree, hset⟩ := h.tree.link (i := i) (by omega) hn (tableEntry_lt (by omega))
    (h.on_tables fun k hk x hx => write64_apply_congr (h.mem_of_taken ht k hk x hx)) hnone
    (presentEntry_tableEntry _) htarget (Nat.mul_mod_left f 4096) hfresh hcleared
  have hset : EntrySet s ((s.taken m f).withMem
      (write64 m (g * 4096 + 8 * i) (tableEntry (f * 4096)))) root (q ++ [i])
      (some (tableEntry (f * 4096))) := hset
  have hbitmap : ∀ x, (s.taken m f).InBitmap x →
      write64 m (g * 4096 + 8 * i) (tableEntry (f * 4096)) x = m x :=
    fun x hx => h.write_inBitmap hframe hx
  have hnotUsed : ¬(others f = true ∨ IsTable s root f) := by
    rw [← h.used f hle, hfree]
    exact Bool.noConfusion
  have hothers : others f = false := Bool.eq_false_iff.mpr fun hf => hnotUsed (Or.inl hf)
  have hstorage := h.wellFormed.not_holdsBitmap hle hfree
  refine ⟨⟨(h.wellFormed.taken ht).withMem hbitmap, h.width, h.rootFrame, ?_, htree.unshared, ?_⟩,
    hset⟩
  · intro r a hr ha
    rcases hset.entryAt_some (Nat.le_of_lt hr) ha with ⟨_, ha⟩ | ⟨_, ha⟩
    · cases ha
      exact ⟨f, htarget, hle, hothers, hstorage⟩
    · exact h.tables r a hr ha
  · intro k hk
    have hk' : k ≤ s.highestFrame := hk
    have hcongr := frameUsed_congr (s := s.taken m f) hbitmap
      (show k < 64 * s.bitmapSizeQwords by omega)
    rw [hcongr, hbits k (by omega), Bool.or_eq_true, decide_eq_true_iff, h.used k hk',
      hset.isTable_some (by simpa using hq) hnone htarget, or_assoc]

theorem entryAt_concat (hn : tableAt s root q = some n) :
    entryAt s root (q ++ [i]) = presentEntry (read64 s.mem (n + 8 * i)) := by
  have hreach : reach tableOf (pageEntries s.mem) root q = some n := hn
  rw [entryAt, walk_concat, hreach]
  rfl

theorem read64_of_entryAt (hn : tableAt s root q = some n)
    (ha : entryAt s root (q ++ [i]) = some a) :
    read64 s.mem (n + 8 * i) = a := by
  rw [entryAt_concat hn, presentEntry] at ha
  split at ha
  · cases ha
  · exact Option.some.inj ha

section

variable (h : AddressSpace root others s)

include h

/-- Removing an empty table and freeing its frame. -/
theorem vmmFreeTable_run (hq : q.length + 1 < 4) (hn : tableAt s root q = some n)
    (ha : entryAt s root (q ++ [i]) = some a)
    (hempty : ∀ j, pageEntries s.mem (tableOf a) j = none) :
    ∃ s', vmmFreeTable (n + 8 * i) s = .ok () s' ∧ AddressSpace root others s' ∧
      SameLayout s s' ∧ EntrySet s s' root (q ++ [i]) none := by
  have hread := read64_of_entryAt hn ha
  have hlen : (q ++ [i]).length < 4 := by simpa using hq
  obtain ⟨g, rfl, _⟩ := h.frame_of_table (by omega) hn
  obtain ⟨f, hf, hle, hothers, hstorage⟩ := h.tables (q ++ [i]) a hlen ha
  have hcovered := h.wellFormed.covered
  have hused : s.frameUsed f = true := (h.used f hle).mpr (Or.inr ⟨_, a, hlen, ha, hf⟩)
  have hbitmap : ∀ x, s.InBitmap x → write64 s.mem (g * 4096 + 8 * i) 0 x = s.mem x :=
    fun x hx => h.write_inBitmap ⟨q, by omega, hn⟩ hx
  have hkept : ∀ k, k < 64 * s.bitmapSizeQwords →
      (s.withMem (write64 s.mem (g * 4096 + 8 * i) 0)).frameUsed k = s.frameUsed k :=
    fun k hk => frameUsed_congr hbitmap hk
  have hwf := h.wellFormed.withMem hbitmap
  have hused' := (hkept f (by omega)).trans hused
  obtain ⟨m, hrun, hout, hbits⟩ := pmmFreeFrame_run hwf hle hused'
  obtain ⟨htree, hset⟩ := h.tree.unlink (i := i) (v := 0) (by omega) hn (by decide)
    (h.on_tables fun k hk x hx => hout x (h.not_inBitmap hk hx)) ha hempty rfl
  have hset : EntrySet s ((s.withMem (write64 s.mem (g * 4096 + 8 * i) 0)).released m) root
      (q ++ [i]) none := hset
  refine ⟨_, ?_, ⟨hwf.released hle hused' hstorage hbits, h.width, h.rootFrame, ?_,
    htree.unshared, ?_⟩, ⟨rfl, rfl, rfl⟩, hset⟩
  · rw [← hf] at hrun
    simp only [vmmFreeTable, load64, store64, Exec.bind_apply, Exec.gets_apply, Outcome.andThen_ok,
      Exec.modify_apply, hread]
    exact hrun
  · intro r b hr hb
    rcases hset.entryAt_some (Nat.le_of_lt hr) hb with ⟨_, hb⟩ | ⟨_, hb⟩
    · cases hb
    · exact h.tables r b hr hb
  · intro k hk
    have hk' : k ≤ s.highestFrame := hk
    have hne : others k = true → k ≠ f := by
      rintro hk rfl
      rw [hothers] at hk
      exact Bool.noConfusion hk
    rw [hbits k, hkept k (by omega), Bool.and_eq_true, h.used k hk',
      hset.isTable_none h.unshared hlen ha hf, or_and_right]
    simp only [Bool.not_eq_true', decide_eq_false_iff_not]
    exact or_congr_left ⟨And.left, fun hk => ⟨hk, hne hk⟩⟩

/-! ## Other clients of the frame allocator -/

/-- Memory that agrees on the tables: the tree is the same. -/
theorem AddressSpace.tree_agree
    (hm : ∀ f, TableFrame s root f → ∀ x, InFrame f x → s'.mem x = s.mem x) :
    PageTables.Tree tableOf 4 root s'.mem ∧
      ∀ r, r.length ≤ 4 → entryAt s' root r = entryAt s root r := by
  obtain ⟨htree, _, hwalk⟩ := h.tree.of_agree (h.on_tables hm)
  exact ⟨htree, hwalk⟩

/-- A change outside the tables, after which `others'` are the frames used by
other clients. -/
theorem AddressSpace.outside {others' : Nat → Bool} (hwf : PmmWf s') (hlayout : SameLayout s s')
    (hm : ∀ f, TableFrame s root f → ∀ x, InFrame f x → s'.mem x = s.mem x)
    (hothers : ∀ f, TableFrame s root f → others' f = others f) (hused : ∀ g, g ≤ s.highestFrame →
      (s'.frameUsed g = true ↔ others' g = true ∨ IsTable s root g)) :
    AddressSpace root others' s' := by
  have hbitmap : ∀ f, s'.HoldsBitmap f ↔ s.HoldsBitmap f := by
    intro f
    unfold Machine.HoldsBitmap
    rw [hlayout.bitmap, hlayout.size]
  obtain ⟨htree, hwalk⟩ := h.tree_agree hm
  have hentry : ∀ r, r.length < 4 → entryAt s' root r = entryAt s root r := fun r hr =>
    hwalk r (Nat.le_of_lt hr)
  refine ⟨hwf, hlayout.highest ▸ h.width, ?_, ?_, htree.unshared, ?_⟩
  · obtain ⟨f, hf, hle, hof, hbm⟩ := h.rootFrame
    refine ⟨f, hf, hlayout.highest ▸ hle, ?_, fun hholds => hbm ((hbitmap f).mp hholds)⟩
    rw [hothers f ⟨[], by decide, by rw [hf]; rfl⟩]
    exact hof
  · intro r a hr ha
    rw [hentry r hr] at ha
    obtain ⟨f, hf, hle, hof, hbm⟩ := h.tables r a hr ha
    refine ⟨f, hf, hlayout.highest ▸ hle, ?_, fun hholds => hbm ((hbitmap f).mp hholds)⟩
    rw [hothers f ⟨r, hr, hf ▸ reach_of_walk ha⟩]
    exact hof
  · intro g hg
    rw [hused g (hlayout.highest ▸ hg), isTable_congr hentry]

/-- Another client takes the frame `f`; `m` is memory afterwards. -/
theorem AddressSpace.take (ht : FrameTaken s m f) :
    AddressSpace root (fun g => others g || decide (g = f)) (s.taken m f) ∧
      ∀ r, r.length ≤ 4 → entryAt (s.taken m f) root r = entryAt s root r := by
  have hcovered := h.wellFormed.covered
  have hm := h.mem_of_taken ht
  refine ⟨h.outside (h.wellFormed.taken ht) ⟨rfl, rfl, rfl⟩ hm ?_ ?_, (h.tree_agree hm).2⟩
  · intro g hg
    have hne : g ≠ f := fun heq => h.not_tableFrame ht.free (heq ▸ hg)
    simp [hne]
  · intro g hg
    rw [ht.bits g (by omega), Bool.or_eq_true, Bool.or_eq_true, h.used g hg, decide_eq_true_iff]
    exact or_right_comm

/-- Another client frees a frame that is neither a table nor part of the bitmap. -/
theorem AddressSpace.release {physAddr : Nat} (htable : ¬TableFrame s root (physAddr / 4096))
    (hbitmap : ¬s.HoldsBitmap (physAddr / 4096)) (hcall : pmmFreeFrame physAddr s = .ok () s') :
    AddressSpace root (fun g => others g && !decide (g = physAddr / 4096)) s' ∧
      ∀ r, r.length ≤ 4 → entryAt s' root r = entryAt s root r := by
  obtain ⟨f, rfl, hle, hused⟩ := pmmFreeFrame_ok h.wellFormed hcall
  obtain ⟨m, hrun, hout, hbits⟩ := pmmFreeFrame_run h.wellFormed hle hused
  cases hrun.symm.trans hcall
  rw [Nat.mul_div_cancel f (by decide)] at htable hbitmap ⊢
  have hm : ∀ g, TableFrame s root g → ∀ x, InFrame g x → m x = s.mem x :=
    fun g hg x hx => hout x (h.not_inBitmap hg hx)
  refine ⟨h.outside (h.wellFormed.released hle hused hbitmap hbits) ⟨rfl, rfl, rfl⟩ hm ?_ ?_,
    (h.tree_agree hm).2⟩
  · intro g hg
    have hgf : g ≠ f := fun heq => htable (heq ▸ hg)
    simp [hgf]
  · intro g hg
    rw [hbits g, Bool.and_eq_true, Bool.and_eq_true, h.used g hg]
    simp only [Bool.not_eq_true', decide_eq_false_iff_not]
    constructor
    · intro hcase
      rcases hcase with ⟨hg' | hg', hgf⟩
      · exact Or.inl ⟨hg', hgf⟩
      · exact Or.inr hg'
    · intro hcase
      rcases hcase with ⟨hg', hgf⟩ | hg'
      · exact ⟨Or.inl hg', hgf⟩
      · refine ⟨Or.inr hg', ?_⟩
        rintro rfl
        obtain ⟨q, a, hq, ha, hag⟩ := hg'
        exact htable ⟨q, hq, hag ▸ reach_of_walk ha⟩

end

end FarouKernel.Ports.Vmm
