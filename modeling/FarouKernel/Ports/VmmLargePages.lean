import FarouKernel.Ports.VmmRuns
import FarouKernel.Verified.LargePages

/-!
# Mapping in a tree with large pages

`memory_init` adopts the page tables of the bootloader.  These may hold large pages: an
entry of the second or third level with bit 7 set maps 1 GiB or 2 MiB.  The walk of
`vmm_map_page` looks at the present bit only, so it takes the first frame of a large
page for a table.  The processor does not.

`BootSpace` is a tree of tables in which any entry below the top one may be the leaf of
a large page.  Away from large pages a call of `vmm_map_page` is local
(`vmmMapPage_small`).  On a large page it is not: the leaf stays, and the address is not
mapped to where it was asked to be (`vmmMapPage_large`).
-/

namespace FarouKernel.Ports.Vmm

open Verified ByteMem Radix
open Verified.PageTables (present entries links leafOf Large Tree InPage)
open Ports.Memory Ports.Pmm

/-! ## The translation of the processor -/

/-- A page of `2 ^ k` bytes.  Bit 12 of its entry is a flag, and the processor faults if
one of the other bits below the address is set. -/
def largePage (k e virtAddr : Nat) : Option (Nat × Nat) :=
  if tableOf e % 2 ^ k / 2 ^ 13 = 0 then
    some (tableOf e / 2 ^ k * 2 ^ k + virtAddr % 2 ^ k, e &&& pteFlagsMask)
  else none

/-- The physical address and the flags that a leaf gives to an address. -/
def pageOf (virtAddr : Nat) : Nat × Nat → Option (Nat × Nat)
  | (e, 0) => some (tableOf e + virtAddr % 2 ^ 12, e &&& pteFlagsMask)
  | (e, 1) => largePage 21 e virtAddr
  | (e, 2) => largePage 30 e virtAddr
  | _ => none

/-- The translation of an address, large pages included. -/
def hwTranslate (s : Machine) (pml4Phys virtAddr : Nat) : Option (Nat × Nat) :=
  (leafOf tableOf s.mem pml4Phys (pagePath virtAddr)).bind (pageOf virtAddr)

/-- The address lies in a large page. -/
def OnLargePage (s : Machine) (root v : Nat) : Prop :=
  ∃ e k, leafOf tableOf s.mem root (pagePath v) = some (e, k + 1)

/-- The frame holds a table. -/
def HwTable (s : Machine) (root frame : Nat) : Prop :=
  PageTables.IsTable tableOf 4 root (links s.mem) (frame * 4096)

/-- A tree of tables, large pages allowed, next to the frame allocator. -/
structure BootSpace (root : Nat) (s : Machine) : Prop where
  wellFormed : PmmWf s
  /-- A page-table entry has room for physical addresses below `2 ^ 52`. -/
  width : s.highestFrame < 2 ^ 40
  tree : Tree tableOf 4 root (links s.mem)
  frames : ∀ f, HwTable s root f → f ≤ s.highestFrame ∧ s.frameUsed f = true ∧ ¬s.HoldsBitmap f
  /-- There are no large pages in the top table. -/
  top : ∀ (i : Fin 512) e, presentEntry (read64 s.mem (root + 8 * i)) = some e → ¬Large e

/-- The call wrote to tables only; in the bitmap it marked new tables. -/
structure WritesTables (root : Nat) (s s' : Machine) : Prop where
  written : ∀ x, s'.mem x ≠ s.mem x → s.InBitmap x ∨ ∃ f, InFrame f x ∧ HwTable s' root f
  used : ∀ g, g ≤ s.highestFrame →
    (s'.frameUsed g = true ↔ s.frameUsed g = true ∨ HwTable s' root g)

/-- The call mapped the page of `v` to `p` and did nothing else. -/
structure MapsLocally (root v p : Nat) (s s' : Machine) : Prop where
  target : (hwTranslate s' root v).map Prod.fst = some p
  other : ∀ w, ¬SamePage v w → hwTranslate s' root w = hwTranslate s root w
  writes : WritesTables root s s'

theorem presentEntry_eq (e : Nat) : presentEntry e = present e := rfl

theorem tableOf_mod (e : Nat) : tableOf e % 4096 = 0 := by
  have hmask : pteAddrMask = (2 ^ 40 - 1) * 2 ^ 12 := by decide
  rw [tableOf, hmask, show 4096 = 2 ^ 12 from rfl, Nat.and_mod_two_pow, Nat.mul_mod_left,
    Nat.and_zero]

theorem not_large_tableEntry {f : Nat} : ¬Large (tableEntry (f * 4096)) := by
  have hframe : f * 4096 &&& 0x80 = 0 := by
    rw [show f * 4096 = f <<< 12 by rw [Nat.shiftLeft_eq]]
    apply Nat.eq_of_testBit_eq
    intro k
    rw [Nat.testBit_and, Nat.testBit_shiftLeft, Nat.zero_testBit, show 0x80 = 2 ^ 7 from rfl,
      Nat.testBit_two_pow]
    by_cases hk : 7 = k
    · simp [← hk]
    · simp [hk]
  have hpresent : ptePresent &&& 0x80 = 0 := by decide
  have hwrite : pteWrite &&& 0x80 = 0 := by decide
  unfold Large
  rw [tableEntry, Nat.and_or_distrib_right, Nat.and_or_distrib_right, hframe, hpresent, hwrite]
  decide

variable {a x : Nat} {m : ByteMem}

section

variable {s s' s'' : Machine} {root n g f v p : Nat} {m m' : ByteMem} {q : List (Fin 512)}
  {i : Fin 512}

section

variable (h : BootSpace root s)

include h

theorem BootSpace.root_mod : root % 4096 = 0 :=
  h.tree.aligned root ⟨[], by decide, rfl⟩

/-- Every table of the tree is a frame. -/
theorem BootSpace.frame_of_reach (hq : q.length < 4)
    (hn : reach tableOf (entries (links s.mem)) root q = some n) :
    ∃ g, n = g * 4096 ∧ HwTable s root g := by
  have halign := h.tree.aligned n ⟨q, hq, hn⟩
  refine ⟨n / 4096, by omega, q, hq, ?_⟩
  rw [hn]
  congr 1
  omega

theorem BootSpace.not_inBitmap (hg : HwTable s root g) (hx : InFrame g x) : ¬s.InBitmap x :=
  not_inBitmap_of_inFrame (h.frames g hg).2.2 hx

/-- A free frame is no table. -/
theorem BootSpace.not_table_of_free (hfree : s.frameUsed f = false) : ¬HwTable s root f := by
  intro htable
  rw [(h.frames f htable).2.1] at hfree
  cases hfree

/-- After a frame was taken, the tables are as before. -/
theorem BootSpace.mem_of_taken (ht : FrameTaken s m f) (hg : HwTable s root g) (hx : InFrame g x) :
    m x = s.mem x := by
  refine ht.outside x (h.not_inBitmap hg hx) fun hxf => ?_
  exact h.not_table_of_free ht.free (hx.unique hxf ▸ hg)

theorem BootSpace.read64_of_taken (ht : FrameTaken s m f) (hg : HwTable s root g) (i : Fin 512) :
    read64 m (g * 4096 + 8 * i) = read64 s.mem (g * 4096 + 8 * i) :=
  PageTables.read64_entry_congr (fun _ hx => h.mem_of_taken ht hg (inPage_iff.mp hx)) i

/-- A store into a table does not touch the bitmap. -/
theorem BootSpace.write_inBitmap (hg : HwTable s root g) (hx : s.InBitmap x) :
    write64 m (g * 4096 + 8 * i) v x = m x :=
  write_entry_of_not_inFrame fun hframe => h.not_inBitmap hg hframe hx

end

/-! ## Away from large pages -/

/-- The walk of the processor finds the same leaves. -/
def SameLeaves (root : Nat) (s s' : Machine) : Prop :=
  ∀ r, r.length = 4 → leafOf tableOf s'.mem root r = leafOf tableOf s.mem root r

/-- What the walk does to the tree: new tables, and no new leaf. -/
structure Extended (root : Nat) (s s' : Machine) : Prop where
  layout : SameLayout s s'
  tables : ∀ f, HwTable s root f → HwTable s' root f
  leaves : ∀ r, r.length = 4 → leafOf tableOf s'.mem root r = leafOf tableOf s.mem root r
  writes : WritesTables root s s'

theorem BootSpace.extended_refl (h : BootSpace root s) : Extended root s s where
  layout := SameLayout.refl s
  tables _ hf := hf
  leaves _ _ := rfl
  writes :=
    { written := fun _ hx => absurd rfl hx
      used := fun g _ => ⟨Or.inl, fun hg => hg.elim id fun htable => (h.frames g htable).2.1⟩ }

theorem WritesTables.trans (h : WritesTables root s s') (h' : WritesTables root s' s'')
    (hlayout : SameLayout s s') (htables : ∀ f, HwTable s' root f → HwTable s'' root f) :
    WritesTables root s s'' where
  written x hx := by
    by_cases hfirst : s'.mem x = s.mem x
    · rw [← hfirst] at hx
      refine (h'.written x hx).imp_left fun hbitmap => ?_
      unfold Machine.InBitmap at hbitmap ⊢
      rwa [hlayout.bitmap, hlayout.size] at hbitmap
    · exact (h.written x hfirst).imp_right fun ⟨f, hf, htable⟩ => ⟨f, hf, htables f htable⟩
  used g hg := by
    rw [h'.used g (hlayout.highest ▸ hg), h.used g hg]
    exact ⟨fun hcase => hcase.elim (fun hold => hold.imp_right (htables g)) Or.inr,
      fun hcase => hcase.imp_left Or.inl⟩

theorem Extended.trans (h : Extended root s s') (h' : Extended root s' s'') :
    Extended root s s'' where
  layout := h.layout.trans h'.layout
  tables f hf := h'.tables f (h.tables f hf)
  leaves r hr := (h'.leaves r hr).trans (h.leaves r hr)
  writes := h.writes.trans h'.writes h.layout h'.tables

theorem Extended.onLargePage (h : Extended root s s') :
    OnLargePage s' root v ↔ OnLargePage s root v := by
  unfold OnLargePage
  rw [h.leaves _ (pagePath_length v)]

section

variable (h : BootSpace root s)

include h

section

variable (hq : q.length + 1 < 4)
  (hn : reach tableOf (entries (links s.mem)) root q = some (g * 4096))
  (hnone : present (read64 s.mem (g * 4096 + 8 * i)) = none)

include hq hn hnone

/-- The tree after a frame was taken and hung in as a table. -/
theorem BootSpace.link_tree (ht : FrameTaken s m f)
    (hm' : m' = write64 m (g * 4096 + 8 * i) (tableEntry (f * 4096))) :
    Tree tableOf 4 root (links m') ∧
      PageTables.EntrySet tableOf 4 root (links s.mem) (links m') (q ++ [i])
        (some (tableEntry (f * 4096))) ∧
      (∀ r, r.length = 4 → leafOf tableOf m' root r = leafOf tableOf s.mem root r) ∧
      ∀ j, pageEntries m' (f * 4096) j = none := by
  have hwidth := h.width
  have hle := ht.le
  have hfresh := h.not_table_of_free ht.free
  have hgf : g ≠ f := fun heq => hfresh (heq ▸ ⟨q, by omega, hn⟩)
  have hold : ∀ t, PageTables.IsTable tableOf 4 root (links s.mem) t → ∀ x, InPage t x →
      m' x = write64 s.mem (g * 4096 + 8 * i) (tableEntry (f * 4096)) x := by
    rintro t ⟨p, hp, htable⟩ x hx
    obtain ⟨k, rfl, hk⟩ := h.frame_of_reach hp htable
    rw [hm']
    exact write64_apply_congr (h.mem_of_taken ht hk (inPage_iff.mp hx))
  have hzero : ∀ x, InPage (f * 4096) x → m' x = 0 := by
    intro x hx
    rw [inPage_iff] at hx
    rw [hm', write_entry_of_not_inFrame fun hxg => hgf (hxg.unique hx), ht.cleared x hx]
  obtain ⟨htree, hset, hleaves⟩ := h.tree.link_links tableOf_mod (by omega) hn
    (tableEntry_lt (by omega)) hold hq hnone (presentEntry_tableEntry _) not_large_tableEntry
    (tableOf_tableEntry (by omega)) hfresh hzero
  exact ⟨htree, hset, hleaves, PageTables.entries_zero hzero⟩

/-- The new frame is a table, and there is no other new one. -/
theorem BootSpace.link_tables (hf : f < 2 ^ 40)
    (hset : PageTables.EntrySet tableOf 4 root (links s.mem) (links s'.mem) (q ++ [i])
      (some (tableEntry (f * 4096)))) :
    reach tableOf (entries (links s'.mem)) root (q ++ [i]) = some (f * 4096) ∧
      ∀ k, HwTable s' root k ↔ HwTable s root k ∨ k = f := by
  have htarget : tableOf (tableEntry (f * 4096)) = f * 4096 := tableOf_tableEntry hf
  have hlen : (q ++ [i]).length < 4 := by simpa using hq
  have hreach : reach tableOf (entries (links s'.mem)) root (q ++ [i]) = some (f * 4096) := by
    rw [reach_eq_map_walk (by simp), hset _ (by omega), if_pos rfl, Option.map_some, htarget]
  refine ⟨hreach, fun k => ⟨fun hk => ?_, fun hk => ?_⟩⟩
  · refine (PageTables.EntrySet.isTable hset hk).imp_right ?_
    rintro ⟨_, a, ha, hka⟩
    cases ha
    rw [htarget] at hka
    omega
  · rcases hk with ⟨r, hr, hk⟩ | rfl
    · exact ⟨r, hr, hset.reach_mono
        (fun _ => PageTables.walk_links_none tableOf_mod h.root_mod hn hnone) hr hk⟩
    · exact ⟨q ++ [i], hlen, hreach⟩

/-- Adding a table: `m` is memory after the frame `f` was taken. -/
theorem BootSpace.link (ht : FrameTaken s m f)
    (hs' : s' = (s.taken m f).withMem (write64 m (g * 4096 + 8 * i) (tableEntry (f * 4096)))) :
    BootSpace root s' ∧ Extended root s s' ∧
      reach tableOf (entries (links s'.mem)) root (q ++ [i]) = some (f * 4096) ∧
      ∀ j, pageEntries s'.mem (f * 4096) j = none := by
  have hwidth := h.width
  have hcovered := h.wellFormed.covered
  have hle := ht.le
  have htable : HwTable s root g := ⟨q, by omega, hn⟩
  have hmem : s'.mem = write64 m (g * 4096 + 8 * i) (tableEntry (f * 4096)) := by rw [hs']; rfl
  have hlayout : SameLayout s s' := by rw [hs']; exact ⟨rfl, rfl, rfl⟩
  obtain ⟨htree, hset, hleaves, hempty⟩ := h.link_tree hq hn hnone ht hmem
  obtain ⟨hreach, htables⟩ := h.link_tables hq hn hnone (by omega) hset
  -- the store goes to a table, so it leaves the bitmap alone
  have hbitmap : ∀ x, (s.taken m f).InBitmap x →
      write64 m (g * 4096 + 8 * i) (tableEntry (f * 4096)) x = m x :=
    fun x hx => h.write_inBitmap htable hx
  have hused : ∀ k, k ≤ s.highestFrame → s'.frameUsed k = (s.frameUsed k || decide (k = f)) := by
    intro k hk
    rw [hs', frameUsed_congr (s := s.taken m f) hbitmap
      (show k < 64 * s.bitmapSizeQwords by omega), ht.bits k (by omega)]
  have hwrites : WritesTables root s s' := by
    refine ⟨fun x hx => ?_, fun k hk => ?_⟩
    · by_cases hbit : s.InBitmap x
      · exact Or.inl hbit
      right
      by_cases hxg : InFrame g x
      · exact ⟨g, hxg, (htables g).mpr (Or.inl htable)⟩
      · refine ⟨f, ?_, (htables f).mpr (Or.inr rfl)⟩
        by_contra hxf
        refine hx ?_
        rw [hmem, write_entry_of_not_inFrame hxg, ht.outside x hbit hxf]
    · rw [hused k hk, Bool.or_eq_true, decide_eq_true_iff, htables k, ← or_assoc]
      refine or_congr_left ⟨Or.inl, fun hcase => hcase.elim id fun hk' => (h.frames k hk').2.1⟩
  refine ⟨⟨?_, by rw [hlayout.highest]; exact hwidth, htree, fun k hk => ?_, fun j e he => ?_⟩,
    ⟨hlayout, fun k hk => (htables k).mpr (Or.inl hk), hleaves, hwrites⟩, hreach, hempty⟩
  · rw [hs']
    exact (h.wellFormed.taken ht).withMem hbitmap
  · have hstorage : s'.HoldsBitmap k ↔ s.HoldsBitmap k := by rw [hs']; exact Iff.rfl
    rw [hlayout.highest, hstorage]
    rcases (htables k).mp hk with hold | rfl
    · obtain ⟨hle', hused', hnot⟩ := h.frames k hold
      exact ⟨hle', by rw [hused k hle', hused', Bool.true_or], hnot⟩
    · exact ⟨hle, by rw [hused k hle]; simp, h.wellFormed.not_holdsBitmap hle ht.free⟩
  · -- an entry of the top table is the new one or an old one
    obtain ⟨k, rfl, hk⟩ := h.frame_of_reach (q := []) (by decide) rfl
    rw [hmem, PageTables.read64_write_entry (Nat.mul_mod_left g 4096) (Nat.mul_mod_left k 4096)
      (tableEntry_lt (by omega))] at he
    split at he
    · rw [presentEntry_tableEntry] at he
      cases he
      exact not_large_tableEntry
    · rw [h.read64_of_taken ht hk] at he
      exact h.top j e he

end

/-- Writing the entry of a page. -/
theorem BootSpace.setPage (hq : q.length = 3)
    (hn : reach tableOf (entries (links s.mem)) root q = some n) (hv : v < 2 ^ 64)
    (hs' : s' = s.withMem (write64 s.mem (n + 8 * i) v)) :
    (∀ r, r.length = 4 → leafOf tableOf s'.mem root r =
        if r = q ++ [i] then (presentEntry v).map fun e => (e, 0)
        else leafOf tableOf s.mem root r) ∧
      WritesTables root s s' ∧ ∀ k, HwTable s root k → HwTable s' root k := by
  obtain ⟨g, rfl, htable⟩ := h.frame_of_reach (by omega) hn
  have hcovered := h.wellFormed.covered
  have hmem : s'.mem = write64 s.mem (g * 4096 + 8 * i) v := by rw [hs']; rfl
  have hstore : ∀ t, PageTables.IsTable tableOf 4 root (links s.mem) t → ∀ x, InPage t x →
      s'.mem x = write64 s.mem (g * 4096 + 8 * i) v x := fun _ _ x _ => congrFun hmem x
  obtain ⟨_, hset, hleaves⟩ := h.tree.setLeaf_links tableOf_mod (by omega) hn hv hstore (by omega)
  have htables : ∀ k, HwTable s root k → HwTable s' root k := fun k ⟨r, hr, hk⟩ =>
    ⟨r, hr, hset.reach_mono (fun hlt => absurd hlt (by simp; omega)) hr hk⟩
  refine ⟨hleaves, ⟨fun x hx => Or.inr ⟨g, ?_, htables g htable⟩, fun k hk => ?_⟩, htables⟩
  · by_contra hxg
    refine hx ?_
    rw [hmem]
    exact write_entry_of_not_inFrame hxg
  · have hkept : s'.frameUsed k = s.frameUsed k := by
      rw [hs', frameUsed_congr (fun x hx => h.write_inBitmap htable hx) (by omega)]
    rw [hkept]
    refine ⟨Or.inl, fun hcase => hcase.elim id fun hk' => ?_⟩
    rcases PageTables.EntrySet.isTable hset hk' with hold | ⟨hlt, _⟩
    · exact (h.frames k hold).2.1
    · rw [List.length_append, List.length_singleton, hq] at hlt
      omega

/-- Taking a frame changes no leaf. -/
theorem BootSpace.leaves_of_taken (ht : FrameTaken s m f) {r : List (Fin 512)} (hr : r.length = 4) :
    leafOf tableOf m root r = leafOf tableOf s.mem root r := by
  refine PageTables.leafOf_of_agree tableOf_mod (d := 4) (q := r) (i := 0) h.root_mod ?_
    (by omega) ?_
  · intro p t j hp hreach _
    obtain ⟨k, rfl, hk⟩ := h.frame_of_reach hp hreach
    exact h.read64_of_taken ht hk j
  · intro hpre
    have hlen := hpre.length_le
    rw [List.length_append, List.length_singleton] at hlen
    omega

/-- On the path of an address that lies in no large page, the present entries above the
last level lead to tables. -/
theorem BootSpace.not_large (hsmall : ¬OnLargePage s root v)
    (hn : reach tableOf (entries (links s.mem)) root q = some n)
    (hpre : q ++ [i] <+: (pagePath v).take 3) (ha : present (read64 s.mem (n + 8 * i)) = some a) :
    ¬Large a := by
  intro hlarge
  obtain ⟨i1, i2, i3, i4, _, _, _, _, hindices⟩ := pagePath_indices v
  obtain ⟨rest, hrest⟩ := hpre
  have hpath : pagePath v = q ++ i :: (rest ++ [i4]) := by
    rw [hindices] at hrest ⊢
    have happend : [i1, i2, i3, i4] = [i1, i2, i3, i4].take 3 ++ [i4] := rfl
    rw [happend, ← hrest]
    simp
  refine hsmall ⟨a, rest.length, ?_⟩
  rw [hpath, PageTables.leafOf_append tableOf_mod h.root_mod (by simp) hn, leafOf, ha,
    Option.bind_some, if_pos (Or.inr hlarge), List.length_append, List.length_singleton]

/-- `vmm_get_next_level` on a present entry that leads to a table. -/
theorem BootSpace.level_present (hn : reach tableOf (entries (links s.mem)) root q = some n)
    (ha : entryAt s root (q ++ [i]) = some a) (hsmall : ¬Large a) :
    vmmGetNextLevel (n + 8 * i) true s = .ok (some (tableOf a)) s ∧
      reach tableOf (entries (links s.mem)) root (q ++ [i]) = some (tableOf a) := by
  have hraw : tableAt s root q = some n := PageTables.reach_of_links tableOf_mod h.root_mod hn
  rw [entryAt_concat hraw] at ha
  refine ⟨vmmGetNextLevel_word true h.wellFormed.hhdm ha, ?_⟩
  have halign := PageTables.reach_aligned tableOf_mod h.root_mod hn
  rw [reach_append, hn, Option.bind_some, reach,
    (PageTables.entries_links_eq_some halign).mpr ⟨ha, hsmall⟩]
  rfl

/-- `vmm_get_next_level` on an absent entry. -/
theorem BootSpace.level_absent (hq : q.length + 1 < 4)
    (hn : reach tableOf (entries (links s.mem)) root q = some n)
    (hnone : entryAt s root (q ++ [i]) = none) :
    (vmmGetNextLevel (n + 8 * i) true s = .panic "PMM: Out of physical memory!" s ∧
        ∀ k, s.SparesZero k) ∨
      (∃ s', vmmGetNextLevel (n + 8 * i) true s = .ok none s' ∧ ¬s.SparesZero 1 ∧
        SameLeaves root s s') ∨
      ∃ n' s', vmmGetNextLevel (n + 8 * i) true s = .ok (some n') s' ∧
        (BootSpace root s' ∧ Extended root s s' ∧
          reach tableOf (entries (links s'.mem)) root (q ++ [i]) = some n') ∧
        (∀ k, s.SparesZero (k + 1) ↔ s'.SparesZero k) ∧
        ∀ r, r ≠ [] → entryAt s' root (q ++ [i] ++ r) = entryAt s root (q ++ [i] ++ r) := by
  have hraw : tableAt s root q = some n := PageTables.reach_of_links tableOf_mod h.root_mod hn
  have habsent := hnone
  rw [entryAt_concat hraw] at habsent
  obtain ⟨g, rfl, hg⟩ := h.frame_of_reach (by omega) hn
  rcases vmmGetNextLevel_take h.wellFormed (presentEntry_eq_none.mp habsent) with
    ⟨hpanic, hall⟩ | ⟨f, m, ht, hcase⟩
  · exact Or.inl ⟨hpanic, fun k => Or.inl (hall 0 (Nat.zero_le _))⟩
  right
  rcases hcase with ⟨_, hrun, hlost⟩ | ⟨_, hrun, hspared⟩
  · left
    exact ⟨_, hrun, hlost, fun r hr => h.leaves_of_taken ht hr⟩
  · right
    obtain ⟨h', hext, hn', hempty⟩ := h.link hq hn habsent ht rfl
    refine ⟨_, _, hrun, ⟨h', hext, hn'⟩, hspared (h.frames g hg).2.2, ?_⟩
    -- below the new table nothing is there, before and after
    intro r hr
    have hraw' := PageTables.reach_of_links tableOf_mod h'.root_mod hn'
    rw [entryAt, entryAt, walk_append_of_hollow (by simp) ?_ hr,
      walk_append_of_hollow (by simp) ?_ hr]
    · intro a ha
      rw [show walk tableOf (pageEntries s.mem) root (q ++ [i]) = none from hnone] at ha
      cases ha
    · intro a ha
      have hsame := (reach_of_walk ha).symm.trans hraw'
      rw [Option.some.inj hsame]
      exact hempty

end

/-- The walk of `vmm_map_page` away from large pages. -/
theorem vmmDescend_small (h : BootSpace root s) (hsmall : ¬OnLargePage s root v) :
    AllocEnds (vmmDescend ((pagePath v).take 3) root s) none (s.SparesZero (missingFor s root v))
      (SameLeaves root s) fun found s' => ∃ n, found = some n ∧ BootSpace root s' ∧
        Extended root s s' ∧
        reach tableOf (entries (links s'.mem)) root ((pagePath v).take 3) = some n := by
  rw [missingFor]
  refine vmmDescend_induct (q := [])
    (I := fun s' q n => BootSpace root s' ∧ Extended root s s' ∧
      reach tableOf (entries (links s'.mem)) root q = some n)
    ((pagePath v).take 3) ?_ ?_ ((pagePath v).take 3) ⟨h, h.extended_refl, rfl⟩ List.prefix_rfl
  · rintro s1 q i n a ⟨h1, hext, hn⟩ hpre ha
    have hraw : tableAt s1 root q = some n := PageTables.reach_of_links tableOf_mod h1.root_mod hn
    have hsmall1 : ¬OnLargePage s1 root v := fun hlarge => hsmall (hext.onLargePage.mp hlarge)
    have hnot := h1.not_large hsmall1 hn hpre ((entryAt_concat hraw).symm.trans ha)
    obtain ⟨hrun, hn'⟩ := h1.level_present hn ha hnot
    exact ⟨hrun, h1, hext, hn'⟩
  · rintro s1 q i n ⟨h1, hext, hn⟩ hpre hnone
    have hlen := hpre.length_le
    rw [List.length_append, List.length_singleton, List.length_take, pagePath_length] at hlen
    rcases h1.level_absent (by omega) hn hnone with
      hpanic | ⟨s2, hrun, hlost, hleaves⟩ | ⟨n', s2, hrun, ⟨h2, hext2, hn2⟩, hspared, hbelow⟩
    · exact Or.inl hpanic
    · exact Or.inr (Or.inl ⟨s2, hrun, hlost, fun r hr => (hleaves r hr).trans (hext.leaves r hr)⟩)
    · exact Or.inr (Or.inr ⟨n', s2, hrun, ⟨h2, hext.trans hext2, hn2⟩, hspared,
        fun r hr _ => hbelow r hr⟩)

/-- **Away from large pages**, `vmm_map_page` returns `true` and has set the leaf of its
page, or it returns `false` and no translation has changed. -/
theorem vmmMapPage_small (h : BootSpace root s) (hsmall : ¬OnLargePage s root v) (flags : Nat)
    (hv : v % 4096 = 0) (hp : p % 4096 = 0) :
    AllocEnds (vmmMapPage root v p flags s) false (s.SparesZero (missingFor s root v))
      (SameLeaves root s) fun mapped s' => mapped = true ∧
        (∀ r, r.length = 4 → leafOf tableOf s'.mem root r =
          if r = pagePath v then some (pageEntry p flags, 0) else leafOf tableOf s.mem root r) ∧
        WritesTables root s s' := by
  rw [vmmMapPage_eq hv hp h.wellFormed.hhdm]
  refine (vmmDescend_small h hsmall).andThen (fun _ => rfl) ?_
  rintro _ s' ⟨n, rfl, h', hext, hn⟩
  obtain ⟨i1, i2, i3, i4, _, _, _, h4, hpath⟩ := pagePath_indices v
  have htake : (pagePath v).take 3 = [i1, i2, i3] := by rw [hpath]; rfl
  rw [htake] at hn
  obtain ⟨hleaves, hwrites, htables⟩ := h'.setPage (i := i4) rfl hn (pageEntry_lt p flags) rfl
  refine ⟨true, _, ?_, rfl, fun r hr => ?_, hext.writes.trans hwrites hext.layout htables⟩
  · simp [vmmFinish, h4, vmmSetPage, store64, Machine.withMem, pageEntry]
  · rw [hleaves r hr, hext.leaves r hr, presentEntry_pageEntry, hpath]
    rfl

/-! ## On a large page -/

/-- The first two entries on the path of an address in a large page are present. -/
theorem BootSpace.large_path (h : BootSpace root s) (hlarge : OnLargePage s root v)
    {i1 i2 i3 i4 : Fin 512} (hpath : pagePath v = [i1, i2, i3, i4]) :
    ∃ e1 e2, presentEntry (read64 s.mem (root + 8 * i1)) = some e1 ∧
      presentEntry (read64 s.mem (tableOf e1 + 8 * i2)) = some e2 := by
  obtain ⟨e, k, hleaf⟩ := hlarge
  rw [hpath, leafOf, Option.bind_eq_some_iff] at hleaf
  obtain ⟨e1, he1, hleaf⟩ := hleaf
  have hnot : ¬([i2, i3, i4] = [] ∨ Large e1) := by simp [h.top i1 e1 he1]
  rw [if_neg hnot, leafOf, Option.bind_eq_some_iff] at hleaf
  obtain ⟨e2, he2, _⟩ := hleaf
  exact ⟨e1, e2, he1, he2⟩

/-- Words that do not lie across each other. -/
theorem read64_write64_aligned {b : Nat} (ha : a % 8 = 0) (hb : b % 8 = 0) (hv : v < 2 ^ 64) :
    read64 (write64 m a v) b = if b = a then v else read64 m b := by
  by_cases hsame : b = a
  · rw [if_pos hsame, hsame, read64_write64_of_lt hv]
  · rw [if_neg hsame, read64_write64_of_disjoint (by omega)]

section Raw

variable {i1 i2 i3 i4 : Fin 512} {e1 e2 e3 : Nat}
  (hpath : pagePath v = [i1, i2, i3, i4])
  (he1 : presentEntry (read64 s.mem (root + 8 * i1)) = some e1)
  (he2 : presentEntry (read64 s.mem (tableOf e1 + 8 * i2)) = some e2)

include hpath he1 he2

/-- The call from the third level on, where the word it reads need not be an entry. -/
theorem vmmMapPage_third (hhhdm : s.hhdmPhysOffset ≠ 0) (flags : Nat) (hv : v % 4096 = 0)
    (hp : p % 4096 = 0) :
    vmmMapPage root v p flags s =
      (vmmGetNextLevel (tableOf e2 + 8 * i3) true s).andThen (vmmFinish v p flags) := by
  have htake : (pagePath v).take 3 = [i1, i2, i3] := by rw [hpath]; rfl
  rw [vmmMapPage_eq hv hp hhhdm, htake, vmmDescend_cons_andThen,
    vmmGetNextLevel_word true hhhdm he1, Outcome.andThen_ok]
  simp only [Exec.bind_apply]
  rw [vmmDescend_cons_andThen, vmmGetNextLevel_word true hhhdm he2, Outcome.andThen_ok]
  simp only [Exec.bind_apply]
  rw [vmmDescend_cons_andThen]
  rfl

/-- The whole call, if three words are present. -/
theorem vmmMapPage_fourth (hhhdm : s.hhdmPhysOffset ≠ 0)
    (he3 : presentEntry (read64 s.mem (tableOf e2 + 8 * i3)) = some e3) (flags : Nat)
    (hv : v % 4096 = 0) (hp : p % 4096 = 0) :
    vmmMapPage root v p flags s =
      .ok true (s.withMem (write64 s.mem (tableOf e3 + 8 * ptIndex v) (pageEntry p flags))) := by
  rw [vmmMapPage_third hpath he1 he2 hhhdm flags hv hp, vmmGetNextLevel_word true hhhdm he3,
    Outcome.andThen_ok]
  simp [vmmFinish, vmmSetPage, store64, Machine.withMem, pageEntry]

theorem missingFor_third :
    missingFor s root v =
      if presentEntry (read64 s.mem (tableOf e2 + 8 * i3)) = none then 1 else 0 := by
  have htake : (pagePath v).take 3 = [i1, i2, i3] := by rw [hpath]; rfl
  have htop : entryAt s root [i1] = some e1 := (entryAt_concat (q := []) rfl).trans he1
  have hsecond : entryAt s root [i1, i2] = some e2 :=
    (entryAt_concat (q := [i1]) (tableAt_of_entryAt htop)).trans he2
  have hthird : entryAt s root [i1, i2, i3] =
      presentEntry (read64 s.mem (tableOf e2 + 8 * i3)) :=
    entryAt_concat (q := [i1, i2]) (tableAt_of_entryAt hsecond)
  simp [missingFor, htake, missingTables, htop, hsecond, hthird]

end Raw

/-- **On a page of 2 MiB** the call overwrites a word of the page's first frame. -/
theorem vmmMapPage_overwrites {e : Nat} (h : BootSpace root s)
    (hleaf : leafOf tableOf s.mem root (pagePath v) = some (e, 1)) (flags : Nat)
    (hv : v % 4096 = 0) (hp : p % 4096 = 0) :
    vmmMapPage root v p flags s =
      .ok true (s.withMem (write64 s.mem (tableOf e + 8 * ptIndex v) (pageEntry p flags))) := by
  obtain ⟨i1, i2, i3, i4, _, _, _, _, hpath⟩ := pagePath_indices v
  obtain ⟨e1, e2, he1, he2⟩ := h.large_path ⟨e, 0, hleaf⟩ hpath
  have hsmall1 : ¬([i2, i3, i4] = [] ∨ Large e1) := by simp [h.top i1 e1 he1]
  rw [presentEntry_eq] at he1 he2
  rw [hpath, leafOf, he1, Option.bind_some, if_neg hsmall1, leafOf, he2, Option.bind_some] at hleaf
  -- the leaf stands one level above the last, so the second entry leads to a table
  have hsmall2 : ¬([i3, i4] = [] ∨ Large e2) := by
    intro hlarge
    rw [if_pos hlarge] at hleaf
    cases hleaf
  rw [if_neg hsmall2, leafOf, Option.bind_eq_some_iff] at hleaf
  obtain ⟨e3, he3, hleaf⟩ := hleaf
  have hsame : e3 = e := by
    by_cases hlarge : [i4] = [] ∨ Large e3
    · rw [if_pos hlarge] at hleaf
      cases hleaf
      rfl
    · rw [if_neg hlarge, leafOf, Option.bind_eq_some_iff] at hleaf
      obtain ⟨_, _, hleaf⟩ := hleaf
      rw [if_pos (Or.inl rfl)] at hleaf
      cases hleaf
  rw [← hsame]
  exact vmmMapPage_fourth hpath he1 he2 h.wellFormed.hhdm he3 flags hv hp

/-- An entry of the tree survives when a taken frame is hung into a word that was not
present, wherever that word is, and then gets an entry of its own. -/
theorem BootSpace.read64_of_filled {k b : Nat} {j i' : Fin 512} (h : BootSpace root s)
    (ht : FrameTaken s m f) (hk : HwTable s root k)
    (hpresent : present (read64 s.mem (k * 4096 + 8 * j)) ≠ none)
    (hnone : present (read64 s.mem (g * 4096 + 8 * i)) = none) (ha : a < 2 ^ 64) (hb : b < 2 ^ 64) :
    read64 (write64 (write64 m (g * 4096 + 8 * i) a) (f * 4096 + 8 * i') b) (k * 4096 + 8 * j) =
      read64 s.mem (k * 4096 + 8 * j) := by
  have hi' := i'.isLt
  have hj := j.isLt
  have hkf : k ≠ f := fun heq => h.not_table_of_free ht.free (heq ▸ hk)
  have hother : k * 4096 + 8 * (j : Nat) ≠ f * 4096 + 8 * i' := by omega
  have hne : k * 4096 + 8 * (j : Nat) ≠ g * 4096 + 8 * i := by
    intro heq
    rw [heq] at hpresent
    exact hpresent hnone
  rw [read64_write64_aligned (by omega) (by omega) hb, if_neg hother,
    read64_write64_aligned (by omega) (by omega) ha, if_neg hne]
  exact h.read64_of_taken ht hk j

/-- **On a large page**, `vmm_map_page` stops the machine for want of a frame, or it
returns, and the entries of the tree are what they were, but for one that may have been
overwritten with the entry of the page. -/
theorem vmmMapPage_large (h : BootSpace root s) (hlarge : OnLargePage s root v) (flags : Nat)
    (hv : v % 4096 = 0) (hp : p % 4096 = 0) :
    (∃ s', vmmMapPage root v p flags s = .panic "PMM: Out of physical memory!" s' ∧
        0 < missingFor s root v ∧ ∀ f, f ≤ s.highestFrame → s.frameUsed f = true) ∨
      ∃ mapped s', vmmMapPage root v p flags s = .ok mapped s' ∧
        ¬(0 < missingFor s root v ∧ ∀ f, f ≤ s.highestFrame → s.frameUsed f = true) ∧
        ∀ q t (j : Fin 512), q.length < 4 →
          reach tableOf (entries (links s.mem)) root q = some t →
          present (read64 s.mem (t + 8 * j)) ≠ none →
          read64 s'.mem (t + 8 * j) = read64 s.mem (t + 8 * j) ∨
            read64 s'.mem (t + 8 * j) = pageEntry p flags := by
  have hhhdm := h.wellFormed.hhdm
  have hentry := pageEntry_lt p flags
  obtain ⟨i1, i2, i3, i4, _, _, _, h4, hpath⟩ := pagePath_indices v
  obtain ⟨e1, e2, he1, he2⟩ := h.large_path hlarge hpath
  rw [missingFor_third hpath he1 he2]
  cases he3 : presentEntry (read64 s.mem (tableOf e2 + 8 * i3)) with
  | some e3 =>
    right
    refine ⟨true, _, vmmMapPage_fourth hpath he1 he2 hhhdm he3 flags hv hp, by simp,
      fun q t j hq ht _ => ?_⟩
    have hmod := tableOf_mod e3
    have htmod := PageTables.reach_aligned tableOf_mod h.root_mod ht
    have hread : read64 (write64 s.mem (tableOf e3 + 8 * ptIndex v) (pageEntry p flags))
        (t + 8 * j) = if t + 8 * (j : Nat) = tableOf e3 + 8 * ptIndex v then pageEntry p flags
          else read64 s.mem (t + 8 * j) :=
      read64_write64_aligned (by omega) (by omega) hentry
    by_cases hcell : t + 8 * (j : Nat) = tableOf e3 + 8 * ptIndex v
    · exact Or.inr (hread.trans (if_pos hcell))
    · exact Or.inl (hread.trans (if_neg hcell))
  | none =>
    have hmod := tableOf_mod e2
    obtain ⟨g, hg⟩ : ∃ g, tableOf e2 = g * 4096 := ⟨tableOf e2 / 4096, by omega⟩
    rw [vmmMapPage_third hpath he1 he2 hhhdm flags hv hp, hg]
    rw [hg] at he3
    rcases vmmGetNextLevel_take h.wellFormed (presentEntry_eq_none.mp he3) with
      ⟨hpanic, hall⟩ | ⟨f, m, ht, hcase⟩
    · left
      exact ⟨s, by rw [hpanic, Outcome.andThen_panic], by simp, hall⟩
    right
    have hroom : ¬(0 < (if (none : Option Nat) = none then 1 else 0) ∧
        ∀ f, f ≤ s.highestFrame → s.frameUsed f = true) := by
      rintro ⟨_, hall⟩
      have hfree := ht.free
      rw [hall f ht.le] at hfree
      cases hfree
    rcases hcase with ⟨rfl, hrun, _⟩ | ⟨_, hrun, _⟩
    · refine ⟨false, _, by rw [hrun, Outcome.andThen_ok]; rfl, hroom, fun q t j hq hreach _ => ?_⟩
      obtain ⟨k, rfl, hk⟩ := h.frame_of_reach hq hreach
      exact Or.inl (h.read64_of_taken ht hk j)
    · refine ⟨true, ((s.taken m f).withMem (write64 (write64 m (g * 4096 + 8 * i3)
        (tableEntry (f * 4096))) (f * 4096 + 8 * i4) (pageEntry p flags))), ?_, hroom,
        fun q t j hq hreach hpresent => Or.inl ?_⟩
      · rw [hrun, Outcome.andThen_ok]
        simp [vmmFinish, h4, vmmSetPage, store64, Machine.withMem, pageEntry]
      · obtain ⟨k, rfl, hk⟩ := h.frame_of_reach hq hreach
        have hle := ht.le
        have hwidth := h.width
        exact h.read64_of_filled ht hk hpresent he3 (tableEntry_lt (by omega)) hentry

/-! ## When the call is local -/

/-- Leaves that are the same for the page of `v`: so is its translation. -/
theorem hwTranslate_congr
    (h : leafOf tableOf s'.mem root (pagePath v) = leafOf tableOf s.mem root (pagePath v)) :
    hwTranslate s' root v = hwTranslate s root v := by
  rw [hwTranslate, hwTranslate, h]

theorem mapsLocally_of_leaves {flags : Nat} (hv : v % 4096 = 0) (hp : p % 4096 = 0)
    (hwidth : p < 2 ^ 52) (hwrites : WritesTables root s s')
    (hleaves : ∀ r, r.length = 4 → leafOf tableOf s'.mem root r =
      if r = pagePath v then some (pageEntry p flags, 0) else leafOf tableOf s.mem root r) :
    MapsLocally root v p s s' where
  target := by
    have hoffset : v % 2 ^ 12 = 0 := hv
    rw [hwTranslate, hleaves _ (pagePath_length v), if_pos rfl, Option.bind_some, pageOf,
      Option.map_some, hoffset, tableOf, pageEntry_and_addrMask, and_addrMask hwidth hp,
      Nat.add_zero]
  other w hw := by
    refine hwTranslate_congr ?_
    rw [hleaves _ (pagePath_length w), if_neg]
    exact fun hpath => hw (pagePath_eq_iff.mp hpath.symm)
  writes := hwrites

/-- The processor faults on an entry with reserved bits set, wherever above the last
level it stands. -/
theorem pageOf_reserved {e : Nat} (h : tableOf e % 2 ^ 21 / 2 ^ 13 ≠ 0)
    (h' : tableOf e % 2 ^ 30 / 2 ^ 13 ≠ 0) (v k : Nat) : pageOf v (e, k + 1) = none := by
  match k with
  | 0 => exact if_neg h
  | 1 => exact if_neg h'
  | k + 2 => rfl

/-- A target that differs from a given one and that no large page can have. -/
theorem exists_target (old : Option Nat) :
    ∃ p, p % 4096 = 0 ∧ p < 2 ^ 52 ∧ old ≠ some p ∧ Large (pageEntry p 0x80) ∧
      ∀ v k, pageOf v (pageEntry p 0x80, k + 1) = none := by
  have hodd : ∀ p, p = 0x2000 ∨ p = 0x6000 → p % 4096 = 0 ∧ p < 2 ^ 52 ∧
      Large (pageEntry p 0x80) ∧ tableOf (pageEntry p 0x80) % 2 ^ 21 / 2 ^ 13 ≠ 0 ∧
      tableOf (pageEntry p 0x80) % 2 ^ 30 / 2 ^ 13 ≠ 0 := by
    rintro p (rfl | rfl) <;> decide
  by_cases hold : old = some 0x2000
  · obtain ⟨hp, hwidth, hlarge, h1, h2⟩ := hodd 0x6000 (Or.inr rfl)
    exact ⟨0x6000, hp, hwidth, by rw [hold]; decide, hlarge, pageOf_reserved h1 h2⟩
  · obtain ⟨hp, hwidth, hlarge, h1, h2⟩ := hodd 0x2000 (Or.inl rfl)
    exact ⟨0x2000, hp, hwidth, hold, hlarge, pageOf_reserved h1 h2⟩

end

/-- **When mapping is local.**  In a tree with large pages, every call of `vmm_map_page`
for the page `v` that returns is local exactly if it spares frame 0 and `v` lies in no
large page; on a large page it would have to stop the machine, which it does if the
word that it takes for an entry is not present and no frame is free. -/
theorem vmm_map_page_local_iff (root : Nat) (s : Machine) (v : Nat) (h : BootSpace root s)
    (hv : v % 4096 = 0) :
    (∀ p flags, p % 4096 = 0 → p < 2 ^ 52 → ∀ mapped s',
        vmmMapPage root v p flags s = .ok mapped s' → MapsLocally root v p s s') ↔
      s.SparesZero (missingFor s root v) ∧
        (OnLargePage s root v →
          0 < missingFor s root v ∧ ∀ f, f ≤ s.highestFrame → s.frameUsed f = true) := by
  constructor
  · intro hlocal
    -- a call with a target that `v` does not have yet
    obtain ⟨p, hp, hwidth, hnew, hbit, hfault⟩ :=
      exists_target ((hwTranslate s root v).map Prod.fst)
    by_cases hlarge : OnLargePage s root v
    · rcases vmmMapPage_large h hlarge 0x80 hv hp with
        ⟨_, _, hmissing, hall⟩ | ⟨mapped, s', hrun, _, hwords⟩
      · exact ⟨Or.inl (hall 0 (Nat.zero_le _)), fun _ => ⟨hmissing, hall⟩⟩
      · exfalso
        have htarget := (hlocal p 0x80 hp hwidth mapped s' hrun).target
        obtain ⟨e, k, hleaf⟩ := hlarge
        rcases PageTables.leafOf_large (r := pagePath v) (presentEntry_pageEntry p 0x80) hbit
          tableOf_mod h.root_mod hwords hleaf with hsame | ⟨k', hover⟩
        · rw [hwTranslate_congr (hsame.trans hleaf.symm)] at htarget
          exact hnew htarget
        · rw [hwTranslate, hover, Option.bind_some, hfault] at htarget
          cases htarget
    · refine ⟨?_, fun hon => absurd hon hlarge⟩
      rcases vmmMapPage_small h hlarge 0x80 hv hp with
        ⟨_, _, hspared⟩ | ⟨s', hrun, _, hleaves⟩ | ⟨_, _, _, hspared, _⟩
      · exact hspared
      · exfalso
        have htarget := (hlocal p 0x80 hp hwidth false s' hrun).target
        rw [hwTranslate_congr (hleaves _ (pagePath_length v))] at htarget
        exact hnew htarget
      · exact hspared
  · rintro ⟨hspared, hstops⟩ p flags hp hwidth mapped s' hrun
    by_cases hlarge : OnLargePage s root v
    · rcases vmmMapPage_large h hlarge flags hv hp with ⟨_, hpanic, _⟩ | ⟨_, _, _, hnot, _⟩
      · cases hpanic.symm.trans hrun
      · exact absurd (hstops hlarge) hnot
    · rcases vmmMapPage_small h hlarge flags hv hp with
        ⟨_, hpanic, _⟩ | ⟨_, _, hlost, _⟩ | ⟨_, _, hrun', _, _, hleaves, hwrites⟩
      · cases hpanic.symm.trans hrun
      · exact absurd hspared hlost
      · cases hrun'.symm.trans hrun
        exact mapsLocally_of_leaves hv hp hwidth hwrites hleaves

/-! ## The tables of the bootloader -/

/-- The frame has no byte in usable memory. -/
def Unusable (memmap : List MemmapEntry) (frame : Nat) : Prop :=
  ∀ e ∈ memmap, e.type = .usable →
    (frame + 1) * 4096 ≤ e.base ∨ e.base + e.length ≤ frame * 4096

instance (memmap : List MemmapEntry) (frame : Nat) : Decidable (Unusable memmap frame) :=
  inferInstanceAs (Decidable (∀ _ ∈ _, _))

/-- **What `memory_init` adopts.**  Tables outside usable memory survive the first phase
of `memory_init`, which then leaves a `BootSpace`. -/
theorem bootSpace_of_memoryInitPmm {root hhdmOffset : Nat} {memmap : List MemmapEntry}
    {s s0 : Machine} (hrange : InRange memmap)
    (hinit : memoryInitPmm hhdmOffset memmap s = .ok () s0) (hwidth : totalFramesOf memmap ≤ 2 ^ 40)
    (htree : Tree tableOf 4 root (links s.mem))
    (hframes : ∀ f, HwTable s root f → f < totalFramesOf memmap ∧ Unusable memmap f)
    (htop : ∀ (i : Fin 512) e, presentEntry (read64 s.mem (root + 8 * i)) = some e → ¬Large e) :
    BootSpace root s0 := by
  obtain ⟨hpmm, hhighest, hmem⟩ := memoryInitPmm_ok hrange hinit
  have hstorage : ∀ f, Unusable memmap f → ¬s0.HoldsBitmap f := by
    intro f hf hholds
    obtain ⟨e, he, husable, hbase, hend, _⟩ := hpmm.bitmapPlace
    have hapart := hf e he husable
    unfold Machine.HoldsBitmap at hholds
    omega
  have hagree : ∀ t, PageTables.IsTable tableOf 4 root (links s.mem) t → ∀ x, InPage t x →
      s0.mem x = s.mem x := by
    intro t ht x hx
    have halign := htree.aligned t ht
    have hframe : t = t / 4096 * 4096 := by omega
    rw [hframe] at ht hx
    exact hmem x (not_inBitmap_of_inFrame (hstorage _ (hframes _ ht).2) (inPage_iff.mp hx))
  obtain ⟨htree0, htables⟩ := htree.links_of_agree hagree
  have hroot : root = root / 4096 * 4096 := by
    have halign := htree.aligned root ⟨[], by decide, rfl⟩
    omega
  have hpos : root / 4096 < totalFramesOf memmap :=
    (hframes _ ⟨[], by decide, by rw [← hroot]; rfl⟩).1
  have hlast : s0.highestFrame = totalFramesOf memmap - 1 := by
    rw [hhighest]
    exact sub64_of_le (by omega) (by have := totalFramesOf_le hrange; omega)
  refine ⟨hpmm.wellFormed, by omega, htree0, ?_, ?_⟩
  · intro f hf
    obtain ⟨hlt, hunusable⟩ := hframes f ((htables _).mp hf)
    refine ⟨by omega, ?_, hstorage f hunusable⟩
    by_contra hfree
    rw [Bool.not_eq_true, hpmm.freeFrames f (hpmm.totalFrames ▸ hlt)] at hfree
    obtain ⟨⟨e, he, husable, hlo, hhi⟩, _⟩ := hfree
    have hapart := hunusable e he husable
    omega
  · intro i e he
    rw [PageTables.read64_entry_congr (hagree root ⟨[], by decide, rfl⟩)] at he
    exact htop i e he

/-! ## An example of such tables -/

/-- Three tables from 0x1000 on, with a page of 2 MiB at 4 MiB of the direct map. -/
def BootTables (m : ByteMem) : Prop :=
  ∀ i : Fin 512, read64 m (0x1000 + 8 * i) = (if i = 256 then 0x2003 else 0) ∧
    read64 m (0x2000 + 8 * i) = (if i = 0 then 0x3003 else 0) ∧
    read64 m (0x3000 + 8 * i) = if i = 2 then 0x400083 else 0

instance (m : ByteMem) : Decidable (BootTables m) := inferInstanceAs (Decidable (∀ _, _))

theorem BootTables.reach_cases (h : BootTables m) (q : List (Fin 512)) (n : Nat)
    (hn : reach tableOf (entries (links m)) 0x1000 q = some n) :
    (q = [] ∧ n = 0x1000) ∨ (q = [256] ∧ n = 0x2000) ∨ (q = [256, 0] ∧ n = 0x3000) := by
  induction q using List.reverseRecOn generalizing n with
  | nil =>
    cases hn
    exact Or.inl ⟨rfl, rfl⟩
  | append_singleton q i ih =>
    rw [reach_append, Option.bind_eq_some_iff] at hn
    obtain ⟨t, ht, hn⟩ := hn
    rw [reach, Option.bind_eq_some_iff] at hn
    obtain ⟨e, he, hn⟩ := hn
    have halign := PageTables.reach_aligned tableOf_mod (show 0x1000 % 4096 = 0 by decide) ht
    rw [PageTables.entries_links_eq_some halign] at he
    obtain ⟨he, hsmall⟩ := he
    obtain ⟨h1, h2, h3⟩ := h i
    rcases ih t ht with ⟨rfl, rfl⟩ | ⟨rfl, rfl⟩ | ⟨rfl, rfl⟩
    · rw [h1] at he
      split at he
      · rename_i hi
        cases he
        cases hn
        exact Or.inr (Or.inl ⟨by rw [hi]; rfl, by decide⟩)
      · cases he
    · rw [h2] at he
      split at he
      · rename_i hi
        cases he
        cases hn
        exact Or.inr (Or.inr ⟨by rw [hi]; rfl, by decide⟩)
      · cases he
    · rw [h3] at he
      split at he
      · cases he
        exact absurd (by decide) hsmall
      · cases he

theorem BootTables.tree (h : BootTables m) : Tree tableOf 4 0x1000 (links m) where
  aligned := by
    rintro n ⟨q, _, hn⟩
    rcases h.reach_cases q n hn with ⟨_, rfl⟩ | ⟨_, rfl⟩ | ⟨_, rfl⟩ <;> decide
  unshared := by
    intro p q n _ _ hp hq
    rcases h.reach_cases p n hp with ⟨rfl, rfl⟩ | ⟨rfl, rfl⟩ | ⟨rfl, rfl⟩ <;>
      rcases h.reach_cases q _ hq with ⟨rfl, hn⟩ | ⟨rfl, hn⟩ | ⟨rfl, hn⟩ <;>
      first | rfl | exact absurd hn (by decide)

/-- The memory the bootloader leaves, with a word of the kernel at 4 MiB. -/
def bootMem : ByteMem :=
  write64 (write64 (write64 (write64 (fun _ => 0) 0x1800 0x2003) 0x2000 0x3003) 0x3010 0x400083)
    0x400000 0xABCD

theorem bootMem_read64 (ha : a % 8 = 0) :
    read64 bootMem a = if a = 0x400000 then 0xABCD else if a = 0x3010 then 0x400083
      else if a = 0x2000 then 0x3003 else if a = 0x1800 then 0x2003 else 0 := by
  unfold bootMem
  rw [read64_write64_aligned (by decide) ha (by decide),
    read64_write64_aligned (by decide) ha (by decide),
    read64_write64_aligned (by decide) ha (by decide),
    read64_write64_aligned (by decide) ha (by decide), read64_const_zero]

theorem bootMem_tables : BootTables bootMem := by
  intro i
  have hi := i.isLt
  have h1 : i = 256 ↔ (i : Nat) = 256 := Fin.ext_iff
  have h2 : i = 0 ↔ (i : Nat) = 0 := Fin.ext_iff
  have h3 : i = 2 ↔ (i : Nat) = 2 := Fin.ext_iff
  simp only [h1, h2, h3]
  rw [bootMem_read64 (by omega), bootMem_read64 (by omega), bootMem_read64 (by omega)]
  refine ⟨?_, ?_, ?_⟩ <;> split_ifs <;> omega

/-- The tables, two usable pages at 1 MiB, and the kernel at 4 MiB. -/
def bootMemmap : List MemmapEntry :=
  [⟨0x1000, 0x3000, .bootloaderReclaimable⟩, ⟨0x100000, 0x2000, .usable⟩,
    ⟨0x400000, 0x1000, .kernelAndModules⟩]

theorem bootMemmap_space :
    ∃ s0, memoryInitPmm 0xFFFF800000000000 bootMemmap (Machine.zero.withMem bootMem) = .ok () s0 ∧
      BootTables s0.mem ∧ BootSpace 0x1000 s0 ∧ s0.frameUsed 0 = true ∧
      read64 s0.mem 0x400000 = 0xABCD ∧ ¬s0.HoldsBitmap 0x400 := by
  have hcheck : (memoryInitPmm 0xFFFF800000000000 bootMemmap (Machine.zero.withMem bootMem)).test
      (fun _ s => decide (s.bitmap = 0x100000 ∧ s.bitmapSizeQwords = 17 ∧ s.frameUsed 0 = true))
      = true := by
    decide +kernel
  obtain ⟨_, s0, hinit, hcheck⟩ := Outcome.exists_of_test hcheck
  obtain ⟨hbitmap, hsize, hzero⟩ := of_decide_eq_true hcheck
  have hrange : InRange bootMemmap := by
    intro e he
    simp only [bootMemmap, List.mem_cons, List.not_mem_nil, or_false] at he
    rcases he with rfl | rfl | rfl <;> decide
  have hkept : ∀ a, a + 8 ≤ 0x100000 ∨ 0x101000 ≤ a → read64 s0.mem a = read64 bootMem a := by
    intro a ha
    refine read64_congr fun x hlo hhi => (memoryInitPmm_ok hrange hinit).2.2 x ?_
    unfold Machine.InBitmap
    omega
  have hdata : read64 bootMem 0x400000 = 0xABCD := read64_write64_of_lt (by decide)
  refine ⟨s0, hinit, ?_, ?_, hzero, (hkept _ (by decide)).trans hdata, ?_⟩
  · intro i
    have hi := i.isLt
    rw [hkept _ (by omega), hkept _ (by omega), hkept _ (by omega)]
    exact bootMem_tables i
  · refine bootSpace_of_memoryInitPmm hrange hinit (by decide) bootMem_tables.tree ?_ ?_
    · rintro f ⟨q, _, hn⟩
      rcases bootMem_tables.reach_cases q _ hn with ⟨_, hf⟩ | ⟨_, hf⟩ | ⟨_, hf⟩
      · rw [show f = 1 by omega]
        decide
      · rw [show f = 2 by omega]
        decide
      · rw [show f = 3 by omega]
        decide
    · intro i e he
      have hword : read64 (Machine.zero.withMem bootMem).mem (0x1000 + 8 * i) =
        if i = 256 then 0x2003 else 0 := (bootMem_tables i).1
      rw [hword] at he
      split at he
      · cases he
        decide
      · cases he
  · unfold Machine.HoldsBitmap
    omega

/-- The leaves of the tree in the first GiB of the direct map. -/
theorem BootTables.leafOf_eq (h : BootTables m) (i j : Fin 512) :
    leafOf tableOf m 0x1000 [256, 0, i, j] = if i = 2 then some (0x400083, 1) else none := by
  have hstep : ∀ n e (k : Fin 512) rest, read64 m (n + 8 * k) = e → present e = some e →
      rest ≠ [] → ¬Large e →
      leafOf tableOf m n (k :: rest) = leafOf tableOf m (tableOf e) rest := by
    intro n e k rest hread hpresent hrest hsmall
    rw [leafOf, hread, hpresent, Option.bind_some, if_neg (by simp [hrest, hsmall])]
  rw [hstep 0x1000 0x2003 256 _ (h 256).1 rfl (by simp) (by decide),
    show tableOf 0x2003 = 0x2000 from by decide,
    hstep 0x2000 0x3003 0 _ (h 0).2.1 rfl (by simp) (by decide),
    show tableOf 0x3003 = 0x3000 from by decide, leafOf, (h i).2.2]
  by_cases hi : i = 2
  · rw [if_pos hi, if_pos hi]
    rfl
  · rw [if_neg hi, if_neg hi]
    rfl

/-- Next to the large page, at the start of the direct map, every call is local. -/
theorem vmm_map_page_local_boot :
    ∃ s0, BootSpace 0x1000 s0 ∧ OnLargePage s0 0x1000 0xFFFF800000400000 ∧
      ∀ p flags, p % 4096 = 0 → p < 2 ^ 52 → ∀ mapped s',
        vmmMapPage 0x1000 0xFFFF800000000000 p flags s0 = .ok mapped s' →
          MapsLocally 0x1000 0xFFFF800000000000 p s0 s' := by
  obtain ⟨s0, _, htables, hspace, hzero, _⟩ := bootMemmap_space
  have hon : leafOf tableOf s0.mem 0x1000 (pagePath 0xFFFF800000400000) = some (0x400083, 1) :=
    htables.leafOf_eq 2 0
  have hoff : leafOf tableOf s0.mem 0x1000 (pagePath 0xFFFF800000000000) = none :=
    htables.leafOf_eq 0 0
  refine ⟨s0, hspace, ⟨0x400083, 0, hon⟩, (vmm_map_page_local_iff 0x1000 s0 0xFFFF800000000000
    hspace (by decide)).mpr ⟨Or.inl hzero, ?_⟩⟩
  rintro ⟨e, k, hleaf⟩
  cases hoff.symm.trans hleaf

/-- The call that `memory_init` makes for the kernel's first page, which the large page
maps already.  It writes a page-table entry into the kernel. -/
theorem vmm_map_page_overwrites_kernel :
    ∃ s0 s1,
      memoryInitPmm 0xFFFF800000000000 bootMemmap (Machine.zero.withMem bootMem) = .ok () s0 ∧
      BootSpace 0x1000 s0 ∧
      vmmMapPage 0x1000 0xFFFF800000400000 0x400000 pteWrite s0 = .ok true s1 ∧
      read64 s0.mem 0x400000 = 0xABCD ∧ read64 s1.mem 0x400000 = 0x400003 ∧
      ¬s0.HoldsBitmap 0x400 ∧ ¬HwTable s1 0x1000 0x400 ∧
      ¬MapsLocally 0x1000 0xFFFF800000400000 0x400000 s0 s1 := by
  obtain ⟨s0, hinit, htables, hspace, _, hdata, hbitmap⟩ := bootMemmap_space
  have hleaf : leafOf tableOf s0.mem 0x1000 (pagePath 0xFFFF800000400000) = some (0x400083, 1) :=
    htables.leafOf_eq 2 0
  have hrun := vmmMapPage_overwrites hspace hleaf (p := 0x400000) pteWrite (by decide) (by decide)
  rw [show tableOf 0x400083 + 8 * ptIndex 0xFFFF800000400000 = 0x400000 from by decide,
    show pageEntry 0x400000 pteWrite = 0x400003 from by decide] at hrun
  have hnew : read64 (write64 s0.mem 0x400000 0x400003) 0x400000 = 0x400003 :=
    read64_write64_of_lt (by decide)
  have htables1 : BootTables (write64 s0.mem 0x400000 0x400003) := by
    intro i
    have hi := i.isLt
    rw [read64_write64_of_disjoint (by omega), read64_write64_of_disjoint (by omega),
      read64_write64_of_disjoint (by omega)]
    exact htables i
  have hplain : ¬HwTable (s0.withMem (write64 s0.mem 0x400000 0x400003)) 0x1000 0x400 := by
    rintro ⟨q, _, hn⟩
    rcases htables1.reach_cases q _ hn with ⟨_, hf⟩ | ⟨_, hf⟩ | ⟨_, hf⟩ <;>
      exact absurd hf (by decide)
  refine ⟨s0, _, hinit, hspace, hrun, hdata, hnew, hbitmap, hplain, fun hlocal => ?_⟩
  -- some byte of the word has changed, and it is neither in the bitmap nor in a table
  have hsame : ∀ x, InFrame 0x400 x → write64 s0.mem 0x400000 0x400003 x = s0.mem x := by
    intro x hx
    by_contra hne
    rcases hlocal.writes.written x hne with hbit | ⟨f, hf, htable⟩
    · exact not_inBitmap_of_inFrame hbitmap hx hbit
    · exact hplain (hf.unique hx ▸ htable)
  have hread : read64 (write64 s0.mem 0x400000 0x400003) 0x400000 = read64 s0.mem 0x400000 := by
    refine read64_congr fun x hlo hhi => hsame x ?_
    unfold InFrame
    omega
  rw [hnew, hdata] at hread
  cases hread

end FarouKernel.Ports.Vmm
