import FarouKernel.Ports.PmmOrder
import FarouKernel.Ports.VmmTree
import FarouKernel.Verified.PageTables

/-!
# Mapping and unmapping one page

What whole calls of `vmm_map_page` and `vmm_unmap_page` do to the tree.  A call
of the first grows the path to its page one table at a time (`Grown`); a call of
the second cuts the path off where the first table that is not empty stands
(`Cut`).  The only way a call does not return is the panic of the frame
allocator.
-/

namespace FarouKernel.Ports.Vmm

open Verified ByteMem Radix Ports.Memory Ports.Pmm

/-! ## Paths of virtual addresses -/

theorem and_indexMask_lt (x : Nat) : x &&& 0x1FF < 512 :=
  Nat.lt_of_le_of_lt Nat.and_le_right (by decide)

/-- The indices of a virtual address, top level first. -/
def pagePath (virtAddr : Nat) : List (Fin 512) :=
  [⟨pml4Index virtAddr, and_indexMask_lt _⟩, ⟨pdptIndex virtAddr, and_indexMask_lt _⟩,
    ⟨pdIndex virtAddr, and_indexMask_lt _⟩, ⟨ptIndex virtAddr, and_indexMask_lt _⟩]

/-- The indices by name. -/
theorem pagePath_indices (v : Nat) :
    ∃ i1 i2 i3 i4 : Fin 512, pml4Index v = i1 ∧ pdptIndex v = i2 ∧ pdIndex v = i3 ∧
      ptIndex v = i4 ∧ pagePath v = [i1, i2, i3, i4] :=
  ⟨_, _, _, _, rfl, rfl, rfl, rfl, rfl⟩

theorem pagePath_length (v : Nat) : (pagePath v).length = 4 := rfl

/-- Two addresses with the same bits 12 to 47. -/
def SamePage (v w : Nat) : Prop := v / 2 ^ 12 % 2 ^ 36 = w / 2 ^ 12 % 2 ^ 36

instance (v w : Nat) : Decidable (SamePage v w) := inferInstanceAs (Decidable (_ = _))

variable {v a p : Nat}

theorem pagePath_eq_iff {w : Nat} : pagePath v = pagePath w ↔ SamePage v w :=
  PageTables.virtPath_eq_iff

/-- The walk of the four levels is the walk of the tree. -/
theorem translate_eq (s : Machine) (root v : Nat) :
    translate s root v = (entryAt s root (pagePath v)).map fun e =>
      (e &&& pteAddrMask, e &&& pteFlagsMask) := by
  rw [translate, entryAt, pagePath, walk]
  simp only [List.dropLast, List.getLast?, List.getLast, reach, Option.bind_some]
  simp only [pageEntries_apply]
  cases presentEntry (read64 s.mem (root + 8 * pml4Index v)) with
  | none => rfl
  | some a =>
    show (presentEntry _).bind _ = Option.map _ ((Option.bind ((presentEntry _).bind _) _))
    cases presentEntry (read64 s.mem (tableOf a + 8 * pdptIndex v)) with
    | none => rfl
    | some b =>
      show (presentEntry _).bind _ = Option.map _ (Option.bind ((presentEntry _).bind _) _)
      cases presentEntry (read64 s.mem (tableOf b + 8 * pdIndex v)) with
      | none => rfl
      | some c =>
        show (presentEntry _).bind _ = Option.map _ (presentEntry _)
        cases presentEntry (read64 s.mem (tableOf c + 8 * ptIndex v)) <;> rfl

/-! ## One level -/

section Level

variable {s : Machine} {root n : Nat} {others : Nat → Bool} {q : List (Fin 512)} {i : Fin 512}

theorem tableAt_of_entryAt (ha : entryAt s root q = some a) :
    tableAt s root q = some (tableOf a) := reach_of_walk ha

theorem and_present_of_some (hn : tableAt s root q = some n)
    (ha : entryAt s root (q ++ [i]) = some a) : ¬a &&& ptePresent = 0 := by
  have hread := read64_of_entryAt hn ha
  intro hzero
  rw [entryAt_concat hn, hread, presentEntry, if_pos hzero] at ha
  cases ha

/-- `vmm_get_next_level` on a word that is present. -/
theorem vmmGetNextLevel_word {entry : Nat} (allocate : Bool) (hhhdm : s.hhdmPhysOffset ≠ 0)
    (ha : presentEntry (read64 s.mem entry) = some a) :
    vmmGetNextLevel entry allocate s = .ok (some (tableOf a)) s := by
  rw [presentEntry] at ha
  split at ha
  · cases ha
  · rename_i hpresent
    rw [← Option.some.inj ha]
    simp [vmmGetNextLevel, load64, hpresent, physToVirt, hhhdm, tableOf]

/-- `vmm_get_next_level` on an entry that is present. -/
theorem vmmGetNextLevel_present (allocate : Bool) (hhhdm : s.hhdmPhysOffset ≠ 0)
    (hn : tableAt s root q = some n) (ha : entryAt s root (q ++ [i]) = some a) :
    vmmGetNextLevel (n + 8 * i) allocate s = .ok (some (tableOf a)) s := by
  rw [entryAt_concat hn] at ha
  exact vmmGetNextLevel_word allocate hhhdm ha

theorem and_present_of_none (hn : tableAt s root q = some n)
    (hnone : entryAt s root (q ++ [i]) = none) :
    read64 s.mem (n + 8 * i) &&& ptePresent = 0 := by
  rw [entryAt_concat hn] at hnone
  exact presentEntry_eq_none.mp hnone

/-- `vmm_get_next_level` on an absent entry, when it may not allocate. -/
theorem vmmGetNextLevel_absent (hn : tableAt s root q = some n)
    (hnone : entryAt s root (q ++ [i]) = none) :
    vmmGetNextLevel (n + 8 * i) false s = .ok none s := by
  simp [vmmGetNextLevel, load64, and_present_of_none hn hnone]

/-- `vmm_get_next_level` on an absent entry, whatever the frame `g` of the entry is for:
it stops the machine for want of a frame, or gets frame 0, which it takes for a failure
and leaves allocated, or makes the entry present and returns its table. -/
theorem vmmGetNextLevel_take {g : Nat} (h : PmmWf s)
    (habsent : read64 s.mem (g * 4096 + 8 * i) &&& ptePresent = 0) :
    (vmmGetNextLevel (g * 4096 + 8 * i) true s = .panic "PMM: Out of physical memory!" s ∧
        ∀ f, f ≤ s.highestFrame → s.frameUsed f = true) ∨
      ∃ f m, FrameTaken s m f ∧
        ((f = 0 ∧ vmmGetNextLevel (g * 4096 + 8 * i) true s = .ok none (s.taken m f) ∧
            ¬s.SparesZero 1) ∨
          (f ≠ 0 ∧ vmmGetNextLevel (g * 4096 + 8 * i) true s = .ok (some (f * 4096))
              ((s.taken m f).withMem (write64 m (g * 4096 + 8 * i) (tableEntry (f * 4096)))) ∧
            (¬s.HoldsBitmap g → ∀ k, s.SparesZero (k + 1) ↔ ((s.taken m f).withMem
              (write64 m (g * 4096 + 8 * i) (tableEntry (f * 4096)))).SparesZero k))) := by
  have hhhdm := h.hhdm
  rcases pmmAllocFrame_run h with
    ⟨hall, hpanic⟩ | ⟨f, m, ht, hnext, hrun⟩
  · left
    refine ⟨?_, hall⟩
    simp [vmmGetNextLevel, load64, habsent, hpanic]
  right
  refine ⟨f, m, ht, ?_⟩
  obtain ⟨hlost, hspared⟩ := NextFree.sparesZero h hnext ht
  by_cases hf : f = 0
  · left
    refine ⟨hf, ?_, hlost hf⟩
    simp [vmmGetNextLevel, load64, habsent, hrun, hf]
  · right
    refine ⟨hf, ?_, fun hbitmap k => ?_⟩
    · have hhhdm' : (s.taken m f).hhdmPhysOffset ≠ 0 := hhhdm
      simp [vmmGetNextLevel, load64, habsent, hrun, hf, store64, physToVirt, hhhdm',
        Machine.withMem, tableEntry]
      rfl
    · rw [hspared hf k]
      -- the entry lies outside the bitmap, which is that of the allocation
      have hi := i.isLt
      have hstored : ∀ x, (s.taken m f).InBitmap x →
          write64 m (g * 4096 + 8 * i) (tableEntry (f * 4096)) x = m x := by
        intro x hx
        apply write64_apply_of_outside
        by_contra hin
        refine not_inBitmap_of_inFrame hbitmap (x := x) ?_ hx
        unfold InFrame
        omega
      have hsame : ∀ k', k' ≤ (s.taken m f).highestFrame →
          ((s.taken m f).withMem (write64 m (g * 4096 + 8 * i)
            (tableEntry (f * 4096)))).frameUsed k' = (s.taken m f).frameUsed k' := by
        intro k' hk'
        exact frameUsed_congr (s := s.taken m f) hstored (Nat.lt_of_le_of_lt hk' h.covered)
      exact (sparesZero_congr hsame rfl rfl rfl k).symm

/-- The frame 0 was taken, and the address space is in order. -/
def ZeroTaken (root : Nat) (others : Nat → Bool) (s s' : Machine) : Prop :=
  AddressSpace root (fun g => others g || decide (g = 0)) s' ∧ SameLayout s s' ∧
    s'.frameUsed 0 = true

/-- `vmm_get_next_level` on an absent entry of an address space. -/
theorem vmmGetNextLevel_alloc (h : AddressSpace root others s) (hq : q.length + 1 < 4)
    (hn : tableAt s root q = some n) (hnone : entryAt s root (q ++ [i]) = none) :
    (vmmGetNextLevel (n + 8 * i) true s = .panic "PMM: Out of physical memory!" s ∧
        ∀ k, s.SparesZero k) ∨
      (∃ s', vmmGetNextLevel (n + 8 * i) true s = .ok none s' ∧ ¬s.SparesZero 1 ∧
        ZeroTaken root others s s') ∨
      ∃ a s', vmmGetNextLevel (n + 8 * i) true s = .ok (some (tableOf a)) s' ∧
        AddressSpace root others s' ∧ SameLayout s s' ∧
        EntrySet s s' root (q ++ [i]) (some a) ∧
        ∀ k, s.SparesZero (k + 1) ↔ s'.SparesZero k := by
  have hwidth := h.width
  have hcovered := h.wellFormed.covered
  have habsent := and_present_of_none hn hnone
  obtain ⟨g, rfl, _, _, hbitmap⟩ := h.frame_of_table (by omega) hn
  rcases vmmGetNextLevel_take h.wellFormed habsent with
    ⟨hpanic, hall⟩ | ⟨f, m, ht, hcase⟩
  · exact Or.inl ⟨hpanic, fun k => Or.inl (hall 0 (Nat.zero_le _))⟩
  right
  rcases hcase with ⟨rfl, hrun, hlost⟩ | ⟨_, hrun, hspared⟩
  · left
    obtain ⟨hspace, _⟩ := h.take ht
    refine ⟨s.taken m 0, hrun, hlost, hspace, ⟨rfl, rfl, rfl⟩, ?_⟩
    rw [ht.bits 0 (by omega)]
    simp
  · right
    have hle := ht.le
    obtain ⟨hspace, hset⟩ := h.link (i := i) hq hn hnone ht
    refine ⟨tableEntry (f * 4096), _, ?_, hspace, ⟨rfl, rfl, rfl⟩, hset, hspared hbitmap⟩
    rw [tableOf_tableEntry (by omega)]
    exact hrun

end Level

/-! ## `vmm_map_page` -/

section Map

variable {s s' s'' : Machine} {root : Nat} {others : Nat → Bool} {q : List (Fin 512)}
  {i : Fin 512} {e : Nat}

/-- From `s` to `s'` the tree has grown along the path `q`, and only there. -/
structure Grown (s s' : Machine) (root : Nat) (q : List (Fin 512)) : Prop where
  present : ∀ r, r ≠ [] → r <+: q → entryAt s' root r ≠ none
  other : ∀ r, r.length ≤ 4 → ¬r <+: q → entryAt s' root r = entryAt s root r

theorem Grown.refl (s : Machine) (root : Nat) : Grown s s root [] where
  present _ hr hpre := absurd (List.prefix_nil.mp hpre) hr
  other _ _ _ := rfl

theorem Grown.step (h : Grown s s' root q) (hq : q.length < 4)
    (hset : EntrySet s' s'' root (q ++ [i]) (some e)) : Grown s s'' root (q ++ [i]) where
  present r hr hpre := by
    have hlen := hpre.length_le
    rw [List.length_append, List.length_singleton] at hlen
    rw [hset r (by omega)]
    by_cases hsame : r = q ++ [i]
    · rw [if_pos hsame]
      exact Option.some_ne_none e
    · rw [if_neg hsame]
      exact h.present r hr ((List.prefix_concat_iff.mp hpre).resolve_left hsame)
  other r hr hnot := by
    have hne : r ≠ q ++ [i] := by
      rintro rfl
      exact hnot List.prefix_rfl
    rw [hset r hr, if_neg hne]
    exact h.other r hr fun hpre => hnot (hpre.trans (List.prefix_append q [i]))

theorem entrySet_self (ha : entryAt s root q = some a) : EntrySet s s root q (some a) := by
  intro r _
  by_cases hr : r = q
  · rw [if_pos hr, hr, ha]
  · rw [if_neg hr]

/-- The walk of `vmm_map_page` from one table on: `vmm_get_next_level` for each
index. -/
def vmmDescend : List (Fin 512) → Nat → Exec Machine (Option Nat)
  | [], table => pure (some table)
  | i :: rest, table => do
      match ← vmmGetNextLevel (table + 8 * i) true with
      | none => pure none
      | some next => vmmDescend rest next

/-- The number of tables missing on the way from the path `q` along `rest`. -/
def missingTables (s : Machine) (root : Nat) : List (Fin 512) → List (Fin 512) → Nat
  | _, [] => 0
  | q, i :: rest =>
    (if entryAt s root (q ++ [i]) = none then 1 else 0) + missingTables s root (q ++ [i]) rest

theorem missingTables_congr (rest : List (Fin 512))
    (h : ∀ r, r ≠ [] → r.length ≤ rest.length →
      entryAt s' root (q ++ r) = entryAt s root (q ++ r)) :
    missingTables s' root q rest = missingTables s root q rest := by
  induction rest generalizing q with
  | nil => rfl
  | cons i rest ih =>
    rw [missingTables, missingTables, h [i] (by simp) (by simp), ih]
    intro r hr hlen
    rw [List.append_assoc]
    exact h ([i] ++ r) (by simp) (by simpa [Nat.add_comm] using hlen)

/-- How a call ends that takes frames for tables: it stops the machine for want of a
frame, or it has got frame 0 and returns `failed`, with `L`, or it returns a result with
`G`.  Which of the last two happens depends on whether the allocations spare frame 0. -/
def AllocEnds {α : Type} (o : Outcome Machine α) (failed : α) (spared : Prop)
    (L : Machine → Prop) (G : α → Machine → Prop) : Prop :=
  (∃ s', o = .panic "PMM: Out of physical memory!" s' ∧ spared) ∨
    (∃ s', o = .ok failed s' ∧ ¬spared ∧ L s') ∨ ∃ a s', o = .ok a s' ∧ spared ∧ G a s'

theorem AllocEnds.andThen {α β : Type} {o : Outcome Machine α} {failed : α} {failed' : β}
    {spared : Prop} {L : Machine → Prop} {G : α → Machine → Prop} {G' : β → Machine → Prop}
    {k : α → Exec Machine β} (h : AllocEnds o failed spared L G)
    (hfailed : ∀ s', k failed s' = .ok failed' s')
    (hgood : ∀ a s', G a s' → ∃ b s'', k a s' = .ok b s'' ∧ G' b s'') :
    AllocEnds (o.andThen k) failed' spared L G' := by
  rcases h with ⟨s', hrun, hspared⟩ | ⟨s', hrun, hlost⟩ | ⟨a, s', hrun, hspared, hg⟩
  · left
    exact ⟨s', by rw [hrun, Outcome.andThen_panic], hspared⟩
  · right; left
    exact ⟨s', by rw [hrun, Outcome.andThen_ok, hfailed], hlost⟩
  · right; right
    obtain ⟨b, s'', hk, hb⟩ := hgood a s' hg
    exact ⟨b, s'', by rw [hrun, Outcome.andThen_ok, hk], hspared, hb⟩

/-- **The walk of `vmm_map_page`** ends at the table of the path, or fails at a table for
which it got frame 0.  `I s q n` is what holds when the walk has come to the table `n` of
the path `q`, and `L s` what holds when it has failed; it is enough to look at one level. -/
theorem vmmDescend_induct {I : Machine → List (Fin 512) → Nat → Prop} {L : Machine → Prop}
    (path : List (Fin 512))
    (hpresent : ∀ s q (i : Fin 512) n a, I s q n → q ++ [i] <+: path →
      entryAt s root (q ++ [i]) = some a →
      vmmGetNextLevel (n + 8 * i) true s = .ok (some (tableOf a)) s ∧ I s (q ++ [i]) (tableOf a))
    (habsent : ∀ s q (i : Fin 512) n, I s q n → q ++ [i] <+: path →
      entryAt s root (q ++ [i]) = none →
      (vmmGetNextLevel (n + 8 * i) true s = .panic "PMM: Out of physical memory!" s ∧
          ∀ k, s.SparesZero k) ∨
        (∃ s', vmmGetNextLevel (n + 8 * i) true s = .ok none s' ∧ ¬s.SparesZero 1 ∧ L s') ∨
        ∃ n' s', vmmGetNextLevel (n + 8 * i) true s = .ok (some n') s' ∧ I s' (q ++ [i]) n' ∧
          (∀ k, s.SparesZero (k + 1) ↔ s'.SparesZero k) ∧
          ∀ r, r ≠ [] → (q ++ [i] ++ r).length ≤ path.length →
            entryAt s' root (q ++ [i] ++ r) = entryAt s root (q ++ [i] ++ r))
    (rest : List (Fin 512)) {n : Nat} (h : I s q n) (hpath : q ++ rest <+: path) :
    AllocEnds (vmmDescend rest n s) none (s.SparesZero (missingTables s root q rest)) L
      fun found s' => ∃ n', found = some n' ∧ I s' (q ++ rest) n' := by
  induction rest generalizing s q n with
  | nil =>
    right; right
    rw [List.append_nil]
    exact ⟨some n, s, by simp [vmmDescend], Or.inr (Nat.zero_le _), n, rfl, h⟩
  | cons i rest ih =>
    rw [List.append_cons] at hpath ⊢
    have hhere : q ++ [i] <+: path := (List.prefix_append _ rest).trans hpath
    cases ha : entryAt s root (q ++ [i]) with
    | some a =>
      -- the table exists: the walk goes on in the same state
      obtain ⟨hrun, hnext⟩ := hpresent s q i n a h hhere ha
      have hmissing : missingTables s root q (i :: rest) =
          missingTables s root (q ++ [i]) rest := by
        simp [missingTables, ha]
      have hstep : vmmDescend (i :: rest) n s = vmmDescend rest (tableOf a) s := by
        simp [vmmDescend, hrun]
      rw [hmissing, hstep]
      exact ih hnext hpath
    | none =>
      have hmissing : missingTables s root q (i :: rest) =
          missingTables s root (q ++ [i]) rest + 1 := by
        simp [missingTables, ha, Nat.add_comm]
      rw [hmissing]
      rcases habsent s q i n h hhere ha with
        ⟨hrun, hspared⟩ | ⟨s1, hrun, hzero, hlost⟩ | ⟨n1, s1, hrun, hnext, hspared, hbelow⟩
      · left
        exact ⟨s, by simp [vmmDescend, hrun], hspared _⟩
      · right; left
        exact ⟨s1, by simp [vmmDescend, hrun], fun hall => hzero (hall.mono (by omega)), hlost⟩
      · have hstep : vmmDescend (i :: rest) n s = vmmDescend rest n1 s1 := by
          simp [vmmDescend, hrun]
        have hsame : missingTables s1 root (q ++ [i]) rest =
            missingTables s root (q ++ [i]) rest := by
          refine missingTables_congr rest fun r hr hrlen => hbelow r hr ?_
          have hlen := hpath.length_le
          rw [List.length_append] at hlen ⊢
          omega
        rw [hstep, hspared, ← hsame]
        exact ih hnext hpath

/-- In an address space, the walk grows the tree along the path. -/
theorem vmmDescend_run {s0 : Machine} (rest : List (Fin 512)) (h : AddressSpace root others s0)
    (hlen : rest.length < 4) :
    AllocEnds (vmmDescend rest root s0) none (s0.SparesZero (missingTables s0 root [] rest))
      (ZeroTaken root others s0) fun found s' => ∃ n', found = some n' ∧
        AddressSpace root others s' ∧ SameLayout s0 s' ∧ Grown s0 s' root rest ∧
        tableAt s' root rest = some n' := by
  refine vmmDescend_induct (I := fun s q n => AddressSpace root others s ∧ SameLayout s0 s ∧
    Grown s0 s root q ∧ tableAt s root q = some n) rest ?_ ?_ rest
    ⟨h, SameLayout.refl s0, Grown.refl s0 root, rfl⟩ List.prefix_rfl
  · rintro s q i n a ⟨hspace, hlayout, hgrown, hn⟩ hpre ha
    have hqlen := hpre.length_le
    rw [List.length_append, List.length_singleton] at hqlen
    exact ⟨vmmGetNextLevel_present true hspace.wellFormed.hhdm hn ha, hspace, hlayout,
      hgrown.step (by omega) (entrySet_self ha), tableAt_of_entryAt ha⟩
  · rintro s q i n ⟨hspace, hlayout, hgrown, hn⟩ hpre hnone
    have hqlen := hpre.length_le
    rw [List.length_append, List.length_singleton] at hqlen
    rcases vmmGetNextLevel_alloc hspace (by omega) hn hnone with
      hpanic | ⟨s1, hrun, hzero, hspace1, hlayout1, hused⟩ |
        ⟨a, s1, hrun, hspace1, hlayout1, hset, hspared⟩
    · exact Or.inl hpanic
    · exact Or.inr (Or.inl ⟨s1, hrun, hzero, hspace1, hlayout.trans hlayout1, hused⟩)
    · right; right
      have ha : entryAt s1 root (q ++ [i]) = some a := by rw [hset _ (by simp; omega), if_pos rfl]
      refine ⟨tableOf a, s1, hrun, ⟨hspace1, hlayout.trans hlayout1,
        hgrown.step (by omega) hset, tableAt_of_entryAt ha⟩, hspared, ?_⟩
      -- below the new table nothing is there, before and after
      intro r hr hrlen
      rw [hset _ (by omega), if_neg (by simpa using hr)]

theorem vmmDescend_cons_andThen {β : Type} (rest : List (Fin 512)) (n : Nat)
    (k : Option Nat → Exec Machine β) :
    (vmmDescend (i :: rest) n s).andThen k =
      (vmmGetNextLevel (n + 8 * i) true s).andThen fun next =>
        match next with
        | none => k none
        | some table => vmmDescend rest table >>= k := by
  simp only [vmmDescend, Exec.bind_apply]
  cases vmmGetNextLevel (n + 8 * i) true s with
  | ok next s' => cases next <;> rfl
  | panic msg s' => rfl
  | exhausted s' => rfl

/-- What `vmm_map_page` does with the last table, if the walk found one. -/
def vmmFinish (v p flags : Nat) : Option Nat → Exec Machine Bool
  | none => pure false
  | some pt => vmmSetPage pt (ptIndex v) p flags

/-- `vmm_map_page` is the walk to the last table, followed by the store. -/
theorem vmmMapPage_eq {flags : Nat} (hv : v % 4096 = 0) (hp : p % 4096 = 0)
    (hhhdm : s.hhdmPhysOffset ≠ 0) :
    vmmMapPage root v p flags s =
      (vmmDescend ((pagePath v).take 3) root s).andThen (vmmFinish v p flags) := by
  have hv' : v % pageSize = 0 := hv
  have hp' : p % pageSize = 0 := hp
  obtain ⟨i1, i2, i3, i4, h1, h2, h3, _, hpath⟩ := pagePath_indices v
  simp only [vmmMapPage, physToVirt, Exec.bind_apply, kassert_of _ _ _ hp', kassert_of _ _ _ hv',
    Exec.gets_apply, kassert_of _ _ _ hhhdm, Exec.pure_apply, Outcome.andThen_ok, h1, h2, h3]
  rw [hpath, List.take, List.take, List.take, List.take, vmmDescend_cons_andThen]
  congr 1
  funext pdpt s1
  cases pdpt with
  | none => rfl
  | some pdpt =>
    simp only [Exec.bind_apply]
    rw [vmmDescend_cons_andThen]
    congr 1
    funext pd s2
    cases pd with
    | none => rfl
    | some pd =>
      simp only [Exec.bind_apply]
      rw [vmmDescend_cons_andThen]
      rfl

/-- The number of tables missing on the path of a page. -/
def missingFor (s : Machine) (root v : Nat) : Nat := missingTables s root [] ((pagePath v).take 3)

/-- **`vmm_map_page`** returns `true`, with the tree grown along the path of the page, which
has the new entry; or it returns `false`, with frame 0 allocated. -/
theorem vmmMapPage_cases (h : AddressSpace root others s) (flags : Nat) (hv : v % 4096 = 0)
    (hp : p % 4096 = 0) :
    AllocEnds (vmmMapPage root v p flags s) false (s.SparesZero (missingFor s root v))
      (ZeroTaken root others s) fun mapped s' => mapped = true ∧ AddressSpace root others s' ∧
        SameLayout s s' ∧ Grown s s' root (pagePath v) ∧
        entryAt s' root (pagePath v) = some (pageEntry p flags) := by
  rw [vmmMapPage_eq hv hp h.wellFormed.hhdm]
  obtain ⟨i1, i2, i3, i4, _, _, _, h4, hpath⟩ := pagePath_indices v
  have htake : (pagePath v).take 3 = [i1, i2, i3] := by rw [hpath]; rfl
  rw [missingFor, htake, hpath]
  refine (vmmDescend_run [i1, i2, i3] h (by simp)).andThen (fun _ => rfl) ?_
  rintro _ s' ⟨pt, rfl, hspace, hlayout, hgrown, hpt⟩
  obtain ⟨hspace', hset⟩ := hspace.setPage (i := i4) rfl hpt (pageEntry_lt p flags)
  rw [presentEntry_pageEntry] at hset
  refine ⟨true, _, ?_, rfl, hspace', hlayout.trans ⟨rfl, rfl, rfl⟩, hgrown.step (by simp) hset, ?_⟩
  · simp [vmmFinish, h4, vmmSetPage, store64, Machine.withMem, pageEntry]
  · rw [hset _ (by simp)]
    exact if_pos rfl

/-- While frame 0 is in use, `vmm_map_page` does not fail. -/
theorem vmmMapPage_run (h : AddressSpace root others s) (hzero : others 0 = true) (flags : Nat)
    (hv : v % 4096 = 0) (hp : p % 4096 = 0) :
    (∃ s', vmmMapPage root v p flags s = .panic "PMM: Out of physical memory!" s') ∨
      ∃ s', vmmMapPage root v p flags s = .ok true s' ∧ AddressSpace root others s' ∧
        SameLayout s s' ∧ Grown s s' root (pagePath v) ∧
        entryAt s' root (pagePath v) = some (pageEntry p flags) := by
  have hused : s.frameUsed 0 = true := (h.used 0 (Nat.zero_le _)).mpr (Or.inl hzero)
  rcases vmmMapPage_cases h flags hv hp with
    ⟨s', hrun, _⟩ | ⟨s', _, hlost, _⟩ | ⟨_, s', hrun, _, rfl, hrest⟩
  · exact Or.inl ⟨s', hrun⟩
  · exact absurd (Or.inl hused) hlost
  · exact Or.inr ⟨s', hrun, hrest⟩

end Map

/-! ## `vmm_unmap_page` -/

section Unmap

variable {s s' s'' : Machine} {root n k : Nat} {others : Nat → Bool}
  {path q r : List (Fin 512)} {i : Fin 512}

/-- From `s` to `s'` the entries along the path are gone from length `k` on, and
nothing else has changed. -/
structure Cut (s s' : Machine) (root : Nat) (path : List (Fin 512)) (k : Nat) : Prop where
  gone : ∀ r, r <+: path → k ≤ r.length → entryAt s' root r = none
  other : ∀ r, r.length ≤ 4 → ¬(r <+: path ∧ k ≤ r.length) →
    entryAt s' root r = entryAt s root r

/-- The table where the path was cut is not empty. -/
def CutAtBranch (s : Machine) (root : Nat) (path : List (Fin 512)) (k : Nat) : Prop :=
  ∀ r, r ≠ [] → r <+: path → r.length + 1 = k → ∃ j, entryAt s root (r ++ [j]) ≠ none

theorem Cut.start (hpath : path.length = 4) (hset : EntrySet s s' root path none) :
    Cut s s' root path 4 where
  gone r hpre hlen := by
    have hsame : r = path := hpre.eq_of_length_le (by omega)
    rw [hsame, hset path (by omega), if_pos rfl]
  other r hr hnot := by
    have hne : r ≠ path := by
      rintro rfl
      exact hnot ⟨List.prefix_rfl, by omega⟩
    rw [hset r hr, if_neg hne]

theorem Cut.step (h : Cut s s' root path (k + 1)) (hpath : path.length = 4) (hq : q <+: path)
    (hk : q.length = k) (hset : EntrySet s' s'' root q none) : Cut s s'' root path k where
  gone r hpre hlen := by
    have hlen' := hpre.length_le
    rw [hset r (by omega)]
    by_cases hsame : r = q
    · rw [if_pos hsame]
    · rw [if_neg hsame]
      refine h.gone r hpre ?_
      by_contra hlt
      exact hsame ((List.prefix_of_prefix_length_le hpre hq (by omega)).eq_of_length_le (by omega))
  other r hr hnot := by
    have hne : r ≠ q := by
      rintro rfl
      exact hnot ⟨hq, by omega⟩
    rw [hset r hr, if_neg hne]
    exact h.other r hr fun hcut => hnot ⟨hcut.1, by omega⟩

/-- A table that `vmm_is_table_empty` did not find empty. -/
theorem cutAtBranch_of_entries (hn : tableAt s root q = some n) (hq : q <+: path)
    (hk : q.length + 1 = k) (hentries : ¬∀ j, pageEntries s.mem n j = none) :
    CutAtBranch s root path k := by
  intro r _ hr hlen
  have hsame : r = q :=
    (List.prefix_of_prefix_length_le hr hq (by omega)).eq_of_length_le (by omega)
  obtain ⟨j, hj⟩ := not_forall.mp hentries
  refine ⟨j, ?_⟩
  rw [hsame, entryAt_concat hn]
  exact hj

/-- One block of `vmm_unmap_page`: an empty table on the path is removed. -/
theorem Cut.level (hcut : Cut s s' root path (q.length + 2)) (h : AddressSpace root others s')
    (hpath : path.length = 4) (hq : q ++ [i] <+: path) (hq' : q.length + 1 < 4)
    (hn : tableAt s' root q = some n) (ha : entryAt s' root (q ++ [i]) = some a)
    (hempty : ∀ j, pageEntries s'.mem (tableOf a) j = none) :
    ∃ s'', vmmFreeTable (n + 8 * i) s' = .ok () s'' ∧ AddressSpace root others s'' ∧
      SameLayout s' s'' ∧ Cut s s'' root path (q.length + 1) ∧
      ∀ p, p.length < q.length + 1 → entryAt s'' root p = entryAt s' root p := by
  obtain ⟨s'', hrun, hspace, hlayout, hset⟩ := vmmFreeTable_run h hq' hn ha hempty
  refine ⟨s'', hrun, hspace, hlayout, hcut.step hpath hq (by simp) hset, ?_⟩
  intro p hp
  rw [hset p (by omega), if_neg (concat_ne_of_length (by omega))]

/-- The end of `vmm_unmap_page`: the path is cut at the first table that is not
empty. -/
theorem vmmFreeEmptyTables_run {i1 i2 i3 i4 : Fin 512} {a1 a2 a3 : Nat}
    (hcut : Cut s s' root [i1, i2, i3, i4] 4) (h : AddressSpace root others s')
    (h1 : entryAt s' root [i1] = some a1) (h2 : entryAt s' root [i1, i2] = some a2)
    (h3 : entryAt s' root [i1, i2, i3] = some a3) :
    ∃ s'' k, vmmFreeEmptyTables (root + 8 * i1) (tableOf a1) (tableOf a1 + 8 * i2) (tableOf a2)
        (tableOf a2 + 8 * i3) (tableOf a3) s' = .ok () s'' ∧
      AddressSpace root others s'' ∧ SameLayout s' s'' ∧ Cut s s'' root [i1, i2, i3, i4] k ∧
      1 ≤ k ∧ k ≤ 4 ∧ CutAtBranch s'' root [i1, i2, i3, i4] k := by
  by_cases hpt : ∀ j, pageEntries s'.mem (tableOf a3) j = none
  · obtain ⟨s2, hrun2, hspace2, hlayout2, hcut2, hsame2⟩ :=
      hcut.level (q := [i1, i2]) (i := i3) h rfl (by simp) (by simp) (tableAt_of_entryAt h2) h3 hpt
    rw [← hsame2 [i1] (by simp)] at h1
    rw [← hsame2 [i1, i2] (by simp)] at h2
    by_cases hpd : ∀ j, pageEntries s2.mem (tableOf a2) j = none
    · obtain ⟨s3, hrun3, hspace3, hlayout3, hcut3, hsame3⟩ :=
        hcut2.level (q := [i1]) (i := i2) hspace2 rfl (by simp) (by simp)
          (tableAt_of_entryAt h1) h2 hpd
      rw [← hsame3 [i1] (by simp)] at h1
      by_cases hpdpt : ∀ j, pageEntries s3.mem (tableOf a1) j = none
      · obtain ⟨s4, hrun4, hspace4, hlayout4, hcut4, _⟩ :=
          hcut3.level (q := []) (i := i1) hspace3 rfl (by simp) (by simp) rfl h1 hpdpt
        refine ⟨s4, 1, ?_, hspace4, (hlayout2.trans hlayout3).trans hlayout4, hcut4,
          by decide, by decide, ?_⟩
        · simp [vmmFreeEmptyTables, vmmIsTableEmpty_run, hpt, hrun2, hpd, hrun3, hpdpt, hrun4]
        · intro r hr _ hlen
          exact absurd (List.eq_nil_of_length_eq_zero (by omega)) hr
      · refine ⟨s3, 2, ?_, hspace3, hlayout2.trans hlayout3, hcut3, by decide, by decide,
          cutAtBranch_of_entries (q := [i1]) (tableAt_of_entryAt h1) (by simp) rfl hpdpt⟩
        simp only [vmmFreeEmptyTables, Exec.bind_apply, vmmIsTableEmpty_run, Outcome.andThen_ok,
          decide_eq_true hpt, decide_eq_true hpd, decide_eq_false hpdpt, if_true, hrun2, hrun3]
        rfl
    · refine ⟨s2, 3, ?_, hspace2, hlayout2, hcut2, by decide, by decide,
        cutAtBranch_of_entries (q := [i1, i2]) (tableAt_of_entryAt h2) (by simp) rfl hpd⟩
      simp only [vmmFreeEmptyTables, Exec.bind_apply, vmmIsTableEmpty_run, Outcome.andThen_ok,
        decide_eq_true hpt, decide_eq_false hpd, if_true, hrun2]
      rfl
  · refine ⟨s', 4, ?_, h, SameLayout.refl s', hcut, by decide, by decide,
      cutAtBranch_of_entries (q := [i1, i2, i3]) (tableAt_of_entryAt h3) (by simp) rfl hpt⟩
    simp only [vmmFreeEmptyTables, Exec.bind_apply, vmmIsTableEmpty_run, Outcome.andThen_ok,
      decide_eq_false hpt]
    rfl

/-- `vmm_unmap_page` of a page that is not mapped. -/
theorem vmmUnmapPage_absent (h : AddressSpace root others s) (hv : v % 4096 = 0)
    (hnone : entryAt s root (pagePath v) = none) : vmmUnmapPage root v s = .ok 0 s := by
  have hv' : v % pageSize = 0 := hv
  have hhhdm := h.wellFormed.hhdm
  obtain ⟨i1, i2, i3, i4, hi1, hi2, hi3, hi4, hpath⟩ := pagePath_indices v
  rw [hpath] at hnone
  cases h1 : entryAt s root ([] ++ [i1]) with
  | none =>
    have hrun1 := vmmGetNextLevel_absent rfl h1
    simp [vmmUnmapPage, hv', physToVirt, hhhdm, hi1, hrun1]
  | some a1 =>
    have hrun1 := vmmGetNextLevel_present false hhhdm rfl h1
    have hn1 := tableAt_of_entryAt h1
    cases h2 : entryAt s root ([i1] ++ [i2]) with
    | none =>
      have hrun2 := vmmGetNextLevel_absent hn1 h2
      simp [vmmUnmapPage, hv', physToVirt, hhhdm, hi1, hi2, hrun1, hrun2]
    | some a2 =>
      have hrun2 := vmmGetNextLevel_present false hhhdm hn1 h2
      have hn2 := tableAt_of_entryAt h2
      cases h3 : entryAt s root ([i1, i2] ++ [i3]) with
      | none =>
        have hrun3 := vmmGetNextLevel_absent hn2 h3
        simp [vmmUnmapPage, hv', physToVirt, hhhdm, hi1, hi2, hi3, hrun1, hrun2, hrun3]
      | some a3 =>
        have hrun3 := vmmGetNextLevel_present false hhhdm hn2 h3
        have hn3 := tableAt_of_entryAt h3
        have habsent := and_present_of_none hn3 hnone
        simp [vmmUnmapPage, hv', physToVirt, hhhdm, hi1, hi2, hi3, hi4, hrun1, hrun2, hrun3,
          vmmClearPage, load64, habsent]

/-- What a path goes through is present. -/
theorem exists_of_prefix {e : Nat} (hpath : entryAt s root path = some e) (hq : q ≠ [])
    (hpre : q <+: path) : ∃ a, entryAt s root q = some a := by
  apply Option.ne_none_iff_exists'.mp
  apply walk_of_prefix hq hpre
  rw [show walk tableOf (pageEntries s.mem) root path = some e from hpath]
  exact Option.some_ne_none e

/-- **`vmm_unmap_page`** of a mapped page returns its frame and cuts the path
off at the first table that is still needed. -/
theorem vmmUnmapPage_run (h : AddressSpace root others s) {e : Nat} (hv : v % 4096 = 0)
    (he : entryAt s root (pagePath v) = some e) :
    ∃ s' k, vmmUnmapPage root v s = .ok (e &&& pteAddrMask) s' ∧ AddressSpace root others s' ∧
      SameLayout s s' ∧ Cut s s' root (pagePath v) k ∧ 1 ≤ k ∧ k ≤ 4 ∧
      CutAtBranch s' root (pagePath v) k := by
  have hv' : v % pageSize = 0 := hv
  have hhhdm := h.wellFormed.hhdm
  obtain ⟨i1, i2, i3, i4, hi1, hi2, hi3, hi4, hpath⟩ := pagePath_indices v
  rw [hpath] at he ⊢
  obtain ⟨a1, h1⟩ := exists_of_prefix (q := [] ++ [i1]) he (by simp) (by simp)
  obtain ⟨a2, h2⟩ := exists_of_prefix (q := [i1] ++ [i2]) he (by simp) (by simp)
  obtain ⟨a3, h3⟩ := exists_of_prefix (q := [i1, i2] ++ [i3]) he (by simp) (by simp)
  have hrun1 := vmmGetNextLevel_present false hhhdm rfl h1
  have hrun2 := vmmGetNextLevel_present false hhhdm (tableAt_of_entryAt h1) h2
  have hrun3 := vmmGetNextLevel_present false hhhdm (tableAt_of_entryAt h2) h3
  have hn3 : tableAt s root [i1, i2, i3] = some (tableOf a3) := tableAt_of_entryAt h3
  have hread : read64 s.mem (tableOf a3 + 8 * i4) = e := read64_of_entryAt hn3 he
  have hpresent : ¬e &&& ptePresent = 0 := and_present_of_some hn3 he
  -- the entry of the page goes first, then the tables
  obtain ⟨hspace, hset⟩ := h.setPage (i := i4) (v := 0) rfl hn3 (by decide)
  have hkept : ∀ q a, q.length < 4 → entryAt s root q = some a →
      entryAt (s.withMem (write64 s.mem (tableOf a3 + 8 * i4) 0)) root q = some a := by
    intro q a hq ha
    rw [hset q (by omega), if_neg (concat_ne_of_length (by simp; omega)), ha]
  have hstart : Cut s (s.withMem (write64 s.mem (tableOf a3 + 8 * i4) 0)) root
      [i1, i2, i3, i4] 4 := Cut.start rfl hset
  obtain ⟨s', k, hrun, hspace', hlayout, hcut, hlo, hhi, hbranch⟩ :=
    vmmFreeEmptyTables_run hstart hspace
      (hkept [i1] a1 (by simp) h1) (hkept [i1, i2] a2 (by simp) h2)
      (hkept [i1, i2, i3] a3 (by simp) h3)
  have hlayout0 : SameLayout s (s.withMem (write64 s.mem (tableOf a3 + 8 * i4) 0)) :=
    ⟨rfl, rfl, rfl⟩
  refine ⟨s', k, ?_, hspace', hlayout0.trans hlayout, hcut, hlo, hhi, hbranch⟩
  unfold Machine.withMem at hrun
  simp [vmmUnmapPage, hv', physToVirt, hhhdm, hi1, hi2, hi3, hi4, hrun1, hrun2, hrun3,
    vmmClearPage, load64, hread, hpresent, store64, hrun]

end Unmap

/-! ## The calls as updates of the translation -/

section Translate

variable {s s' : Machine} {root : Nat} {others : Nat → Bool}

theorem translate_grown {flags : Nat} (hgrown : Grown s s' root (pagePath v))
    (hentry : entryAt s' root (pagePath v) = some (pageEntry p flags)) (w : Nat) :
    translate s' root w =
      if SamePage v w then some (p &&& pteAddrMask, flags &&& pteFlagsMask ||| ptePresent)
      else translate s root w := by
  rw [translate_eq, translate_eq]
  by_cases hsame : SamePage v w
  · rw [if_pos hsame, ← pagePath_eq_iff.mpr hsame, hentry, Option.map_some,
      pageEntry_and_addrMask, pageEntry_and_flagsMask]
  · have hnot : ¬pagePath w <+: pagePath v := by
      intro hpre
      exact hsame (pagePath_eq_iff.mp (hpre.eq_of_length rfl).symm)
    rw [if_neg hsame, hgrown.other (pagePath w) (Nat.le_refl 4) hnot]

theorem translate_cut {k : Nat} (hcut : Cut s s' root (pagePath v) k) (hk : k ≤ 4) (w : Nat) :
    translate s' root w = if SamePage v w then none else translate s root w := by
  rw [translate_eq, translate_eq]
  by_cases hsame : SamePage v w
  · rw [if_pos hsame, ← pagePath_eq_iff.mpr hsame, hcut.gone _ List.prefix_rfl hk]
    rfl
  · have hnot : ¬(pagePath w <+: pagePath v ∧ k ≤ (pagePath w).length) := by
      intro hpre
      exact hsame (pagePath_eq_iff.mp (hpre.1.eq_of_length rfl).symm)
    rw [if_neg hsame, hcut.other (pagePath w) (Nat.le_refl 4) hnot]

/-- **`vmm_map_page`**: the translation changes at one page, and no table is
left empty that was not. -/
theorem AddressSpace.map (h : AddressSpace root others s) (hzero : others 0 = true) (flags : Nat)
    (hv : v % 4096 = 0) (hp : p % 4096 = 0) :
    (∃ s', vmmMapPage root v p flags s = .panic "PMM: Out of physical memory!" s') ∨
      ∃ s', vmmMapPage root v p flags s = .ok true s' ∧ AddressSpace root others s' ∧
        SameLayout s s' ∧ (Pruned 4 (entryAt s root) → Pruned 4 (entryAt s' root)) ∧
        ∀ w, translate s' root w =
          if SamePage v w then some (p &&& pteAddrMask, flags &&& pteFlagsMask ||| ptePresent)
          else translate s root w := by
  rcases vmmMapPage_run h hzero flags hv hp with
    hpanic | ⟨s', hrun, hspace, hlayout, hgrown, hentry⟩
  · exact Or.inl hpanic
  · exact Or.inr ⟨s', hrun, hspace, hlayout,
      fun hpruned => hpruned.insert (pagePath_length v) hgrown.present hgrown.other,
      translate_grown hgrown hentry⟩

/-- **`vmm_unmap_page`**: it returns the frame of the page, the translation
changes at one page, and no table is left empty that was not. -/
theorem AddressSpace.unmap (h : AddressSpace root others s) (hv : v % 4096 = 0) :
    ∃ s', vmmUnmapPage root v s = .ok (((translate s root v).map Prod.fst).getD 0) s' ∧
      AddressSpace root others s' ∧ SameLayout s s' ∧
      (Pruned 4 (entryAt s root) → Pruned 4 (entryAt s' root)) ∧
      ∀ w, translate s' root w = if SamePage v w then none else translate s root w := by
  rw [translate_eq]
  cases he : entryAt s root (pagePath v) with
  | none =>
    refine ⟨s, vmmUnmapPage_absent h hv he, h, SameLayout.refl s, fun hpruned => hpruned, ?_⟩
    intro w
    by_cases hsame : SamePage v w
    · rw [if_pos hsame, translate_eq, ← pagePath_eq_iff.mpr hsame, he]
      rfl
    · rw [if_neg hsame]
  | some e =>
    obtain ⟨s', k, hrun, hspace, hlayout, hcut, _, hk, hbranch⟩ := vmmUnmapPage_run h hv he
    exact ⟨s', hrun, hspace, hlayout,
      fun hpruned => hpruned.remove hcut.gone hcut.other hbranch rfl, translate_cut hcut hk⟩

end Translate

end FarouKernel.Ports.Vmm
