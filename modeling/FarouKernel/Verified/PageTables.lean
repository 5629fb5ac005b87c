import FarouKernel.Verified.ByteMem
import FarouKernel.Verified.RadixTable

/-!
# Page tables in byte memory

Tables of 512 words at page boundaries, whose present entries (bit 0 set) lead to
further tables: a radix tree in the sense of `Verified.Radix`, laid out in byte
memory.  What an entry leads to is a parameter, since the width of the address
field is.

`Tree` is the invariant: tables lie at page boundaries and no table is reached
twice.  The ways page-table code edits memory become point updates of the walk:
writing the entry of a page (`Tree.setLeaf`) and hanging in a page of zeros as a
new table (`Tree.link`).  Memory outside the tables may change at the same time.
-/

namespace FarouKernel.Verified.PageTables

open Verified.ByteMem Verified.Radix

/-- A word as a table entry. -/
def present (e : Nat) : Option Nat := if e &&& 1 = 0 then none else some e

/-- The tables in memory. -/
def entries (m : ByteMem) : Tables Nat (Fin 512) Nat := fun n i => present (read64 m (n + 8 * i))

/-- The byte belongs to the page at `n`. -/
def InPage (n x : Nat) : Prop := n ≤ x ∧ x < n + 4096

instance (n x : Nat) : Decidable (InPage n x) := inferInstanceAs (Decidable (_ ∧ _))

theorem present_eq_none {e : Nat} : present e = none ↔ e &&& 1 = 0 := by
  unfold present
  split <;> simp_all

theorem present_eq_some {e a : Nat} (h : present e = some a) : e = a ∧ ¬ e &&& 1 = 0 := by
  unfold present at h
  split at h
  · cases h
  · rename_i hne
    exact ⟨Option.some.inj h, hne⟩

/-- A word with its lowest bit set is present. -/
theorem present_or_one (x : Nat) : present (x ||| 1) = some (x ||| 1) := by
  have hbit : ¬ (x ||| 1) &&& 1 = 0 := by
    intro hzero
    have htest : ((x ||| 1) &&& 1).testBit 0 = false := by
      rw [hzero]
      rfl
    simp at htest
  rw [present, if_neg hbit]

/-! ## Tables and bytes -/

/-- A table depends on its own page only. -/
theorem read64_entry_congr {m m' : ByteMem} {n : Nat} (h : ∀ x, InPage n x → m' x = m x)
    (i : Fin 512) : read64 m' (n + 8 * i) = read64 m (n + 8 * i) := by
  have hi := i.isLt
  apply read64_congr
  intro x hlo hhi
  exact h x ⟨by omega, by omega⟩

/-- Writing one entry of one table. -/
theorem read64_write_entry {m : ByteMem} {n t v : Nat} {i j : Fin 512} (hn : n % 4096 = 0)
    (ht : t % 4096 = 0) (hv : v < 2 ^ 64) :
    read64 (write64 m (n + 8 * i) v) (t + 8 * j) =
      if t = n ∧ j = i then v else read64 m (t + 8 * j) := by
  have hi := i.isLt
  have hj := j.isLt
  by_cases hsame : t = n ∧ j = i
  · rw [if_pos hsame, hsame.1, hsame.2, read64_write64_of_lt hv]
  · rw [if_neg hsame, read64_write64_of_disjoint]
    have hne : ¬(t = n ∧ (j : Nat) = i) := fun h => hsame ⟨h.1, Fin.ext h.2⟩
    omega

/-- The entries of a page of zeros. -/
theorem read64_entry_zero {m : ByteMem} {n : Nat} (h : ∀ x, InPage n x → m x = 0) (i : Fin 512) :
    read64 m (n + 8 * i) = 0 := by
  rw [read64_entry_congr (m := fun _ => 0) h, read64_const_zero]

theorem entries_zero {m : ByteMem} {n : Nat} (h : ∀ x, InPage n x → m x = 0) (i : Fin 512) :
    entries m n i = none := by
  rw [entries, read64_entry_zero h]
  rfl

/-! ## Trees of tables -/

section Tree

variable (next : Nat → Nat) (d root : Nat) (m : ByteMem)

/-- The page holds a table of the tree. -/
def IsTable (n : Nat) : Prop := ∃ q, q.length < d ∧ reach next (entries m) root q = some n

/-- The invariant of a tree of tables in memory: a table is a page, and only one path
leads to it. -/
structure Tree : Prop where
  aligned : ∀ n, IsTable next d root m n → n % 4096 = 0
  unshared : Unshared next (entries m) d root

/-- `m'` has the tree of `m` with `e` at the path `q`. -/
def EntrySet (m' : ByteMem) (q : List (Fin 512)) (e : Option Nat) : Prop :=
  ∀ r, r.length ≤ d →
    walk next (entries m') root r = if r = q then e else walk next (entries m) root r

end Tree

variable {next : Nat → Nat} {d root n v : Nat} {m m' : ByteMem} {q : List (Fin 512)} {i : Fin 512}

/-- A top table of zeros is a tree without entries. -/
theorem tree_zero (next : Nat → Nat) (d : Nat) (hroot : root % 4096 = 0)
    (hzero : ∀ x, InPage root x → m x = 0) :
    Tree next d root m ∧ ∀ q, walk next (entries m) root q = none := by
  have hnone : ∀ q, walk next (entries m) root q = none := by
    intro q
    induction q using List.reverseRecOn with
    | nil => rfl
    | append_singleton q i ih =>
      rw [walk_concat]
      by_cases hq : q = []
      · rw [hq, reach_nil, Option.bind_some]
        exact entries_zero hzero i
      · rw [reach_eq_map_walk hq, ih]
        rfl
  have hreach : ∀ q n, reach next (entries m) root q = some n → q = [] ∧ n = root := by
    intro q n hn
    by_cases hq : q = []
    · subst hq
      exact ⟨rfl, (Option.some.inj hn).symm⟩
    · rw [reach_eq_map_walk hq, hnone q] at hn
      cases hn
  refine ⟨⟨?_, ?_⟩, hnone⟩
  · rintro n ⟨q, _, hn⟩
    rw [(hreach q n hn).2]
    exact hroot
  · intro p q n _ _ hp hq
    rw [(hreach p n hp).1, (hreach q n hq).1]

/-- The tree depends on the pages of its tables only. -/
theorem Tree.of_agree (h : Tree next d root m)
    (hm : ∀ t, IsTable next d root m t → ∀ x, InPage t x → m' x = m x) :
    Tree next d root m' ∧ (∀ t, IsTable next d root m' t ↔ IsTable next d root m t) ∧
      ∀ r : List (Fin 512), r.length ≤ d →
        walk next (entries m') root r = walk next (entries m) root r := by
  have hagree : ∀ (q : List (Fin 512)) t i, q.length < d →
      reach next (entries m) root q = some t → entries m' t i = entries m t i := by
    intro q t i hq ht
    rw [entries, entries, read64_entry_congr (hm t ⟨q, hq, ht⟩)]
  have hreach := reach_of_agree hagree
  have htable : ∀ t, IsTable next d root m' t ↔ IsTable next d root m t := by
    intro t
    refine exists_congr fun q => and_congr_right fun hq => ?_
    rw [hreach q (Nat.le_of_lt hq)]
  refine ⟨⟨fun t ht => h.aligned t ((htable t).mp ht), ?_⟩, htable,
    fun r hr => walk_of_agree hagree hr⟩
  intro p r t hp hr hpt hrt
  rw [hreach p (Nat.le_of_lt hp)] at hpt
  rw [hreach r (Nat.le_of_lt hr)] at hrt
  exact h.unshared p r t hp hr hpt hrt

/-- The tables after one entry was set. -/
theorem EntrySet.isTable {e : Option Nat} {t : Nat} (hset : EntrySet next d root m m' q e)
    (ht : IsTable next d root m' t) :
    IsTable next d root m t ∨ (q.length < d ∧ ∃ a, e = some a ∧ t = next a) := by
  rcases ht with ⟨r, hr, ht⟩
  by_cases hnil : r = []
  · rw [hnil, reach_nil] at ht
    exact Or.inl ⟨[], hnil ▸ hr, ht⟩
  · rw [reach_eq_map_walk hnil, hset r (Nat.le_of_lt hr)] at ht
    by_cases hsame : r = q
    · rw [if_pos hsame, Option.map_eq_some_iff] at ht
      rcases ht with ⟨a, ha, hat⟩
      exact Or.inr ⟨hsame ▸ hr, a, ha, hat.symm⟩
    · rw [if_neg hsame] at ht
      refine Or.inl ⟨r, hr, ?_⟩
      rw [reach_eq_map_walk hnil]
      exact ht

/-- An entry that was absent, or that leads to no table, takes no table away when it is
set. -/
theorem EntrySet.reach_mono {e : Option Nat} {t : Nat} {r : List (Fin 512)}
    (hset : EntrySet next d root m m' q e)
    (hnone : q.length < d → walk next (entries m) root q = none) (hr : r.length < d)
    (ht : reach next (entries m) root r = some t) : reach next (entries m') root r = some t := by
  by_cases hnil : r = []
  · rw [hnil, reach_nil] at ht ⊢
    exact ht
  · rw [reach_eq_map_walk hnil] at ht ⊢
    have hne : r ≠ q := by
      rintro rfl
      rw [hnone hr] at ht
      cases ht
    rw [hset r (Nat.le_of_lt hr), if_neg hne, ht]

/-! ## Storing an entry

The memory `m'` is `m` with a word stored into an entry of a table.  Outside the tables it
may be anything. -/

section Store

variable (h : Tree next d root m) (hq : q.length < d) (hn : reach next (entries m) root q = some n)
  (hv : v < 2 ^ 64)
  (hm : ∀ t, IsTable next d root m t → ∀ x, InPage t x → m' x = write64 m (n + 8 * i) v x)

include h hq hn hv hm

theorem Tree.read64_set {t : Nat} (ht : IsTable next d root m t) (j : Fin 512) :
    read64 m' (t + 8 * j) = if t = n ∧ j = i then v else read64 m (t + 8 * j) := by
  rw [read64_entry_congr (hm t ht),
    read64_write_entry (h.aligned n ⟨q, hq, hn⟩) (h.aligned t ht) hv]

/-- The store changes one cell of the tree. -/
theorem Tree.cellUpdate : CellUpdate next d root (entries m) (entries m') q i (present v) := by
  have hentry : ∀ p t j, p.length < d → reach next (entries m) root p = some t →
      entries m' t j = if t = n ∧ j = i then present v else entries m t j := by
    intro p t j hp ht
    rw [entries, h.read64_set hq hn hv hm ⟨p, hp, ht⟩, apply_ite present]
    rfl
  refine ⟨hq, n, hn, ?_, ?_⟩
  · rw [hentry q n i hq hn, if_pos ⟨rfl, rfl⟩]
  · intro p t j hp ht hne
    rw [hentry p t j hp ht, if_neg]
    rintro ⟨rfl, rfl⟩
    rcases hne with hne | hne <;> exact hne rfl

/-- The tree after the store, if nothing hung below the old entry and the new one, unless it
is a leaf, leads to an empty page that was no table. -/
theorem Tree.set
    (hbefore : q.length + 1 < d → Hollow next (entries m) (walk next (entries m) root (q ++ [i])))
    (hafter : q.length + 1 < d → ∀ a, present v = some a → next a % 4096 = 0 ∧
      ¬IsTable next d root m (next a) ∧ ∀ j, entries m' (next a) j = none) :
    Tree next d root m' ∧ EntrySet next d root m m' (q ++ [i]) (present v) := by
  have hset : EntrySet next d root m m' (q ++ [i]) (present v) := fun r hr =>
    (h.cellUpdate hq hn hv hm).walk_eq h.unshared hbefore
      (fun hlt a ha => (hafter hlt a ha).2.2) hr
  refine ⟨⟨?_, ?_⟩, hset⟩
  · intro t ht
    rcases hset.isTable ht with hold | ⟨hlt, a, ha, rfl⟩
    · exact h.aligned t hold
    · rw [List.length_append, List.length_singleton] at hlt
      exact (hafter hlt a ha).1
  · refine h.unshared.update hset fun hlt a ha p hp hreach => ?_
    exact (hafter hlt a ha).2.1 ⟨p, hp, hreach⟩

/-- **Writing the entry of a page.** -/
theorem Tree.setLeaf (hleaf : q.length + 1 = d) :
    Tree next d root m' ∧ EntrySet next d root m m' (q ++ [i]) (present v) :=
  h.set hq hn hv hm (fun hlt => by omega) (fun hlt => by omega)

/-- **Hanging in a new table**, a page of zeros that was no table. -/
theorem Tree.link {b : Nat} (hnone : walk next (entries m) root (q ++ [i]) = none)
    (hpresent : present v = some v) (hnext : next v = b) (halign : b % 4096 = 0)
    (hfresh : ¬IsTable next d root m b) (hzero : ∀ x, InPage b x → m' x = 0) :
    Tree next d root m' ∧ EntrySet next d root m m' (q ++ [i]) (some v) := by
  rw [← hpresent]
  refine h.set hq hn hv hm (fun _ a ha => ?_) (fun _ a ha => ?_)
  · cases hnone.symm.trans ha
  · cases hpresent.symm.trans ha
    rw [hnext]
    exact ⟨halign, hfresh, entries_zero hzero⟩

/-- **Taking out an empty table.** -/
theorem Tree.unlink {a : Nat} (ha : walk next (entries m) root (q ++ [i]) = some a)
    (hempty : ∀ j, entries m (next a) j = none) (habsent : present v = none) :
    Tree next d root m' ∧ EntrySet next d root m m' (q ++ [i]) none := by
  rw [← habsent]
  refine h.set hq hn hv hm (fun _ b hb => ?_) (fun _ b hb => ?_)
  · cases ha.symm.trans hb
    exact hempty
  · cases habsent.symm.trans hb

end Store

/-! ## Virtual addresses -/

/-- Nine bits of an address, from bit `k` on. -/
def indexAt (k v : Nat) : Fin 512 :=
  ⟨v >>> k &&& 0x1FF, Nat.lt_of_le_of_lt Nat.and_le_right (by decide)⟩

/-- The path of an address through four levels. -/
def virtPath (v : Nat) : List (Fin 512) := [indexAt 39 v, indexAt 30 v, indexAt 21 v, indexAt 12 v]

/-- The addresses agree in the bits 12 to 47. -/
def SamePage (v w : Nat) : Prop := v / 2 ^ 12 % 2 ^ 36 = w / 2 ^ 12 % 2 ^ 36

instance (v w : Nat) : Decidable (SamePage v w) := inferInstanceAs (Decidable (_ = _))

theorem index_eq (v k : Nat) : v >>> k &&& 0x1FF = v / 2 ^ k % 512 := by
  rw [Nat.shiftRight_eq_div_pow]
  exact Nat.and_two_pow_sub_one_eq_mod _ 9

theorem virtPath_eq_iff {v w : Nat} : virtPath v = virtPath w ↔ SamePage v w := by
  simp only [virtPath, indexAt, index_eq, List.cons.injEq, Fin.mk.injEq, and_true, SamePage]
  omega

end FarouKernel.Verified.PageTables
