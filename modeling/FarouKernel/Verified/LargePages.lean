import FarouKernel.Verified.PageTables

/-!
# Page tables with large pages

An entry above the last level that has bit 7 set ends the walk there: it is the leaf
of a large page, and what it points to is data.  So the tables of such a tree are
those reached through the other entries.

`links m` is the memory that a walker sees who takes every word with bit 7 set for an
absent entry.  Its tree, in the sense of `Verified.PageTables`, is the tree of tables
of `m`, and the rules for editing trees apply to it.  `leafOf` is the walk of the
processor: it ends at the first leaf, of whatever size.
-/

namespace FarouKernel.Verified.PageTables

open Verified.ByteMem Verified.Radix

/-- The entry is the leaf of a large page, unless it is one of the last level. -/
def Large (e : Nat) : Prop := e &&& 0x80 ≠ 0

instance (e : Nat) : Decidable (Large e) := inferInstanceAs (Decidable (_ ≠ _))

/-- A word as an entry that leads to a table. -/
def linkWord (e : Nat) : Nat := if Large e then 0 else e

/-- Memory in which the words with bit 7 set are hidden. -/
def links (m : ByteMem) : ByteMem := fun x => if Large (read64 m (x / 8 * 8)) then 0 else m x

/-- The walk of the processor: the leaf of a path and the number of levels it stands
above the last. -/
def leafOf (next : Nat → Nat) (m : ByteMem) : Nat → List (Fin 512) → Option (Nat × Nat)
  | _, [] => none
  | n, i :: rest =>
    (present (read64 m (n + 8 * i))).bind fun e =>
      if rest = [] ∨ Large e then some (e, rest.length) else leafOf next m (next e) rest

/-! ## Hiding words -/

variable {e a : Nat} {r : List (Fin 512)}

theorem linkWord_lt (h : e < 2 ^ 64) : linkWord e < 2 ^ 64 := by
  unfold linkWord
  split
  · decide
  · exact h

theorem linkWord_of_not_large (h : ¬Large e) : linkWord e = e := if_neg h

theorem read64_links {m : ByteMem} (ha : a % 8 = 0) :
    read64 (links m) a = linkWord (read64 m a) := by
  have hword : ∀ x, a ≤ x → x < a + 8 → x / 8 * 8 = a := by
    intro x hlo hhi
    omega
  unfold linkWord
  by_cases hlarge : Large (read64 m a)
  · rw [if_pos hlarge, ← read64_const_zero a]
    refine read64_congr fun x hlo hhi => ?_
    rw [links, hword x hlo hhi, if_pos hlarge]
  · rw [if_neg hlarge]
    refine read64_congr fun x hlo hhi => ?_
    rw [links, hword x hlo hhi, if_neg hlarge]

theorem links_congr {m m' : ByteMem} {n x : Nat} (hn : n % 4096 = 0)
    (h : ∀ x, InPage n x → m' x = m x) (hx : InPage n x) : links m' x = links m x := by
  unfold InPage at hx
  have hread : read64 m' (x / 8 * 8) = read64 m (x / 8 * 8) := by
    refine read64_congr fun y hlo hhi => h y ?_
    unfold InPage
    omega
  rw [links, links, hread, h x hx]

/-- Hiding and storing commute. -/
theorem links_write64 {m : ByteMem} {v : Nat} (ha : a % 8 = 0) (hv : v < 2 ^ 64) (x : Nat) :
    links (write64 m a v) x = write64 (links m) a (linkWord v) x := by
  by_cases hin : x / 8 * 8 = a
  · have hat : a ≤ x ∧ x < a + 8 := by omega
    rw [links, hin, read64_write64_of_lt hv, linkWord, write64, write64, writeLE, writeLE,
      if_pos hat, if_pos hat]
    split
    · simp
    · rfl
  · rw [write64_apply_of_outside (m := links m) (by omega), links, links,
      read64_write64_of_disjoint (by omega), write64_apply_of_outside (m := m) (by omega)]

/-! ## Tables and leaves -/

variable {next : Nat → Nat} {d root n v : Nat} {m m' : ByteMem} {q : List (Fin 512)} {i : Fin 512}

theorem entries_links (hn : n % 4096 = 0) (i : Fin 512) :
    entries (links m) n i = present (linkWord (read64 m (n + 8 * i))) := by
  rw [entries, read64_links (by omega)]

/-- An entry that leads to a table is present and no leaf. -/
theorem entries_links_eq_some (hn : n % 4096 = 0) :
    entries (links m) n i = some e ↔ present (read64 m (n + 8 * i)) = some e ∧ ¬Large e := by
  rw [entries_links hn, linkWord]
  by_cases hlarge : Large (read64 m (n + 8 * i))
  · rw [if_pos hlarge]
    constructor
    · intro h
      cases h
    · rintro ⟨h, hsmall⟩
      rw [(present_eq_some h).1] at hlarge
      exact absurd hlarge hsmall
  · rw [if_neg hlarge]
    constructor
    · intro h
      exact ⟨h, (present_eq_some h).1 ▸ hlarge⟩
    · exact And.left

/-- The tree depends on the pages of its tables only. -/
theorem Tree.links_of_agree (h : Tree next d root (links m))
    (hm : ∀ t, IsTable next d root (links m) t → ∀ x, InPage t x → m' x = m x) :
    Tree next d root (links m') ∧
      ∀ t, IsTable next d root (links m') t ↔ IsTable next d root (links m) t := by
  rcases h.of_agree fun t ht x hx => links_congr (h.aligned t ht) (hm t ht) hx with
    ⟨htree, htable, _⟩
  exact ⟨htree, htable⟩

section Leaf

variable (hnext : ∀ e, next e % 4096 = 0)

include hnext

theorem reach_aligned {t : Nat} {T : Tables Nat (Fin 512) Nat} (hroot : root % 4096 = 0)
    (ht : reach next T root q = some t) : t % 4096 = 0 := by
  by_cases hq : q = []
  · subst hq
    cases ht
    exact hroot
  · rw [reach_eq_map_walk hq, Option.map_eq_some_iff] at ht
    obtain ⟨e, _, rfl⟩ := ht
    exact hnext e

/-- The tables are also reached by a walk that looks at the present bit only. -/
theorem reach_of_links (hroot : root % 4096 = 0)
    (hn : reach next (entries (links m)) root q = some n) :
    reach next (entries m) root q = some n := by
  induction q generalizing root with
  | nil =>
    cases hn
    rfl
  | cons i q ih =>
    rw [reach, Option.bind_eq_some_iff] at hn
    obtain ⟨e, he, hn⟩ := hn
    have hentry : entries m root i = some e := ((entries_links_eq_some hroot).mp he).1
    rw [reach, hentry, Option.bind_some]
    exact ih (hnext e) hn

/-- The walk of the processor goes through the tables. -/
theorem leafOf_append (hroot : root % 4096 = 0) {rest : List (Fin 512)} (hrest : rest ≠ [])
    (hn : reach next (entries (links m)) root q = some n) :
    leafOf next m root (q ++ rest) = leafOf next m n rest := by
  induction q generalizing root with
  | nil =>
    cases hn
    rfl
  | cons i q ih =>
    rw [reach, Option.bind_eq_some_iff] at hn
    obtain ⟨e, he, hn⟩ := hn
    obtain ⟨hpresent, hsmall⟩ := (entries_links_eq_some hroot).mp he
    have hnot : ¬(q ++ rest = [] ∨ Large e) := by simp [hrest, hsmall]
    rw [List.cons_append, leafOf, hpresent, Option.bind_some, if_neg hnot]
    exact ih (hnext e) hn

/-- A walk that reads no word of the changed cell finds the same leaf. -/
theorem leafOf_of_agree (hroot : root % 4096 = 0)
    (hagree : ∀ p t j, p.length < d → reach next (entries (links m)) root p = some t →
      ¬(p = q ∧ j = i) → read64 m' (t + 8 * j) = read64 m (t + 8 * j)) (hr : r.length ≤ d)
    (hnot : ¬(q ++ [i]) <+: r) : leafOf next m' root r = leafOf next m root r := by
  -- along the path, from the table at the end of `p` on
  have hfrom : ∀ rest p t, p ++ rest = r → reach next (entries (links m)) root p = some t →
      leafOf next m' t rest = leafOf next m t rest := by
    intro rest
    induction rest with
    | nil => exact fun _ _ _ _ => rfl
    | cons j rest ih =>
      intro p t hp ht
      have hlen : p.length < d := by
        rw [← hp, List.length_append, List.length_cons] at hr
        omega
      have hcell : ¬(p = q ∧ j = i) := by
        rintro ⟨rfl, rfl⟩
        exact hnot ⟨rest, by rw [List.append_assoc, List.singleton_append, hp]⟩
      rw [leafOf, leafOf, hagree p t j hlen ht hcell]
      cases he : present (read64 m (t + 8 * j)) with
      | none => rfl
      | some e =>
        rw [Option.bind_some, Option.bind_some]
        by_cases hleaf : rest = [] ∨ Large e
        · rw [if_pos hleaf, if_pos hleaf]
        · rw [if_neg hleaf, if_neg hleaf]
          refine ih (p ++ [j]) (next e) (by rw [← hp, List.append_assoc]; rfl) ?_
          have hlink : entries (links m) t j = some e :=
            (entries_links_eq_some (reach_aligned hnext hroot ht)).mpr
              ⟨he, fun hlarge => hleaf (Or.inr hlarge)⟩
          rw [reach_append, ht, Option.bind_some, reach, hlink]
          rfl
  exact hfrom r [] root rfl rfl

theorem walk_links_none (hroot : root % 4096 = 0)
    (hn : reach next (entries (links m)) root q = some n)
    (hnone : present (read64 m (n + 8 * i)) = none) :
    walk next (entries (links m)) root (q ++ [i]) = none := by
  rw [walk_concat, hn, Option.bind_some, entries_links (reach_aligned hnext hroot hn), linkWord]
  split
  · rfl
  · exact hnone

section Store

variable (h : Tree next d root (links m)) (hq : q.length < d)
  (hn : reach next (entries (links m)) root q = some n) (hv : v < 2 ^ 64)
  (hm : ∀ t, IsTable next d root (links m) t → ∀ x, InPage t x → m' x = write64 m (n + 8 * i) v x)

include h hq hn hv hm

omit hnext in
/-- Hidden memory after a store into an entry. -/
theorem links_set : ∀ t, IsTable next d root (links m) t → ∀ x, InPage t x →
    links m' x = write64 (links m) (n + 8 * i) (linkWord v) x := by
  intro t ht x hx
  have halign := h.aligned n ⟨q, hq, hn⟩
  rw [links_congr (h.aligned t ht) (hm t ht) hx, links_write64 (by omega) hv]

/-- A path that does not go through the cell leads to the leaf it led to. -/
theorem leafOf_set_other (hr : r.length ≤ d) (hnot : ¬(q ++ [i]) <+: r) :
    leafOf next m' root r = leafOf next m root r := by
  have hroot : root % 4096 = 0 := h.aligned root ⟨[], Nat.zero_lt_of_lt hq, rfl⟩
  refine leafOf_of_agree hnext hroot (fun p t j hp ht hcell => ?_) hr hnot
  rw [read64_entry_congr (hm t ⟨p, hp, ht⟩), read64_write_entry (h.aligned n ⟨q, hq, hn⟩)
    (h.aligned t ⟨p, hp, ht⟩) hv, if_neg]
  rintro ⟨rfl, rfl⟩
  exact hcell ⟨h.unshared p q t hp hq ht hn, rfl⟩

/-- **Writing the entry of a page** changes the leaf of its path only. -/
theorem Tree.setLeaf_links (hleaf : q.length + 1 = d) :
    Tree next d root (links m') ∧
      EntrySet next d root (links m) (links m') (q ++ [i]) (present (linkWord v)) ∧
      ∀ r, r.length = d → leafOf next m' root r =
        if r = q ++ [i] then (present v).map fun e => (e, 0) else leafOf next m root r := by
  have hroot : root % 4096 = 0 := h.aligned root ⟨[], Nat.zero_lt_of_lt hq, rfl⟩
  obtain ⟨htree, hset⟩ := h.setLeaf hq hn (linkWord_lt hv) (links_set h hq hn hv hm) hleaf
  refine ⟨htree, hset, fun r hr => ?_⟩
  by_cases hsame : r = q ++ [i]
  · have hn' : reach next (entries (links m')) root q = some n := by
      by_cases hnil : q = []
      · rw [hnil, reach_nil] at hn ⊢
        exact hn
      · rw [reach_eq_map_walk hnil] at hn ⊢
        rw [hset q (by omega), if_neg (by simp), hn]
    have hread : read64 m' (n + 8 * i) = v := by
      rw [read64_entry_congr (hm n ⟨q, hq, hn⟩), read64_write64_of_lt hv]
    rw [if_pos hsame, hsame, leafOf_append hnext hroot (by simp) hn', leafOf, hread]
    cases present v <;> simp
  · rw [if_neg hsame]
    refine leafOf_set_other hnext h hq hn hv hm (by omega) fun hpre => ?_
    exact hsame
      (hpre.eq_of_length (by rw [hr, List.length_append, List.length_singleton, hleaf])).symm

/-- **Hanging in a new table**, a page of zeros, changes no leaf. -/
theorem Tree.link_links {b : Nat} (habove : q.length + 1 < d)
    (hnone : present (read64 m (n + 8 * i)) = none) (hpresent : present v = some v)
    (hsmall : ¬Large v) (hb : next v = b) (hfresh : ¬IsTable next d root (links m) b)
    (hzero : ∀ x, InPage b x → m' x = 0) :
    Tree next d root (links m') ∧
      EntrySet next d root (links m) (links m') (q ++ [i]) (some v) ∧
      ∀ r, r.length = d → leafOf next m' root r = leafOf next m root r := by
  have hroot : root % 4096 = 0 := h.aligned root ⟨[], Nat.zero_lt_of_lt hq, rfl⟩
  have hbalign : b % 4096 = 0 := hb ▸ hnext v
  have habsent := walk_links_none hnext hroot hn hnone
  have hzero' : ∀ x, InPage b x → links m' x = 0 := by
    intro x hx
    rw [links, hzero x hx]
    exact ite_self 0
  have hmset := links_set h hq hn hv hm
  rw [linkWord_of_not_large hsmall] at hmset
  obtain ⟨htree, hset⟩ := h.link hq hn hv hmset habsent hpresent hb hbalign hfresh hzero'
  refine ⟨htree, hset, fun r hr => ?_⟩
  by_cases hpre : (q ++ [i]) <+: r
  · -- below the cell there was nothing, and now there is an empty table
    obtain ⟨rest, rfl⟩ := hpre
    have hrest : rest ≠ [] := by
      rintro rfl
      rw [List.append_nil, List.length_append, List.length_singleton] at hr
      omega
    have hb' : reach next (entries (links m')) root (q ++ [i]) = some b := by
      rw [reach_eq_map_walk (by simp), hset _ (by simp; omega), if_pos rfl, Option.map_some, hb]
    rw [leafOf_append hnext hroot hrest hb']
    rw [List.append_assoc, leafOf_append hnext hroot (by simp) hn, List.singleton_append, leafOf,
      hnone, Option.bind_none]
    cases rest with
    | nil => rfl
    | cons j rest =>
      rw [leafOf, read64_entry_zero hzero]
      rfl
  · exact leafOf_set_other hnext h hq hn hv hm (by omega) hpre

end Store

end Leaf

/-- A walk that ended at a large page still does, at the same one or at the new word,
if the words it reads are what they were or a new word with bit 7 set. -/
theorem leafOf_large (hpresent : present e = some e) (hlarge : Large e)
    (hnext : ∀ e, next e % 4096 = 0) (hroot : root % 4096 = 0)
    (hword : ∀ p t (j : Fin 512), p.length < r.length →
      reach next (entries (links m)) root p = some t → present (read64 m (t + 8 * j)) ≠ none →
      read64 m' (t + 8 * j) = read64 m (t + 8 * j) ∨ read64 m' (t + 8 * j) = e) {k : Nat}
    (h : leafOf next m root r = some (a, k + 1)) :
    leafOf next m' root r = some (a, k + 1) ∨ ∃ k', leafOf next m' root r = some (e, k' + 1) := by
  induction r generalizing root with
  | nil => cases h
  | cons j rest ih =>
    rw [leafOf, Option.bind_eq_some_iff] at h
    obtain ⟨b, hb, h⟩ := h
    have hrest : rest ≠ [] := by
      rintro rfl
      simp at h
    rcases hword [] root j (by simp) rfl (by rw [hb]; exact Option.some_ne_none b) with
      hsame | hnew
    · rw [leafOf, hsame, hb, Option.bind_some]
      by_cases hleaf : rest = [] ∨ Large b
      · rw [if_pos hleaf] at h ⊢
        exact Or.inl h
      · rw [if_neg hleaf] at h ⊢
        have hlink : entries (links m) root j = some b :=
          (entries_links_eq_some hroot).mpr ⟨hb, fun hb => hleaf (Or.inr hb)⟩
        refine ih (hnext b) (fun p t j' hp ht => hword (j :: p) t j' ?_ ?_) h
        · rw [List.length_cons, List.length_cons]
          omega
        · rw [reach, hlink, Option.bind_some, ht]
    · right
      obtain ⟨k', hk'⟩ : ∃ k', rest.length = k' + 1 :=
        Nat.exists_eq_succ_of_ne_zero (mt List.length_eq_zero_iff.mp hrest)
      refine ⟨k', ?_⟩
      rw [leafOf, hnew, hpresent, Option.bind_some, if_pos (Or.inr hlarge), hk']

end FarouKernel.Verified.PageTables
