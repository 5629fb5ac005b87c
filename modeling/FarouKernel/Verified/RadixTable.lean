import Mathlib.Data.List.Induction
import Mathlib.Data.List.Infix
import Mathlib.Tactic.Common

/-!
# Radix trees kept as tables

A radix tree of fixed depth is kept in memory as tables: `T n i` is entry `i`
of the table `n` if that entry is present, and `next` reads off an entry the
table it leads to.  Paths are lists of indices.  `reach` is the table at the end
of a path and `walk` the entry the path selects; at full depth the entries are
the leaves and are not followed further.

Nothing in the representation keeps two entries from leading to the same table.
In a tree where none do (`Unshared`), writing one cell changes `walk` at one
path only, provided nothing hangs below the cell before and after the write
(`walk_update`).  Adding an empty table, removing an empty table and writing a
leaf are all of this form, so each of them is the update of a function at one
point.

The last section is about `walk` alone: a tree without empty tables (`Pruned`)
has exactly the tables that the leaves need.
-/

namespace FarouKernel.Verified.Radix

variable {ν ι ε : Type}

/-- Tables and their present entries. -/
abbrev Tables (ν ι ε : Type) : Type := ν → ι → Option ε

section Walk

variable (next : ε → ν) (T : Tables ν ι ε)

/-- The table at the end of a path. -/
def reach : ν → List ι → Option ν
  | n, [] => some n
  | n, i :: q => (T n i).bind fun e => reach (next e) q

/-- The entry a path selects. -/
def walk (root : ν) (q : List ι) : Option ε :=
  (reach next T root q.dropLast).bind fun n => q.getLast?.bind (T n)

/-- No table is at the end of two paths. -/
def Unshared (d : Nat) (root : ν) : Prop :=
  ∀ p q n, p.length < d → q.length < d → reach next T root p = some n →
    reach next T root q = some n → p = q

/-- The entry is absent or leads to an empty table. -/
def Hollow (e : Option ε) : Prop := ∀ a, e = some a → ∀ j, T (next a) j = none

end Walk

variable {next : ε → ν} {T T' : Tables ν ι ε} {root : ν} {d : Nat} {q : List ι} {i : ι}
  {e : Option ε}

@[simp] theorem reach_nil : reach next T root [] = some root := rfl

@[simp] theorem walk_concat (q : List ι) (i : ι) :
    walk next T root (q ++ [i]) = (reach next T root q).bind fun n => T n i := by
  simp [walk]

theorem reach_append (n : ν) (p q : List ι) :
    reach next T n (p ++ q) = (reach next T n p).bind fun m => reach next T m q := by
  induction p generalizing n with
  | nil => rfl
  | cons i p ih =>
    rw [List.cons_append, reach, reach]
    cases T n i with
    | none => rfl
    | some e => exact ih (next e)

/-- Beyond the root, the table at the end of a path is the one its entry leads
to. -/
theorem reach_eq_map_walk (hq : q ≠ []) :
    reach next T root q = (walk next T root q).map next := by
  rcases List.eq_nil_or_concat q with rfl | ⟨p, i, rfl⟩
  · exact absurd rfl hq
  · rw [List.concat_eq_append, reach_append, walk_concat]
    cases reach next T root p with
    | none => rfl
    | some n =>
      show (T n i).bind (fun e => some (next e)) = (T n i).map next
      cases T n i <;> rfl

theorem reach_of_walk {a : ε} (h : walk next T root q = some a) :
    reach next T root q = some (next a) := by
  have hq : q ≠ [] := by
    rintro rfl
    cases h
  rw [reach_eq_map_walk hq, h]
  rfl

theorem walk_ne_nil {a : ε} (h : walk next T root q = some a) : q ≠ [] := by
  rintro rfl
  cases h

/-- Below a hollow entry there is nothing. -/
theorem walk_append_of_hollow {r : List ι} (hq : q ≠ [])
    (hollow : Hollow next T (walk next T root q)) (hr : r ≠ []) :
    walk next T root (q ++ r) = none := by
  rcases List.eq_nil_or_concat r with rfl | ⟨p, i, rfl⟩
  · exact absurd rfl hr
  · rw [List.concat_eq_append, ← List.append_assoc, walk_concat, reach_append, reach_eq_map_walk hq]
    cases hw : walk next T root q with
    | none => rfl
    | some a =>
      have hempty : ∀ j, T (next a) j = none := hollow a hw
      cases p with
      | nil => exact hempty i
      | cons j p =>
        show (reach next T (next a) (j :: p)).bind _ = none
        rw [reach, hempty j]
        rfl

/-! ## Changing tables -/

/-- **The frame rule.**  Only the tables of the tree matter. -/
theorem reach_of_agree
    (hagree : ∀ q n i, q.length < d → reach next T root q = some n → T' n i = T n i) :
    ∀ q : List ι, q.length ≤ d → reach next T' root q = reach next T root q := by
  intro q
  induction q using List.reverseRecOn with
  | nil => exact fun _ => rfl
  | append_singleton q i ih =>
    intro hlen
    rw [List.length_append, List.length_singleton] at hlen
    rw [reach_append, reach_append, ih (by omega)]
    cases hreach : reach next T root q with
    | none => rfl
    | some n =>
      show (T' n i).bind _ = (T n i).bind _
      rw [hagree q n i (by omega) hreach]
      rfl

theorem walk_of_agree
    (hagree : ∀ q n i, q.length < d → reach next T root q = some n → T' n i = T n i)
    (hlen : q.length ≤ d) : walk next T' root q = walk next T root q := by
  rcases List.eq_nil_or_concat q with rfl | ⟨p, i, rfl⟩
  · rfl
  · rw [List.concat_eq_append, List.length_append, List.length_singleton] at hlen
    rw [List.concat_eq_append, walk_concat, walk_concat, reach_of_agree hagree p (by omega)]
    cases hreach : reach next T root p with
    | none => rfl
    | some n => exact hagree p n i (by omega) hreach

/-- Among the tables of the tree, `T'` differs from `T` in the one cell that
the path `q ++ [i]` selects, and has `e` there. -/
structure CellUpdate (next : ε → ν) (d : Nat) (root : ν) (T T' : Tables ν ι ε) (q : List ι)
    (i : ι) (e : Option ε) : Prop where
  short : q.length < d
  cell : ∃ n, reach next T root q = some n ∧ T' n i = e ∧
    ∀ p m j, p.length < d → reach next T root p = some m → (m ≠ n ∨ j ≠ i) → T' m j = T m j

section

variable (h : CellUpdate next d root T T' q i e) (hunshared : Unshared next T d root)

include h hunshared

/-- Paths that do not go through the cell reach the same table. -/
theorem CellUpdate.reach_eq :
    ∀ r : List ι, r.length ≤ d → ¬(q ++ [i]) <+: r →
      reach next T' root r = reach next T root r := by
  obtain ⟨n, hn, _, hother⟩ := h.cell
  intro r
  induction r using List.reverseRecOn with
  | nil => exact fun _ _ => rfl
  | append_singleton r j ih =>
    intro hlen hnot
    rw [List.length_append, List.length_singleton] at hlen
    have hnot' : ¬(q ++ [i]) <+: r := fun hpre =>
      hnot (hpre.trans (List.prefix_append r [j]))
    rw [reach_append, reach_append, ih (by omega) hnot']
    cases hreach : reach next T root r with
    | none => rfl
    | some m =>
      have hcell : m ≠ n ∨ j ≠ i := by
        by_contra hsame
        simp only [not_or, not_not] at hsame
        obtain ⟨rfl, rfl⟩ := hsame
        have hpath := hunshared r q m (by omega) h.short hreach hn
        exact hnot (hpath ▸ List.prefix_rfl)
      show (T' m j).bind _ = (T m j).bind _
      rw [hother r m j (by omega) hreach hcell]
      rfl

theorem CellUpdate.walk_same : walk next T' root (q ++ [i]) = e := by
  obtain ⟨n, hn, hcell, _⟩ := h.cell
  have hnot : ¬(q ++ [i]) <+: q := by
    intro hpre
    have := hpre.length_le
    rw [List.length_append, List.length_singleton] at this
    omega
  rw [walk_concat, h.reach_eq hunshared q (by have := h.short; omega) hnot, hn]
  exact hcell

/-- **Writing one cell** changes one path, if nothing hangs below the cell
before and after. -/
theorem CellUpdate.walk_eq [DecidableEq ι]
    (hbefore : q.length + 1 < d → Hollow next T (walk next T root (q ++ [i])))
    (hafter : q.length + 1 < d → Hollow next T' e) {r : List ι} (hr : r.length ≤ d) :
    walk next T' root r = if r = q ++ [i] then e else walk next T root r := by
  by_cases hsame : r = q ++ [i]
  · rw [if_pos hsame, hsame]
    exact h.walk_same hunshared
  rw [if_neg hsame]
  by_cases hpre : (q ++ [i]) <+: r
  · -- below the cell both trees are empty
    obtain ⟨t, rfl⟩ := hpre
    have ht : t ≠ [] := by
      rintro rfl
      exact hsame (List.append_nil _)
    have hpos : 0 < t.length := List.length_pos_iff.mpr ht
    simp only [List.length_append, List.length_singleton] at hr
    have hne : q ++ [i] ≠ [] := by simp
    rw [walk_append_of_hollow hne (hbefore (by omega)) ht, walk_append_of_hollow hne ?_ ht]
    rw [h.walk_same hunshared]
    exact hafter (by omega)
  · rcases List.eq_nil_or_concat r with rfl | ⟨p, j, rfl⟩
    · rfl
    · rw [List.concat_eq_append] at hsame hpre hr ⊢
      simp only [List.length_append, List.length_singleton] at hr
      have hnot : ¬(q ++ [i]) <+: p := fun hp => hpre (hp.trans (List.prefix_append p [j]))
      rw [walk_concat, walk_concat, h.reach_eq hunshared p (by omega) hnot]
      cases hreach : reach next T root p with
      | none => rfl
      | some m =>
        obtain ⟨n, hn, _, hother⟩ := h.cell
        refine hother p m j (by omega) hreach ?_
        by_contra hcell
        simp only [not_or, not_not] at hcell
        obtain ⟨rfl, rfl⟩ := hcell
        rw [hunshared p q m (by omega) h.short hreach hn] at hsame
        exact hsame rfl

end

/-- The tree stays unshared if the new entry, unless it is a leaf, leads to a
table that was not part of the tree. -/
theorem Unshared.update [DecidableEq ι] (hunshared : Unshared next T d root)
    (hwalk : ∀ r : List ι, r.length ≤ d →
      walk next T' root r = if r = q ++ [i] then e else walk next T root r)
    (hfresh : q.length + 1 < d → ∀ a, e = some a → ∀ p : List ι, p.length < d →
      reach next T root p ≠ some (next a)) : Unshared next T' d root := by
  have hreach : ∀ r n, r.length < d → reach next T' root r = some n →
      (r = q ++ [i] ∧ ∃ a, e = some a ∧ n = next a) ∨
        (r ≠ q ++ [i] ∧ reach next T root r = some n) := by
    intro r n hr hn
    by_cases hnil : r = []
    · right
      subst hnil
      exact ⟨by simp, hn⟩
    · rw [reach_eq_map_walk hnil, hwalk r (by omega)] at hn
      by_cases hsame : r = q ++ [i]
      · left
        rw [if_pos hsame, Option.map_eq_some_iff] at hn
        obtain ⟨a, ha, hna⟩ := hn
        exact ⟨hsame, a, ha, hna.symm⟩
      · right
        rw [if_neg hsame] at hn
        rw [reach_eq_map_walk hnil]
        exact ⟨hsame, hn⟩
  intro p r n hp hr hpn hrn
  rcases hreach p n hp hpn with ⟨hp', a, ha, hna⟩ | ⟨_, hp'⟩ <;>
    rcases hreach r n hr hrn with ⟨hr', b, hb, hnb⟩ | ⟨_, hr'⟩
  · rw [hp', hr']
  · rw [hp', List.length_append, List.length_singleton] at hp
    exact absurd (hna ▸ hr') (hfresh hp a ha r hr)
  · rw [hr', List.length_append, List.length_singleton] at hr
    exact absurd (hnb ▸ hp') (hfresh hr b hb p hp)
  · exact hunshared p r n hp hr hp' hr'

/-! ## Trees without empty tables -/

section Pruned

variable {W W' : List ι → Option ε}

/-- Every entry above the leaves leads to a table that is not empty. -/
def Pruned (d : Nat) (W : List ι → Option ε) : Prop :=
  ∀ q, q.length < d → W q ≠ none → ∃ j, W (q ++ [j]) ≠ none

/-- What a path goes through is present. -/
theorem walk_of_prefix {p : List ι} (hp : p ≠ []) (hpre : p <+: q)
    (hq : walk next T root q ≠ none) : walk next T root p ≠ none := by
  intro hnone
  by_cases hsame : p = q
  · exact hq (hsame ▸ hnone)
  · obtain ⟨t, rfl⟩ := hpre
    refine hq (walk_append_of_hollow hp ?_ ?_)
    · intro a ha
      cases hnone.symm.trans ha
    · rintro rfl
      exact hsame (List.append_nil p).symm

/-- In a pruned tree every entry lies on the path to a leaf. -/
theorem Pruned.exists_leaf (h : Pruned d W) (hlen : q.length ≤ d) (hq : W q ≠ none) :
    ∃ r, r.length = d ∧ q <+: r ∧ W r ≠ none := by
  induction hn : d - q.length generalizing q with
  | zero => exact ⟨q, by omega, List.prefix_rfl, hq⟩
  | succ n ih =>
    obtain ⟨j, hj⟩ := h q (by omega) hq
    have hlen' : (q ++ [j]).length = q.length + 1 := by simp
    obtain ⟨r, hr, hpre, hleaf⟩ := ih (by omega) hj (by omega)
    exact ⟨r, hr, (List.prefix_append q [j]).trans hpre, hleaf⟩

/-- Adding a leaf with all the tables on its path keeps the tree pruned. -/
theorem Pruned.insert (h : Pruned d W) {leaf : List ι} (hlen : leaf.length = d)
    (hpath : ∀ r, r ≠ [] → r <+: leaf → W' r ≠ none)
    (hother : ∀ r, r.length ≤ d → ¬r <+: leaf → W' r = W r) : Pruned d W' := by
  intro q hq hpresent
  by_cases hpre : q <+: leaf
  · obtain ⟨t, rfl⟩ := hpre
    cases t with
    | nil => simp at hlen; omega
    | cons j t =>
      refine ⟨j, hpath _ (by simp) ?_⟩
      exact ⟨t, by simp⟩
  · rw [hother q (by omega) hpre] at hpresent
    obtain ⟨j, hj⟩ := h q hq hpresent
    have hlen' : (q ++ [j]).length = q.length + 1 := by simp
    refine ⟨j, ?_⟩
    rw [hother _ (by omega) fun hp => hpre ((List.prefix_append q [j]).trans hp)]
    exact hj

/-- Removing a leaf and the tables above it from length `k` on keeps the tree
pruned, if the last table left is not empty. -/
theorem Pruned.remove (h : Pruned d W) {leaf : List ι} {k : Nat}
    (hgone : ∀ r, r <+: leaf → k ≤ r.length → W' r = none)
    (hother : ∀ r, r.length ≤ d → ¬(r <+: leaf ∧ k ≤ r.length) → W' r = W r)
    (hlast : ∀ r, r ≠ [] → r <+: leaf → r.length + 1 = k → ∃ j, W' (r ++ [j]) ≠ none)
    (hroot : W' [] = none) : Pruned d W' := by
  intro q hq hpresent
  have hkept : ¬(q <+: leaf ∧ k ≤ q.length) := fun hq' => hpresent (hgone q hq'.1 hq'.2)
  have hne : q ≠ [] := by
    rintro rfl
    exact hpresent hroot
  rw [hother q (by omega) hkept] at hpresent
  obtain ⟨j, hj⟩ := h q hq hpresent
  have hlen' : (q ++ [j]).length = q.length + 1 := by simp
  by_cases hcut : (q ++ [j]) <+: leaf ∧ k ≤ (q ++ [j]).length
  · have hpre : q <+: leaf := (List.prefix_append q [j]).trans hcut.1
    have hk : q.length + 1 = k := by
      by_contra hne'
      exact hkept ⟨hpre, by omega⟩
    exact hlast q hne hpre hk
  · exact ⟨j, by rw [hother _ (by omega) hcut]; exact hj⟩

end Pruned

end FarouKernel.Verified.Radix
