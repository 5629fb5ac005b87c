import FarouKernel.Verified.ByteMem
import Mathlib.Data.List.Pairwise
import Mathlib.Data.List.Perm.Basic

/-!
# Regions of paged memory

Memory in pages, each with a protection of an arbitrary type.  A `Region` is a
run of addresses with contents and a protection; placing it replaces all pages it
meets, also the parts of them the region itself does not reach.

Regions that meet no common page do not disturb each other: after placing a list
of them every region is found as it was placed (`placeAll_of_mem`), and the order
of the list does not matter (`placeAll_perm`).  For regions that start at page
boundaries it is enough that their addresses are disjoint (`apart_of_le`).
-/

namespace FarouKernel.Verified

/-- Byte memory with a protection for every page. -/
structure PagedMem (π : Type) where
  bytes : ByteMem
  prot : Nat → π

/-- The page with number `p` meets the `n` bytes from `a` on. -/
def Covers (pageSize a n p : Nat) : Prop := a / pageSize ≤ p ∧ p < (a + n + pageSize - 1) / pageSize

instance (pageSize a n p : Nat) : Decidable (Covers pageSize a n p) :=
  inferInstanceAs (Decidable (_ ∧ _))

/-- A run of `len` addresses, its contents by offset and its protection. -/
structure Region (π : Type) where
  start : Nat
  len : Nat
  prot : π
  data : Nat → UInt8

variable {π : Type} {pageSize : Nat} {r s : Region π} {rs : List (Region π)} {m m' : PagedMem π}

/-- Replace the pages of the region. -/
def Region.place (pageSize : Nat) (r : Region π) (m : PagedMem π) : PagedMem π where
  bytes x :=
    if Covers pageSize r.start r.len (x / pageSize) then r.data (x - r.start) else m.bytes x
  prot p := if Covers pageSize r.start r.len p then r.prot else m.prot p

/-- The regions meet no common page. -/
def Region.Apart (pageSize : Nat) (r s : Region π) : Prop :=
  ∀ p, Covers pageSize r.start r.len p → ¬Covers pageSize s.start s.len p

/-- Place the regions one after the other. -/
def placeAll (pageSize : Nat) (rs : List (Region π)) (m : PagedMem π) : PagedMem π :=
  rs.foldl (fun m r => r.place pageSize m) m

/-! ## Pages and addresses -/

theorem covers_of_lt (hsize : 0 < pageSize) {a n j : Nat} (hj : j < n) :
    Covers pageSize a n ((a + j) / pageSize) := by
  constructor
  · exact Nat.div_le_div_right (Nat.le_add_right a j)
  · rw [Nat.div_lt_iff_lt_mul hsize]
    have hup := Nat.lt_div_mul_add hsize (a := a + n + pageSize - 1)
    omega

/-- The addresses of the pages that meet an aligned run are not below it. -/
theorem Covers.le (hsize : 0 < pageSize) {a n x : Nat} (halign : a % pageSize = 0)
    (h : Covers pageSize a n (x / pageSize)) : a ≤ x := by
  have hmul := (Nat.le_div_iff_mul_le hsize).mp h.1
  rwa [Nat.div_mul_cancel (Nat.dvd_of_mod_eq_zero halign)] at hmul

/-- An aligned run behind another one meets none of its pages. -/
theorem Covers.not_of_le (hsize : 0 < pageSize) {a n b k p : Nat} (halign : b % pageSize = 0)
    (hle : a + n ≤ b) (h : Covers pageSize a n p) : ¬Covers pageSize b k p := by
  intro hcovers
  have hlast : (a + n + pageSize - 1) / pageSize ≤ b / pageSize := by
    rw [← Nat.lt_succ_iff, Nat.div_lt_iff_lt_mul hsize, Nat.succ_mul,
      Nat.div_mul_cancel (Nat.dvd_of_mod_eq_zero halign)]
    omega
  exact absurd (Nat.lt_of_lt_of_le h.2 hlast) (Nat.not_lt.mpr hcovers.1)

/-- **Disjoint aligned regions are apart.** -/
theorem apart_of_le (hsize : 0 < pageSize) (hr : r.start % pageSize = 0)
    (hs : s.start % pageSize = 0)
    (hdisjoint : r.start + r.len ≤ s.start ∨ s.start + s.len ≤ r.start) :
    r.Apart pageSize s := by
  intro p hp hp'
  rcases hdisjoint with hle | hle
  · exact hp.not_of_le hsize hs hle hp'
  · exact hp'.not_of_le hsize hr hle hp

/-! ## Placing several regions -/

theorem place_comm (h : r.Apart pageSize s) (m : PagedMem π) :
    s.place pageSize (r.place pageSize m) = r.place pageSize (s.place pageSize m) := by
  unfold Region.place
  congr 1
  · funext x
    by_cases hr : Covers pageSize r.start r.len (x / pageSize)
    · simp only [if_pos hr, if_neg (h _ hr)]
    · simp only [if_neg hr]
  · funext p
    by_cases hr : Covers pageSize r.start r.len p
    · simp only [if_pos hr, if_neg (h _ hr)]
    · simp only [if_neg hr]

theorem placeAll_concat (rs : List (Region π)) (r : Region π) (m : PagedMem π) :
    placeAll pageSize (rs ++ [r]) m = r.place pageSize (placeAll pageSize rs m) := by
  rw [placeAll, List.foldl_append]
  rfl

/-- **The order of the regions does not matter.** -/
theorem placeAll_perm {rs' : List (Region π)} (hperm : rs.Perm rs')
    (hapart : rs.Pairwise (Region.Apart pageSize)) (m : PagedMem π) :
    placeAll pageSize rs m = placeAll pageSize rs' m := by
  let Commute (r s : Region π) : Prop := ∀ m : PagedMem π,
    s.place pageSize (r.place pageSize m) = r.place pageSize (s.place pageSize m)
  have hcomm : rs.Pairwise Commute := hapart.imp fun h m => place_comm h m
  have hsymm : Std.Symm Commute := ⟨fun _ _ h m => (h m).symm⟩
  apply hperm.foldl_eq'
  intro r hr s hs m
  exact hcomm.forall_of_forall (fun _ _ _ => rfl) hr hs m

/-- Pages that no region meets stay as they were. -/
theorem placeAll_outside {p : Nat} (h : ∀ r ∈ rs, ¬Covers pageSize r.start r.len p) :
    (placeAll pageSize rs m).prot p = m.prot p ∧
      ∀ x, x / pageSize = p → (placeAll pageSize rs m).bytes x = m.bytes x := by
  induction rs generalizing m with
  | nil => exact ⟨rfl, fun _ _ => rfl⟩
  | cons r rs ih =>
    have hr := h r List.mem_cons_self
    rcases ih (m := r.place pageSize m) fun s hs => h s (List.mem_cons_of_mem r hs) with
      ⟨hprot, hbytes⟩
    refine ⟨hprot.trans (if_neg hr), ?_⟩
    intro x hx
    refine (hbytes x hx).trans (if_neg ?_)
    rwa [hx]

/-- **Every region is found as it was placed.** -/
theorem placeAll_of_mem (hapart : rs.Pairwise (Region.Apart pageSize)) (hr : r ∈ rs) {p : Nat}
    (hp : Covers pageSize r.start r.len p) :
    (placeAll pageSize rs m).prot p = r.prot ∧
      ∀ x, x / pageSize = p → (placeAll pageSize rs m).bytes x = r.data (x - r.start) := by
  induction rs generalizing m with
  | nil => cases hr
  | cons s rs ih =>
    rw [List.pairwise_cons] at hapart
    rcases List.mem_cons.mp hr with rfl | hr
    · -- the later regions do not meet the page
      rcases placeAll_outside (m := r.place pageSize m) fun t ht => hapart.1 t ht p hp with
        ⟨hprot, hbytes⟩
      refine ⟨hprot.trans (if_pos hp), ?_⟩
      intro x hx
      refine (hbytes x hx).trans (if_pos ?_)
      rwa [hx]
    · exact ih hapart.2 hr

/-- What is placed depends on the memory before only where it leaves it. -/
theorem placeAll_congr (rs : List (Region π)) (hprot : m'.prot = m.prot) :
    (placeAll pageSize rs m').prot = (placeAll pageSize rs m).prot ∧
      ∀ x, m'.bytes x = m.bytes x →
        (placeAll pageSize rs m').bytes x = (placeAll pageSize rs m).bytes x := by
  induction rs generalizing m m' with
  | nil => exact ⟨hprot, fun _ hx => hx⟩
  | cons r rs ih =>
    have hplaced : (r.place pageSize m').prot = (r.place pageSize m).prot := by
      funext p
      simp only [Region.place, hprot]
    rcases ih hplaced with ⟨hprot', hbytes⟩
    refine ⟨hprot', ?_⟩
    intro x hx
    apply hbytes
    simp only [Region.place, hx]

end FarouKernel.Verified
