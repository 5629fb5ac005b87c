import FarouKernel.Ports.LoaderModel

/-!
# The rounds of the loader

What the checks of `load_kernel_segments` say of a program header, and the states in
which the rounds of its loop begin.  In each round the address of the header is computed
again, from `e_phentsize` as it is in memory at that time.
-/

namespace FarouKernel.Ports.Loader

open Verified ByteMem

/-! ## What the checks say -/

section Checks

variable {pageSize mapSize i : Nat} {h : Elf64Phdr} {load : Bool}

theorem failIf_eq_ok {bad : Bool} {e : LoadError} : failIf bad e = .ok () ↔ bad = false := by
  cases bad <;> simp [failIf]

theorem failIf_bind {β : Type} {bad : Bool} {e : LoadError} {f : Unit → Except LoadError β}
    {b : β} : (failIf bad e >>= f) = .ok b ↔ bad = false ∧ f () = .ok b := by
  cases bad with
  | false => simp [failIf, bind, Except.bind]
  | true => simp [failIf, bind, Except.bind]

/-- The table of program headers lies in the file. -/
theorem validate_table {ehdr : Elf64Ehdr} (hvalid : validateElfHeader ehdr mapSize = .ok ()) :
    phdrSize ≤ ehdr.ePhentsize ∧
      ehdr.ePhoff + ehdr.ePhnum * ehdr.ePhentsize ≤ mapSize := by
  simp only [validateElfHeader, failIf_bind, failIf_eq_ok, decide_eq_false_iff_not] at hvalid
  omega

/-- There is something to load. -/
def IsLoaded (h : Elf64Phdr) : Prop := h.pType = ptLoad ∧ 0 < h.pMemsz

instance (h : Elf64Phdr) : Decidable (IsLoaded h) := inferInstanceAs (Decidable (_ ∧ _))

/-- What the checks ask of a header. -/
def Passes (pageSize mapSize : Nat) (h : Elf64Phdr) : Prop :=
  h.pType = ptLoad →
    h.pOffset + h.pFilesz < 2 ^ 64 ∧ h.pOffset + h.pFilesz ≤ mapSize ∧ h.pFilesz ≤ h.pMemsz ∧
      (h.pMemsz ≠ 0 →
        0 < pageSize ∧ h.pVaddr % pageSize = 0 ∧ h.pVaddr + h.pMemsz < 2 ^ 64)

/-- The outcome of the checks depends on the header only. -/
theorem checkSegment_eq_ok :
    checkSegment pageSize mapSize i h = .ok load ↔
      Passes pageSize mapSize h ∧ load = decide (IsLoaded h) := by
  unfold checkSegment Passes IsLoaded
  by_cases htype : h.pType = ptLoad
  · rw [if_neg (not_not.mpr htype)]
    by_cases hzero : h.pMemsz = 0
    · simp only [failIf_bind, decide_eq_false_iff_not, htype, if_pos hzero, Except.ok.injEq]
      cases load with
      | false =>
        simp [hzero]
        omega
      | true => simp [hzero]
    · simp only [failIf_bind, decide_eq_false_iff_not, htype, if_neg hzero, Except.ok.injEq]
      cases load with
      | false => simp [hzero]
      | true =>
        simp [hzero]
        omega
  · rw [if_pos htype]
    cases load <;> simp [htype]

/-- What holds of a segment that is loaded. -/
structure SegmentFits (pageSize mapSize : Nat) (h : Elf64Phdr) : Prop where
  file : h.pOffset + h.pFilesz ≤ mapSize
  memory : h.pFilesz ≤ h.pMemsz
  page : 0 < pageSize
  aligned : h.pVaddr % pageSize = 0

theorem Passes.fits (hpasses : Passes pageSize mapSize h) (hloaded : IsLoaded h) :
    SegmentFits pageSize mapSize h := by
  rcases hpasses hloaded.1 with ⟨_, hfile, hmemory, haddress⟩
  rcases haddress (Nat.pos_iff_ne_zero.mp hloaded.2) with ⟨hpage, haligned, _⟩
  exact ⟨hfile, hmemory, hpage, haligned⟩

end Checks

/-! ## The headers of a mapped file -/

/-- The header of the mapped file. -/
def LoaderState.ehdr (st : LoaderState) : Elf64Ehdr := readEhdr st.mem.bytes st.kernelMapBase

/-- Where the `i`-th program header of the file is. -/
def LoaderState.headerAddress (st : LoaderState) (i : Nat) : Nat :=
  st.kernelMapBase + st.ehdr.ePhoff + i * st.ehdr.ePhentsize

/-- The `i`-th program header of the file. -/
def LoaderState.headerAt (st : LoaderState) (i : Nat) : Elf64Phdr :=
  readPhdr st.mem.bytes (st.headerAddress i)

/-- The program headers of the file. -/
def LoaderState.headers (st : LoaderState) : List Elf64Phdr :=
  (List.range st.ehdr.ePhnum).map st.headerAt

/-- The file is accepted by `validate_elf_header` and by all checks of
`load_kernel_segments`. -/
structure Accepted (pageSize : Nat) (st : LoaderState) : Prop where
  header : validateElfHeader st.ehdr st.kernelMapSize = .ok ()
  segments : ∀ i, i < st.ehdr.ePhnum →
    ∃ load, checkSegment pageSize st.kernelMapSize i (st.headerAt i) = .ok load

/-! ## The rounds of the loop -/

/-- `phdr` in round `i` of a loop that began in `st`. -/
def phdrAddress (st s : LoaderState) (i : Nat) : Nat :=
  add64 (add64 st.kernelMapBase st.ehdr.ePhoff) (mulInt i s.ehdr.ePhentsize)

/-- The loop of `load_kernel_segments`, called in `st`, comes to its test with this
`i` in this state. -/
inductive LoopAt (pageSize : Nat) (st : LoaderState) : Nat → LoaderState → Prop
  | start : LoopAt pageSize st 0 st
  | next {i : Nat} {s : LoaderState} {load : Bool} (h : LoopAt pageSize st i s)
      (hround : i < s.ehdr.ePhnum)
      (hcheck : checkSegment pageSize s.kernelMapSize i
        (readPhdr s.mem.bytes (phdrAddress st s i)) = .ok load) :
      LoopAt pageSize st (i + 1)
        (if load = true then loadSegment pageSize (phdrAddress st s i) s else s)

/-- The header read in round `i`. -/
def headerRead (st s : LoaderState) (i : Nat) : Elf64Phdr :=
  readPhdr s.mem.bytes (phdrAddress st s i)

section Loop

variable {pageSize i : Nat} {st s : LoaderState}

theorem ePhnum_lt (s : LoaderState) : s.ehdr.ePhnum < 2 ^ 16 :=
  readLE_lt s.mem.bytes (s.kernelMapBase + 56) 2

/-- The states of `LoopAt` are those of the loop. -/
theorem LoopAt.loadKernelSegments_eq (h : LoopAt pageSize st i s) :
    i < 2 ^ 16 ∧ loadKernelSegments pageSize st =
      loadLoop pageSize (add64 st.kernelMapBase st.ehdr.ePhoff) (2 ^ 16 - i) i s := by
  induction h with
  | start => exact ⟨by decide, rfl⟩
  | @next i s load _ hround hcheck ih =>
    have hnum := ePhnum_lt s
    refine ⟨by omega, ?_⟩
    have hehdr : readEhdr s.mem.bytes s.kernelMapBase = s.ehdr := rfl
    have haddress : add64 (add64 st.kernelMapBase st.ehdr.ePhoff)
        (mulInt i s.ehdr.ePhentsize) = phdrAddress st s i := rfl
    rw [ih.2, show 2 ^ 16 - i = (2 ^ 16 - (i + 1)) + 1 by omega, loadLoop, hehdr, if_pos hround,
      haddress]
    simp only [hcheck]

/-- The file stays where it is. -/
theorem LoopAt.base (h : LoopAt pageSize st i s) :
    s.kernelMapBase = st.kernelMapBase ∧ s.kernelMapSize = st.kernelMapSize := by
  induction h with
  | start => exact ⟨rfl, rfl⟩
  | next _ _ _ ih =>
    split <;> exact ih

/-- There is one state in which the loop comes to its test with `i`. -/
theorem LoopAt.unique {s' : LoaderState} (h : LoopAt pageSize st i s)
    (h' : LoopAt pageSize st i s') : s' = s := by
  induction h generalizing s' with
  | start =>
    cases h'
    rfl
  | next _ _ hcheck ih =>
    cases h' with
    | next h' _ hcheck' =>
      obtain rfl := ih h'
      cases hcheck.symm.trans hcheck'
      rfl

/-- The product in the address of a header does not overflow. -/
theorem mulInt_of_lt {a b : Nat} (hab : a * b < 2 ^ 31) : mulInt a b = a * b := by
  unfold mulInt
  rw [Nat.mod_eq_of_lt (by omega), if_pos hab]

/-- The header of round `i` is in the file. -/
theorem header_inside (hvalid : validateElfHeader st.ehdr st.kernelMapSize = .ok ())
    (hi : i < st.ehdr.ePhnum) :
    st.ehdr.ePhoff + i * st.ehdr.ePhentsize + phdrSize ≤ st.kernelMapSize := by
  rcases validate_table hvalid with ⟨hentry, htable⟩
  have hlast : (i + 1) * st.ehdr.ePhentsize ≤ st.ehdr.ePhnum * st.ehdr.ePhentsize :=
    Nat.mul_le_mul_right _ hi
  rw [Nat.succ_mul] at hlast
  omega

theorem phdrAddress_eq_iff (hmapped : st.kernelMapBase + st.kernelMapSize ≤ 2 ^ 64)
    (hinside : st.ehdr.ePhoff + i * st.ehdr.ePhentsize + phdrSize ≤ st.kernelMapSize)
    (hfits : i * s.ehdr.ePhentsize < 2 ^ 31) :
    phdrAddress st s i = st.kernelMapBase + (st.ehdr.ePhoff + i * st.ehdr.ePhentsize) ↔
      i = 0 ∨ s.ehdr.ePhentsize = st.ehdr.ePhentsize := by
  unfold phdrSize at hinside
  have hsame : i * s.ehdr.ePhentsize = i * st.ehdr.ePhentsize ↔
      i = 0 ∨ s.ehdr.ePhentsize = st.ehdr.ePhentsize := by
    constructor
    · intro heq
      rcases Nat.eq_zero_or_pos i with hzero | hpos
      · exact Or.inl hzero
      · exact Or.inr (Nat.eq_of_mul_eq_mul_left hpos heq)
    · rintro (hzero | heq)
      · rw [hzero, Nat.zero_mul, Nat.zero_mul]
      · rw [heq]
  rw [← hsame, phdrAddress, mulInt_of_lt hfits,
    add64_of_lt (show st.kernelMapBase + st.ehdr.ePhoff < 2 ^ 64 by omega)]
  unfold add64
  constructor
  · intro haddress
    omega
  · intro heq
    rw [heq, Nat.mod_eq_of_lt (by omega), Nat.add_assoc]

end Loop

end FarouKernel.Ports.Loader
