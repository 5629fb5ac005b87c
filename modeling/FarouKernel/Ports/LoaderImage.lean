import FarouKernel.Ports.LoaderRounds

/-!
# The image the loader leaves in memory

Loading a segment places a region (`loadSegment_eq`): its pages get the bytes of
the file, zeros behind them, and the protection of the header.  The headers of
an accepted file start their segments at page boundaries, so segments with
disjoint addresses meet no common page, and the image is the one the library
describes, whatever the order of the headers.

Three things can go wrong on the way, and each is undefined behaviour of the program.
The offset of a header is computed in an `int`, which a table of more than two
gigabytes overflows.  `MAP_FIXED` can replace pages of the loader itself.  And it can
replace pages of the mapped file: `ehdr` is a `const` pointer declared `restrict`, so
no byte that is read through it may be modified while the function runs, before or
after it is read.  `Defined` says of a call that none of this happens in any round of
its loop, and `Safe` says the same of a file, without running the loop.
-/

namespace FarouKernel.Ports.Loader

open Verified ByteMem

variable {i a : Nat}

/-! ## What is read of a header -/

/-- What the loader looks at in a program header: only the type of one that is not
`PT_LOAD`, and not the flags and the address of an empty segment. -/
def seen (h : Elf64Phdr) : Elf64Phdr :=
  if h.pType ≠ ptLoad then ⟨h.pType, 0, 0, 0, 0, 0⟩
  else if h.pMemsz = 0 then ⟨h.pType, 0, h.pOffset, 0, h.pFilesz, h.pMemsz⟩
  else h

/-- The bytes the loader reads for the program header `h` at `a` of a file at `base`:
the fields it looks at, and the contents of the segment. -/
def HeaderReads (base a : Nat) (h : Elf64Phdr) (x : Nat) : Prop :=
  (a ≤ x ∧ x < a + 4) ∨
    (h.pType = ptLoad ∧ (a + 8 ≤ x ∧ x < a + 16 ∨ a + 32 ≤ x ∧ x < a + 48)) ∨
    (IsLoaded h ∧ (a + 4 ≤ x ∧ x < a + 8 ∨ a + 16 ≤ x ∧ x < a + 24 ∨
      base + h.pOffset ≤ x ∧ x < base + h.pOffset + h.pFilesz))

section Seen

variable {h h' : Elf64Phdr}

theorem seen_of_loaded (hloaded : IsLoaded h) : seen h = h := by
  rw [seen, if_neg (not_not.mpr hloaded.1), if_neg (Nat.pos_iff_ne_zero.mp hloaded.2)]

theorem isLoaded_seen : IsLoaded (seen h) ↔ IsLoaded h := by
  unfold seen IsLoaded
  split
  · rename_i htype
    simp [htype]
  · split <;> simp_all

theorem eq_of_seen (hloaded : IsLoaded h) (hseen : seen h' = seen h) : h' = h := by
  have hloaded' : IsLoaded h' := by
    rw [← isLoaded_seen, hseen, isLoaded_seen]
    exact hloaded
  rwa [seen_of_loaded hloaded', seen_of_loaded hloaded] at hseen

theorem checkSegment_seen (pageSize mapSize i : Nat) (h : Elf64Phdr) :
    checkSegment pageSize mapSize i (seen h) = checkSegment pageSize mapSize i h := by
  unfold seen checkSegment
  split
  · rfl
  · split
    · rename_i hzero
      simp only [hzero]
    · rfl

theorem headerReads_seen {base x : Nat} :
    HeaderReads base a (seen h) x ↔ HeaderReads base a h x := by
  unfold HeaderReads
  rw [isLoaded_seen]
  by_cases hloaded : IsLoaded h
  · rw [seen_of_loaded hloaded]
  · have htype : (seen h).pType = h.pType := by
      unfold seen
      split
      · rfl
      · split <;> rfl
    simp only [htype, hloaded, false_and]

/-- **Memory that agrees on the bytes read** shows the loader the same header. -/
theorem seen_readPhdr {m m' : ByteMem} {base : Nat}
    (hsame : ∀ x, HeaderReads base a (readPhdr m a) x → m' x = m x) :
    seen (readPhdr m' a) = seen (readPhdr m a) := by
  have htype : (readPhdr m' a).pType = (readPhdr m a).pType :=
    readLE_congr fun x hx hx' => hsame x (Or.inl ⟨hx, hx'⟩)
  unfold seen
  rw [htype]
  by_cases hload : (readPhdr m a).pType = ptLoad
  · have hsizes : ∀ x, a + 8 ≤ x ∧ x < a + 16 ∨ a + 32 ≤ x ∧ x < a + 48 → m' x = m x :=
      fun x hx => hsame x (Or.inr (Or.inl ⟨hload, hx⟩))
    have hoffset : (readPhdr m' a).pOffset = (readPhdr m a).pOffset :=
      readLE_congr fun x hx hx' => hsizes x (by omega)
    have hfilesz : (readPhdr m' a).pFilesz = (readPhdr m a).pFilesz :=
      readLE_congr fun x hx hx' => hsizes x (by omega)
    have hmemsz : (readPhdr m' a).pMemsz = (readPhdr m a).pMemsz :=
      readLE_congr fun x hx hx' => hsizes x (by omega)
    rw [if_neg (not_not.mpr hload), if_neg (not_not.mpr hload), hoffset, hfilesz, hmemsz]
    by_cases hzero : (readPhdr m a).pMemsz = 0
    · rw [if_pos hzero, if_pos hzero]
    · have hplace : ∀ x, a + 4 ≤ x ∧ x < a + 8 ∨ a + 16 ≤ x ∧ x < a + 24 → m' x = m x :=
        fun x hx => hsame x (Or.inr (Or.inr
          ⟨⟨hload, Nat.pos_of_ne_zero hzero⟩, by omega⟩))
      have hflags : (readPhdr m' a).pFlags = (readPhdr m a).pFlags :=
        readLE_congr fun x hx hx' => hplace x (by omega)
      have hvaddr : (readPhdr m' a).pVaddr = (readPhdr m a).pVaddr :=
        readLE_congr fun x hx hx' => hplace x (by omega)
      rw [if_neg hzero, if_neg hzero]
      show Elf64Phdr.mk _ _ _ _ _ _ = Elf64Phdr.mk _ _ _ _ _ _
      exact Elf64Phdr.mk.injEq .. ▸ ⟨htype, hflags, hoffset, hvaddr, hfilesz, hmemsz⟩
  · rw [if_pos hload, if_pos hload]

end Seen

/-! ## Protections -/

/-- The protection grants exactly what the flags of the segment say. -/
def ProtectedAs (pFlags prot : Nat) : Prop :=
  (prot &&& protRead ≠ 0 ↔ pFlags &&& pfR ≠ 0) ∧ (prot &&& protWrite ≠ 0 ↔ pFlags &&& pfW ≠ 0) ∧
    (prot &&& protExec ≠ 0 ↔ pFlags &&& pfX ≠ 0) ∧ prot < 8

theorem protectedAs_segmentProt (pFlags : Nat) : ProtectedAs pFlags (segmentProt pFlags) := by
  unfold ProtectedAs segmentProt
  by_cases hr : pFlags &&& pfR = 0 <;> by_cases hw : pFlags &&& pfW = 0 <;>
    by_cases hx : pFlags &&& pfX = 0 <;> simp [hr, hw, hx] <;> decide

/-- A writable segment keeps the protection it is mapped with. -/
theorem segmentProt_writable {pFlags : Nat} (hw : pFlags &&& pfW ≠ 0) :
    segmentProt pFlags ||| protWrite = segmentProt pFlags := by
  unfold segmentProt
  by_cases hr : pFlags &&& pfR = 0 <;> by_cases hx : pFlags &&& pfX = 0 <;>
    simp [hr, hw, hx] <;> decide

/-! ## Files that are loaded safely -/

/-- The region a program header describes. -/
def LoaderState.region (st : LoaderState) (h : Elf64Phdr) : Region Nat where
  start := h.pVaddr
  len := h.pMemsz
  prot := segmentProt h.pFlags
  data j := if j < h.pFilesz then st.mem.bytes (st.kernelMapBase + h.pOffset + j) else 0

/-- The regions of those headers that are loaded. -/
def LoaderState.regions (st : LoaderState) (hs : List Elf64Phdr) : List (Region Nat) :=
  (hs.filter (IsLoaded ·)).map st.region

/-- The segments occupy disjoint addresses. -/
def SegmentsDisjoint (st : LoaderState) : Prop :=
  (st.headers.filter (IsLoaded ·)).Pairwise fun a b =>
    a.pVaddr + a.pMemsz ≤ b.pVaddr ∨ b.pVaddr + b.pMemsz ≤ a.pVaddr

/-- The bytes of the ELF header that are read: `e_phoff`, `e_phentsize` and `e_phnum`. -/
def LoaderState.EhdrReads (st : LoaderState) (x : Nat) : Prop :=
  (st.kernelMapBase + 32 ≤ x ∧ x < st.kernelMapBase + 40) ∨
    (st.kernelMapBase + 54 ≤ x ∧ x < st.kernelMapBase + 58)

/-- The bytes of the file that loading it reads. -/
def LoaderState.Reads (st : LoaderState) (x : Nat) : Prop :=
  st.EhdrReads x ∨ ∃ i, i < st.ehdr.ePhnum ∧
    HeaderReads st.kernelMapBase (st.headerAddress i) (st.headerAt i) x

/-- The pages of the segments to load. -/
def LoaderState.Replaces (pageSize : Nat) (st : LoaderState) (p : Nat) : Prop :=
  ∃ h ∈ st.headers, IsLoaded h ∧ Covers pageSize h.pVaddr h.pMemsz p

/-- The offsets of all headers fit an `int`, and no segment has a page in which the
loader itself lives or in which a byte is that is read of the file. -/
structure Safe (pageSize : Nat) (st : LoaderState) : Prop where
  table : (st.ehdr.ePhnum - 1) * st.ehdr.ePhentsize < 2 ^ 31
  own : ∀ p, st.Replaces pageSize p → st.own p = false
  file : ∀ x, st.Reads x → ¬st.Replaces pageSize (x / pageSize)

/-- The bytes that the call in `st` reads through `ehdr`. -/
def CallReads (pageSize : Nat) (st : LoaderState) (x : Nat) : Prop :=
  st.EhdrReads x ∨ ∃ i s, LoopAt pageSize st i s ∧ i < s.ehdr.ePhnum ∧
    HeaderReads st.kernelMapBase (phdrAddress st s i) (headerRead st s i) x

/-- The pages that the call in `st` replaces. -/
def CallReplaces (pageSize : Nat) (st : LoaderState) (p : Nat) : Prop :=
  ∃ i s, LoopAt pageSize st i s ∧ i < s.ehdr.ePhnum ∧
    checkSegment pageSize s.kernelMapSize i (headerRead st s i) = .ok true ∧
    Covers pageSize (headerRead st s i).pVaddr (headerRead st s i).pMemsz p

/-- The call in `st` has defined behaviour: in no round of the loop does the product
overflow, no page of the loader itself is replaced, and no page with a byte that is
read through `ehdr`. -/
structure Defined (pageSize : Nat) (st : LoaderState) : Prop where
  offsets : ∀ i s, LoopAt pageSize st i s → i < s.ehdr.ePhnum → i * s.ehdr.ePhentsize < 2 ^ 31
  own : ∀ p, CallReplaces pageSize st p → st.own p = false
  restricted : ∀ x, CallReads pageSize st x → ¬CallReplaces pageSize st (x / pageSize)

section Loading

variable {pageSize : Nat} {st s : LoaderState} {h : Elf64Phdr}

theorem memcpy_zero (dest src : Nat) (m : PagedMem Nat) : memcpy dest src 0 m = m := by
  unfold memcpy
  congr 1
  funext x
  exact if_neg (by omega)

/-- Nothing is left out when a copy of no bytes is not made. -/
theorem memcpy_ite (dest src n : Nat) (m : PagedMem Nat) :
    (if n > 0 then memcpy dest src n m else m) = memcpy dest src n m := by
  by_cases hzero : n = 0
  · rw [hzero, memcpy_zero, ite_self]
  · exact if_pos (Nat.pos_of_ne_zero hzero)

/-- The bytes of a segment after `mmap` and `memcpy`. -/
theorem memcpy_mmapFixed_bytes {prot src : Nat} {m : PagedMem Nat}
    (hfits : SegmentFits pageSize st.kernelMapSize h)
    (hsrc : ∀ j, j < h.pFilesz →
      (mmapFixed pageSize h.pVaddr h.pMemsz prot m).bytes (src + j) =
        st.mem.bytes (st.kernelMapBase + h.pOffset + j)) (x : Nat) :
    (memcpy h.pVaddr src h.pFilesz (mmapFixed pageSize h.pVaddr h.pMemsz prot m)).bytes x =
      ((st.region h).place pageSize m).bytes x := by
  have hmemory := hfits.memory
  show (if h.pVaddr ≤ x ∧ x < h.pVaddr + h.pFilesz then _ else
      if Covers pageSize h.pVaddr h.pMemsz (x / pageSize) then 0 else m.bytes x) =
    if Covers pageSize h.pVaddr h.pMemsz (x / pageSize) then
      (if x - h.pVaddr < h.pFilesz then _ else 0) else m.bytes x
  by_cases hcopied : h.pVaddr ≤ x ∧ x < h.pVaddr + h.pFilesz
  · have hcovers : Covers pageSize h.pVaddr h.pMemsz (x / pageSize) := by
      have hpage := covers_of_lt (a := h.pVaddr) hfits.page (show x - h.pVaddr < h.pMemsz by omega)
      rwa [Nat.add_sub_cancel' hcopied.1] at hpage
    rw [if_pos hcopied, if_pos hcovers, if_pos (by omega)]
    exact hsrc (x - h.pVaddr) (by omega)
  · rw [if_neg hcopied]
    by_cases hcovers : Covers pageSize h.pVaddr h.pMemsz (x / pageSize)
    · have hle := hcovers.le hfits.page hfits.aligned
      rw [if_pos hcovers, if_pos hcovers, if_neg (by omega)]
    · rw [if_neg hcovers, if_neg hcovers]

/-- **Loading a segment places its region**, in memory `s` that holds what is read of
the file of `st` at a place the segment does not meet. -/
theorem loadSegment_eq (hbase : s.kernelMapBase = st.kernelMapBase)
    (hmapped : st.kernelMapBase + st.kernelMapSize ≤ 2 ^ 64) (hread : readPhdr st.mem.bytes a = h)
    (hloaded : IsLoaded h) (hfits : SegmentFits pageSize st.kernelMapSize h)
    (hsame : ∀ x, HeaderReads st.kernelMapBase a h x → s.mem.bytes x = st.mem.bytes x)
    (hfile : ∀ x, HeaderReads st.kernelMapBase a h x →
      ¬Covers pageSize h.pVaddr h.pMemsz (x / pageSize)) :
    loadSegment pageSize a s = { s with mem := (st.region h).place pageSize s.mem } := by
  have hheader : ∀ m : PagedMem Nat,
      (∀ x, HeaderReads st.kernelMapBase a h x → m.bytes x = st.mem.bytes x) →
        readPhdr m.bytes a = h := by
    intro m hm
    have hseen := seen_readPhdr (hread.symm ▸ hm)
    rw [hread] at hseen
    exact eq_of_seen hloaded hseen
  have hmmap : ∀ prot x, HeaderReads st.kernelMapBase a h x →
      (mmapFixed pageSize h.pVaddr h.pMemsz prot s.mem).bytes x = st.mem.bytes x := by
    intro prot x hx
    exact (if_neg (hfile x hx)).trans (hsame x hx)
  have hsrc : ∀ prot j, j < h.pFilesz →
      (mmapFixed pageSize h.pVaddr h.pMemsz prot s.mem).bytes
        (add64 s.kernelMapBase h.pOffset + j) =
          st.mem.bytes (st.kernelMapBase + h.pOffset + j) := by
    intro prot j hj
    have hin := hfits.file
    have hsum : add64 s.kernelMapBase h.pOffset = st.kernelMapBase + h.pOffset := by
      rw [hbase]
      exact add64_of_lt (by omega)
    rw [hsum]
    exact hmmap prot _ (Or.inr (Or.inr ⟨hloaded, by omega⟩))
  have hbytes : ∀ prot x, (memcpy h.pVaddr (add64 s.kernelMapBase h.pOffset) h.pFilesz
      (mmapFixed pageSize h.pVaddr h.pMemsz prot s.mem)).bytes x =
        ((st.region h).place pageSize s.mem).bytes x :=
    fun prot x => memcpy_mmapFixed_bytes hfits (hsrc prot) x
  have hplaced : ∀ x, HeaderReads st.kernelMapBase a h x →
      ((st.region h).place pageSize s.mem).bytes x = st.mem.bytes x :=
    fun x hx => (if_neg (hfile x hx)).trans (hsame x hx)
  -- the header is still there after `mmap` and after `memcpy`
  simp only [loadSegment, hheader s.mem hsame, hheader _ (hmmap _), memcpy_ite,
    hheader _ fun x hx => (hbytes _ x).trans (hplaced x hx)]
  congr 1
  split
  · show PagedMem.mk _ _ = PagedMem.mk _ _
    congr 1
    · funext x
      exact hbytes _ x
    · funext p
      by_cases hp : Covers pageSize h.pVaddr h.pMemsz p
      · exact (if_pos hp).trans (if_pos hp).symm
      · exact ((if_neg hp).trans (if_neg hp)).trans (if_neg hp).symm
  · rename_i hwritable
    rw [segmentProt_writable hwritable]
    show PagedMem.mk _ _ = PagedMem.mk _ _
    congr 1
    funext x
    exact hbytes _ x

/-- The state after the first `i` headers. -/
def LoaderState.after (pageSize : Nat) (st : LoaderState) (i : Nat) : LoaderState :=
  { st with mem := placeAll pageSize (st.regions ((List.range i).map st.headerAt)) st.mem }

theorem after_succ (st : LoaderState) (i : Nat) :
    st.after pageSize (i + 1) =
      if IsLoaded (st.headerAt i) then
        { st.after pageSize i with
          mem := (st.region (st.headerAt i)).place pageSize (st.after pageSize i).mem }
      else st.after pageSize i := by
  unfold LoaderState.after LoaderState.regions
  rw [List.range_succ, List.map_append, List.filter_append, List.map_append]
  by_cases hloaded : IsLoaded (st.headerAt i)
  · rw [if_pos hloaded]
    simp only [List.map_cons, List.map_nil, List.filter_cons, List.filter_nil, hloaded,
      decide_true, if_true, placeAll_concat]
  · rw [if_neg hloaded]
    simp only [List.map_cons, List.map_nil, List.filter_cons, List.filter_nil, hloaded,
      decide_false, List.append_nil, Bool.false_eq_true, if_false]

theorem headerAt_mem (hi : i < st.ehdr.ePhnum) : st.headerAt i ∈ st.headers :=
  List.mem_map_of_mem (List.mem_range.mpr hi)

/-- The rounds of the loop find the table where the file has it. -/
theorem after_ehdr (hsame : ∀ x, st.EhdrReads x →
    (st.after pageSize i).mem.bytes x = st.mem.bytes x) :
    (st.after pageSize i).ehdr.ePhentsize = st.ehdr.ePhentsize ∧
      (st.after pageSize i).ehdr.ePhnum = st.ehdr.ePhnum := by
  have hbase : (st.after pageSize i).kernelMapBase = st.kernelMapBase := rfl
  constructor <;> exact readLE_congr fun x hx hx' => hsame x (Or.inr (by omega))

/-- Page `p` belongs to the segment of the `i`-th header, and it is loaded. -/
def LoaderState.Loads (pageSize : Nat) (st : LoaderState) (i p : Nat) : Prop :=
  IsLoaded (st.headerAt i) ∧ Covers pageSize (st.headerAt i).pVaddr (st.headerAt i).pMemsz p

/-- The pages replaced after the first `i` headers are among those of the segments. -/
theorem after_bytes {x : Nat} (hout : ∀ j, j < i → ¬st.Loads pageSize j (x / pageSize)) :
    (st.after pageSize i).mem.bytes x = st.mem.bytes x := by
  refine (placeAll_outside ?_).2 x rfl
  intro r hr
  unfold LoaderState.regions at hr
  simp only [List.mem_map, List.mem_filter, List.mem_range, decide_eq_true_eq] at hr
  rcases hr with ⟨h, ⟨⟨j, hj, rfl⟩, hloaded⟩, rfl⟩
  exact fun hcovers => hout j hj ⟨hloaded, hcovers⟩

/-- The loop comes to its test with `i` in the state after the first `i` headers, and
finds what is in the file. -/
structure RoundSees (pageSize : Nat) (st : LoaderState) (i : Nat) : Prop where
  loop : LoopAt pageSize st i (st.after pageSize i)
  num : (st.after pageSize i).ehdr.ePhnum = st.ehdr.ePhnum
  entsize : (st.after pageSize i).ehdr.ePhentsize = st.ehdr.ePhentsize
  address : i < st.ehdr.ePhnum → phdrAddress st (st.after pageSize i) i = st.headerAddress i
  header : i < st.ehdr.ePhnum →
    seen (headerRead st (st.after pageSize i) i) = seen (st.headerAt i)

theorem RoundSees.headerReads (hsees : RoundSees pageSize st i) (hi : i < st.ehdr.ePhnum)
    {x : Nat} :
    HeaderReads st.kernelMapBase (phdrAddress st (st.after pageSize i) i)
        (headerRead st (st.after pageSize i) i) x ↔
      HeaderReads st.kernelMapBase (st.headerAddress i) (st.headerAt i) x := by
  rw [hsees.address hi, ← headerReads_seen, hsees.header hi, headerReads_seen]

section

variable (hmapped : st.kernelMapBase + st.kernelMapSize ≤ 2 ^ 64)
  (haccepted : Accepted pageSize st)

include haccepted

theorem RoundSees.check (hsees : RoundSees pageSize st i) (hi : i < st.ehdr.ePhnum) :
    checkSegment pageSize st.kernelMapSize i (headerRead st (st.after pageSize i) i) =
      .ok (decide (IsLoaded (st.headerAt i))) := by
  rcases haccepted.segments i hi with ⟨load, hcheck⟩
  rw [← checkSegment_seen, hsees.header hi, checkSegment_seen, hcheck,
    (checkSegment_eq_ok.mp hcheck).2]

theorem RoundSees.replaces (hsees : RoundSees pageSize st i) (hi : i < st.ehdr.ePhnum)
    {p : Nat} (hp : st.Loads pageSize i p) : CallReplaces pageSize st p := by
  have hcheck := hsees.check haccepted hi
  rw [decide_eq_true hp.1] at hcheck
  have hheader := eq_of_seen hp.1 (hsees.header hi)
  exact ⟨i, _, hsees.loop, hsees.num ▸ hi, hcheck, hheader ▸ hp.2⟩

include hmapped

/-- **One round of the loop.** -/
theorem RoundSees.round (hsees : RoundSees pageSize st i) (hi : i < st.ehdr.ePhnum)
    (hsame : ∀ x, HeaderReads st.kernelMapBase (st.headerAddress i) (st.headerAt i) x →
      (st.after pageSize i).mem.bytes x = st.mem.bytes x ∧
        ¬st.Loads pageSize i (x / pageSize)) :
    LoopAt pageSize st (i + 1) (st.after pageSize (i + 1)) := by
  have hnext := hsees.loop.next (hsees.num ▸ hi) (hsees.check haccepted hi)
  rw [hsees.address hi] at hnext
  rw [after_succ]
  by_cases hloaded : IsLoaded (st.headerAt i)
  · have hbase : (st.after pageSize i).kernelMapBase = st.kernelMapBase := rfl
    have hread : readPhdr st.mem.bytes (st.headerAddress i) = st.headerAt i := rfl
    rcases haccepted.segments i hi with ⟨_, hcheck⟩
    have hplaced := loadSegment_eq hbase hmapped hread hloaded
      ((checkSegment_eq_ok.mp hcheck).1.fits hloaded)
      (fun x hx => (hsame x hx).1) fun x hx hcovers => (hsame x hx).2 ⟨hloaded, hcovers⟩
    simp only [hloaded, decide_true, if_true] at hnext ⊢
    rwa [hplaced] at hnext
  · simp only [hloaded, decide_false, Bool.false_eq_true, if_false] at hnext ⊢
    exact hnext

/-- **All rounds see the file**, if no segment of a round that sees it replaces one of
the bytes `R`, and `R` has what is read of the ELF header and of each program header:
of the one in the file, or of the one that the loop finds. -/
theorem roundSees {R : Nat → Prop} (hehdr : ∀ x, st.EhdrReads x → R x)
    (hkept : ∀ x, R x → ∀ i, i < st.ehdr.ePhnum → RoundSees pageSize st i →
      ¬st.Loads pageSize i (x / pageSize))
    (hround : ∀ i, i < st.ehdr.ePhnum → LoopAt pageSize st i (st.after pageSize i) →
      (st.after pageSize i).ehdr.ePhnum = st.ehdr.ePhnum →
      (st.after pageSize i).ehdr.ePhentsize = st.ehdr.ePhentsize →
        i * st.ehdr.ePhentsize < 2 ^ 31 ∧
          ((∀ x, HeaderReads st.kernelMapBase (st.headerAddress i) (st.headerAt i) x → R x) ∨
            ∀ x, HeaderReads st.kernelMapBase (phdrAddress st (st.after pageSize i) i)
              (headerRead st (st.after pageSize i) i) x → R x))
    (hi : i ≤ st.ehdr.ePhnum) : RoundSees pageSize st i := by
  induction i using Nat.strong_induction_on with
  | _ i ih =>
    have hsame : ∀ k, k ≤ i → ∀ x, R x → (st.after pageSize k).mem.bytes x = st.mem.bytes x :=
      fun k hk x hx => after_bytes fun j hj =>
        hkept x hx j (by omega) (ih j (by omega) (by omega))
    have hloop : LoopAt pageSize st i (st.after pageSize i) := by
      cases i with
      | zero => exact .start
      | succ k =>
        have hsees := ih k (Nat.lt_succ_self k) (by omega)
        have hreads : ∀ x,
            HeaderReads st.kernelMapBase (st.headerAddress k) (st.headerAt k) x → R x := by
          intro x hx
          rcases (hround k hi hsees.loop hsees.num hsees.entsize).2 with hfile | hloop
          · exact hfile x hx
          · exact hloop x ((hsees.headerReads hi).mpr hx)
        exact hsees.round hmapped haccepted hi fun x hx =>
          ⟨hsame k (by omega) x (hreads x hx), hkept x (hreads x hx) k hi hsees⟩
    have hkeeps := hsame i (Nat.le_refl i)
    rcases after_ehdr fun x hx => hkeeps x (hehdr x hx) with ⟨hentsize, hnum⟩
    have haddress : i < st.ehdr.ePhnum →
        phdrAddress st (st.after pageSize i) i = st.headerAddress i := by
      intro hlt
      rw [(phdrAddress_eq_iff hmapped (header_inside haccepted.header hlt)
        (hentsize ▸ (hround i hlt hloop hnum hentsize).1)).mpr (Or.inr hentsize),
        LoaderState.headerAddress, Nat.add_assoc]
    refine ⟨hloop, hnum, hentsize, haddress, ?_⟩
    intro hlt
    have hreads := (hround i hlt hloop hnum hentsize).2
    rw [headerRead, haddress hlt] at hreads ⊢
    rcases hreads with hfile | hfound
    · exact seen_readPhdr fun x hx => hkeeps x (hfile x hx)
    · exact (seen_readPhdr fun x hx => (hkeeps x (hfound x hx)).symm).symm

theorem Safe.roundSees (hsafe : Safe pageSize st) :
    ∀ i, i ≤ st.ehdr.ePhnum → RoundSees pageSize st i := by
  refine fun i => Loader.roundSees hmapped haccepted (R := st.Reads) (fun x hx => Or.inl hx)
    (fun x hx i hi _ hloads => hsafe.file x hx ⟨_, headerAt_mem hi, hloads⟩) ?_
  intro i hi _ _ _
  exact ⟨Nat.lt_of_le_of_lt (Nat.mul_le_mul_right _ (by omega)) hsafe.table,
    Or.inl fun x hx => Or.inr ⟨i, hi, hx⟩⟩

theorem Defined.roundSees (hdefined : Defined pageSize st) :
    ∀ i, i ≤ st.ehdr.ePhnum → RoundSees pageSize st i := by
  refine fun i => Loader.roundSees hmapped haccepted (R := CallReads pageSize st)
    (fun x hx => Or.inl hx) (fun x hx i hi hsees hloads =>
      hdefined.restricted x hx (hsees.replaces haccepted hi hloads)) ?_
  intro i hi hloop hnum hentsize
  exact ⟨hentsize ▸ hdefined.offsets i _ hloop (hnum ▸ hi),
    Or.inr fun x hx => Or.inr ⟨i, _, hloop, hnum ▸ hi, hx⟩⟩

end

/-! ## Calls whose rounds see the file -/

section

variable (hsees : ∀ i, i ≤ st.ehdr.ePhnum → RoundSees pageSize st i)

include hsees

theorem loopAt_eq (hloop : LoopAt pageSize st i s) :
    i ≤ st.ehdr.ePhnum ∧ s = st.after pageSize i := by
  induction hloop with
  | start => exact ⟨Nat.zero_le _, rfl⟩
  | next hloop hround hcheck ih =>
    obtain ⟨hi, rfl⟩ := ih
    have hlt := (hsees _ hi).num ▸ hround
    exact ⟨hlt, (hsees _ hlt).loop.unique (hloop.next hround hcheck)⟩

/-- A round of the loop is one of the headers of the file. -/
theorem round_eq (hloop : LoopAt pageSize st i s) (hround : i < s.ehdr.ePhnum) :
    i < st.ehdr.ePhnum ∧ s = st.after pageSize i := by
  obtain ⟨hi, rfl⟩ := loopAt_eq hsees hloop
  exact ⟨(hsees i hi).num ▸ hround, rfl⟩

/-- **`load_kernel_segments` places the regions of its headers.** -/
theorem loadKernelSegments_eq :
    loadKernelSegments pageSize st =
      .ok { st with mem := placeAll pageSize (st.regions st.headers) st.mem } := by
  have hlast := hsees _ (Nat.le_refl st.ehdr.ePhnum)
  obtain ⟨hlt, hload⟩ := hlast.loop.loadKernelSegments_eq
  obtain ⟨rounds, hrounds⟩ : ∃ rounds, 2 ^ 16 - st.ehdr.ePhnum = rounds + 1 :=
    ⟨2 ^ 16 - st.ehdr.ePhnum - 1, by omega⟩
  have hehdr : readEhdr (st.after pageSize st.ehdr.ePhnum).mem.bytes
      (st.after pageSize st.ehdr.ePhnum).kernelMapBase =
        (st.after pageSize st.ehdr.ePhnum).ehdr := rfl
  rw [hload, hrounds, loadLoop, hehdr, hlast.num, if_neg (Nat.lt_irrefl _)]
  rfl

theorem callReads_iff {x : Nat} : CallReads pageSize st x ↔ st.Reads x := by
  refine or_congr Iff.rfl ⟨?_, ?_⟩
  · rintro ⟨i, s, hloop, hround, hx⟩
    obtain ⟨hi, rfl⟩ := round_eq hsees hloop hround
    exact ⟨i, hi, ((hsees i (Nat.le_of_lt hi)).headerReads hi).mp hx⟩
  · rintro ⟨i, hi, hx⟩
    have hround := hsees i (Nat.le_of_lt hi)
    exact ⟨i, _, hround.loop, hround.num ▸ hi, (hround.headerReads hi).mpr hx⟩

theorem callReplaces_iff (haccepted : Accepted pageSize st) {p : Nat} :
    CallReplaces pageSize st p ↔ st.Replaces pageSize p := by
  constructor
  · rintro ⟨i, s, hloop, hround, hcheck, hcovers⟩
    obtain ⟨hi, rfl⟩ := round_eq hsees hloop hround
    have hround := hsees i (Nat.le_of_lt hi)
    have hloaded : IsLoaded (st.headerAt i) :=
      of_decide_eq_true (Except.ok.inj ((hround.check haccepted hi).symm.trans hcheck))
    exact ⟨_, headerAt_mem hi, hloaded, eq_of_seen hloaded (hround.header hi) ▸ hcovers⟩
  · rintro ⟨h, hmem, hloads⟩
    rcases List.mem_map.mp hmem with ⟨i, hi, rfl⟩
    rw [List.mem_range] at hi
    exact (hsees i (Nat.le_of_lt hi)).replaces haccepted hi hloads

/-- The products of all rounds fit an `int` if the last does. -/
theorem offsets_iff :
    (∀ i s, LoopAt pageSize st i s → i < s.ehdr.ePhnum → i * s.ehdr.ePhentsize < 2 ^ 31) ↔
      (st.ehdr.ePhnum - 1) * st.ehdr.ePhentsize < 2 ^ 31 := by
  constructor
  · intro hoffsets
    rcases Nat.eq_zero_or_pos st.ehdr.ePhnum with hnone | hsome
    · rw [hnone, Nat.zero_sub, Nat.zero_mul]
      decide
    · have hlast := hsees (st.ehdr.ePhnum - 1) (by omega)
      rw [← hlast.entsize]
      exact hoffsets _ _ hlast.loop (by rw [hlast.num]; omega)
  · intro htable i s hloop hround
    obtain ⟨hi, rfl⟩ := round_eq hsees hloop hround
    rw [(hsees i (Nat.le_of_lt hi)).entsize]
    exact Nat.lt_of_le_of_lt (Nat.mul_le_mul_right _ (by omega)) htable

theorem defined_iff_safe (haccepted : Accepted pageSize st) :
    Defined pageSize st ↔ Safe pageSize st := by
  have hreplaces := fun p => callReplaces_iff hsees haccepted (p := p)
  constructor
  · rintro ⟨hoffsets, hown, hrestricted⟩
    exact ⟨(offsets_iff hsees).mp hoffsets, fun p hp => hown p ((hreplaces p).mpr hp),
      fun x hx hp => hrestricted x ((callReads_iff hsees).mpr hx) ((hreplaces _).mpr hp)⟩
  · rintro ⟨htable, hown, hfile⟩
    exact ⟨(offsets_iff hsees).mpr htable, fun p hp => hown p ((hreplaces p).mp hp),
      fun x hx hp => hfile x ((callReads_iff hsees).mp hx) ((hreplaces _).mp hp)⟩

end

/-! ## The image -/

/-- Memory with the image of the file of `st`: every segment holds its bytes of the
file followed by zeros, and its pages have the protection its flags give. -/
def HoldsImage (pageSize : Nat) (st : LoaderState) (m : PagedMem Nat) : Prop :=
  ∀ h ∈ st.headers, IsLoaded h →
    (∀ j, j < h.pFilesz →
      m.bytes (h.pVaddr + j) = st.mem.bytes (st.kernelMapBase + h.pOffset + j)) ∧
    (∀ j, h.pFilesz ≤ j → j < h.pMemsz → m.bytes (h.pVaddr + j) = 0) ∧
    ∀ p, Covers pageSize h.pVaddr h.pMemsz p → ProtectedAs h.pFlags (m.prot p)

section

variable (haccepted : Accepted pageSize st)

include haccepted

theorem Accepted.fits (hmem : h ∈ st.headers) (hloaded : IsLoaded h) :
    SegmentFits pageSize st.kernelMapSize h := by
  rcases List.mem_map.mp hmem with ⟨i, hi, rfl⟩
  rcases haccepted.segments i (List.mem_range.mp hi) with ⟨_, hcheck⟩
  exact (checkSegment_eq_ok.mp hcheck).1.fits hloaded

/-- Segments with disjoint addresses meet no common page. -/
theorem regions_apart (hdisjoint : SegmentsDisjoint st) :
    (st.regions st.headers).Pairwise (Region.Apart pageSize) := by
  rw [LoaderState.regions, List.pairwise_map]
  refine hdisjoint.imp_of_mem ?_
  intro a b ha hb hab
  rw [List.mem_filter, decide_eq_true_eq] at ha hb
  have hfits := haccepted.fits ha.1 ha.2
  exact apart_of_le hfits.page hfits.aligned (haccepted.fits hb.1 hb.2).aligned hab

/-- The placed regions are the image. -/
theorem holdsImage_placeAll (hdisjoint : SegmentsDisjoint st) (m : PagedMem Nat) :
    HoldsImage pageSize st (placeAll pageSize (st.regions st.headers) m) := by
  intro h hmem hloaded
  have hfits := haccepted.fits hmem hloaded
  have hregion : st.region h ∈ st.regions st.headers :=
    List.mem_map_of_mem (List.mem_filter.mpr ⟨hmem, decide_eq_true hloaded⟩)
  have hplaced : ∀ p, Covers pageSize h.pVaddr h.pMemsz p → _ := fun p hp =>
    placeAll_of_mem (m := m) (regions_apart haccepted hdisjoint) hregion hp
  have hbytes : ∀ j, j < h.pMemsz →
      (placeAll pageSize (st.regions st.headers) m).bytes (h.pVaddr + j) =
        if j < h.pFilesz then st.mem.bytes (st.kernelMapBase + h.pOffset + j) else 0 := by
    intro j hj
    rw [(hplaced _ (covers_of_lt hfits.page hj)).2 _ rfl]
    show (st.region h).data (h.pVaddr + j - h.pVaddr) = _
    rw [Nat.add_sub_cancel_left]
    rfl
  refine ⟨?_, ?_, ?_⟩
  · intro j hj
    rw [hbytes j (Nat.lt_of_lt_of_le hj hfits.memory), if_pos hj]
  · intro j hj hj'
    rw [hbytes j hj', if_neg (Nat.not_lt.mpr hj)]
  · intro p hp
    rw [(hplaced p hp).1]
    exact protectedAs_segmentProt h.pFlags

end

end Loading

/-- `st2` holds, at the same place, a file with the program headers of `st` in another
order, the same header and the same contents of the segments. -/
structure Reordered (st st2 : LoaderState) : Prop where
  base : st2.kernelMapBase = st.kernelMapBase
  size : st2.kernelMapSize = st.kernelMapSize
  header : st2.ehdr = st.ehdr
  headers : st.headers.Perm st2.headers
  contents : ∀ h ∈ st.headers, IsLoaded h → ∀ j, j < h.pFilesz →
    st2.mem.bytes (st.kernelMapBase + h.pOffset + j) =
      st.mem.bytes (st.kernelMapBase + h.pOffset + j)
  prot : st2.mem.prot = st.mem.prot

section Order

variable {pageSize : Nat} {st st2 : LoaderState}

theorem Reordered.accepted (h : Reordered st st2) (haccepted : Accepted pageSize st) :
    Accepted pageSize st2 := by
  constructor
  · rw [h.header, h.size]
    exact haccepted.header
  · intro i hi
    rcases List.mem_map.mp (h.headers.mem_iff.mpr (headerAt_mem hi)) with ⟨j, hj, hji⟩
    rcases haccepted.segments j (List.mem_range.mp hj) with ⟨load, hcheck⟩
    refine ⟨load, ?_⟩
    rw [checkSegment_eq_ok] at hcheck ⊢
    rwa [h.size, ← hji]

/-- The regions are the same in another order. -/
theorem Reordered.regions (h : Reordered st st2) :
    (st.regions st.headers).Perm (st2.regions st2.headers) := by
  have hregion : ∀ hdr ∈ st.headers.filter (IsLoaded ·), st.region hdr = st2.region hdr := by
    intro hdr hmem
    rw [List.mem_filter, decide_eq_true_eq] at hmem
    unfold LoaderState.region
    congr 1
    funext j
    by_cases hj : j < hdr.pFilesz
    · rw [if_pos hj, if_pos hj, h.base, h.contents hdr hmem.1 hmem.2 j hj]
    · rw [if_neg hj, if_neg hj]
  unfold LoaderState.regions
  rw [List.map_congr_left hregion]
  exact (h.headers.filter _).map _

/-- The memory that loading the reordered file leaves. -/
theorem Reordered.placed (h : Reordered st st2) (haccepted : Accepted pageSize st)
    (hdisjoint : SegmentsDisjoint st) :
    placeAll pageSize (st2.regions st2.headers) st2.mem =
      placeAll pageSize (st.regions st.headers) st2.mem :=
  (placeAll_perm h.regions (regions_apart haccepted hdisjoint) st2.mem).symm

end Order

/-- **The image of an accepted file.**  The behaviour of `load_kernel_segments` is
defined, the call succeeds and leaves the image of the file in memory if and only if
the file is safe.  Another order of the program headers of a safe file leads to the
same image, the same protections and the same memory elsewhere, if and only if the
file with that order is safe as well. -/
theorem elf_load_image (pageSize : Nat) (st : LoaderState)
    (hmapped : st.kernelMapBase + st.kernelMapSize ≤ 2 ^ 64)
    (haccepted : Accepted pageSize st) (hdisjoint : SegmentsDisjoint st) :
    ((Defined pageSize st ∧ ∃ st', loadKernelSegments pageSize st = .ok st' ∧
        HoldsImage pageSize st st'.mem) ↔ Safe pageSize st) ∧
      (Safe pageSize st → ∀ st2, Reordered st st2 →
        ((Defined pageSize st2 ∧ ∃ st' st2', loadKernelSegments pageSize st = .ok st' ∧
            loadKernelSegments pageSize st2 = .ok st2' ∧ HoldsImage pageSize st st2'.mem ∧
            st2'.mem.prot = st'.mem.prot ∧
            ∀ x, st2.mem.bytes x = st.mem.bytes x → st2'.mem.bytes x = st'.mem.bytes x) ↔
          Safe pageSize st2)) := by
  constructor
  · constructor
    · rintro ⟨hdefined, _⟩
      exact (defined_iff_safe (hdefined.roundSees hmapped haccepted) haccepted).mp hdefined
    · intro hsafe
      have hsees := hsafe.roundSees hmapped haccepted
      exact ⟨(defined_iff_safe hsees haccepted).mpr hsafe, _, loadKernelSegments_eq hsees,
        holdsImage_placeAll haccepted hdisjoint _⟩
  · intro hsafe st2 hreordered
    have hmapped2 : st2.kernelMapBase + st2.kernelMapSize ≤ 2 ^ 64 := by
      rw [hreordered.base, hreordered.size]
      exact hmapped
    have haccepted2 := hreordered.accepted haccepted
    constructor
    · rintro ⟨hdefined, _⟩
      exact (defined_iff_safe (hdefined.roundSees hmapped2 haccepted2) haccepted2).mp hdefined
    · intro hsafe2
      have hsees2 := hsafe2.roundSees hmapped2 haccepted2
      have hload2 := loadKernelSegments_eq hsees2
      rw [hreordered.placed haccepted hdisjoint] at hload2
      rcases @placeAll_congr _ pageSize _ _ (st.regions st.headers) hreordered.prot with
        ⟨hprot, hbytes⟩
      exact ⟨(defined_iff_safe hsees2 haccepted2).mpr hsafe2, _, _,
        loadKernelSegments_eq (hsafe.roundSees hmapped haccepted), hload2,
        holdsImage_placeAll haccepted hdisjoint _, hprot, hbytes⟩

/-! ## Sample files -/

/-- The header of a file with the given size and number of program headers. -/
def sampleEhdr (entsize num : Nat) : List UInt8 :=
  [0x7F, 0x45, 0x4C, 0x46, 2, 1, 1, 0, 0, 0, 0, 0, 0, 0, 0, 0, 2, 0, 62, 0, 1, 0, 0, 0,
    0, 0, 0x40, 0, 0, 0, 0, 0, 64, 0, 0, 0, 0, 0, 0, 0, 0, 0, 0, 0, 0, 0, 0, 0, 0, 0, 0, 0, 64, 0,
    UInt8.ofNat entsize, UInt8.ofNat (entsize / 256), UInt8.ofNat num, UInt8.ofNat (num / 256),
    0, 0, 0, 0, 0, 0]

/-- A read-only segment of `memsz` bytes in the page `page` behind 0x400000, of which
`filesz` come from the file at offset 1. -/
def samplePhdr (page filesz memsz : UInt8) : List UInt8 :=
  [1, 0, 0, 0, 4, 0, 0, 0, 1, 0, 0, 0, 0, 0, 0, 0, 0, 16 * page, 0x40, 0, 0, 0, 0, 0,
    0, 0, 0, 0, 0, 0, 0, 0, filesz, 0, 0, 0, 0, 0, 0, 0, memsz, 0, 0, 0, 0, 0, 0, 0,
    0, 0, 0, 0, 0, 0, 0, 0]

/-- A file at address `2 ^ 40`, whose program headers are zero but for those at offset
`header`, and a loader in a page of its own. -/
def sampleFile (size header entsize num : Nat) (phdrs : List UInt8) : LoaderState where
  mem :=
    { bytes := fun x =>
        if 2 ^ 40 ≤ x ∧ x < 2 ^ 40 + 64 then (sampleEhdr entsize num).getD (x - 2 ^ 40) 0
        else if 2 ^ 40 + header ≤ x ∧ x < 2 ^ 40 + header + phdrs.length then
          phdrs.getD (x - (2 ^ 40 + header)) 0
        else 0
      prot := fun _ => 0 }
  kernelMapBase := 2 ^ 40
  kernelMapSize := size
  own := fun p => p = 0x555555554

/-- Two program headers, for segments in neighbouring pages. -/
def smallFile : LoaderState := sampleFile 176 64 56 2 (samplePhdr 0 2 4 ++ samplePhdr 1 3 9)

/-- The same headers in the other order. -/
def swappedFile : LoaderState := sampleFile 176 64 56 2 (samplePhdr 1 3 9 ++ samplePhdr 0 2 4)

theorem LoaderState.Reads.le {st : LoaderState} {x : Nat} (hx : st.Reads x) :
    st.kernelMapBase ≤ x := by
  rcases hx with hx | ⟨i, _, hx⟩
  · unfold LoaderState.EhdrReads at hx
    omega
  · unfold HeaderReads LoaderState.headerAddress at hx
    omega

/-- A file whose segments lie below its place and below the loader. -/
theorem safe_of_low {st : LoaderState} (hbase : st.kernelMapBase = 2 ^ 40)
    (hown : st.own = fun p => p = 0x555555554)
    (htable : (st.ehdr.ePhnum - 1) * st.ehdr.ePhentsize < 2 ^ 31)
    (hlow : ∀ h ∈ st.headers, h.pVaddr + h.pMemsz ≤ 2 ^ 32) : Safe 4096 st := by
  have hpage : ∀ p, st.Replaces 4096 p → p < 2 ^ 20 := by
    rintro p ⟨h, hmem, _, _, hhi⟩
    have hend := hlow h hmem
    omega
  refine ⟨htable, ?_, ?_⟩
  · intro p hp
    have hlt := hpage p hp
    rw [hown]
    exact decide_eq_false (by omega)
  · intro x hx hp
    have hle := hx.le
    have hlt := hpage _ hp
    omega

theorem smallFile_headers :
    smallFile.headers = [⟨1, 4, 1, 0x400000, 2, 4⟩, ⟨1, 4, 1, 0x401000, 3, 9⟩] := by
  decide +kernel

theorem swappedFile_headers :
    swappedFile.headers = [⟨1, 4, 1, 0x401000, 3, 9⟩, ⟨1, 4, 1, 0x400000, 2, 4⟩] := by
  decide +kernel

theorem smallFile_reordered : Reordered smallFile swappedFile := by
  refine ⟨rfl, rfl, ?_, ?_, ?_, rfl⟩
  · simp only [LoaderState.ehdr, readEhdr, Elf64Ehdr.mk.injEq]
    decide +kernel
  · rw [smallFile_headers, swappedFile_headers]
    exact List.Perm.swap _ _ []
  · intro h hmem _ j hj
    have hheader : h.pOffset = 1 ∧ h.pFilesz ≤ 3 := by
      rw [smallFile_headers] at hmem
      rcases List.mem_pair.mp hmem with rfl | rfl <;> decide
    have hin : 2 ^ 40 ≤ 2 ^ 40 + h.pOffset + j ∧ 2 ^ 40 + h.pOffset + j < 2 ^ 40 + 64 := by omega
    exact (if_pos hin).trans (if_pos hin).symm

/-- Both orders of the two headers are loaded, to the same image. -/
theorem elf_load_image_small :
    ∃ st' st2', Defined 4096 smallFile ∧ loadKernelSegments 4096 smallFile = .ok st' ∧
      Defined 4096 swappedFile ∧ loadKernelSegments 4096 swappedFile = .ok st2' ∧
      st'.mem.bytes 0x400001 = 0x4C ∧ st'.mem.bytes 0x400003 = 0 ∧
      st'.mem.bytes 0x401002 = 0x46 ∧ ProtectedAs 4 (st'.mem.prot 0x401) ∧
      HoldsImage 4096 smallFile st2'.mem ∧ st2'.mem.prot = st'.mem.prot := by
  have hnum : smallFile.ehdr.ePhnum = 2 := by decide +kernel
  have haccepted : Accepted 4096 smallFile := by
    refine ⟨by decide +kernel, ?_⟩
    intro i hi
    rcases (show i = 0 ∨ i = 1 by omega) with rfl | rfl <;> exact ⟨true, by decide +kernel⟩
  have hdisjoint : SegmentsDisjoint smallFile := by
    unfold SegmentsDisjoint
    rw [smallFile_headers]
    decide
  have hsafe : Safe 4096 smallFile := safe_of_low rfl rfl (by decide +kernel) (by
    rw [smallFile_headers]
    decide)
  have hsafe2 : Safe 4096 swappedFile := safe_of_low rfl rfl (by decide +kernel) (by
    rw [swappedFile_headers]
    decide)
  rcases elf_load_image 4096 smallFile (by decide) haccepted hdisjoint with ⟨hiff, horder⟩
  rcases hiff.mpr hsafe with ⟨hdefined, st', hload, himage⟩
  rcases (horder hsafe swappedFile smallFile_reordered).mpr hsafe2 with
    ⟨hdefined2, _, st2', hload', hload2, himage2, hprot, _⟩
  cases hload.symm.trans hload'
  have hmem : ∀ h ∈ smallFile.headers, _ := fun h hh => himage h hh
  rw [smallFile_headers, List.forall_mem_cons, List.forall_mem_singleton] at hmem
  obtain ⟨⟨hfile, hzero, _⟩, hfile', _, hprot'⟩ := hmem.imp (· (by decide)) (· (by decide))
  refine ⟨st', st2', hdefined, hload, hdefined2, hload2, ?_, hzero 3 (by decide) (by decide), ?_,
    hprot' 0x401 (by decide), himage2, hprot⟩
  · rw [hfile 1 (by decide)]
    decide +kernel
  · rw [hfile' 2 (by decide)]
    decide +kernel

/-- A table of 65535 program headers of 65535 bytes each.  Only the one with number
32769 is not zero, the first whose offset in the table is `2 ^ 31` or more. -/
def hugeFile : LoaderState :=
  sampleFile (64 + 65535 * 65535) (64 + 32769 * 65535) 65535 65535 (samplePhdr 0 0 1)

section Huge

theorem hugeFile_zero (hehdr : a + 4 ≤ 2 ^ 40 ∨ 2 ^ 40 + 64 ≤ a)
    (hphdr : a + 4 ≤ 2 ^ 40 + (64 + 32769 * 65535) ∨ 2 ^ 40 + (64 + 32769 * 65535) + 56 ≤ a) :
    (readPhdr hugeFile.mem.bytes a).pType ≠ ptLoad := by
  have hread : readLE hugeFile.mem.bytes a 4 = readLE (fun _ => 0) a 4 := by
    apply readLE_congr
    intro x hx hx'
    show (if _ then _ else if 2 ^ 40 + (64 + 32769 * 65535) ≤ x ∧
      x < 2 ^ 40 + (64 + 32769 * 65535) + 56 then _ else _) = _
    rw [if_neg (by omega), if_neg (by omega)]
  show readLE hugeFile.mem.bytes a 4 ≠ 1
  rw [hread]
  simp [readLE]

theorem hugeFile_ehdr : hugeFile.ehdr.ePhnum = 65535 ∧ hugeFile.ehdr.ePhentsize = 65535 ∧
    hugeFile.ehdr.ePhoff = 64 := by
  decide +kernel

theorem hugeFile_header : hugeFile.headerAt 32769 = ⟨1, 4, 1, 0x400000, 0, 1⟩ := by
  decide +kernel

/-- No other header is to be loaded. -/
theorem hugeFile_other (hne : i ≠ 32769) : (hugeFile.headerAt i).pType ≠ ptLoad := by
  rcases hugeFile_ehdr with ⟨_, hentsize, hoff⟩
  rw [LoaderState.headerAt, LoaderState.headerAddress, hentsize, hoff]
  have hbase : hugeFile.kernelMapBase = 2 ^ 40 := rfl
  rw [hbase]
  apply hugeFile_zero <;> omega

/-- The offset of every header the loop reads is that of a zero header, or is
negative. -/
theorem hugeFile_read (hi : i < 65535) :
    (readPhdr hugeFile.mem.bytes (add64 (2 ^ 40 + 64) (mulInt i 65535))).pType ≠ ptLoad := by
  by_cases hfits : i * 65535 < 2 ^ 31
  · rw [mulInt_of_lt hfits, add64_of_lt (by omega)]
    apply hugeFile_zero <;> omega
  · have hwrap : mulInt i 65535 = i * 65535 + (2 ^ 64 - 2 ^ 32) := by
      unfold mulInt
      rw [Nat.mod_eq_of_lt (by omega), if_neg hfits]
    have hsum : 2 ^ 40 + 64 + mulInt i 65535 = 2 ^ 40 + 64 + i * 65535 - 2 ^ 32 + 2 ^ 64 := by
      rw [hwrap]
      omega
    rw [add64, hsum, Nat.add_mod_right, Nat.mod_eq_of_lt (by omega)]
    apply hugeFile_zero <;> omega

/-- A loop that finds no header to load changes nothing. -/
theorem loadLoop_skips {pageSize phdrTable : Nat} {st : LoaderState}
    (hskip : ∀ i, i < st.ehdr.ePhnum → (readPhdr st.mem.bytes
      (add64 phdrTable (mulInt i st.ehdr.ePhentsize))).pType ≠ ptLoad) (rounds i : Nat) :
    loadLoop pageSize phdrTable rounds i st = .ok st := by
  induction rounds generalizing i with
  | zero => rfl
  | succ rounds ih =>
    have hehdr : readEhdr st.mem.bytes st.kernelMapBase = st.ehdr := rfl
    rw [loadLoop, hehdr]
    by_cases hi : i < st.ehdr.ePhnum
    · rw [if_pos hi]
      simp only [checkSegment, if_pos (hskip i hi), Bool.false_eq_true, if_false]
      exact ih (i + 1)
    · rw [if_neg hi]

/-- The file passes all checks. -/
theorem hugeFile_accepted : Accepted 4096 hugeFile := by
  refine ⟨by decide +kernel, ?_⟩
  intro i _
  by_cases hi : i = 32769
  · rw [hi, hugeFile_header]
    exact ⟨true, by decide +kernel⟩
  · exact ⟨false, if_pos (hugeFile_other hi)⟩

/-- There is at most one segment. -/
theorem segmentsDisjoint_of_only {st : LoaderState} {k : Nat}
    (honly : ∀ i, i ≠ k → ¬IsLoaded (st.headerAt i)) : SegmentsDisjoint st := by
  unfold SegmentsDisjoint LoaderState.headers
  rw [List.filter_map, List.pairwise_map]
  refine (List.pairwise_lt_range.filter _).imp_of_mem ?_
  intro i j hi hj hlt
  have hloaded : ∀ i, i ∈ (List.range st.ehdr.ePhnum).filter
      ((IsLoaded ·) ∘ st.headerAt) → i = k := by
    intro i hi
    by_contra hne
    exact honly i hne (of_decide_eq_true (List.mem_filter.mp hi).2)
  have hi' := hloaded i hi
  have hj' := hloaded j hj
  omega

/-- Nothing is loaded. -/
theorem hugeFile_unchanged : loadKernelSegments 4096 hugeFile = .ok hugeFile := by
  rcases hugeFile_ehdr with ⟨hnum, hentsize, hoff⟩
  have htable : add64 hugeFile.kernelMapBase hugeFile.ehdr.ePhoff = 2 ^ 40 + 64 := by
    rw [hoff]
    decide
  have hehdr : readEhdr hugeFile.mem.bytes hugeFile.kernelMapBase = hugeFile.ehdr := rfl
  rw [loadKernelSegments, hehdr, htable]
  apply loadLoop_skips
  rw [hnum, hentsize]
  exact fun i hi => hugeFile_read hi

end Huge

/-- A file that passes all checks, whose only segment is not loaded: the offset of
its header overflows, and the loop reads memory below the file. -/
theorem elf_load_header_lost :
    Accepted 4096 hugeFile ∧ SegmentsDisjoint hugeFile ∧
      hugeFile.headerAt 32769 ∈ hugeFile.headers ∧ IsLoaded (hugeFile.headerAt 32769) ∧
      loadKernelSegments 4096 hugeFile = .ok hugeFile ∧
      Covers 4096 (hugeFile.headerAt 32769).pVaddr (hugeFile.headerAt 32769).pMemsz 0x400 ∧
      ¬ProtectedAs (hugeFile.headerAt 32769).pFlags (hugeFile.mem.prot 0x400) := by
  have hmem : hugeFile.headerAt 32769 ∈ hugeFile.headers := by
    apply headerAt_mem
    rw [hugeFile_ehdr.1]
    decide
  have hdisjoint : SegmentsDisjoint hugeFile :=
    segmentsDisjoint_of_only fun _ hne hloaded => hugeFile_other hne hloaded.1
  refine ⟨hugeFile_accepted, hdisjoint, hmem, ?_, hugeFile_unchanged, ?_, ?_⟩
  · rw [hugeFile_header]
    decide
  · rw [hugeFile_header]
    decide
  · rw [hugeFile_header]
    rintro ⟨hread, _⟩
    exact hread.mpr (by decide) rfl

end FarouKernel.Ports.Loader
