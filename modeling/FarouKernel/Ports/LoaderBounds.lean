import FarouKernel.Ports.LoaderImage

/-!
# Where the loader reads and writes

`validate_elf_header` checks with 64-bit arithmetic that the program headers lie in
the file.  The loop of `load_kernel_segments` computes the offset of a header again,
in an `int` and from `e_phentsize` as it is in memory at that time; the header of a
round is the one of the file exactly if the offset fits and `e_phentsize` is still that
of the file.

The copy of a segment is always in bounds.  Its offset and size are read again after
`mmap`, which can only have cleared bytes of the header, so both are at most what the
checks saw.
-/

namespace FarouKernel.Ports.Loader

open Verified ByteMem

/-- The memory after `mmap`, for the header at `a`. -/
def mappedFor (pageSize a : Nat) (s : LoaderState) : PagedMem Nat :=
  mmapFixed pageSize (readPhdr s.mem.bytes a).pVaddr (readPhdr s.mem.bytes a).pMemsz
    (segmentProt (readPhdr s.mem.bytes a).pFlags ||| protWrite) s.mem

/-- `src`, for the header at `a`. -/
def copySource (pageSize a : Nat) (s : LoaderState) : Nat :=
  add64 s.kernelMapBase (readPhdr (mappedFor pageSize a s).bytes a).pOffset

/-- The number of bytes copied, for the header at `a`. -/
def copyLength (pageSize a : Nat) (s : LoaderState) : Nat :=
  (readPhdr (mappedFor pageSize a s).bytes a).pFilesz

section Loop

variable {pageSize i a : Nat} {s : LoaderState}

/-- `mmap` keeps or clears each byte. -/
theorem mappedFor_le (pageSize a x : Nat) (s : LoaderState) :
    ((mappedFor pageSize a s).bytes x).toNat ≤ (s.mem.bytes x).toNat := by
  show ((if _ then 0 else s.mem.bytes x : UInt8)).toNat ≤ _
  split
  · exact Nat.zero_le _
  · exact Nat.le_refl _

/-- The copy reads only the file and writes only the memory of the segment. -/
structure CopyInside (st : LoaderState) (h : Elf64Phdr) (src n : Nat) : Prop where
  reads : ∀ j, j < n →
    st.kernelMapBase ≤ src + j ∧ src + j < st.kernelMapBase + st.kernelMapSize
  writes : n ≤ h.pMemsz

/-- **The copy of a segment is in bounds**, whatever its header. -/
theorem copyInside_of_checked (hmapped : s.kernelMapBase + s.kernelMapSize ≤ 2 ^ 64)
    (hcheck : checkSegment pageSize s.kernelMapSize i (readPhdr s.mem.bytes a) = .ok true) :
    CopyInside s (readPhdr s.mem.bytes a) (copySource pageSize a s) (copyLength pageSize a s) := by
  rcases checkSegment_eq_ok.mp hcheck with ⟨hpasses, hloaded⟩
  have hfits := hpasses.fits (of_decide_eq_true hloaded.symm)
  have hfile := hfits.file
  have hoffset : (readPhdr (mappedFor pageSize a s).bytes a).pOffset ≤
      (readPhdr s.mem.bytes a).pOffset := readLE_le fun x _ _ => mappedFor_le pageSize a x s
  have hfilesz : copyLength pageSize a s ≤ (readPhdr s.mem.bytes a).pFilesz :=
    readLE_le fun x _ _ => mappedFor_le pageSize a x s
  constructor
  · intro j hj
    have hsource : copySource pageSize a s =
        s.kernelMapBase + (readPhdr (mappedFor pageSize a s).bytes a).pOffset :=
      add64_of_lt (by omega)
    rw [hsource]
    omega
  · exact Nat.le_trans hfilesz hfits.memory

end Loop

/-- **Program headers and copies in bounds.**  In a round of the loop with a header of
an accepted file, the product does not overflow, the header read is the `i`-th of the
file and inside it, and a segment that passes the checks is copied from the file into
its own memory, exactly if it is the first round, or the offset of the header in the
table fits an `int` and `e_phentsize` is still that of the file. -/
theorem phdr_access_iff (pageSize : Nat) (st s : LoaderState) (i : Nat)
    (hmapped : st.kernelMapBase + st.kernelMapSize ≤ 2 ^ 64)
    (hvalid : validateElfHeader st.ehdr st.kernelMapSize = .ok ())
    (hi : i < st.ehdr.ePhnum) (hloop : LoopAt pageSize st i s) :
    (i * s.ehdr.ePhentsize < 2 ^ 31 ∧
        phdrAddress st s i = st.kernelMapBase + (st.ehdr.ePhoff + i * st.ehdr.ePhentsize) ∧
        st.ehdr.ePhoff + i * st.ehdr.ePhentsize + phdrSize ≤ st.kernelMapSize ∧
        (checkSegment pageSize s.kernelMapSize i (readPhdr s.mem.bytes (phdrAddress st s i)) =
            .ok true →
          CopyInside st (readPhdr s.mem.bytes (phdrAddress st s i))
            (copySource pageSize (phdrAddress st s i) s)
            (copyLength pageSize (phdrAddress st s i) s))) ↔
      i = 0 ∨ (i * st.ehdr.ePhentsize < 2 ^ 31 ∧ s.ehdr.ePhentsize = st.ehdr.ePhentsize) := by
  have hinside := header_inside hvalid hi
  rcases hloop.base with ⟨hbase, hsize⟩
  constructor
  · rintro ⟨hfits, haddress, _⟩
    apply ((phdrAddress_eq_iff hmapped hinside hfits).mp haddress).imp_right
    intro hsame
    exact ⟨hsame ▸ hfits, hsame⟩
  · intro hcondition
    have hfits : i * s.ehdr.ePhentsize < 2 ^ 31 := by
      rcases hcondition with hzero | ⟨hsmall, hsame⟩
      · rw [hzero, Nat.zero_mul]
        decide
      · rwa [hsame]
    have hsame := hcondition.imp_right And.right
    refine ⟨hfits, (phdrAddress_eq_iff hmapped hinside hfits).mpr hsame, hinside, ?_⟩
    intro hcheck
    have hcopy := copyInside_of_checked (by rwa [hbase, hsize]) hcheck
    refine ⟨?_, hcopy.writes⟩
    rw [← hbase, ← hsize]
    exact hcopy.reads

/-- The second header of the small file, after the first segment was loaded, and its
copy. -/
theorem phdr_access_small :
    ∃ s, LoopAt 4096 smallFile 1 s ∧ phdrAddress smallFile s 1 = 2 ^ 40 + 120 ∧
      CopyInside smallFile (readPhdr s.mem.bytes (2 ^ 40 + 120))
        (copySource 4096 (2 ^ 40 + 120) s) (copyLength 4096 (2 ^ 40 + 120) s) := by
  have hcheck : checkSegment 4096 smallFile.kernelMapSize 0 (readPhdr smallFile.mem.bytes
      (phdrAddress smallFile smallFile 0)) = .ok true := by decide +kernel
  have hloop := LoopAt.start.next (by decide +kernel) hcheck
  rw [if_pos rfl] at hloop
  obtain ⟨_, haddress, _, hcopy⟩ := (phdr_access_iff 4096 smallFile _ 1 (by decide)
    (by decide +kernel) (by decide +kernel) hloop).mpr
      (Or.inr ⟨by decide +kernel, by decide +kernel⟩)
  rw [show smallFile.kernelMapBase + (smallFile.ehdr.ePhoff + 1 * smallFile.ehdr.ePhentsize) =
    2 ^ 40 + 120 by decide +kernel] at haddress
  rw [haddress] at hcopy
  exact ⟨_, hloop, haddress, hcopy (by decide +kernel)⟩

/-- A loop that finds no header to load comes to each of its rounds in the state it
began in. -/
theorem loopAt_skips {pageSize : Nat} {st : LoaderState}
    (hskip : ∀ i, i < st.ehdr.ePhnum →
      (readPhdr st.mem.bytes (phdrAddress st st i)).pType ≠ ptLoad) {i : Nat}
    (hi : i ≤ st.ehdr.ePhnum) : LoopAt pageSize st i st := by
  induction i with
  | zero => exact .start
  | succ i ih =>
    have hcheck : checkSegment pageSize st.kernelMapSize i
        (readPhdr st.mem.bytes (phdrAddress st st i)) = .ok false :=
      if_pos (hskip i (by omega))
    exact (ih (by omega)).next (by omega) hcheck

/-- In round 32769 of the loop over the large table the product overflows, and the
header is read below the file. -/
theorem phdr_access_overflows :
    validateElfHeader hugeFile.ehdr hugeFile.kernelMapSize = .ok () ∧
      LoopAt 4096 hugeFile 32769 hugeFile ∧ 32769 < hugeFile.ehdr.ePhnum ∧
      2 ^ 31 ≤ 32769 * hugeFile.ehdr.ePhentsize ∧
      phdrAddress hugeFile hugeFile 32769 < hugeFile.kernelMapBase := by
  rcases hugeFile_ehdr with ⟨hnum, hentsize, hoff⟩
  have hbase : hugeFile.kernelMapBase = 2 ^ 40 := rfl
  refine ⟨by decide +kernel, ?_, ?_, ?_, ?_⟩
  · apply loopAt_skips
    · intro i hi
      rw [hnum] at hi
      rw [phdrAddress, hentsize, hoff, hbase, show add64 (2 ^ 40) 64 = 2 ^ 40 + 64 by decide]
      exact hugeFile_read hi
    · rw [hnum]
      decide
  · rw [hnum]
    decide
  · rw [hentsize]
    decide
  · rw [phdrAddress, hentsize, hoff, hbase]
    decide

end FarouKernel.Ports.Loader
