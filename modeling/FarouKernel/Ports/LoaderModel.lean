import FarouKernel.Verified.Regions
import FarouKernel.Verified.Word64

/-!
# `kernel/startup.c`: the ELF loader

A translation of `validate_elf_header` and `load_kernel_segments`.  The file is
mapped at `kernel_map_base` in the same memory the segments are loaded into, and
every access through `ehdr` or `phdr` reads that memory, so a segment can
overwrite the file it comes from.

`mmap` (fixed, anonymous) and `mprotect` always succeed; they act on whole pages.
The product `i * ehdr->e_phentsize` has the type `int`; its overflow is modelled
as the wrap-around of the machine.  Warnings and prefetches are left out.
-/

namespace FarouKernel.Ports.Loader

open Verified ByteMem

/-! ## The file format -/

/-- `ELFMAG`, of `SELFMAG` bytes. -/
def elfMag : List UInt8 := [0x7F, 0x45, 0x4C, 0x46]

/-- `EXPECTED_ELF_CLASS`, that is `ELFCLASS64`. -/
def expectedElfClass : UInt8 := 2

def elfData2Lsb : UInt8 := 1

def elfData2Msb : UInt8 := 2

def evCurrent : UInt8 := 1

def etExec : Nat := 2

/-- `EXPECTED_ELF_MACHINE`, that is `EM_X86_64`. -/
def expectedElfMachine : Nat := 62

/-- `sizeof(Elf64_Ehdr)`. -/
def ehdrSize : Nat := 64

/-- `sizeof(Elf64_Phdr)`. -/
def phdrSize : Nat := 56

def ptLoad : Nat := 1

def pfX : Nat := 1

def pfW : Nat := 2

def pfR : Nat := 4

def protNone : Nat := 0

def protRead : Nat := 1

def protWrite : Nat := 2

def protExec : Nat := 4

/-- The fields of `Elf64_Ehdr` that are used. -/
structure Elf64Ehdr where
  magic : List UInt8
  eiClass : UInt8
  eiData : UInt8
  eiVersion : UInt8
  eType : Nat
  eMachine : Nat
  eEntry : Nat
  ePhoff : Nat
  eEhsize : Nat
  ePhentsize : Nat
  ePhnum : Nat

/-- The fields of `Elf64_Phdr` that are used. -/
structure Elf64Phdr where
  pType : Nat
  pFlags : Nat
  pOffset : Nat
  pVaddr : Nat
  pFilesz : Nat
  pMemsz : Nat
deriving DecidableEq

/-- `*ehdr`. -/
def readEhdr (m : ByteMem) (a : Nat) : Elf64Ehdr where
  magic := [m a, m (a + 1), m (a + 2), m (a + 3)]
  eiClass := m (a + 4)
  eiData := m (a + 5)
  eiVersion := m (a + 6)
  eType := readLE m (a + 16) 2
  eMachine := readLE m (a + 18) 2
  eEntry := readLE m (a + 24) 8
  ePhoff := readLE m (a + 32) 8
  eEhsize := readLE m (a + 52) 2
  ePhentsize := readLE m (a + 54) 2
  ePhnum := readLE m (a + 56) 2

/-- `*phdr`. -/
def readPhdr (m : ByteMem) (a : Nat) : Elf64Phdr where
  pType := readLE m a 4
  pFlags := readLE m (a + 4) 4
  pOffset := readLE m (a + 8) 8
  pVaddr := readLE m (a + 16) 8
  pFilesz := readLE m (a + 32) 8
  pMemsz := readLE m (a + 40) 8

/-! ## Errors -/

/-- What the loader prints before it exits: the arguments of `fail`, or the format
and the values of an error in a segment. -/
inductive LoadError where
  | fail (funcName msg : String) (showErrno : Bool)
  | segment (format : String) (values : List Nat)
deriving DecidableEq

/-- A check that ends the program. -/
def failIf (bad : Bool) (e : LoadError) : Except LoadError Unit :=
  if bad = true then .error e else .ok ()

/-- `validate_elf_header`. -/
def validateElfHeader (ehdr : Elf64Ehdr) (fileSize : Nat) : Except LoadError Unit := do
  failIf (ehdr.magic ≠ elfMag) (.fail "validate_elf_header" "Invalid ELF magic number" false)
  failIf (ehdr.eiClass ≠ expectedElfClass)
    (.fail "validate_elf_header" "Incorrect ELF class (expected 64-bit)" false)
  failIf (ehdr.eiData ≠ elfData2Lsb ∧ ehdr.eiData ≠ elfData2Msb)
    (.fail "validate_elf_header" "Invalid ELF data encoding" false)
  failIf (ehdr.eiVersion ≠ evCurrent) (.fail "validate_elf_header" "Invalid ELF version" false)
  failIf (ehdr.eType ≠ etExec)
    (.fail "validate_elf_header" "ELF file is not an executable type" false)
  failIf (ehdr.eMachine ≠ expectedElfMachine)
    (.fail "validate_elf_header" "Incorrect ELF machine architecture" false)
  failIf (ehdr.eEhsize < ehdrSize)
    (.fail "validate_elf_header" "Invalid ELF header size in header" false)
  failIf (ehdr.ePhentsize < phdrSize)
    (.fail "validate_elf_header" "Invalid Program Header entry size in header" false)
  failIf (ehdr.ePhnum = 0) (.fail "validate_elf_header" "No program headers found" false)
  failIf (ehdr.ePhoff = 0 ∨ ehdr.ePhoff > fileSize)
    (.fail "validate_elf_header" "Program header table offset out of bounds" false)
  failIf (2 ^ 64 ≤ ehdr.ePhnum * ehdr.ePhentsize)
    (.fail "validate_elf_header" "Integer overflow calculating program header table size" false)
  failIf (2 ^ 64 ≤ ehdr.ePhoff + ehdr.ePhnum * ehdr.ePhentsize)
    (.fail "validate_elf_header" "Integer overflow calculating program header table end offset"
      false)
  failIf (ehdr.ePhoff + ehdr.ePhnum * ehdr.ePhentsize > fileSize)
    (.fail "validate_elf_header" "Program header table extends beyond file end" false)
  failIf (ehdr.eEntry = 0) (.fail "validate_elf_header" "ELF entry point is NULL" false)

/-! ## Loading -/

/-- The memory, and `kernel_map_base` and `kernel_map_size` of `g_context`.  The pages
`own` are those the loader itself lives in, with its code, its stack and `g_context`;
what becomes of a program whose own pages are replaced is not modelled. -/
structure LoaderState where
  mem : PagedMem Nat
  kernelMapBase : Nat
  kernelMapSize : Nat
  own : Nat → Bool

/-- The checks on the `i`-th program header; the result says whether there is a
segment to load. -/
def checkSegment (pageSize mapSize i : Nat) (phdr : Elf64Phdr) : Except LoadError Bool :=
  if phdr.pType ≠ ptLoad then .ok false
  else do
    failIf (phdr.pOffset > mapSize)
      (.segment "Segment %u offset (0x%PRIx64) out of file bounds (0x%zx)"
        [i, phdr.pOffset, mapSize])
    failIf (2 ^ 64 ≤ phdr.pOffset + phdr.pFilesz)
      (.segment "Integer overflow calculating segment %u file end" [i])
    failIf (phdr.pOffset + phdr.pFilesz > mapSize)
      (.segment "Segment %u file data (offset 0x%PRIx64, size 0x%PRIx64) extends beyond file end (0x%zx)"
        [i, phdr.pOffset, phdr.pFilesz, mapSize])
    failIf (phdr.pMemsz < phdr.pFilesz)
      (.segment "Segment %u memory size (0x%PRIx64) is less than file size (0x%PRIx64)"
        [i, phdr.pMemsz, phdr.pFilesz])
    if phdr.pMemsz = 0 then .ok false
    else do
      failIf (pageSize = 0)
        (.fail "load_kernel_segments" "Failed to get system page size" true)
      failIf (phdr.pVaddr % pageSize ≠ 0)
        (.segment "Segment %u virtual address (0x%PRIx64) is not page aligned (page size %ld)"
          [i, phdr.pVaddr, pageSize])
      failIf (2 ^ 64 ≤ phdr.pVaddr + phdr.pMemsz)
        (.segment "Integer overflow calculating segment %u memory end address (vaddr 0x%PRIx64, size 0x%PRIx64)"
          [i, phdr.pVaddr, phdr.pMemsz])
      .ok true

/-- The protection of a segment. -/
def segmentProt (pFlags : Nat) : Nat :=
  let prot := protNone
  let prot := if pFlags &&& pfR ≠ 0 then prot ||| protRead else prot
  let prot := if pFlags &&& pfW ≠ 0 then prot ||| protWrite else prot
  if pFlags &&& pfX ≠ 0 then prot ||| protExec else prot

/-- `mmap` with `MAP_FIXED | MAP_ANONYMOUS`. -/
def mmapFixed (pageSize addr length prot : Nat) (m : PagedMem Nat) : PagedMem Nat where
  bytes x := if Covers pageSize addr length (x / pageSize) then 0 else m.bytes x
  prot p := if Covers pageSize addr length p then prot else m.prot p

def mprotect (pageSize addr length prot : Nat) (m : PagedMem Nat) : PagedMem Nat :=
  { m with prot := fun p => if Covers pageSize addr length p then prot else m.prot p }

def memcpy (dest src n : Nat) (m : PagedMem Nat) : PagedMem Nat :=
  { m with bytes := fun x =>
      if dest ≤ x ∧ x < dest + n then m.bytes (src + (x - dest)) else m.bytes x }

/-- Mapping, copying and protecting a segment; `phdr` is the address of its
header, which is read again after each step. -/
def loadSegment (pageSize phdr : Nat) (st : LoaderState) : LoaderState :=
  let prot := segmentProt (readPhdr st.mem.bytes phdr).pFlags
  let dest := (readPhdr st.mem.bytes phdr).pVaddr
  let mapSize := (readPhdr st.mem.bytes phdr).pMemsz
  let m := mmapFixed pageSize dest mapSize (prot ||| protWrite) st.mem
  let m :=
    if (readPhdr m.bytes phdr).pFilesz > 0 then
      memcpy dest (add64 st.kernelMapBase (readPhdr m.bytes phdr).pOffset)
        (readPhdr m.bytes phdr).pFilesz m
    else m
  let m :=
    if (readPhdr m.bytes phdr).pFlags &&& pfW = 0 then mprotect pageSize dest mapSize prot m else m
  { st with mem := m }

/-- A product of type `int`, as the 64-bit offset it is extended to. -/
def mulInt (a b : Nat) : Nat :=
  if a * b % 2 ^ 32 < 2 ^ 31 then a * b % 2 ^ 32 else a * b % 2 ^ 32 + (2 ^ 64 - 2 ^ 32)

/-- The loop of `load_kernel_segments` from the `i`-th header on.  The index has
16 bits, so there are less than `2 ^ 16` rounds. -/
def loadLoop (pageSize phdrTable : Nat) :
    Nat → Nat → LoaderState → Except LoadError LoaderState
  | 0, _, st => .ok st
  | rounds + 1, i, st =>
    if i < (readEhdr st.mem.bytes st.kernelMapBase).ePhnum then
      let phdr := add64 phdrTable (mulInt i (readEhdr st.mem.bytes st.kernelMapBase).ePhentsize)
      match checkSegment pageSize st.kernelMapSize i (readPhdr st.mem.bytes phdr) with
      | .error e => .error e
      | .ok load =>
        loadLoop pageSize phdrTable rounds (i + 1)
          (if load = true then loadSegment pageSize phdr st else st)
    else .ok st

/-- `load_kernel_segments`; `pageSize` is the result of `sysconf`, 0 if that is
not positive. -/
def loadKernelSegments (pageSize : Nat) (st : LoaderState) : Except LoadError LoaderState :=
  loadLoop pageSize
    (add64 st.kernelMapBase (readEhdr st.mem.bytes st.kernelMapBase).ePhoff) (2 ^ 16) 0 st

end FarouKernel.Ports.Loader
