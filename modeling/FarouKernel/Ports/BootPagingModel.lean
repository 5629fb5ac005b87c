import Mathlib.Algebra.Ring.Nat
import FarouKernel.Verified.Word64
import FarouKernel.Verified.LargePages

/-!
# `arch/x86_64/paging.c`

A translation of `paging_init`, `get_next_table` and `map_memory`.  The tables are words of
memory, so two tables that are put on one page are one table.  Where the linker puts the
four static tables is a parameter.

Loading CR3 makes `pml4` the top table, and `translate` is what the processor then does
with an address.
-/

namespace FarouKernel.Ports.BootPaging

open Verified ByteMem
open Verified.PageTables (indexAt virtPath leafOf)

/-! ## `paging.h` -/

def pageSize2Mb : Nat := 2 * 1024 * 1024

def pageNx : Nat := 1 <<< 63

def pagePresent : Nat := 1 <<< 0

def pageRw : Nat := 1 <<< 1

def pageUser : Nat := 1 <<< 2

inductive PageFlags where
  | kernelRw
  | kernelRx
  | userRw
  | userRx
  deriving DecidableEq, Repr

/-- The value of the enumerator. -/
def PageFlags.bits : PageFlags → Nat
  | kernelRw => pagePresent ||| pageRw
  | kernelRx => pagePresent
  | userRw => pagePresent ||| pageRw ||| pageUser
  | userRx => pagePresent ||| pageUser

/-! ## `paging.c` -/

/-- The four static tables: different pages at physical addresses that an entry has room
for. -/
structure Layout where
  pml4 : Nat
  pdpt : Nat
  pd : Nat
  pt : Nat
  aligned : ∀ t ∈ [pml4, pdpt, pd, pt], t % 4096 = 0
  apart : [pml4, pdpt, pd, pt].Nodup
  low : ∀ t ∈ [pml4, pdpt, pd, pt], t < 2 ^ 48

/-- `table[index]`. -/
def entryAt (m : ByteMem) (table index : Nat) : Nat := read64 m (table + 8 * index)

/-- `table[index] = v`. -/
def setEntry (table index v : Nat) (m : ByteMem) : ByteMem := write64 m (table + 8 * index) v

/-- `memset(table, 0, 4096)`. -/
def clearTable (table : Nat) (m : ByteMem) : ByteMem := fill m table 4096 0

/-- `get_next_table`, where 0 is the null pointer. -/
def getNextTable (L : Layout) (table index : Nat) (create : Bool) (m : ByteMem) :
    Nat × ByteMem :=
  if entryAt m table index &&& pagePresent = 0 then
    if create then
      let newTable := L.pd + 4096 * index
      let m := clearTable newTable m
      let m := setEntry table index (newTable ||| pagePresent ||| pageRw) m
      (entryAt m table index &&& not64 0xFFF, m)
    else (0, m)
  else (entryAt m table index &&& not64 0xFFF, m)

/-- An entry of `pd` as the loop of `paging_init` writes it. -/
def identityEntry (i : Nat) : Nat := i * pageSize2Mb ||| pagePresent ||| pageRw ||| pageNx

/-- The loop of `paging_init`, up to some index. -/
def fillDirectory (L : Layout) : Nat → ByteMem → ByteMem
  | 0, m => m
  | i + 1, m => setEntry L.pd i (identityEntry i) (fillDirectory L i m)

/-- `paging_init`. -/
def pagingInit (L : Layout) (m : ByteMem) : ByteMem :=
  let m := clearTable L.pml4 m
  let m := clearTable L.pdpt m
  let m := clearTable L.pd m
  let m := clearTable L.pt m
  let m := fillDirectory L 512 m
  let m := setEntry L.pdpt 0 (L.pd ||| pagePresent ||| pageRw) m
  let m := setEntry L.pml4 0 (L.pdpt ||| pagePresent ||| pageRw) m
  setEntry L.pml4 511 (L.pml4 ||| pagePresent ||| pageRw) m

/-- The variables of the loop of `map_memory`, and the memory. -/
structure MapState where
  vaddr : Nat
  paddr : Nat
  size : Nat
  mem : ByteMem

namespace MapState

/-- The table of the second level for the current address. -/
def pdptTable (L : Layout) (s : MapState) : Nat × ByteMem :=
  getNextTable L L.pml4 (indexAt 39 s.vaddr) true s.mem

/-- The table of the third level for the current address. -/
def pdTable (L : Layout) (s : MapState) : Nat × ByteMem :=
  getNextTable L (s.pdptTable L).1 (indexAt 30 s.vaddr) true (s.pdptTable L).2

/-- The table of the last level for the current address. -/
def ptTable (L : Layout) (s : MapState) : Nat × ByteMem :=
  getNextTable L (s.pdTable L).1 (indexAt 21 s.vaddr) true (s.pdTable L).2

/-- The round maps a page of 2 MiB. -/
def OnLarge (s : MapState) : Prop :=
  pageSize2Mb ≤ s.size ∧ s.vaddr &&& (pageSize2Mb - 1) = 0

instance (s : MapState) : Decidable s.OnLarge := inferInstanceAs (Decidable (_ ∧ _))

/-- The entry of a page of 2 MiB. -/
def largeEntry (flags : PageFlags) (s : MapState) : Nat :=
  s.paddr ||| flags.bits ||| pageNx ||| 1 <<< 7

/-- The entry of a page of 4 KiB. -/
def smallEntry (flags : PageFlags) (s : MapState) : Nat := s.paddr ||| flags.bits ||| pageNx

/-- The variables behind a page of so many bytes. -/
def advance (page : Nat) (m : ByteMem) (s : MapState) : MapState :=
  ⟨add64 s.vaddr page, add64 s.paddr page, sub64 s.size page, m⟩

end MapState

/-- A round of the loop of `map_memory`. -/
def mapStep (L : Layout) (flags : PageFlags) (s : MapState) : MapState :=
  if s.OnLarge then
    s.advance pageSize2Mb
      (setEntry (s.pdTable L).1 (indexAt 21 s.vaddr) (s.largeEntry flags) (s.pdTable L).2)
  else
    s.advance 4096
      (setEntry (s.ptTable L).1 (indexAt 12 s.vaddr) (s.smallEntry flags) (s.ptTable L).2)

/-- The loop of `map_memory`, if it ends within so many rounds. -/
def mapLoop (L : Layout) (flags : PageFlags) (last : Nat) : Nat → MapState → Option ByteMem
  | 0, _ => none
  | rounds + 1, s =>
    if s.vaddr < last then mapLoop L flags last rounds (mapStep L flags s) else some s.mem

/-- `map_memory`: what it returns and the memory it leaves. -/
def mapMemory (L : Layout) (vaddr paddr size : Nat) (flags : PageFlags) (m : ByteMem) :
    Option (Bool × ByteMem) :=
  (mapLoop L flags (add64 vaddr size) (2 ^ 52) ⟨vaddr, paddr, size, m⟩).map fun m => (true, m)

/-! ## The processor -/

/-- The table or the page an entry leads to: bits 12 to 51. -/
def tableOf (e : Nat) : Nat := e / 2 ^ 12 % 2 ^ 40 * 2 ^ 12

/-- The address has no bits of its own above bit 47. -/
def Canonical (v : Nat) : Prop := v < 2 ^ 47 ∨ 2 ^ 64 - 2 ^ 47 ≤ v ∧ v < 2 ^ 64

instance (v : Nat) : Decidable (Canonical v) := inferInstanceAs (Decidable (_ ∨ _))

/-- A page of `2 ^ k` bytes.  Bit 12 of its entry is a flag, and the processor faults if
one of the other bits below the address is set. -/
def largePage (k e v : Nat) : Option Nat :=
  if tableOf e % 2 ^ k / 2 ^ 13 = 0 then some (tableOf e / 2 ^ k * 2 ^ k + v % 2 ^ k) else none

/-- The physical address that a leaf gives to `v`; there are no leaves in the top table. -/
def leafAddress (v : Nat) : Nat × Nat → Option Nat
  | (e, 0) => some (tableOf e + v % 2 ^ 12)
  | (e, 1) => largePage 21 e v
  | (e, 2) => largePage 30 e v
  | _ => none

/-- The translation of an address by the walk from `pml4`. -/
def translate (L : Layout) (m : ByteMem) (v : Nat) : Option Nat :=
  if Canonical v then (leafOf tableOf m L.pml4 (virtPath v)).bind (leafAddress v) else none

end FarouKernel.Ports.BootPaging
