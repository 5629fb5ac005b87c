import FarouKernel.Verified.ByteMem
import FarouKernel.Verified.Word64

/-!
# `arch/x86_64/kernel.c`: the simple heap

A translation of `init_heap`, `kmalloc` and `kfree`.  A block begins with a header of two
words, its size and the next free block, and every access to a field is a 64-bit read or
write of memory.  The list is kept in the order in which blocks were freed.

The loop of `kmalloc` follows pointers, so it takes a number of rounds; there are never
as many blocks as the heap has bytes.
-/

namespace FarouKernel.Ports.SimpleHeap

open Verified ByteMem

def heapStart : Nat := 0x100000

def heapSize : Nat := 0x100000

/-- `sizeof(free_block_t)`. -/
def headerSize : Nat := 16

/-- The memory and `free_list`. -/
structure HeapState where
  mem : ByteMem
  freeList : Nat

/-- `block->size`. -/
def sizeAt (m : ByteMem) (block : Nat) : Nat := read64 m block

/-- `block->next`. -/
def nextAt (m : ByteMem) (block : Nat) : Nat := read64 m (block + 8)

/-- `block->size = v`. -/
def setSize (block v : Nat) (m : ByteMem) : ByteMem := write64 m block v

/-- `block->next = v`. -/
def setNext (block v : Nat) (m : ByteMem) : ByteMem := write64 m (block + 8) v

/-- The machine before `init_heap`. -/
def boot (m : ByteMem) : HeapState := ⟨m, heapStart⟩

/-- `init_heap`. -/
def initHeap (s : HeapState) : HeapState :=
  { s with mem := setNext s.freeList 0 (setSize s.freeList (heapSize - headerSize) s.mem) }

/-- The size rounded up to a multiple of 8. -/
def roundedSize (size : Nat) : Nat := add64 size 7 &&& not64 7

/-- A block is split behind so many bytes. -/
def splitBlock (size current : Nat) (m : ByteMem) : ByteMem :=
  let newBlock := current + headerSize + size
  let m := setSize newBlock (sub64 (sub64 (sizeAt m current) size) headerSize) m
  let m := setNext newBlock (nextAt m current) m
  let m := setSize current size m
  setNext current newBlock m

/-- A block is taken off the list. -/
def unlink (previous current : Nat) (s : HeapState) : HeapState :=
  if previous ≠ 0 then { s with mem := setNext previous (nextAt s.mem current) s.mem }
  else { s with freeList := nextAt s.mem current }

/-- A block that is large enough is split, if it is too large, and taken off the list. -/
def takeBlock (size previous current : Nat) (s : HeapState) : HeapState :=
  let s := if add64 size headerSize < sizeAt s.mem current then
      { s with mem := splitBlock size current s.mem }
    else s
  unlink previous current s

/-- The loop of `kmalloc`, if it ends within so many rounds. -/
def kmallocLoop (size : Nat) : Nat → Nat → Nat → HeapState → Option (Nat × HeapState)
  | 0, _, _, _ => none
  | rounds + 1, previous, current, s =>
    if current = 0 then some (0, s)
    else if size ≤ sizeAt s.mem current then
      some (current + headerSize, takeBlock size previous current s)
    else kmallocLoop size rounds current (nextAt s.mem current) s

/-- `kmalloc`. -/
def kmalloc (size : Nat) (s : HeapState) : Option (Nat × HeapState) :=
  kmallocLoop (roundedSize size) heapSize 0 s.freeList s

/-- `kfree`. -/
def kfree (ptr : Nat) (s : HeapState) : HeapState :=
  let block := sub64 ptr headerSize
  ⟨setNext block s.freeList s.mem, block⟩

end FarouKernel.Ports.SimpleHeap
