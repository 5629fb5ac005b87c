import FarouKernel.Verified.ByteMem
import FarouKernel.Verified.Word64

/-!
# `mm/memalloc.cpp`: the buddy allocator

A translation of `init_memory`, `find_free_block`, `split_block`, `merge_blocks`,
`kmalloc` and `kfree`.  A `memory_block` is a record of 32 bytes, and every access to a
field is a read or write of the bytes of that field: `split_block` computes the address of
its second record from the size of a block in bytes, so records come to overlap.

Two loops of the source need not end.  The loop over the chain follows pointers, and it
goes on forever if it has not ended after as many rounds as there are addresses; the loop
that rounds a size up goes on forever above `2 ^ 63`, where the shift leaves zero.
-/

namespace FarouKernel.Ports.Buddy

open Verified ByteMem

def memorySize : Nat := 2 ^ 20

def blockSize : Nat := 16

/-- The number of elements of `memory_blocks`. -/
def blockCount : Nat := memorySize / blockSize

/-- `sizeof(struct memory_block)`. -/
def recordSize : Nat := 32

/-- The number of 64-bit addresses. -/
def addresses : Nat := 2 ^ 64

/-- `&memory_blocks[i]`, where the array begins at `base`. -/
def recordAddr (base i : Nat) : Nat := base + recordSize * i

/-! ## The fields of a record -/

/-- `block->size`. -/
def sizeAt (m : ByteMem) (block : Nat) : Nat := read64 m block

/-- `block->is_free`. -/
def isFreeAt (m : ByteMem) (block : Nat) : Bool := m (block + 8) != 0

/-- `block->next`. -/
def nextAt (m : ByteMem) (block : Nat) : Nat := read64 m (block + 16)

/-- `block->buddy`. -/
def buddyAt (m : ByteMem) (block : Nat) : Nat := read64 m (block + 24)

/-- `block->size = v`. -/
def setSize (block v : Nat) (m : ByteMem) : ByteMem := write64 m block v

/-- `block->is_free = v`. -/
def setFree (block : Nat) (v : Bool) (m : ByteMem) : ByteMem :=
  fill m (block + 8) 1 (if v then 1 else 0)

/-- `block->next = v`. -/
def setNext (block v : Nat) (m : ByteMem) : ByteMem := write64 m (block + 16) v

/-- `block->buddy = v`. -/
def setBuddy (block v : Nat) (m : ByteMem) : ByteMem := write64 m (block + 24) v

/-! ## `init_memory` -/

/-- One round of the first loop. -/
def clearRecord (block : Nat) (m : ByteMem) : ByteMem :=
  setBuddy block 0 (setNext block 0 (setFree block true (setSize block blockSize m)))

/-- The first loop: all memory blocks are free. -/
def clearLoop (base : Nat) : Nat → ByteMem → ByteMem
  | 0, m => m
  | i + 1, m => clearRecord (recordAddr base i) (clearLoop base i m)

/-- One round of the second loop. -/
def pairRecord (base i : Nat) (m : ByteMem) : ByteMem :=
  if i % 2 = 0 then
    setBuddy (recordAddr base (i + 1)) (recordAddr base i)
      (setBuddy (recordAddr base i) (recordAddr base (i + 1)) m)
  else m

/-- The second loop: the buddy pointers. -/
def pairLoop (base : Nat) : Nat → ByteMem → ByteMem
  | 0, m => m
  | i + 1, m => pairRecord base i (pairLoop base i m)

/-- One round of the third loop, on `current` and the memory. -/
def linkRecord (base i : Nat) (s : Nat × ByteMem) : Nat × ByteMem :=
  let m := setNext s.1 (recordAddr base i) s.2
  (nextAt m s.1, m)

/-- The third loop: all blocks on one chain. -/
def linkLoop (base : Nat) : Nat → ByteMem → Nat × ByteMem
  | 0, m => (recordAddr base 0, m)
  | i + 1, m => linkRecord base (i + 1) (linkLoop base i m)

/-- `init_memory`. -/
def initMemory (base : Nat) (m : ByteMem) : ByteMem :=
  (linkLoop base (blockCount - 1) (pairLoop base blockCount (clearLoop base blockCount m))).2

/-! ## Allocation -/

/-- The loop of `find_free_block`, if it ends within so many rounds. -/
def findLoop (size : Nat) (m : ByteMem) : Nat → Nat → Option Nat
  | 0, _ => none
  | rounds + 1, current =>
    if current = 0 then some 0
    else if isFreeAt m current ∧ size ≤ sizeAt m current then some current
    else findLoop size m rounds (nextAt m current)

/-- `find_free_block`. -/
def findFreeBlock (base size : Nat) (m : ByteMem) : Option Nat :=
  findLoop size m addresses (recordAddr base 0)

/-- `split_block`. -/
def splitBlock (block size : Nat) (m : ByteMem) : ByteMem :=
  let newBlock := add64 block size
  let m := setSize newBlock (sub64 (sizeAt m block) size) m
  let m := setFree newBlock true m
  let m := setNext newBlock (nextAt m block) m
  let m := setBuddy newBlock (buddyAt m block) m
  let m := setSize block size m
  let m := setNext block newBlock m
  let m := setBuddy block (buddyAt m newBlock) m
  setBuddy (buddyAt m newBlock) newBlock m

/-- The loop that rounds a size up, if it ends within so many rounds. -/
def roundLoop (size : Nat) : Nat → Nat → Option Nat
  | 0, _ => none
  | rounds + 1, roundedSize =>
    if roundedSize < size then roundLoop size rounds (roundedSize * 2 % 2 ^ 64)
    else some roundedSize

/-- The nearest power of 2. -/
def roundedSize (size : Nat) : Option Nat := roundLoop size 65 1

/-- The block is split, if it is too large, and handed out. -/
def takeBlock (block roundedSize : Nat) (m : ByteMem) : ByteMem :=
  setFree block false (if roundedSize < sizeAt m block then splitBlock block roundedSize m else m)

/-- `kmalloc`. -/
def kmalloc (base size : Nat) (m : ByteMem) : Option (Nat × ByteMem) := do
  let rounded ← roundedSize size
  let block ← findFreeBlock base rounded m
  if block = 0 then some (0, m) else some (block, takeBlock block rounded m)

/-! ## Freeing -/

/-- `merge_blocks`. -/
def mergeBlocks (block : Nat) (m : ByteMem) : ByteMem :=
  if isFreeAt m (buddyAt m block) then
    let buddy := buddyAt m block
    let m := setSize block (add64 (sizeAt m block) (sizeAt m buddy)) m
    let m := setNext block (nextAt m buddy) m
    let m := setBuddy block (buddyAt m buddy) m
    setBuddy (buddyAt m block) block m
  else m

/-- `kfree`. -/
def kfree (ptr : Nat) (m : ByteMem) : ByteMem := mergeBlocks ptr (setFree ptr true m)

/-! ## Sequences of calls -/

/-- A call of the allocator. -/
inductive Call where
  | kmalloc (size : Nat)
  | kfree (ptr : Nat)

/-- The memory and the blocks that are handed out. -/
structure Config where
  mem : ByteMem
  live : List Nat

/-- The allocator after `init_memory`. -/
def start (base : Nat) (m : ByteMem) : Config := ⟨initMemory base m, []⟩

/-- One call, if it returns. -/
def step (base : Nat) (c : Config) : Call → Option Config
  | .kmalloc size =>
    (kmalloc base size c.mem).map fun (block, m) =>
      ⟨m, if block = 0 then c.live else block :: c.live⟩
  | .kfree ptr => some ⟨kfree ptr c.mem, c.live.erase ptr⟩

end FarouKernel.Ports.Buddy
