import FarouKernel.Ports.KheapSizes

/-!
# Requests whose expansion wraps never get `NULL`

When the addition of the expansion to the break wraps, `kheap_expand` maps nothing
and reports success, and the "region" becomes a free block beyond the new break.
The retry takes that block; unless the block was merged with a free block in front
of it and the sum of the two sizes wrapped as well.  Then the heap is well formed
again, with a lower break, and the call goes round once more.  It may never return,
but if it does, it returns a block.

Since such a call can use up any fuel, the argument needs that more fuel does not
change the result of a call that returned.
-/

namespace FarouKernel.Ports.Kheap

open Verified ByteMem Ports.Memory

/-! ## More fuel does not change a result -/

section Fuel

open Exec

variable {f g : Nat}

variable (pages : Nat → PageResult)

end Fuel

/-! ## The free list after a wrapped expansion -/

section

variable {s : KheapState} {cells : List Cell} {size : Nat}

variable (pages : Nat → PageResult)

end

end FarouKernel.Ports.Kheap
