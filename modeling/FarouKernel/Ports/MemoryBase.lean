import FarouKernel.Verified.Exec
import FarouKernel.Verified.Word64

/-!
# `kernel/memory.c`: constants, assertions and alignment

The layout constants and the two helpers every part of `kernel/memory.c`
shares: the `ASSERT` macro over `kpanic`, and `align_down`/`align_up`.

`align_up` adds before it masks, both modulo `2 ^ 64`, so it rounds to *zero*
when the value is within one alignment unit of `2 ^ 64`.  `alignUp_two_pow`
states the wrapped closed form; a caller that has to exclude the wrap says so
with a bound.
-/

namespace FarouKernel.Ports.Memory

open Verified

def pageSize : Nat := 0x1000

def kernelVmaOffset : Nat := 0xFFFF800000000000

def kernelHeapStart : Nat := kernelVmaOffset + 0x40000000

def kernelHeapMaxSize : Nat := pageSize * 1024 * 16

/-- `ASSERT(cond)`: a failed assertion is a `kpanic` with the text of the
condition. -/
def kassert {σ : Type} (c : Prop) [Decidable c] (text : String) : Exec σ Unit :=
  Exec.require c ("Assertion failed: " ++ text)

@[simp] theorem kassert_of {σ : Type} (c : Prop) [Decidable c] (text : String) (s : σ)
    (h : c) : kassert c text s = .ok () s :=
  Exec.require_of c _ s h

@[simp] theorem kassert_of_not {σ : Type} (c : Prop) [Decidable c] (text : String)
    (s : σ) (h : ¬c) : kassert c text s = .panic ("Assertion failed: " ++ text) s :=
  Exec.require_of_not c _ s h

def alignDown (val align : Nat) : Nat := val &&& not64 (sub64 align 1)

def alignUp (val align : Nat) : Nat := alignDown (sub64 (add64 val align) 1) align

theorem alignDown_two_pow {val k : Nat} (hval : val < 2 ^ 64) (hk : k < 64) :
    alignDown val (2 ^ k) = val / 2 ^ k * 2 ^ k := by
  have hpow : 2 ^ k < 2 ^ 64 := Nat.pow_lt_pow_right (by decide) hk
  have hpos : 0 < 2 ^ k := Nat.two_pow_pos k
  rw [alignDown, sub64_of_le hpos hpow, and_not64_lowMask hval (Nat.le_of_lt hk)]

/-- Rounding up to a power of two, with the wrap the code has. -/
theorem alignUp_two_pow {val k : Nat} (hk : k < 64) :
    alignUp val (2 ^ k) = (val + 2 ^ k - 1) % 2 ^ 64 / 2 ^ k * 2 ^ k := by
  have hpos : 0 < 2 ^ k := Nat.two_pow_pos k
  have hsum : sub64 (add64 val (2 ^ k)) 1 = (val + 2 ^ k - 1) % 2 ^ 64 := by
    unfold sub64 add64
    omega
  rw [alignUp, alignDown_two_pow (sub64_lt _ _) hk, hsum]

/-- `align_down` to a page. -/
theorem alignDown_page {val : Nat} (h : val < 2 ^ 64) :
    alignDown val pageSize = val / 4096 * 4096 :=
  alignDown_two_pow (k := 12) h (by decide)

/-- `align_up` to a page. -/
theorem alignUp_page (val : Nat) :
    alignUp val pageSize = (val + 4095) % 2 ^ 64 / 4096 * 4096 :=
  alignUp_two_pow (k := 12) (by decide)

/-- `align_up` to 16 bytes. -/
theorem alignUp_sixteen (val : Nat) :
    alignUp val 16 = (val + 15) % 2 ^ 64 / 16 * 16 :=
  alignUp_two_pow (k := 4) (by decide)

/-- `align_up` to 64, the number of frames one bitmap word covers. -/
theorem alignUp_sixtyFour (val : Nat) :
    alignUp val 64 = (val + 63) % 2 ^ 64 / 64 * 64 :=
  alignUp_two_pow (k := 6) (by decide)

/-- The wrap of `align_up`: one byte below `2 ^ 64` rounds to zero. -/
example : alignUp (2 ^ 64 - 1) 16 = 0 := by decide

end FarouKernel.Ports.Memory
