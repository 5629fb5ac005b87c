import FarouKernel.Verified.ByteMem
import FarouKernel.Verified.Word64

/-!
# `kernel/mydevice.c`

A translation of the character device: its initialization, `my_open`,
`my_release`, `my_read`, `my_write` and `my_ioctl`.

The buffer is the object `malloc` returned, with its own length next to the field
`buffer_size`; an access outside the object has no result (`none`).  An object
has at most `PTRDIFF_MAX` bytes.  The memory a caller passes is the byte memory
from the pointer on, and a null pointer is `none`.  What the environment decides
is a parameter: the result of `sysconf`, whether `malloc` succeeds, the result of
`pthread_mutex_init`.

Every call holds the lock of the device while it uses the buffer, so it is one
function on the device.  A null device is answered with `-EINVAL` before anything
is read; the functions here start after that test.
-/

namespace FarouKernel.Ports.Device

open Verified ByteMem

def defaultPageSize : Nat := 4096

def maxBufferSizeMultiplier : Nat := 10

def einval : Int := 22

def enomem : Int := 12

def enotty : Int := 25

def myIoctlGetBufferSize : Nat := 1

def myIoctlSetBufferSize : Nat := 2

def myIoctlClearBuffer : Nat := 3

def myIoctlGetOpenCount : Nat := 4

/-! ## Objects -/

/-- An object on the heap. -/
structure Object where
  bytes : ByteMem
  size : Nat

/-- `malloc` followed by `memset` to zero. -/
def mallocZeroed (ok : Bool) (size : Nat) : Option Object :=
  if ok = true ∧ size < 2 ^ 63 then some ⟨fun _ => 0, size⟩ else none

/-- `memcpy` from the object to the caller's memory. -/
def Object.copyOut (o : Object) (off n : Nat) (dest : ByteMem) : Option ByteMem :=
  if off + n ≤ o.size then some fun k => if k < n then o.bytes (off + k) else dest k
  else none

/-- `memcpy` from the caller's memory to the object. -/
def Object.copyIn (o : Object) (off n : Nat) (src : ByteMem) : Option Object :=
  if off + n ≤ o.size then
    some { o with
      bytes := fun x => if off ≤ x ∧ x < off + n then src (x - off) else o.bytes x }
  else none

/-- `memset` of the first bytes to zero. -/
def Object.clear (o : Object) (n : Nat) : Option Object :=
  if n ≤ o.size then some { o with bytes := fill o.bytes 0 n 0 } else none

/-! ## The device -/

/-- `struct my_device`. -/
structure MyDevice where
  buffer : Object
  bufferSize : Nat
  openCount : Int

/-- The page size for a result of `sysconf`. -/
def pageSizeToUse (pageSizeVal : Int) : Nat :=
  if 0 < pageSizeVal then pageSizeVal.toNat else defaultPageSize

def myDeviceInit (pageSizeVal : Int) (deviceOk bufferOk : Bool) (mutexRet : Int) :
    Except Int MyDevice :=
  if deviceOk = false then .error (-enomem)
  else
    match mallocZeroed bufferOk (pageSizeToUse pageSizeVal) with
    | none => .error (-enomem)
    | some buffer =>
      if mutexRet ≠ 0 then .error (-mutexRet)
      else .ok ⟨buffer, pageSizeToUse pageSizeVal, 0⟩

/-- An `int` after an addition. -/
def wrapInt (n : Int) : Int := Int.bmod n (2 ^ 32)

def myOpen (dev : MyDevice) : Int × MyDevice :=
  (0, { dev with openCount := wrapInt (dev.openCount + 1) })

def myRelease (dev : MyDevice) : Int × MyDevice :=
  (0, { dev with openCount := wrapInt (dev.openCount - 1) })

/-- What a call returns and leaves behind its pointers. -/
structure CallResult where
  ret : Int
  buf : Option ByteMem
  off : Option Int
  arg : Option Nat

/-- `*off` after `*off += n`. -/
def advance (off : Int) (n : Nat) : Int := toInt64 (add64 off.toNat n)

/-- `my_read`. -/
def myRead (buf : Option ByteMem) (count : Nat) (off : Option Int) (dev : MyDevice) :
    Option (CallResult × MyDevice) :=
  match buf, off with
  | some dest, some o =>
    if o < 0 ∨ dev.bufferSize ≤ o.toNat then some (⟨0, buf, off, none⟩, dev)
    else
      let available := dev.bufferSize - o.toNat
      let readCount := min count available
      if 0 < readCount then do
        let dest' ← dev.buffer.copyOut o.toNat readCount dest
        some (⟨toInt64 readCount, some dest', some (advance o readCount), none⟩, dev)
      else some (⟨0, buf, off, none⟩, dev)
  | _, _ => some (⟨-einval, buf, off, none⟩, dev)

/-- `my_write`. -/
def myWrite (buf : Option ByteMem) (count : Nat) (off : Option Int) (dev : MyDevice) :
    Option (CallResult × MyDevice) :=
  match buf, off with
  | some src, some o =>
    if o < 0 ∨ dev.bufferSize ≤ o.toNat then some (⟨0, buf, off, none⟩, dev)
    else
      let available := dev.bufferSize - o.toNat
      let writeCount := min count available
      if 0 < writeCount then do
        let buffer ← dev.buffer.copyIn o.toNat writeCount src
        some (⟨toInt64 writeCount, buf, some (advance o writeCount), none⟩,
          { dev with buffer := buffer })
      else some (⟨0, buf, off, none⟩, dev)
  | _, _ => some (⟨-einval, buf, off, none⟩, dev)

/-- The branch of `my_ioctl` for `MY_IOCTL_SET_BUFFER_SIZE`. -/
def setBufferSize (pageSizeVal : Int) (mallocOk : Bool) (newSize : Nat) (dev : MyDevice) :
    Int × MyDevice :=
  if newSize = 0 then (-einval, dev)
  else
    let maxSize := maxBufferSizeMultiplier * pageSizeToUse pageSizeVal % 2 ^ 64
    if maxSize < newSize then (-einval, dev)
    else if newSize = dev.bufferSize then (0, dev)
    else
      match mallocZeroed mallocOk newSize with
      | none => (-enomem, dev)
      | some newBuf => (0, { dev with buffer := newBuf, bufferSize := newSize })

/-- The word behind `arg` after an `int` was stored there. -/
def storeInt (word : Nat) (n : Int) : Nat := word - word % 2 ^ 32 + (n % 2 ^ 32).toNat

/-- `my_ioctl`; `arg` is the word behind the pointer. -/
def myIoctl (pageSizeVal : Int) (mallocOk : Bool) (cmd : Nat) (arg : Option Nat)
    (dev : MyDevice) : Option (CallResult × MyDevice) :=
  if cmd = myIoctlGetBufferSize then
    match arg with
    | none => some (⟨-einval, none, none, none⟩, dev)
    | some _ => some (⟨0, none, none, some dev.bufferSize⟩, dev)
  else if cmd = myIoctlSetBufferSize then
    match arg with
    | none => some (⟨-einval, none, none, none⟩, dev)
    | some newSize =>
      let result := setBufferSize pageSizeVal mallocOk newSize dev
      some (⟨result.1, none, none, arg⟩, result.2)
  else if cmd = myIoctlClearBuffer then do
    let buffer ← dev.buffer.clear dev.bufferSize
    some (⟨0, none, none, arg⟩, { dev with buffer := buffer })
  else if cmd = myIoctlGetOpenCount then
    match arg with
    | none => some (⟨-einval, none, none, none⟩, dev)
    | some word => some (⟨0, none, none, some (storeInt word dev.openCount)⟩, dev)
  else some (⟨-enotty, none, none, arg⟩, dev)

end FarouKernel.Ports.Device
