import Mathlib.Order.Basic
import Mathlib.Tactic.Common

/-!
# `fs/devfs.c`: the file in memory

A translation of `devfs_read` and `devfs_write` on the file that `devfs_fill_super`
creates.  Positions are not negative, so the comparisons of `loff_t` with `size_t` are
those of numbers.  Every call holds the lock of the file from its first access to its
last, so calls are made one after the other.

`copy_to_user` and `copy_from_user` move as many bytes as the memory of the caller
allows and fail if these are not all; `copy_from_user` then clears the rest of the
range in the kernel.  Directory, superblock, timestamps and messages are left out, and
so is the check for a file without a buffer, which a mounted file is not.
-/

namespace FarouKernel.Ports.Devfs

def efault : Int := 14

def enospc : Int := 28

/-- `devfs_inode_info`, with `i_size` of the inode. -/
@[ext]
structure DevfsFile where
  buffer : Nat → UInt8
  bufferSize : Nat
  iSize : Nat
  size_le : iSize ≤ bufferSize

/-- The file that `devfs_fill_super` creates, with a buffer from `kzalloc`. -/
def devfsFillSuper (pageSize : Nat) : DevfsFile where
  buffer := fun _ => 0
  bufferSize := pageSize
  iSize := 0
  size_le := Nat.zero_le _

/-- The result of `devfs_read`, `*ppos` behind it and the bytes that reached the
caller. -/
structure ReadResult where
  retval : Int
  pos : Nat
  data : List UInt8
deriving DecidableEq

/-- `devfs_read`; the caller can take `room` bytes. -/
def devfsRead (f : DevfsFile) (pos count room : Nat) : ReadResult :=
  if f.iSize ≤ pos then ⟨0, pos, []⟩
  else
    let count := min count (f.iSize - pos)
    let data := (List.range (min count room)).map fun j => f.buffer (pos + j)
    if room < count then ⟨-efault, pos, data⟩ else ⟨count, pos + count, data⟩

/-- A call of `devfs_write`: `*ppos`, `count`, the bytes at `buf`, and how many of them
the caller can read. -/
structure WriteCall where
  pos : Nat
  count : Nat
  user : Nat → UInt8
  readable : Nat

/-- What `copy_from_user` leaves in the buffer. -/
def DevfsFile.copyFromUser (f : DevfsFile) (w : WriteCall) (count : Nat) : DevfsFile :=
  { f with
    buffer := fun x =>
      if w.pos ≤ x ∧ x < w.pos + count then
        if x - w.pos < w.readable then w.user (x - w.pos) else 0
      else f.buffer x }

/-- The result of `devfs_write`, `*ppos` behind it and the file. -/
structure WriteResult where
  retval : Int
  pos : Nat
  file : DevfsFile

/-- `devfs_write`. -/
def devfsWrite (f : DevfsFile) (w : WriteCall) : WriteResult :=
  if hpos : f.bufferSize ≤ w.pos then ⟨-enospc, w.pos, f⟩
  else
    let count := min w.count (f.bufferSize - w.pos)
    let copied := f.copyFromUser w count
    if w.readable < count then ⟨-efault, w.pos, copied⟩
    else
      ⟨count, w.pos + count,
        if f.iSize < w.pos + count then
          { copied with
            iSize := w.pos + count
            size_le := by
              show w.pos + min w.count (f.bufferSize - w.pos) ≤ f.bufferSize
              omega }
        else copied⟩

end FarouKernel.Ports.Devfs
