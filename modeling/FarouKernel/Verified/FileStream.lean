import Mathlib.Data.List.TakeWhile
import Mathlib.Tactic.Common

/-!
# The file streams of C++

A stream over the bytes of a file, with one position for reading and writing and the
three error flags.  An operation begins with a `sentry`: unless the stream is good, it
sets `failbit`, and the operation does nothing.  `seekg` clears `eofbit` before that.

Positions are unbounded.  A stream that is not good stays so until it is cleared.
-/

namespace FarouKernel.Verified

/-- A stream. -/
structure FileStream where
  /-- `ios_base::app` -/
  app : Bool
  content : List UInt8
  pos : Nat
  eofbit : Bool
  failbit : Bool
  badbit : Bool

variable {newline : UInt8}

namespace FileStream

def good (s : FileStream) : Bool := !s.eofbit && !s.failbit && !s.badbit

def fail (s : FileStream) : Bool := s.failbit || s.badbit

def clear (s : FileStream) : FileStream :=
  { s with eofbit := false, failbit := false, badbit := false }

/-- What a failed sentry leaves. -/
def refused (s : FileStream) : FileStream := { s with failbit := true }

/-- The bytes from the position on. -/
def rest (s : FileStream) : List UInt8 := s.content.drop s.pos

def tellg (s : FileStream) : Int × FileStream :=
  if s.good = true then (s.pos, s) else (-1, s.refused)

/-- The stream as `seekg` takes it, without the mark of the end. -/
def offEnd (s : FileStream) : FileStream := { s with eofbit := false }

/-- `seekg` to a position from the beginning, which may be negative. -/
def seekg (target : Int) (s : FileStream) : FileStream :=
  if s.offEnd.good = true then
    if 0 ≤ target then { s.offEnd with pos := target.toNat } else { s.offEnd with failbit := true }
  else s.offEnd.refused

/-- The stream at its end, after a `getline` that has found no line end. -/
def atEnd (s : FileStream) : FileStream :=
  { s with pos := s.pos + s.rest.length, eofbit := true, failbit := s.rest.isEmpty }

/-- `std::getline`. -/
def getline (newline : UInt8) (s : FileStream) : List UInt8 × FileStream :=
  if s.good = true then
    let line := s.rest.takeWhile (· ≠ newline)
    if newline ∈ s.rest then (line, { s with pos := s.pos + (line.length + 1) })
    else (line, s.atEnd)
  else ([], s.refused)

/-- `read`, with the bytes that `gcount` counts. -/
def read (count : Nat) (s : FileStream) : List UInt8 × FileStream :=
  if s.good = true then
    let data := s.rest.take count
    let short := decide (data.length < count)
    (data, { s with pos := s.pos + data.length, eofbit := short, failbit := short })
  else ([], s.refused)

/-- Everything up to the end, by way of the buffer: the flags are not looked at. -/
def drain (s : FileStream) : List UInt8 × FileStream :=
  (s.rest, { s with pos := s.pos + s.rest.length })

/-- `seekp` to a position from the beginning, which may be negative. -/
def seekp (target : Int) (s : FileStream) : FileStream :=
  if s.fail = true then s
  else if 0 ≤ target then { s with pos := target.toNat }
  else { s with failbit := true }

/-- Where the next write goes. -/
def writePos (s : FileStream) : Nat := if s.app = true then s.content.length else s.pos

/-- `write`; `accepted` says whether the buffer takes the bytes.  A gap in front of the
position is filled with zeros. -/
def write (accepted : Bool) (bytes : List UInt8) (s : FileStream) : FileStream :=
  if s.good = true then
    if accepted = true then
      { s with
        content := s.content.take s.writePos ++
          List.replicate (s.writePos - s.content.length) 0 ++ bytes ++
          s.content.drop (s.writePos + bytes.length)
        pos := s.writePos + bytes.length }
    else { s with badbit := true }
  else s.refused

/-- The stream with nothing but its position changed. -/
def moved (s : FileStream) (pos : Nat) : FileStream := { s with pos := pos }

/-! ## Streams that are good -/

section Good

variable {s : FileStream}

theorem good_iff : s.good = true ↔ s.eofbit = false ∧ s.failbit = false ∧ s.badbit = false := by
  simp [good, and_assoc]

@[simp] theorem moved_content (s : FileStream) (pos : Nat) :
    (s.moved pos).content = s.content := rfl

@[simp] theorem moved_pos (s : FileStream) (pos : Nat) : (s.moved pos).pos = pos := rfl

@[simp] theorem moved_good (s : FileStream) (pos : Nat) : (s.moved pos).good = s.good := rfl

@[simp] theorem moved_moved (s : FileStream) (p q : Nat) : (s.moved p).moved q = s.moved q := rfl

theorem tellg_good (h : s.good = true) : s.tellg = ((s.pos : Int), s) := if_pos h

theorem seekg_good (h : s.good = true) (target : Nat) : s.seekg target = s.moved target := by
  have heof : s.offEnd = s := by
    cases s
    rw [good_iff] at h
    simp only at h
    rw [offEnd, h.1]
  unfold seekg
  rw [heof, if_pos h, if_pos (Int.natCast_nonneg target), Int.toNat_natCast]
  rfl

theorem clear_good (s : FileStream) : s.clear.good = true := rfl

theorem clear_of_good (h : s.good = true) : s.clear = s := by
  cases s
  rw [good_iff] at h
  simp only at h
  rw [clear, h.1, h.2.1, h.2.2]

/-- Going back to where the stream was. -/
theorem seekg_back (h : s.good = true) (p : Nat) : (s.moved p).clear.seekg s.pos = s := by
  have hmoved : (s.moved p).good = true := h
  rw [clear_of_good hmoved, seekg_good hmoved]
  rfl

theorem getline_mem (h : s.good = true) (hmem : newline ∈ s.rest) :
    s.getline newline = (s.rest.takeWhile (· ≠ newline),
      s.moved (s.pos + ((s.rest.takeWhile (· ≠ newline)).length + 1))) := by
  unfold getline
  rw [if_pos h]
  exact if_pos hmem

/-- A line with its end is taken off the stream. -/
theorem getline_line {line tail : List UInt8} (h : s.good = true)
    (hrest : s.rest = line ++ newline :: tail) (hline : newline ∉ line) :
    s.getline newline = (line, s.moved (s.pos + (line.length + 1))) ∧
      (s.moved (s.pos + (line.length + 1))).rest = tail := by
  have htake : s.rest.takeWhile (· ≠ newline) = line := by
    rw [hrest, List.takeWhile_append_of_pos, List.takeWhile_cons_of_neg, List.append_nil]
    · simp
    · intro b hb
      simpa using fun heq : b = newline => hline (heq ▸ hb)
  have hmem : newline ∈ s.rest := by
    rw [hrest]
    simp
  constructor
  · rw [getline_mem h hmem, htake]
  · show s.content.drop (s.pos + (line.length + 1)) = tail
    rw [← List.drop_drop]
    change s.rest.drop (line.length + 1) = tail
    rw [hrest, ← List.drop_drop, List.drop_left, List.drop_one, List.tail_cons]

/-- Without a line end the stream comes to its end. -/
theorem getline_end (h : s.good = true) (hmem : newline ∉ s.rest) :
    s.getline newline = (s.rest, s.atEnd) := by
  have htake : s.rest.takeWhile (· ≠ newline) = s.rest := by
    rw [List.takeWhile_eq_self_iff]
    intro b hb
    simpa using fun heq : b = newline => hmem (heq ▸ hb)
  unfold getline
  rw [if_pos h]
  simp only
  rw [htake, if_neg hmem]

theorem atEnd_not_good (s : FileStream) : s.atEnd.good = false := rfl

theorem atEnd_fail (h : s.good = true) : s.atEnd.fail = s.rest.isEmpty := by
  rw [fail, atEnd, (good_iff.mp h).2.2, Bool.or_false]

theorem atEnd_rest (s : FileStream) : s.atEnd.rest = [] := by
  have hlen : s.content.length ≤ s.pos + s.rest.length := by
    rw [rest, List.length_drop]
    omega
  exact List.drop_of_length_le hlen

/-- Apart from the flags, `getline` changes the position only. -/
theorem clear_getline {line : List UInt8} {s' : FileStream}
    (hrun : s.getline newline = (line, s')) :
    ∃ p, s'.clear = s.clear.moved p := by
  have hstream : s' = (s.getline newline).2 := by rw [hrun]
  rw [hstream, getline]
  split
  · dsimp only
    split <;> exact ⟨_, rfl⟩
  · exact ⟨s.pos, rfl⟩

theorem fail_of_good (h : s.good = true) : s.fail = false := by
  rw [fail, (good_iff.mp h).2.1, (good_iff.mp h).2.2]
  rfl

/-- There are enough bytes. -/
theorem read_enough {count : Nat} (h : s.good = true) (hcount : count ≤ s.rest.length) :
    s.read count = (s.rest.take count, s.moved (s.pos + count)) := by
  have hlen : (s.rest.take count).length = count := List.length_take_of_le hcount
  unfold read
  rw [if_pos h]
  simp only [hlen, Nat.lt_irrefl, decide_false]
  rw [moved, (good_iff.mp h).1, (good_iff.mp h).2.1]

/-- There are not enough bytes. -/
theorem read_short {count : Nat} (h : s.good = true) (hcount : s.rest.length < count) :
    s.read count = (s.rest, { s with
      pos := s.pos + s.rest.length
      eofbit := true
      failbit := true }) := by
  have htake : s.rest.take count = s.rest := List.take_of_length_le (Nat.le_of_lt hcount)
  unfold read
  rw [if_pos h]
  simp only [htake, hcount, decide_true]

/-- Writing at the end appends. -/
theorem write_end (h : s.good = true) (hend : s.writePos = s.content.length)
    (bytes : List UInt8) :
    (s.write true bytes).good = true ∧ (s.write true bytes).content = s.content ++ bytes ∧
      (s.write true bytes).writePos = (s.write true bytes).content.length := by
  have hwrite : s.write true bytes =
      { s with content := s.content ++ bytes, pos := s.content.length + bytes.length } := by
    unfold write
    rw [if_pos h, if_pos rfl, hend, List.take_length, Nat.sub_self, List.replicate_zero,
      List.append_nil, List.drop_of_length_le (by omega), List.append_nil]
  rw [hwrite]
  refine ⟨h, rfl, ?_⟩
  rw [writePos]
  split
  · rfl
  · exact List.length_append.symm

theorem rest_zero (s : FileStream) : (s.moved 0).rest = s.content := List.drop_zero ..

end Good

/-! ## Streams that are not good -/

section NotGood

variable {s : FileStream}

theorem refused_not_good (s : FileStream) : s.refused.good = false := by
  simp [good, refused]

theorem tellg_not_good (h : s.good = false) : s.tellg = (-1, s.refused) :=
  if_neg (by simp [h])

theorem seekg_refused (s : FileStream) (target : Int) :
    s.refused.seekg target = { s.refused with eofbit := false } := by
  have hnot : s.refused.offEnd.good = false := by simp [good, offEnd, refused]
  unfold seekg
  rw [if_neg (by simp [hnot])]
  rfl

theorem getline_not_good (newline : UInt8) (h : s.good = false) :
    s.getline newline = ([], s.refused) := if_neg (by simp [h])

theorem read_not_good (count : Nat) (h : s.good = false) : s.read count = ([], s.refused) :=
  if_neg (by simp [h])

/-- A negative position is refused by every stream. -/
theorem seekg_negative {target : Int} (htarget : target < 0) (s : FileStream) :
    s.clear.seekg target = { s.clear with failbit := true } := by
  have hgood : s.clear.offEnd.good = true := rfl
  unfold seekg
  rw [if_pos hgood, if_neg (by omega)]
  rfl

end NotGood

end FileStream

end FarouKernel.Verified
