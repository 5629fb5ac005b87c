import Mathlib.Algebra.Ring.Int.Defs
import Mathlib.Algebra.Ring.Nat
import Mathlib.Data.List.Basic
import Mathlib.Tactic.Common

/-!
# `net/network.c`: the rate limit table

A translation of `check_and_update_rate_limit`.  One loop drops the expired
entries, looks for the entry of the caller, counts the call in it and moves the
entries that stay to the front.  The function holds `rate_limit_mutex`, so it is
one step; the time it reads is a parameter.

The string in `ip` is the list of the bytes before its terminating zero.  The
array has `rate_limit_capacity` slots; those behind `rate_limit_size` hold
whatever was in them.  `request_count` is an `int`, and its overflow is the
wrap-around of the machine.
-/

namespace FarouKernel.Ports.Net

def rateLimitWindow : Int := 60

def inet6AddrStrLen : Nat := 46

/-- `n + 1` of an `int`. -/
def succInt (n : Int) : Int := if n = 2 ^ 31 - 1 then -2 ^ 31 else n + 1

/-- `rate_limit_entry_t`. -/
structure RateLimitEntry where
  ip : List UInt8
  firstRequestTime : Int
  requestCount : Int
  deriving DecidableEq, Repr

/-- The window of the entry is over. -/
def RateLimitEntry.expired (e : RateLimitEntry) (now : Int) : Bool :=
  now - e.firstRequestTime > rateLimitWindow

/-- The entry with one more request. -/
def RateLimitEntry.counted (e : RateLimitEntry) : RateLimitEntry :=
  { e with requestCount := succInt e.requestCount }

/-- `rate_limits` with `rate_limit_size`; the capacity is the length of the array. -/
structure RateLimits where
  rateLimits : List RateLimitEntry
  rateLimitSize : Nat
  fits : rateLimitSize ≤ rateLimits.length

/-- The entries in the table. -/
def RateLimits.entries (t : RateLimits) : List RateLimitEntry := t.rateLimits.take t.rateLimitSize

/-- The array and the variables of the loop.  `found_idx` is `none` for -1. -/
structure Sweep where
  rateLimits : List RateLimitEntry
  writeIdx : Nat
  foundIdx : Option Nat
  allowed : Bool

/-- The round of the loop for the slot at `readIdx`. -/
def Sweep.round (maxRequests now : Int) (ip : List UInt8) (readIdx : Nat) (v : Sweep) : Sweep :=
  match v.rateLimits[readIdx]? with
  | none => v
  | some e =>
    if e.expired now = true then v
    else
      -- the count is stored at `readIdx` before the slot is copied
      let hit := v.foundIdx = none ∧ e.ip = ip
      let e' := if hit then e.counted else e
      let slots := if hit then v.rateLimits.set readIdx e' else v.rateLimits
      { rateLimits := if readIdx ≠ v.writeIdx then slots.set v.writeIdx e' else slots
        writeIdx := v.writeIdx + 1
        foundIdx := if hit then some v.writeIdx else v.foundIdx
        allowed := if hit ∧ e'.requestCount > maxRequests then false else v.allowed }

/-- The loop, with `left` slots still to be read. -/
def sweepLoop (maxRequests now : Int) (ip : List UInt8) : Nat → Nat → Sweep → Sweep
  | 0, _, v => v
  | left + 1, readIdx, v =>
    sweepLoop maxRequests now ip left (readIdx + 1) (v.round maxRequests now ip readIdx)

variable (maxRequests now : Int) (ip : List UInt8)

theorem Sweep.round_length (readIdx : Nat) (v : Sweep) :
    (v.round maxRequests now ip readIdx).rateLimits.length = v.rateLimits.length := by
  unfold Sweep.round
  split
  · rfl
  · split
    · rfl
    · dsimp only
      split <;> split <;> simp only [List.length_set]

theorem Sweep.round_writeIdx (readIdx : Nat) (v : Sweep) :
    (v.round maxRequests now ip readIdx).writeIdx ≤ v.writeIdx + 1 := by
  unfold Sweep.round
  split
  · exact Nat.le_succ _
  · split
    · exact Nat.le_succ _
    · exact Nat.le_refl _

theorem sweepLoop_length (left readIdx : Nat) (v : Sweep) :
    (sweepLoop maxRequests now ip left readIdx v).rateLimits.length = v.rateLimits.length := by
  induction left generalizing readIdx v with
  | zero => rfl
  | succ left ih => exact (ih _ _).trans (v.round_length maxRequests now ip readIdx)

theorem sweepLoop_writeIdx (left readIdx : Nat) (v : Sweep) :
    (sweepLoop maxRequests now ip left readIdx v).writeIdx ≤ v.writeIdx + left := by
  induction left generalizing readIdx v with
  | zero => exact Nat.le_refl _
  | succ left ih =>
    have hround := v.round_writeIdx maxRequests now ip readIdx
    have hrest := ih (readIdx + 1) (v.round maxRequests now ip readIdx)
    rw [sweepLoop]
    omega

/-- The loop over the whole table. -/
def RateLimits.sweep (maxRequests now : Int) (ip : List UInt8) (t : RateLimits) : Sweep :=
  sweepLoop maxRequests now ip t.rateLimitSize 0 ⟨t.rateLimits, 0, none, true⟩

theorem RateLimits.sweep_length (t : RateLimits) :
    (t.sweep maxRequests now ip).rateLimits.length = t.rateLimits.length :=
  sweepLoop_length _ _ _ _ _ _

theorem RateLimits.sweep_fits (t : RateLimits) :
    (t.sweep maxRequests now ip).writeIdx ≤ (t.sweep maxRequests now ip).rateLimits.length := by
  have hsize := t.fits
  have hwrite : (t.sweep maxRequests now ip).writeIdx ≤ 0 + t.rateLimitSize :=
    sweepLoop_writeIdx _ _ _ _ _ _
  rw [RateLimits.sweep_length]
  omega

/-- `check_and_update_rate_limit` at the time `now`. -/
def checkAndUpdateRateLimit (maxRequests now : Int) (ip : List UInt8) (t : RateLimits) :
    Bool × RateLimits :=
  let v := t.sweep maxRequests now ip
  if v.allowed = true ∧ v.foundIdx = none then
    if h : v.writeIdx < v.rateLimits.length then
      (v.allowed,
        { rateLimits := v.rateLimits.set v.writeIdx ⟨ip.take (inet6AddrStrLen - 1), now, 1⟩
          rateLimitSize := v.writeIdx + 1
          fits := by
            rw [List.length_set]
            exact h })
    else
      -- the table is full of active entries: the request is allowed and not counted
      (v.allowed, ⟨v.rateLimits, v.writeIdx, t.sweep_fits maxRequests now ip⟩)
  else (v.allowed, ⟨v.rateLimits, v.writeIdx, t.sweep_fits maxRequests now ip⟩)

end FarouKernel.Ports.Net
