import FarouKernel.Verified.ByteMem

/-!
# `kernel/memory.c`: `kprintf`

A translation of the formatted output of the kernel, as a machine that makes one
step for each round of the loop over the format string and one for each round of
the loop of `serial_puts`.  Neither loop is bounded by the code: both run until
they read a zero byte.

`serial_putchar` waits until the port takes the byte, so the output is the list of
bytes sent.  `va_arg` takes the next of the 64-bit slots in which variadic
arguments are passed.
-/

namespace FarouKernel.Ports.Kprintf

open Verified

/-- The bytes of a string literal. -/
def text (s : String) : List UInt8 := s.toList.map Char.toUInt8

/-- `kprint_hex_recursive`. -/
def kprintHexRecursive (n : Nat) : List UInt8 :=
  if n = 0 then []
  else kprintHexRecursive (n / 16) ++ [(text "0123456789abcdef").getD (n % 16) 0]
termination_by n

/-- `kprint_hex`. -/
def kprintHex (n : Nat) : List UInt8 := if n = 0 then text "0" else kprintHexRecursive n

/-- Where a call stands: at the test of its own loop, or in `serial_puts` with the
string and the index. -/
inductive Place where
  | test
  | puts (str i : Nat)

/-- The local variables of a call: the cursor, the number of arguments fetched and
the bytes sent. -/
structure Call where
  place : Place
  p : Nat
  args : Nat
  out : List UInt8

/-- `kprintf(fmt, ..)` before its first round. -/
def Call.start (fmt : Nat) : Call := ⟨.test, fmt, 0, []⟩

/-- The end of a round: the bytes it sent, and the `p++` of the loop header. -/
def Call.finish (c : Call) (p args : Nat) (bytes : List UInt8) : Call :=
  ⟨.test, p + 1, args, c.out ++ bytes⟩

section

variable (mem : ByteMem) (va : Nat → Nat)

/-- The round of the loop for the byte at the cursor. -/
def Call.round (c : Call) : Call :=
  if mem c.p ≠ '%'.toUInt8 then c.finish c.p c.args [mem c.p]
  else
    let p := c.p + 1
    if mem p = 'c'.toUInt8 then c.finish p (c.args + 1) [UInt8.ofNat (va c.args)]
    else if mem p = 's'.toUInt8 then
      let s := va c.args
      if s = 0 then c.finish p (c.args + 1) (text "(null)")
      else { c with place := .puts s 0, p := p, args := c.args + 1 }
    else if mem p = 'l'.toUInt8 then
      let p := p + 1
      if mem p = 'x'.toUInt8 then
        c.finish p (c.args + 1) (text "0x" ++ kprintHex (va c.args))
      else c.finish p c.args (text "%l" ++ [mem p])
    else if mem p = 'p'.toUInt8 then
      c.finish p (c.args + 1) (text "0x" ++ kprintHex (va c.args))
    else if mem p = '%'.toUInt8 then c.finish p c.args (text "%")
    else c.finish p c.args (text "%" ++ [mem p])

/-- One step; `none` if the loop has ended. -/
def Call.step (c : Call) : Option Call :=
  match c.place with
  | .test => if mem c.p = 0 then none else some (c.round mem va)
  | .puts str i =>
    if mem (str + i) ≠ 0 then
      some { c with place := .puts str (i + 1), out := c.out ++ [mem (str + i)] }
    else some (c.finish c.p c.args [])

end

end FarouKernel.Ports.Kprintf
