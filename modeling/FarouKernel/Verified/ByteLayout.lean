import FarouKernel.Verified.ByteMem

/-!
# Encoded data in memory

An encoder produces a list of bytes; `Holds` says that the list stands in memory at an
address.  A list is taken apart at its appends, and a little-endian field of it is
read back with `Holds.readLE`.
-/

namespace FarouKernel.Verified

namespace ByteMem

/-- The `n` bytes of a little-endian number. -/
def leBytes (v : Nat) : Nat → List UInt8
  | 0 => []
  | n + 1 => UInt8.ofNat v :: leBytes (v / 256) n

/-- The bytes stand in memory from `a` on. -/
def Holds (m : ByteMem) : Nat → List UInt8 → Prop
  | _, [] => True
  | a, b :: bs => m a = b ∧ Holds m (a + 1) bs

instance decidableHolds (m : ByteMem) : (a : Nat) → (bs : List UInt8) → Decidable (Holds m a bs)
  | _, [] => inferInstanceAs (Decidable True)
  | a, b :: bs =>
    have := decidableHolds m (a + 1) bs
    inferInstanceAs (Decidable (m a = b ∧ Holds m (a + 1) bs))

variable {m : ByteMem} {a v n : Nat} {xs ys : List UInt8}

@[simp] theorem length_leBytes (v n : Nat) : (leBytes v n).length = n := by
  induction n generalizing v with
  | zero => rfl
  | succ n ih => rw [leBytes, List.length_cons, ih]

theorem holds_append : Holds m a (xs ++ ys) ↔ Holds m a xs ∧ Holds m (a + xs.length) ys := by
  induction xs generalizing a with
  | nil => simp [Holds]
  | cons x xs ih =>
    have hlength : a + (x :: xs).length = a + 1 + xs.length := by
      rw [List.length_cons]
      omega
    rw [hlength, List.cons_append, Holds, Holds, ih, and_assoc]

/-- A field is read back, truncated to its length. -/
theorem Holds.readLE (h : Holds m a (leBytes v n)) : ByteMem.readLE m a n = v % 256 ^ n := by
  induction n generalizing a v with
  | zero => simp [ByteMem.readLE, Nat.mod_one]
  | succ n ih =>
    have hhead : (m a).toNat = v % 256 := by
      rw [h.1]
      exact UInt8.toNat_ofNat'
    rw [ByteMem.readLE, ih h.2, hhead, Nat.pow_succ, Nat.mul_comm _ 256, Nat.mod_mul]

end ByteMem

end FarouKernel.Verified
