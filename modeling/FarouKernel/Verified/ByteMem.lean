import Mathlib.Tactic.Common
import Mathlib.Tactic.Ring

/-!
# Byte-addressed memory with little-endian words

Memory is a total function from addresses to bytes.  Structures the code lays
over it are read and written as little-endian words, so two structures that
overlap really do overwrite each other, and a statement about "every byte of
an area" is a statement about this function.

Everything downstream goes through four facts: a word reads back what was
written (`read64_write64_same`), a word elsewhere is untouched
(`read64_write64_of_disjoint`), and the two corresponding facts for `fill`.
-/

namespace FarouKernel.Verified

/-- A byte-addressed memory. -/
abbrev ByteMem : Type := Nat → UInt8

variable {m m' : ByteMem} {a n v x : Nat}

namespace ByteMem

/-- The `n`-byte little-endian number stored at `a`. -/
def readLE (m : ByteMem) (a : Nat) : Nat → Nat
  | 0 => 0
  | n + 1 => (m a).toNat + 256 * readLE m (a + 1) n

/-- Store `v` as an `n`-byte little-endian number at `a`. -/
def writeLE (m : ByteMem) (a n v : Nat) : ByteMem := fun x =>
  if a ≤ x ∧ x < a + n then UInt8.ofNat (v / 256 ^ (x - a)) else m x

/-- Store the byte `b` at each of the `n` addresses from `a` on. -/
def fill (m : ByteMem) (a n : Nat) (b : UInt8) : ByteMem := fun x =>
  if a ≤ x ∧ x < a + n then b else m x

/-- The 64-bit word at `a`. -/
def read64 (m : ByteMem) (a : Nat) : Nat := readLE m a 8

/-- Store a 64-bit word at `a`. -/
def write64 (m : ByteMem) (a v : Nat) : ByteMem := writeLE m a 8 v

/-! ## Numbers of any length -/

/-- A stored number depends only on its own bytes. -/
theorem readLE_congr (h : ∀ x, a ≤ x → x < a + n → m x = m' x) : readLE m a n = readLE m' a n := by
  induction n generalizing a with
  | zero => rfl
  | succ n ih =>
    have hhead : m a = m' a := h a (Nat.le_refl a) (by omega)
    have htail : readLE m (a + 1) n = readLE m' (a + 1) n :=
      ih fun x hx hxn => h x (by omega) (by omega)
    simp only [readLE, hhead, htail]

theorem readLE_lt (m : ByteMem) (a n : Nat) : readLE m a n < 256 ^ n := by
  induction n generalizing a with
  | zero => simp [readLE]
  | succ n ih =>
    have hhead : (m a).toNat < 256 := (m a).toNat_lt
    have htail := ih (a + 1)
    simp only [readLE, Nat.pow_succ]
    omega

/-- Smaller bytes make a smaller number. -/
theorem readLE_le (h : ∀ x, a ≤ x → x < a + n → (m x).toNat ≤ (m' x).toNat) :
    readLE m a n ≤ readLE m' a n := by
  induction n generalizing a with
  | zero => exact Nat.le_refl 0
  | succ n ih =>
    have hhead := h a (Nat.le_refl a) (by omega)
    have htail : readLE m (a + 1) n ≤ readLE m' (a + 1) n :=
      ih fun x hx hxn => h x (by omega) (by omega)
    simp only [readLE]
    omega

/-- Writing a number and reading it back truncates it to its length. -/
theorem readLE_writeLE_same (m : ByteMem) (a n v : Nat) :
    readLE (writeLE m a n v) a n = v % 256 ^ n := by
  induction n generalizing m a v with
  | zero => simp [readLE, Nat.mod_one]
  | succ n ih =>
    have hhead : (writeLE m a (n + 1) v a).toNat = v % 256 := by simp [writeLE]
    -- Past its first byte the long number is the shorter number `v / 256`.
    have htail : readLE (writeLE m a (n + 1) v) (a + 1) n = v / 256 % 256 ^ n := by
      rw [← ih m (a + 1) (v / 256)]
      refine readLE_congr fun x hx hxn => ?_
      have hin : a ≤ x ∧ x < a + (n + 1) := by omega
      have hsub : x - a = (x - (a + 1)) + 1 := by omega
      simp only [writeLE, if_pos hin, if_pos (And.intro hx hxn), hsub, Nat.pow_succ,
        Nat.div_div_eq_div_mul, Nat.mul_comm]
    simp only [readLE, hhead, htail, Nat.pow_succ, Nat.mul_comm (256 ^ n) 256, Nat.mod_mul]

/-- The bytes of a stored number. -/
theorem readLE_byte (m : ByteMem) (a : Nat) {i : Nat} (hi : i < n) :
    readLE m a n / 256 ^ i % 256 = (m (a + i)).toNat := by
  induction n generalizing a i with
  | zero => exact absurd hi (Nat.not_lt_zero i)
  | succ n ih =>
    have hhead : (m a).toNat < 256 := (m a).toNat_lt
    cases i with
    | zero =>
      show ((m a).toNat + 256 * readLE m (a + 1) n) / 1 % 256 = (m a).toNat
      omega
    | succ i =>
      have hshift : a + (i + 1) = a + 1 + i := by omega
      have htail : ((m a).toNat + 256 * readLE m (a + 1) n) / 256 = readLE m (a + 1) n := by omega
      rw [readLE, Nat.pow_succ', ← Nat.div_div_eq_div_mul, htail, ih (a + 1) (by omega), hshift]

/-- Writing back what was read. -/
theorem writeLE_readLE_same (m : ByteMem) (a n : Nat) : writeLE m a n (readLE m a n) = m := by
  funext x
  rw [writeLE]
  split
  · rename_i hin
    have hx : a + (x - a) = x := by omega
    have hbyte := readLE_byte m a (show x - a < n by omega)
    rw [hx] at hbyte
    apply UInt8.toNat_inj.mp
    rw [UInt8.toNat_ofNat', ← hbyte]
  · rfl

/-! ## Words -/

theorem read64_lt (m : ByteMem) (a : Nat) : read64 m a < 2 ^ 64 :=
  readLE_lt m a 8

/-- A word depends only on its own eight bytes. -/
theorem read64_congr (h : ∀ x, a ≤ x → x < a + 8 → m x = m' x) : read64 m a = read64 m' a :=
  readLE_congr h

/-- The lowest byte of a word. -/
theorem read64_mod (m : ByteMem) (a : Nat) : read64 m a % 256 = (m a).toNat := by
  have hbyte : (m a).toNat < 256 := UInt8.toNat_lt _
  rw [read64, readLE]
  omega

/-- The other bytes of a word. -/
theorem read64_div (m : ByteMem) (a : Nat) : read64 m a / 256 = readLE m (a + 1) 7 := by
  have hbyte : (m a).toNat < 256 := UInt8.toNat_lt _
  rw [read64, readLE]
  omega

theorem write64_apply_of_outside (h : x < a ∨ a + 8 ≤ x) : write64 m a v x = m x := by
  unfold write64 writeLE
  rw [if_neg (by omega)]

/-- The rest of memory shows through a store. -/
theorem write64_apply_congr (h : m x = m' x) : write64 m a v x = write64 m' a v x := by
  unfold write64 writeLE
  rw [h]

theorem fill_apply_of_outside {b : UInt8} (h : x < a ∨ a + n ≤ x) : fill m a n b x = m x := by
  unfold fill
  rw [if_neg (by omega)]

@[simp] theorem read64_write64_same (m : ByteMem) (a v : Nat) :
    read64 (write64 m a v) a = v % 2 ^ 64 :=
  readLE_writeLE_same m a 8 v

theorem read64_write64_of_lt (h : v < 2 ^ 64) : read64 (write64 m a v) a = v := by
  rw [read64_write64_same, Nat.mod_eq_of_lt h]

theorem write64_read64_same (m : ByteMem) (a : Nat) : write64 m a (read64 m a) = m :=
  writeLE_readLE_same m a 8

theorem read64_write64_of_disjoint {b : Nat} (h : b + 8 ≤ a ∨ a + 8 ≤ b) :
    read64 (write64 m a v) b = read64 m b :=
  read64_congr fun _ hx hx' => write64_apply_of_outside (by omega)

/-- Inside a filled area every word repeats the fill byte. -/
theorem read64_fill_inside {b : Nat} {c : UInt8} (hlo : a ≤ b) (hhi : b + 8 ≤ a + n) :
    read64 (fill m a n c) b = read64 (fun _ => c) b := by
  refine read64_congr fun x hx hx' => ?_
  unfold fill
  rw [if_pos (by omega)]

@[simp] theorem read64_const_zero (a : Nat) : read64 (fun _ => 0) a = 0 := by
  simp [read64, readLE]

@[simp] theorem read64_const_ff (a : Nat) : read64 (fun _ => 0xFF) a = 2 ^ 64 - 1 := by
  simp [read64, readLE]

end ByteMem

end FarouKernel.Verified
