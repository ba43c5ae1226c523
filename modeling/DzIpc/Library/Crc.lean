import Mathlib.Algebra.Group.Nat.Defs
import Mathlib.Data.Nat.Notation
import Mathlib.Logic.Function.Iterate
import Mathlib.Tactic.Common

/-!
# Reflected cyclic redundancy checks

The remainder of a message by a polynomial, both with their lowest power in the highest bit, so
that the message comes in from bit 0 and every step shifts right.  A register is a number: its
width only says which polynomials and which messages are in it.

* A step is linear (`step_xor`), so any number of them is (`steps_xor`).
* Bits a register holds above those a run of steps consumes only move down (`steps_shiftLeft`),
  which is what a table looked up by the low bits rests on (`steps_eq_low_xor_high`).
* Bits fed one at a time leave what all of them leave that stood in the register from the start
  (`feed_bitsOf`): a word may be consumed in one go, a byte in one go, or a bit in one go.
-/

namespace DzIpc.Crc

variable (p : ℕ)

/-- One step of the register. -/
def step (x : ℕ) : ℕ :=
  (x >>> 1) ^^^ (if x.testBit 0 then p else 0)

/-- `n` steps. -/
def steps : ℕ → ℕ → ℕ
  | 0, x => x
  | n + 1, x => steps n (step p x)

/-- The lowest `n` bits of a number, the lowest one first. -/
def bitsOf : ℕ → ℕ → List Bool
  | 0, _ => []
  | n + 1, v => v.testBit 0 :: bitsOf n (v >>> 1)

/-- The bits of a message taken in one at a time. -/
def feed (crc : ℕ) (bits : List Bool) : ℕ :=
  bits.foldl (fun crc b => step p (crc ^^^ b.toNat)) crc

@[simp]
theorem feed_nil (crc : ℕ) : feed p crc [] = crc := rfl

@[simp]
theorem feed_cons (crc : ℕ) (b : Bool) (bits : List Bool) :
    feed p crc (b :: bits) = feed p (step p (crc ^^^ b.toNat)) bits := rfl

theorem feed_append (crc : ℕ) (bits more : List Bool) :
    feed p crc (bits ++ more) = feed p (feed p crc bits) more :=
  List.foldl_append

/-! ## Linearity -/

theorem step_xor (x y : ℕ) : step p (x ^^^ y) = step p x ^^^ step p y := by
  unfold step
  rw [Nat.shiftRight_xor_distrib, Nat.testBit_xor]
  -- the polynomial is taken away an even number of times if both lowest bits are set
  have hpoly : (if x.testBit 0 ^^ y.testBit 0 then p else 0)
      = (if x.testBit 0 then p else 0) ^^^ (if y.testBit 0 then p else 0) := by
    cases x.testBit 0 <;> cases y.testBit 0 <;> simp
  rw [hpoly]
  ac_rfl

theorem steps_xor (n x y : ℕ) : steps p n (x ^^^ y) = steps p n x ^^^ steps p n y := by
  induction n generalizing x y with
  | zero => rfl
  | succ n ih =>
      simp only [steps]
      rw [step_xor, ih]

/-! ## Bits that only move down -/

theorem step_shiftLeft (n x : ℕ) : step p (x <<< (n + 1)) = x <<< n := by
  have heven : (x <<< (n + 1)).testBit 0 = false := by
    simp
  have hdown : x <<< (n + 1) >>> 1 = x <<< n := by
    rw [Nat.shiftLeft_eq, Nat.shiftLeft_eq, Nat.shiftRight_eq_div_pow, Nat.pow_succ, Nat.pow_one,
      ← Nat.mul_assoc, Nat.mul_div_cancel _ Nat.two_pos]
  unfold step
  rw [heven, hdown, if_neg Bool.false_ne_true, Nat.xor_zero]

theorem steps_shiftLeft (n x : ℕ) : steps p n (x <<< n) = x := by
  induction n with
  | zero => rfl
  | succ n ih => rw [steps, step_shiftLeft, ih]

/-- A number is its low bits and its high ones. -/
theorem low_xor_high (n x : ℕ) : (x % 2 ^ n) ^^^ ((x >>> n) <<< n) = x := by
  apply Nat.eq_of_testBit_eq
  intro i
  rw [Nat.testBit_xor, Nat.testBit_mod_two_pow, Nat.testBit_shiftLeft, Nat.testBit_shiftRight]
  by_cases hi : i < n
  · simp [hi, Nat.not_le.mpr hi]
  · have hni : n ≤ i := Nat.not_lt.mp hi
    simp [hi, hni, Nat.add_sub_cancel' hni]

/-- What a table with an entry for each value of the low bits computes. -/
theorem steps_eq_low_xor_high (n x : ℕ) : steps p n x = steps p n (x % 2 ^ n) ^^^ (x >>> n) := by
  calc steps p n x = steps p n ((x % 2 ^ n) ^^^ ((x >>> n) <<< n)) := by rw [low_xor_high]
    _ = steps p n (x % 2 ^ n) ^^^ steps p n ((x >>> n) <<< n) := steps_xor p n _ _
    _ = steps p n (x % 2 ^ n) ^^^ (x >>> n) := by rw [steps_shiftLeft]

/-! ## Bits one at a time -/

theorem bitsOf_add (m n v : ℕ) : bitsOf (m + n) v = bitsOf m v ++ bitsOf n (v >>> m) := by
  induction m generalizing v with
  | zero => rw [Nat.zero_add, bitsOf, List.nil_append, Nat.shiftRight_zero]
  | succ m ih =>
      rw [Nat.succ_add, bitsOf, bitsOf, List.cons_append, ih, ← Nat.shiftRight_add, Nat.add_comm 1 m]

theorem mod_two_pow_succ_shiftRight (n v : ℕ) :
    (v % 2 ^ (n + 1)) >>> 1 = (v >>> 1) % 2 ^ n := by
  rw [Nat.shiftRight_eq_div_pow, Nat.shiftRight_eq_div_pow, Nat.pow_one, Nat.pow_succ,
    Nat.mul_comm, Nat.mod_mul_right_div_self]

theorem bitsOf_mod (n v : ℕ) : bitsOf n (v % 2 ^ n) = bitsOf n v := by
  induction n generalizing v with
  | zero => rfl
  | succ n ih =>
      have hlow : (v % 2 ^ (n + 1)).testBit 0 = v.testBit 0 := by
        simp
      rw [bitsOf, bitsOf, hlow, mod_two_pow_succ_shiftRight, ih]

theorem toNat_testBit_zero (v : ℕ) : (v.testBit 0).toNat = v % 2 ^ 1 := by
  rw [Nat.testBit_zero, Nat.pow_one]
  rcases Nat.mod_two_eq_zero_or_one v with h | h <;> simp [h]

/-- The bits of a value fed one at a time, or all at once in the register. -/
theorem feed_bitsOf (n crc v : ℕ) :
    feed p crc (bitsOf n v) = steps p n (crc ^^^ (v % 2 ^ n)) := by
  induction n generalizing crc v with
  | zero => simp [bitsOf, steps, Nat.mod_one]
  | succ n ih =>
      have hlow : (v % 2 ^ (n + 1)) % 2 ^ 1 = v % 2 ^ 1 :=
        Nat.mod_mod_of_dvd v (Nat.pow_dvd_pow 2 (Nat.succ_le_succ (Nat.zero_le n)))
      have hfirst : v % 2 ^ (n + 1) = (v % 2 ^ 1) ^^^ (((v >>> 1) % 2 ^ n) <<< 1) := by
        rw [← mod_two_pow_succ_shiftRight, ← hlow, low_xor_high]
      -- the first bit is consumed, and those behind it have moved down by one
      have hstep : step p (crc ^^^ (v % 2 ^ (n + 1)))
          = step p (crc ^^^ (v % 2 ^ 1)) ^^^ ((v >>> 1) % 2 ^ n) := by
        rw [hfirst, ← Nat.xor_assoc, step_xor p (crc ^^^ _)]
        exact congrArg _ (step_shiftLeft p 0 _)
      calc feed p crc (bitsOf (n + 1) v)
          = feed p (step p (crc ^^^ (v % 2 ^ 1))) (bitsOf n (v >>> 1)) := by
            rw [bitsOf, feed_cons, toNat_testBit_zero]
        _ = steps p n (step p (crc ^^^ (v % 2 ^ 1)) ^^^ ((v >>> 1) % 2 ^ n)) := ih _ _
        _ = steps p (n + 1) (crc ^^^ (v % 2 ^ (n + 1))) := by rw [← hstep, steps]

/-- The bits of a byte string, byte by byte. -/
def bitsOfBytes (bytes : List UInt8) : List Bool :=
  bytes.flatMap fun b => bitsOf 8 b.toNat

@[simp]
theorem bitsOfBytes_nil : bitsOfBytes [] = [] := rfl

@[simp]
theorem bitsOfBytes_cons (b : UInt8) (bytes : List UInt8) :
    bitsOfBytes (b :: bytes) = bitsOf 8 b.toNat ++ bitsOfBytes bytes := rfl

theorem bitsOfBytes_append (bytes more : List UInt8) :
    bitsOfBytes (bytes ++ more) = bitsOfBytes bytes ++ bitsOfBytes more :=
  List.flatMap_append

/-! ## Registers stay as wide as their polynomial -/

theorem step_lt {w x : ℕ} (hp : p < 2 ^ w) (hx : x < 2 ^ w) : step p x < 2 ^ w := by
  have hshift : x >>> 1 < 2 ^ w := Nat.lt_of_le_of_lt (Nat.shiftRight_le x 1) hx
  unfold step
  split
  · exact Nat.xor_lt_two_pow hshift hp
  · rw [Nat.xor_zero]
    exact hshift

theorem feed_lt {w : ℕ} (hp : p < 2 ^ w) (bits : List Bool) (hw : 0 < w) :
    ∀ {crc : ℕ}, crc < 2 ^ w → feed p crc bits < 2 ^ w := by
  induction bits with
  | nil =>
      intro crc hcrc
      exact hcrc
  | cons b bits ih =>
      intro crc hcrc
      have hbit : b.toNat < 2 ^ w :=
        Nat.lt_of_lt_of_le (Bool.toNat_lt b) (Nat.pow_le_pow_right Nat.two_pos hw)
      exact ih (step_lt p hp (Nat.xor_lt_two_pow hcrc hbit))

end DzIpc.Crc
