import Mathlib.Algebra.Order.Group.Nat
import Mathlib.Order.Bounds.Basic
import Mathlib.Tactic.Common

/-!
# Records under natural alignment

How a compiler lays a record out: every member at the first multiple of its alignment behind the
member before, and the size a multiple of the alignment of the record, which is that of its
strictest member or the one that is asked for.

* `isLeast_roundUp`: rounding up gives the first multiple.
-/

namespace DzIpc.Abi

/-- The size and the alignment of a type. -/
structure Extent where
  size : ℕ
  align : ℕ
  deriving DecidableEq, Repr

/-- The first multiple of `a` from `n` on. -/
def roundUp (n a : ℕ) : ℕ := n + (a - n % a) % a

/-- `T[n]`. -/
def array (elem : Extent) (n : ℕ) : Extent := ⟨elem.size * n, elem.align⟩

/-- The offsets of members behind `cur`. -/
def offsets : List Extent → ℕ → List ℕ
  | [], _ => []
  | m :: rest, cur => roundUp cur m.align :: offsets rest (roundUp cur m.align + m.size)

/-- Where members behind `cur` end. -/
def endOf : List Extent → ℕ → ℕ
  | [], cur => cur
  | m :: rest, cur => endOf rest (roundUp cur m.align + m.size)

/-- The alignment of a record that is declared with `alignas`. -/
def alignOf (alignas : ℕ) (members : List Extent) : ℕ :=
  members.foldl (fun a m => max a m.align) alignas

/-- A record; no record has size 0. -/
def record (alignas : ℕ) (members : List Extent) : Extent :=
  { size := roundUp (max 1 (endOf members 0)) (alignOf alignas members)
    align := alignOf alignas members }

theorem isLeast_roundUp (n : ℕ) {a : ℕ} (ha : 0 < a) :
    IsLeast {o | n ≤ o ∧ a ∣ o} (roundUp n a) := by
  have hmod := Nat.mod_lt n ha
  have hdiv := Nat.div_add_mod n a
  constructor
  · refine ⟨Nat.le_add_right _ _, ?_⟩
    rw [roundUp]
    rcases Nat.eq_zero_or_pos (n % a) with hzero | hpos
    · rw [hzero, Nat.sub_zero, Nat.mod_self, Nat.add_zero]
      exact Nat.dvd_of_mod_eq_zero hzero
    · rw [Nat.mod_eq_of_lt (by omega)]
      refine ⟨n / a + 1, ?_⟩
      rw [Nat.mul_add, Nat.mul_one]
      omega
  · rintro o ⟨hle, q, rfl⟩
    rw [roundUp]
    rcases Nat.eq_zero_or_pos (n % a) with hzero | hpos
    · rw [hzero, Nat.sub_zero, Nat.mod_self]
      exact hle
    · rw [Nat.mod_eq_of_lt (by omega)]
      have hq : n / a < q := by
        rw [Nat.div_lt_iff_lt_mul ha]
        rw [Nat.mul_comm] at hle
        refine lt_of_le_of_ne hle ?_
        rintro rfl
        rw [Nat.mul_mod_left] at hpos
        omega
      have hmul : a * (n / a + 1) ≤ a * q := Nat.mul_le_mul_left a hq
      rw [Nat.mul_add, Nat.mul_one] at hmul
      omega

end DzIpc.Abi
