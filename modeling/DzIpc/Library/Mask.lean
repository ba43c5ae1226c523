import Mathlib.Data.BitVec
import Mathlib.Data.Nat.Bitwise
import Mathlib.Tactic.Common

/-!
# Bit masks as finite sets

A machine word used as a set of small numbers: `i` is in the mask when bit `i` is set.
The lemmas reduce the word operations to statements about single bits, so that facts about
masks are proved by extensionality.

* `Within a b`: every bit of `a` is a bit of `b`, decided as `a & ~b = 0`.
* `Single a`: exactly one bit of `a` is set.
* `lowestZero`: `x | (x + 1)` sets the lowest clear bit of a word that is not full, and
  nothing else.
-/

namespace DzIpc.Mask

variable {w : ℕ}

/-- Every bit of `a` is a bit of `b`. -/
def Within (a b : BitVec w) : Prop := a &&& ~~~b = 0#w

instance (a b : BitVec w) : Decidable (Within a b) :=
  inferInstanceAs (Decidable (a &&& ~~~b = 0#w))

/-- Exactly one bit of `a` is set. -/
def Single (a : BitVec w) : Prop := ∃ i < w, a = BitVec.twoPow w i

theorem eq_zero_iff (a : BitVec w) : a = 0#w ↔ ∀ i, a.getLsbD i = false := by
  constructor
  · rintro rfl i
    simp
  · intro h
    exact BitVec.eq_of_getLsbD_eq fun i _ => by simp [h i]

theorem ne_zero_iff (a : BitVec w) : a ≠ 0#w ↔ ∃ i, a.getLsbD i = true := by
  rw [ne_eq, eq_zero_iff]
  simp

theorem and_eq_zero_iff (a b : BitVec w) :
    a &&& b = 0#w ↔ ∀ i, a.getLsbD i = true → b.getLsbD i = false := by
  rw [eq_zero_iff]
  refine forall_congr' fun i => ?_
  cases ha : a.getLsbD i <;> simp [ha]

theorem within_iff (a b : BitVec w) :
    Within a b ↔ ∀ i, a.getLsbD i = true → b.getLsbD i = true := by
  unfold Within
  rw [and_eq_zero_iff]
  refine forall_congr' fun i => forall_congr' fun hi => ?_
  have hlt : i < w := BitVec.lt_of_getLsbD hi
  simp [hlt]

theorem Within.refl (a : BitVec w) : Within a a := (within_iff a a).mpr fun _ h => h

theorem Within.trans {a b c : BitVec w} (hab : Within a b) (hbc : Within b c) : Within a c := by
  rw [within_iff] at *
  exact fun i hi => hbc i (hab i hi)

theorem zero_within (a : BitVec w) : Within (0#w) a := by
  rw [within_iff]
  simp

theorem Within.eq_zero {a : BitVec w} (h : Within a (0#w)) : a = 0#w := by
  rw [eq_zero_iff]
  intro i
  by_contra hi
  have := (within_iff a _).mp h i (by simpa using hi)
  simp at this

theorem within_and {a b c : BitVec w} : Within a (b &&& c) ↔ Within a b ∧ Within a c := by
  simp only [within_iff, BitVec.getLsbD_and, Bool.and_eq_true]
  exact ⟨fun h => ⟨fun i hi => (h i hi).1, fun i hi => (h i hi).2⟩,
    fun h i hi => ⟨h.1 i hi, h.2 i hi⟩⟩

/-- A mask lies within a complement exactly when the two masks are disjoint. -/
theorem within_not {a b : BitVec w} : Within a (~~~b) ↔ a &&& b = 0#w := by
  rw [within_iff, and_eq_zero_iff]
  refine forall_congr' fun i => forall_congr' fun hi => ?_
  have hlt : i < w := BitVec.lt_of_getLsbD hi
  simp [hlt]

theorem and_within_left (a b : BitVec w) : Within (a &&& b) a := by
  rw [within_iff]
  intro i hi
  simp only [BitVec.getLsbD_and, Bool.and_eq_true] at hi
  exact hi.1

/-- What lies within a mask and meets nothing of it is empty. -/
theorem Within.disjoint_mono {a b c : BitVec w} (hab : Within a b) (hbc : b &&& c = 0#w) :
    a &&& c = 0#w := by
  rw [and_eq_zero_iff] at *
  rw [within_iff] at hab
  exact fun i hi => hbc i (hab i hi)

theorem Single.ne_zero {a : BitVec w} (h : Single a) : a ≠ 0#w := by
  obtain ⟨i, hi, rfl⟩ := h
  rw [ne_zero_iff]
  exact ⟨i, by simp [hi]⟩

/-- A single bit is within every mask it meets. -/
theorem Single.within_of_meets {a b : BitVec w} (h : Single a) (hmeet : b &&& a ≠ 0#w) :
    Within a b := by
  obtain ⟨i, hi, rfl⟩ := h
  rw [ne_zero_iff] at hmeet
  obtain ⟨j, hj⟩ := hmeet
  rw [within_iff]
  intro k hk
  simp only [BitVec.getLsbD_and, BitVec.getLsbD_twoPow, Bool.and_eq_true,
    decide_eq_true_eq] at hj hk
  obtain ⟨hbj, -, rfl⟩ := hj
  obtain ⟨-, rfl⟩ := hk
  exact hbj

/-! ## The lowest clear bit -/

/-- `n | (n + 1)` sets exactly one bit of `n`, one that was clear. -/
theorem exists_lowestZero (n : ℕ) :
    ∃ i, n.testBit i = false ∧ (n ||| (n + 1)) = n ||| 2 ^ i := by
  induction n using Nat.binaryRec' with
  | zero => exact ⟨0, by simp, by simp⟩
  | bit b n hb ih =>
      cases b with
      | false =>
          refine ⟨0, by simp, ?_⟩
          have hsucc : Nat.bit false n + 1 = Nat.bit true n := by simp [Nat.bit]
          have hone : 2 ^ 0 = Nat.bit true 0 := by simp [Nat.bit]
          rw [hsucc, hone, Nat.lor_bit, Nat.lor_bit]
          simp
      | true =>
          obtain ⟨i, hclear, hor⟩ := ih
          refine ⟨i + 1, by rw [Nat.testBit_bit_succ]; exact hclear, ?_⟩
          have hsucc : Nat.bit true n + 1 = Nat.bit false (n + 1) := by
            simp only [Nat.bit, cond_true, cond_false]
            omega
          have hpow : 2 ^ (i + 1) = Nat.bit false (2 ^ i) := by
            simp only [Nat.bit, cond_false, pow_succ]
            omega
          rw [hsucc, hpow, Nat.lor_bit, Nat.lor_bit, hor]

/-- Setting the lowest clear bit of a word that has one: the bit gained is a single bit
that was clear before. -/
theorem lowestZero_spec (x : BitVec w) (h : x ||| (x + 1#w) ≠ x) :
    Single ((x ||| (x + 1#w)) ^^^ x) ∧ x &&& ((x ||| (x + 1#w)) ^^^ x) = 0#w ∧
      x ||| (x + 1#w) = x ||| ((x ||| (x + 1#w)) ^^^ x) := by
  obtain ⟨i, hclear, hor⟩ := exists_lowestZero x.toNat
  -- a carry out of the word would make `x + 1` zero and leave `x` unchanged
  have hfit : x.toNat + 1 < 2 ^ w := by
    by_contra hge
    have hx := x.isLt
    have hzero : x + 1#w = 0#w := by
      apply BitVec.eq_of_toNat_eq
      have heq : x.toNat + 1 = 2 ^ w := by omega
      rcases Nat.eq_zero_or_pos w with rfl | hw
      · exact Nat.lt_one_iff.mp (x + 1#0).isLt
      · rw [BitVec.toNat_add, BitVec.toNat_one hw, heq]
        simp
    exact h (by rw [hzero, BitVec.or_zero])
  have hw : 0 < w := by
    rcases Nat.eq_zero_or_pos w with rfl | hw
    · simp at hfit
    · exact hw
  have hsucc : (x + 1#w).toNat = x.toNat + 1 := by
    rw [BitVec.toNat_add, BitVec.toNat_one hw, Nat.mod_eq_of_lt hfit]
  have hbit : ∀ j, (x ||| (x + 1#w)).getLsbD j = (x.getLsbD j || decide (i = j)) := by
    intro j
    have hj := congrArg (fun n => n.testBit j) hor
    simp only [Nat.testBit_or, Nat.testBit_two_pow] at hj
    rw [BitVec.getLsbD_or, BitVec.getLsbD, BitVec.getLsbD, hsucc]
    exact hj
  have hiw : i < w := by
    have hi := hbit i
    simp only [decide_true, Bool.or_true] at hi
    exact BitVec.lt_of_getLsbD hi
  have hxi : x.getLsbD i = false := hclear
  have hgain : (x ||| (x + 1#w)) ^^^ x = BitVec.twoPow w i := by
    apply BitVec.eq_of_getLsbD_eq
    intro j hj
    rw [BitVec.getLsbD_xor, hbit, BitVec.getLsbD_twoPow]
    by_cases hij : i = j
    · subst hij
      rw [hxi]
      simp [hiw]
    · simp [hij]
  rw [hgain]
  refine ⟨⟨i, hiw, rfl⟩, ?_, ?_⟩
  · rw [and_eq_zero_iff]
    intro j hj
    rw [BitVec.getLsbD_twoPow]
    by_cases hij : i = j
    · subst hij
      rw [hxi] at hj
      cases hj
    · simp [hij]
  · apply BitVec.eq_of_getLsbD_eq
    intro j hj
    rw [hbit, BitVec.getLsbD_or, BitVec.getLsbD_twoPow]
    simp [hiw]

end DzIpc.Mask
