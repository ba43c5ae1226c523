import Mathlib.Data.Int.Notation
import Mathlib.Data.Nat.Notation
import Mathlib.Tactic.Common

/-!
# Smoothing with integers

An exponentially weighted mean in integers: every sample takes the mean the `k`-th part of the way
to it, rounded towards where the mean stands.

* Between the mean and its target nothing is passed (`next_of_le`, `next_of_ge`).
* The distance loses its own `k`-th part (`natAbs_sub_next`), so it shrinks while it is at least
  `k`, and stays where it is once it is smaller: a dead zone.
* `eventually_near`: fed with one value, the mean is in the dead zone after as many samples as the
  distance it started with, and stays there.
-/

namespace DzIpc.Smoothing

variable {k : ℕ} {target a : ℤ}

/-- The mean after a sample. -/
def next (k : ℕ) (target a : ℤ) : ℤ :=
  a + (target - a).tdiv k

/-- From below. -/
theorem next_of_le (h : a ≤ target) : a ≤ next k target a ∧ next k target a ≤ target := by
  have hgap : 0 ≤ target - a := Int.sub_nonneg_of_le h
  have hnonneg : 0 ≤ (target - a).tdiv k := Int.tdiv_nonneg hgap (Int.natCast_nonneg k)
  have hle : (target - a).tdiv k ≤ target - a := Int.tdiv_le_self _ hgap
  unfold next
  omega

/-- From above. -/
theorem next_of_ge (h : target ≤ a) : target ≤ next k target a ∧ next k target a ≤ a := by
  have hgap : 0 ≤ a - target := Int.sub_nonneg_of_le h
  have hneg : (target - a).tdiv k = -(a - target).tdiv k := by
    rw [← Int.neg_tdiv, Int.neg_sub]
  have hnonneg : 0 ≤ (a - target).tdiv k := Int.tdiv_nonneg hgap (Int.natCast_nonneg k)
  have hle : (a - target).tdiv k ≤ a - target := Int.tdiv_le_self _ hgap
  unfold next
  rw [hneg]
  omega

/-- The distance loses its `k`-th part. -/
theorem natAbs_sub_next (k : ℕ) (target a : ℤ) :
    (target - next k target a).natAbs = (target - a).natAbs - (target - a).natAbs / k := by
  have hstep : ((target - a).tdiv k).natAbs = (target - a).natAbs / k := by
    rw [Int.natAbs_tdiv, Int.natAbs_natCast]
    rfl
  rcases Int.le_total a target with h | h
  · have hbetween := next_of_le (k := k) h
    unfold next at hbetween ⊢
    omega
  · have hbetween := next_of_ge (k := k) h
    unfold next at hbetween ⊢
    omega

/-- Outside the dead zone the distance shrinks. -/
theorem natAbs_sub_next_lt (hk : 0 < k) (hfar : k ≤ (target - a).natAbs) :
    (target - next k target a).natAbs < (target - a).natAbs := by
  have hpart : 0 < (target - a).natAbs / k := Nat.div_pos hfar hk
  have hle : (target - a).natAbs / k ≤ (target - a).natAbs := Nat.div_le_self _ _
  rw [natAbs_sub_next]
  omega

theorem natAbs_sub_next_le : (target - next k target a).natAbs ≤ (target - a).natAbs := by
  rw [natAbs_sub_next]
  exact Nat.sub_le _ _

/-- A run of means that all take the same sample is in the dead zone after `n` of them, or has
come closer each time. -/
theorem near_or_closer (hk : 0 < k) (mean : ℕ → ℤ)
    (hmean : ∀ n, mean (n + 1) = next k target (mean n)) (n : ℕ) :
    (target - mean n).natAbs < k ∨ (target - mean n).natAbs + n ≤ (target - mean 0).natAbs := by
  induction n with
  | zero => exact Or.inr (Nat.le_refl _)
  | succ n ih =>
      rw [hmean]
      by_cases hnear : (target - mean n).natAbs < k
      · exact Or.inl (Nat.lt_of_le_of_lt natAbs_sub_next_le hnear)
      · have hcloser := natAbs_sub_next_lt hk (Nat.le_of_not_lt hnear)
        have hsofar := ih.resolve_left hnear
        exact Or.inr (by omega)

/-- Fed with one value, the mean comes into the dead zone and stays there. -/
theorem eventually_near (hk : 0 < k) (mean : ℕ → ℤ)
    (hmean : ∀ n, mean (n + 1) = next k target (mean n)) :
    ∀ n, (target - mean 0).natAbs < n → (target - mean n).natAbs < k := by
  intro n hn
  rcases near_or_closer hk mean hmean n with hnear | hcloser
  · exact hnear
  · omega

end DzIpc.Smoothing
