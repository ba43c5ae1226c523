import Mathlib.Algebra.Group.Nat.Defs
import Mathlib.Data.List.Basic
import Mathlib.Tactic.Common

/-!
# Loops over a machine word

The counter of `for (word i = lo; i <= hi; ++i)` wraps.  The loop goes through the numbers from
`lo` to `hi` and ends where `hi` is not the greatest word (`wordLoop_eq`); where it is the
greatest, `i <= hi` never fails, and a body that does not leave the loop runs for ever
(`wordLoop_allOnes`).

What the loop computes is said by `forEach`, which goes through a list.
-/

namespace DzIpc.WordLoop

variable {σ : Type*} {w : ℕ}

/-- Goes through a list with a body that may leave the loop. -/
def forEach (body : ℕ → σ → ForInStep σ) : List ℕ → σ → σ
  | [], s => s
  | i :: rest, s =>
      match body i s with
      | .done s => s
      | .yield s => forEach body rest s

/-- `for (i = lo; i <= hi; ++i)` with a counter of `w` bits: at most `fuel` tests of the
condition, `none` where they are not enough. -/
def wordLoop (hi : BitVec w) (body : ℕ → σ → ForInStep σ) : ℕ → BitVec w → σ → Option σ
  | 0, _, _ => none
  | fuel + 1, i, s =>
      if i ≤ hi then
        match body i.toNat s with
        | .done s => some s
        | .yield s => wordLoop hi body fuel (i + 1) s
      else some s

/-- The loop ends with this result. -/
def Ends (lo hi : BitVec w) (body : ℕ → σ → ForInStep σ) (s out : σ) : Prop :=
  ∃ fuel, wordLoop hi body fuel lo s = some out

/-- Below the greatest word the counter does not wrap before the loop ends. -/
theorem wordLoop_eq {hi : BitVec w} (hhi : hi.toNat + 1 < 2 ^ w) (body : ℕ → σ → ForInStep σ)
    (n : ℕ) (i : BitVec w) (hn : n = hi.toNat + 1 - i.toNat) (s : σ) :
    wordLoop hi body (n + 1) i s = some (forEach body (List.range' i.toNat n) s) := by
  induction n generalizing i s with
  | zero =>
      have hpast : ¬ i ≤ hi := by
        rw [BitVec.le_def]
        omega
      rw [wordLoop, if_neg hpast]
      rfl
  | succ n ih =>
      have hle : i ≤ hi := by
        rw [BitVec.le_def]
        omega
      have hnext : (i + 1).toNat = i.toNat + 1 := by
        have hlt : i.toNat + 1 < 2 ^ w := by omega
        have hwrap : (i + 1).toNat = (i.toNat + 1) % 2 ^ w := by simp [BitVec.toNat_add]
        rw [hwrap, Nat.mod_eq_of_lt hlt]
      rw [wordLoop, if_pos hle, List.range'_succ, forEach]
      cases body i.toNat s with
      | done s => rfl
      | yield s =>
          change wordLoop hi body (n + 1) (i + 1) s = _
          rw [ih (i + 1) (by omega) s, hnext]

theorem ends_of_lt (lo : BitVec w) {hi : BitVec w} (hhi : hi.toNat + 1 < 2 ^ w)
    (body : ℕ → σ → ForInStep σ) (s : σ) :
    Ends lo hi body s (forEach body (List.range' lo.toNat (hi.toNat + 1 - lo.toNat)) s) :=
  ⟨_, wordLoop_eq hhi body _ lo rfl s⟩

/-- Up to the greatest word the loop ends only where the body leaves it. -/
theorem wordLoop_allOnes (step : ℕ → σ → σ) (fuel : ℕ) (i : BitVec w) (s : σ) :
    wordLoop (BitVec.allOnes w) (fun i s => .yield (step i s)) fuel i s = none := by
  induction fuel generalizing i s with
  | zero => rfl
  | succ fuel ih =>
      have hle : i ≤ BitVec.allOnes w := by
        rw [BitVec.le_def, BitVec.toNat_allOnes]
        have := i.isLt
        omega
      rw [wordLoop, if_pos hle]
      exact ih (i + 1) (step i.toNat s)

/-! ## Bodies that never leave the loop -/

theorem forEach_yield (step : ℕ → σ → σ) (l : List ℕ) (s : σ) :
    forEach (fun i s => .yield (step i s)) l s = l.foldl (fun s i => step i s) s := by
  induction l generalizing s with
  | nil => rfl
  | cons i rest ih => exact ih (step i s)

/-- A body that does something only where `p` holds goes through the numbers with `p`. -/
theorem forEach_filter (p : ℕ → Bool) (body : ℕ → σ → ForInStep σ) (l : List ℕ) (s : σ) :
    forEach (fun i s => if p i then body i s else .yield s) l s = forEach body (l.filter p) s := by
  induction l generalizing s with
  | nil => rfl
  | cons i rest ih =>
      by_cases hi : p i = true
      · rw [List.filter_cons_of_pos hi, forEach, forEach, if_pos hi]
        cases body i s with
        | done s => rfl
        | yield s => exact ih s
      · rw [List.filter_cons_of_neg hi, forEach, if_neg hi]
        exact ih s

end DzIpc.WordLoop
