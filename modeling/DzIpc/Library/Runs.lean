import Mathlib.Data.Finset.Lattice.Fold
import Mathlib.Data.Finset.Prod
import Mathlib.Order.Interval.Finset.Nat
import Mathlib.Tactic.Common

/-!
# Runs of consecutive numbers

A run of a finite set of numbers is a stretch of it that cannot be made longer at either end.

* A run is known by its first number (`IsRun.last_unique`), every number without a predecessor
  begins one (`exists_run`), so there are as many runs as such numbers (`card_runs`).
* `card_starts_insert`: a number above all others begins a run unless its predecessor is there.
  This is the step of every counter that goes through a set in ascending order.
-/

namespace DzIpc.Runs

variable {S : Finset ℕ} {a b p : ℕ}

/-- The stretch from `a` to `b` is in the set, and neither neighbour is. -/
structure IsRun (S : Finset ℕ) (a b : ℕ) : Prop where
  le : a ≤ b
  mem : ∀ p, a ≤ p → p ≤ b → p ∈ S
  first : ∀ p ∈ S, p + 1 ≠ a
  last : b + 1 ∉ S

theorem isRun_iff : IsRun S a b ↔ a ≤ b ∧ (∀ p ∈ Finset.Icc a b, p ∈ S) ∧
    (∀ p ∈ S, p + 1 ≠ a) ∧ b + 1 ∉ S := by
  simp only [Finset.mem_Icc, and_imp]
  exact ⟨fun h => ⟨h.le, h.mem, h.first, h.last⟩, fun h => ⟨h.1, h.2.1, h.2.2.1, h.2.2.2⟩⟩

instance (S : Finset ℕ) (a b : ℕ) : Decidable (IsRun S a b) :=
  decidable_of_iff _ isRun_iff.symm

/-- All runs of a set, by their ends. -/
def runs (S : Finset ℕ) : Finset (ℕ × ℕ) :=
  (S ×ˢ S).filter fun run => IsRun S run.1 run.2

theorem mem_runs {run : ℕ × ℕ} : run ∈ runs S ↔ IsRun S run.1 run.2 := by
  unfold runs
  rw [Finset.mem_filter, Finset.mem_product]
  refine ⟨fun h => h.2, fun h => ⟨⟨?_, ?_⟩, h⟩⟩
  · exact h.mem _ (Nat.le_refl _) h.le
  · exact h.mem _ h.le (Nat.le_refl _)

/-- The numbers without a predecessor in the set. -/
def starts (S : Finset ℕ) : Finset ℕ :=
  S.filter fun p => ∀ q ∈ S, q + 1 ≠ p

theorem mem_starts : p ∈ starts S ↔ p ∈ S ∧ ∀ q ∈ S, q + 1 ≠ p :=
  Finset.mem_filter

/-- Two runs with the same first number are the same. -/
theorem IsRun.last_unique {c : ℕ} (h : IsRun S a b) (h' : IsRun S a c) : b = c := by
  rcases Nat.lt_trichotomy b c with hlt | rfl | hlt
  · exact absurd (h'.mem (b + 1) (Nat.le_succ_of_le h.le) hlt) h.last
  · rfl
  · exact absurd (h.mem (c + 1) (Nat.le_succ_of_le h'.le) hlt) h'.last

/-- Past every number of a finite set there is one that is not in it; the stretch ends before the
first of them. -/
theorem exists_stretch (hp : p ∈ S) : ∃ b, p ≤ b ∧ (∀ q, p ≤ q → q ≤ b → q ∈ S) ∧ b + 1 ∉ S := by
  have hout : ∃ n, p + n ∉ S := by
    refine ⟨S.sup id + 1, fun hmem => ?_⟩
    have hle : p + (S.sup id + 1) ≤ S.sup id := Finset.le_sup (f := id) hmem
    omega
  have hfirst : p + Nat.find hout ∉ S := Nat.find_spec hout
  have hbefore : ∀ n < Nat.find hout, p + n ∈ S :=
    fun n hn => not_not.mp (Nat.find_min hout hn)
  have hpos : 0 < Nat.find hout := by
    apply Nat.pos_of_ne_zero
    intro hzero
    rw [hzero] at hfirst
    exact hfirst hp
  refine ⟨p + Nat.find hout - 1, by omega, fun q hpq hq => ?_, ?_⟩
  · have hmem := hbefore (q - p) (by omega)
    rwa [Nat.add_sub_cancel' hpq] at hmem
  · rwa [Nat.sub_add_cancel (by omega)]

theorem exists_run (hp : p ∈ starts S) : ∃ b, IsRun S p b := by
  obtain ⟨hmem, hfirst⟩ := mem_starts.mp hp
  obtain ⟨b, hle, hstretch, hlast⟩ := exists_stretch hmem
  exact ⟨b, hle, hstretch, hfirst, hlast⟩

/-- There are as many runs as numbers that begin one. -/
theorem card_runs (S : Finset ℕ) : (runs S).card = (starts S).card := by
  apply Finset.card_bij fun run _ => run.1
  · intro run hrun
    have h := mem_runs.mp hrun
    exact mem_starts.mpr ⟨h.mem _ (Nat.le_refl _) h.le, h.first⟩
  · rintro ⟨a, b⟩ h ⟨a', c⟩ h' (rfl : a = a')
    have hlast : b = c := (mem_runs.mp h).last_unique (mem_runs.mp h')
    rw [hlast]
  · intro p hp
    obtain ⟨b, h⟩ := exists_run hp
    exact ⟨(p, b), mem_runs.mpr h, rfl⟩

@[simp]
theorem starts_empty : starts ∅ = ∅ := rfl

/-- A number above all others begins a run unless its predecessor is in the set. -/
theorem card_starts_insert (habove : ∀ q ∈ S, q < p) :
    (starts (insert p S)).card
      = (starts S).card + if ∃ q ∈ S, q + 1 = p then 0 else 1 := by
  have hnew : p ∉ S := fun hp => Nat.lt_irrefl p (habove p hp)
  -- the new number is no predecessor of an old one
  have hold : ∀ r ∈ S, r ∈ starts (insert p S) ↔ r ∈ starts S := by
    intro r hr
    have hlt := habove r hr
    rw [mem_starts, mem_starts]
    refine and_congr (by simp [hr]) ⟨fun h q hq => h q (Finset.mem_insert_of_mem hq), ?_⟩
    intro h q hq
    rcases Finset.mem_insert.mp hq with rfl | hq
    · omega
    · exact h q hq
  by_cases hpred : ∃ q ∈ S, q + 1 = p
  · have hsame : starts (insert p S) = starts S := by
      ext r
      by_cases hr : r ∈ S
      · exact hold r hr
      · refine iff_of_false (fun h => ?_) fun h => hr (mem_starts.mp h).1
        obtain ⟨hmem, hfirst⟩ := mem_starts.mp h
        obtain ⟨q, hq, hqp⟩ := hpred
        obtain rfl := (Finset.mem_insert.mp hmem).resolve_right hr
        exact hfirst q (Finset.mem_insert_of_mem hq) hqp
    rw [hsame, if_pos hpred, Nat.add_zero]
  · have hmore : starts (insert p S) = insert p (starts S) := by
      ext r
      by_cases hr : r ∈ S
      · have hne : r ≠ p := fun h => hnew (h ▸ hr)
        rw [hold r hr, Finset.mem_insert]
        exact (or_iff_right hne).symm
      · rw [Finset.mem_insert]
        constructor
        · intro h
          exact Or.inl ((Finset.mem_insert.mp (mem_starts.mp h).1).resolve_right hr)
        · rintro (rfl | h)
          · refine mem_starts.mpr ⟨Finset.mem_insert_self _ _, fun q hq hqp => ?_⟩
            rcases Finset.mem_insert.mp hq with rfl | hq
            · omega
            · exact hpred ⟨q, hq, hqp⟩
          · exact absurd (mem_starts.mp h).1 hr
    rw [hmore, if_neg hpred, Finset.card_insert_of_notMem]
    exact fun h => hnew (mem_starts.mp h).1

end DzIpc.Runs
