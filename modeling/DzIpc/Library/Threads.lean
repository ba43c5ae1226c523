import Mathlib.Logic.Function.Basic
import Mathlib.Tactic.Common

/-!
# Threads that own things

The threads of a machine are a function in which a step replaces one value.  What a thread owns,
or has claimed, is read off its place; `f` is the reading.

* `Exclusive` says that no two threads own the same.  A thread that claims nothing new keeps it
  (`Exclusive.keep`), and so does one that claims what nobody had (`Exclusive.claim`).
* `Apart` says the same of two readings.
* `forall_update` and `exists_update` are the frame rules.
-/

namespace DzIpc.Threads

variable {T Pc β : Type*} {threads : T → Pc} {t : T} {pc : Pc} {f g : Pc → Option β}

/-- No two threads own the same. -/
def Exclusive (f : Pc → Option β) (threads : T → Pc) : Prop :=
  ∀ ⦃t t' p⦄, f (threads t) = some p → f (threads t') = some p → t = t'

/-- Nobody owns in the one sense what somebody owns in the other. -/
def Apart (f g : Pc → Option β) (threads : T → Pc) : Prop :=
  ∀ ⦃t t' p⦄, f (threads t) = some p → g (threads t') ≠ some p

theorem ne_of_none {t' : T} {p : β} (hnone : f (threads t) = none)
    (hsome : f (threads t') = some p) : t' ≠ t := by
  rintro rfl
  rw [hnone] at hsome
  cases hsome

variable [DecidableEq T]

/-- What a thread owns after a step in which nothing was claimed, it owned before. -/
theorem owned_before (hpc : ∀ p, f pc = some p → f (threads t) = some p) {t' : T} {p : β}
    (hp : f (Function.update threads t pc t') = some p) : f (threads t') = some p := by
  by_cases hne : t' = t
  · subst hne
    rw [Function.update_self] at hp
    exact hpc p hp
  · rwa [Function.update_of_ne hne] at hp

theorem Exclusive.keep (h : Exclusive f threads)
    (hpc : ∀ p, f pc = some p → f (threads t) = some p) :
    Exclusive f (Function.update threads t pc) :=
  fun _ _ _ h₁ h₂ => h (owned_before hpc h₁) (owned_before hpc h₂)

theorem Apart.keep (h : Apart f g threads) (hf : ∀ p, f pc = some p → f (threads t) = some p)
    (hg : ∀ p, g pc = some p → g (threads t) = some p) :
    Apart f g (Function.update threads t pc) :=
  fun _ _ _ h₁ h₂ => h (owned_before hf h₁) (owned_before hg h₂)

theorem Exclusive.claim (h : Exclusive f threads) {p₀ : β} (hpc : f pc = some p₀)
    (hnew : ∀ t', f (threads t') ≠ some p₀) : Exclusive f (Function.update threads t pc) := by
  intro t₁ t₂ p h₁ h₂
  by_cases hne₁ : t₁ = t <;> by_cases hne₂ : t₂ = t
  · rw [hne₁, hne₂]
  · rw [hne₁, Function.update_self, hpc] at h₁
    rw [Function.update_of_ne hne₂, ← h₁] at h₂
    exact absurd h₂ (hnew t₂)
  · rw [hne₂, Function.update_self, hpc] at h₂
    rw [Function.update_of_ne hne₁, ← h₂] at h₁
    exact absurd h₁ (hnew t₁)
  · rw [Function.update_of_ne hne₁] at h₁
    rw [Function.update_of_ne hne₂] at h₂
    exact h h₁ h₂

/-- What holds of the new place of one thread, and of the places of the others. -/
theorem forall_update {P : Pc → Prop} (hself : P pc) (hothers : ∀ t', t' ≠ t → P (threads t')) :
    ∀ t', P (Function.update threads t pc t') := by
  intro t'
  by_cases hne : t' = t
  · subst hne
    rw [Function.update_self]
    exact hself
  · rw [Function.update_of_ne hne]
    exact hothers t' hne

/-- What another thread owns, it owns after the step. -/
theorem exists_update {p : β} (hnone : f (threads t) = none) (h : ∃ t', f (threads t') = some p) :
    ∃ t', f (Function.update threads t pc t') = some p := by
  obtain ⟨t', ht'⟩ := h
  exact ⟨t', by rw [Function.update_of_ne (ne_of_none hnone ht'), ht']⟩

end DzIpc.Threads
