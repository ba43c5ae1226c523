import Mathlib.Data.List.Count
import Mathlib.Tactic.Common

/-!
# Parties of a protocol

The parties of a machine are a list in which a step replaces one.  How many of them are in a
certain place then changes by the share of that one.
-/

namespace DzIpc.Parties

variable {α : Type*} {parties : List α} {i : ℕ} {p : α}

/-- Replacing one party changes the number of those that `P` holds of by that party's share. -/
theorem countP_set (p' : α) (hp : parties[i]? = some p) (P : α → Bool) :
    (parties.set i p').countP P + (P p).toNat = parties.countP P + (P p').toNat := by
  obtain ⟨hlt, rfl⟩ := List.getElem?_eq_some_iff.mp hp
  have hle : (P parties[i]).toNat ≤ parties.countP P := by
    cases hP : P parties[i] with
    | false => exact Nat.zero_le _
    | true => exact List.countP_pos_iff.mpr ⟨_, List.getElem_mem hlt, hP⟩
  have hif : ∀ b : Bool, (if b = true then 1 else 0) = b.toNat := by decide
  have hset := List.countP_set (p := P) (a := p') hlt
  rw [hif, hif] at hset
  omega

/-- What holds of all parties holds after one has been replaced. -/
theorem forall_mem_set {P : α → Prop} {p' : α} (hp' : P p') (h : ∀ p ∈ parties, P p) :
    ∀ p ∈ parties.set i p', P p := by
  intro q hq
  rcases List.mem_or_eq_of_mem_set hq with hold | rfl
  · exact h q hold
  · exact hp'

/-- What holds of some party still does after another one has been replaced. -/
theorem exists_mem_set {P : α → Prop} (p' : α) (hp : parties[i]? = some p)
    (h : ∃ q ∈ parties, P q) : P p ∨ ∃ q ∈ parties.set i p', P q := by
  obtain ⟨q, hq, hPq⟩ := h
  obtain ⟨j, hj⟩ := List.mem_iff_getElem?.mp hq
  by_cases hij : i = j
  · subst hij
    rw [hp] at hj
    cases hj
    exact .inl hPq
  · refine .inr ⟨q, List.mem_of_getElem? (i := j) ?_, hPq⟩
    rwa [List.getElem?_set_ne hij]

theorem mem_set_self (p' : α) (hp : parties[i]? = some p) : p' ∈ parties.set i p' := by
  obtain ⟨hlt, -⟩ := List.getElem?_eq_some_iff.mp hp
  exact List.mem_set hlt p'

theorem countP_pos (hp : parties[i]? = some p) {P : α → Bool} (hP : P p = true) :
    0 < parties.countP P :=
  List.countP_pos_iff.mpr ⟨p, List.mem_of_getElem? hp, hP⟩

end DzIpc.Parties
