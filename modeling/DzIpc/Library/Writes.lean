import Mathlib.Logic.Function.Basic
import Mathlib.Data.Nat.Notation
import Mathlib.Tactic.Common

/-!
# Writes to a table

A critical section is a list of stores, each to one entry of a table.  A process that dies in it
has made the first of them, so that what is proved of every list of stores, for instance of every
prefix of another, holds of sections that are cut short.

* `apply_other`: an entry no store is for is as before.
* `apply_at`: the stores to one entry, one after the other.
* `apply_induct`: what each store keeps, the section keeps.
-/

namespace DzIpc

variable {Index Value : Type*} [DecidableEq Index]

/-- A store to an entry. -/
structure Write (Index Value : Type*) where
  index : Index
  store : Value → Value

namespace Write

/-- The table after a list of stores. -/
def apply : List (Write Index Value) → (Index → Value) → Index → Value
  | [], table => table
  | w :: rest, table => apply rest (Function.update table w.index (w.store (table w.index)))

/-- The stores of a list, all to one entry. -/
def all (i : Index) (stores : List (Value → Value)) : List (Write Index Value) :=
  stores.map fun f => { index := i, store := f }

variable {writes : List (Write Index Value)} {table : Index → Value} {i : Index}

theorem apply_other (h : ∀ w ∈ writes, w.index ≠ i) : apply writes table i = table i := by
  induction writes generalizing table with
  | nil => rfl
  | cons w rest ih =>
      have hne : i ≠ w.index := (h w List.mem_cons_self).symm
      rw [apply, ih fun w' hw' => h w' (List.mem_cons_of_mem w hw'), Function.update_of_ne hne]

theorem apply_at (stores : List (Value → Value)) :
    apply (all i stores) table i = stores.foldl (fun e f => f e) (table i) := by
  induction stores generalizing table with
  | nil => rfl
  | cons f rest ih =>
      have hstep := @ih (Function.update table i (f (table i)))
      rw [Function.update_self] at hstep
      exact hstep

/-- What every store to an entry keeps of it. -/
theorem apply_induct {P : Value → Prop} (hstore : ∀ w ∈ writes, w.index = i → ∀ e, P e → P (w.store e))
    (h : P (table i)) : P (apply writes table i) := by
  induction writes generalizing table with
  | nil => exact h
  | cons w rest ih =>
      apply ih fun w' hw' => hstore w' (List.mem_cons_of_mem w hw')
      by_cases hi : w.index = i
      · subst hi
        rw [Function.update_self]
        exact hstore w List.mem_cons_self rfl _ h
      · rw [Function.update_of_ne (Ne.symm hi)]
        exact h

omit [DecidableEq Index] in
theorem mem_all {w : Write Index Value} {stores : List (Value → Value)} (h : w ∈ all i stores) :
    w.index = i ∧ w.store ∈ stores := by
  obtain ⟨f, hf, rfl⟩ := List.mem_map.mp h
  exact ⟨rfl, hf⟩

end Write

end DzIpc
