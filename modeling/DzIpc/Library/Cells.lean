import Mathlib.Data.List.Basic
import Mathlib.Tactic.Common

/-!
# Records written and copied cell by cell

A record that several parties share has no value of its own while one of them writes it: it is
read and written in cells, in any order.

* `get_copyCells` says what a record holds after some cells were copied into it.
* `AgreeOff` relates a record under way to the one it is to become: they agree off the cells
  that are still to be copied.  `AgreeOff.copyCells` is one step, and `AgreeOff.eq` its end.
-/

namespace DzIpc

/-- Records made of cells, each with a value. -/
class Celled (R : Type*) (C V : outParam Type*) where
  get : C → R → V
  /-- Copies one cell of the first record into the second. -/
  put : C → R → R → R
  get_put_self : ∀ c src dst, get c (put c src dst) = get c src
  get_put_ne : ∀ c c' src dst, c' ≠ c → get c' (put c src dst) = get c' dst
  ext : ∀ r r', (∀ c, get c r = get c r') → r = r'

namespace Cells

open Celled

variable {R C V : Type*} [Celled R C V]

/-- Copies cells of the first record into the second. -/
def copyCells (cells : List C) (src dst : R) : R :=
  cells.foldl (fun dst c => put c src dst) dst

theorem get_copyCells [DecidableEq C] (cells : List C) (src dst : R) (c : C) :
    get c (copyCells cells src dst) = if c ∈ cells then get c src else get c dst := by
  unfold copyCells
  induction cells generalizing dst with
  | nil => rw [List.foldl_nil, if_neg List.not_mem_nil]
  | cons first rest ih =>
      rw [List.foldl_cons, ih]
      by_cases hrest : c ∈ rest
      · rw [if_pos hrest, if_pos (List.mem_cons_of_mem first hrest)]
      · rw [if_neg hrest]
        by_cases hfirst : c = first
        · rw [hfirst, get_put_self, if_pos List.mem_cons_self]
        · rw [get_put_ne _ _ _ _ hfirst, if_neg]
          rw [List.mem_cons, not_or]
          exact ⟨hfirst, hrest⟩

/-- Off these cells the two records agree. -/
def AgreeOff (left : List C) (r r' : R) : Prop :=
  ∀ c, c ∉ left → get c r = get c r'

/-- All cells are still to be copied. -/
theorem agreeOff_of_all {left : List C} (hall : ∀ c, c ∈ left) (r r' : R) : AgreeOff left r r' :=
  fun c hc => absurd (hall c) hc

/-- Copied cells are off the list. -/
theorem AgreeOff.copyCells [DecidableEq C] {left : List C} {r r' : R} (h : AgreeOff left r r')
    (cells : List C) :
    AgreeOff (left.filter fun c => c ∉ cells) (copyCells cells r' r) r' := by
  intro c hc
  rw [get_copyCells]
  by_cases hmem : c ∈ cells
  · rw [if_pos hmem]
  · rw [if_neg hmem]
    apply h
    intro hleft
    exact hc (List.mem_filter.mpr ⟨hleft, decide_eq_true hmem⟩)

/-- With no cell left the records are the same. -/
theorem AgreeOff.eq {r r' : R} (h : AgreeOff [] r r') : r = r' :=
  ext r r' fun c => h c List.not_mem_nil

end Cells

end DzIpc
