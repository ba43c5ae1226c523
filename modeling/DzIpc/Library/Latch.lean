import Mathlib.Data.List.Induction
import Mathlib.Tactic.Common

/-!
# Objects that keep what they last read

An object reads records one after the other.  A whole record overwrites what is looked at, any other
leaves it.

* `Latches.independent_iff`: what is looked at depends on the record only, exactly where the record
  is whole.
* `Latches.foldl`: after any records it is what the last whole one says, if there was one.
-/

namespace DzIpc

variable {σ β γ : Type*}

/-- What `view` shows of the object is overwritten by whole records and kept by the others. -/
structure Latches (read : σ → β → σ) (whole : β → Bool) (view : σ → γ) (value : β → γ) :
    Prop where
  replace : ∀ s b, whole b = true → view (read s b) = value b
  keep : ∀ s b, whole b = false → view (read s b) = view s

namespace Latches

variable {read : σ → β → σ} {whole : β → Bool} {view : σ → γ} {value : β → γ}

theorem independent_iff (h : Latches read whole view value) (hview : ∃ s s', view s ≠ view s')
    (b : β) : (∀ s s', view (read s b) = view (read s' b)) ↔ whole b = true := by
  constructor
  · intro hsame
    obtain ⟨s, s', hne⟩ := hview
    by_contra hkept
    have hkeep : whole b = false := Bool.eq_false_iff.mpr hkept
    have hs := hsame s s'
    rw [h.keep s b hkeep, h.keep s' b hkeep] at hs
    exact hne hs
  · intro hwhole s s'
    rw [h.replace s b hwhole, h.replace s' b hwhole]

/-- The last whole record is what is seen afterwards. -/
theorem foldl (h : Latches read whole view value) (records : List β) (s : σ) :
    view (records.foldl read s)
      = ((records.filter whole).getLast?.map value).getD (view s) := by
  induction records using List.reverseRecOn with
  | nil => rfl
  | append_singleton records b ih =>
      rw [List.foldl_append, List.foldl_cons, List.foldl_nil, List.filter_append]
      cases hwhole : whole b with
      | true =>
          rw [h.replace _ b hwhole, List.filter_cons_of_pos hwhole, List.filter_nil,
            List.getLast?_concat]
          rfl
      | false =>
          rw [h.keep _ b hwhole, List.filter_cons_of_neg (by simp [hwhole]), List.filter_nil,
            List.append_nil, ih]

end Latches

end DzIpc
