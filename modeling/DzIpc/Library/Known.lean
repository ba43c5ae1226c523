import DzIpc.Library.Blocks

/-!
# What is known of a list

A list stands for a memory that is overwritten range by range, and of a range of it one may know
some elements and not others.  What is known of a range stays known while others are overwritten,
and grows with what is overwritten in it.

* `Knows` says that what is known of a range is so.
* `knows_overwrite`, `Knows.overwrite_apart` and `Knows.overwrite_part` are the rules.
* `Knows.slice_eq` reads a range of which all is known, and `everything` says whether that is so.
-/

namespace DzIpc.Blocks

variable {α : Type*} {l l' src : List α} {p pos start : ℕ} {known : List (Option α)}

/-- From position `p` on, the list has the elements that are known. -/
def Knows (l : List α) (p : ℕ) (known : List (Option α)) : Prop :=
  ∀ i x, known[i]? = some (some x) → l[p + i]? = some x

/-- The elements, if all of them are known. -/
def everything : List (Option α) → Option (List α)
  | [] => some []
  | none :: _ => none
  | some x :: rest => (everything rest).map (x :: ·)

theorem everything_map_some (l : List α) : everything (l.map some) = some l := by
  induction l with
  | nil => rfl
  | cons x rest ih => simp [everything, ih]

theorem eq_map_of_everything : everything known = some l → known = l.map some := by
  induction known generalizing l with
  | nil =>
      rintro ⟨⟩
      rfl
  | cons x rest ih =>
      intro h
      cases x with
      | none => cases h
      | some x =>
          obtain ⟨l', hl', rfl⟩ := Option.map_eq_some_iff.mp h
          rw [List.map_cons, ih hl']

theorem getElem?_overwrite (hroom : pos + src.length ≤ l.length) (i : ℕ) :
    (overwrite l pos src)[i]? =
      if pos ≤ i ∧ i < pos + src.length then src[i - pos]? else l[i]? := by
  have htake : (l.take pos).length = pos := List.length_take_of_le (by omega)
  unfold overwrite
  by_cases hbefore : i < pos
  · rw [if_neg (by omega), List.append_assoc, List.getElem?_append_left (by omega),
      List.getElem?_take_of_lt hbefore]
  · rw [List.append_assoc, List.getElem?_append_right (by omega), htake]
    by_cases hin : i < pos + src.length
    · rw [if_pos ⟨by omega, hin⟩, List.getElem?_append_left (by omega)]
    · rw [if_neg (by omega), List.getElem?_append_right (by omega), List.getElem?_drop]
      congr 1
      omega

theorem Knows.congr (h : Knows l p known)
    (hsame : ∀ i, p ≤ i → i < p + known.length → l'[i]? = l[i]?) : Knows l' p known := by
  intro i x hi
  have hlt : i < known.length := (List.getElem?_eq_some_iff.mp hi).1
  rw [hsame (p + i) (Nat.le_add_right p i) (by omega)]
  exact h i x hi

theorem knows_unknown (l : List α) (p n : ℕ) : Knows l p (List.replicate n none) := by
  intro i x hi
  rw [List.getElem?_replicate] at hi
  split at hi
  · cases hi
  · cases hi

/-- What is known where it has been overwritten. -/
theorem knows_overwrite (hroom : pos + src.length ≤ l.length) :
    Knows (overwrite l pos src) pos (src.map some) := by
  intro i x hi
  rw [List.getElem?_map, Option.map_eq_some_iff] at hi
  obtain ⟨y, hy, hxy⟩ := hi
  obtain rfl : y = x := Option.some.inj hxy
  have hlt : i < src.length := (List.getElem?_eq_some_iff.mp hy).1
  rw [getElem?_overwrite hroom, if_pos ⟨by omega, by omega⟩, Nat.add_sub_cancel_left]
  exact hy

/-- What is known apart from where it is overwritten. -/
theorem Knows.overwrite_apart (h : Knows l p known) (hroom : pos + src.length ≤ l.length)
    (hapart : p + known.length ≤ pos ∨ pos + src.length ≤ p) : Knows (overwrite l pos src) p known := by
  refine h.congr fun i hge hlt => ?_
  rw [getElem?_overwrite hroom, if_neg (by omega)]

/-- What is known of a range after a part of it is overwritten. -/
theorem Knows.overwrite_part (h : Knows l p known) (hroom : p + start + src.length ≤ l.length)
    (hin : start + src.length ≤ known.length) :
    Knows (overwrite l (p + start) src) p (overwrite known start (src.map some)) := by
  intro i x hi
  rw [getElem?_overwrite (by rwa [List.length_map])] at hi
  rw [getElem?_overwrite hroom]
  rw [List.length_map] at hi
  by_cases hpart : start ≤ i ∧ i < start + src.length
  · rw [if_pos hpart, List.getElem?_map, Option.map_eq_some_iff] at hi
    obtain ⟨y, hy, hxy⟩ := hi
    obtain rfl : y = x := Option.some.inj hxy
    rw [if_pos ⟨by omega, by omega⟩, show p + i - (p + start) = i - start by omega]
    exact hy
  · rw [if_neg hpart] at hi
    rw [if_neg (by omega)]
    exact h i x hi

/-- A range of which all is known. -/
theorem Knows.slice_eq {bytes : List α} (h : Knows l p (bytes.map some)) :
    slice p bytes.length l = bytes := by
  apply List.ext_getElem?
  intro i
  unfold slice
  by_cases hi : i < bytes.length
  · rw [List.getElem?_take_of_lt hi, List.getElem?_drop]
    have hknown : (bytes.map some)[i]? = some (some bytes[i]) := by
      rw [List.getElem?_map, List.getElem?_eq_getElem hi, Option.map_some]
    rw [h i _ hknown, List.getElem?_eq_getElem hi]
  · have htake : ((l.drop p).take bytes.length).length ≤ i := by
      rw [List.length_take]
      omega
    rw [List.getElem?_eq_none htake, List.getElem?_eq_none (by omega)]

end DzIpc.Blocks
