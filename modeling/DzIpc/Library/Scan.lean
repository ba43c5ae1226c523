import Mathlib.Algebra.GroupWithZero.Nat
import Mathlib.Data.List.Basic
import Mathlib.Data.Nat.Notation
import Mathlib.Tactic.Common

/-!
# Encoded items, one behind the other

A list that holds the encodings of some items is read back item by item, each with the position
at which it starts.

* `scan_flatMap`: reading back what was written gives the items, at their `places`.
* `places_append`: the place of an item is the length of what was written before it.
-/

namespace DzIpc

variable {α β : Type*}

/-- Read items to the end of a list that starts at position `pos`, with the position of each. -/
def scan (read : List β → Option (α × List β)) : ℕ → ℕ → List β → Option (List (ℕ × α))
  | _, _, [] => some []
  | 0, _, _ :: _ => none
  | fuel + 1, pos, b :: bs =>
    (read (b :: bs)).bind fun (a, rest) =>
      (scan read fuel (pos + ((b :: bs).length - rest.length)) rest).map fun items =>
        (pos, a) :: items

/-- Items with the positions at which they start. -/
def places (size : α → ℕ) : ℕ → List α → List (ℕ × α)
  | _, [] => []
  | pos, a :: items => (pos, a) :: places size (pos + size a) items

variable {read : List β → Option (α × List β)} {write : α → List β} {items : List α}

/-- Writing and reading back. -/
structure Reads (read : List β → Option (α × List β)) (write : α → List β) (a : α) : Prop where
  ne_nil : write a ≠ []
  read_write : ∀ rest, read (write a ++ rest) = some (a, rest)

theorem length_le_length_flatMap (h : ∀ a ∈ items, Reads read write a) :
    items.length ≤ (items.flatMap write).length := by
  induction items with
  | nil => exact Nat.le_refl 0
  | cons a items ih =>
    rw [List.forall_mem_cons] at h
    have hpos := List.length_pos_iff.mpr h.1.ne_nil
    have hrest := ih h.2
    rw [List.flatMap_cons, List.length_append, List.length_cons]
    omega

theorem scan_flatMap (h : ∀ a ∈ items, Reads read write a) (fuel pos : ℕ)
    (hfuel : items.length ≤ fuel) :
    scan read fuel pos (items.flatMap write) =
      some (places (fun a => (write a).length) pos items) := by
  induction items generalizing fuel pos with
  | nil =>
    rw [List.flatMap_nil, places]
    cases fuel <;> rw [scan]
  | cons a items ih =>
    rw [List.forall_mem_cons] at h
    rw [List.length_cons] at hfuel
    obtain ⟨fuel, rfl⟩ : ∃ n, fuel = n + 1 := ⟨fuel - 1, by omega⟩
    obtain ⟨b, bs, hbs⟩ := List.exists_cons_of_ne_nil
      (List.append_ne_nil_of_left_ne_nil h.1.ne_nil (items.flatMap write))
    have hread := h.1.read_write (items.flatMap write)
    have hlen : (b :: bs).length - (items.flatMap write).length = (write a).length := by
      rw [← hbs, List.length_append, Nat.add_sub_cancel]
    rw [hbs] at hread
    rw [List.flatMap_cons, hbs, scan, hread, places]
    rw [Option.bind_some]
    simp only
    rw [hlen, ih h.2 fuel _ (by omega)]
    rfl

@[simp] theorem map_snd_places (size : α → ℕ) (pos : ℕ) (items : List α) :
    (places size pos items).map Prod.snd = items := by
  induction items generalizing pos with
  | nil => rfl
  | cons a items ih => rw [places, List.map_cons, ih]

@[simp] theorem length_places (size : α → ℕ) (pos : ℕ) (items : List α) :
    (places size pos items).length = items.length := by
  rw [← List.length_map Prod.snd, map_snd_places]

theorem places_append (size : α → ℕ) (pos : ℕ) (first second : List α) :
    places size pos (first ++ second) =
      places size pos first ++ places size (pos + (first.map size).sum) second := by
  induction first generalizing pos with
  | nil => rfl
  | cons a first ih =>
    rw [List.cons_append, places, ih, places, List.map_cons, List.sum_cons, Nat.add_assoc]
    rfl

theorem places_map (size : β → ℕ) (f : α → β) (pos : ℕ) (items : List α) :
    places size pos (items.map f) =
      (places (fun a => size (f a)) pos items).map (Prod.map id f) := by
  induction items generalizing pos with
  | nil => rfl
  | cons a items ih =>
    rw [List.map_cons, places, ih, places, List.map_cons]
    rfl

theorem le_of_mem_places {size : α → ℕ} {pos : ℕ} {p : ℕ × α} (h : p ∈ places size pos items) :
    p.1 ≤ pos + (items.map size).sum := by
  induction items generalizing pos with
  | nil => nomatch h
  | cons a items ih =>
    rw [List.map_cons, List.sum_cons]
    rcases List.mem_cons.mp h with rfl | h
    · exact Nat.le_add_right _ _
    · have hle := ih h
      omega

theorem mapM_eq_some_map {f : α → Option β} {g : α → β} (h : ∀ a ∈ items, f a = some (g a)) :
    items.mapM f = some (items.map g) := by
  induction items with
  | nil => rfl
  | cons a items ih =>
    rw [List.forall_mem_cons] at h
    rw [List.mapM_cons, h.1, ih h.2]
    rfl

end DzIpc
