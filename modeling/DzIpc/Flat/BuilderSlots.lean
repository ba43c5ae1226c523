import DzIpc.Flat.Builder
import DzIpc.Flat.Laid
import Mathlib.Data.List.Flatten
import Mathlib.Data.List.Pairwise

/-!
# Where builders store

The slots of a record, and of what a `VarRef` leads to, lie side by side in it.

* `slotsOf_inside` and `slotsOf_apart`: the slots of a record are in it and do not overlap.
* `elemSlots_inside` and `elemSlots_apart`: so are those of the elements of an array.
* `mem_slotsOf_of_mem_members`: what a builder has a setter for is a slot of its record.
-/

namespace DzIpc.Flat

open Wire Blocks

/-! ## Ranges -/

/-- Two slots do not overlap. -/
def Apart (x y : ℕ × Member) : Prop :=
  x.1 + x.2.size ≤ y.1 ∨ y.1 + y.2.size ≤ x.1

/-- The slot lies between `lo` and `hi`. -/
def Inside (lo hi : ℕ) (x : ℕ × Member) : Prop :=
  lo ≤ x.1 ∧ x.1 + x.2.size ≤ hi

theorem Apart.symm {x y : ℕ × Member} (h : Apart x y) : Apart y x :=
  Or.symm h

instance : Std.Symm Apart := ⟨fun _ _ h => h.symm⟩

theorem Inside.mono {lo hi lo' hi' : ℕ} {x : ℕ × Member} (h : Inside lo hi x) (hlo : lo' ≤ lo)
    (hhi : hi ≤ hi') : Inside lo' hi' x :=
  ⟨hlo.trans h.1, h.2.trans hhi⟩

theorem apart_of_inside {lo mid mid' hi : ℕ} {x y : ℕ × Member} (hx : Inside lo mid x)
    (hy : Inside mid' hi y) (hmid : mid ≤ mid') : Apart x y :=
  Or.inl ((hx.2.trans hmid).trans hy.1)

theorem Member.size_pos (m : Member) : 0 < m.size := by
  cases m with
  | field k => exact memberSize_pos k
  | nested msg => exact rootSize_pos msg
  | elems msg => exact (by decide : 0 < varRefSize)

/-- Slots that do not overlap begin at different positions. -/
theorem Apart.ne {x y : ℕ × Member} (h : Apart x y) : x.1 ≠ y.1 := by
  have hx := x.2.size_pos
  have hy := y.2.size_pos
  unfold Apart at h
  omega

theorem Member.size_of_isRef {m : Member} (h : m.isRef = true) : m.size = varRefSize := by
  cases m with
  | field k =>
      cases k with
      | scalar s => cases h
      | bool => cases h
      | string => rfl
      | scalars s size =>
          cases size with
          | none => rfl
          | some n => cases h
      | bools size =>
          cases size with
          | none => rfl
          | some n => cases h
      | strings size => rfl
  | nested msg => cases h
  | elems msg => rfl

/-! ## The slots of a record -/

theorem slotsOf_inside (S : Schema) : ∀ base cur, ∀ x ∈ slotsOf S base cur,
    Inside (base + cur) (base + layoutEnd S cur) x := by
  induction S with
  | nil => exact fun _ _ x hx => absurd hx List.not_mem_nil
  | field name k rest ih =>
      intro base cur x hx
      have hstart := le_alignTo cur (memberAlign_pos k)
      have hend : _ ≤ layoutEnd rest _ := le_layoutEnd rest (alignTo cur (memberAlign k) + memberSize k)
      rcases List.mem_cons.mp hx with rfl | hrest
      · refine ⟨Nat.add_le_add_left hstart base, ?_⟩
        change base + alignTo cur (memberAlign k) + memberSize k ≤ base + layoutEnd rest _
        omega
      · exact (ih _ _ x hrest).mono (by omega) le_rfl
  | nested name msg rest ihmsg ih =>
      intro base cur x hx
      have hstart := le_alignTo cur (a := rootAlign) (by decide)
      have hend : _ ≤ layoutEnd rest _ := le_layoutEnd rest (alignTo cur rootAlign + rootSize msg)
      have hroot := layoutEnd_le_rootSize msg
      rcases List.mem_append.mp hx with hmsg | hrest
      · refine (ihmsg _ _ x hmsg).mono (by omega) ?_
        change _ ≤ base + layoutEnd rest _
        unfold rootSize at hend hroot
        omega
      · exact (ih _ _ x hrest).mono (by omega) le_rfl
  | nestedArray name size msg rest ihmsg ih =>
      intro base cur x hx
      have hstart := le_alignTo cur (a := varRefAlign) (by decide)
      have hend : _ ≤ layoutEnd rest _ := le_layoutEnd rest (alignTo cur varRefAlign + varRefSize)
      rcases List.mem_cons.mp hx with rfl | hrest
      · refine ⟨Nat.add_le_add_left hstart base, ?_⟩
        change base + alignTo cur varRefAlign + varRefSize ≤ base + layoutEnd rest _
        omega
      · exact (ih _ _ x hrest).mono (by omega) le_rfl

/-- The slots of a record are in it. -/
theorem slotsOf_inside_record (S : Schema) (base : ℕ) : ∀ x ∈ slotsOf S base 0,
    Inside base (base + rootSize S) x := by
  intro x hx
  exact (slotsOf_inside S base 0 x hx).mono (Nat.le_refl _)
    (Nat.add_le_add_left (layoutEnd_le_rootSize S) base)

theorem slotsOf_apart (S : Schema) : ∀ base cur, (slotsOf S base cur).Pairwise Apart := by
  induction S with
  | nil => exact fun _ _ => List.Pairwise.nil
  | field name k rest ih =>
      intro base cur
      refine List.pairwise_cons.mpr ⟨fun x hx => ?_, ih _ _⟩
      have hin := slotsOf_inside rest base _ x hx
      exact apart_of_inside ⟨le_rfl, Nat.add_assoc .. |>.le⟩ hin le_rfl
  | nested name msg rest ihmsg ih =>
      intro base cur
      refine List.pairwise_append.mpr ⟨ihmsg _ _, ih _ _, fun x hx y hy => ?_⟩
      have hin := slotsOf_inside_record msg _ x hx
      exact apart_of_inside hin (slotsOf_inside rest base _ y hy) (Nat.add_assoc ..).le
  | nestedArray name size msg rest ihmsg ih =>
      intro base cur
      refine List.pairwise_cons.mpr ⟨fun x hx => ?_, ih _ _⟩
      have hin := slotsOf_inside rest base _ x hx
      exact apart_of_inside ⟨le_rfl, Nat.add_assoc .. |>.le⟩ hin le_rfl

/-! ## The members of a builder -/

/-- A member is a slot of the record, or a record in it. -/
theorem mem_slotsOf_of_mem_members (S : Schema) (base : ℕ) : ∀ cur, ∀ x ∈ members S cur,
    match x.2 with
    | .nested msg => ∀ y ∈ slotsOf msg (base + x.1) 0, y ∈ slotsOf S base cur
    | m => (base + x.1, m) ∈ slotsOf S base cur := by
  induction S with
  | nil => exact fun _ x hx => absurd hx List.not_mem_nil
  | field name k rest ih =>
      intro cur x hx
      rcases List.mem_cons.mp hx with rfl | hrest
      · exact List.mem_cons_self
      · have hmem := ih _ x hrest
        split at hmem
        · exact fun y hy => List.mem_cons_of_mem _ (hmem y hy)
        · exact List.mem_cons_of_mem _ hmem
  | nested name msg rest ihmsg ih =>
      intro cur x hx
      rcases List.mem_cons.mp hx with rfl | hrest
      · exact fun y hy => List.mem_append_left _ hy
      · have hmem := ih _ x hrest
        split at hmem
        · exact fun y hy => List.mem_append_right _ (hmem y hy)
        · exact List.mem_append_right _ hmem
  | nestedArray name size msg rest ihmsg ih =>
      intro cur x hx
      rcases List.mem_cons.mp hx with rfl | hrest
      · exact List.mem_cons_self
      · have hmem := ih _ x hrest
        split at hmem
        · exact fun y hy => List.mem_cons_of_mem _ (hmem y hy)
        · exact List.mem_cons_of_mem _ hmem

/-- The records of the elements of an array are small. -/
def Member.Narrow : Member → Prop
  | .field _ => True
  | .nested msg => NarrowElems msg
  | .elems msg => rootSize msg < 2 ^ 32 ∧ NarrowElems msg

theorem narrow_of_mem_members (S : Schema) (h : NarrowElems S) : ∀ cur, ∀ x ∈ members S cur,
    x.2.Narrow := by
  induction S with
  | nil => exact fun _ x hx => absurd hx List.not_mem_nil
  | field name k rest ih =>
      intro cur x hx
      rcases List.mem_cons.mp hx with rfl | hrest
      · trivial
      · exact ih h _ x hrest
  | nested name msg rest ihmsg ih =>
      intro cur x hx
      rcases List.mem_cons.mp hx with rfl | hrest
      · exact h.1
      · exact ih h.2 _ x hrest
  | nestedArray name size msg rest ihmsg ih =>
      intro cur x hx
      rcases List.mem_cons.mp hx with rfl | hrest
      · exact ⟨h.1, h.2.1⟩
      · exact ih h.2.2 _ x hrest

/-! ## The slots of the elements -/

/-- Element `j` of `n` that are `size` bytes each. -/
theorem inside_elem {off size n j : ℕ} (hj : j < n) :
    off ≤ off + j * size ∧ off + j * size + size ≤ off + n * size := by
  have hmul : (j + 1) * size ≤ n * size := Nat.mul_le_mul_right size hj
  rw [Nat.succ_mul] at hmul
  omega

theorem elemSlots_inside (m : Member) (off : ℕ) {n : ℕ} (hn : 0 < n) : ∀ x ∈ elemSlots m off n,
    Inside off (off + n * m.elemSize) x := by
  intro x hx
  have hpnat : (n.toPNat' : ℕ) = n := PNat.toPNat'_coe hn
  unfold elemSlots at hx
  split at hx
  · rw [List.mem_singleton] at hx
    subst hx
    refine ⟨le_rfl, ?_⟩
    change off + Scalar.uint8.size * (n.toPNat' : ℕ) ≤ off + n * 1
    rw [hpnat, Nat.mul_one, show Scalar.uint8.size = 1 from rfl, Nat.one_mul]
  · rename_i s
    rw [List.mem_singleton] at hx
    subst hx
    refine ⟨le_rfl, ?_⟩
    change off + s.size * (n.toPNat' : ℕ) ≤ off + n * s.size
    rw [hpnat, Nat.mul_comm]
  · rw [List.mem_singleton] at hx
    subst hx
    refine ⟨le_rfl, ?_⟩
    change off + (n.toPNat' : ℕ) ≤ off + n * 1
    rw [hpnat, Nat.mul_one]
  · obtain ⟨j, hj, rfl⟩ := List.mem_map.mp hx
    exact inside_elem (List.mem_range.mp hj)
  · rename_i msg
    obtain ⟨j, hj, hxj⟩ := List.mem_flatMap.mp hx
    have helem : off ≤ off + j * rootSize msg ∧
        off + j * rootSize msg + rootSize msg ≤ off + n * rootSize msg :=
      inside_elem (List.mem_range.mp hj)
    exact (slotsOf_inside_record msg _ x hxj).mono helem.1 helem.2
  · exact absurd hx List.not_mem_nil

theorem elemSlots_apart (m : Member) (off n : ℕ) : (elemSlots m off n).Pairwise Apart := by
  have hbehind : ∀ {size i j : ℕ}, i < j → off + i * size + size ≤ off + j * size := by
    intro size i j hij
    exact (inside_elem hij).2
  unfold elemSlots
  split
  · exact List.pairwise_singleton _ _
  · exact List.pairwise_singleton _ _
  · exact List.pairwise_singleton _ _
  · rw [List.pairwise_map]
    exact List.pairwise_lt_range.imp fun hij => Or.inl (hbehind hij)
  · rename_i msg
    rw [List.pairwise_flatMap]
    refine ⟨fun j _ => slotsOf_apart msg _ 0, List.pairwise_lt_range.imp fun hij x hx y hy => ?_⟩
    exact apart_of_inside (slotsOf_inside_record msg _ x hx) (slotsOf_inside_record msg _ y hy)
      (hbehind hij)
  · exact List.Pairwise.nil

/-- The slot of element `j` of a table of strings. -/
theorem mem_elemSlots_strings {size : ArraySize} {off n j : ℕ} (hj : j < n) :
    (off + j * varRefSize, .field .string) ∈ elemSlots (.field (.strings size)) off n :=
  List.mem_map.mpr ⟨j, List.mem_range.mpr hj, rfl⟩

/-- The slots of element `j` of an array of messages. -/
theorem mem_elemSlots_elems {msg : Schema} {off n j : ℕ} (hj : j < n) {x : ℕ × Member}
    (hx : x ∈ slotsOf msg (off + j * rootSize msg) 0) : x ∈ elemSlots (.elems msg) off n :=
  List.mem_flatMap.mpr ⟨j, List.mem_range.mpr hj, hx⟩

end DzIpc.Flat
