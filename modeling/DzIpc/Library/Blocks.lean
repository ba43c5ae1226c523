import Mathlib.Data.List.Basic
import Mathlib.Tactic.Common

/-!
# Lists as blocks

A list of any length is cut into blocks of `B` elements, the last of which may be shorter,
and put together again block by block, in any order, in an array that is overwritten in
place.

* `getElem?_blocks` and `flatten_blocks` describe the cut; `blocks_flatten` cuts blocks
  laid one after another again.
* `slice_overwrite_self` and `slice_overwrite_of_disjoint` say what an overwritten range
  and a range apart from it hold afterwards.
-/

namespace DzIpc.Blocks

variable {α : Type*}

/-- The `len` elements from position `pos` on. -/
def slice (pos len : ℕ) (l : List α) : List α :=
  (l.drop pos).take len

/-- The list with the elements from position `pos` on replaced by those of `src`. -/
def overwrite (l : List α) (pos : ℕ) (src : List α) : List α :=
  l.take pos ++ src ++ l.drop (pos + src.length)

/-- The number of blocks of `B` elements that `n` elements fill or begin. -/
def blockCount (B n : ℕ) : ℕ :=
  (n + B - 1) / B

/-- The blocks of `B` elements of a list. -/
def blocks (B : ℕ) (l : List α) : List (List α) :=
  (List.range (blockCount B l.length)).map fun i => slice (B * i) B l

variable {B : ℕ} {l src : List α}

/-! ## Cutting -/

@[simp] theorem length_blocks : (blocks B l).length = blockCount B l.length := by
  simp [blocks]

theorem lt_blockCount (hB : 0 < B) {i n : ℕ} : i < blockCount B n ↔ B * i < n := by
  rw [blockCount, ← Nat.succ_le_iff, Nat.le_div_iff_mul_le hB, Nat.succ_mul, Nat.mul_comm]
  omega

theorem getElem?_blocks (hB : 0 < B) (i : ℕ) :
    (blocks B l)[i]? = if B * i < l.length then some (slice (B * i) B l) else none := by
  by_cases hi : B * i < l.length
  · have hlt : i < (List.range (blockCount B l.length)).length := by
      rw [List.length_range]
      exact (lt_blockCount hB).mpr hi
    rw [if_pos hi, blocks, List.getElem?_map, List.getElem?_eq_getElem hlt, List.getElem_range]
    rfl
  · rw [if_neg hi, List.getElem?_eq_none_iff, length_blocks]
    exact Nat.le_of_not_lt fun hlt => hi ((lt_blockCount hB).mp hlt)

private theorem flatten_map_slice (n : ℕ) :
    ((List.range n).map fun i => slice (B * i) B l).flatten = l.take (B * n) := by
  induction n with
  | zero => simp
  | succ n ih =>
      rw [List.range_succ, List.map_append, List.flatten_append, ih, Nat.mul_succ, List.take_add]
      simp [slice]

/-- The blocks, laid one after another, are the list. -/
theorem flatten_blocks (hB : 0 < B) : (blocks B l).flatten = l := by
  rw [blocks, flatten_map_slice, List.take_of_length_le]
  by_contra hlt
  have := (lt_blockCount hB).mpr (Nat.not_le.mp hlt)
  omega

/-! ## Cutting again -/

theorem blocks_nil (hB : 0 < B) : blocks B ([] : List α) = [] := by
  have hcount : blockCount B 0 = 0 := by
    by_contra hne
    have := (lt_blockCount hB).mp (Nat.pos_of_ne_zero hne)
    omega
  rw [blocks, List.length_nil, hcount]
  rfl

theorem blocks_of_length_le {a : List α} (hpos : 0 < a.length) (hle : a.length ≤ B) :
    blocks B a = [a] := by
  have hB : 0 < B := by omega
  have hcount : blockCount B a.length = 1 := by
    apply Nat.le_antisymm
    · by_contra hgt
      have := (lt_blockCount (n := a.length) hB).mp (Nat.not_le.mp hgt)
      omega
    · exact (lt_blockCount hB).mpr (by omega)
  rw [blocks, hcount, List.range_one, List.map_singleton, slice, Nat.mul_zero, List.drop_zero,
    List.take_of_length_le hle]

theorem blocks_append (hB : 0 < B) {a : List α} (ha : a.length = B) (l : List α) :
    blocks B (a ++ l) = a :: blocks B l := by
  have hcount : blockCount B (a ++ l).length = blockCount B l.length + 1 := by
    rw [blockCount, blockCount, List.length_append, ha,
      show B + l.length + B - 1 = l.length + B - 1 + B by omega, Nat.add_div_right _ hB]
  rw [blocks, hcount, List.range_succ_eq_map, List.map_cons, List.map_map]
  congr 1
  · rw [slice, Nat.mul_zero, List.drop_zero, List.take_left' ha]
  · rw [blocks, List.map_inj_left]
    intro i _
    rw [Function.comp_apply, slice, slice, Nat.mul_succ, Nat.add_comm, ← List.drop_drop,
      List.drop_left' ha]

/-- All blocks but the last have `B` elements, and the last has at least one. -/
def Blocked (B : ℕ) : List (List α) → Prop
  | [] => True
  | [a] => 0 < a.length ∧ a.length ≤ B
  | a :: b :: rest => a.length = B ∧ Blocked B (b :: rest)

/-- Whether blocks are well cut depends on their lengths only. -/
theorem Blocked.of_lengths {xs ys : List (List α)} (h : Blocked B xs)
    (hlen : xs.map List.length = ys.map List.length) : Blocked B ys := by
  induction xs generalizing ys with
  | nil =>
      obtain rfl : ys = [] := by simpa using hlen.symm
      trivial
  | cons a rest ih =>
      obtain ⟨a', ys, rfl⟩ : ∃ a' ys', ys = a' :: ys' := by
        cases ys with
        | nil => cases hlen
        | cons a' ys => exact ⟨a', ys, rfl⟩
      rw [List.map_cons, List.map_cons, List.cons.injEq] at hlen
      obtain ⟨ha, hrest⟩ := hlen
      cases rest with
      | nil =>
          obtain rfl : ys = [] := by simpa using hrest.symm
          exact ⟨ha ▸ h.1, ha ▸ h.2⟩
      | cons b rest =>
          obtain ⟨b', ys, rfl⟩ : ∃ b' ys', ys = b' :: ys' := by
            cases ys with
            | nil => cases hrest
            | cons b' ys => exact ⟨b', ys, rfl⟩
          exact ⟨ha ▸ h.1, ih h.2 hrest⟩

/-- Well-cut blocks, laid one after another, are cut into the same blocks again. -/
theorem blocks_flatten (hB : 0 < B) {xs : List (List α)} (h : Blocked B xs) :
    blocks B xs.flatten = xs := by
  induction xs with
  | nil => exact blocks_nil hB
  | cons a rest ih =>
      cases rest with
      | nil =>
          rw [List.flatten_cons, List.flatten_nil, List.append_nil]
          exact blocks_of_length_le h.1 h.2
      | cons b rest => rw [List.flatten_cons, blocks_append hB h.1, ih h.2]

theorem blocked_blocks (hB : 0 < B) (l : List α) : Blocked B (blocks B l) := by
  induction hn : l.length using Nat.strongRecOn generalizing l with
  | ind n ih =>
      subst hn
      by_cases hnil : l = []
      · rw [hnil, blocks_nil hB]
        trivial
      have hpos : 0 < l.length := List.length_pos_iff.mpr hnil
      by_cases hle : l.length ≤ B
      · rw [blocks_of_length_le hpos hle]
        exact ⟨hpos, hle⟩
      · have htake : (l.take B).length = B := List.length_take_of_le (by omega)
        have hdrop : (l.drop B).length < l.length := by
          rw [List.length_drop]
          omega
        have hrest := ih _ hdrop _ rfl
        have hne : blocks B (l.drop B) ≠ [] := by
          intro hempty
          have hflat := flatten_blocks hB (l := l.drop B)
          rw [hempty, List.flatten_nil] at hflat
          have := congrArg List.length hflat
          rw [List.length_nil, List.length_drop] at this
          omega
        obtain ⟨b, rest, hcons⟩ := List.exists_cons_of_ne_nil hne
        rw [← List.take_append_drop B l, blocks_append hB htake, hcons]
        exact ⟨htake, hcons ▸ hrest⟩

/-! ## Overwriting -/

theorem length_overwrite {pos : ℕ} (hroom : pos + src.length ≤ l.length) :
    (overwrite l pos src).length = l.length := by
  simp [overwrite]
  omega

theorem slice_overwrite_self {pos len : ℕ} (hroom : pos + src.length ≤ l.length)
    (hlen : len = src.length ∨ src.length ≤ len ∧ pos + src.length = l.length) :
    slice pos len (overwrite l pos src) = src := by
  have htake : (l.take pos).length = pos := List.length_take_of_le (by omega)
  rw [slice, overwrite, List.append_assoc, List.drop_left' htake]
  rcases hlen with rfl | ⟨hle, hend⟩
  · exact List.take_left' rfl
  · rw [List.drop_of_length_le (by omega), List.append_nil, List.take_of_length_le hle]

theorem slice_overwrite_of_disjoint {pos p len : ℕ} (hroom : pos + src.length ≤ l.length)
    (hapart : p + len ≤ pos ∨ pos + src.length ≤ p) :
    slice p len (overwrite l pos src) = slice p len l := by
  have htake : (l.take pos).length = pos := List.length_take_of_le (by omega)
  rcases hapart with hbefore | hbehind
  · rw [slice, overwrite, List.append_assoc, List.drop_append_of_le_length (by omega),
      List.take_append_of_le_length (by rw [List.length_drop]; omega), List.drop_take,
      List.take_take, Nat.min_eq_left (by omega)]
    rfl
  · obtain ⟨k, rfl⟩ := Nat.exists_eq_add_of_le hbehind
    have hfront : (l.take pos ++ src).length = pos + src.length := by
      rw [List.length_append, htake]
    rw [slice, overwrite, ← List.drop_drop, List.drop_left' hfront, List.drop_drop]
    rfl

end DzIpc.Blocks
