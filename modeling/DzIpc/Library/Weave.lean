import Mathlib.Data.List.Basic
import Mathlib.Tactic.Common

/-!
# Streams cut into blocks

A writer that lays elements one after another and puts a trailer of fixed length after
every `B`-th of them produces a *woven* stream.  The `n`-th element then stands at
position `place B T n`, where `T` is the length of a trailer.

* `weave_append` and `length_weave` describe the stream as a whole.
* `weave_within` and `weave_block` describe a segment that stays inside one block and one
  that fills its block to the end.
* `place_div` and `place_sub` recover the number of trailers before an element, and the
  element's own index, from its position alone.
* `slice_weave` reads a segment inside one block back from the stream.
-/

namespace DzIpc.Weave

variable {α : Type*} (B T : ℕ)

/-- The elements `data`, laid after `n` earlier ones, with the trailer `tail k` after the
element that completes block `k`. -/
def weave (tail : ℕ → List α) : ℕ → List α → List α
  | _, [] => []
  | n, a :: rest =>
      if (n + 1) % B = 0 then a :: (tail ((n + 1) / B) ++ weave tail (n + 1) rest)
      else a :: weave tail (n + 1) rest

/-- The position of element `n` in a stream with trailers of length `T`. -/
def place (n : ℕ) : ℕ :=
  n + T * (n / B)

/-- The number of trailers written while `len` elements are laid after `n` earlier ones. -/
def cuts (n len : ℕ) : ℕ :=
  (n + len) / B - n / B

/-! ## Positions -/

variable {B T}

theorem div_add_of_within {n c : ℕ} (hc : n % B + c < B) : (n + c) / B = n / B := by
  have hB : 0 < B := by omega
  have hsplit : n + c = B * (n / B) + (n % B + c) := by
    have := Nat.div_add_mod n B
    omega
  rw [hsplit, Nat.mul_add_div hB, Nat.div_eq_of_lt hc, Nat.add_zero]

theorem mod_add_of_within {n c : ℕ} (hc : n % B + c < B) : (n + c) % B = n % B + c := by
  have hsplit : n + c = B * (n / B) + (n % B + c) := by
    have := Nat.div_add_mod n B
    omega
  rw [hsplit, Nat.mul_add_mod, Nat.mod_eq_of_lt hc]

theorem div_add_of_block (hB : 0 < B) {n c : ℕ} (hc : n % B + c = B) :
    (n + c) / B = n / B + 1 := by
  have hsplit : n + c = B * (n / B + 1) := by
    have := Nat.div_add_mod n B
    rw [Nat.mul_succ]
    omega
  rw [hsplit, Nat.mul_div_cancel_left _ hB]

theorem mod_add_of_block {n c : ℕ} (hc : n % B + c = B) : (n + c) % B = 0 := by
  have hsplit : n + c = B * (n / B + 1) := by
    have := Nat.div_add_mod n B
    rw [Nat.mul_succ]
    omega
  rw [hsplit, Nat.mul_mod_right]

theorem place_zero : place B T 0 = 0 := by
  simp [place]

theorem place_add_of_within {n c : ℕ} (hc : n % B + c < B) :
    place B T (n + c) = place B T n + c := by
  unfold place
  rw [div_add_of_within hc]
  omega

theorem place_add_of_block (hB : 0 < B) {n c : ℕ} (hc : n % B + c = B) :
    place B T (n + c) = place B T n + c + T := by
  unfold place
  rw [div_add_of_block hB hc, Nat.mul_succ]
  omega

theorem le_place (n : ℕ) : n ≤ place B T n :=
  Nat.le_add_right _ _

theorem place_add_le (n c : ℕ) : place B T n + c ≤ place B T (n + c) := by
  have hdiv : T * (n / B) ≤ T * ((n + c) / B) :=
    Nat.mul_le_mul_left T (Nat.div_le_div_right (Nat.le_add_right n c))
  unfold place
  omega

theorem place_mono {m n : ℕ} (h : m ≤ n) : place B T m ≤ place B T n := by
  obtain ⟨c, rfl⟩ := Nat.exists_eq_add_of_le h
  exact Nat.le_trans (Nat.le_add_right _ _) (place_add_le m c)

/-- A position, written by its block. -/
private theorem place_eq (n : ℕ) : place B T n = (B + T) * (n / B) + n % B := by
  have := Nat.div_add_mod n B
  unfold place
  rw [Nat.add_mul]
  omega

/-- The number of trailers before an element, from its position. -/
theorem place_div (hB : 0 < B) (n : ℕ) : place B T n / (B + T) = n / B := by
  have hlt : n % B < B + T := Nat.lt_of_lt_of_le (Nat.mod_lt n hB) (Nat.le_add_right B T)
  rw [place_eq, Nat.mul_add_div (by omega), Nat.div_eq_of_lt hlt, Nat.add_zero]

/-- The index of an element, from its position. -/
theorem place_sub (hB : 0 < B) (n : ℕ) : place B T n - T * (place B T n / (B + T)) = n := by
  rw [place_div hB]
  unfold place
  omega

theorem cuts_eq_zero {n len : ℕ} (hlen : n % B + len < B) : cuts B n len = 0 := by
  unfold cuts
  rw [div_add_of_within hlen]
  omega

/-- Laying the rest of a block costs one cut, whatever follows. -/
theorem cuts_of_block (hB : 0 < B) {n len : ℕ} (hlen : B ≤ n % B + len) :
    cuts B n len = cuts B (n + (B - n % B)) (len - (B - n % B)) + 1 := by
  have hmod : n % B < B := Nat.mod_lt n hB
  have hdiv := div_add_of_block hB (n := n) (c := B - n % B) (by omega)
  have hsum : n + (B - n % B) + (len - (B - n % B)) = n + len := by omega
  have hle : (n + (B - n % B)) / B ≤ (n + len) / B := Nat.div_le_div_right (by omega)
  unfold cuts
  rw [hsum]
  omega

/-! ## Woven streams -/

variable {tail : ℕ → List α}

@[simp] theorem weave_nil (n : ℕ) : weave B tail n [] = [] := rfl

theorem weave_append (n : ℕ) (xs ys : List α) :
    weave B tail n (xs ++ ys) = weave B tail n xs ++ weave B tail (n + xs.length) ys := by
  induction xs generalizing n with
  | nil => simp
  | cons a xs ih =>
      have hlen : n + 1 + xs.length = n + (a :: xs).length := by
        simp only [List.length_cons]
        omega
      simp only [List.cons_append, weave, ih, hlen]
      split <;> simp

/-- A segment that ends before the end of its block is laid as it is. -/
theorem weave_within {n : ℕ} {xs : List α} (hxs : n % B + xs.length < B) :
    weave B tail n xs = xs := by
  induction xs generalizing n with
  | nil => rfl
  | cons a xs ih =>
      simp only [List.length_cons] at hxs
      have hmod : (n + 1) % B = n % B + 1 := mod_add_of_within (by omega)
      have hne : ¬ (n + 1) % B = 0 := by omega
      have hrest : (n + 1) % B + xs.length < B := by omega
      simp only [weave, hne, if_false, ih hrest]

/-- A segment that fills its block is followed by the block's trailer. -/
theorem weave_block {n : ℕ} {xs : List α} (hpos : xs ≠ []) (hxs : n % B + xs.length = B) :
    weave B tail n xs = xs ++ tail (n / B + 1) := by
  obtain ⟨ys, a, rfl⟩ : ∃ ys a, xs = ys ++ [a] :=
    ⟨xs.dropLast, xs.getLast hpos, (List.dropLast_append_getLast hpos).symm⟩
  simp only [List.length_append, List.length_singleton] at hxs
  have hB : 0 < B := by omega
  have hys : n % B + ys.length < B := by omega
  have hmod : (n + ys.length + 1) % B = 0 := mod_add_of_block (n := n) (c := ys.length + 1) (by omega)
  have hdiv : (n + ys.length + 1) / B = n / B + 1 :=
    div_add_of_block hB (n := n) (c := ys.length + 1) (by omega)
  rw [weave_append, weave_within hys]
  simp [weave, hmod, hdiv]

theorem length_weave (htail : ∀ k, (tail k).length = T) (hB : 0 < B) (n : ℕ) (xs : List α) :
    place B T n + (weave B tail n xs).length = place B T (n + xs.length) := by
  induction xs generalizing n with
  | nil => simp
  | cons a xs ih =>
      have hlast := ih (n + 1)
      have hsum : n + 1 + xs.length = n + (xs.length + 1) := by omega
      rw [hsum] at hlast
      by_cases hend : (n + 1) % B = 0
      · have hblock : n % B + 1 = B := by
          have hlt := Nat.mod_lt n hB
          by_contra hne
          have := mod_add_of_within (B := B) (n := n) (c := 1) (by omega)
          omega
        have hplace := place_add_of_block (T := T) hB hblock
        simp only [weave, hend, if_true, List.length_cons, List.length_append, htail]
        omega
      · have hwithin : n % B + 1 < B := by
          have hlt := Nat.mod_lt n hB
          by_contra hne
          exact hend (mod_add_of_block (n := n) (c := 1) (by omega))
        have hplace := place_add_of_within (T := T) hwithin
        simp only [weave, hend, if_false, List.length_cons]
        omega

/-- The stream laid from the start ends at the position of the next element. -/
theorem length_weave_zero (htail : ∀ k, (tail k).length = T) (hB : 0 < B) (xs : List α) :
    (weave B tail 0 xs).length = place B T xs.length := by
  have := length_weave htail hB 0 xs
  simpa [place_zero] using this

/-- What stands in the stream from the position of element `n` on. -/
theorem drop_weave (htail : ∀ k, (tail k).length = T) (hB : 0 < B) {n : ℕ} {data rest : List α}
    (extra : List α) (hdata : data.drop n = rest) (hn : n ≤ data.length) :
    (weave B tail 0 data ++ extra).drop (place B T n) = weave B tail n rest ++ extra := by
  have hsplit : data = data.take n ++ rest := by rw [← hdata, List.take_append_drop]
  have hlen : (data.take n).length = n := List.length_take_of_le hn
  have hplace : (weave B tail 0 (data.take n)).length = place B T n := by
    rw [length_weave_zero htail hB, hlen]
  rw [hsplit, weave_append, Nat.zero_add, hlen, List.append_assoc,
    List.drop_append_of_le_length (by omega), List.drop_of_length_le (by omega), List.nil_append]

/-- A segment inside one block, read back from the position of its first element. -/
theorem slice_weave (htail : ∀ k, (tail k).length = T) (hB : 0 < B) {n : ℕ}
    {data seg rest : List α} (extra : List α) (hdata : data.drop n = seg ++ rest)
    (hn : n ≤ data.length) (hseg : n % B + seg.length ≤ B) :
    ((weave B tail 0 data ++ extra).drop (place B T n)).take seg.length = seg := by
  rw [drop_weave htail hB extra hdata hn, weave_append]
  rcases Nat.lt_or_ge (n % B + seg.length) B with hlt | hge
  · rw [weave_within hlt, List.append_assoc, List.take_left]
  · by_cases hnil : seg = []
    · simp [hnil]
    · rw [weave_block hnil (by omega), List.append_assoc, List.append_assoc, List.take_left]

end DzIpc.Weave
