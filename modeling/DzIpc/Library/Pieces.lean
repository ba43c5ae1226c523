import Mathlib.Data.List.DropRight
import Mathlib.Data.Nat.Notation
import Mathlib.Tactic.Common

/-!
# Pieces between separators

What a list is cut into by the elements that are separators, with the empty pieces left out: the
words of a line, the lines of a text.

* `pieces_append_sep` cuts a list at one separator, and `pieces_word` is where the cutting ends;
  `exists_sep` says that there is no third case.
* `pieces_trimLeft`, `pieces_trimRight`: separators at the ends do not count.
* `pieces_or`: to cut at two kinds of separators is to cut at one and then at the other.
* `eq_of_flatMap_eq`: two ways to map the pieces of a list to lists that agree on the whole agree
  piece by piece, if one is never the longer one.
-/

namespace DzIpc

variable {α β : Type*}

/-- The pieces of a list between separators; the empty ones are left out. -/
def pieces (sep : α → Bool) (l : List α) : List (List α) :=
  (l.splitOnP sep).filter fun w => !w.isEmpty

section Cut

variable {sep p q : α → Bool} {l w r : List α} {a : α}

@[simp] theorem pieces_nil : pieces sep [] = [] := by
  simp [pieces]

theorem pieces_append_sep (w r : List α) (ha : sep a = true) :
    pieces sep (w ++ a :: r) = pieces sep w ++ pieces sep r := by
  simp [pieces, List.splitOnP_append_cons w r ha]

theorem pieces_cons_sep (ha : sep a = true) : pieces sep (a :: l) = pieces sep l := by
  simpa using pieces_append_sep [] l ha

theorem pieces_word (hw : ∀ x ∈ w, sep x = false) (hne : w ≠ []) : pieces sep w = [w] := by
  rw [pieces, List.splitOnP_eq_singleton hw]
  simp [hne]

/-- A list has no separator, or it has a first one. -/
theorem exists_sep (sep : α → Bool) (l : List α) : (∀ x ∈ l, sep x = false) ∨
    ∃ w a r, l = w ++ a :: r ∧ (∀ x ∈ w, sep x = false) ∧ sep a = true := by
  induction l with
  | nil => simp
  | cons b l ih =>
    cases hb : sep b with
    | true => exact .inr ⟨[], b, l, rfl, by simp, hb⟩
    | false =>
      obtain hl | ⟨w, a, r, rfl, hw, ha⟩ := ih
      · exact .inl (List.forall_mem_cons.mpr ⟨hb, hl⟩)
      · exact .inr ⟨b :: w, a, r, rfl, List.forall_mem_cons.mpr ⟨hb, hw⟩, ha⟩

/-- Induction over the separators of a list, the first one first. -/
theorem sepInduction (sep : α → Bool) {motive : List α → Prop}
    (word : ∀ w, (∀ x ∈ w, sep x = false) → motive w)
    (cut : ∀ w a r, (∀ x ∈ w, sep x = false) → sep a = true →
      (∀ s, s <:+ r → motive s) → motive (w ++ a :: r)) (l : List α) : motive l := by
  induction hn : l.length using Nat.strong_induction_on generalizing l with
  | _ n ih =>
    subst hn
    obtain hl | ⟨w, a, r, rfl, hw, ha⟩ := exists_sep sep l
    · exact word l hl
    · apply cut w a r hw ha
      intro s hs
      apply ih s.length _ s rfl
      have hle : s.length ≤ r.length := hs.length_le
      rw [List.length_append, List.length_cons]
      omega

theorem pieces_congr (h : ∀ x ∈ l, p x = q x) : pieces p l = pieces q l := by
  induction l using sepInduction p with
  | word w hw =>
    rw [pieces, pieces, List.splitOnP_eq_singleton hw,
      List.splitOnP_eq_singleton fun x hx => (h x hx).symm.trans (hw x hx)]
  | cut w a r hw ha ih =>
    have hq : q a = true := (h a (by simp)).symm.trans ha
    rw [pieces_append_sep w r ha, pieces_append_sep w r hq, ih r List.suffix_rfl
      fun x hx => h x (by simp [hx])]
    congr 1
    rw [pieces, pieces, List.splitOnP_eq_singleton hw,
      List.splitOnP_eq_singleton fun x hx => (h x (by simp [hx])).symm.trans (hw x hx)]

/-- A piece is not empty and has no separator. -/
theorem mem_pieces (h : w ∈ pieces sep l) :
    w ≠ [] ∧ (∀ x ∈ w, sep x = false) ∧ ∀ x ∈ w, x ∈ l := by
  induction l using sepInduction sep with
  | word v hv =>
    rw [pieces, List.splitOnP_eq_singleton hv] at h
    obtain ⟨hw, hne⟩ := List.mem_filter.mp h
    obtain rfl := List.mem_singleton.mp hw
    exact ⟨by simpa using hne, hv, fun x hx => hx⟩
  | cut v a r hv ha ih =>
    rw [pieces_append_sep v r ha, List.mem_append] at h
    obtain h | h := h
    · rw [pieces, List.splitOnP_eq_singleton hv] at h
      obtain ⟨hw, hne⟩ := List.mem_filter.mp h
      obtain rfl := List.mem_singleton.mp hw
      exact ⟨by simpa using hne, hv, fun x hx => List.mem_append_left _ hx⟩
    · obtain ⟨hne, hsep, hmem⟩ := ih r List.suffix_rfl h
      exact ⟨hne, hsep, fun x hx => by simp [hmem x hx]⟩

/-! ## Ends -/

theorem pieces_append_left (hw : ∀ x ∈ w, sep x = true) :
    pieces sep (w ++ l) = pieces sep l := by
  induction w with
  | nil => rfl
  | cons a w ih =>
    rw [List.forall_mem_cons] at hw
    rw [List.cons_append, pieces_cons_sep hw.1, ih hw.2]

theorem pieces_seps (hw : ∀ x ∈ w, sep x = true) : pieces sep w = [] := by
  have happ := pieces_append_left (l := []) hw
  rwa [List.append_nil, pieces_nil] at happ

theorem pieces_append_right (hw : ∀ x ∈ w, sep x = true) :
    pieces sep (l ++ w) = pieces sep l := by
  cases w with
  | nil => rw [List.append_nil]
  | cons a w =>
    rw [List.forall_mem_cons] at hw
    rw [pieces_append_sep l w hw.1, pieces_seps hw.2, List.append_nil]

theorem pieces_trimLeft (sep : α → Bool) (l : List α) :
    pieces sep (l.dropWhile sep) = pieces sep l := by
  conv_rhs => rw [← List.takeWhile_append_dropWhile (p := sep) (l := l)]
  rw [pieces_append_left fun x hx => List.mem_takeWhile_imp hx]

theorem pieces_trimRight (sep : α → Bool) (l : List α) :
    pieces sep (l.rdropWhile sep) = pieces sep l := by
  conv_rhs => rw [← List.rdropWhile_append_rtakeWhile (p := sep) (l := l)]
  rw [pieces_append_right fun x hx => List.mem_rtakeWhile_imp hx]

/-- Two words with separators between them. -/
theorem pieces_two {v s : List α} (hv : ∀ x ∈ v, sep x = false) (hvne : v ≠ [])
    (hs : ∀ x ∈ s, sep x = true) (hsne : s ≠ []) :
    pieces sep (v ++ s ++ l) = v :: pieces sep l := by
  cases s with
  | nil => exact absurd rfl hsne
  | cons a s =>
    rw [List.forall_mem_cons] at hs
    rw [List.append_assoc, List.cons_append, pieces_append_sep v _ hs.1, pieces_word hv hvne,
      pieces_append_left hs.2]
    rfl

/-- The first piece of a list starts where the separators at its front end. -/
theorem head_pieces (sep : α → Bool) (l : List α) :
    (pieces sep l).head?.bind List.head? = (l.dropWhile sep).head? := by
  induction l with
  | nil => simp
  | cons a l ih =>
    cases ha : sep a with
    | true => rw [pieces_cons_sep ha, ih, List.dropWhile_cons_of_pos ha]
    | false =>
      rw [List.dropWhile_cons_of_neg (by simp [ha]), List.head?_cons]
      obtain hl | ⟨w, b, r, hl, hw, hb⟩ := exists_sep sep (a :: l)
      · rw [pieces_word hl (List.cons_ne_nil a l)]
        rfl
      · cases w with
        | nil =>
          rw [List.nil_append, List.cons.injEq] at hl
          rw [← hl.1, ha] at hb
          exact absurd hb (by simp)
        | cons c w =>
          have hc : a = c := (List.cons.injEq _ _ _ _ ▸ hl).1
          rw [hl, pieces_append_sep _ r hb, pieces_word hw (List.cons_ne_nil c w), hc]
          rfl

theorem head_rdropWhile (hhead : l.head? = some a) (ha : sep a = false) :
    (l.rdropWhile sep).head? = some a := by
  have hpre := List.rdropWhile_prefix (p := sep) (l := l)
  cases hl : l.rdropWhile sep with
  | nil =>
    have hall := List.rdropWhile_eq_nil_iff.mp hl a (List.mem_of_head? hhead)
    rw [ha] at hall
    exact absurd hall (by simp)
  | cons b t =>
    rw [hl] at hpre
    obtain ⟨r, rfl⟩ := hpre
    exact hhead

theorem head_dropWhile (hhead : (l.dropWhile sep).head? = some a) : sep a = false := by
  induction l with
  | nil => simp at hhead
  | cons b l ih =>
    cases hb : sep b with
    | true => exact ih (by rwa [List.dropWhile_cons_of_pos hb] at hhead)
    | false =>
      rw [List.dropWhile_cons_of_neg (by simp [hb]), List.head?_cons, Option.some.injEq] at hhead
      rwa [← hhead]

/-! ## Two kinds of separators -/

theorem pieces_or (p q : α → Bool) (l : List α) :
    pieces (fun x => p x || q x) l = (pieces p l).flatMap (pieces q) := by
  induction l using sepInduction p with
  | word w hw =>
    have hpq : pieces (fun x => p x || q x) w = pieces q w :=
      pieces_congr fun x hx => by rw [hw x hx, Bool.false_or]
    rw [hpq]
    by_cases hne : w = []
    · subst hne
      simp
    · rw [pieces_word hw hne]
      simp
  | cut w a r hw ha ih =>
    have hpq : pieces (fun x => p x || q x) w = pieces q w :=
      pieces_congr fun x hx => by rw [hw x hx, Bool.false_or]
    have hor : (p a || q a) = true := by rw [ha, Bool.true_or]
    rw [pieces_append_sep w r hor, pieces_append_sep w r ha, List.flatMap_append,
      ih r List.suffix_rfl, hpq]
    congr 1
    by_cases hne : w = []
    · subst hne
      simp
    · rw [pieces_word hw hne]
      simp

end Cut

/-! ## Lists of lists -/

/-- An empty piece that yields nothing can be left out. -/
theorem flatMap_pieces {f : List α → List β} (hf : f [] = []) (sep : α → Bool) (l : List α) :
    (pieces sep l).flatMap f = (l.splitOnP sep).flatMap f := by
  rw [pieces]
  induction l.splitOnP sep with
  | nil => rfl
  | cons w ws ih =>
    cases w with
    | nil => rw [List.filter_cons_of_neg (by simp), List.flatMap_cons, hf, ih, List.nil_append]
    | cons a w =>
      rw [List.filter_cons_of_pos (by simp), List.flatMap_cons, List.flatMap_cons, ih]

theorem length_flatMap_le {f g : α → List β} {l : List α}
    (hle : ∀ x ∈ l, (f x).length ≤ (g x).length) :
    (l.flatMap f).length ≤ (l.flatMap g).length := by
  induction l with
  | nil => rfl
  | cons a l ih =>
    rw [List.forall_mem_cons] at hle
    rw [List.flatMap_cons, List.flatMap_cons, List.length_append, List.length_append]
    exact Nat.add_le_add hle.1 (ih hle.2)

theorem eq_of_flatMap_eq {f g : α → List β} {l : List α}
    (hle : ∀ x ∈ l, (f x).length ≤ (g x).length) (h : l.flatMap f = l.flatMap g) :
    ∀ x ∈ l, f x = g x := by
  induction l with
  | nil => simp
  | cons a l ih =>
    rw [List.forall_mem_cons] at hle ⊢
    rw [List.flatMap_cons, List.flatMap_cons] at h
    have hrest := length_flatMap_le hle.2
    have hlen := congrArg List.length h
    rw [List.length_append, List.length_append] at hlen
    have heq : (f a).length = (g a).length := by
      have := hle.1
      omega
    obtain ⟨hhead, htail⟩ := List.append_inj h heq
    exact ⟨hhead, ih hle.2 htail⟩

end DzIpc
