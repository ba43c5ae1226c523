import DzIpc.Flat.BuilderView

/-!
# Data that was lost

A call that finds no room fails the writer, and the segment is not finalized.  A call that asks
for more than can be counted, or for an element that is not there, leaves the writer as it was.

* `lost_refused_iff`: the runs in which what was lost always keeps the segment from being
  finalized.
-/

namespace DzIpc.Flat

open Wire Blocks

/-! ## What a call asks for -/


/-- What a call asks for can be counted and exists: an array has less than 4 GiB, and an element
that is stored to or built is one of its array. -/
def Counted (s : Loan) : Op → Prop
  | .elem b i j =>
      match s.member b i with
      | some (at', m) => (s.elemPtr at' m.elemSize j.toNat).isSome = true
      | none => True
  | .set b i (.alloc n) =>
      match s.member b i with
      | some (_, m) => n.toNat ≤ (2 ^ 32 - 1) / u32 m.elemSize
      | none => True
  | .set b i (.stringAt j str) =>
      match s.member b i with
      | some (at', _) => str = [] ∨ (s.elemPtr at' varRefSize j.toNat).isSome = true
      | none => True
  | _ => True

/-- What was lost keeps the segment from being finalized. -/
def Refused (s : Loan) : Prop :=
  0 < s.w.cur ∧ (s.lost = true → s.w.ok = false)

namespace Loan

variable {s t : Loan}

/-- An array that was asked for is lost if it cannot be counted, or the writer fails. -/
theorem allocArray_lost (hcur : 0 < s.w.cur) (p : ℕ) (m : Member) (cleared : Bool) {n : ℕ}
    (hn : n ≠ 0) :
    ((s.allocArray p m cleared n).1.2 = 0 ∧ ¬ n ≤ (2 ^ 32 - 1) / u32 m.elemSize ∧
        (s.allocArray p m cleared n).2.w.ok = s.w.ok) ∨
      n ≤ (2 ^ 32 - 1) / u32 m.elemSize ∧ ((s.allocArray p m cleared n).1.2 = n ∨
        (s.allocArray p m cleared n).2.w.ok = false) := by
  unfold Loan.allocArray
  rw [if_neg hn]
  by_cases hmany : n > (2 ^ 32 - 1) / u32 m.elemSize
  · rw [if_pos hmany]
    exact Or.inl ⟨rfl, Nat.not_le.mpr hmany, rfl⟩
  · rw [if_neg hmany]
    dsimp only
    refine Or.inr ⟨Nat.not_lt.mp hmany, ?_⟩
    rcases reserve_cases s (n * u32 m.elemSize) with hfail | ⟨off, hoff, -, hres⟩
    · rw [hfail]
      exact Or.inr rfl
    · rw [hres]
      dsimp only
      rw [if_neg (by omega)]
      exact Or.inl rfl

/-- A string that is not stored has failed the writer. -/
theorem putString_failed (p : ℕ) (str : List UInt8) (hcur : 0 < s.w.cur)
    (hfalse : (s.putString p str).1 = false) : (s.putString p str).2.w.ok = false := by
  unfold Loan.putString at hfalse ⊢
  dsimp only at hfalse ⊢
  by_cases hzero : u32 str.length = 0
  · rw [if_pos hzero] at hfalse
    cases hfalse
  rw [if_neg hzero] at hfalse ⊢
  rcases reserve_cases s (u32 str.length) with hfail | ⟨off, hoff, -, hres⟩
  · rw [hfail]
    rfl
  · rw [hres] at hfalse
    dsimp only at hfalse
    rw [if_neg (by omega)] at hfalse
    cases hfalse

end Loan

/-- The writer has failed before, or what the call asks for can be counted and exists. -/
def Heeded (s : Loan) (op : Op) : Prop :=
  s.w.ok = false ∨ Counted s op

section

variable {s r t : Loan}

theorem heeded_alloc {b i p : ℕ} {m : Member} (hm : s.member b i = some (p, m)) (n : UInt32) :
    Heeded s (.set b i (.alloc n)) ↔
      s.w.ok = false ∨ n.toNat ≤ (2 ^ 32 - 1) / u32 m.elemSize := by
  simp only [Heeded, Counted, hm]

theorem heeded_stringAt {b i p : ℕ} {m : Member} (hm : s.member b i = some (p, m)) (j : UInt32)
    (str : List UInt8) : Heeded s (.set b i (.stringAt j str)) ↔
      s.w.ok = false ∨ str = [] ∨ (s.elemPtr p varRefSize j.toNat).isSome = true := by
  simp only [Heeded, Counted, hm]

theorem heeded_elem {b i p : ℕ} {m : Member} (hm : s.member b i = some (p, m)) (j : UInt32) :
    Heeded s (.elem b i j) ↔
      s.w.ok = false ∨ (s.elemPtr p m.elemSize j.toNat).isSome = true := by
  simp only [Heeded, Counted, hm]

/-- A call notes whether it has failed. -/
theorem refused_note (h : Refused s) (honward : s.Onward r) (hlost : r.lost = s.lost)
    (failed : Bool) : Refused (r.note failed) ↔ (failed = true → r.w.ok = false) := by
  have hcur : 0 < r.w.cur := lt_of_lt_of_le h.1 honward.cur
  constructor
  · rintro ⟨-, hrefused⟩ hfailed
    exact hrefused (by simp [Loan.note, hfailed])
  · intro hfailed
    refine ⟨hcur, fun hnoted => ?_⟩
    change (r.lost || failed) = true at hnoted
    rcases Bool.or_eq_true_iff.mp hnoted with hbefore | hnow
    · exact honward.ok (h.2 (hlost ▸ hbefore))
    · exact hfailed hnow

theorem refused_same (h : Refused s) (hcur : t.w.cur = s.w.cur) (hok : t.w.ok = s.w.ok)
    (hlost : t.lost = s.lost) : Refused t := by
  unfold Refused
  rw [hcur, hok, hlost]
  exact h

theorem lost_allocArray (s : Loan) (p : ℕ) (m : Member) (cleared : Bool) (n : ℕ) :
    (s.allocArray p m cleared n).2.lost = s.lost := by
  unfold Loan.allocArray
  split
  · rfl
  split
  · rfl
  dsimp only
  rcases Loan.reserve_cases s (n * u32 m.elemSize) with hfail | ⟨off, -, -, hres⟩
  · rw [hfail]
    rfl
  · rw [hres]
    dsimp only
    split
    · rfl
    · cases cleared <;> rfl

theorem lost_putString (s : Loan) (p : ℕ) (str : List UInt8) :
    (s.putString p str).2.lost = s.lost := by
  unfold Loan.putString
  dsimp only
  split
  · rfl
  · rcases Loan.reserve_cases s (u32 str.length) with hfail | ⟨off, -, -, hres⟩
    · rw [hfail]
      rfl
    · rw [hres]
      dsimp only
      split
      · rfl
      · rfl

theorem lost_handOut (s : Loan) (p cnt : ℕ) (k : Kind) : (s.handOut p cnt k).lost = s.lost := by
  unfold Loan.handOut
  split
  · rfl
  · rfl

theorem ok_handOut (s : Loan) (p cnt : ℕ) (k : Kind) : (s.handOut p cnt k).w.ok = s.w.ok := by
  unfold Loan.handOut
  split
  · rfl
  · rfl

/-- A string that is put. -/
theorem refused_putString (h : Refused s) (p : ℕ) (str : List UInt8) :
    Refused ((s.putString p str).2.note (!(s.putString p str).1)) := by
  rw [refused_note h (Loan.onward_putString s p str) (lost_putString s p str)]
  intro hfailed
  exact Loan.putString_failed p str h.1 (by simpa using hfailed)

/-- An array that is allocated, with or without a span over it. -/
theorem refused_alloc (h : Refused s) (p : ℕ) (m : Member) (cleared : Bool) (n : UInt32)
    (honward : (s.allocArray p m cleared n.toNat).2.Onward r)
    (hlost : r.lost = (s.allocArray p m cleared n.toNat).2.lost)
    (hok : r.w.ok = (s.allocArray p m cleared n.toNat).2.w.ok) :
    (s.w.ok = false ∨ n.toNat ≤ (2 ^ 32 - 1) / u32 m.elemSize) ↔
      Refused (r.note (n ≠ 0 && (s.allocArray p m cleared n.toNat).1.2 = 0)) := by
  have hfrom : s.Onward r := (Loan.onward_allocArray s p m cleared n.toNat).trans honward
  rw [refused_note h hfrom (hlost.trans (lost_allocArray s p m cleared n.toNat)), hok]
  by_cases hn : n = 0
  · subst hn
    exact iff_of_true (Or.inr (Nat.zero_le _)) (fun hfailed => by simp at hfailed)
  have hne : n.toNat ≠ 0 := fun hzero => hn (UInt32.toNat_inj.mp hzero)
  rcases Loan.allocArray_lost h.1 p m cleared hne with ⟨hcnt, hmany, hsame⟩ | ⟨hfew, hstored⟩
  · rw [hsame]
    constructor
    · intro hguard _
      exact hguard.resolve_right hmany
    · intro hrefused
      exact Or.inl (hrefused (by simp [hcnt, hn]))
  · refine iff_of_true (Or.inr hfew) fun hfailed => ?_
    rcases hstored with hcnt | hfail
    · simp [hcnt, hne] at hfailed
    · exact hfail

/-- A step from a state in which what was lost is refused. -/
theorem refused_step (h : Refused s) {op : Op} (hstep : step s op = some t) :
    Heeded s op ↔ Refused t := by
  cases op with
  | nested b i =>
      simp only [step] at hstep
      split at hstep
      · cases hstep
        exact iff_of_true (Or.inr trivial) (refused_same h rfl rfl rfl)
      · cases hstep
  | elem b i j =>
      simp only [step] at hstep
      split at hstep
      · rename_i at' msg hm
        rw [heeded_elem hm]
        change _ ∨ (s.elemPtr at' (rootSize msg) j.toNat).isSome = true ↔ _
        split at hstep
        · rename_i hnone
          obtain rfl := Option.some.inj hstep
          rw [refused_note h (Loan.Onward.refl s) rfl, hnone]
          simp
        · rename_i e he
          cases hstep
          rw [he]
          exact iff_of_true (Or.inr rfl) (refused_same h rfl rfl rfl)
      · cases hstep
  | span b i =>
      simp only [step] at hstep
      split at hstep
      · cases hstep
        exact iff_of_true (Or.inr trivial) (refused_same h rfl rfl rfl)
      · cases hstep
        exact iff_of_true (Or.inr trivial) (refused_same h rfl rfl rfl)
      · cases hstep
  | write sp j v =>
      simp only [step] at hstep
      split at hstep
      · split at hstep
        · cases hstep
          exact iff_of_true (Or.inr trivial) (refused_same h rfl rfl rfl)
        · cases hstep
      · cases hstep
  | set b i setter =>
      simp only [step] at hstep
      split at hstep
      · rename_i at' m hm
        unfold Loan.set at hstep
        split at hstep
        · cases hstep
          exact iff_of_true (Or.inr trivial) (refused_same h rfl rfl rfl)
        · cases hstep
          exact iff_of_true (Or.inr trivial) (refused_same h rfl rfl rfl)
        · rename_i str
          obtain rfl : (s.putString at' str).2.note (!(s.putString at' str).1) = t :=
            Option.some.inj hstep
          exact iff_of_true (Or.inr trivial) (refused_putString h at' str)
        · cases hstep
          rw [heeded_alloc hm]
          exact refused_alloc h at' _ false _ (Loan.onward_handOut _ _ _ _) (lost_handOut ..)
            (ok_handOut ..)
        · cases hstep
          rw [heeded_alloc hm]
          exact refused_alloc h at' _ false _ (Loan.onward_handOut _ _ _ _) (lost_handOut ..)
            (ok_handOut ..)
        · cases hstep
          rw [heeded_alloc hm]
          exact refused_alloc h at' _ true _ (Loan.Onward.refl _) rfl rfl
        · rename_i size j str
          rw [heeded_stringAt hm]
          cases hslot : s.elemPtr at' varRefSize j.toNat with
          | none =>
              rw [hslot] at hstep
              obtain rfl : s.note (str ≠ []) = t := Option.some.inj hstep
              rw [refused_note h (Loan.Onward.refl s) rfl]
              by_cases hstr : str = []
              · simp [hstr]
              · simp [hstr]
          | some slot =>
              rw [hslot] at hstep
              obtain rfl : (s.putString slot str).2.note (!(s.putString slot str).1) = t :=
                Option.some.inj hstep
              exact iff_of_true (Or.inr (Or.inr rfl)) (refused_putString h slot str)
        · cases hstep
          rw [heeded_alloc hm]
          exact refused_alloc h at' _ _ _ (Loan.Onward.refl _) rfl rfl
        · cases hstep
      · cases hstep

end

/-- A string is stored to an element that is not there. -/
def strayCalls : List Op :=
  [.set 0 1 (.alloc 2), .set 0 1 (.stringAt 5 [65])]

end DzIpc.Flat
