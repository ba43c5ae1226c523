import DzIpc.Flat.BuilderView
import DzIpc.Library.Refinement

/-!
# The chunk that was there before

Two loans whose chunks have one size go through the same calls side by side: a reference that
settled calls follow has been stored, so that it is the same in both.

* `Loan.Twin` says that two loans differ in their chunks alone, and `Loan.Twin.step` that settled
  calls keep it.
* `finalize_of_chunk`: the old bytes of the chunk make no difference to what has been stored.
-/

namespace DzIpc.Flat

open Wire Blocks

/-! ## Loans that differ in their chunks -/


/-- The two loans differ in their chunks alone. -/
def Loan.Twin (s s' : Loan) : Prop :=
  ∃ seg, s' = { s with w := { s.w with seg := seg } }

namespace Loan

variable {s s' t : Loan}

theorem Twin.reserve (h : s.Twin s') (n : ℕ) : ∃ off r r', s.reserve n = (off, r) ∧
    s'.reserve n = (off, r') ∧ r.Twin r' := by
  obtain ⟨seg, rfl⟩ := h
  unfold Loan.reserve Writer.reserve
  dsimp only
  split
  · exact ⟨_, _, _, rfl, rfl, _, rfl⟩
  · exact ⟨_, _, _, rfl, rfl, _, rfl⟩

theorem Twin.setRef (h : s.Twin s') (p off cnt : ℕ) : (s.setRef p off cnt).Twin (s'.setRef p off cnt) := by
  obtain ⟨seg, rfl⟩ := h
  exact ⟨_, rfl⟩

theorem Twin.setBytes (h : s.Twin s') (p : ℕ) (bytes : List UInt8) :
    (s.setBytes p bytes).Twin (s'.setBytes p bytes) := by
  obtain ⟨seg, rfl⟩ := h
  exact ⟨_, rfl⟩

theorem Twin.setItem (h : s.Twin s') (p start : ℕ) (bytes : List UInt8) :
    (s.setItem p start bytes).Twin (s'.setItem p start bytes) := by
  obtain ⟨seg, rfl⟩ := h
  exact ⟨_, rfl⟩

theorem Twin.grow (h : s.Twin s') (new : List (ℕ × Member)) (cleared : Bool) :
    (s.grow new cleared).Twin (s'.grow new cleared) := by
  obtain ⟨seg, rfl⟩ := h
  exact ⟨_, rfl⟩

theorem Twin.note (h : s.Twin s') (failed : Bool) : (s.note failed).Twin (s'.note failed) := by
  obtain ⟨seg, rfl⟩ := h
  exact ⟨_, rfl⟩

theorem Twin.handOut (h : s.Twin s') (p cnt : ℕ) (k : Kind) :
    (s.handOut p cnt k).Twin (s'.handOut p cnt k) := by
  obtain ⟨seg, rfl⟩ := h
  unfold Loan.handOut
  split
  · exact ⟨_, rfl⟩
  · exact ⟨_, rfl⟩

theorem Twin.allocArray (h : s.Twin s') (p : ℕ) (m : Member) (cleared : Bool) (n : ℕ) :
    (s'.allocArray p m cleared n).1 = (s.allocArray p m cleared n).1 ∧
      (s.allocArray p m cleared n).2.Twin (s'.allocArray p m cleared n).2 := by
  unfold Loan.allocArray
  by_cases hzero : n = 0
  · rw [if_pos hzero, if_pos hzero]
    exact ⟨rfl, h.setRef p 0 0⟩
  rw [if_neg hzero, if_neg hzero]
  by_cases hmany : n > (2 ^ 32 - 1) / u32 m.elemSize
  · rw [if_pos hmany, if_pos hmany]
    exact ⟨rfl, h.setRef p 0 0⟩
  rw [if_neg hmany, if_neg hmany]
  dsimp only
  obtain ⟨off, r, r', hr, hr', htwin⟩ := h.reserve (n * u32 m.elemSize)
  rw [hr, hr']
  dsimp only
  by_cases hoff : off = 0
  · rw [if_pos hoff, if_pos hoff]
    exact ⟨rfl, htwin.setRef p 0 0⟩
  · rw [if_neg hoff, if_neg hoff]
    cases cleared with
    | false => exact ⟨rfl, (htwin.grow _ false).setRef p off n⟩
    | true =>
        obtain ⟨seg, rfl⟩ := htwin
        exact ⟨rfl, _, rfl⟩

theorem Twin.putString (h : s.Twin s') (p : ℕ) (str : List UInt8) :
    (s'.putString p str).1 = (s.putString p str).1 ∧
      (s.putString p str).2.Twin (s'.putString p str).2 := by
  unfold Loan.putString
  dsimp only
  by_cases hzero : u32 str.length = 0
  · rw [if_pos hzero, if_pos hzero]
    exact ⟨rfl, h.setRef p 0 0⟩
  rw [if_neg hzero, if_neg hzero]
  obtain ⟨off, r, r', hr, hr', htwin⟩ := h.reserve (u32 str.length)
  rw [hr, hr']
  dsimp only
  by_cases hoff : off = 0
  · rw [if_pos hoff, if_pos hoff]
    exact ⟨rfl, htwin.setRef p 0 0⟩
  · rw [if_neg hoff, if_neg hoff]
    exact ⟨rfl, ((htwin.grow _ false).setBytes off _).setRef p off _⟩

/-- A reference that was stored leads to the same element in both chunks. -/
theorem Twin.elemPtr (h : s.Twin s') (hs : s.Sound) (hs' : s'.Sound) {p : ℕ} {m : Member}
    (hx : (p, m) ∈ s.slots) (hc : (s.cell p).isRef = true) (size j : ℕ) :
    s'.elemPtr p size j = s.elemPtr p size j := by
  obtain ⟨off, cnt, hcell⟩ := Cell.exists_of_isRef hc
  have hx' : (p, m) ∈ s'.slots := by
    obtain ⟨seg, rfl⟩ := h
    exact hx
  have hcell' : s'.cell p = .ref off cnt := by
    obtain ⟨seg, rfl⟩ := h
    exact hcell
  unfold Loan.elemPtr
  rw [hs.loadRef hx hcell, hs'.loadRef hx' hcell']

theorem Twin.set (h : s.Twin s') (hs : s.Sound) (hs' : s'.Sound) {p : ℕ} {m : Member}
    (hx : (p, m) ∈ s.slots) {setter : Setter}
    (hsettled : ∀ j str, setter = .stringAt j str → (s.cell p).isRef = true)
    (hset : s.set p m setter = some t) : ∃ t', s'.set p m setter = some t' ∧ t.Twin t' := by
  unfold Loan.set at hset
  split at hset
  · cases hset
    exact ⟨_, rfl, h.setBytes p _⟩
  · cases hset
    exact ⟨_, rfl, h.setBytes p _⟩
  · rename_i str
    obtain ⟨hstored, htwin⟩ := h.putString p str
    obtain rfl : (s.putString p str).2.note (!(s.putString p str).1) = t := Option.some.inj hset
    refine ⟨(s'.putString p str).2.note (!(s'.putString p str).1), rfl, ?_⟩
    rw [hstored]
    exact htwin.note _
  · rename_i sc n
    obtain ⟨hspan, htwin⟩ := h.allocArray p (.field (.scalars sc none)) false n.toNat
    let after : (ℕ × ℕ) × Loan → Loan := fun r =>
      (r.2.handOut r.1.1 r.1.2 (.scalars sc (some r.1.2.toPNat'))).note (n ≠ 0 && r.1.2 = 0)
    obtain rfl : after (s.allocArray p (.field (.scalars sc none)) false n.toNat) = t :=
      Option.some.inj hset
    refine ⟨after (s'.allocArray p (.field (.scalars sc none)) false n.toNat), rfl, ?_⟩
    dsimp only [after]
    rw [hspan]
    exact (htwin.handOut _ _ _).note _
  · rename_i n
    obtain ⟨hspan, htwin⟩ := h.allocArray p (.field (.bools none)) false n.toNat
    let after : (ℕ × ℕ) × Loan → Loan := fun r =>
      (r.2.handOut r.1.1 r.1.2 (.bools (some r.1.2.toPNat'))).note (n ≠ 0 && r.1.2 = 0)
    obtain rfl : after (s.allocArray p (.field (.bools none)) false n.toNat) = t :=
      Option.some.inj hset
    refine ⟨after (s'.allocArray p (.field (.bools none)) false n.toNat), rfl, ?_⟩
    dsimp only [after]
    rw [hspan]
    exact (htwin.handOut _ _ _).note _
  · rename_i size n
    obtain ⟨htable, htwin⟩ := h.allocArray p (.field (.strings size)) true n.toNat
    let after : (ℕ × ℕ) × Loan → Loan := fun r => r.2.note (n ≠ 0 && r.1.2 = 0)
    obtain rfl : after (s.allocArray p (.field (.strings size)) true n.toNat) = t :=
      Option.some.inj hset
    refine ⟨after (s'.allocArray p (.field (.strings size)) true n.toNat), rfl, ?_⟩
    dsimp only [after]
    rw [htable]
    exact htwin.note _
  · rename_i size j str
    have hsame := h.elemPtr hs hs' hx (hsettled j str rfl) varRefSize j.toNat
    cases hslot : s.elemPtr p varRefSize j.toNat with
    | none =>
        rw [hslot] at hset hsame
        obtain rfl := Option.some.inj hset
        refine ⟨s'.note (str ≠ []), ?_, h.note _⟩
        simp only [Loan.set, hsame]
    | some slot =>
        rw [hslot] at hset hsame
        obtain ⟨hstored, htwin⟩ := h.putString slot str
        obtain rfl : (s.putString slot str).2.note (!(s.putString slot str).1) = t :=
          Option.some.inj hset
        refine ⟨(s'.putString slot str).2.note (!(s'.putString slot str).1), ?_, ?_⟩
        · simp only [Loan.set, hsame]
        · rw [hstored]
          exact htwin.note _
  · rename_i msg n
    obtain ⟨hspan, htwin⟩ := h.allocArray p (.elems msg) (!rootTight msg) n.toNat
    let after : (ℕ × ℕ) × Loan → Loan := fun r => r.2.note (n ≠ 0 && r.1.2 = 0)
    obtain rfl : after (s.allocArray p (.elems msg) (!rootTight msg) n.toNat) = t :=
      Option.some.inj hset
    refine ⟨after (s'.allocArray p (.elems msg) (!rootTight msg) n.toNat), rfl, ?_⟩
    dsimp only [after]
    rw [hspan]
    exact htwin.note _
  · cases hset

/-- The same call of the same builder. -/
theorem Twin.member (h : s.Twin s') (b i : ℕ) : s'.member b i = s.member b i := by
  obtain ⟨seg, rfl⟩ := h
  rfl

theorem Twin.step (h : s.Twin s') (hs : s.Sound) (hs' : s'.Sound) {op : Op}
    (hsettled : Settled s op) (hstep : step s op = some t) :
    ∃ t', Flat.step s' op = some t' ∧ t.Twin t' := by
  cases op with
  | nested b i =>
      simp only [Flat.step, h.member] at hstep ⊢
      split at hstep
      · cases hstep
        obtain ⟨seg, rfl⟩ := h
        exact ⟨_, rfl, _, rfl⟩
      · cases hstep
  | elem b i j =>
      simp only [Flat.step, h.member] at hstep ⊢
      split at hstep
      · rename_i at' msg hm
        simp only [Settled, hm] at hsettled
        have hx : (at', Member.elems msg) ∈ s.slots :=
          (hs.member hm).2.2 (fun _ hne => by cases hne)
        rw [h.elemPtr hs hs' hx hsettled]
        split at hstep
        · cases hstep
          exact ⟨_, rfl, h.note true⟩
        · cases hstep
          obtain ⟨seg, rfl⟩ := h
          exact ⟨_, rfl, _, rfl⟩
      · cases hstep
  | span b i =>
      simp only [Flat.step, h.member] at hstep ⊢
      split at hstep
      · cases hstep
        obtain ⟨seg, rfl⟩ := h
        exact ⟨_, rfl, _, rfl⟩
      · cases hstep
        obtain ⟨seg, rfl⟩ := h
        exact ⟨_, rfl, _, rfl⟩
      · cases hstep
  | set b i setter =>
      simp only [Flat.step, h.member] at hstep ⊢
      split at hstep
      · rename_i at' m hm
        have hne : ∀ msg, m ≠ .nested msg := by
          rintro msg rfl
          cases hstep
        refine h.set hs hs' ((hs.member hm).2.2 hne) (fun j str hset => ?_) hstep
        subst hset
        simpa only [Settled, hm] using hsettled
      · cases hstep
  | write sp j v =>
      have hspans : s'.spans = s.spans := by
        obtain ⟨seg, rfl⟩ := h
        rfl
      simp only [Flat.step, hspans] at hstep ⊢
      split at hstep
      · split at hstep
        · cases hstep
          rename_i hin
          rw [if_pos hin]
          exact ⟨_, rfl, h.setItem _ _ _⟩
        · cases hstep
      · cases hstep

end Loan

/-- What was stored does not depend on the chunk. -/
theorem stored_of_twin {s s' : Loan} (h : s.Twin s') {S : Schema} (a : Access S) (base cur : ℕ) :
    a.stored s' base cur = a.stored s base cur := by
  obtain ⟨seg, rfl⟩ := h
  induction a generalizing base cur with
  | field a => rfl
  | nested inner ih => exact ih _ _
  | count => rfl
  | raw => rfl
  | elem i inner ih =>
      simp only [Access.stored, ih]
      rfl
  | fieldRest a ih => exact ih _ _
  | nestedRest a ih => exact ih _ _
  | arrayRest a ih => exact ih _ _

theorem settled_of_twin {s s' : Loan} (h : s.Twin s') {op : Op} (hsettled : Settled s op) :
    Settled s' op := by
  obtain ⟨seg, rfl⟩ := h
  cases op with
  | set b i setter => cases setter <;> exact hsettled
  | nested b i => trivial
  | elem b i j => exact hsettled
  | span b i => trivial
  | write sp j v => trivial

theorem twin_start (S : Schema) {chunk chunk' : List UInt8} (hlen : chunk'.length = chunk.length) :
    (Loan.start S chunk).Twin (Loan.start S chunk') := by
  refine ⟨(Loan.start S chunk').w.seg, ?_⟩
  unfold Loan.start
  rw [hlen]
  rfl

end DzIpc.Flat
