import DzIpc.Flat.BuilderSlots
import DzIpc.Flat.RoundTrip
import DzIpc.Library.Known

/-!
# What builders keep

`Sound` ties the segment to what the calls have stored: the slots lie side by side below the
cursor, the bytes of each are those its cell tells, and a reference leads to slots again.

Records without padding are not cleared when an array of them is allocated, so a `VarRef` in one
may hold anything until it is stored to; `x_at` and `set_x_at` follow it all the same.  `Settled`
says that a call follows no such reference.

* `Sound.store` and `Sound.grow` are the two ways a segment changes.
* `Sound.step` says that settled calls keep `Sound`, and `sound_of_guarded` that runs of them do.
-/

namespace DzIpc.Flat

open Wire Blocks

/-! ## Cells -/

/-- The bytes that a cell tells of its slot. -/
def Cell.expected : Cell → List (Option UInt8)
  | .bytes known => known
  | .ref off cnt => (le32 off ++ le32 cnt).map some

/-- The cell fits the slot. -/
def Cell.Fits (m : Member) : Cell → Prop
  | .bytes known => known.length = m.size
  | .ref off cnt => m.isRef = true ∧ off < 2 ^ 32 ∧ cnt < 2 ^ 32

theorem Cell.Fits.length {m : Member} {c : Cell} (h : c.Fits m) : c.expected.length = m.size := by
  cases c with
  | bytes known => exact h
  | ref off cnt =>
      rw [Member.size_of_isRef h.1, Cell.expected, List.length_map, Writer.length_ref]

theorem fits_fresh (m : Member) (cleared : Bool) : (m.fresh cleared).Fits m := by
  unfold Member.fresh
  cases cleared with
  | false => exact List.length_replicate
  | true =>
      cases href : m.isRef with
      | true => exact ⟨href, by decide, by decide⟩
      | false => exact List.length_replicate

/-- A slot that has been cleared is all zeros, and of one that has not nothing is known. -/
theorem expected_fresh (m : Member) (cleared : Bool) :
    (m.fresh cleared).expected = List.replicate m.size (if cleared then some 0 else none) := by
  unfold Member.fresh
  cases cleared with
  | false => rfl
  | true =>
      cases href : m.isRef with
      | true =>
          rw [Member.size_of_isRef href]
          rfl
      | false => rfl

theorem cnt_of_fresh {m : Member} {cleared : Bool} {off cnt : ℕ}
    (h : m.fresh cleared = .ref off cnt) : cnt = 0 := by
  unfold Member.fresh at h
  split at h
  · split at h
    · cases h
      rfl
    · cases h
  · cases h

/-! ## The invariant -/

/-- The reference leads to what has been laid out for its member. -/
structure Loan.Leads (s : Loan) (m : Member) (off cnt : ℕ) : Prop where
  start : segHeaderSize ≤ off
  stop : off + cnt * m.elemSize ≤ s.w.cur
  slots : ∀ y ∈ elemSlots m off cnt, y ∈ s.slots

/-- The segment is what the cells tell. -/
structure Loan.Sound (s : Loan) : Prop where
  start : segHeaderSize ≤ s.w.cur
  cur_le : s.w.cur ≤ s.w.cap
  cap_le : s.w.cap ≤ s.w.seg.length
  cap_lt : s.w.cap < 2 ^ 32
  inside : ∀ x ∈ s.slots, Inside segHeaderSize s.w.cur x
  apart : s.slots.Pairwise Apart
  fits : ∀ x ∈ s.slots, (s.cell x.1).Fits x.2
  knows : ∀ x ∈ s.slots, Knows s.w.seg x.1 (s.cell x.1).expected
  refs : ∀ x ∈ s.slots, ∀ off cnt, s.cell x.1 = .ref off cnt → 0 < cnt → s.Leads x.2 off cnt
  builders : ∀ b ∈ s.builders, NarrowElems b.1 ∧ ∀ x ∈ slotsOf b.1 b.2 0, x ∈ s.slots
  spans : ∀ sp ∈ s.spans, (sp.1, Member.field sp.2) ∈ s.slots ∧ Member.isRef (.field sp.2) = false

namespace Loan

variable {s t : Loan} {x : ℕ × Member} {p : ℕ} {m : Member}

theorem Sound.apart_of_ne (h : s.Sound) {y : ℕ × Member} (hx : x ∈ s.slots) (hy : y ∈ s.slots)
    (hne : y ≠ x) : Apart y x :=
  h.apart.forall hy hx hne

/-- A slot is known by where it begins. -/
theorem Sound.eq_of_fst (h : s.Sound) {y : ℕ × Member} (hx : x ∈ s.slots) (hy : y ∈ s.slots)
    (hfst : y.1 = x.1) : y = x := by
  by_contra hne
  exact (h.apart_of_ne hx hy hne).ne hfst

/-- What is not about the segment, the slots or the cells may change. -/
theorem Sound.same (h : s.Sound) (hseg : t.w.seg = s.w.seg) (hcap : t.w.cap = s.w.cap)
    (hcur : t.w.cur = s.w.cur) (hslots : t.slots = s.slots) (hcell : t.cell = s.cell)
    (hbuilders : ∀ b ∈ t.builders, NarrowElems b.1 ∧ ∀ x ∈ slotsOf b.1 b.2 0, x ∈ s.slots)
    (hspans : ∀ sp ∈ t.spans,
      (sp.1, Member.field sp.2) ∈ s.slots ∧ Member.isRef (.field sp.2) = false) : t.Sound where
  start := hcur ▸ h.start
  cur_le := hcur ▸ hcap ▸ h.cur_le
  cap_le := hcap ▸ hseg ▸ h.cap_le
  cap_lt := hcap ▸ h.cap_lt
  inside := by
    rw [hslots, hcur]
    exact h.inside
  apart := hslots ▸ h.apart
  fits := by
    rw [hslots, hcell]
    exact h.fits
  knows := by
    rw [hslots, hcell, hseg]
    exact h.knows
  refs := by
    rw [hslots, hcell]
    intro x hx off cnt hc hcnt
    obtain ⟨hstart, hstop, hlead⟩ := h.refs x hx off cnt hc hcnt
    exact ⟨hstart, hcur ▸ hstop, hslots ▸ hlead⟩
  builders := by
    rw [hslots]
    exact hbuilders
  spans := by
    rw [hslots]
    exact hspans

theorem Sound.note (h : s.Sound) (failed : Bool) : (s.note failed).Sound :=
  h.same rfl rfl rfl rfl rfl h.builders h.spans

/-- The writer has failed. -/
theorem Sound.fail (h : s.Sound) : Sound { s with w := { s.w with ok := false } } :=
  h.same rfl rfl rfl rfl rfl h.builders h.spans

theorem Sound.addBuilder (h : s.Sound) {S : Schema} {r : ℕ} (hS : NarrowElems S)
    (hslots : ∀ x ∈ slotsOf S r 0, x ∈ s.slots) :
    Sound { s with builders := s.builders ++ [(S, r)] } := by
  refine h.same rfl rfl rfl rfl rfl (fun b hb => ?_) h.spans
  rcases List.mem_append.mp hb with hold | hnew
  · exact h.builders b hold
  · rw [List.mem_singleton.mp hnew]
    exact ⟨hS, hslots⟩

theorem Sound.addSpan (h : s.Sound) {k : Kind} (hslot : (p, Member.field k) ∈ s.slots)
    (hk : Member.isRef (.field k) = false) : Sound { s with spans := s.spans ++ [(p, k)] } := by
  refine h.same rfl rfl rfl rfl rfl h.builders fun sp hsp => ?_
  rcases List.mem_append.mp hsp with hold | hnew
  · exact h.spans sp hold
  · rw [List.mem_singleton.mp hnew]
    exact ⟨hslot, hk⟩

/-! ## Storing to a slot -/

/-- A part of a slot is overwritten, and its cell tells what is in it now. -/
theorem Sound.store (h : s.Sound) (hx : x ∈ s.slots) {start : ℕ} {src : List UInt8} {c : Cell}
    (hin : start + src.length ≤ x.2.size) (hfits : c.Fits x.2)
    (hknows : Knows (overwrite s.w.seg (x.1 + start) src) x.1 c.expected)
    (hrefs : ∀ off cnt, c = .ref off cnt → 0 < cnt → s.Leads x.2 off cnt) :
    Sound { s with w := s.w.store (x.1 + start) src, cell := Function.update s.cell x.1 c } := by
  have hxin := h.inside x hx
  have hcur := h.cur_le
  have hcap := h.cap_le
  have hroom : x.1 + start + src.length ≤ s.w.seg.length := by
    have hend := hxin.2
    omega
  have hlength : (overwrite s.w.seg (x.1 + start) src).length = s.w.seg.length :=
    length_overwrite hroom
  -- the cells of the other slots are as they were
  have hcell : ∀ y ∈ s.slots, y ≠ x → Function.update s.cell x.1 c y.1 = s.cell y.1 := by
    intro y hy hne
    exact Function.update_of_ne (fun hfst => hne (h.eq_of_fst hx hy hfst)) _ _
  refine ⟨h.start, hcur, hlength ▸ hcap, h.cap_lt, h.inside, h.apart, fun y hy => ?_,
    fun y hy => ?_, fun y hy off cnt hc hcnt => ?_, h.builders, h.spans⟩
  · change (Function.update s.cell x.1 c y.1).Fits y.2
    by_cases hyx : y = x
    · rw [hyx, Function.update_self]
      exact hfits
    · rw [hcell y hy hyx]
      exact h.fits y hy
  · change Knows (overwrite s.w.seg (x.1 + start) src) y.1 (Function.update s.cell x.1 c y.1).expected
    by_cases hyx : y = x
    · rw [hyx, Function.update_self]
      exact hknows
    · rw [hcell y hy hyx]
      have hapart := h.apart_of_ne hx hy hyx
      have hlen := (h.fits y hy).length
      refine (h.knows y hy).overwrite_apart hroom ?_
      unfold Apart at hapart
      omega
  · change Function.update s.cell x.1 c y.1 = .ref off cnt at hc
    by_cases hyx : y = x
    · rw [hyx, Function.update_self] at hc
      rw [hyx]
      obtain ⟨hstart, hstop, hslots⟩ := hrefs off cnt hc hcnt
      exact ⟨hstart, hstop, hslots⟩
    · rw [hcell y hy hyx] at hc
      obtain ⟨hstart, hstop, hslots⟩ := h.refs y hy off cnt hc hcnt
      exact ⟨hstart, hstop, hslots⟩

theorem Sound.setBytes (h : s.Sound) (hx : (p, m) ∈ s.slots) {bytes : List UInt8}
    (hlen : bytes.length = m.size) : (s.setBytes p bytes).Sound := by
  have hroom : p + bytes.length ≤ s.w.seg.length := by
    have hin := (h.inside _ hx).2
    have hcur := h.cur_le
    have hcap := h.cap_le
    change p + m.size ≤ s.w.cur at hin
    omega
  have hin : 0 + bytes.length ≤ m.size := by
    rw [Nat.zero_add]
    exact hlen.le
  refine @Sound.store s _ h hx 0 bytes (.bytes (bytes.map some)) hin ?_ ?_ ?_
  · exact (List.length_map _).trans hlen
  · exact knows_overwrite hroom
  · intro off cnt hc
    cases hc

theorem Sound.setRef (h : s.Sound) (hx : (p, m) ∈ s.slots) (href : m.isRef = true) {off cnt : ℕ}
    (hoff : off < 2 ^ 32) (hcnt : cnt < 2 ^ 32) (hleads : 0 < cnt → s.Leads m off cnt) :
    (s.setRef p off cnt).Sound := by
  have hsize : (le32 off ++ le32 cnt).length = m.size :=
    (Writer.length_ref off cnt).trans (Member.size_of_isRef href).symm
  have hroom : p + (le32 off ++ le32 cnt).length ≤ s.w.seg.length := by
    have hin := (h.inside _ hx).2
    have hcur := h.cur_le
    have hcap := h.cap_le
    change p + m.size ≤ s.w.cur at hin
    omega
  have hin : 0 + (le32 off ++ le32 cnt).length ≤ m.size := by
    rw [Nat.zero_add]
    exact hsize.le
  refine @Sound.store s _ h hx 0 _ (.ref off cnt) hin ⟨href, hoff, hcnt⟩ ?_ ?_
  · exact knows_overwrite hroom
  · intro off' cnt' hc hpos
    cases hc
    exact hleads hpos

/-- The `VarRef` of a slot is emptied. -/
theorem Sound.clearRef (h : s.Sound) (hx : (p, m) ∈ s.slots) (href : m.isRef = true) :
    (s.setRef p 0 0).Sound :=
  h.setRef hx href (by decide) (by decide) fun hpos => absurd hpos (lt_irrefl 0)

theorem Sound.setItem (h : s.Sound) (hx : (p, m) ∈ s.slots) (href : m.isRef = false) {start : ℕ}
    {bytes : List UInt8} (hin : start + bytes.length ≤ m.size) : (s.setItem p start bytes).Sound := by
  have hxin := (h.inside _ hx).2
  have hroom : p + start + bytes.length ≤ s.w.seg.length := by
    have hcur := h.cur_le
    have hcap := h.cap_le
    change p + m.size ≤ s.w.cur at hxin
    omega
  have hfits := h.fits _ hx
  have hknows := h.knows _ hx
  unfold Loan.setItem
  cases hcell : s.cell p with
  | bytes known =>
      change (s.cell p).Fits m at hfits
      change Knows s.w.seg p (s.cell p).expected at hknows
      rw [hcell] at hfits hknows
      have hlen : known.length = m.size := hfits
      have hpart : start + (bytes.map some).length ≤ known.length := by
        rw [List.length_map, hlen]
        exact hin
      refine h.store hx hin ?_ ?_ ?_
      · change (overwrite known start (bytes.map some)).length = m.size
        rw [length_overwrite hpart, hlen]
      · exact hknows.overwrite_part hroom (hlen ▸ hin)
      · intro off cnt hc
        cases hc
  | ref off cnt =>
      change (s.cell p).Fits m at hfits
      rw [hcell] at hfits
      exact absurd (href.symm.trans hfits.1) (by decide)

/-! ## Laying out slots -/

theorem grow_cell_new {new : List (ℕ × Member)} {cleared : Bool} (hapart : new.Pairwise Apart)
    (hx : x ∈ new) : (s.grow new cleared).cell x.1 = x.2.fresh cleared := by
  have hfind : new.find? (fun y => y.1 = x.1) = some x := by
    cases hfound : new.find? (fun y => y.1 = x.1) with
    | none => simpa using List.find?_eq_none.mp hfound x hx
    | some y =>
        have hy : y ∈ new := List.mem_of_find?_eq_some hfound
        have hfst : y.1 = x.1 := by simpa using List.find?_some hfound
        by_contra hne
        have hyx : y ≠ x := fun heq => hne (congrArg some heq)
        exact (hapart.forall hy hx hyx).ne hfst
  simp [Loan.grow, hfind]

theorem grow_cell_old {new : List (ℕ × Member)} {cleared : Bool} (hp : ∀ x ∈ new, x.1 ≠ p) :
    (s.grow new cleared).cell p = s.cell p := by
  have hfind : new.find? (fun y => y.1 = p) = none := by
    rw [List.find?_eq_none]
    intro y hy
    simpa using hp y hy
  simp [Loan.grow, hfind]

/-- Slots are laid out behind the others, in bytes that have been cleared or have not. -/
theorem Sound.grow (h : s.Sound) {w : Writer} {lo : ℕ} {new : List (ℕ × Member)} {cleared : Bool}
    (hcap : w.cap = s.w.cap) (hlen : w.seg.length = s.w.seg.length) (hlo : s.w.cur ≤ lo)
    (hhi : lo ≤ w.cur) (hcur : w.cur ≤ w.cap)
    (hkeep : ∀ i, i < s.w.cur → w.seg[i]? = s.w.seg[i]?)
    (hzero : cleared = true → ∀ i, lo ≤ i → i < w.cur → w.seg[i]? = some 0)
    (hin : ∀ x ∈ new, Inside lo w.cur x) (hapart : new.Pairwise Apart) :
    (Loan.grow { s with w := w } new cleared).Sound := by
  have hstart := h.start
  have hold : ∀ x ∈ s.slots, Inside segHeaderSize s.w.cur x := h.inside
  have hcell : ∀ x ∈ s.slots,
      (Loan.grow { s with w := w } new cleared).cell x.1 = s.cell x.1 := by
    intro x hx
    refine grow_cell_old fun y hy heq => ?_
    exact (apart_of_inside (hold x hx) (hin y hy) hlo).ne heq.symm
  refine ⟨hstart.trans (hlo.trans hhi), hcur, ?_, ?_, fun x hx => ?_, ?_, fun x hx => ?_,
    fun x hx => ?_, fun x hx off cnt hc hcnt => ?_, fun b hb => ?_, fun sp hsp => ?_⟩
  · change w.cap ≤ w.seg.length
    rw [hcap, hlen]
    exact h.cap_le
  · change w.cap < 2 ^ 32
    rw [hcap]
    exact h.cap_lt
  · rcases List.mem_append.mp hx with hx | hx
    · exact (hold x hx).mono le_rfl (hlo.trans hhi)
    · exact (hin x hx).mono (hstart.trans hlo) le_rfl
  · refine List.pairwise_append.mpr ⟨h.apart, hapart, fun x hx y hy => ?_⟩
    exact apart_of_inside (hold x hx) (hin y hy) hlo
  · rcases List.mem_append.mp hx with hx | hx
    · rw [hcell x hx]
      exact h.fits x hx
    · rw [grow_cell_new hapart hx]
      exact fits_fresh _ _
  · change Knows w.seg x.1 _
    rcases List.mem_append.mp hx with hold' | hnew
    · rw [hcell x hold']
      refine (h.knows x hold').congr fun i _ hi => hkeep i ?_
      have hend := (hold x hold').2
      rw [(h.fits x hold').length] at hi
      omega
    · rw [grow_cell_new hapart hnew, expected_fresh]
      cases cleared with
      | false => exact knows_unknown _ _ _
      | true =>
          intro i b hi
          rw [List.getElem?_replicate] at hi
          split at hi
          next hlt =>
            have hxin := hin x hnew
            cases hi
            exact hzero rfl (x.1 + i) (hxin.1.trans (Nat.le_add_right _ _)) (by
              have hend := hxin.2
              omega)
          next => cases hi
  · rcases List.mem_append.mp hx with hx | hx
    · rw [hcell x hx] at hc
      obtain ⟨hlead, hstop, hslots⟩ := h.refs x hx off cnt hc hcnt
      exact ⟨hlead, hstop.trans (hlo.trans hhi), fun y hy => List.mem_append_left _ (hslots y hy)⟩
    · rw [grow_cell_new hapart hx] at hc
      exact absurd (cnt_of_fresh hc) hcnt.ne'
  · obtain ⟨hS, hslots⟩ := h.builders b hb
    exact ⟨hS, fun x hx => List.mem_append_left _ (hslots x hx)⟩
  · obtain ⟨hslot, hk⟩ := h.spans sp hsp
    exact ⟨List.mem_append_left _ hslot, hk⟩

/-! ## Reserving -/

/-- `reserve` fails, or it clears the gap up to an aligned offset and moves the cursor behind what
is reserved there. -/
theorem reserve_cases (s : Loan) (n : ℕ) :
    s.reserve n = (0, { s with w := { s.w with ok := false } }) ∨
      ∃ off, s.w.cur ≤ off ∧ off + n ≤ s.w.cap ∧ s.reserve n = (off, { s with w :=
        { s.w.store s.w.cur (List.replicate (off - s.w.cur) 0) with cur := off + n } }) := by
  unfold Loan.reserve Writer.reserve
  dsimp only
  split
  · exact Or.inl rfl
  · rename_i hroom
    refine Or.inr ⟨alignUp s.w.cur, ?_, ?_, rfl⟩
    · omega
    · omega

/-- The offset of what is reserved is none of a failure. -/
theorem Sound.off_pos (h : s.Sound) {off : ℕ} (hoff : s.w.cur ≤ off) : 0 < off := by
  have hstart := h.start
  have hpos : 0 < segHeaderSize := by decide
  omega

/-- What the writer is once it has reserved `n` bytes, and cleared them if `cleared`. -/
def reserved (s : Loan) (off n : ℕ) (cleared : Bool) : Writer :=
  let w := { s.w.store s.w.cur (List.replicate (off - s.w.cur) 0) with cur := off + n }
  if cleared then w.store off (List.replicate n 0) else w

/-- The slots of `n` elements are laid out in what was reserved for them. -/
theorem Sound.lay (h : s.Sound) (m : Member) {off n : ℕ} (hn : 0 < n) (hoff : s.w.cur ≤ off)
    (hroom : off + n * m.elemSize ≤ s.w.cap) (cleared : Bool) :
    (Loan.grow { s with w := s.reserved off (n * m.elemSize) cleared } (elemSlots m off n)
      cleared).Sound := by
  have hcap := h.cap_le
  have hgap : s.w.cur + (List.replicate (off - s.w.cur) (0 : UInt8)).length ≤ s.w.seg.length := by
    rw [List.length_replicate]
    omega
  have hlen : (overwrite s.w.seg s.w.cur (List.replicate (off - s.w.cur) 0)).length
      = s.w.seg.length := length_overwrite hgap
  have hblock : off + (List.replicate (n * m.elemSize) (0 : UInt8)).length ≤
      (overwrite s.w.seg s.w.cur (List.replicate (off - s.w.cur) 0)).length := by
    rw [hlen, List.length_replicate]
    omega
  -- the bytes below the cursor stay
  have hbelow : ∀ i, i < s.w.cur →
      (overwrite s.w.seg s.w.cur (List.replicate (off - s.w.cur) 0))[i]? = s.w.seg[i]? := by
    intro i hi
    rw [getElem?_overwrite hgap, if_neg (by omega)]
  have hinside : ∀ x ∈ elemSlots m off n, Inside off (off + n * m.elemSize) x :=
    elemSlots_inside m off hn
  unfold Loan.reserved
  cases cleared with
  | false =>
      refine h.grow rfl hlen hoff (Nat.le_add_right _ _) hroom hbelow (fun hc => ?_) hinside
        (elemSlots_apart m off n)
      cases hc
  | true =>
      refine h.grow rfl ((length_overwrite hblock).trans hlen) hoff (Nat.le_add_right _ _) hroom
        (fun i hi => ?_) (fun _ i hge hlt => ?_) hinside (elemSlots_apart m off n)
      · change (overwrite (overwrite s.w.seg s.w.cur _) off _)[i]? = s.w.seg[i]?
        rw [getElem?_overwrite hblock, if_neg (by omega)]
        exact hbelow i hi
      · change (overwrite (overwrite s.w.seg s.w.cur _) off _)[i]? = some 0
        change i < off + n * m.elemSize at hlt
        rw [getElem?_overwrite hblock, List.length_replicate, if_pos ⟨hge, hlt⟩,
          List.getElem?_replicate, if_pos (by omega)]

/-- The slots that were laid out are there for the reference to them. -/
theorem leads_of_lay {off n : ℕ} {cleared : Bool} (hstart : segHeaderSize ≤ off) :
    (Loan.grow { s with w := s.reserved off (n * m.elemSize) cleared } (elemSlots m off n)
      cleared).Leads m off n where
  start := hstart
  stop := by
    change off + n * m.elemSize ≤ (s.reserved off (n * m.elemSize) cleared).cur
    unfold Loan.reserved
    cases cleared with
    | false => exact le_rfl
    | true => exact le_rfl
  slots y hy := List.mem_append_right _ hy

/-! ## `dzflat.h` -/

/-- The elements of an array have a size of 32 bits. -/
theorem elemSize_lt (hm : m.Narrow) : m.elemSize < 2 ^ 32 := by
  cases m with
  | field k =>
      cases k with
      | scalars sc size =>
          cases size with
          | none => cases sc <;> decide
          | some n => exact (by decide : 1 < 2 ^ 32)
      | strings size => exact (by decide : varRefSize < 2 ^ 32)
      | scalar sc => exact (by decide : 1 < 2 ^ 32)
      | bool => exact (by decide : 1 < 2 ^ 32)
      | string => exact (by decide : 1 < 2 ^ 32)
      | bools size => exact (by decide : 1 < 2 ^ 32)
  | nested msg => exact (by decide : 1 < 2 ^ 32)
  | elems msg => exact hm.1

/-- `alloc_array` lays out the elements, or empties the reference. -/
theorem allocArray_cases (h : s.Sound) (hx : (p, m) ∈ s.slots) (href : m.isRef = true)
    (hm : m.Narrow) (cleared : Bool) {n : ℕ} (hn : n < 2 ^ 32) :
    ((s.allocArray p m cleared n).1 = (0, 0) ∧ (s.allocArray p m cleared n).2.Sound) ∨
      ∃ off, 0 < n ∧ (s.allocArray p m cleared n).1 = (off, n) ∧
        (s.allocArray p m cleared n).2.Sound ∧ (s.allocArray p m cleared n).2.Leads m off n := by
  have hu32 : u32 m.elemSize = m.elemSize := u32_of_lt (elemSize_lt hm)
  unfold Loan.allocArray
  by_cases hzero : n = 0
  · rw [if_pos hzero]
    exact Or.inl ⟨rfl, h.clearRef hx href⟩
  rw [if_neg hzero]
  by_cases hmany : n > (2 ^ 32 - 1) / u32 m.elemSize
  · rw [if_pos hmany]
    exact Or.inl ⟨rfl, h.clearRef hx href⟩
  rw [if_neg hmany, hu32]
  dsimp only
  have hpos : 0 < n := Nat.pos_of_ne_zero hzero
  rcases reserve_cases s (n * m.elemSize) with hfail | ⟨off, hoff, hroom, hres⟩
  · rw [hfail]
    exact Or.inl ⟨rfl, h.fail.clearRef hx href⟩
  · have hne : off ≠ 0 := (h.off_pos hoff).ne'
    have hlaid := h.lay m hpos hoff hroom cleared
    have hleads : (Loan.grow { s with w := s.reserved off (n * m.elemSize) cleared }
        (elemSlots m off n) cleared).Leads m off n := leads_of_lay (h.start.trans hoff)
    have hslot : (p, m) ∈ s.slots ++ elemSlots m off n := List.mem_append_left _ hx
    have hcap := h.cap_lt
    have hoff32 : off < 2 ^ 32 := by omega
    have hset := hlaid.setRef hslot href hoff32 hn fun _ => hleads
    refine Or.inr ⟨off, hpos, ?_⟩
    rw [hres]
    dsimp only
    rw [if_neg hne]
    refine ⟨rfl, ?_, ?_⟩
    · cases cleared with
      | false => exact hset
      | true => exact hset
    · cases cleared with
      | false => exact ⟨hleads.start, hleads.stop, hleads.slots⟩
      | true => exact ⟨hleads.start, hleads.stop, hleads.slots⟩

theorem Sound.putString (h : s.Sound) (hx : (p, Member.field .string) ∈ s.slots)
    (str : List UInt8) : (s.putString p str).2.Sound := by
  unfold Loan.putString
  dsimp only
  by_cases hzero : u32 str.length = 0
  · rw [if_pos hzero]
    exact h.clearRef hx rfl
  rw [if_neg hzero]
  have hpos : 0 < u32 str.length := Nat.pos_of_ne_zero hzero
  have hle : u32 str.length ≤ str.length := Nat.mod_le _ _
  rcases reserve_cases s (u32 str.length) with hfail | ⟨off, hoff, hroom, hres⟩
  · rw [hfail]
    exact h.fail.clearRef hx rfl
  · have hne : off ≠ 0 := (h.off_pos hoff).ne'
    have hone : u32 str.length * Member.elemSize (.field .string) = u32 str.length := Nat.mul_one _
    have hlaid := h.lay (.field .string) hpos hoff (hone.symm ▸ hroom) false
    have hleads : (Loan.grow { s with w := s.reserved off (u32 str.length * 1) false }
        (elemSlots (.field .string) off (u32 str.length)) false).Leads (.field .string) off
          (u32 str.length) := leads_of_lay (m := .field .string) (h.start.trans hoff)
    have hcap := h.cap_lt
    have hbytes : (str.take (u32 str.length)).length
        = Member.size (.field (.scalars .uint8 (some (u32 str.length).toPNat'))) := by
      rw [List.length_take_of_le hle]
      change _ = 1 * ((u32 str.length).toPNat' : ℕ)
      rw [PNat.toPNat'_coe hpos, Nat.one_mul]
    have hstored := hlaid.setBytes (List.mem_append_right _ (List.mem_singleton.mpr rfl)) hbytes
    have hoff32 : off < 2 ^ 32 := by omega
    have hcnt32 : u32 str.length < 2 ^ 32 := Nat.mod_lt _ (by decide)
    have hset := hstored.setRef (List.mem_append_left _ hx) rfl hoff32 hcnt32
      fun _ => ⟨hleads.start, hleads.stop, hleads.slots⟩
    rw [hres, if_neg hne]
    unfold Loan.reserved at hset
    rw [hone] at hset
    exact hset

theorem leNat_le32 {n : ℕ} (hn : n < 2 ^ 32) : leNat (le32 n) = n := by
  rw [le32, leNat_leBytes]
  exact Nat.mod_eq_of_lt hn

/-- A reference that the cell tells is what is read from the segment. -/
theorem Sound.loadRef (h : s.Sound) (hx : (p, m) ∈ s.slots) {off cnt : ℕ}
    (hc : s.cell p = .ref off cnt) : s.loadRef p = { off, cnt } := by
  have hknows : Knows s.w.seg p (s.cell p).expected := h.knows _ hx
  have hfits : (s.cell p).Fits m := h.fits _ hx
  rw [hc] at hknows hfits
  obtain ⟨-, hoff, hcnt⟩ := hfits
  have hslice : slice p varRefSize s.w.seg = le32 off ++ le32 cnt := by
    have hall := hknows.slice_eq
    rwa [Writer.length_ref] at hall
  have hfirst : slice p 4 s.w.seg = le32 off := by
    calc slice p 4 s.w.seg = (slice p varRefSize s.w.seg).take 4 := by
          simp [slice, varRefSize, List.take_take]
      _ = le32 off := by
          rw [hslice]
          exact List.take_left' (length_leBytes 4 off)
  have hsecond : slice (p + 4) 4 s.w.seg = le32 cnt := by
    calc slice (p + 4) 4 s.w.seg = (slice p varRefSize s.w.seg).drop 4 := by
          simp [slice, varRefSize, List.drop_take, List.drop_drop]
      _ = le32 cnt := by
          rw [hslice]
          exact List.drop_left' (length_leBytes 4 off)
  unfold Loan.loadRef
  rw [hfirst, hsecond, leNat_le32 hoff, leNat_le32 hcnt]

theorem Sound.elemPtr_some (h : s.Sound) (hx : (p, m) ∈ s.slots) {off cnt size j e : ℕ}
    (hc : s.cell p = .ref off cnt) (he : s.elemPtr p size j = some e) :
    j < cnt ∧ e = off + j * size ∧ s.Leads m off cnt := by
  unfold Loan.elemPtr at he
  rw [h.loadRef hx hc] at he
  dsimp only at he
  split at he
  · cases he
  · rename_i hj
    cases he
    have hlt : j < cnt := by omega
    exact ⟨hlt, rfl, h.refs _ hx off cnt hc (by omega)⟩

end Loan

/-! ## The calls -/

/-- The cell tells a reference. -/
def Cell.isRef : Cell → Bool
  | .ref _ _ => true
  | .bytes _ => false

theorem Cell.exists_of_isRef {c : Cell} (h : c.isRef = true) : ∃ off cnt, c = .ref off cnt := by
  cases c with
  | bytes known => cases h
  | ref off cnt => exact ⟨off, cnt, rfl⟩

/-- `x_at` and `set_x_at` follow a reference that has been stored. -/
def Settled (s : Loan) : Op → Prop
  | .elem b i _ | .set b i (.stringAt _ _) =>
      match s.member b i with
      | some (at', _) => (s.cell at').isRef = true
      | none => True
  | _ => True

instance (s : Loan) (op : Op) : Decidable (Settled s op) :=
  match op with
  | .elem b i _ | .set b i (.stringAt _ _) =>
      match h : s.member b i with
      | some (at', _) => decidable_of_iff ((s.cell at').isRef = true) (by simp [Settled, h])
      | none => isTrue (by simp [Settled, h])
  | .nested _ _ | .span _ _ | .write _ _ _ => isTrue trivial
  | .set _ _ (.value _) | .set _ _ (.string _) | .set _ _ (.alloc _) => isTrue trivial

namespace Loan

variable {s t : Loan} {p : ℕ} {m : Member}

/-- A member of a builder is a slot, or a record of slots. -/
theorem Sound.member (h : s.Sound) {b i : ℕ} (hm : s.member b i = some (p, m)) :
    m.Narrow ∧ (∀ msg, m = .nested msg → ∀ y ∈ slotsOf msg p 0, y ∈ s.slots) ∧
      ((∀ msg, m ≠ .nested msg) → (p, m) ∈ s.slots) := by
  unfold Loan.member at hm
  split at hm
  · cases hm
  · rename_i S r hb
    obtain ⟨x, hx, hpm⟩ := Option.map_eq_some_iff.mp hm
    cases hpm
    obtain ⟨hS, hslots⟩ := h.builders (S, r) (List.mem_of_getElem? hb)
    have hmem := mem_slotsOf_of_mem_members S r 0 x (List.mem_of_getElem? hx)
    refine ⟨narrow_of_mem_members S hS 0 x (List.mem_of_getElem? hx), fun msg hmsg => ?_, fun hne => ?_⟩
    · rw [hmsg] at hmem
      exact fun y hy => hslots y (hmem y hy)
    · cases hx2 : x.2 with
      | nested msg => exact absurd hx2 (hne msg)
      | field k =>
          rw [hx2] at hmem
          exact hslots _ hmem
      | elems msg =>
          rw [hx2] at hmem
          exact hslots _ hmem

/-- An array is allocated, and a span over it is handed out. -/
theorem Sound.allocSpan (h : s.Sound) (hx : (p, m) ∈ s.slots) (href : m.isRef = true)
    (hm : m.Narrow) {n : ℕ} (hn : n < 2 ^ 32) {kind : ℕ → Kind}
    (hslots : ∀ off, elemSlots m off n = [(off, .field (kind n))])
    (hkind : Member.isRef (.field (kind n)) = false) :
    ((s.allocArray p m false n).2.handOut (s.allocArray p m false n).1.1
      (s.allocArray p m false n).1.2 (kind (s.allocArray p m false n).1.2)).Sound := by
  unfold Loan.handOut
  rcases allocArray_cases h hx href hm false hn with ⟨hnone, hsound⟩ | ⟨off, hpos, hsome, hsound, hleads⟩
  · rw [hnone]
    exact hsound
  · rw [hsome]
    dsimp only
    rw [if_neg hpos.ne']
    refine hsound.addSpan (hleads.slots _ ?_) hkind
    rw [hslots]
    exact List.mem_singleton.mpr rfl

theorem Sound.alloc (h : s.Sound) (hx : (p, m) ∈ s.slots) (href : m.isRef = true) (hm : m.Narrow)
    (cleared : Bool) {n : ℕ} (hn : n < 2 ^ 32) : (s.allocArray p m cleared n).2.Sound := by
  rcases allocArray_cases h hx href hm cleared hn with ⟨-, hsound⟩ | ⟨_, -, -, hsound, -⟩
  · exact hsound
  · exact hsound

theorem Sound.set (h : s.Sound) (hx : (p, m) ∈ s.slots) (hm : m.Narrow) {setter : Setter}
    (hsettled : ∀ j str, setter = .stringAt j str → (s.cell p).isRef = true)
    (hset : s.set p m setter = some t) : t.Sound := by
  unfold Loan.set at hset
  split at hset
  · cases hset
    exact h.setBytes hx (length_leBytes _ _)
  · cases hset
    exact h.setBytes hx rfl
  · cases hset
    exact (h.putString hx _).note _
  · cases hset
    rename_i sc n
    let kind : ℕ → Kind := fun n => .scalars sc (some n.toPNat')
    have hslots : ∀ off, elemSlots (.field (.scalars sc none)) off n.toNat =
        [(off, .field (kind n.toNat))] := fun _ => rfl
    exact (h.allocSpan hx rfl hm (UInt32.toNat_lt n) hslots rfl).note _
  · cases hset
    rename_i n
    let kind : ℕ → Kind := fun n => .bools (some n.toPNat')
    have hslots : ∀ off, elemSlots (.field (.bools none)) off n.toNat =
        [(off, .field (kind n.toNat))] := fun _ => rfl
    exact (h.allocSpan hx rfl hm (UInt32.toNat_lt n) hslots rfl).note _
  · cases hset
    exact (h.alloc hx rfl hm true (UInt32.toNat_lt _)).note _
  · rename_i size j str
    obtain ⟨off, cnt, hc⟩ := Cell.exists_of_isRef (hsettled j str rfl)
    split at hset
    · cases hset
      exact h.note _
    · rename_i slot hslot
      cases hset
      obtain ⟨hj, rfl, hleads⟩ := h.elemPtr_some hx hc hslot
      exact (h.putString (hleads.slots _ (mem_elemSlots_strings hj)) str).note _
  · cases hset
    exact (h.alloc hx rfl hm _ (UInt32.toNat_lt _)).note _
  · cases hset

theorem Sound.step (h : s.Sound) {op : Op} (hsettled : Settled s op) (hstep : step s op = some t) :
    t.Sound := by
  cases op with
  | nested b i =>
      simp only [Flat.step] at hstep
      split at hstep
      · rename_i at' msg hm
        cases hstep
        obtain ⟨hnarrow, hrecord, -⟩ := h.member hm
        exact h.addBuilder hnarrow (hrecord msg rfl)
      · cases hstep
  | elem b i j =>
      simp only [Flat.step] at hstep
      split at hstep
      · rename_i at' msg hm
        obtain ⟨hnarrow, -, hslot⟩ := h.member hm
        have hx : (at', Member.elems msg) ∈ s.slots := hslot (fun _ hne => by cases hne)
        simp only [Settled, hm] at hsettled
        obtain ⟨off, cnt, hc⟩ := Cell.exists_of_isRef hsettled
        split at hstep
        · cases hstep
          exact h.note true
        · rename_i e he
          cases hstep
          obtain ⟨hj, rfl, hleads⟩ := h.elemPtr_some hx hc he
          exact h.addBuilder hnarrow.2 fun y hy => hleads.slots y (mem_elemSlots_elems hj hy)
      · cases hstep
  | span b i =>
      simp only [Flat.step] at hstep
      split at hstep
      · rename_i hm
        cases hstep
        exact h.addSpan ((h.member hm).2.2 fun _ hne => by cases hne) rfl
      · rename_i hm
        cases hstep
        exact h.addSpan ((h.member hm).2.2 fun _ hne => by cases hne) rfl
      · cases hstep
  | set b i setter =>
      simp only [Flat.step] at hstep
      split at hstep
      · rename_i at' m hm
        obtain ⟨hnarrow, -, hslot⟩ := h.member hm
        -- nothing is called for a record but its own builder
        have hne : ∀ msg, m ≠ .nested msg := by
          rintro msg rfl
          cases hstep
        refine h.set (hslot hne) hnarrow (fun j str hset => ?_) hstep
        subst hset
        simpa only [Settled, hm] using hsettled
      · cases hstep
  | write sp j v =>
      simp only [Flat.step] at hstep
      split at hstep
      · rename_i at' k hsp
        split at hstep
        · rename_i hin
          cases hstep
          obtain ⟨hslot, hk⟩ := h.spans _ (List.mem_of_getElem? hsp)
          refine h.setItem hslot hk ?_
          rw [Nat.succ_mul] at hin
          exact hin
        · cases hstep
      · cases hstep

end Loan

/-! ## Runs -/

/-- A chunk that `LoanedMessage` takes for a message: it holds the root record, and sizes are
those the checks work with. -/
structure Suits (S : Schema) (chunk : List UInt8) : Prop where
  narrow : NarrowElems S
  root : alignTo (segHeaderSize + rootSize S) 8 ≤ chunk.length
  length_lt : chunk.length < 2 ^ 32

theorem Suits.start_eq {S : Schema} {chunk : List UInt8} (h : Suits S chunk) :
    varlenStart S = alignTo (segHeaderSize + rootSize S) 8 :=
  varlenStart_eq (lt_of_le_of_lt h.root h.length_lt)

theorem Suits.start_bounds {S : Schema} {chunk : List UInt8} (h : Suits S chunk) :
    segHeaderSize + rootSize S ≤ varlenStart S ∧ varlenStart S ≤ chunk.length := by
  rw [h.start_eq]
  exact ⟨(alignTo_bounds _).1, h.root⟩

/-- The root record is zeroed, and it is that of the first builder. -/
theorem sound_start {S : Schema} {chunk : List UInt8} (h : Suits S chunk) :
    (Loan.start S chunk).Sound := by
  obtain ⟨hroot, hstart⟩ := h.start_bounds
  have hlength := h.length_lt
  have hcap : u32 chunk.length = chunk.length := u32_of_lt hlength
  let zeros : List UInt8 := List.replicate (varlenStart S - segHeaderSize) 0
  have hroom : segHeaderSize + zeros.length ≤ chunk.length := by
    rw [List.length_replicate]
    omega
  let s : Loan :=
    { w := { seg := chunk, cap := u32 chunk.length, cur := segHeaderSize, ok := true }
      builders := []
      spans := []
      slots := []
      cell := fun _ => .bytes []
      lost := false }
  have hs : s.Sound :=
    { start := le_rfl
      cur_le := by
        change segHeaderSize ≤ u32 chunk.length
        omega
      cap_le := hcap.le
      cap_lt := by
        change u32 chunk.length < 2 ^ 32
        omega
      inside := fun _ hx => absurd hx List.not_mem_nil
      apart := List.Pairwise.nil
      fits := fun _ hx => absurd hx List.not_mem_nil
      knows := fun _ hx => absurd hx List.not_mem_nil
      refs := fun _ hx => absurd hx List.not_mem_nil
      builders := fun _ hb => absurd hb List.not_mem_nil
      spans := fun _ hsp => absurd hsp List.not_mem_nil }
  let w : Writer :=
    { seg := overwrite chunk segHeaderSize zeros
      cap := u32 chunk.length
      cur := varlenStart S
      ok := true }
  have hgrown : (Loan.grow { s with w := w } (slotsOf S segHeaderSize 0) true).Sound := by
    refine hs.grow rfl (length_overwrite hroom) le_rfl ?_ ?_ (fun i hi => ?_) (fun _ i hge hlt => ?_)
      (fun x hx => ?_) (slotsOf_apart S _ _)
    · change segHeaderSize ≤ varlenStart S
      omega
    · change varlenStart S ≤ u32 chunk.length
      omega
    · change i < segHeaderSize at hi
      change (overwrite chunk segHeaderSize zeros)[i]? = chunk[i]?
      rw [getElem?_overwrite hroom, if_neg (by omega)]
    · change i < varlenStart S at hlt
      change segHeaderSize ≤ i at hge
      change (overwrite chunk segHeaderSize zeros)[i]? = some 0
      have hzeros : zeros.length = varlenStart S - segHeaderSize := List.length_replicate
      rw [getElem?_overwrite hroom, if_pos ⟨hge, by omega⟩, List.getElem?_replicate,
        if_pos (by omega)]
    · exact (slotsOf_inside_record S _ x hx).mono le_rfl hroot
  refine hgrown.same rfl rfl rfl rfl rfl (fun b hb => ?_) fun _ hsp => absurd hsp List.not_mem_nil
  obtain rfl : b = (S, segHeaderSize) := List.mem_singleton.mp hb
  exact ⟨h.narrow, fun x hx => List.mem_append_right _ hx⟩

/-- Runs of settled calls. -/
theorem sound_of_guarded {S : Schema} {chunk : List UInt8} {ops : List Op} {u : Loan}
    (h : Suits S chunk) (hsettled : (machine S chunk).Guarded Settled ops)
    (hrun : (machine S chunk).run ops = some u) : u.Sound :=
  Machine.invariant_of_guarded (sound_start h) (fun _ _ _ hs ha hstep => hs.step ha hstep)
    hsettled hrun

end DzIpc.Flat
