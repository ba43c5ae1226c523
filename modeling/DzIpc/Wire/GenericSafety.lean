import DzIpc.Wire.Generic
import DzIpc.Wire.Safety

/-!
# `GenericMessage::deserialize` on arbitrary bytes

The reader comes back from every buffer below 2 GiB and reads nothing outside it: a read that
does not fit is left out, and the offset passes the end of the buffer only by the tail of a
page that was read whole, which keeps the 32-bit sums from wrapping.

What it allocates is another matter.  The sizes of names are checked against what is left of
the buffer, but those of strings and nested messages and the counts of arrays are not, where
the generated classes ask `tods_count_ok`.

* `pagedLoop_safe` is the spec of one paged read.
* `Spent` bounds the work between two states of the reader by the way of the offset.
* `CountsFit` is the condition that all sizes and counts would pass `tods_count_ok`.
* `readField_round` and `readFields_paid` are the step and the run of the loop over the
  fields.
* `deserialize_bounded` is the result, and `deserialize_unbounded` the buffer against it.
-/

namespace DzIpc.Wire.GenericMessage

open Weave

/-! ## One paged read -/

/-- The offset is on a data byte, and behind the end of the buffer by a page tail at most. -/
def Within (r : Region) (c : Scan) : Prop :=
  c.offset % 1472 < 1460 ∧
    (c.offset ≤ r.totalSize ∨ c.offset % 1472 = 0 ∧ c.offset ≤ r.totalSize + 12)

/-- What a paged read of `len` bytes does to the scan: it runs to the end, or it stops short
of the end of the buffer by less than the copy that did not fit. -/
structure Advance (r : Region) (c c' : Scan) (len : ℕ) : Prop where
  within : Within r c'
  mono : c.offset ≤ c'.offset
  allocated : c'.allocated = c.allocated
  rounds : c'.rounds + c.offset ≤ c.rounds + c'.offset + 1
  filled : c.offset + len ≤ c'.offset ∨ r.totalSize < c'.offset + min len 1460

section

variable {r : Region}

/-- No page starts in the first bytes behind the signed 32-bit range. -/
theorem Within.offset_lt {c : Scan} (hsmall : r.totalSize < 2 ^ 31) (h : Within r c) :
    c.offset < 2 ^ 31 := by
  obtain ⟨_, hend⟩ := h
  omega

private theorem toPureOffset_mod {offset : ℕ} (h : offset % 1472 < 1460) :
    toPureOffset offset % ipcMsgMaxSize = offset % 1472 := by
  simp only [toPureOffset, ipcMsgMaxSize, tailMsgSize]
  omega

/-- A read that is not split by a page tail. -/
private theorem readRest_safe (hr : r.Honest) (hsmall : r.totalSize < 2 ^ 31) {c : Scan}
    {left : ℕ} (hc : Within r c) (hleft : left < 2 ^ 31)
    (hpage : c.offset % 1472 + left < 1460) :
    Returns (readRest r c left) fun res => res.1.length = left ∧ Advance r c res.2 left := by
  have hlt := hc.offset_lt hsmall
  have hsum : u32 (c.offset + left) = c.offset + left := u32_of_lt (by omega)
  refine .ite (fun hroom => ?_) (fun hnone => ?_)
  · rw [hsum] at hroom
    refine (copy_of_inRange hr (todsInRange_iff.mpr hroom.2)).bind fun bytes hbytes => ?_
    have hskip : (c.skip left).offset = c.offset + left := hsum
    refine .pure ⟨hbytes, ?_⟩
    refine { within := ?_, mono := ?_, allocated := rfl, rounds := ?_, filled := .inl ?_ }
    · rw [Within, hskip]
      omega
    · rw [hskip]
      exact Nat.le_add_right _ _
    · rw [hskip]
      change c.rounds + c.offset ≤ _
      omega
    · rw [hskip]
  · rw [hsum] at hnone
    have hstay : Advance r c c left :=
      { within := hc, mono := Nat.le_refl _, allocated := rfl, rounds := by omega,
        filled := by omega }
    exact .ok ⟨List.length_replicate, hstay⟩

/-- A read whose rest does not fit does nothing. -/
private theorem readRest_none (hsmall : r.totalSize < 2 ^ 31) {c : Scan} {left : ℕ}
    (hc : Within r c) (hleft : left < 2 ^ 31) (hover : r.totalSize < c.offset + left) :
    readRest r c left = .ok (List.replicate left 0, c) := by
  have hlt := hc.offset_lt hsmall
  have hsum : u32 (c.offset + left) = c.offset + left := u32_of_lt (by omega)
  exact if_neg (by omega)

theorem pagedLoop_safe (hr : r.Honest) (hsmall : r.totalSize < 2 ^ 31) (cutCnt : ℕ) :
    ∀ {c : Scan} {left : ℕ}, Within r c → left < 2 ^ 31 →
      cutCnt = cuts ipcMsgMaxSize (toPureOffset c.offset) left →
      Returns (pagedLoop r cutCnt c (toPureOffset c.offset) left) fun res =>
        res.1.length = left ∧ Advance r c res.2 left := by
  induction cutCnt with
  | zero =>
      intro c left hc hleft hcuts
      have hwithin : toPureOffset c.offset % ipcMsgMaxSize + left < ipcMsgMaxSize := by
        by_contra hge
        have := cuts_of_block (B := ipcMsgMaxSize) (by decide) (Nat.not_lt.mp hge)
        omega
      rw [toPureOffset_mod hc.1] at hwithin
      exact readRest_safe hr hsmall hc hleft hwithin
  | succ cutCnt ih =>
      intro c left hc hleft hcuts
      have hlt := hc.offset_lt hsmall
      have hmod := toPureOffset_mod hc.1
      have hge : ipcMsgMaxSize ≤ toPureOffset c.offset % ipcMsgMaxSize + left := by
        by_contra hlt
        have := cuts_eq_zero (Nat.not_le.mp hlt)
        omega
      have hblock := cuts_of_block (B := ipcMsgMaxSize) (by decide) hge
      have hpage : c.offset % 1472 < 1460 := hc.1
      rw [hmod] at hge hblock
      have hmin : min (ipcMsgMaxSize - toPureOffset c.offset % ipcMsgMaxSize) left
          = 1460 - c.offset % 1472 := by
        rw [hmod]
        exact Nat.min_eq_left (by omega)
      unfold pagedLoop
      dsimp only
      rw [hmin]
      simp only [ipcMsgMaxSize] at hge hblock
      generalize hcopy : 1460 - c.offset % 1472 = copy at hblock ⊢
      have hsum : u32 (c.offset + copy) = c.offset + copy := u32_of_lt (by omega)
      rw [hsum]
      refine .ite (fun hover => ?_) (fun hroom => ?_)
      · rw [readRest_none hsmall (c := c.round) hc hleft (by change _ < c.offset + left; omega)]
        have hstay : Advance r c c.round left :=
          { within := hc, mono := Nat.le_refl _, allocated := rfl,
            rounds := Nat.le_of_eq (Nat.add_right_comm _ _ _)
            filled := .inr (Nat.lt_of_lt_of_le hover (Nat.add_le_add_left (by omega) _)) }
        exact .ok ⟨List.length_replicate, hstay⟩
      · refine (copy_of_inRange hr (todsInRange_iff.mpr (Nat.not_lt.mp hroom))).bind
          fun bytes hbytes => ?_
        have hskip : (c.round.skip (copy + tailMsgSize)).offset = c.offset + copy + 12 :=
          u32_of_lt (n := c.offset + (copy + 12)) (by omega)
        have hround : (c.round.skip (copy + tailMsgSize)).rounds = c.rounds + 1 := rfl
        have hstep : toPureOffset (c.round.skip (copy + tailMsgSize)).offset
            = toPureOffset c.offset + copy := by
          rw [hskip]
          simp only [toPureOffset, ipcMsgMaxSize, tailMsgSize]
          omega
        have hpure : u32 (toPureOffset c.offset + copy)
            = toPureOffset (c.round.skip (copy + tailMsgSize)).offset := by
          rw [hstep]
          refine u32_of_lt ?_
          simp only [toPureOffset, ipcMsgMaxSize, tailMsgSize]
          omega
        have hnext : Within r (c.round.skip (copy + tailMsgSize)) := by
          rw [Within, hskip]
          omega
        rw [hpure]
        have hshort : left - copy < 2 ^ 31 := by omega
        refine (ih hnext hshort ?_).bind ?_
        · rw [hstep]
          exact Nat.add_right_cancel (hcuts.trans hblock)
        rintro ⟨rest, c'⟩ ⟨hrest, h⟩
        have hmono := h.mono
        have hrounds := h.rounds
        have hfilled := h.filled
        dsimp only at hmono hrounds hfilled hrest
        rw [hskip] at hmono hrounds hfilled
        rw [hround] at hrounds
        have hread : Advance r c c' left :=
          { within := h.within, mono := by omega, allocated := h.allocated, rounds := by omega,
            filled := by omega }
        exact .pure ⟨by rw [List.length_append, hbytes, hrest]; omega, hread⟩

theorem readPaged_safe (hr : r.Honest) (hsmall : r.totalSize < 2 ^ 31) {c : Scan} {len : ℕ}
    (hc : Within r c) (hlen : len < 2 ^ 31) :
    Returns (readPaged r c len) fun res => res.1.length = len ∧ Advance r c res.2 len := by
  have hlt := hc.offset_lt hsmall
  have hpure : toPureOffset c.offset ≤ c.offset := Nat.sub_le _ _
  have hcuts : sub32 (u32 (toPureOffset c.offset + len) / ipcMsgMaxSize)
      (toPureOffset c.offset / ipcMsgMaxSize)
      = cuts ipcMsgMaxSize (toPureOffset c.offset) len := by
    rw [u32_of_lt (by omega), sub32_of_le]
    · rfl
    · exact Nat.div_le_div_right (by omega)
    · have := Nat.div_le_self (toPureOffset c.offset + len) ipcMsgMaxSize
      omega
  have hloop := pagedLoop_safe hr hsmall _ hc hlen rfl
  rw [← hcuts] at hloop
  exact hloop

theorem readSize_safe (hr : r.Honest) (hsmall : r.totalSize < 2 ^ 31) {c : Scan}
    (hc : Within r c) :
    Returns (readSize r c) fun res => Advance r c res.2 4 ∧ res.1 < 2 ^ 31 := by
  refine (readPaged_safe hr hsmall hc (by omega)).bind ?_
  rintro ⟨bytes, c'⟩ ⟨_, h⟩
  refine .pure ⟨h, ?_⟩
  dsimp only
  exact i32_lt (leNat bytes)

/-- A negative size reads nothing. -/
theorem readBytesPaged_safe (hr : r.Honest) (hsmall : r.totalSize < 2 ^ 31) {c : Scan}
    (hc : Within r c) {size : ℤ} (hsize : size < 2 ^ 31) :
    Returns (readBytesPaged r c size) fun res =>
      res.1.length = size.toNat ∧ Advance r (c.allocate size.toNat) res.2 size.toNat := by
  refine .ite (fun hnone => ?_) (fun _ => ?_)
  · rw [Int.toNat_of_nonpos hnone]
    have hstay : Advance r (c.allocate 0) c 0 :=
      { within := hc, mono := Nat.le_refl _, allocated := rfl, rounds := Nat.le_succ _,
        filled := .inl (Nat.le_refl _) }
    exact .pure ⟨rfl, hstay⟩
  · exact readPaged_safe (c := c.allocate size.toNat) hr hsmall hc (by omega)

end

/-! ## The condition -/

/-- The size or the count at the scan would pass `tods_count_ok`; a negative one ends the
reader. -/
def SizeFits (r : Region) (c : Scan) (width : ℕ) : Prop :=
  Yields (readSize r c) fun res => res.1 < 0 ∨ todsCountOk r res.2.toCursor res.1 width = true

/-- So would the sizes of the elements. -/
def ItemsFit (r : Region) : ℕ → Scan → Prop
  | 0, _ => True
  | count + 1, c =>
      SizeFits r c.round 1 ∧
        Yields (readSized r c.round) fun res => res.2.1 = .next → ItemsFit r count res.2.2

/-- The sizes and counts of a value. -/
def ValueFits (r : Region) (c : Scan) : Layout → Prop
  | .fixed _ => True
  | .sized => SizeFits r c 1
  | .array width => SizeFits r c width
  | .sizedArray =>
      SizeFits r c 4 ∧
        Yields (readCount r c) fun res => ∀ count ∈ res.1, ItemsFit r count (res.2.allocate 4)

/-- The sizes and counts of a field. -/
def FieldFits (r : Region) (c : Scan) : Prop :=
  c.offset % (ipcMsgMaxSize + tailMsgSize) < ipcMsgMaxSize →
    Yields (readHeader r c) fun res =>
      ∀ header ∈ res.1, ∀ l ∈ layout header.2, ValueFits r res.2 l

/-- The sizes and counts of the fields that the loop comes to. -/
def FieldsFit (r : Region) : ℕ → Scan → Prop
  | 0, _ => True
  | fuel + 1, c =>
      u32 (c.offset + tailMsgSize) < r.totalSize →
        FieldFits r c.round ∧
          Yields (readField r c.round) fun res => res.2.1 = .next → FieldsFit r fuel res.2.2

/-- Every size and every count of a string, a nested message or an array in the buffer would
pass `tods_count_ok`, the guard before the same `resize` in the generated classes. -/
def CountsFit (r : Region) : Prop := FieldsFit r (r.totalSize + 1) .start

section

variable (r : Region)

instance (c : Scan) (width : ℕ) : Decidable (SizeFits r c width) :=
  inferInstanceAs (Decidable (Yields _ _))

instance decidableItemsFit : ∀ (count : ℕ) (c : Scan), Decidable (ItemsFit r count c)
  | 0, _ => isTrue trivial
  | count + 1, _ =>
      have := decidableItemsFit count
      inferInstanceAs (Decidable (_ ∧ Yields _ _))

instance (c : Scan) (l : Layout) : Decidable (ValueFits r c l) := by
  cases l <;> unfold ValueFits <;> infer_instance

instance (c : Scan) : Decidable (FieldFits r c) :=
  inferInstanceAs (Decidable (_ → Yields _ _))

instance decidableFieldsFit : ∀ (fuel : ℕ) (c : Scan), Decidable (FieldsFit r fuel c)
  | 0, _ => isTrue trivial
  | fuel + 1, _ =>
      have := decidableFieldsFit fuel
      inferInstanceAs (Decidable (_ → _ ∧ Yields _ _))

instance : Decidable (CountsFit r) := decidableFieldsFit r _ _

end

/-! ## The work of one field -/

/-- The bytes allocated and the rounds made. -/
def Scan.work (c : Scan) : ℕ := c.allocated + c.rounds

/-- From `c` to `c'` the offset moved forward, and, if the sizes on the way fit, three times
its way and `extra` cover the work. -/
structure Spent (r : Region) (c c' : Scan) (fits : Prop) (extra : ℕ) : Prop where
  within : Within r c'
  mono : c.offset ≤ c'.offset
  work : fits → c'.work + 3 * c.offset ≤ c.work + 3 * c'.offset + extra

/-- The offset moved on by `len`, or the loop over the fields is at its end. -/
def Reach (r : Region) (c c' : Scan) (len : ℕ) : Prop :=
  c.offset + len ≤ c'.offset ∨ r.totalSize < c'.offset + 12

section

variable {r : Region} {c c₁ c₂ : Scan} {fits more : Prop} {extra extra' len len' : ℕ}

theorem Spent.refl (fits : Prop) (hc : Within r c) : Spent r c c fits 0 :=
  { within := hc, mono := Nat.le_refl _, work := fun _ => Nat.le_refl _ }

theorem Spent.trans (h : Spent r c c₁ fits extra) (h' : Spent r c₁ c₂ more extra') :
    Spent r c c₂ (fits ∧ more) (extra + extra') where
  within := h'.within
  mono := Nat.le_trans h.mono h'.mono
  work := by
    rintro ⟨hfits, hmore⟩
    have := h.work hfits
    have := h'.work hmore
    omega

theorem Spent.mono_fits (h : Spent r c c₁ fits extra) (himp : more → fits)
    (hle : extra ≤ extra') : Spent r c c₁ more extra' where
  within := h.within
  mono := h.mono
  work := fun hmore => Nat.le_trans (h.work (himp hmore)) (Nat.add_le_add_left hle _)

theorem Spent.allocate (h : Spent r c c₁ fits extra) (size : ℕ) :
    Spent r c (c₁.allocate size) fits (extra + size) where
  within := h.within
  mono := h.mono
  work := by
    intro hfits
    have := h.work hfits
    have hwork : (c₁.allocate size).work = c₁.work + size := by
      change c₁.allocated + size + c₁.rounds = c₁.allocated + c₁.rounds + size
      omega
    change (c₁.allocate size).work + 3 * c.offset ≤ c.work + 3 * c₁.offset + (extra + size)
    omega

theorem Advance.spent (h : Advance r c c₁ len) (fits : Prop) : Spent r c c₁ fits 1 where
  within := h.within
  mono := h.mono
  work := by
    intro _
    have halloc := h.allocated
    have hrounds := h.rounds
    have hmono := h.mono
    unfold Scan.work
    omega

theorem Advance.reach (h : Advance r c c₁ len) (hlen : len ≤ 8) : Reach r c c₁ len := by
  have := h.filled
  unfold Reach
  omega

theorem Reach.trans (h : Reach r c c₁ len) (h' : Reach r c₁ c₂ len')
    (_ : c₁.offset ≤ c₂.offset) : Reach r c c₂ (len + len') := by
  rcases h' with hmoved | hend
  · rcases h with hbefore | hend
    · exact .inl (by omega)
    · exact .inr (by omega)
  · exact .inr hend

theorem Reach.trans_le (h : Reach r c c₁ len) (hmono : c₁.offset ≤ c₂.offset) :
    Reach r c c₂ len := by
  unfold Reach at h ⊢
  omega

theorem Reach.weaken (h : Reach r c₁ c₂ len) (hle : len' ≤ len) (hmono : c.offset ≤ c₁.offset) :
    Reach r c c₂ len' := by
  unfold Reach at h ⊢
  omega

theorem Spent.round (h : Spent r c c₁ fits extra) : Spent r c c₁.round fits (extra + 1) where
  within := h.within
  mono := h.mono
  work := by
    intro hfits
    have := h.work hfits
    change c₁.allocated + (c₁.rounds + 1) + 3 * c.offset ≤ c.work + 3 * c₁.offset + (extra + 1)
    unfold Scan.work at this ⊢
    omega

/-- An object that is allocated before it is read costs its way and one page, if its size
fits; here with a copy of it that is made afterwards. -/
theorem Advance.spent_twice {size : ℕ} (h : Advance r (c.allocate size) c₁ size) :
    Spent r c (c₁.allocate (4 + size)) (c.offset + size ≤ r.totalSize) 2925 where
  within := h.within
  mono := h.mono
  work := by
    intro hfits
    have halloc : c₁.allocated = c.allocated + size := h.allocated
    have hrounds : c₁.rounds + c.offset ≤ c.rounds + c₁.offset + 1 := h.rounds
    have hmono : c.offset ≤ c₁.offset := h.mono
    have hfilled : c.offset + size ≤ c₁.offset ∨ r.totalSize < c₁.offset + min size 1460 :=
      h.filled
    change c₁.allocated + (4 + size) + c₁.rounds + 3 * c.offset
      ≤ c.allocated + c.rounds + 3 * c₁.offset + 2925
    omega

theorem Advance.spent_once {size : ℕ} (h : Advance r (c.allocate size) c₁ size) :
    Spent r c c₁ (c.offset + size ≤ r.totalSize) 1461 where
  within := h.within
  mono := h.mono
  work := by
    intro hfits
    have halloc : c₁.allocated = c.allocated + size := h.allocated
    have hrounds : c₁.rounds + c.offset ≤ c.rounds + c₁.offset + 1 := h.rounds
    have hmono : c.offset ≤ c₁.offset := h.mono
    have hfilled : c.offset + size ≤ c₁.offset ∨ r.totalSize < c₁.offset + min size 1460 :=
      h.filled
    unfold Scan.work
    omega

end

section

variable {r : Region}

/-- What the condition says where a size has been read. -/
theorem SizeFits.le {c c₁ : Scan} {size : ℤ} {width : ℕ} (hfits : SizeFits r c width)
    (hpos : 0 < width) (hread : readSize r c = .ok (size, c₁)) (hsize : ¬ size < 0) :
    c₁.offset + size.toNat * width ≤ r.totalSize := by
  rcases hfits.elim hread with hneg | hok
  · exact absurd hneg hsize
  · exact todsInRange_iff.mp (le_of_todsCountOk hok hpos).2

/-- A sized value. -/
theorem readSized_spent (hr : r.Honest) (hsmall : r.totalSize < 2 ^ 31) {c : Scan}
    (hc : Within r c) :
    Returns (readSized r c) fun res =>
      Spent r c res.2.2 (SizeFits r c 1) 2926 ∧ (res.2.1 = .next → Reach r c res.2.2 4) := by
  unfold readSized
  refine .ite (fun _ => .pure ?_) (fun _ => ?_)
  · exact ⟨(Spent.refl True hc).mono_fits (fun _ => trivial) (Nat.zero_le _), nofun⟩
  obtain ⟨⟨size, c₁⟩, hread, hadvance, hlt⟩ := readSize_safe hr hsmall hc
  rw [hread]
  refine .ite (fun _ => .pure ?_) (fun hneg => ?_)
  · exact ⟨(hadvance.spent True).mono_fits (fun _ => trivial) (by omega), nofun⟩
  refine (readBytesPaged_safe hr hsmall hadvance.within hlt).bind ?_
  rintro ⟨bytes, c₂⟩ ⟨hbytes, h⟩
  dsimp only at hbytes h
  have hspent := (hadvance.spent True).trans h.spent_twice
  refine .pure ⟨?_, fun _ => ?_⟩
  · rw [hbytes]
    refine hspent.mono_fits (fun hfits => ⟨trivial, ?_⟩) (Nat.le_of_eq rfl)
    have hroom := hfits.le (by decide) hread hneg
    rwa [Nat.mul_one] at hroom
  · exact (hadvance.reach (by decide)).trans_le h.mono

/-- The elements of an array. -/
theorem readElements_spent (hr : r.Honest) (hsmall : r.totalSize < 2 ^ 31) {width : ℕ}
    (hwidth : width ≤ 8) (count : ℕ) :
    ∀ {c : Scan}, Within r c → Returns (readElements r width count c) fun res =>
      Spent r c res.2.2 True (2 * count) ∧
        (res.2.1 = .next → Reach r c res.2.2 (count * width)) := by
  induction count with
  | zero =>
      intro c hc
      exact .pure ⟨Spent.refl True hc, fun _ => .inl (by simp)⟩
  | succ count ih =>
      intro c hc
      have hround : Spent r c c.round True 1 := (Spent.refl True hc).round
      refine .ite (fun _ => .pure ?_) (fun _ => ?_)
      · exact ⟨hround.mono_fits id (by omega), nofun⟩
      refine (readPaged_safe (c := c.round) hr hsmall hc (by omega)).bind ?_
      rintro ⟨bytes, c₁⟩ ⟨_, h⟩
      refine (ih h.within).bind ?_
      rintro ⟨rest, flow, c₂⟩ ⟨hspent, hreach⟩
      refine .pure ⟨?_, fun hflow => ?_⟩
      · exact ((hround.trans (h.spent True)).trans hspent).mono_fits
          (fun _ => ⟨⟨trivial, trivial⟩, trivial⟩) (by omega)
      · have hfirst : Reach r c c₁ width := h.reach hwidth
        rw [Nat.succ_mul, Nat.add_comm]
        exact hfirst.trans (hreach hflow) hspent.mono

/-- The elements of an array of sized values. -/
theorem readSizedArray_spent (hr : r.Honest) (hsmall : r.totalSize < 2 ^ 31) (count : ℕ) :
    ∀ {c : Scan}, Within r c → Returns (readSizedArray r count c) fun res =>
      Spent r c res.2.2 (ItemsFit r count c) (2927 * count) ∧
        (res.2.1 = .next → Reach r c res.2.2 (4 * count)) := by
  induction count with
  | zero =>
      intro c hc
      exact .pure ⟨Spent.refl _ hc, fun _ => .inl (Nat.le_refl _)⟩
  | succ count ih =>
      intro c hc
      have hround : Spent r c c.round True 1 := (Spent.refl True hc).round
      obtain ⟨⟨item, flow, c₁⟩, hread, hspent, hreach⟩ :=
        readSized_spent (c := c.round) hr hsmall hc
      dsimp only at hspent hreach
      unfold readSizedArray
      rw [hread]
      have hfirst := hround.trans hspent
      cases flow with
      | done =>
          exact .pure ⟨hfirst.mono_fits (fun hfits => ⟨trivial, hfits.1⟩) (by omega), nofun⟩
      | next =>
          refine (ih hspent.within).bind ?_
          rintro ⟨rest, flow, c₂⟩ ⟨hspent', hreach'⟩
          refine .pure ⟨?_, fun hflow => ?_⟩
          · refine (hfirst.trans hspent').mono_fits (fun hfits => ?_) (by omega)
            exact ⟨⟨trivial, hfits.1⟩, hfits.2.elim hread rfl⟩
          · have hmoved : Reach r c c₁ 4 := hreach rfl
            rw [Nat.mul_succ, Nat.add_comm]
            exact hmoved.trans (hreach' hflow) hspent'.mono

/-- The count of an array. -/
theorem readCount_spent (hr : r.Honest) (hsmall : r.totalSize < 2 ^ 31) {c : Scan}
    (hc : Within r c) :
    Returns (readCount r c) fun res => Spent r c res.2 True 1 ∧
      ∀ count ∈ res.1, ∀ width, 0 < width → SizeFits r c width →
        res.2.offset + count * width ≤ r.totalSize := by
  unfold readCount
  refine .ite (fun _ => .pure ?_) (fun _ => ?_)
  · exact ⟨(Spent.refl True hc).mono_fits id (by decide), nofun⟩
  obtain ⟨⟨size, c₁⟩, hread, hadvance, -⟩ := readSize_safe hr hsmall hc
  rw [hread]
  refine .pure ⟨hadvance.spent True, ?_⟩
  intro count hcount width hpos hfits
  by_cases hneg : size < 0
  · rw [if_pos hneg] at hcount
    cases hcount
  · rw [if_neg hneg] at hcount
    cases hcount
    exact hfits.le hpos hread hneg

/-- The widths are those of numbers. -/
theorem layout_width {type : UInt8} {l : Layout} (h : layout type = some l) :
    (∀ width, l = .fixed width → width ≤ 8) ∧
      ∀ width, l = .array width → 0 < width ∧ width ≤ 8 := by
  unfold layout at h
  split at h <;> cases h <;> simp

/-- A value of `x` elements, or the part that was read: each element costs a page and a name at
most, and is on the way, unless the reader has come to its end. -/
def Paid (r : Region) (c c' : Scan) (flow : Flow) (fits : Prop) (extra : ℕ) : Prop :=
  ∃ x, Spent r c c' fits (extra + 2930 * x) ∧ (fits → x ≤ r.totalSize) ∧
    (flow = .next → Reach r c c' x)

theorem Spent.paid {c c' : Scan} {fits : Prop} {extra extra' : ℕ} (h : Spent r c c' fits extra)
    (flow : Flow) (hle : extra ≤ extra') : Paid r c c' flow fits extra' :=
  ⟨0, h.mono_fits id hle, fun _ => Nat.zero_le _, fun _ => .inl h.mono⟩

theorem readArray_paid (hr : r.Honest) (hsmall : r.totalSize < 2 ^ 31) {c : Scan}
    (hc : Within r c) {width : ℕ} (hpos : 0 < width) (hwidth : width ≤ 8) :
    Returns (readValue r c (.array width)) fun res =>
      Paid r c res.2.2 res.2.1 (SizeFits r c width) 2926 := by
  unfold readValue
  refine (readCount_spent hr hsmall hc).bind ?_
  rintro ⟨count, c₁⟩ ⟨hcount, hfits⟩
  dsimp only at hcount hfits
  cases count with
  | none =>
      exact .pure ((hcount.mono_fits (fun _ => trivial) (Nat.le_refl _)).paid .done (by decide))
  | some count =>
      refine (readElements_spent (c := c₁.allocate (4 + count * width)) hr hsmall hwidth count
        hcount.within).bind ?_
      rintro ⟨elems, flow, c₂⟩ ⟨hspent, hreach⟩
      dsimp only at hspent hreach
      have hmul : count * width ≤ count * 8 := Nat.mul_le_mul_left _ hwidth
      have hcost := (hcount.allocate (4 + count * width)).trans hspent
      refine .pure ⟨count, hcost.mono_fits (fun _ => ⟨trivial, trivial⟩) (by omega), ?_, ?_⟩
      · intro h
        have hroom := hfits count rfl width hpos h
        have hle : count ≤ count * width := Nat.le_mul_of_pos_right _ hpos
        omega
      · intro hflow
        have hmoved : Reach r c₁ c₂ (count * width) := hreach hflow
        exact hmoved.weaken (Nat.le_mul_of_pos_right _ hpos) hcount.mono

theorem readSizedArray_paid (hr : r.Honest) (hsmall : r.totalSize < 2 ^ 31) {c : Scan}
    (hc : Within r c) :
    Returns (readValue r c .sizedArray) fun res =>
      Paid r c res.2.2 res.2.1 (ValueFits r c .sizedArray) 2926 := by
  unfold readValue
  obtain ⟨⟨count, c₁⟩, hread, hcount, hfits⟩ := readCount_spent hr hsmall hc
  dsimp only at hcount hfits
  rw [hread]
  cases count with
  | none =>
      exact .pure ((hcount.mono_fits (fun _ => trivial) (Nat.le_refl _)).paid .done (by decide))
  | some count =>
      refine (readSizedArray_spent (c := c₁.allocate 4) hr hsmall count hcount.within).bind ?_
      rintro ⟨items, flow, c₂⟩ ⟨hspent, hreach⟩
      dsimp only at hspent hreach
      have hcost := (hcount.allocate 4).trans hspent
      refine .pure ⟨count, hcost.mono_fits (fun h => ⟨trivial, h.2.elim hread count rfl⟩)
        (by omega), ?_, ?_⟩
      · intro h
        have hroom := hfits count rfl 4 (by decide) h.1
        omega
      · intro hflow
        have hmoved : Reach r c₁ c₂ (4 * count) := hreach hflow
        exact hmoved.weaken (by omega) hcount.mono

/-- The cases of the `switch`. -/
theorem readValue_paid (hr : r.Honest) (hsmall : r.totalSize < 2 ^ 31) {c : Scan}
    (hc : Within r c) {type : UInt8} {l : Layout} (hl : layout type = some l) :
    Returns (readValue r c l) fun res => Paid r c res.2.2 res.2.1 (ValueFits r c l) 2926 := by
  obtain ⟨hfixed, harray⟩ := layout_width hl
  cases l with
  | fixed width =>
      have hwidth := hfixed width rfl
      unfold readValue
      refine .ite (fun _ => .pure ?_) (fun _ => ?_)
      · exact (Spent.refl _ hc).paid .done (Nat.zero_le _)
      · refine (readPaged_safe hr hsmall hc (by omega)).bind ?_
        rintro ⟨bytes, c₁⟩ ⟨_, h⟩
        exact .pure (((h.spent _).allocate width).paid .next (by omega))
  | sized =>
      refine (readSized_spent hr hsmall hc).mono ?_
      rintro ⟨bytes, flow, c₁⟩ ⟨hspent, _⟩
      exact hspent.paid flow (Nat.le_refl _)
  | array width =>
      obtain ⟨hpos, hwidth⟩ := harray width rfl
      exact readArray_paid hr hsmall hc hpos hwidth
  | sizedArray => exact readSizedArray_paid hr hsmall hc

/-- The name of a field is not longer than what is left of the buffer. -/
theorem readHeader_spent (hr : r.Honest) (hsmall : r.totalSize < 2 ^ 31) {c : Scan}
    (hc : Within r c) :
    Returns (readHeader r c) fun res =>
      Spent r c res.2 True 1463 ∧ (res.1 ≠ none → Reach r c res.2 4) := by
  unfold readHeader
  refine .ite (fun _ => .pure ?_) (fun _ => ?_)
  · exact ⟨(Spent.refl True hc).mono_fits id (by decide), fun h => absurd rfl h⟩
  obtain ⟨⟨nameSize, c₁⟩, hread, hadvance, hlt⟩ := readSize_safe hr hsmall hc
  rw [hread]
  have hsize := hadvance.spent True
  refine .ite (fun _ => .pure ?_) (fun hroom => ?_)
  · exact ⟨hsize.mono_fits id (by decide), fun h => absurd rfl h⟩
  dsimp only at hlt hadvance hsize hroom
  refine (readBytesPaged_safe hr hsmall hadvance.within hlt).bind ?_
  rintro ⟨name, c₂⟩ ⟨_, h⟩
  dsimp only at h
  have hlt₁ := hadvance.within.offset_lt hsmall
  have hleft : c₁.offset + nameSize.toNat ≤ r.totalSize := by
    have hsum : u32 (c₁.offset + nameSize.toNat) = c₁.offset + nameSize.toNat :=
      u32_of_lt (by omega)
    rw [hsum] at hroom
    omega
  have hname : Spent r c c₂ True 1462 :=
    (hsize.trans h.spent_once).mono_fits (fun _ => ⟨trivial, hleft⟩) (by decide)
  have hreach : Reach r c c₂ 4 := (hadvance.reach (by decide)).trans_le h.mono
  refine .ite (fun _ => .pure ?_) (fun _ => ?_)
  · exact ⟨hname.mono_fits id (by decide), fun h => absurd rfl h⟩
  refine (readPaged_safe hr hsmall h.within (by decide)).bind ?_
  rintro ⟨type, c₃⟩ ⟨_, htype⟩
  refine .pure ⟨?_, fun _ => hreach.trans_le htype.mono⟩
  exact (hname.trans (htype.spent True)).mono_fits (fun _ => ⟨trivial, trivial⟩) (by decide)

/-- The body of the loop over the fields: a field is on the way with its four bytes at least. -/
theorem readField_paid (hr : r.Honest) (hsmall : r.totalSize < 2 ^ 31) {c : Scan}
    (hc : Within r c) :
    Returns (readField r c) fun res => ∃ x, Spent r c res.2.2 (FieldFits r c) (4389 + 2930 * x) ∧
      (FieldFits r c → x ≤ r.totalSize) ∧ (res.2.1 = .next → Reach r c res.2.2 (4 + x)) := by
  have hpage : c.offset % (ipcMsgMaxSize + tailMsgSize) < ipcMsgMaxSize := hc.1
  unfold readField
  refine .ite (fun hge => absurd hpage (Nat.not_lt.mpr hge)) (fun _ => ?_)
  obtain ⟨⟨header, c₁⟩, hread, hheader, hreach⟩ := readHeader_spent hr hsmall hc
  dsimp only at hheader hreach
  have hend : Spent r c c₁ (FieldFits r c) (4389 + 2930 * 0) :=
    hheader.mono_fits (fun _ => trivial) (by decide)
  rw [hread]
  cases header with
  | none => exact .pure ⟨0, hend, fun _ => Nat.zero_le _, nofun⟩
  | some header =>
      obtain ⟨name, type⟩ := header
      simp only [bind, Except.bind]
      cases hl : layout type with
      | none => exact .pure ⟨0, hend, fun _ => Nat.zero_le _, nofun⟩
      | some l =>
          refine (readValue_paid hr hsmall hheader.within hl).bind ?_
          rintro ⟨data, flow, c₂⟩ ⟨x, hspent, hle, hmoved⟩
          dsimp only at hspent hmoved
          have hvalue : FieldFits r c → ValueFits r c₁ l :=
            fun h => (h hpage).elim hread _ rfl l hl
          refine .pure ⟨x, ?_, fun h => hle (hvalue h), fun hflow => ?_⟩
          · exact (hheader.trans hspent).mono_fits (fun h => ⟨trivial, hvalue h⟩) (by omega)
          · exact (hreach (by simp)).trans (hmoved hflow) hspent.mono

/-- The step: what a round of the loop over the fields costs, and how far it gets. -/
theorem readField_round (hr : r.Honest) (hsmall : r.totalSize < 2 ^ 31) {c : Scan}
    (hc : Within r c) :
    Returns (readField r c.round) fun res => Within r res.2.2 ∧ c.offset ≤ res.2.2.offset ∧
      ∃ x, (FieldFits r c.round → x ≤ r.totalSize ∧
        res.2.2.work + 3 * c.offset ≤ c.work + 3 * res.2.2.offset + (4390 + 2930 * x)) ∧
      (res.2.1 = .next → Reach r c res.2.2 (4 + x)) := by
  refine (readField_paid (c := c.round) hr hsmall hc).mono ?_
  rintro ⟨field, flow, c₁⟩ ⟨x, hspent, hle, hreach⟩
  refine ⟨hspent.within, hspent.mono, x, fun hfits => ⟨hle hfits, ?_⟩, hreach⟩
  have hwork : c₁.work + 3 * c.offset ≤ c.round.work + 3 * c₁.offset + (4389 + 2930 * x) :=
    hspent.work hfits
  have hround : c.round.work = c.work + 1 := rfl
  dsimp only
  omega

/-- At the end of the buffer the loop is left. -/
theorem readFields_end (hsmall : r.totalSize < 2 ^ 31) {c : Scan} (hc : Within r c) {fuel : ℕ}
    (hfuel : 0 < fuel) (hend : r.totalSize < c.offset + 13) (fields : List FieldEntry) :
    readFields r fuel c fields = .ok (some (fields, c)) := by
  have hlt := hc.offset_lt hsmall
  cases fuel with
  | zero => exact absurd hfuel (Nat.lt_irrefl 0)
  | succ fuel =>
      have hsum : u32 (c.offset + tailMsgSize) = c.offset + 12 := u32_of_lt (by
        change c.offset + 12 < 2 ^ 32
        omega)
      unfold readFields
      rw [hsum, if_neg (by omega)]
      rfl

/-- The run: with fuel for the rest of the buffer the loop comes to its end.  The induction is on
the fuel; every field but the last is paid by its way. -/
theorem readFields_paid (hr : r.Honest) (hsmall : r.totalSize < 2 ^ 31) (fuel : ℕ) :
    ∀ {c : Scan} (fields : List FieldEntry), Within r c → r.totalSize < c.offset + fuel →
      0 < fuel →
      Returns (readFields r fuel c fields) fun res => ∃ fields' c', res = some (fields', c') ∧
        (FieldsFit r fuel c → c'.work + 4200 * c.offset
          ≤ c.work + 4200 * (r.totalSize + 12) + 2930 * r.totalSize + 4390) := by
  induction fuel with
  | zero => exact fun _ _ _ h => absurd h (Nat.lt_irrefl 0)
  | succ fuel ih =>
      intro c fields hc hfuel _
      have hlt := hc.offset_lt hsmall
      have hbehind := hc.2
      by_cases hend : r.totalSize < c.offset + 13
      · rw [readFields_end hsmall hc (Nat.succ_pos fuel) hend]
        exact .ok ⟨fields, c, rfl, fun _ => by omega⟩
      have hsum : u32 (c.offset + tailMsgSize) = c.offset + 12 := u32_of_lt (by
        change c.offset + 12 < 2 ^ 32
        omega)
      have hin : u32 (c.offset + tailMsgSize) < r.totalSize := by
        rw [hsum]
        omega
      obtain ⟨⟨field, flow, c₁⟩, hread, hc₁, hmono, x, hcost, hreach⟩ :=
        readField_round hr hsmall hc
      dsimp only at hmono hcost hreach hc₁
      have hbehind₁ := hc₁.2
      unfold readFields
      rw [if_pos hin, hread]
      cases flow with
      | done =>
          refine .pure ⟨fields, c₁, rfl, fun hfits => ?_⟩
          obtain ⟨hle, hwork⟩ := hcost (hfits hin).1
          omega
      | next =>
          change Returns (readFields r fuel c₁ (fields ++ field.toList)) _
          have hrest : FieldsFit r (fuel + 1) c → FieldsFit r fuel c₁ :=
            fun hfits => (hfits hin).2.elim hread rfl
          by_cases hlast : r.totalSize < c₁.offset + 12
          · rw [readFields_end hsmall hc₁ (by omega) (by omega)]
            refine .ok ⟨_, c₁, rfl, fun hfits => ?_⟩
            obtain ⟨hle, hwork⟩ := hcost (hfits hin).1
            omega
          · have hway : c.offset + (4 + x) ≤ c₁.offset := (hreach rfl).resolve_right hlast
            refine (ih (fields ++ field.toList) hc₁ (by omega) (by omega)).mono ?_
            rintro res ⟨fields', c', rfl, hrun⟩
            refine ⟨fields', c', rfl, fun hfits => ?_⟩
            have hafter := hrun (hrest hfits)
            obtain ⟨hle, hwork⟩ := hcost (hfits hin).1
            omega

end

/-! ## The whole buffer -/

/-- The reader comes to its end without a read outside of the buffer, and what it allocates and
the rounds it makes are `factor` for each byte at most. -/
def Bounded (factor : ℕ) (bytes : List UInt8) : Prop :=
  Returns (deserialize (.whole bytes)) fun res => ∃ fields c, res = some (fields, c) ∧
    c.allocated ≤ factor * bytes.length ∧ c.rounds ≤ factor * bytes.length

/-- **`GenericMessage::deserialize` on arbitrary bytes.**  It comes to its end on every buffer and
reads nothing outside of it, and it is bounded if every size and count fits. -/
theorem deserialize_bounded (bytes : List UInt8) (hsmall : bytes.length < 2 ^ 31) :
    Returns (deserialize (.whole bytes)) (fun res => res.isSome) ∧
      (CountsFit (.whole bytes) → Bounded 16384 bytes) := by
  have htotal : (Region.whole bytes).totalSize = bytes.length :=
    u32_of_lt (Nat.lt_trans hsmall (by decide))
  have hstart : Within (.whole bytes) .start := ⟨by decide, .inl (Nat.zero_le _)⟩
  by_cases hempty : (Region.whole bytes).size < tailMsgSize
  · have hnothing : deserialize (.whole bytes) = .ok (some ([], .start)) := if_pos hempty
    unfold Bounded
    rw [hnothing]
    exact ⟨.ok rfl, fun _ => .ok ⟨[], .start, rfl, Nat.zero_le _, Nat.zero_le _⟩⟩
  · have hlong : 12 ≤ bytes.length := Nat.not_lt.mp hempty
    have hfuel : (Region.whole bytes).totalSize
        < Scan.start.offset + ((Region.whole bytes).totalSize + 1) := by
      change _ < 0 + _
      omega
    have hloop : deserialize (.whole bytes) =
        readFields (.whole bytes) ((Region.whole bytes).totalSize + 1) .start [] := if_neg hempty
    obtain ⟨res, hres, fields, c, rfl, hwork⟩ := readFields_paid (honest_whole bytes)
      (by omega) ((Region.whole bytes).totalSize + 1) [] hstart hfuel (Nat.succ_pos _)
    unfold Bounded
    rw [hloop, hres]
    refine ⟨.ok rfl, fun hfits => .ok ⟨fields, c, rfl, ?_⟩⟩
    have hcost : c.allocated + c.rounds + 4200 * 0 ≤ 0 + 4200 * (bytes.length + 12)
        + 2930 * bytes.length + 4390 := htotal ▸ hwork hfits
    constructor <;> omega

/-- Two fields: a byte array of three elements and a string. -/
def sampleBytes : List UInt8 :=
  [1, 0, 0, 0, 97, 15, 3, 0, 0, 0, 7, 8, 9, 1, 0, 0, 0, 98, 12, 2, 0, 0, 0, 104, 105] ++
    List.replicate 12 0

/-- The sizes of the sample fit. -/
theorem deserialize_bounded_sample : sampleBytes.length < 2 ^ 31 ∧ CountsFit (.whole sampleBytes) ∧
    Bounded 16384 sampleBytes := by
  have hfits : CountsFit (.whole sampleBytes) := by decide +kernel
  exact ⟨by decide, hfits, (deserialize_bounded sampleBytes (by decide)).2 hfits⟩

/-- A field with the name `a`, an array of bytes, whose count is the largest there is. -/
def hugeCount : List UInt8 := [1, 0, 0, 0, 97, 15, 255, 255, 255, 127, 0, 0, 0]

/-- Thirteen bytes make the reader allocate 2 GiB: only the range of the counts themselves is a
bound. -/
theorem deserialize_unbounded : ¬ ∃ factor, factor * 13 < 2 ^ 31 ∧ Bounded factor hugeCount := by
  have hrun : Returns (deserialize (.whole hugeCount)) fun res =>
      res.any (fun res => 2 ^ 31 ≤ res.2.allocated) = true := by decide +kernel
  rintro ⟨factor, hfactor, hbounded⟩
  obtain ⟨res, hres, hany⟩ := hrun
  obtain ⟨_, hres', fields, c, rfl, halloc, -⟩ := hbounded
  cases hres.symm.trans hres'
  have hge : 2 ^ 31 ≤ c.allocated := of_decide_eq_true hany
  change c.allocated ≤ factor * 13 at halloc
  omega

end DzIpc.Wire.GenericMessage
