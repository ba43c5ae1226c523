import DzIpc.Flat.PyDecoder
import DzIpc.Flat.View

/-!
# The decoder against the view

* `Agrees` says that a decoded record holds what the accessors of the view return, field by field
  and element by element.
* `record_agrees`: a record in the segment is decoded, and to what agrees.
* `decode_agrees`: the decoder has a result exactly where the view can be bound.
-/

namespace DzIpc.Flat

open Wire Blocks

/-! ## What agrees -/

/-- A decoded value and the accessors of its field, at `at'`.  A string is decoded from the bytes
that the accessor returns; the elements of a bool array are truth values of these bytes, or the
bytes themselves in a view of an array without a fixed length. -/
def FieldAgrees (rd : Reader) (zeroCopy : Bool) (at' : ℕ) : Kind → PyValue → Prop
  | .scalar s, v => ∃ bytes, Kind.access rd at' (.scalar s) .value = .ok bytes ∧
      v = .num s (BitVec.ofNat _ (leNat bytes))
  | .bool, v => ∃ bytes, Kind.access rd at' .bool .value = .ok bytes ∧ v = .bool (leNat bytes ≠ 0)
  | .string, v => ∃ bytes, Kind.access rd at' .string .value = .ok bytes ∧
      v = .str (decodeUtf8 bytes)
  | .scalars s size, v => ∃ bytes, Kind.access rd at' (.scalars s size) .value = .ok bytes ∧
      v = .nums s (ofBytes s.size (bytes.length / s.size) bytes)
  | .bools size, v => ∃ bytes, Kind.access rd at' (.bools size) .value = .ok bytes ∧
      v = if size = none ∧ zeroCopy then .bytes bytes else .bools (bytes.map fun b => b ≠ 0)
  | .strings size, v => ∃ items, v = .strs items ∧
      Kind.access rd at' (.strings size) .value = .ok (le32 items.length) ∧
      ∀ i text, items[i]? = some text → ∃ bytes,
        Kind.access rd at' (.strings size) (.item i) = .ok bytes ∧ text = decodeUtf8 bytes

/-- A decoded record and the view of the record at `base`, with the members from `cur` on. -/
def Agrees (rd : Reader) (zeroCopy : Bool) :
    Schema → (base cur : ℕ) → List (List UInt8 × PyValue) → Prop
  | .nil, _, _, out => out = []
  | .field name k rest, base, cur, out => ∃ v out', out = (name, v) :: out' ∧
      FieldAgrees rd zeroCopy (base + alignTo cur (memberAlign k)) k v ∧
      Agrees rd zeroCopy rest base (alignTo cur (memberAlign k) + memberSize k) out'
  | .nested name msg rest, base, cur, out => ∃ inner out', out = (name, .dict inner) :: out' ∧
      Agrees rd zeroCopy msg (base + alignTo cur rootAlign) 0 inner ∧
      Agrees rd zeroCopy rest base (alignTo cur rootAlign + rootSize msg) out'
  | .nestedArray name _ msg rest, base, cur, out => ∃ elems out' r,
      out = (name, .dicts elems) :: out' ∧ rd.loadRef (base + alignTo cur varRefAlign) = .ok r ∧
      elems.length = (rd.asSpan r (rootSize msg)).2 ∧
      (∀ i elem, elems[i]? = some elem →
        ∃ e, rd.elemAt r (rootSize msg) i = some e ∧ Agrees rd zeroCopy msg e 0 elem) ∧
      Agrees rd zeroCopy rest base (alignTo cur varRefAlign + varRefSize) out'

section

variable {rd : Reader} {at' len : ℕ}

theorem inBounds_eq (off cnt stride : ℕ) :
    inBounds rd.size off cnt stride = rd.inBounds off cnt stride := by
  unfold inBounds Reader.inBounds
  by_cases hzero : off = 0
  · rw [if_pos (Or.inl hzero), if_pos hzero]
  · rw [if_neg hzero]
    by_cases hend : off ≥ rd.size
    · rw [if_pos (Or.inr hend), if_pos hend]
    · rw [if_neg (not_or.mpr ⟨hzero, hend⟩), if_neg hend]

/-- What the view may read can be unpacked. -/
theorem unpackFrom_eq (hsize : rd.size ≤ rd.seg.length) (h : rd.Holds at' len) :
    unpackFrom rd.seg at' len = .ok (slice at' len rd.seg) :=
  if_pos (Nat.le_trans h hsize)

theorem load_eq (h : rd.Holds at' len) : rd.load at' len = .ok (slice at' len rd.seg) := if_pos h

theorem readVarref_eq (hsize : rd.size ≤ rd.seg.length) (h : rd.Holds at' varRefSize) :
    ∃ r, rd.loadRef at' = .ok r ∧ readVarref rd.seg at' = .ok (r.off, r.cnt) := by
  rw [Reader.loadRef, readVarref, unpackFrom_eq hsize h, load_eq h]
  exact ⟨_, rfl, rfl⟩

/-- Elements of a range that are computed one after the other. -/
theorem range_mapM {β : Type} {f : ℕ → Except Fault β} {n : ℕ} {goal : ℕ → β → Prop}
    (hf : ∀ i < n, Returns (f i) (goal i)) :
    Returns ((List.range n).mapM f) fun results : List β => results.length = n ∧
      ∀ i b, results[i]? = some b → goal i b := by
  have hrange : ∀ i ∈ List.range n, Returns (f i) (goal i) := fun i hi =>
    hf i (List.mem_range.mp hi)
  refine (Returns.mapM hrange).mono fun results h => ⟨h.1.trans List.length_range, fun i b hb => ?_⟩
  obtain ⟨j, hj, hgoal⟩ := h.2 i b hb
  obtain ⟨hlt, hget⟩ := List.getElem?_eq_some_iff.mp hj
  rw [List.getElem_range] at hget
  rwa [hget]

theorem asString_agrees (rd : Reader) (r : VarRef) : ∃ bytes, rd.asString r = .ok bytes ∧
    (if r.cnt = 0 ∨ ¬inBounds rd.size r.off r.cnt 1 then [] else slice r.off r.cnt rd.seg) =
      bytes := by
  rw [Reader.asString, inBounds_eq]
  by_cases hcnt : r.cnt = 0
  · rw [if_pos hcnt, if_pos (Or.inl hcnt)]
    exact ⟨[], rfl, rfl⟩
  · rw [if_neg hcnt]
    by_cases hin : rd.inBounds r.off r.cnt 1 = true
    · have hholds := Reader.holds_of_inBounds hin
      rw [Nat.mul_one] at hholds
      rw [if_pos hin, if_neg (by simp [hcnt, hin]), load_eq hholds]
      exact ⟨_, rfl, rfl⟩
    · rw [if_neg hin, if_pos (Or.inr hin)]
      exact ⟨[], rfl, rfl⟩

/-- The elements of an array without a fixed length. -/
theorem loadSpan_agrees (rd : Reader) (r : VarRef) {size : ℕ} (hsize : size < 2 ^ 32) :
    if r.cnt = 0 ∨ ¬inBounds rd.size r.off r.cnt size then rd.loadSpan r size = .ok []
    else rd.Holds r.off (r.cnt * size) ∧
      rd.loadSpan r size = .ok (slice r.off (r.cnt * size) rd.seg) := by
  rw [Reader.loadSpan, Reader.asSpan, inBounds_eq]
  by_cases hcnt : r.cnt = 0
  · rw [if_pos (Or.inl hcnt), if_pos hcnt]
    rfl
  · rw [if_neg hcnt, u32_of_lt hsize]
    by_cases hin : rd.inBounds r.off r.cnt size = true
    · have hholds := Reader.holds_of_inBounds hin
      rw [if_neg (by simp [hcnt, hin]), if_pos hin]
      refine ⟨hholds, ?_⟩
      simp only
      rw [if_neg hcnt, load_eq hholds]
    · rw [if_pos (Or.inr hin), if_neg hin]
      rfl

theorem length_slice {pos n : ℕ} {bytes : List UInt8} (h : pos + n ≤ bytes.length) :
    (slice pos n bytes).length = n := by
  rw [slice, List.length_take, List.length_drop]
  omega

theorem Base.size_pos (base : Base) : 0 < base.size := by
  cases base with
  | bool => exact Nat.one_pos
  | num s => exact s.size_pos

theorem Base.size_lt (base : Base) : base.size < 2 ^ 32 := by
  cases base with
  | bool => decide
  | num s => cases s <;> decide

/-- An array in place. -/
theorem fixedScalarArray_agrees (hsize : rd.size ≤ rd.seg.length) (zeroCopy : Bool) (base : Base)
    {n : ℕ} (h : rd.Holds at' (base.size * n)) :
    ∃ bytes, rd.load at' (base.size * n) = .ok bytes ∧
      FieldKind.decode zeroCopy rd.seg rd.size at' (.fixedScalarArray base n) =
        .ok (base.list (bytes.length / base.size) bytes) := by
  refine ⟨_, load_eq h, ?_⟩
  rw [FieldKind.decode, unpackFrom_eq hsize h, length_slice (Nat.le_trans h hsize),
    Nat.mul_div_cancel_left _ base.size_pos]
  rfl

/-- An array behind a `VarRef`. -/
theorem varScalarArray_agrees (hsize : rd.size ≤ rd.seg.length) (zeroCopy : Bool) (base : Base)
    (h : rd.Holds at' varRefSize) :
    ∃ bytes, (rd.loadRef at' >>= fun r => rd.loadSpan r base.size) = .ok bytes ∧
      FieldKind.decode zeroCopy rd.seg rd.size at' (.varScalarArray base) =
        .ok (if zeroCopy then base.view (bytes.length / base.size) bytes
          else base.list (bytes.length / base.size) bytes) := by
  obtain ⟨r, href, hpy⟩ := readVarref_eq hsize h
  have hspan := loadSpan_agrees rd r base.size_lt
  rw [FieldKind.decode, href, hpy]
  simp only [bind, Except.bind]
  by_cases hnone : r.cnt = 0 ∨ ¬inBounds rd.size r.off r.cnt base.size
  · rw [if_pos hnone] at hspan ⊢
    rw [hspan]
    refine ⟨[], rfl, ?_⟩
    rw [List.length_nil, Nat.zero_div]
    rfl
  · rw [if_neg hnone] at hspan ⊢
    obtain ⟨hholds, hload⟩ := hspan
    have hlen : (slice r.off (r.cnt * base.size) rd.seg).length = r.cnt * base.size :=
      length_slice (Nat.le_trans hholds hsize)
    rw [hload]
    refine ⟨_, rfl, ?_⟩
    rw [hlen, Nat.mul_div_cancel _ base.size_pos]
    cases zeroCopy with
    | true => rfl
    | false =>
      rw [Nat.mul_comm base.size, unpackFrom_eq hsize hholds]
      rfl

theorem elemAt_of_inBounds {r : VarRef} {size i : ℕ} (hsize : size < 2 ^ 32) (hi : i < r.cnt)
    (hin : rd.inBounds r.off r.cnt size = true) :
    rd.elemAt r size i = some (r.off + i * size) := by
  rw [Reader.elemAt, if_neg (by omega), u32_of_lt hsize, if_pos hin]

/-- An entry of a string array. -/
theorem entry_agrees (hsize : rd.size ≤ rd.seg.length) {e : ℕ} (he : rd.Holds e varRefSize) :
    Returns (do
        let (soff, slen) ← readVarref rd.seg e
        if slen ≠ 0 ∧ inBounds rd.size soff slen 1 then return decodeUtf8 (slice soff slen rd.seg)
        else return []) fun text =>
      ∃ bytes, (rd.loadRef e >>= fun r => rd.asString r) = .ok bytes ∧ text = decodeUtf8 bytes := by
  obtain ⟨r, href, hpy⟩ := readVarref_eq hsize he
  obtain ⟨bytes, hbytes, heq⟩ := asString_agrees rd r
  refine ⟨decodeUtf8 bytes, ?_, bytes, by rw [href]; exact hbytes, rfl⟩
  rw [hpy, ← heq]
  change (if _ then _ else _) = _
  by_cases hgood : r.cnt ≠ 0 ∧ inBounds rd.size r.off r.cnt 1
  · rw [if_pos hgood, if_neg (by simp [hgood.1, hgood.2])]
    rfl
  · rw [if_neg hgood, if_pos (by rwa [not_and_or, not_not] at hgood)]
    rfl

theorem stringArray_agrees (hsize : rd.size ≤ rd.seg.length) (zeroCopy : Bool) (size : ArraySize)
    (h : rd.Holds at' varRefSize) :
    Returns (FieldKind.stringArray.decode zeroCopy rd.seg rd.size at')
      (FieldAgrees rd zeroCopy at' (.strings size)) := by
  obtain ⟨r, href, hpy⟩ := readVarref_eq hsize h
  have hvalue : Kind.access rd at' (.strings size) .value =
      .ok (le32 (rd.asSpan r varRefSize).2) := by
    change (rd.loadRef at' >>= fun r => _) = _
    rw [href]
    rfl
  have hitem : ∀ i e, rd.elemAt r varRefSize i = some e →
      Kind.access rd at' (.strings size) (.item i) = rd.loadRef e >>= fun r => rd.asString r := by
    intro i e he
    change (rd.loadRef at' >>= fun r => _) = _
    rw [href]
    dsimp only [bind, Except.bind]
    rw [he]
  rw [FieldKind.decode, hpy]
  simp only [bind, Except.bind]
  by_cases hgood : r.cnt ≠ 0 ∧ inBounds rd.size r.off r.cnt varRefSize
  · rw [if_pos hgood]
    have hin : rd.inBounds r.off r.cnt varRefSize = true := by
      rw [← inBounds_eq]
      exact hgood.2
    have hentries := range_mapM (n := r.cnt) fun i hi => entry_agrees hsize
      (Reader.elemAt_holds (by decide) (elemAt_of_inBounds (by decide) hi hin))
    obtain ⟨items, hitems, hlen, hall⟩ := hentries
    refine ⟨.strs items, ?_, items, rfl, ?_, fun i text htext => ?_⟩
    · exact congrArg (Except.map PyValue.strs) hitems
    · rw [hvalue, hlen, Reader.asSpan, if_neg hgood.1, u32_of_lt (by decide), if_pos hin]
    · obtain ⟨hi, -⟩ := List.getElem?_eq_some_iff.mp htext
      rw [hitem i _ (elemAt_of_inBounds (by decide) (hlen ▸ hi) hin)]
      exact hall i text htext
  · rw [if_neg hgood]
    refine ⟨.strs [], rfl, [], rfl, ?_, fun i text htext => by simp at htext⟩
    rw [hvalue, Reader.asSpan]
    rw [not_and_or, not_not, inBounds_eq] at hgood
    by_cases hzero : r.cnt = 0
    · rw [if_pos hzero]
      rfl
    · rw [if_neg hzero, u32_of_lt (by decide), if_neg (hgood.resolve_left hzero)]
      rfl

theorem field_agrees (hsize : rd.size ≤ rd.seg.length) (zeroCopy : Bool) (k : Kind)
    (h : rd.Holds at' (memberSize k)) :
    Returns ((fieldKind k).decode zeroCopy rd.seg rd.size at')
      (FieldAgrees rd zeroCopy at' k) := by
  cases k with
  | scalar s =>
    refine ⟨_, ?_, _, load_eq h, rfl⟩
    have hpy : unpackFrom rd.seg at' s.size = .ok _ := unpackFrom_eq hsize h
    rw [fieldKind, FieldKind.decode, Base.size, hpy]
    rfl
  | bool =>
    refine ⟨_, ?_, _, load_eq h, rfl⟩
    have hpy : unpackFrom rd.seg at' 1 = .ok _ := unpackFrom_eq hsize h
    rw [fieldKind, FieldKind.decode, Base.size, hpy]
    rfl
  | string =>
    obtain ⟨r, href, hpy⟩ := readVarref_eq hsize h
    obtain ⟨bytes, hbytes, heq⟩ := asString_agrees rd r
    refine ⟨.str (decodeUtf8 bytes), ?_, bytes, ?_, rfl⟩
    · rw [fieldKind, FieldKind.decode, hpy, ← heq]
      change (if _ then _ else _) = _
      split_ifs <;> rfl
    · change (rd.loadRef at' >>= fun r => rd.asString r) = _
      rw [href]
      exact hbytes
  | scalars s size =>
    cases size with
    | some n =>
      obtain ⟨bytes, hload, hpy⟩ := fixedScalarArray_agrees hsize zeroCopy (.num s) h
      exact ⟨_, hpy, bytes, hload, rfl⟩
    | none =>
      obtain ⟨bytes, hload, hpy⟩ := varScalarArray_agrees hsize zeroCopy (.num s) h
      refine ⟨_, hpy, bytes, hload, ?_⟩
      cases zeroCopy <;> rfl
  | bools size =>
    cases size with
    | some n =>
      have hheld : rd.Holds at' (Base.bool.size * n) := by
        rw [Base.size, Nat.one_mul]
        exact h
      obtain ⟨bytes, hload, hpy⟩ := fixedScalarArray_agrees hsize zeroCopy .bool hheld
      rw [Base.size, Nat.one_mul] at hload
      exact ⟨_, hpy, bytes, hload, (if_neg (by simp)).symm⟩
    | none =>
      obtain ⟨bytes, hload, hpy⟩ := varScalarArray_agrees hsize zeroCopy .bool h
      refine ⟨_, hpy, bytes, hload, ?_⟩
      cases zeroCopy <;> rfl
  | strings size => exact stringArray_agrees hsize zeroCopy size h

/-! ## Records -/

/-- The elements of an array of records, if a record in the segment is decoded to what agrees. -/
theorem elems_agree {β : Type} {size : ℕ} (hnarrow : size < 2 ^ 32) {f : ℕ → Except Fault β}
    {goal : ℕ → β → Prop} (hf : ∀ e, rd.Holds e size → Returns (f e) (goal e)) (r : VarRef) :
    Returns (if r.cnt ≠ 0 ∧ inBounds rd.size r.off r.cnt size then
        (List.range r.cnt).mapM fun i => f (r.off + i * size)
      else pure []) fun elems => elems.length = (rd.asSpan r size).2 ∧
        ∀ (i : ℕ) elem, elems[i]? = some elem →
          ∃ e, rd.elemAt r size i = some e ∧ goal e elem := by
  rw [Reader.asSpan, u32_of_lt hnarrow, inBounds_eq]
  by_cases hgood : r.cnt ≠ 0 ∧ rd.inBounds r.off r.cnt size
  · rw [if_pos hgood, if_neg hgood.1, if_pos hgood.2]
    have helem : ∀ i < r.cnt, rd.elemAt r size i = some (r.off + i * size) := fun i hi =>
      elemAt_of_inBounds hnarrow hi hgood.2
    have hmap := range_mapM (n := r.cnt) fun i hi =>
      hf (r.off + i * size) (Reader.elemAt_holds hnarrow (helem i hi))
    refine hmap.mono fun elems h => ⟨h.1, fun i elem hi => ?_⟩
    obtain ⟨hlt, -⟩ := List.getElem?_eq_some_iff.mp hi
    exact ⟨_, helem i (h.1 ▸ hlt), h.2 i elem hi⟩
  · rw [if_neg hgood]
    refine .pure ⟨?_, fun i elem hi => by simp at hi⟩
    rw [not_and_or, not_not] at hgood
    by_cases hzero : r.cnt = 0
    · rw [if_pos hzero]
      rfl
    · rw [if_neg hzero, if_neg (hgood.resolve_left hzero)]
      rfl

/-- **Records.**  The decoder reads a record in the segment as the view does.  The induction is on
the message. -/
theorem record_agrees (hsize : rd.size ≤ rd.seg.length) (zeroCopy : Bool) (S : Schema) :
    ∀ {base cur : ℕ}, NarrowElems S → rd.Holds base (layoutEnd S cur) →
      Returns (decodeRecord zeroCopy rd.seg rd.size
        (schemaFields S (layoutLoop S cur rootAlign).1) base) (Agrees rd zeroCopy S base cur) := by
  induction S with
  | nil => exact fun _ _ => .pure rfl
  | field name k rest ih =>
    intro base cur hnarrow h
    obtain ⟨v, hv, hagrees⟩ := field_agrees hsize zeroCopy k (h.part (le_layoutEnd rest _))
    obtain ⟨out, hout, hrest⟩ := ih hnarrow h
    refine ⟨(name, v) :: out, ?_, v, out, rfl, hagrees, hrest⟩
    rw [layoutLoop, Nat.max_eq_left (memberAlign_le k), schemaFields, decodeRecord, hv, hout]
    rfl
  | nested name msg rest ihmsg ih =>
    intro base cur hnarrow h
    have hroot : rd.Holds (base + alignTo cur rootAlign) (rootSize msg) :=
      h.part (le_layoutEnd rest _)
    obtain ⟨inner, hinner, hmsg⟩ := ihmsg hnarrow.1 (hroot.mono (layoutEnd_le_rootSize msg))
    obtain ⟨out, hout, hrest⟩ := ih hnarrow.2 h
    have hmsgSize : (LayoutInfo.of msg (layoutLoop msg 0 rootAlign)).size = rootSize msg :=
      computeLayout_size msg
    refine ⟨(name, .dict inner) :: out, ?_, inner, out, rfl, hmsg, hrest⟩
    rw [layoutLoop, hmsgSize, Nat.max_self, schemaFields, decodeRecord]
    have hfields : (computeLayout msg).fields = (layoutLoop msg 0 rootAlign).1 := rfl
    rw [hfields, hinner]
    exact congrArg (Except.map fun out => (name, PyValue.dict inner) :: out) hout
  | nestedArray name size msg rest ihmsg ih =>
    intro base cur hnarrow h
    have hheld : rd.Holds (base + alignTo cur varRefAlign) varRefSize :=
      h.part (le_layoutEnd rest _)
    obtain ⟨r, href, hpy⟩ := readVarref_eq hsize hheld
    obtain ⟨out, hout, hrest⟩ := ih hnarrow.2.2 h
    have hrecord : ∀ e, rd.Holds e (rootSize msg) → Returns (decodeRecord zeroCopy rd.seg rd.size
        (schemaFields msg (layoutLoop msg 0 rootAlign).1) e) (Agrees rd zeroCopy msg e 0) :=
      fun e he => ihmsg hnarrow.2.1 (he.mono (layoutEnd_le_rootSize msg))
    obtain ⟨elems, helems, hlen, hall⟩ := elems_agree hnarrow.1 hrecord r
    refine ⟨(name, .dicts elems) :: out, ?_, elems, out, r, rfl, href, hlen, hall, hrest⟩
    rw [layoutLoop, Nat.max_eq_left (by decide), schemaFields, decodeRecord, hpy,
      computeLayout_size]
    have hfields : (computeLayout msg).fields = (layoutLoop msg 0 rootAlign).1 := rfl
    rw [hfields]
    simp only [bind, Except.bind]
    split_ifs at helems ⊢
    · rw [helems, hout]
      rfl
    · obtain rfl := Except.ok.inj helems
      rw [hout]
      rfl

end

/-! ## Segments -/

/-- The header that the decoder accepts for a schema is the one with which the view is bound. -/
theorem parseHeader_iff {S : Schema} (hnarrow : rootSize S < 2 ^ 32) {seg : List UInt8}
    {rd : Reader} : View.bind S seg = some rd ↔ ∃ h, parseHeader seg = some h ∧
      cachedHash S = h.schemaHash.toNat ∧ h.rootSize.toNat = rootSize S ∧
      rd = { seg, size := h.totalSize.toNat } := by
  rw [View.bind, bindSegment, looksLikeDzflat, parseHeader, cachedHash_eq, u32_of_lt hnarrow]
  by_cases hlen : seg.length < segHeaderSize
  · simp [hlen]
  · generalize SegHeader.ofBytes seg = h
    rw [if_neg hlen, if_neg hlen]
    constructor
    · intro hbind
      simp only at hbind
      split_ifs at hbind with hlooks hhash hroot htotal
      simp only [Bool.and_eq_true, decide_eq_true_eq] at hlooks
      obtain ⟨⟨⟨hmagic, hver⟩, hlen⟩, hoff⟩ := hlooks
      rw [not_not] at hhash hroot
      refine ⟨h, ?_, by rw [hhash], hroot, (Option.some.inj hbind).symm⟩
      simp only
      rw [if_neg (by simp [hmagic, hver]), if_neg (by rw [hoff]; omega), if_neg (by omega)]
    · rintro ⟨h', hparse, hhash, hroot, rfl⟩
      simp only at hparse
      split_ifs at hparse with hmagic hoff htotal
      obtain rfl := Option.some.inj hparse
      rw [not_or, not_not, not_not] at hmagic
      rw [not_or, not_not] at hoff
      simp only
      have hsame : h.schemaHash = schemaHash S := (UInt32.toNat_inj.mp hhash).symm
      rw [if_pos (by simp [hmagic, hoff.1]; omega), if_neg (not_not.mpr hsame),
        if_neg (not_not.mpr hroot), if_neg (by omega)]

/-- Where the view cannot be bound the decoder has no result, and raises nothing. -/
theorem decode_none {S : Schema} (hnarrow : rootSize S < 2 ^ 32) {seg : List UInt8}
    (h : View.bind S seg = none) (registry : ℕ → Option PySchema) (rx : RxStats) (zeroCopy : Bool) :
    ∃ rx', decode registry rx seg (some (pythonSchemaEntry S)) zeroCopy = .ok (none, rx') := by
  rw [decode]
  cases hparse : parseHeader seg with
  | none =>
    simp only
    split_ifs <;> exact ⟨_, rfl⟩
  | some hdr =>
    simp only
    split_ifs with hhash
    · exact ⟨_, rfl⟩
    · rw [decode.finish]
      split_ifs with hroot
      · exact ⟨_, rfl⟩
      · rw [not_not] at hhash hroot
        have hsize : (pythonSchemaEntry S).rootSize = rootSize S := computeLayout_size S
        have hbind := (parseHeader_iff hnarrow).mpr
          ⟨hdr, hparse, hhash, hroot.trans hsize, rfl⟩
        rw [h] at hbind
        nomatch hbind

/-- Where the view can be bound the decoder has a result, which agrees with the view. -/
theorem decode_some {S : Schema} (hnarrow : Narrow S) {seg : List UInt8} {rd : Reader}
    (h : View.bind S seg = some rd) (registry : ℕ → Option PySchema) (rx : RxStats)
    (zeroCopy : Bool) :
    ∃ out rx', decode registry rx seg (some (pythonSchemaEntry S)) zeroCopy = .ok (some out, rx') ∧
      Agrees rd zeroCopy S segHeaderSize 0 out := by
  obtain ⟨hdr, hparse, hhash, hroot, rfl⟩ := (parseHeader_iff hnarrow.1).mp h
  obtain ⟨-, hsize, hbound⟩ := View.bind_spec h
  rw [u32_of_lt hnarrow.1] at hbound
  have hholds : Reader.Holds { seg, size := hdr.totalSize.toNat } segHeaderSize (layoutEnd S 0) := by
    have hend := layoutEnd_le_rootSize S
    unfold Reader.Holds
    omega
  obtain ⟨out, hout, hagrees⟩ := record_agrees hsize zeroCopy S hnarrow.2 hholds
  refine ⟨out, { rx with accepted := rx.accepted + 1 }, ?_, hagrees⟩
  have hout' : decodeRecord zeroCopy seg hdr.totalSize.toNat (pythonSchemaEntry S).fields
      segHeaderSize = .ok out := hout
  have hentry : (pythonSchemaEntry S).rootSize = rootSize S := computeLayout_size S
  have hmatch : ¬(pythonSchemaEntry S).schemaHash ≠ hdr.schemaHash.toNat := not_not.mpr hhash
  rw [decode, hparse]
  simp only
  rw [if_neg hmatch, decode.finish, if_neg (by rw [hroot, hentry]; simp), hout']
  rfl

/-- **The decoder and the view.**  They agree on the layout and the hash of a message, on what is a
segment, and on every field of it. -/
theorem decode_agrees {S : Schema} (hnarrow : Narrow S) :
    (Abi.Extent.mk (computeLayout S).size (computeLayout S).align = rootExtent S ∧
      (computeLayout S).fields.map FieldLayout.offset = Abi.offsets (rootMembers S) 0 ∧
      (computeLayout S).fields.map (fun f => Abi.Extent.mk f.size f.align) = rootMembers S) ∧
    (pythonSchemaEntry S).schemaHash = (schemaHash S).toNat ∧
    ∀ registry rx seg zeroCopy,
      match View.bind S seg with
      | none => ∃ rx',
          decode registry rx seg (some (pythonSchemaEntry S)) zeroCopy = .ok (none, rx')
      | some rd => ∃ out rx',
          decode registry rx seg (some (pythonSchemaEntry S)) zeroCopy = .ok (some out, rx') ∧
            Agrees rd zeroCopy S segHeaderSize 0 out := by
  refine ⟨computeLayout_eq S, cachedHash_eq S, fun registry rx seg zeroCopy => ?_⟩
  cases hbind : View.bind S seg with
  | none => exact decode_none hnarrow.1 hbind registry rx zeroCopy
  | some rd => exact decode_some hnarrow hbind registry rx zeroCopy

/-- The sample segment is decoded, to what agrees with its view. -/
theorem decode_agrees_sample : ∃ rd out rx', View.bind sampleSchema sampleSegment = some rd ∧
    decode (fun _ => none) ⟨0, 0, 0, 0, 0⟩ sampleSegment (some (pythonSchemaEntry sampleSchema))
      true = .ok (some out, rx') ∧ Agrees rd true sampleSchema segHeaderSize 0 out := by
  have hbind : View.bind sampleSchema sampleSegment = some { seg := sampleSegment, size := 56 } := by
    decide +kernel
  have hnarrow : Narrow sampleSchema := ⟨by decide, by decide, trivial, trivial⟩
  have hdecode := (decode_agrees hnarrow).2.2 (fun _ => none) ⟨0, 0, 0, 0, 0⟩ sampleSegment true
  rw [hbind] at hdecode
  obtain ⟨out, rx', hout, hagrees⟩ := hdecode
  exact ⟨_, out, rx', hbind, hout, hagrees⟩

/-! ## Where the values differ -/

/-- What a decoded leaf would be as the bytes of an accessor. -/
def PyValue.accessorBytes : PyValue → List UInt8
  | .bool b => [if b then 1 else 0]
  | .num s v => leBytes s.size v.toNat
  | .str text => encodeUtf8 text
  | .bools items => items.map fun b => if b then 1 else 0
  | .nums s items => items.flatMap fun v => leBytes s.size v.toNat
  | .bytes items => items
  | _ => []

/-- A bool array and a string. -/
def looseSchema : Schema := .field [97] (.bools (some 1)) (.field [98] .string .nil)

/-- A segment of that schema whose bool is 2 and whose string is not UTF-8. -/
def looseSegment : List UInt8 :=
  le32 magic.toNat ++ le32 (schemaHash looseSchema).toNat ++ le32 32 ++ le32 16 ++ le32 49 ++
    [1, 0, 0, 0] ++ le32 0 ++ le32 0 ++ [2, 0, 0, 0] ++ le32 48 ++ le32 1 ++ [0, 0, 0, 0] ++ [0xFF]

def looseReader : Reader := { seg := looseSegment, size := 49 }

/-- The decoder makes `True` and U+FFFD of them. -/
theorem loose_decoded : Narrow looseSchema ∧
    View.bind looseSchema looseSegment = some looseReader ∧
    ∃ flag text rx', decode (fun _ => none) ⟨0, 0, 0, 0, 0⟩ looseSegment
        (some (pythonSchemaEntry looseSchema)) true = .ok (some [([97], flag), ([98], text)], rx') ∧
      Kind.access looseReader 32 (.bools (some 1)) .value ≠ .ok flag.accessorBytes ∧
      Kind.access looseReader 36 .string .value ≠ .ok text.accessorBytes := by
  have hnarrow : Narrow looseSchema := ⟨by decide, trivial⟩
  have hbind : View.bind looseSchema looseSegment = some looseReader := by decide +kernel
  have hflag : Kind.access looseReader 32 (.bools (some 1)) .value = .ok [2] := by decide +kernel
  have htext : Kind.access looseReader 36 .string .value = .ok [0xFF] := by decide +kernel
  obtain ⟨out, rx', hout, flag, out', rfl, ⟨bytes, hbytes, hv⟩, text, out'', rfl,
    ⟨bytes', hbytes', hv'⟩, rfl⟩ := decode_some hnarrow hbind (fun _ => none) ⟨0, 0, 0, 0, 0⟩ true
  obtain rfl := Except.ok.inj (hflag.symm.trans hbytes)
  obtain rfl := Except.ok.inj (htext.symm.trans hbytes')
  refine ⟨hnarrow, hbind, flag, text, rx', hout, ?_, ?_⟩
  · rw [hflag, hv]
    decide
  · rw [htext, hv']
    decide

end DzIpc.Flat
