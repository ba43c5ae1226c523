import DzIpc.Flat.Laid
import DzIpc.Flat.View
import Mathlib.Algebra.Order.BigOperators.Group.List
import Mathlib.Algebra.Order.Ring.Nat

/-!
# The round trip of flat segments

What `write` makes of a message takes no more than its declared size, and a view of it copies the
message back.

* `flatSize_eq` says that the declared size is exact where it fits in 32 bits.
* `copyTo_laid` copies back what is laid; the induction is on the schema.
* `write_spec` is `write`, with the segment it leaves.
* `roundTrips` is the round trip.
-/

namespace DzIpc.Flat

open Wire Blocks

/-! ## The declared size -/

/-- `XxxFlat::size` without wrap-around. -/
def exactSize (S : Schema) (v : S.Value) : ℕ := alignTo (segHeaderSize + rootSize S) 8 + varlen S v

theorem map_eq_of_sum_lt {α : Type} {f g : α → ℕ} {items : List α} {bound : ℕ}
    (hsum : (items.map g).sum < bound) (hfg : ∀ item ∈ items, g item < bound → f item = g item) :
    items.map f = items.map g := by
  apply List.map_congr_left
  intro item hitem
  have hle : g item ≤ (items.map g).sum := List.le_sum_of_mem (List.mem_map_of_mem hitem)
  exact hfg item hitem (by omega)

theorem alignUp_u32 {n : ℕ} (h : alignTo n 8 < 2 ^ 32) : alignUp (u32 n) = alignTo n 8 := by
  have hle := alignTo_bounds n
  rw [u32_of_lt (by omega), alignUp_of_lt h]

theorem Kind.varlenSize_eq (k : Kind) (v : k.Value) (h : Kind.varlen k v < 2 ^ 32) :
    Kind.varlenSize k v = Kind.varlen k v := by
  cases k with
  | scalar s => rfl
  | bool => rfl
  | string => exact alignUp_u32 h
  | scalars s size =>
      cases size with
      | some n => rfl
      | none => exact alignUp_u32 h
  | bools size =>
      cases size with
      | some n => rfl
      | none => exact alignUp_u32 h
  | strings size =>
      change u32 (alignUp (u32 (v.1.length * varRefSize)) + _) = _
      change alignTo (v.1.length * varRefSize) 8 + (v.1.map fun s => alignTo s.length 8).sum <
        2 ^ 32 at h
      have hmap : (v.1.map fun s => alignUp (u32 s.length)) =
          v.1.map fun s => alignTo s.length 8 :=
        map_eq_of_sum_lt (by omega) fun s _ hs => alignUp_u32 hs
      rw [hmap, alignUp_u32 (by omega), u32_of_lt h]
      rfl

theorem varlenSize_eq (S : Schema) : ∀ v : S.Value, varlen S v < 2 ^ 32 →
    varlenSize S v = varlen S v := by
  induction S with
  | nil => exact fun _ _ => rfl
  | field name k rest ih =>
      intro v h
      change u32 (Kind.varlenSize k v.1 + varlenSize rest v.2) = _
      change Kind.varlen k v.1 + varlen rest v.2 < 2 ^ 32 at h
      rw [Kind.varlenSize_eq k v.1 (by omega), ih v.2 (by omega), u32_of_lt h]
      rfl
  | nested name msg rest ihmsg ih =>
      intro v h
      change u32 (varlenSize msg v.1 + varlenSize rest v.2) = _
      change varlen msg v.1 + varlen rest v.2 < 2 ^ 32 at h
      rw [ihmsg v.1 (by omega), ih v.2 (by omega), u32_of_lt h]
      rfl
  | nestedArray name size msg rest ihmsg ih =>
      intro v h
      change u32 (alignUp (u32 (v.1.1.length * rootSize msg)) + (v.1.1.map (varlenSize msg)).sum +
        varlenSize rest v.2) = _
      change alignTo (v.1.1.length * rootSize msg) 8 + (v.1.1.map (varlen msg)).sum +
        varlen rest v.2 < 2 ^ 32 at h
      have hmap : v.1.1.map (varlenSize msg) = v.1.1.map (varlen msg) :=
        map_eq_of_sum_lt (by omega) fun item _ hitem => ihmsg item hitem
      rw [hmap, alignUp_u32 (by omega), ih v.2 (by omega), u32_of_lt h]
      rfl

theorem varlenStart_eq {S : Schema} (h : alignTo (segHeaderSize + rootSize S) 8 < 2 ^ 32) :
    varlenStart S = alignTo (segHeaderSize + rootSize S) 8 :=
  alignUp_u32 h

/-- **The declared size** is exact where it fits in 32 bits. -/
theorem flatSize_eq {S : Schema} {v : S.Value} (h : exactSize S v < 2 ^ 32) :
    flatSize S v = exactSize S v := by
  unfold exactSize at h
  rw [flatSize, varlenStart_eq (by omega), varlenSize_eq S v (by omega)]
  exact u32_of_lt h

/-! ## Reading what is laid -/

/-- The range that the variable parts lie in is part of the segment. -/
structure Reader.Covers (rd : Reader) (lo hi : ℕ) : Prop where
  lo_pos : 0 < lo
  hi_le : hi ≤ rd.size
  size_lt : rd.size < 2 ^ 32

section

variable {rd : Reader} {lo hi at' : ℕ}

theorem Reader.load_eq {len : ℕ} (h : at' + len ≤ rd.size) :
    rd.load at' len = .ok (slice at' len rd.seg) :=
  if_pos h

theorem Reader.loadRef_eq {off cnt : ℕ} (hend : at' + varRefSize ≤ rd.size)
    (href : slice at' varRefSize rd.seg = le32 off ++ le32 cnt) (hoff : off < 2 ^ 32)
    (hcnt : cnt < 2 ^ 32) : rd.loadRef at' = .ok { off, cnt } := by
  have hoff' : leNat (le32 off) = off := by
    rw [le32, leNat_leBytes]
    exact Nat.mod_eq_of_lt hoff
  have hcnt' : leNat (le32 cnt) = cnt := by
    rw [le32, leNat_leBytes]
    exact Nat.mod_eq_of_lt hcnt
  unfold Reader.loadRef
  rw [Reader.load_eq hend, href]
  change Except.ok (VarRef.mk (leNat (le32 off)) (leNat (le32 cnt))) = _
  rw [hoff', hcnt']

theorem Reader.inBounds_eq {off cnt stride : ℕ} (hoff : 0 < off) (hcnt : 0 < cnt * stride)
    (hend : off + cnt * stride ≤ rd.size) : rd.inBounds off cnt stride = true := by
  have hstride : 0 < stride := Nat.pos_of_mul_pos_left hcnt
  have hle : cnt ≤ (rd.size - off) / stride := (Nat.le_div_iff_mul_le hstride).mpr (by omega)
  unfold Reader.inBounds
  rw [if_neg (by omega), if_neg (by omega), if_neg (by omega)]

/-- A string is read like an array of bytes. -/
theorem Reader.asString_eq (r : VarRef) : rd.asString r = rd.loadSpan r 1 := by
  unfold Reader.asString Reader.loadSpan Reader.asSpan
  by_cases hcnt : r.cnt = 0
  · simp [hcnt]
  by_cases hin : rd.inBounds r.off r.cnt 1 = true
  · simp [hcnt, hin, u32]
  · simp [hcnt, hin, u32]

/-- The elements of an array of numbers. -/
theorem RefLaid.loadSpan_eq {cnt size : ℕ} {bytes : List UInt8}
    (h : RefLaid rd.seg lo hi at' cnt bytes) (hrd : rd.Covers lo hi)
    (hend : at' + varRefSize ≤ rd.size) (hsize : 0 < size) (hlen : bytes.length = cnt * size) :
    ∃ r, rd.loadRef at' = .ok r ∧ rd.loadSpan r size = .ok bytes := by
  obtain ⟨off, href, hoff, hbytes⟩ := h
  have hcount : cnt ≤ cnt * size := Nat.le_mul_of_pos_right _ hsize
  by_cases hnil : bytes = []
  · subst hnil
    obtain rfl : cnt = 0 := by
      rw [List.length_nil] at hlen
      omega
    have hzero : (0 : ℕ) < 2 ^ 32 := by decide
    exact ⟨_, Reader.loadRef_eq hend href hoff hzero, rfl⟩
  · obtain ⟨hge, hle, heq⟩ := hbytes hnil
    obtain ⟨hlo, hhi, hlt⟩ := hrd
    have hpos : 0 < bytes.length := List.length_pos_iff.mpr hnil
    have hcnt : 0 < cnt := Nat.pos_of_mul_pos_right (hlen ▸ hpos)
    have hone : 1 * size ≤ cnt * size := Nat.mul_le_mul_right _ hcnt
    have hin : rd.inBounds off cnt size = true :=
      Reader.inBounds_eq (by omega) (by omega) (by omega)
    have hspan : rd.asSpan { off, cnt } size = (off, cnt) := by
      unfold Reader.asSpan
      rw [if_neg (Nat.ne_of_gt hcnt), u32_of_lt (by omega), if_pos hin]
    refine ⟨_, Reader.loadRef_eq hend href hoff (by omega), ?_⟩
    unfold Reader.loadSpan
    rw [hspan, if_neg (Nat.ne_of_gt hcnt)]
    dsimp only
    rw [Reader.load_eq (by omega), ← hlen, heq]

/-- A string. -/
theorem RefLaid.asString_eq {bytes : List UInt8} (h : RefLaid rd.seg lo hi at' bytes.length bytes)
    (hrd : rd.Covers lo hi) (hend : at' + varRefSize ≤ rd.size) :
    ∃ r, rd.loadRef at' = .ok r ∧ rd.asString r = .ok bytes := by
  simp only [Reader.asString_eq]
  exact h.loadSpan_eq hrd hend (by decide) (Nat.mul_one _).symm

/-- An array of records: the reader finds all of them, where they were laid. -/
theorem BlockLaid.spec {α : Type} {laid : ℕ → α → Prop} {size : ℕ} {items : List α}
    (h : BlockLaid rd.seg lo hi laid at' size items) (hrd : rd.Covers lo hi)
    (hend : at' + varRefSize ≤ rd.size) (hsize : 0 < size) :
    ∃ r, rd.loadRef at' = .ok r ∧ (rd.asSpan r size).2 = items.length ∧
      ∀ i item, items[i]? = some item →
        ∃ e, rd.elemAt r size i = some e ∧ e + size ≤ rd.size ∧ laid e item := by
  obtain ⟨block, href, hblock, hrange, hitems⟩ := h
  have hcount : items.length ≤ items.length * size := Nat.le_mul_of_pos_right _ hsize
  by_cases hnil : items = []
  · subst hnil
    have hzero : (0 : ℕ) < 2 ^ 32 := by decide
    exact ⟨_, Reader.loadRef_eq hend href hblock hzero, rfl, fun i item hi => by cases hi⟩
  · obtain ⟨hge, hle⟩ := hrange hnil
    obtain ⟨hlo, hhi, hlt⟩ := hrd
    have hpos : 0 < items.length := List.length_pos_iff.mpr hnil
    have hone : 1 * size ≤ items.length * size := Nat.mul_le_mul_right _ hpos
    have hin : rd.inBounds block items.length (u32 size) = true := by
      rw [u32_of_lt (by omega)]
      exact Reader.inBounds_eq (by omega) (by omega) (by omega)
    refine ⟨_, Reader.loadRef_eq hend href hblock (by omega), ?_, fun i item hi => ?_⟩
    · unfold Reader.asSpan
      rw [if_neg (Nat.ne_of_gt hpos), if_pos hin]
    · obtain ⟨hi', -⟩ := List.getElem?_eq_some_iff.mp hi
      have hmul : (i + 1) * size ≤ items.length * size := Nat.mul_le_mul_right _ hi'
      rw [Nat.succ_mul] at hmul
      refine ⟨block + i * size, ?_, by omega, hitems i item hi⟩
      unfold Reader.elemAt
      rw [if_neg (Nat.not_le.mpr hi'), if_pos hin]

/-- The loop over the elements, if each is read as it was written. -/
theorem copyElems_eq {α : Type} {copy : ℕ → α → Except Fault α} (items : List α) :
    ∀ {i : ℕ} {olds : List α}, olds.length = items.length →
      (∀ j item old, items[j]? = some item → copy (i + j) old = .ok item) →
        copyElems copy i olds = .ok items := by
  induction items with
  | nil =>
      intro i olds hlen _
      obtain rfl := List.length_eq_zero_iff.mp hlen
      rfl
  | cons item items ih =>
      intro i olds hlen hcopy
      obtain ⟨old, olds, rfl⟩ := List.exists_cons_of_length_eq_add_one hlen
      have hfirst : copy i old = .ok item := hcopy 0 item old rfl
      have hrest : copyElems copy (i + 1) olds = .ok items := by
        apply ih (by simpa using hlen)
        intro j item' old' hj
        have hstep := hcopy (j + 1) item' old' hj
        rwa [show i + (j + 1) = i + 1 + j by omega] at hstep
      rw [copyElems, hfirst]
      change (do let items ← copyElems copy (i + 1) olds; return item :: items) = _
      rw [hrest]
      rfl

theorem copyCount_eq {α : Type} {size : ArraySize} (v : Arr size α) :
    copyCount size v.1.length = v.1.length := by
  cases size with
  | none => rfl
  | some n => exact Nat.min_eq_left (v.2 n rfl).le

theorem length_overwritten {α : Type} {size : ArraySize} (old : Arr size α) (fresh : α) (n : ℕ) :
    (overwritten old fresh n).length = n := by
  unfold overwritten
  rw [List.length_take, List.length_append, List.length_replicate]
  omega

/-- A field that is not a nested message. -/
theorem Kind.copyTo_laid (k : Kind) (v old : k.Value) (h : Kind.Laid rd.seg lo hi at' k v)
    (hrd : rd.Covers lo hi) (hend : at' + memberSize k ≤ rd.size) :
    Kind.copyTo rd at' k old = .ok v := by
  -- what lies in the record itself
  have hload : ∀ {bytes : List UInt8}, slice at' (memberSize k) rd.seg = bytes →
      rd.load at' (memberSize k) = .ok bytes := fun hbytes =>
    (Reader.load_eq hend).trans (congrArg _ hbytes)
  cases k with
  | scalar s =>
      have hbytes : rd.load at' s.size = .ok (leBytes s.size v.toNat) := hload h
      simp only [Kind.copyTo, hbytes, bind, Except.bind]
      exact congrArg Except.ok (ofNat_leBytes v)
  | bool =>
      have hbytes : rd.load at' 1 = .ok [boolByte v] := hload h
      simp only [Kind.copyTo, hbytes, bind, Except.bind]
      cases v <;> rfl
  | string =>
      obtain ⟨r, hr, hstr⟩ := RefLaid.asString_eq h hrd hend
      simp only [Kind.copyTo, hr, bind, Except.bind]
      exact hstr
  | scalars s size =>
      have hback : ofBytes s.size v.1.length (v.1.flatMap fun item => leBytes s.size item.toNat) =
          v.1 := ofBytes_flatMap v.1
      cases size with
      | some n =>
          have hbytes : rd.load at' (s.size * n) =
              .ok (v.1.flatMap fun item => leBytes s.size item.toNat) := hload h
          rw [v.2 n rfl] at hback
          simp only [Kind.copyTo, hbytes, bind, Except.bind, hback, Arr.store_eq]
          rfl
      | none =>
          have hlen : (v.1.flatMap fun item => leBytes s.size item.toNat).length =
              v.1.length * s.size := length_flatMap_const _ _ (fun _ => length_leBytes _ _) v.1
          obtain ⟨r, hr, hspan⟩ := RefLaid.loadSpan_eq h hrd hend s.size_pos hlen
          have hcount : (v.1.flatMap fun item => leBytes s.size item.toNat).length / s.size =
              v.1.length := by rw [hlen, Nat.mul_div_cancel _ s.size_pos]
          simp only [Kind.copyTo, hr, hspan, bind, Except.bind, hcount, hback, Arr.store_eq]
          rfl
  | bools size =>
      have hback := map_boolByte v.1
      cases size with
      | some n =>
          have hbytes : rd.load at' n = .ok (v.1.map boolByte) := hload h
          simp only [Kind.copyTo, hbytes, bind, Except.bind, hback, Arr.store_eq]
          rfl
      | none =>
          have hlen : (v.1.map boolByte).length = v.1.length * 1 := by
            rw [List.length_map, Nat.mul_one]
          obtain ⟨r, hr, hspan⟩ := RefLaid.loadSpan_eq h hrd hend (by decide) hlen
          simp only [Kind.copyTo, hr, hspan, bind, Except.bind, hback, Arr.store_eq]
          rfl
  | strings size =>
      have hblock : BlockLaid rd.seg lo hi
          (fun at' str => RefLaid rd.seg lo hi at' str.length str) at' varRefSize v.1 := h
      obtain ⟨r, hr, hcount, helem⟩ := hblock.spec hrd hend (by decide)
      simp only [Kind.copyTo, hr, bind, Except.bind, hcount, copyCount_eq]
      rw [copyElems_eq v.1 (length_overwritten _ _ _) (fun j str old hj => ?_)]
      · exact congrArg Except.ok (Arr.store_eq old v)
      · obtain ⟨e, he, hroom, hstr⟩ := helem j str hj
        obtain ⟨r', hr', hstr'⟩ := hstr.asString_eq hrd hroom
        simp only [Nat.zero_add, he, hr', hstr']

/-- **Copying back.**  What is laid in a segment is what `copy_to` makes of it, whatever the
message held before.  The induction is on the schema. -/
theorem copyTo_laid (S : Schema) (hrd : rd.Covers lo hi) : ∀ {base cur : ℕ} {v : S.Value},
    Laid rd.seg lo hi S base cur v → base + layoutEnd S cur ≤ rd.size →
      ∀ old, copyTo rd S base cur old = .ok v := by
  induction S with
  | nil => exact fun _ _ _ => rfl
  | field name k rest ih =>
      intro base cur v h hend old
      change base + layoutEnd rest (alignTo cur (memberAlign k) + memberSize k) ≤ rd.size at hend
      have hrest := le_layoutEnd rest (alignTo cur (memberAlign k) + memberSize k)
      have hfirst := Kind.copyTo_laid k v.1 old.1 h.1 hrd (by omega)
      simp only [copyTo, hfirst, ih h.2 hend, bind, Except.bind]
      rfl
  | nested name msg rest ihmsg ih =>
      intro base cur v h hend old
      change base + layoutEnd rest (alignTo cur rootAlign + rootSize msg) ≤ rd.size at hend
      have hrest := le_layoutEnd rest (alignTo cur rootAlign + rootSize msg)
      have hroot := layoutEnd_le_rootSize msg
      have hend₁ : base + alignTo cur rootAlign + layoutEnd msg 0 ≤ rd.size := by omega
      simp only [copyTo, ihmsg h.1 hend₁, ih h.2 hend, bind, Except.bind]
      rfl
  | nestedArray name size msg rest ihmsg ih =>
      intro base cur v h hend old
      change base + layoutEnd rest (alignTo cur varRefAlign + varRefSize) ≤ rd.size at hend
      have hrest := le_layoutEnd rest (alignTo cur varRefAlign + varRefSize)
      have hroot := layoutEnd_le_rootSize msg
      have hend₁ : base + alignTo cur varRefAlign + varRefSize ≤ rd.size := by omega
      obtain ⟨r, hr, hcount, helem⟩ := h.1.spec hrd hend₁ (rootSize_pos msg)
      simp only [copyTo, hr, bind, Except.bind, hcount, copyCount_eq]
      rw [copyElems_eq v.1.1 (length_overwritten _ _ _) (fun j item old hj => ?_)]
      · simp only [ih h.2 hend, Arr.store_eq]
        rfl
      · obtain ⟨e, he, hroom, hlaid⟩ := helem j item hj
        simp only [Nat.zero_add, he]
        exact ihmsg hlaid (by omega) old

end

/-! ## The header -/

theorem slice_take {l : List UInt8} {pos len n : ℕ} (h : pos + len ≤ n) :
    slice pos len (l.take n) = slice pos len l := by
  unfold slice
  rw [List.drop_take, List.take_take, Nat.min_eq_left (by omega)]

theorem take_overwrite_zero (l src : List UInt8) : (overwrite l 0 src).take src.length = src := by
  rw [overwrite, List.take_zero, List.nil_append, List.take_left' rfl]

theorem ofNat_leNat_le32 (n : ℕ) : UInt32.ofNat (leNat (le32 n)) = UInt32.ofNat n := by
  rw [le32, leNat_leBytes]
  exact UInt32.ofNat_mod_size

theorem length_headerBytes (S : Schema) (total msgId : ℕ) :
    (headerBytes S total msgId).length = segHeaderSize :=
  rfl

/-- What a reader finds in a header that was written. -/
theorem ofBytes_headerBytes {S : Schema} {total msgId : ℕ} {seg : List UInt8}
    (h : seg.take segHeaderSize = headerBytes S total msgId) (htotal : total < 2 ^ 32) :
    (SegHeader.ofBytes seg).magic = magic ∧ (SegHeader.ofBytes seg).schemaHash = schemaHash S ∧
      (SegHeader.ofBytes seg).rootOff.toNat = segHeaderSize ∧
        (SegHeader.ofBytes seg).rootSize.toNat = u32 (rootSize S) ∧
          (SegHeader.ofBytes seg).totalSize.toNat = total ∧
            (SegHeader.ofBytes seg).layoutVer = layoutVer := by
  have hslice : ∀ pos len, pos + len ≤ segHeaderSize →
      slice pos len seg = slice pos len (headerBytes S total msgId) := by
    intro pos len hle
    rw [← h, slice_take hle]
  refine ⟨?_, ?_, ?_, ?_, ?_, ?_⟩
  · change UInt32.ofNat (leNat (slice 0 4 seg)) = _
    rw [hslice 0 4 (by decide)]
    change UInt32.ofNat (leNat (le32 magic.toNat)) = _
    rw [ofNat_leNat_le32, UInt32.ofNat_toNat]
  · change UInt32.ofNat (leNat (slice 4 4 seg)) = _
    rw [hslice 4 4 (by decide)]
    change UInt32.ofNat (leNat (le32 (schemaHash S).toNat)) = _
    rw [ofNat_leNat_le32, UInt32.ofNat_toNat]
  · change (UInt32.ofNat (leNat (slice 8 4 seg))).toNat = _
    rw [hslice 8 4 (by decide)]
    change (UInt32.ofNat (leNat (le32 segHeaderSize))).toNat = _
    rw [ofNat_leNat_le32]
    exact UInt32.toNat_ofNat_of_lt' (by decide)
  · change (UInt32.ofNat (leNat (slice 12 4 seg))).toNat = _
    rw [hslice 12 4 (by decide)]
    change (UInt32.ofNat (leNat (le32 (u32 (rootSize S))))).toNat = _
    rw [ofNat_leNat_le32]
    exact UInt32.toNat_ofNat_of_lt' (Nat.mod_lt _ (by decide))
  · change (UInt32.ofNat (leNat (slice 16 4 seg))).toNat = _
    rw [hslice 16 4 (by decide)]
    change (UInt32.ofNat (leNat (le32 total))).toNat = _
    rw [ofNat_leNat_le32]
    exact UInt32.toNat_ofNat_of_lt' htotal
  · change UInt16.ofNat (leNat (slice 20 2 seg)) = _
    rw [hslice 20 2 (by decide)]
    change UInt16.ofNat (leNat (leBytes 2 layoutVer.toNat)) = _
    rw [leNat_leBytes]
    decide

/-- A buffer that starts with such a header can be bound. -/
theorem View.bind_eq {S : Schema} {total msgId : ℕ} {seg : List UInt8}
    (h : seg.take segHeaderSize = headerBytes S total msgId) (htotal : total < 2 ^ 32)
    (hroot : segHeaderSize + rootSize S ≤ total) (hlen : total ≤ seg.length) :
    View.bind S seg = some { seg, size := total } := by
  obtain ⟨hmagic, hhash, hoff, hsize, htot, hver⟩ := ofBytes_headerBytes h htotal
  have hlooks : looksLikeDzflat seg = true := by
    unfold looksLikeDzflat
    rw [if_neg (by omega)]
    simp [hmagic, hver, htot, hoff, hlen]
  unfold View.bind bindSegment
  rw [if_pos hlooks]
  dsimp only
  rw [hhash, hsize, htot, if_neg (by simp), if_neg (by simp), u32_of_lt (by omega),
    if_neg (by omega)]

/-! ## The round trip -/

theorem agree_of_take {seg buf : List UInt8} {n : ℕ} (h : buf.take n = seg.take n) :
    Agree seg buf 0 n := by
  intro pos len _ hle
  rw [← slice_take hle, h, slice_take hle]

/-- `write` with the declared size and no less: the segment that it leaves. -/
theorem write_spec {S : Schema} {v : S.Value} {seg : List UInt8} {cap : ℕ} (msgId : ℕ)
    (hsize : exactSize S v < 2 ^ 32) (hcap : exactSize S v ≤ cap) (hcap_lt : cap < 2 ^ 32)
    (hcap_le : cap ≤ seg.length) :
    ∃ seg' lo total, write S v seg cap msgId = some (seg', total) ∧ total ≤ exactSize S v ∧
      segHeaderSize + rootSize S ≤ total ∧
        seg'.take segHeaderSize = headerBytes S total msgId ∧ 0 < lo ∧
          Laid seg' lo total S segHeaderSize 0 v := by
  unfold exactSize at hsize hcap
  have hstart : varlenStart S = alignTo (segHeaderSize + rootSize S) 8 :=
    varlenStart_eq (by omega)
  have hbounds := alignTo_bounds (segHeaderSize + rootSize S)
  have hroot := layoutEnd_le_rootSize S
  have hrootpos := rootSize_pos S
  have hzeros : (List.replicate (varlenStart S - segHeaderSize) (0 : UInt8)).length =
      varlenStart S - segHeaderSize := List.length_replicate
  have hpad : segHeaderSize + (List.replicate (varlenStart S - segHeaderSize) (0 : UInt8)).length ≤
      seg.length := by omega
  -- the writer that `emit` starts with
  have hready : Writer.Ready ⟨overwrite seg segHeaderSize
      (List.replicate (varlenStart S - segHeaderSize) 0), cap, varlenStart S, true⟩ := by
    refine ⟨rfl, ?_, ?_, ?_, hcap_lt⟩
    · change segHeaderSize ≤ varlenStart S
      omega
    · change varlenStart S ≤ cap
      omega
    · rw [length_overwrite hpad]
      exact hcap_le
  have haligned : alignTo (varlenStart S) 8 = varlenStart S := by
    rw [hstart]
    exact (alignTo_add (n := 0) (alignTo_mod _)).trans rfl
  obtain ⟨w, hw, hgrown, hlaid⟩ := emit_spec S (v := v) hready
    (by change segHeaderSize + layoutEnd S 0 ≤ varlenStart S; omega)
    (by change alignTo (varlenStart S) 8 + varlen S v ≤ cap; omega)
  have hused : alignTo w.cur 8 = alignTo (varlenStart S) 8 + varlen S v := hgrown.used_eq
  have hmono : varlenStart S ≤ w.cur := hgrown.mono
  have hcur := alignTo_bounds w.cur
  have hready' := hgrown.ready
  have hroom : 0 + (headerBytes S w.cur msgId).length ≤ w.seg.length := by
    have := hready'.start.trans (hready'.cur_le.trans hready'.cap_le)
    rwa [Nat.zero_add, length_headerBytes]
  have hkeep : ∀ {a b}, segHeaderSize ≤ a →
      Agree w.seg (overwrite w.seg 0 (headerBytes S w.cur msgId)) a b := by
    intro a b ha
    apply agree_overwrite hroom
    rw [length_headerBytes]
    omega
  refine ⟨overwrite w.seg 0 (headerBytes S w.cur msgId), varlenStart S, w.cur, ?_, ?_, by omega, ?_,
    by omega, ?_⟩
  · unfold write
    rw [if_neg (by omega)]
    simp only [hw, bind, Option.bind]
    rfl
  · unfold exactSize
    omega
  · rw [← length_headerBytes S w.cur msgId]
    exact take_overwrite_zero _ _
  · exact Laid.congr S (hkeep (by omega)) (Nat.le_refl _) (Nat.le_refl _) hlaid
      (hkeep (Nat.le_add_right _ _))

/-- `write` takes no more than the declared size, and any buffer with the segment is read back as
the message, whatever the message that is copied to held before. -/
def RoundTrips (S : Schema) (v : S.Value) (seg : List UInt8) (cap msgId : ℕ) : Prop :=
  ∃ seg' total, write S v seg cap msgId = some (seg', total) ∧
    (SegHeader.ofBytes seg').totalSize.toNat = total ∧ total ≤ flatSize S v ∧
      ∀ buf : List UInt8, total ≤ buf.length → buf.take total = seg'.take total →
        ∃ rd, View.bind S buf = some rd ∧ ∀ old, copyTo rd S segHeaderSize 0 old = .ok v

/-- **The round trip of flat segments.**  A message whose size fits in 32 bits is written to any
chunk of the declared size, and read back. -/
theorem write_roundTrips {S : Schema} {v : S.Value} {seg : List UInt8} {cap msgId : ℕ}
    (hsize : exactSize S v < 2 ^ 32) (hcap : flatSize S v ≤ cap) (hcap_lt : cap < 2 ^ 32)
    (hcap_le : cap ≤ seg.length) : RoundTrips S v seg cap msgId := by
  rw [flatSize_eq hsize] at hcap
  obtain ⟨seg', lo, total, hwrite, htotal, hroot, hheader, hlo, hlaid⟩ :=
    write_spec msgId hsize hcap hcap_lt hcap_le
  have htotal_lt : total < 2 ^ 32 := by omega
  refine ⟨seg', total, hwrite, (ofBytes_headerBytes hheader htotal_lt).2.2.2.2.1,
    (flatSize_eq hsize).symm ▸ htotal, fun buf hlen hbuf => ?_⟩
  have hagree := agree_of_take hbuf
  have hbufHeader : buf.take segHeaderSize = headerBytes S total msgId := by
    rw [← hheader]
    have hslice := hagree 0 segHeaderSize (Nat.le_refl _) (by omega)
    exact hslice
  refine ⟨_, View.bind_eq hbufHeader htotal_lt hroot hlen, fun old => ?_⟩
  have hend := layoutEnd_le_rootSize S
  have hbufLaid : Laid buf lo total S segHeaderSize 0 v :=
    Laid.congr S (hagree.mono (Nat.zero_le _) (Nat.le_refl _)) (Nat.le_refl _) (Nat.le_refl _)
      hlaid (hagree.mono (Nat.zero_le _) (by omega))
  exact copyTo_laid S ⟨hlo, Nat.le_refl _, htotal_lt⟩ hbufLaid (by dsimp only; omega) old

/-- Two numbers, and two messages, one with a name and one without. -/
def sampleValue : sampleSchema.Value :=
  (⟨[1, 2], fun n hn => by cases hn; rfl⟩,
    (⟨[([104, 105], ()), ([], ())], fun n hn => by cases hn⟩, ()))

/-- The sample needs 72 bytes, in a chunk with something else in it. -/
theorem write_roundTrips_sample :
    RoundTrips sampleSchema sampleValue (List.replicate 80 255) 72 7 :=
  write_roundTrips (by decide) (by decide) (by decide) (by decide)

end DzIpc.Flat
