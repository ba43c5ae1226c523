import DzIpc.Flat.Write
import DzIpc.Wire.RoundTrip

/-!
# What `emit` lays into a segment

`Laid` says that a value lies in a record and that its parts of variable length lie in a range of
the segment behind it.  It depends on these bytes alone (`Laid.congr`), so that what was laid stays
while the `Writer` goes on behind it.

* `Grown` says what a step of the `Writer` leaves as it was.
* `Writer.put_spec` and `Writer.reserve_spec` are the specs of the `Writer`.
* `emit_spec` is the result: with room for the declared size, `emit` succeeds, takes no more than
  that, and lays the value.
-/

namespace DzIpc.Flat

open Wire Blocks

/-! ## Sizes without wrap-around -/

/-- What the variable parts of a field take, each aligned. -/
def Kind.varlen : (k : Kind) → k.Value → ℕ
  | .scalar _, _ | .bool, _ | .scalars _ (some _), _ | .bools (some _), _ => 0
  | .string, v => alignTo v.length 8
  | .scalars s none, v => alignTo (v.1.length * s.size) 8
  | .bools none, v => alignTo v.1.length 8
  | .strings _, v =>
      alignTo (v.1.length * varRefSize) 8 + (v.1.map fun s => alignTo s.length 8).sum

/-- What the variable parts of a message take. -/
def varlen : (S : Schema) → S.Value → ℕ
  | .nil, _ => 0
  | .field _ k rest, v => Kind.varlen k v.1 + varlen rest v.2
  | .nested _ msg rest, v => varlen msg v.1 + varlen rest v.2
  | .nestedArray _ _ msg rest, v =>
      alignTo (v.1.length * rootSize msg) 8 + (v.1.1.map (varlen msg)).sum + varlen rest v.2

theorem alignUp_of_lt {n : ℕ} (h : alignTo n 8 < 2 ^ 32) : alignUp n = alignTo n 8 := by
  unfold alignTo at h
  unfold alignUp alignTo
  rw [u32_of_lt (by omega)]
  rfl

theorem alignTo_add {a n : ℕ} (ha : a % 8 = 0) : alignTo (a + n) 8 = a + alignTo n 8 := by
  unfold alignTo
  omega

theorem alignTo_mod (n : ℕ) : alignTo n 8 % 8 = 0 := by
  unfold alignTo
  omega

theorem alignTo_bounds (n : ℕ) : n ≤ alignTo n 8 ∧ alignTo n 8 ≤ n + 7 := by
  unfold alignTo
  omega

/-! ## Equal ranges -/

/-- The two segments have the same bytes from `a` to `b`. -/
def Agree (seg seg' : List UInt8) (a b : ℕ) : Prop :=
  ∀ pos len, a ≤ pos → pos + len ≤ b → slice pos len seg' = slice pos len seg

section

variable {seg seg' seg'' : List UInt8} {a b a' b' : ℕ}

theorem Agree.refl (seg : List UInt8) (a b : ℕ) : Agree seg seg a b := fun _ _ _ _ => rfl

theorem Agree.mono (h : Agree seg seg' a b) (ha : a ≤ a') (hb : b' ≤ b) : Agree seg seg' a' b' :=
  fun pos len hpos hlen => h pos len (ha.trans hpos) (hlen.trans hb)

theorem Agree.trans (h : Agree seg seg' a b) (h' : Agree seg' seg'' a b) : Agree seg seg'' a b :=
  fun pos len hpos hlen => (h' pos len hpos hlen).trans (h pos len hpos hlen)

theorem agree_overwrite {src : List UInt8} {pos : ℕ} (hroom : pos + src.length ≤ seg.length)
    (hapart : b ≤ pos ∨ pos + src.length ≤ a) : Agree seg (overwrite seg pos src) a b :=
  fun _ _ _ _ => slice_overwrite_of_disjoint hroom (by omega)

end

/-! ## What is laid -/

/-- A `VarRef` at `at'`, and the bytes it refers to between `lo` and `hi`. -/
def RefLaid (seg : List UInt8) (lo hi at' cnt : ℕ) (bytes : List UInt8) : Prop :=
  ∃ off, slice at' varRefSize seg = le32 off ++ le32 cnt ∧ off < 2 ^ 32 ∧
    (bytes ≠ [] → lo ≤ off ∧ off + bytes.length ≤ hi ∧ slice off bytes.length seg = bytes)

/-- A `VarRef` at `at'` to a block of `cnt` records of `size` bytes between `lo` and `hi`, with
what is known of the items in them. -/
def BlockLaid {α : Type} (seg : List UInt8) (lo hi : ℕ) (laid : ℕ → α → Prop) (at' size : ℕ)
    (items : List α) : Prop :=
  ∃ block, slice at' varRefSize seg = le32 block ++ le32 items.length ∧ block < 2 ^ 32 ∧
    (items ≠ [] → lo ≤ block ∧ block + items.length * size ≤ hi) ∧
      ∀ i item, items[i]? = some item → laid (block + i * size) item

/-- A field that is not a nested message lies at `at'`. -/
def Kind.Laid (seg : List UInt8) (lo hi at' : ℕ) : (k : Kind) → k.Value → Prop
  | .scalar s, v => slice at' s.size seg = leBytes s.size v.toNat
  | .bool, v => slice at' 1 seg = [boolByte v]
  | .scalars s (some n), v =>
      slice at' (s.size * n) seg = v.1.flatMap fun item => leBytes s.size item.toNat
  | .bools (some n), v => slice at' n seg = v.1.map boolByte
  | .string, v => RefLaid seg lo hi at' v.length v
  | .scalars s none, v =>
      RefLaid seg lo hi at' v.1.length (v.1.flatMap fun item => leBytes s.size item.toNat)
  | .bools none, v => RefLaid seg lo hi at' v.1.length (v.1.map boolByte)
  | .strings _, v =>
      BlockLaid seg lo hi (fun at' str => RefLaid seg lo hi at' str.length str) at' varRefSize v.1

/-- The value lies in the record at `base` with the members from `cur` on. -/
def Laid (seg : List UInt8) (lo hi : ℕ) : (S : Schema) → (base cur : ℕ) → S.Value → Prop
  | .nil, _, _, _ => True
  | .field _ k rest, base, cur, v =>
      Kind.Laid seg lo hi (base + alignTo cur (memberAlign k)) k v.1 ∧
        Laid seg lo hi rest base (alignTo cur (memberAlign k) + memberSize k) v.2
  | .nested _ msg rest, base, cur, v =>
      Laid seg lo hi msg (base + alignTo cur rootAlign) 0 v.1 ∧
        Laid seg lo hi rest base (alignTo cur rootAlign + rootSize msg) v.2
  | .nestedArray _ _ msg rest, base, cur, v =>
      BlockLaid seg lo hi (fun at' item => Laid seg lo hi msg at' 0 item)
          (base + alignTo cur varRefAlign) (rootSize msg) v.1.1 ∧
        Laid seg lo hi rest base (alignTo cur varRefAlign + varRefSize) v.2

section

variable {seg seg' : List UInt8} {lo hi lo' hi' : ℕ}

theorem RefLaid.congr {at' cnt : ℕ} {bytes : List UInt8} (h : RefLaid seg lo hi at' cnt bytes)
    (hrecord : Agree seg seg' at' (at' + varRefSize)) (hrange : Agree seg seg' lo hi)
    (hlo : lo' ≤ lo) (hhi : hi ≤ hi') : RefLaid seg' lo' hi' at' cnt bytes := by
  obtain ⟨off, href, hoff, hbytes⟩ := h
  refine ⟨off, (hrecord _ _ (Nat.le_refl _) (Nat.le_refl _)).trans href, hoff, fun hne => ?_⟩
  obtain ⟨hge, hle, heq⟩ := hbytes hne
  exact ⟨hlo.trans hge, hle.trans hhi, (hrange _ _ hge hle).trans heq⟩

theorem BlockLaid.congr {α : Type} {laid laid' : ℕ → α → Prop} {at' size : ℕ} {items : List α}
    (h : BlockLaid seg lo hi laid at' size items)
    (hrecord : Agree seg seg' at' (at' + varRefSize)) (hlo : lo' ≤ lo) (hhi : hi ≤ hi')
    (hlaid : ∀ at' item, lo ≤ at' → at' + size ≤ hi → laid at' item → laid' at' item) :
    BlockLaid seg' lo' hi' laid' at' size items := by
  obtain ⟨block, href, hblock, hrange, hitems⟩ := h
  refine ⟨block, (hrecord _ _ (Nat.le_refl _) (Nat.le_refl _)).trans href, hblock,
    fun hne => ⟨hlo.trans (hrange hne).1, (hrange hne).2.trans hhi⟩, ?_⟩
  intro i item hi'
  obtain ⟨hlt, -⟩ := List.getElem?_eq_some_iff.mp hi'
  obtain ⟨hge, hle⟩ := hrange (List.ne_nil_of_length_pos (by omega))
  have hmul : (i + 1) * size ≤ items.length * size := Nat.mul_le_mul_right _ hlt
  rw [Nat.succ_mul] at hmul
  exact hlaid _ item (by omega) (by omega) (hitems i item hi')

theorem Kind.Laid.congr {k : Kind} {at' : ℕ} {v : k.Value} (h : Kind.Laid seg lo hi at' k v)
    (hrecord : Agree seg seg' at' (at' + memberSize k)) (hrange : Agree seg seg' lo hi)
    (hlo : lo' ≤ lo) (hhi : hi ≤ hi') : Kind.Laid seg' lo' hi' at' k v := by
  have hsame : slice at' (memberSize k) seg' = slice at' (memberSize k) seg :=
    hrecord _ _ (Nat.le_refl _) (Nat.le_refl _)
  cases k with
  | scalar s => exact hsame.trans h
  | bool => exact hsame.trans h
  | string => exact RefLaid.congr h hrecord hrange hlo hhi
  | scalars s size =>
      cases size with
      | some n => exact hsame.trans h
      | none => exact RefLaid.congr h hrecord hrange hlo hhi
  | bools size =>
      cases size with
      | some n => exact hsame.trans h
      | none => exact RefLaid.congr h hrecord hrange hlo hhi
  | strings size =>
      have hblock : BlockLaid seg lo hi
          (fun at' str => RefLaid seg lo hi at' str.length str) at' varRefSize v.1 := h
      exact hblock.congr hrecord hlo hhi fun at' str hge hle hstr =>
        RefLaid.congr hstr (hrange.mono hge hle) hrange hlo hhi

/-- What is laid depends on the bytes of the record and of the range alone. -/
theorem Laid.congr (S : Schema) (hrange : Agree seg seg' lo hi) (hlo : lo' ≤ lo) (hhi : hi ≤ hi') :
    ∀ {base cur : ℕ} {v : S.Value}, Laid seg lo hi S base cur v →
      Agree seg seg' (base + cur) (base + layoutEnd S cur) → Laid seg' lo' hi' S base cur v := by
  induction S with
  | nil => exact fun _ _ => trivial
  | field name k rest ih =>
      intro base cur v h hrecord
      have hstart := le_alignTo cur (memberAlign_pos k)
      have hend : _ ≤ layoutEnd rest _ := le_layoutEnd rest (alignTo cur (memberAlign k) + memberSize k)
      refine ⟨h.1.congr (hrecord.mono (by omega) ?_) hrange hlo hhi,
        ih h.2 (hrecord.mono (by omega) (Nat.le_refl _))⟩
      change _ ≤ base + layoutEnd rest _
      omega
  | nested name msg rest ihmsg ih =>
      intro base cur v h hrecord
      have hstart := le_alignTo cur (a := rootAlign) (by decide)
      have hend : _ ≤ layoutEnd rest _ := le_layoutEnd rest (alignTo cur rootAlign + rootSize msg)
      have hroot := layoutEnd_le_rootSize msg
      refine ⟨ihmsg h.1 (hrecord.mono (by omega) ?_),
        ih h.2 (hrecord.mono (by omega) (Nat.le_refl _))⟩
      change _ ≤ base + layoutEnd rest _
      unfold rootSize at hend hroot
      omega
  | nestedArray name size msg rest ihmsg ih =>
      intro base cur v h hrecord
      have hstart := le_alignTo cur (a := varRefAlign) (by decide)
      have hend : _ ≤ layoutEnd rest _ := le_layoutEnd rest (alignTo cur varRefAlign + varRefSize)
      have hroot := layoutEnd_le_rootSize msg
      refine ⟨h.1.congr (hrecord.mono (by omega) ?_) hlo hhi ?_,
        ih h.2 (hrecord.mono (by omega) (Nat.le_refl _))⟩
      · change _ ≤ base + layoutEnd rest _
        omega
      · intro at' item hge hle hitem
        exact ihmsg hitem (hrange.mono (by omega) (by omega))

/-- What is laid in a range is laid in a wider one. -/
theorem Laid.widen {S : Schema} {base cur : ℕ} {v : S.Value} (h : Laid seg lo hi S base cur v)
    (hlo : lo' ≤ lo) : Laid seg lo' hi S base cur v :=
  Laid.congr S (Agree.refl _ _ _) hlo (Nat.le_refl _) h (Agree.refl _ _ _)

end

/-! ## The steps of the writer -/

/-- A writer that can go on. -/
structure Writer.Ready (w : Writer) : Prop where
  ok : w.ok = true
  start : segHeaderSize ≤ w.cur
  cur_le : w.cur ≤ w.cap
  cap_le : w.cap ≤ w.seg.length
  cap_lt : w.cap < 2 ^ 32

/-- A step that wrote to the record from `lo` to `hi` and appended `used` bytes, aligned. -/
structure Writer.Grown (w w' : Writer) (lo hi used : ℕ) : Prop where
  ready : w'.Ready
  cap_eq : w'.cap = w.cap
  mono : w.cur ≤ w'.cur
  used_eq : alignTo w'.cur 8 = alignTo w.cur 8 + used
  keep : ∀ a b, b ≤ w.cur → b ≤ lo ∨ hi ≤ a → Agree w.seg w'.seg a b

namespace Writer

variable {w w' w'' : Writer} {lo hi used lo' hi' used' : ℕ}

theorem Grown.mono_record (h : Grown w w' lo hi used)
    (hin : lo' ≤ lo ∧ hi ≤ hi' ∨ w.cur ≤ lo) : Grown w w' lo' hi' used where
  ready := h.ready
  cap_eq := h.cap_eq
  mono := h.mono
  used_eq := h.used_eq
  keep a b hb hapart := by
    by_cases hcur : w.cur ≤ lo
    · exact h.keep a b hb (Or.inl (hb.trans hcur))
    · exact h.keep a b hb (by omega)

/-- Two steps, one after the other; the second writes to the same record or to what the first
appended. -/
theorem Grown.trans (h : Grown w w' lo hi used) (h' : Grown w' w'' lo' hi' used')
    (hin : lo ≤ lo' ∧ hi' ≤ hi ∨ w.cur ≤ lo') : Grown w w'' lo hi (used + used') where
  ready := h'.ready
  cap_eq := h'.cap_eq.trans h.cap_eq
  mono := h.mono.trans h'.mono
  used_eq := by rw [h'.used_eq, h.used_eq, Nat.add_assoc]
  keep a b hb hapart := (h.keep a b hb hapart).trans (h'.keep a b (hb.trans h.mono) (by omega))

theorem Ready.grown (h : w.Ready) (lo hi : ℕ) : Grown w w lo hi 0 where
  ready := h
  cap_eq := rfl
  mono := Nat.le_refl _
  used_eq := rfl
  keep _ _ _ _ := Agree.refl _ _ _

section

variable {at' : ℕ} {bytes : List UInt8}

theorem Ready.room (h : w.Ready) (hend : at' + bytes.length ≤ w.cur) :
    at' + bytes.length ≤ w.seg.length :=
  hend.trans (h.cur_le.trans h.cap_le)

/-- Bytes that are stored below the end. -/
theorem store_spec (h : w.Ready) (hend : at' + bytes.length ≤ w.cur) :
    Grown w (w.store at' bytes) at' (at' + bytes.length) 0 ∧
      slice at' bytes.length (w.store at' bytes).seg = bytes := by
  have hroom := h.room hend
  refine ⟨⟨⟨h.ok, h.start, h.cur_le, ?_, h.cap_lt⟩, rfl, Nat.le_refl _, rfl, ?_⟩,
    slice_overwrite_self hroom (Or.inl rfl)⟩
  · change w.cap ≤ (overwrite w.seg at' bytes).length
    rw [length_overwrite hroom]
    exact h.cap_le
  · exact fun a b _ hapart => agree_overwrite hroom hapart

theorem length_ref (off cnt : ℕ) : (le32 off ++ le32 cnt).length = varRefSize := by
  rw [List.length_append, le32, le32, length_leBytes, length_leBytes]
  rfl

theorem storeRef_spec (h : w.Ready) (off cnt : ℕ) (hend : at' + varRefSize ≤ w.cur) :
    Grown w (w.storeRef at' off cnt) at' (at' + varRefSize) 0 ∧
      slice at' varRefSize (w.storeRef at' off cnt).seg = le32 off ++ le32 cnt := by
  have hlen := length_ref off cnt
  have hend' : at' + (le32 off ++ le32 cnt).length ≤ w.cur := by omega
  have hstore := store_spec h hend'
  rw [hlen] at hstore
  exact hstore

/-- Where there is room, `reserve` gives the bytes behind the others. -/
theorem reserve_spec {n : ℕ} (h : w.Ready) (hroom : alignTo w.cur 8 + alignTo n 8 ≤ w.cap) :
    ∃ w', w.reserve n = (alignTo w.cur 8, w') ∧ Grown w w' w.cur w.cur (alignTo n 8) ∧
      w'.cur = alignTo w.cur 8 + n := by
  have hcap := h.cap_lt
  have hcur := alignTo_bounds w.cur
  have hn := alignTo_bounds n
  have hup : alignUp w.cur = alignTo w.cur 8 := alignUp_of_lt (by omega)
  unfold reserve
  dsimp only
  rw [hup, if_neg (by omega)]
  have hpad : w.cur + (List.replicate (alignTo w.cur 8 - w.cur) (0 : UInt8)).length ≤
      w.seg.length := by
    have := h.cap_le
    rw [List.length_replicate]
    omega
  have hstart := h.start
  refine ⟨_, rfl, ⟨⟨h.ok, ?_, ?_, ?_, h.cap_lt⟩, rfl, ?_, ?_, ?_⟩, rfl⟩
  · change segHeaderSize ≤ alignTo w.cur 8 + n
    omega
  · change alignTo w.cur 8 + n ≤ w.cap
    omega
  · change w.cap ≤ (overwrite w.seg _ _).length
    rw [length_overwrite hpad]
    exact h.cap_le
  · change w.cur ≤ alignTo w.cur 8 + n
    omega
  · exact alignTo_add (alignTo_mod _)
  · exact fun a b hb _ => agree_overwrite hpad (Or.inl hb)

/-- Bytes that are appended, with the `VarRef` to them. -/
theorem putRef_spec {cnt : ℕ} (h : w.Ready) (hend : at' + varRefSize ≤ w.cur)
    (hroom : alignTo w.cur 8 + alignTo bytes.length 8 ≤ w.cap) :
    ∃ w', w.putRef at' cnt bytes = some w' ∧
      Grown w w' at' (at' + varRefSize) (alignTo bytes.length 8) ∧
        RefLaid w'.seg w.cur w'.cur at' cnt bytes := by
  have hcap := h.cap_lt
  have hlen := alignTo_bounds bytes.length
  have hcur := alignTo_bounds w.cur
  unfold putRef
  dsimp only
  rw [u32_of_lt (by omega)]
  by_cases hnil : bytes.length = 0
  · obtain rfl := List.length_eq_zero_iff.mp hnil
    obtain ⟨hgrown, href⟩ := storeRef_spec h 0 cnt hend
    exact ⟨_, rfl, hgrown, 0, href, by decide, fun hne => absurd rfl hne⟩
  · obtain ⟨w₁, hreserve, hgrown₁, hcur₁⟩ := reserve_spec h hroom
    have hstart := h.start
    have hne : alignTo w.cur 8 ≠ 0 := by
      unfold segHeaderSize at hstart
      omega
    rw [if_neg hnil, hreserve]
    dsimp only
    rw [if_neg hne, List.take_length]
    have hend₁ : alignTo w.cur 8 + bytes.length ≤ w₁.cur := hcur₁.ge
    obtain ⟨hgrown₂, hbytes⟩ := store_spec hgrown₁.ready hend₁
    obtain ⟨hgrown₃, href⟩ := storeRef_spec hgrown₂.ready (alignTo w.cur 8) cnt
      (hend.trans (hgrown₁.mono.trans hgrown₂.mono))
    refine ⟨_, rfl, ?_, alignTo w.cur 8, href, by omega, fun _ => ⟨hcur.1, ?_, ?_⟩⟩
    · have hfirst : Grown w w₁ at' (at' + varRefSize) (alignTo bytes.length 8) :=
        hgrown₁.mono_record (Or.inr (Nat.le_refl _))
      exact (hfirst.trans hgrown₂ (Or.inr hcur.1)).trans hgrown₃
        (Or.inl ⟨Nat.le_refl _, Nat.le_refl _⟩)
    · exact hcur₁.ge
    · rw [hgrown₃.keep (alignTo w.cur 8) (alignTo w.cur 8 + bytes.length) hcur₁.ge (by omega) _ _
        (Nat.le_refl _) (Nat.le_refl _)]
      exact hbytes

end

end Writer

/-! ## Arrays of records -/

section

open Writer

variable {α : Type} (emit : ℕ → α → Writer → Option Writer)
  (laid : List UInt8 → ℕ → ℕ → ℕ → α → Prop) (size : ℕ) (len : α → ℕ)

/-- Where there is room, the item is laid into a record. -/
def Emits (item : α) : Prop :=
  ∀ at' w, w.Ready → at' + size ≤ w.cur → alignTo w.cur 8 + len item ≤ w.cap →
    ∃ w', emit at' item w = some w' ∧ Grown w w' at' (at' + size) (len item) ∧
      laid w'.seg w.cur w'.cur at' item

/-- What is laid depends on the record and on the range. -/
def Stays : Prop :=
  ∀ {seg seg' lo hi lo' hi' at'} {item : α}, laid seg lo hi at' item →
    Agree seg seg' at' (at' + size) → Agree seg seg' lo hi → lo' ≤ lo → hi ≤ hi' →
      laid seg' lo' hi' at' item

variable {emit laid size len}

/-- The loop over the elements: each is laid, and stays. -/
theorem emitElems_spec {items : List α} (hemit : ∀ item ∈ items, Emits emit laid size len item)
    (hstays : Stays laid size) {block : ℕ} :
    ∀ {i : ℕ} {w : Writer}, w.Ready → block + (i + items.length) * size ≤ w.cur →
      alignTo w.cur 8 + (items.map len).sum ≤ w.cap →
        ∃ w', emitElems emit block size i items w = some w' ∧
          Grown w w' (block + i * size) (block + (i + items.length) * size)
            (items.map len).sum ∧
          ∀ j item, items[j]? = some item →
            laid w'.seg w.cur w'.cur (block + (i + j) * size) item := by
  induction items with
  | nil => exact fun h _ _ => ⟨_, rfl, h.grown _ _, fun j item hj => by cases hj⟩
  | cons item items ih =>
      intro i w hready hend hroom
      rw [List.map_cons, List.sum_cons] at hroom ⊢
      rw [List.length_cons, show i + (items.length + 1) = i + 1 + items.length by omega] at hend ⊢
      have hnext : block + (i + 1) * size = block + i * size + size := by
        rw [Nat.succ_mul, Nat.add_assoc]
      have hlast : (i + 1) * size ≤ (i + 1 + items.length) * size :=
        Nat.mul_le_mul_right _ (Nat.le_add_right _ _)
      obtain ⟨w₁, hw₁, hgrown₁, hlaid₁⟩ := hemit item List.mem_cons_self (block + i * size) w hready
        (by omega) (by omega)
      obtain ⟨w₂, hw₂, hgrown₂, hlaid₂⟩ := ih
        (fun item hitem => hemit item (List.mem_cons_of_mem _ hitem)) (i := i + 1) hgrown₁.ready
        (hend.trans hgrown₁.mono) (by rw [hgrown₁.used_eq, hgrown₁.cap_eq]; omega)
      refine ⟨w₂, ?_, ?_, fun j item' hj => ?_⟩
      · rw [emitElems, hw₁]
        exact hw₂
      · have hfirst : Grown w w₁ (block + i * size) (block + (i + 1 + items.length) * size)
            (len item) := hgrown₁.mono_record (Or.inl (by omega))
        exact hfirst.trans hgrown₂ (Or.inl (by omega))
      · cases j with
        | zero =>
            obtain rfl : item = item' := by simpa using hj
            have hmono := hgrown₁.mono
            rw [Nat.add_zero]
            exact hstays hlaid₁ (hgrown₂.keep _ _ (by omega) (Or.inl (by omega)))
              (hgrown₂.keep _ _ (Nat.le_refl _) (Or.inr hend)) (Nat.le_refl _) hgrown₂.mono
        | succ j =>
            rw [show i + (j + 1) = i + 1 + j by omega]
            exact hstays (hlaid₂ j item' hj) (Agree.refl _ _ _) (Agree.refl _ _ _) hgrown₁.mono
              (Nat.le_refl _)

/-- An array of records, with the `VarRef` to it. -/
theorem emitBlock_spec {items : List α} (hemit : ∀ item ∈ items, Emits emit laid size len item)
    (hstays : Stays laid size) (hsize : 0 < size) {tight : Bool} {at' : ℕ} {w : Writer}
    (h : w.Ready) (hend : at' + varRefSize ≤ w.cur)
    (hroom : alignTo w.cur 8 + (alignTo (items.length * size) 8 + (items.map len).sum) ≤ w.cap) :
    ∃ w', emitBlock emit tight at' size items w = some w' ∧
      Grown w w' at' (at' + varRefSize)
        (alignTo (items.length * size) 8 + (items.map len).sum) ∧
        BlockLaid w'.seg w.cur w'.cur (laid w'.seg w.cur w'.cur) at' size items := by
  have hcap := h.cap_lt
  have hlen := alignTo_bounds (items.length * size)
  have hcount : items.length ≤ items.length * size := Nat.le_mul_of_pos_right _ hsize
  unfold emitBlock
  dsimp only
  rw [u32_of_lt (by omega)]
  by_cases hnil : items.length = 0
  · obtain rfl := List.length_eq_zero_iff.mp hnil
    obtain ⟨hgrown, href⟩ := storeRef_spec h 0 0 hend
    refine ⟨w.storeRef at' 0 0, ?_, ?_, 0, href, by decide, fun hne => absurd rfl hne,
      fun i item hi => by cases hi⟩
    · simp [emitElems]
    · simpa [alignTo] using hgrown
  · have hstart := h.start
    have hcur := alignTo_bounds w.cur
    have hne : alignTo w.cur 8 ≠ 0 := by
      unfold segHeaderSize at hstart
      omega
    obtain ⟨w₁, hreserve, hgrown₁, hcur₁⟩ := reserve_spec (n := items.length * size) h (by omega)
    rw [if_neg hnil, u32_of_lt (by omega), hreserve]
    dsimp only
    rw [if_neg (by omega), List.take_length]
    -- zeroing the records leaves what is known of the writer
    obtain ⟨w₂, hw₂, hgrown₂⟩ : ∃ w₂, (if (tight || decide (items.length = 0)) = true then w₁
        else w₁.store (alignTo w.cur 8) (List.replicate (items.length * size) 0)) = w₂ ∧
          Grown w₁ w₂ (alignTo w.cur 8) (alignTo w.cur 8 + items.length * size) 0 := by
      split
      · exact ⟨w₁, rfl, hgrown₁.ready.grown _ _⟩
      · have hzeros : (List.replicate (items.length * size) (0 : UInt8)).length =
            items.length * size := List.length_replicate
        have hstore := (store_spec hgrown₁.ready (hzeros.symm ▸ hcur₁.ge)).1
        rw [hzeros] at hstore
        exact ⟨_, rfl, hstore⟩
    rw [hw₂]
    have hmono₂ := hgrown₂.mono
    have hused₂ := hgrown₂.used_eq.trans (congrArg (· + 0) hgrown₁.used_eq)
    have hcap₂ := hgrown₂.cap_eq.trans hgrown₁.cap_eq
    have hend₂ : alignTo w.cur 8 + (0 + items.length) * size ≤ w₂.cur := by
      rw [Nat.zero_add]
      omega
    obtain ⟨w₃, hw₃, hgrown₃, hlaid₃⟩ := emitElems_spec hemit hstays hgrown₂.ready hend₂
      (by omega)
    have hmono₃ := hgrown₃.mono
    have hend₃ : at' + varRefSize ≤ w₃.cur := by omega
    obtain ⟨hgrown₄, href⟩ := storeRef_spec hgrown₃.ready (alignTo w.cur 8) items.length hend₃
    refine ⟨_, ?_, ?_, alignTo w.cur 8, href, by omega, fun _ => ⟨hcur.1, ?_⟩,
      fun i item hi => ?_⟩
    · rw [hw₃]
      rfl
    · have hfirst : Grown w w₁ at' (at' + varRefSize) (alignTo (items.length * size) 8) :=
        hgrown₁.mono_record (Or.inr (Nat.le_refl _))
      have hsecond := hfirst.trans hgrown₂ (Or.inr hcur.1)
      have hthird := hsecond.trans hgrown₃ (Or.inr (by omega))
      exact hthird.trans hgrown₄ (Or.inl ⟨Nat.le_refl _, Nat.le_refl _⟩)
    · change _ ≤ w₃.cur
      omega
    · have hlaid := hlaid₃ i item hi
      obtain ⟨hlt, -⟩ := List.getElem?_eq_some_iff.mp hi
      have hmul : (i + 1) * size ≤ items.length * size := Nat.mul_le_mul_right _ hlt
      rw [Nat.succ_mul] at hmul
      rw [Nat.zero_add] at hlaid
      exact hstays hlaid (hgrown₄.keep _ _ (by omega) (Or.inr (by omega)))
        (hgrown₄.keep _ _ (Nat.le_refl _) (Or.inr (by omega))) (by omega) (Nat.le_refl _)

end

/-! ## The pass -/

section

open Writer

variable {w : Writer}

/-- The entries of a table of strings. -/
theorem emits_putRef (str : List UInt8) :
    Emits (fun at' str => Writer.putRef at' (u32 str.length) str)
      (fun seg lo hi at' str => RefLaid seg lo hi at' str.length str) varRefSize
      (fun str => alignTo str.length 8) str := by
  intro at' w h hend hroom
  have hcap := h.cap_lt
  have hlen := alignTo_bounds str.length
  dsimp only at hroom ⊢
  rw [u32_of_lt (by omega)]
  exact putRef_spec h hend hroom

theorem stays_refLaid :
    Stays (fun seg lo hi at' (str : List UInt8) => RefLaid seg lo hi at' str.length str)
      varRefSize :=
  fun h hrecord hrange hlo hhi => RefLaid.congr h hrecord hrange hlo hhi

/-- A field that is not a nested message. -/
theorem Kind.emit_spec (k : Kind) (v : k.Value) {at' : ℕ} (h : w.Ready)
    (hend : at' + memberSize k ≤ w.cur) (hroom : alignTo w.cur 8 + Kind.varlen k v ≤ w.cap) :
    ∃ w', Kind.emit at' k v w = some w' ∧
      Grown w w' at' (at' + memberSize k) (Kind.varlen k v) ∧
        Kind.Laid w'.seg w.cur w'.cur at' k v := by
  have hcap := h.cap_lt
  -- what lies in the record itself
  have hstore : ∀ {bytes : List UInt8}, bytes.length = memberSize k →
      Grown w (w.store at' bytes) at' (at' + memberSize k) 0 ∧
        slice at' (memberSize k) (w.store at' bytes).seg = bytes := by
    intro bytes hlen
    rw [← hlen] at hend ⊢
    exact store_spec h hend
  -- what is appended
  have hput : ∀ {bytes : List UInt8} {cnt : ℕ}, memberSize k = varRefSize →
      alignTo w.cur 8 + alignTo bytes.length 8 ≤ w.cap → cnt ≤ bytes.length →
        ∃ w', w.putRef at' (u32 cnt) bytes = some w' ∧
          Grown w w' at' (at' + memberSize k) (alignTo bytes.length 8) ∧
            RefLaid w'.seg w.cur w'.cur at' cnt bytes := by
    intro bytes cnt hsize hroom hcnt
    have hlen := alignTo_bounds bytes.length
    rw [hsize] at hend ⊢
    rw [u32_of_lt (by omega)]
    exact putRef_spec h hend hroom
  cases k with
  | scalar s => exact ⟨_, rfl, hstore (length_leBytes _ _)⟩
  | bool => exact ⟨_, rfl, hstore rfl⟩
  | string => exact hput rfl hroom (Nat.le_refl _)
  | scalars s size =>
      have hlen : (v.1.flatMap fun item => leBytes s.size item.toNat).length =
          v.1.length * s.size := length_flatMap_const _ _ (fun _ => length_leBytes _ _) v.1
      cases size with
      | some n =>
          refine ⟨_, rfl, hstore (hlen.trans ?_)⟩
          rw [v.2 n rfl, Nat.mul_comm]
          rfl
      | none =>
          have hcount : v.1.length ≤ v.1.length * s.size := Nat.le_mul_of_pos_right _ s.size_pos
          have hgo := hput rfl (hlen.symm ▸ hroom) (hcount.trans hlen.ge)
          rw [hlen] at hgo
          exact hgo
  | bools size =>
      have hlen : (v.1.map boolByte).length = v.1.length := List.length_map _
      cases size with
      | some n => exact ⟨_, rfl, hstore (hlen.trans (v.2 n rfl))⟩
      | none =>
          have hgo := hput rfl (hlen.symm ▸ hroom) hlen.ge
          rw [hlen] at hgo
          exact hgo
  | strings size =>
      exact emitBlock_spec (fun str _ => emits_putRef str) stays_refLaid (by decide) h hend hroom

/-- Two steps that write to the same record, one behind the other: what the first laid stays. -/
theorem Writer.Grown.behind {w₁ w₂ : Writer} {hi lo₁ hi₁ lo₂ used₁ used₂ : ℕ}
    (h₁ : Grown w w₁ lo₁ hi₁ used₁) (lo : ℕ) (h₂ : Grown w₁ w₂ lo₂ hi used₂) (hlo : lo ≤ lo₁)
    (hrecord : lo₁ ≤ hi₁) (horder : hi₁ ≤ lo₂) (hlast : lo₂ ≤ hi) (hend : hi ≤ w.cur) :
    Grown w w₂ lo hi (used₁ + used₂) ∧ Agree w₁.seg w₂.seg lo₁ hi₁ ∧
      Agree w₁.seg w₂.seg w.cur w₁.cur := by
  have hmono := h₁.mono
  have hfirst : Grown w w₁ lo hi used₁ := h₁.mono_record (Or.inl (by omega))
  exact ⟨hfirst.trans h₂ (Or.inl (by omega)), h₂.keep _ _ (by omega) (Or.inl horder),
    h₂.keep _ _ (Nat.le_refl _) (Or.inr hend)⟩

/-- **Emitting.**  Where there is room for what the value takes, it is laid. The induction is on
the schema. -/
theorem emit_spec (S : Schema) : ∀ {base cur : ℕ} {v : S.Value} {w : Writer}, w.Ready →
    base + layoutEnd S cur ≤ w.cur → alignTo w.cur 8 + varlen S v ≤ w.cap →
      ∃ w', emit S base cur v w = some w' ∧
        Grown w w' (base + cur) (base + layoutEnd S cur) (varlen S v) ∧
          Laid w'.seg w.cur w'.cur S base cur v := by
  induction S with
  | nil =>
      intro base cur v w h _ _
      exact ⟨w, if_pos h.ok, h.grown _ _, trivial⟩
  | field name k rest ih =>
      intro base cur v w h hend hroom
      change base + layoutEnd rest _ ≤ w.cur at hend
      change alignTo w.cur 8 + (Kind.varlen k v.1 + varlen rest v.2) ≤ w.cap at hroom
      have hstart := le_alignTo cur (memberAlign_pos k)
      have hrest := le_layoutEnd rest (alignTo cur (memberAlign k) + memberSize k)
      have hend₁ : base + alignTo cur (memberAlign k) + memberSize k ≤ w.cur := by omega
      obtain ⟨w₁, hw₁, hgrown₁, hlaid₁⟩ := Kind.emit_spec k v.1 h hend₁ (by omega)
      obtain ⟨w₂, hw₂, hgrown₂, hlaid₂⟩ := ih (v := v.2) hgrown₁.ready
        (hend.trans hgrown₁.mono) (by rw [hgrown₁.used_eq, hgrown₁.cap_eq]; omega)
      obtain ⟨hgrown, hrecord, hrange⟩ := hgrown₁.behind (base + cur) hgrown₂ (by omega)
        (by omega) (by omega) (by omega) hend
      refine ⟨w₂, ?_, hgrown, hlaid₁.congr hrecord hrange (Nat.le_refl _) hgrown₂.mono,
        hlaid₂.widen hgrown₁.mono⟩
      rw [emit, hw₁]
      exact hw₂
  | nested name msg rest ihmsg ih =>
      intro base cur v w h hend hroom
      change base + layoutEnd rest (alignTo cur rootAlign + rootSize msg) ≤ w.cur at hend
      change alignTo w.cur 8 + (varlen msg v.1 + varlen rest v.2) ≤ w.cap at hroom
      have hstart := le_alignTo cur (a := rootAlign) (by decide)
      have hrest := le_layoutEnd rest (alignTo cur rootAlign + rootSize msg)
      have hroot := layoutEnd_le_rootSize msg
      have hend₁ : base + alignTo cur rootAlign + layoutEnd msg 0 ≤ w.cur := by omega
      obtain ⟨w₁, hw₁, hgrown₁, hlaid₁⟩ := ihmsg (v := v.1) h hend₁ (by omega)
      obtain ⟨w₂, hw₂, hgrown₂, hlaid₂⟩ := ih (v := v.2) hgrown₁.ready
        (hend.trans hgrown₁.mono) (by rw [hgrown₁.used_eq, hgrown₁.cap_eq]; omega)
      obtain ⟨hgrown, hrecord, hrange⟩ := hgrown₁.behind (base + cur) hgrown₂ (by omega)
        (by omega) (by omega) (by omega) hend
      refine ⟨w₂, ?_, hgrown, Laid.congr msg hrange (Nat.le_refl _) hgrown₂.mono hlaid₁ hrecord,
        hlaid₂.widen hgrown₁.mono⟩
      rw [emit, hw₁]
      exact hw₂
  | nestedArray name size msg rest ihmsg ih =>
      intro base cur v w h hend hroom
      change base + layoutEnd rest (alignTo cur varRefAlign + varRefSize) ≤ w.cur at hend
      change alignTo w.cur 8 + (alignTo (v.1.1.length * rootSize msg) 8 +
        (v.1.1.map (varlen msg)).sum + varlen rest v.2) ≤ w.cap at hroom
      have hstart := le_alignTo cur (a := varRefAlign) (by decide)
      have hrest := le_layoutEnd rest (alignTo cur varRefAlign + varRefSize)
      have hroot := layoutEnd_le_rootSize msg
      have hemits : ∀ item ∈ v.1.1, Emits (fun at' item w => emit msg at' 0 item w)
          (fun seg lo hi at' item => Laid seg lo hi msg at' 0 item) (rootSize msg) (varlen msg)
          item := by
        intro item _ at' w h hend hroom
        have hend' : at' + layoutEnd msg 0 ≤ w.cur := by omega
        obtain ⟨w', hw', hgrown, hlaid⟩ := ihmsg (v := item) h hend' hroom
        exact ⟨w', hw', hgrown.mono_record (Or.inl (by omega)), hlaid⟩
      have hstays : Stays (fun seg lo hi at' (item : msg.Value) => Laid seg lo hi msg at' 0 item)
          (rootSize msg) :=
        fun hlaid hrecord hrange hlo hhi => Laid.congr msg hrange hlo hhi hlaid
          (hrecord.mono (Nat.le_refl _) (by omega))
      have hend₁ : base + alignTo cur varRefAlign + varRefSize ≤ w.cur := by omega
      obtain ⟨w₁, hw₁, hgrown₁, hlaid₁⟩ := emitBlock_spec hemits hstays (rootSize_pos msg) h hend₁
        (by omega)
      obtain ⟨w₂, hw₂, hgrown₂, hlaid₂⟩ := ih (v := v.2) hgrown₁.ready
        (hend.trans hgrown₁.mono) (by rw [hgrown₁.used_eq, hgrown₁.cap_eq]; omega)
      obtain ⟨hgrown, hrecord, hrange⟩ := hgrown₁.behind (base + cur) hgrown₂ (by omega)
        (by omega) (by omega) (by omega) hend
      refine ⟨w₂, ?_, hgrown, hlaid₁.congr hrecord (Nat.le_refl _) hgrown₂.mono ?_,
        hlaid₂.widen hgrown₁.mono⟩
      · rw [emit, hw₁]
        exact hw₂
      · intro at' item hge hle hlaid
        exact hstays hlaid (hrange.mono hge hle) hrange (Nat.le_refl _) hgrown₂.mono

end

end DzIpc.Flat
