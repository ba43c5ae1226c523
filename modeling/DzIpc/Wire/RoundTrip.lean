import DzIpc.Wire.Codec

/-!
# What the generated deserializer makes of a serialized message

The serializer lays the fields' bytes one after another, with a page tail after every 1460
of them.  The deserializer agrees with it on the position of every field as long as no
field name, taken together with a type byte that is not read, reaches the end of its page:
the name and the byte are skipped by adding to `offset`, which does not step over a tail.

* `writeMessage_eq` describes a serialized message as a woven stream.
* `readHeader_reading` and `readHeader_offset_ne` say when the reader stands at a field's
  value after the header, and when it does not.
* `readFields_reading` is the induction over the schema.
* `roundTrip_of_namesUncut` is the round trip, `crossing_not_roundTrip` a message that does
  not come back.
-/

namespace DzIpc.Wire

open Weave

/-! ## What the serializer lays -/

/-- The data bytes of a message: everything its fields copy, without page tails. -/
def Schema.data (S : Schema) (v : S.Value) : List UInt8 := (S.body v).1.flatten

/-- The serialized message fits the 16-bit page count. -/
def Schema.Fits (S : Schema) (v : S.Value) : Prop :=
  (S.body v).2 / ipcMsgMaxSize + 1 < 2 ^ 16

instance (S : Schema) (v : S.Value) : Decidable (S.Fits v) :=
  inferInstanceAs (Decidable (_ < _))

theorem length_headerPieces (name : List UInt8) (t : ℕ) :
    (headerPieces name t).flatten.length = 4 + name.length + 1 := by
  simp [headerPieces, le32]
  omega

theorem length_flatMap_const {α : Type} (f : α → List UInt8) (width : ℕ)
    (hf : ∀ a, (f a).length = width) (items : List α) :
    (items.flatMap f).length = items.length * width := by
  induction items with
  | nil => simp
  | cons a items ih => simp [ih, hf, Nat.succ_mul, Nat.add_comm]

/-- A length, and the bytes it announces unless there are none. -/
theorem flatten_counted {len : ℕ} {bytes : List UInt8} (hnil : len = 0 → bytes = []) :
    (le32 len :: if len > 0 then [bytes] else []).flatten = le32 len ++ bytes := by
  by_cases hpos : len > 0
  · simp [hpos]
  · simp [hpos, hnil (by omega)]

theorem Arr.eq_nil_of_length {size : ArraySize} {α : Type} {v : Arr size α} (hv : v.length = 0) :
    v.1 = [] :=
  List.length_eq_zero_iff.mp hv

theorem flatten_scalars {s : Scalar} {size : ArraySize} (v : Arr size s.Value) :
    ((Kind.scalars s size).valuePieces v).flatten
      = le32 v.length ++ v.1.flatMap fun item => leBytes s.size item.toNat :=
  flatten_counted fun hv => by rw [Arr.eq_nil_of_length hv, List.flatMap_nil]

theorem flatten_bools {size : ArraySize} (v : Arr size Bool) :
    ((Kind.bools size).valuePieces v).flatten = le32 v.length ++ v.1.map boolByte :=
  flatten_counted fun hv => by rw [Arr.eq_nil_of_length hv, List.map_nil]

theorem flatten_strings {size : ArraySize} (v : Arr size (List UInt8)) :
    ((Kind.strings size).valuePieces v).flatten
      = le32 v.length ++ v.1.flatMap fun str => le32 str.length ++ str := by
  simp only [Kind.valuePieces, List.flatten_cons, List.append_cancel_left_eq]
  induction v.1 with
  | nil => rfl
  | cons str items ih =>
      simp only [List.flatMap_cons, List.flatten_append, List.flatten_cons, List.flatten_nil, ih,
        List.append_nil, List.append_assoc]

theorem flatten_nestedPieces (bytes : List UInt8) :
    (nestedPieces bytes).flatten = le32 bytes.length ++ bytes :=
  flatten_counted List.length_eq_zero_iff.mp

theorem length_valuePieces (k : Kind) (v : k.Value) :
    (k.valuePieces v).flatten.length = k.valueSize v := by
  cases k with
  | scalar s => simp [Kind.valuePieces, Kind.valueSize]
  | bool => rfl
  | string => simp [Kind.valuePieces, Kind.valueSize, le32]
  | scalars s size =>
      have hitems := length_flatMap_const (fun item : s.Value => leBytes s.size item.toNat) s.size
        (fun _ => length_leBytes _ _) v.1
      rw [flatten_scalars, List.length_append, hitems]
      rfl
  | bools size =>
      rw [flatten_bools, List.length_append, List.length_map]
      rfl
  | strings size =>
      rw [flatten_strings, List.length_append]
      simp [Kind.valueSize, le32, List.length_flatMap]

theorem length_nestedPieces (bytes : List UInt8) :
    (nestedPieces bytes).flatten.length = 4 + bytes.length := by
  rw [flatten_nestedPieces, List.length_append]
  rfl

theorem length_flatMap_nestedPieces (messages : List (List UInt8)) :
    (messages.flatMap nestedPieces).flatten.length
      = (messages.map fun bytes => 4 + bytes.length).sum := by
  induction messages with
  | nil => rfl
  | cons bytes messages ih =>
      rw [List.flatMap_cons, List.flatten_append, List.length_append, ih, length_nestedPieces,
        List.map_cons, List.sum_cons]

/-- `total_size_` is the number of data bytes. -/
theorem length_data (S : Schema) (v : S.Value) : (S.data v).length = (S.body v).2 := by
  unfold Schema.data
  induction S with
  | nil => rfl
  | field name kind rest ih =>
      simp only [Schema.body, List.flatten_append, List.length_append, ih, length_headerPieces,
        length_valuePieces]
  | nested name msg rest _ ih =>
      simp only [Schema.body, List.flatten_append, List.length_append, ih, length_headerPieces,
        length_nestedPieces]
  | nestedArray name size msg rest _ ih =>
      simp only [Schema.body, List.flatten_append, List.length_append, ih, length_headerPieces,
        List.flatten_cons, length_flatMap_nestedPieces, le32, length_leBytes]

/-- The tails a message is woven with. -/
def messageTail (msgId totalSize k : ℕ) : List UInt8 :=
  tailBytes (correctTotalSize totalSize) msgId (k + 1)

private theorem foldl_adaptMemcpyTos_laid (info : SizeInfo) (msgId : ℕ)
    (pieces : List (List UInt8)) :
    ∀ data : List UInt8, (data.length + pieces.flatten.length) / ipcMsgMaxSize + 1 < 2 ^ 16 →
      pieces.foldl Writer.adaptMemcpyTos (laid info msgId data)
        = laid info msgId (data ++ pieces.flatten) := by
  induction pieces with
  | nil => simp
  | cons src pieces ih =>
      intro data hfits
      simp only [List.flatten_cons, List.length_append] at hfits
      have hle : (data.length + src.length) / ipcMsgMaxSize
          ≤ (data.length + (src.length + pieces.flatten.length)) / ipcMsgMaxSize :=
        Nat.div_le_div_right (by omega)
      rw [List.foldl_cons, adaptMemcpyTos_laid info msgId data src (by omega),
        ih (data ++ src) (by rw [List.length_append, Nat.add_assoc]; exact hfits),
        List.flatten_cons, List.append_assoc]

/-- A serialized message is its data, woven with tails, and a last tail. -/
theorem writeMessage_eq (msgId : ℕ) (pieces : List (List UInt8))
    (hfits : pieces.flatten.length / ipcMsgMaxSize + 1 < 2 ^ 16) :
    writeMessage msgId pieces.flatten.length pieces
      = weave ipcMsgMaxSize (messageTail msgId pieces.flatten.length) 0 pieces.flatten
        ++ messageTail msgId pieces.flatten.length (pieces.flatten.length / ipcMsgMaxSize) := by
  have hlaid := foldl_adaptMemcpyTos_laid (correctTotalSize pieces.flatten.length) msgId pieces []
    (by simpa using hfits)
  rw [laid_nil, List.nil_append] at hlaid
  rw [writeMessage, serializeDataCut, hlaid]
  rfl

theorem length_writeMessage (msgId : ℕ) (pieces : List (List UInt8))
    (hfits : pieces.flatten.length / ipcMsgMaxSize + 1 < 2 ^ 16) :
    (writeMessage msgId pieces.flatten.length pieces).length
      = position pieces.flatten.length + tailMsgSize := by
  rw [writeMessage_eq msgId pieces hfits, List.length_append, length_woven (fun _ => rfl)]
  rfl

/-- Whatever the page arithmetic does, the writer drops no byte of its source. -/
private theorem length_le_adaptMemcpyTos (w : Writer) (src : List UInt8) :
    w.out.length + src.length ≤ (w.adaptMemcpyTos src).out.length := by
  have hloop : ∀ (cutCnt : ℕ) (w : Writer) (pure : ℕ) (src : List UInt8),
      w.out.length + src.length ≤ (Writer.cutLoop cutCnt w pure src).1.out.length
        + (Writer.cutLoop cutCnt w pure src).2.length := by
    intro cutCnt
    induction cutCnt with
    | zero =>
        intro w pure src
        exact Nat.le_refl _
    | succ cutCnt ih =>
        intro w pure src
        simp only [Writer.cutLoop]
        refine Nat.le_trans ?_ (ih _ _ _)
        simp only [Writer.addTailMsg, Writer.append, List.length_append, List.length_take,
          List.length_drop]
        omega
  unfold Writer.adaptMemcpyTos
  simp only [Writer.append, List.length_append]
  exact hloop _ _ _ _

theorem length_le_foldl (pieces : List (List UInt8)) :
    ∀ w : Writer, w.out.length + pieces.flatten.length
      ≤ (pieces.foldl Writer.adaptMemcpyTos w).out.length := by
  induction pieces with
  | nil => simp
  | cons src pieces ih =>
      intro w
      have hsrc := length_le_adaptMemcpyTos w src
      have hrest := ih (w.adaptMemcpyTos src)
      rw [List.flatten_cons, List.length_append, List.foldl_cons]
      omega

theorem length_le_writeMessage (msgId totalSize : ℕ) (pieces : List (List UInt8)) :
    pieces.flatten.length ≤ (writeMessage msgId totalSize pieces).length := by
  have hfold := length_le_foldl pieces (serializeDataCut msgId totalSize)
  rw [writeMessage, Writer.addTailMsg, Writer.append, List.length_append]
  simp only [serializeDataCut, List.length_nil] at hfold ⊢
  omega

/-! ## Reading along the data -/

/-- The cursor stands at data byte `n` of a region that carries `data`, with `rest` ahead
of it, and nothing has failed. -/
structure Reading (r : Region) (data : List UInt8) (n : ℕ) (rest : List UInt8) (c : Cursor) :
    Prop where
  carries : Carries r data
  small : data.length / ipcMsgMaxSize + 1 < 2 ^ 16
  within : n ≤ data.length
  ahead : data.drop n = rest
  offset : c.offset = position n
  overflow : c.overflow = false

namespace Reading

variable {r : Region} {data seg rest : List UInt8} {n : ℕ} {c : Cursor}

theorem add_length (h : Reading r data n rest c) : n + rest.length = data.length := by
  rw [← h.ahead, List.length_drop]
  have := h.within
  omega

theorem length_lt (h : Reading r data n rest c) : data.length < 1460 * 65536 := by
  have hsmall := h.small
  simp only [ipcMsgMaxSize] at hsmall
  omega

theorem seek {c' : Cursor} (h : Reading r data n (seg ++ rest) c) {m : ℕ}
    (hm : m = n + seg.length) (hoffset : c'.offset = position m)
    (hoverflow : c'.overflow = c.overflow) : Reading r data m rest c' where
  carries := h.carries
  small := h.small
  within := by
    have := h.add_length
    rw [List.length_append] at this
    omega
  ahead := by rw [hm, ← List.drop_drop, h.ahead, List.drop_left]
  offset := hoffset
  overflow := hoverflow.trans h.overflow

theorem allocate (h : Reading r data n rest c) (size : ℕ) :
    Reading r data n rest (c.allocate size) :=
  { h with }

theorem resize (h : Reading r data n rest c) (size : ArraySize) (bytes : ℕ) :
    Reading r data n rest (c.resize size bytes) := by
  cases size with
  | none => exact h.allocate bytes
  | some _ => exact h

/-- `adapt_memcpy_tods` takes what lies ahead. -/
theorem tods (h : Reading r data n (seg ++ rest) c) {len m : ℕ} (hlen : len = seg.length)
    (hm : m = n + seg.length) :
    Returns (adaptMemcpyTods r c len)
      fun res => res.1 = seg ∧ Reading r data m rest res.2 := by
  subst hlen hm
  exact .of_eq (adaptMemcpyTods_spec h.carries h.offset h.ahead h.within)
    ⟨rfl, h.seek rfl rfl rfl⟩

theorem int32 {k : ℕ} (h : Reading r data n (le32 k ++ rest) c) (hk : k < 2 ^ 31) :
    Returns (readInt32 r c) fun res => res.1 = k ∧ Reading r data (n + 4) rest res.2 := by
  refine (h.tods (m := n + 4) rfl rfl).bind ?_
  rintro ⟨bytes, c'⟩ ⟨rfl, hc'⟩
  have hval : leNat (le32 k) = k := by
    rw [le32, leNat_leBytes]
    exact Nat.mod_eq_of_lt (by omega)
  exact .pure ⟨by rw [hval, i32_of_lt hk], hc'⟩

/-- The same under the guard that there is something to take. -/
theorem items (h : Reading r data n (seg ++ rest) c) {count len m : ℕ}
    (hnil : count = 0 → seg = []) (hlen : len = seg.length) (hm : m = n + seg.length) :
    Returns (readItems r c count len)
      fun res => res.1 = seg ∧ Reading r data m rest res.2 := by
  unfold readItems
  refine .ite (fun _ => h.tods hlen hm) (fun hzero => ?_)
  obtain rfl := hnil (by omega)
  exact .ok ⟨rfl, h.seek hm (by rw [hm, h.offset]; rfl) rfl⟩

/-- A length within what lies ahead passes the count guard. -/
theorem countOk (h : Reading r data n rest c) {count minElemSize : ℕ}
    (hneed : count * minElemSize ≤ rest.length) (hpos : 0 < minElemSize) :
    todsCountOk r c count minElemSize = true := by
  have hadd := h.add_length
  have hlt := h.length_lt
  have hrange : r.todsInRange c.offset (count * minElemSize) = true := by
    rw [h.offset]
    exact todsInRange_position h.carries (by omega)
  have hne : minElemSize ≠ 0 := by omega
  unfold todsCountOk
  simp only [Int.toNat_natCast, hne, if_false, hrange, Bool.and_true, Bool.and_eq_true,
    decide_eq_true_eq]
  omega

end Reading

/-- The header is stepped over right as long as the bytes that are not read stay inside
their page. -/
theorem readHeader_reading {r : Region} {data name rest : List UInt8} {n t : ℕ} {c : Cursor}
    (h : Reading r data n ((headerPieces name t).flatten ++ rest) c)
    (huncut : (n + 4) % ipcMsgMaxSize + name.length + 1 < ipcMsgMaxSize) :
    Returns (readHeader r c) (Reading r data (n + 4 + name.length + 1) rest) := by
  have hname : name.length < 1460 := by
    simp only [ipcMsgMaxSize] at huncut
    omega
  simp only [headerPieces, List.flatten_cons, List.flatten_nil, List.append_nil,
    List.append_assoc] at h
  refine (h.int32 (by omega)).bind ?_
  rintro ⟨nameSize, c'⟩ ⟨rfl, hc'⟩
  dsimp only at hc'
  have hoffset := hc'.offset
  have hplace : position (n + 4 + name.length + 1) = position (n + 4) + (name.length + 1) :=
    position_add_of_within (c := name.length + 1) (by omega)
  have hposition : position (n + 4) < 2 ^ 31 := by
    have := hc'.length_lt
    have := hc'.within
    rw [position_eq]
    omega
  rw [← List.append_assoc] at hc'
  refine .pure (hc'.seek (by simp; omega) ?_ rfl)
  simp only [Cursor.skip, Cursor.advance, toU32, u32]
  omega

/-- Where the unread bytes reach the end of their page, the reader misses the value. -/
theorem readHeader_offset_ne {r : Region} {data name rest : List UInt8} {n t : ℕ} {c : Cursor}
    (h : Reading r data n ((headerPieces name t).flatten ++ rest) c)
    (hcut : ipcMsgMaxSize ≤ (n + 4) % ipcMsgMaxSize + name.length + 1) :
    Returns (readHeader r c) fun c' => c'.offset < position (n + 4 + name.length + 1) := by
  have hlen := h.add_length
  have hlt := h.length_lt
  rw [List.length_append, length_headerPieces] at hlen
  simp only [headerPieces, List.flatten_cons, List.flatten_nil, List.append_nil,
    List.append_assoc] at h
  refine (h.int32 (by omega)).bind ?_
  rintro ⟨nameSize, c'⟩ ⟨rfl, hc'⟩
  dsimp only at hc'
  have hoffset := hc'.offset
  refine .pure ?_
  rw [position_eq] at hoffset ⊢
  simp only [Cursor.skip, Cursor.advance, toU32, u32]
  simp only [ipcMsgMaxSize] at hcut
  omega

theorem readStringHeader_reading {r : Region} {data name rest : List UInt8} {n t : ℕ} {c : Cursor}
    (h : Reading r data n ((headerPieces name t).flatten ++ rest) c)
    (huncut : (n + 4) % ipcMsgMaxSize + name.length < ipcMsgMaxSize) :
    Returns (readStringHeader r c) (Reading r data (n + 4 + name.length + 1) rest) := by
  have hname : name.length < 1460 := by
    simp only [ipcMsgMaxSize] at huncut
    omega
  simp only [headerPieces, List.flatten_cons, List.flatten_nil, List.append_nil,
    List.append_assoc] at h
  refine (h.int32 (by omega)).bind ?_
  rintro ⟨nameSize, c'⟩ ⟨rfl, hc'⟩
  dsimp only at hc'
  have hoffset := hc'.offset
  have hplace : position (n + 4 + name.length) = position (n + 4) + name.length :=
    position_add_of_within huncut
  have hposition : position (n + 4) < 2 ^ 31 := by
    have := hc'.length_lt
    have := hc'.within
    rw [position_eq]
    omega
  have hskip : Reading r data (n + 4 + name.length) ([byte t] ++ rest)
      (c'.advance name.length) := by
    refine hc'.seek rfl ?_ rfl
    simp only [Cursor.advance, toU32, hplace]
    omega
  refine (hskip.tods rfl rfl).bind ?_
  rintro ⟨_, c''⟩ ⟨_, hc''⟩
  exact .pure hc''

/-! ## Field values -/

theorem ofNat_leBytes {width : ℕ} (v : BitVec (8 * width)) :
    BitVec.ofNat (8 * width) (leNat (leBytes width v.toNat)) = v := by
  have hlt := v.isLt
  rw [leNat_leBytes, ← Nat.pow_mul, Nat.mod_eq_of_lt hlt, BitVec.ofNat_toNat]
  exact BitVec.setWidth_eq v

theorem ofBytes_flatMap {width : ℕ} (items : List (BitVec (8 * width))) :
    ofBytes width items.length (items.flatMap fun item => leBytes width item.toNat) = items := by
  induction items with
  | nil => rfl
  | cons item items ih =>
      have hlen := length_leBytes width item.toNat
      rw [List.length_cons, List.flatMap_cons, ofBytes, List.take_left' hlen,
        List.drop_left' hlen, ih, ofNat_leBytes]

theorem map_boolByte (items : List Bool) :
    (items.map boolByte).map (fun b => decide (b ≠ 0)) = items := by
  induction items with
  | nil => rfl
  | cons b items ih =>
      cases b <;> simp_all [boolByte]

/-- The bytes of a field after its name that are skipped without being read. -/
def Kind.unread : Kind → ℕ
  | string => 0
  | _ => 1

section Fields

variable {abi : Abi} {r : Region} {data rest : List UInt8} {n : ℕ} {c : Cursor}

/-- The count of an array whose elements lie ahead. -/
theorem readCount_reading {size : ArraySize} {α : Type} {v : Arr size α} {minElemSize : ℕ}
    (h : Reading r data n (le32 v.length ++ rest) c)
    (hneed : v.length * minElemSize ≤ rest.length) (hpos : 0 < minElemSize) :
    Returns (readCount r c size minElemSize) fun res =>
      res.1 = v.length ∧ res.2.1 = .next ∧ Reading r data (n + 4) rest res.2.2 := by
  have hlen := h.add_length
  have hlt := h.length_lt
  have hcount : v.length ≤ v.length * minElemSize := Nat.le_mul_of_pos_right _ hpos
  rw [List.length_append] at hlen
  refine (h.int32 (by omega)).bind ?_
  rintro ⟨count, c'⟩ ⟨rfl, hc'⟩
  cases size with
  | some m =>
      have hm : v.length = m := v.2 m rfl
      exact .of_eq (by simp [hm]; rfl) ⟨hm.symm, rfl, hc'⟩
  | none =>
      have hok := hc'.countOk hneed hpos
      exact .of_eq (by simp [hok]; rfl) ⟨rfl, rfl, hc'⟩

/-- The elements of a string array. -/
theorem readStrings_reading (strs : List (List UInt8)) :
    ∀ {n : ℕ} {c : Cursor},
      Reading r data n ((strs.flatMap fun str => le32 str.length ++ str) ++ rest) c →
      Returns (readStrings r strs.length c) fun res =>
        res.1 = strs ∧ res.2.1 = .next ∧
          Reading r data (n + (strs.map fun str => 4 + str.length).sum) rest res.2.2 := by
  induction strs with
  | nil =>
      intro n c h
      exact .pure ⟨rfl, rfl, h⟩
  | cons str strs ih =>
      intro n c h
      have hlen := h.add_length
      have hlt := h.length_lt
      simp only [List.flatMap_cons, List.append_assoc, List.length_append] at hlen h
      refine (h.int32 (by omega)).bind ?_
      rintro ⟨size, c'⟩ ⟨rfl, hc'⟩
      have hok : todsCountOk r c' str.length 1 = true :=
        hc'.countOk (by simp only [List.length_append]; omega) (by decide)
      simp only [hok, if_true, Int.toNat_natCast]
      refine ((hc'.allocate str.length).tods rfl rfl).bind ?_
      rintro ⟨bytes, c''⟩ ⟨rfl, hc''⟩
      refine (ih hc'').bind ?_
      rintro ⟨items, flow, c'''⟩ ⟨rfl, rfl, hend⟩
      refine .pure ⟨rfl, rfl, ?_⟩
      simpa only [List.map_cons, List.sum_cons, Nat.add_assoc] using hend

/-- A field without a nested message is read back, and the reader stops behind it. -/
theorem Kind.read_reading (k : Kind) (v old : k.Value) {name : List UInt8} {t : ℕ}
    (h : Reading r data n ((headerPieces name t).flatten ++ ((k.valuePieces v).flatten ++ rest)) c)
    (huncut : (n + 4) % ipcMsgMaxSize + name.length + k.unread < ipcMsgMaxSize) :
    Returns (k.read abi r old c) fun res =>
      res.1 = v ∧ res.2.1 = .next ∧
        Reading r data (n + (4 + name.length + 1 + k.valueSize v)) rest res.2.2 := by
  have hend : n + (4 + name.length + 1 + k.valueSize v)
      = n + 4 + name.length + 1 + k.valueSize v := by omega
  have hlt := h.length_lt
  rw [hend]
  cases k with
  | scalar s =>
      simp only [Kind.valuePieces, List.flatten_cons, List.flatten_nil, List.append_nil] at h
      refine (readHeader_reading h huncut).bind fun c₁ h₁ => ?_
      refine (h₁.tods (length_leBytes _ _).symm rfl).bind ?_
      rintro ⟨bytes, c₂⟩ ⟨rfl, h₂⟩
      exact .pure ⟨ofNat_leBytes v, rfl, by rwa [length_leBytes] at h₂⟩
  | bool =>
      simp only [Kind.valuePieces, List.flatten_cons, List.flatten_nil, List.append_nil] at h
      refine (readHeader_reading h huncut).bind fun c₁ h₁ => ?_
      refine (h₁.tods rfl rfl).bind ?_
      rintro ⟨bytes, c₂⟩ ⟨rfl, h₂⟩
      have hval : decide (leNat [boolByte v] ≠ 0) = v := by cases v <;> rfl
      exact .pure ⟨hval, rfl, h₂⟩
  | string =>
      simp only [Kind.valuePieces, List.flatten_cons, List.flatten_nil, List.append_nil,
        List.append_assoc] at h
      refine (readStringHeader_reading h huncut).bind fun c₁ h₁ => ?_
      have hlen := h₁.add_length
      rw [List.length_append, List.length_append] at hlen
      refine (h₁.int32 (by omega)).bind ?_
      rintro ⟨size, c₂⟩ ⟨rfl, h₂⟩
      have hok : todsCountOk r c₂ v.length 1 = true :=
        h₂.countOk (by rw [List.length_append]; omega) (by decide)
      simp only [hok, if_true, Int.toNat_natCast]
      refine ((h₂.allocate v.length).tods rfl rfl).bind ?_
      rintro ⟨bytes, c₃⟩ ⟨rfl, h₃⟩
      exact .pure ⟨rfl, rfl, by simpa only [Kind.valueSize, Nat.add_assoc] using h₃⟩
  | scalars s size =>
      have hitems := length_flatMap_const (fun item : s.Value => leBytes s.size item.toNat) s.size
        (fun _ => length_leBytes _ _) v.1
      have hsize := s.size_pos
      rw [flatten_scalars, List.append_assoc] at h
      refine (readHeader_reading h huncut).bind fun c₁ h₁ => ?_
      refine (readCount_reading h₁ ?_ hsize).bind ?_
      · rw [List.length_append, hitems]
        exact Nat.le_add_right _ _
      rintro ⟨count, flow, c₂⟩ ⟨rfl, rfl, h₂⟩
      have hlen := h₂.add_length
      rw [List.length_append, hitems] at hlen
      refine ((h₂.resize size _).items (m := n + 4 + name.length + 1 + (4 + v.length * s.size))
        (fun hv => by rw [Arr.eq_nil_of_length hv, List.flatMap_nil]) ?_ ?_).bind ?_
      · rw [hitems]
        apply u32_of_lt
        change v.1.length * s.size < _
        omega
      · rw [hitems]
        exact (Nat.add_assoc _ _ _).symm
      rintro ⟨bytes, c₃⟩ ⟨rfl, h₃⟩
      refine .pure ⟨?_, rfl, h₃⟩
      rw [hitems, Nat.mul_div_cancel _ hsize, ofBytes_flatMap, Arr.store_eq]
  | bools size =>
      rw [flatten_bools, List.append_assoc] at h
      refine (readHeader_reading h huncut).bind fun c₁ h₁ => ?_
      refine (readCount_reading h₁ ?_ (by decide)).bind ?_
      · rw [List.length_append, List.length_map, Nat.mul_one]
        exact Nat.le_add_right _ _
      rintro ⟨count, flow, c₂⟩ ⟨rfl, rfl, h₂⟩
      refine (((h₂.resize size _).allocate _).items
        (m := n + 4 + name.length + 1 + (4 + v.length))
        (fun hv => by rw [Arr.eq_nil_of_length hv, List.map_nil]) ?_ ?_).bind ?_
      · rw [List.length_map]
        rfl
      · rw [List.length_map]
        exact (Nat.add_assoc _ _ _).symm
      rintro ⟨bytes, c₃⟩ ⟨rfl, h₃⟩
      refine .pure ⟨?_, rfl, h₃⟩
      rw [map_boolByte, Arr.store_eq]
  | strings size =>
      rw [flatten_strings, List.append_assoc] at h
      refine (readHeader_reading h huncut).bind fun c₁ h₁ => ?_
      refine (readCount_reading h₁ ?_ (by decide)).bind ?_
      · rw [List.length_append]
        refine Nat.le_trans ?_ (Nat.le_add_right _ _)
        rw [Arr.length]
        induction v.1 with
        | nil => exact Nat.zero_le _
        | cons str strs ih =>
            simp only [List.flatMap_cons, List.length_append, List.length_cons, le32,
              length_leBytes] at ih ⊢
            omega
      rintro ⟨count, flow, c₂⟩ ⟨rfl, rfl, h₂⟩
      refine (readStrings_reading v.1 (h₂.resize size _)).bind ?_
      rintro ⟨strs, flow, c₃⟩ ⟨rfl, rfl, h₃⟩
      refine .pure ⟨Arr.store_eq _ _, rfl, ?_⟩
      simpa only [Kind.valueSize, Nat.add_assoc] using h₃

/-! ## Nested messages -/

/-- A region that starts with a serialized message carries that message's data. -/
theorem carries_of_append {msgId : ℕ} {pieces : List (List UInt8)} {sub : Region}
    {extra : List UInt8} (hfits : pieces.flatten.length / ipcMsgMaxSize + 1 < 2 ^ 16)
    (hbytes : sub.bytes = writeMessage msgId pieces.flatten.length pieces ++ extra)
    (hsize : sub.size = (writeMessage msgId pieces.flatten.length pieces).length) :
    Carries sub pieces.flatten := by
  refine ⟨messageTail msgId pieces.flatten.length,
    messageTail msgId pieces.flatten.length (pieces.flatten.length / ipcMsgMaxSize) ++ extra,
    fun _ => rfl, ?_, ?_⟩
  · rw [hbytes, writeMessage_eq msgId pieces hfits, List.append_assoc]
  · have hlt : pieces.flatten.length < 1460 * 65536 := by
      simp only [ipcMsgMaxSize] at hfits
      omega
    have hposition : position pieces.flatten.length + tailMsgSize < 2 ^ 32 := by
      rw [position_eq]
      simp only [tailMsgSize]
      omega
    refine Nat.le_of_eq ?_
    rw [Region.totalSize, hsize, length_writeMessage msgId pieces hfits, u32_of_lt hposition]

/-- The buffer made for a nested message starts with the message's bytes, and has their
size. -/
theorem nestedBuffer_reading {seg : List UInt8} (h : Reading r data n (seg ++ rest) c)
    (hpos : 0 < seg.length) :
    Returns (nestedBuffer r c seg.length) fun res =>
      (∃ extra, res.1.bytes = seg ++ extra) ∧ res.1.size = seg.length ∧
        Reading r data (n + seg.length) rest res.2 := by
  have hlen := h.add_length
  have hlt := h.length_lt
  rw [List.length_append] at hlen
  have htoU32 : toU32 seg.length = seg.length := toU32_natCast (by omega)
  have hpure : toPureOffset c.offset = n := by
    rw [h.offset]
    exact toPureOffset_position n
  unfold nestedBuffer
  refine .ite (fun hcontiguous => ?_) (fun _ => .ite (fun hneg => by omega) (fun _ => ?_))
  · have hwithin : n % ipcMsgMaxSize + seg.length < ipcMsgMaxSize := by
      rw [htoU32, regionIsContiguous, hpure, decide_eq_true_eq, u32_of_lt] at hcontiguous
      · exact hcontiguous
      · have := Nat.mod_lt n (show ipcMsgMaxSize > 0 by decide)
        simp only [ipcMsgMaxSize] at this ⊢
        omega
    have hplace := position_add_of_within hwithin
    obtain ⟨tail, extra, htail, hbytes, _⟩ := h.carries
    refine .pure ⟨⟨weave ipcMsgMaxSize tail (n + seg.length) rest ++ extra, ?_⟩, ?_, ?_⟩
    · change r.bytes.drop c.offset = _
      rw [hbytes, h.offset, position, drop_weave htail (by decide) extra h.ahead h.within,
        weave_append, weave_within hwithin, List.append_assoc]
    · simp only [toSizeT]
      omega
    · refine h.seek rfl ?_ rfl
      have hoffset := h.offset
      have hposition : position n < 2 ^ 31 := by
        rw [position_eq]
        omega
      simp only [Cursor.advance, toU32]
      omega
  · refine ((h.allocate _).items (m := n + seg.length) (fun hzero => by omega) rfl rfl).bind ?_
    rintro ⟨bytes, c'⟩ ⟨rfl, hc'⟩
    exact .pure ⟨⟨[], (List.append_nil _).symm⟩, rfl, hc'⟩

/-- One nested message is read back, given that its own deserializer does so on every
buffer that starts with it. -/
theorem readNested_reading {α : Type} {deserialize : Region → α → Except Fault (Outcome α)}
    {old v : α} {pieces : List (List UInt8)}
    (h : Reading r data n
      ((nestedPieces (writeMessage 0 pieces.flatten.length pieces)).flatten ++ rest) c)
    (hdeser : pieces.flatten.length / ipcMsgMaxSize + 1 < 2 ^ 16 →
      ∀ sub, Carries sub pieces.flatten → Returns (deserialize sub old) fun out => out.value = v) :
    Returns (readNested r deserialize old c) fun res =>
      res.1 = v ∧
        Reading r data (n + (4 + (writeMessage 0 pieces.flatten.length pieces).length)) rest
          res.2 := by
  have hlen := h.add_length
  have hlt := h.length_lt
  have hsmall := h.small
  have hinner := length_le_writeMessage 0 pieces.flatten.length pieces
  rw [List.length_append, length_nestedPieces] at hlen
  have hfits : pieces.flatten.length / ipcMsgMaxSize + 1 < 2 ^ 16 := by
    have : pieces.flatten.length / ipcMsgMaxSize ≤ data.length / ipcMsgMaxSize :=
      Nat.div_le_div_right (by omega)
    omega
  have hpos : 0 < (writeMessage 0 pieces.flatten.length pieces).length := by
    rw [length_writeMessage 0 pieces hfits]
    exact Nat.lt_of_lt_of_le (by decide) (Nat.le_add_left _ _)
  rw [flatten_nestedPieces, List.append_assoc] at h
  refine (h.int32 (by omega)).bind ?_
  rintro ⟨size, c₁⟩ ⟨rfl, h₁⟩
  refine (nestedBuffer_reading h₁ hpos).bind ?_
  rintro ⟨sub, c₂⟩ ⟨⟨extra, hbytes⟩, hsize, h₂⟩
  refine (hdeser hfits sub (carries_of_append hfits hbytes hsize)).bind fun out hout => ?_
  refine .pure ⟨hout, ?_⟩
  rw [← Nat.add_assoc]
  exact h₂.allocate _

/-- The elements of an array of nested messages. -/
theorem readElems_reading {α : Type} {deserialize : Region → α → Except Fault (Outcome α)}
    (body : α → List (List UInt8)) (items : List α)
    (hdeser : ∀ v ∈ items, ∀ old, (body v).flatten.length / ipcMsgMaxSize + 1 < 2 ^ 16 →
      ∀ sub, Carries sub (body v).flatten →
        Returns (deserialize sub old) fun out => out.value = v) :
    ∀ {olds : List α} {n : ℕ} {c : Cursor}, olds.length = items.length →
      Reading r data n
        (((items.map fun v => writeMessage 0 (body v).flatten.length (body v)).flatMap
          nestedPieces).flatten ++ rest) c →
      Returns (readElems r deserialize olds c) fun res =>
        res.1 = items ∧
          Reading r data (n + ((items.map fun v => writeMessage 0 (body v).flatten.length
            (body v)).map fun bytes => 4 + bytes.length).sum) rest res.2 := by
  induction items with
  | nil =>
      intro olds n c holds h
      obtain rfl := List.length_eq_zero_iff.mp holds
      exact .pure ⟨rfl, h⟩
  | cons v items ih =>
      intro olds n c holds h
      obtain ⟨old, olds, rfl⟩ : ∃ old olds', olds = old :: olds' :=
        List.exists_cons_of_length_eq_add_one holds
      simp only [List.length_cons, Nat.add_right_cancel_iff] at holds
      simp only [List.map_cons, List.flatMap_cons, List.flatten_append, List.append_assoc] at h
      refine (readNested_reading h (hdeser v List.mem_cons_self old)).bind ?_
      rintro ⟨item, c₁⟩ ⟨rfl, h₁⟩
      refine (ih (fun v hv => hdeser v (List.mem_cons_of_mem _ hv)) holds h₁).bind ?_
      rintro ⟨rest', c₂⟩ ⟨rfl, h₂⟩
      refine .pure ⟨rfl, ?_⟩
      simpa only [List.map_cons, List.sum_cons, Nat.add_assoc] using h₂

end Fields

/-! ## Whole messages -/

/-- No field of the message, at any depth, has a name whose bytes, with those skipped
along with it, reach the end of their page.  The message's fields start at data byte `n`
of their buffer. -/
def Schema.NamesUncut : (S : Schema) → S.Value → ℕ → Prop
  | nil, _, _ => True
  | field name kind rest, v, n =>
      (n + 4) % ipcMsgMaxSize + name.length + kind.unread < ipcMsgMaxSize ∧
        rest.NamesUncut v.2 (n + (4 + name.length + 1 + kind.valueSize v.1))
  | nested name msg rest, v, n =>
      (n + 4) % ipcMsgMaxSize + name.length + 1 < ipcMsgMaxSize ∧
        msg.NamesUncut v.1 0 ∧
          rest.NamesUncut v.2 (n + (4 + name.length + 1 + (4 + (msg.serialize 0 v.1).length)))
  | nestedArray name _ msg rest, v, n =>
      (n + 4) % ipcMsgMaxSize + name.length + 1 < ipcMsgMaxSize ∧
        (∀ item ∈ v.1.1, msg.NamesUncut item 0) ∧
          rest.NamesUncut v.2 (n + (4 + name.length + 1
            + (4 + (v.1.1.map fun item => 4 + (msg.serialize 0 item).length).sum)))

instance Schema.decNamesUncut : (S : Schema) → (v : S.Value) → (n : ℕ) →
    Decidable (S.NamesUncut v n)
  | nil, _, _ => inferInstanceAs (Decidable True)
  | field _ _ rest, v, _ =>
      have := rest.decNamesUncut v.2
      inferInstanceAs (Decidable (_ ∧ _))
  | nested _ msg rest, v, _ =>
      have := msg.decNamesUncut v.1 0
      have := rest.decNamesUncut v.2
      inferInstanceAs (Decidable (_ ∧ _ ∧ _))
  | nestedArray _ _ msg rest, v, _ =>
      have := fun item => msg.decNamesUncut item 0
      have := rest.decNamesUncut v.2
      inferInstanceAs (Decidable (_ ∧ _ ∧ _))

/-- The class serializes a message as its fields' copies. -/
theorem serialize_eq_writeMessage (S : Schema) (msgId : ℕ) (v : S.Value) :
    S.serialize msgId v = writeMessage msgId (S.body v).1.flatten.length (S.body v).1 := by
  rw [Schema.serialize, ← length_data]
  rfl

/-- The code generated for the fields of `S` reads every value of `S` back from where it
was laid, and stops behind it. -/
def FieldsReadBack (abi : Abi) (S : Schema) : Prop :=
  ∀ (v old : S.Value) {r : Region} {data rest : List UInt8} {n : ℕ} {c : Cursor},
    Reading r data n (S.data v ++ rest) c → S.NamesUncut v n →
    Returns (S.readFields abi r old c) fun res =>
      res.1 = v ∧ res.2.1 = .next ∧ Reading r data (n + (S.body v).2) rest res.2.2

/-- Then `deserialize` reads it back from every buffer that starts with it. -/
theorem FieldsReadBack.deserialize {abi : Abi} {S : Schema} (hfields : FieldsReadBack abi S)
    (v old : S.Value) (huncut : S.NamesUncut v 0)
    (hfits : (S.data v).length / ipcMsgMaxSize + 1 < 2 ^ 16) {r : Region}
    (hr : Carries r (S.data v)) :
    Returns (S.deserialize abi r old) fun out => out.value = v ∧ out.overflow = false := by
  have hstart : Reading r (S.data v) 0 (S.data v ++ []) .start :=
    { carries := hr
      small := hfits
      within := Nat.zero_le _
      ahead := (List.append_nil _).symm
      offset := rfl
      overflow := rfl }
  refine (hfields v old hstart huncut).map ?_
  rintro ⟨w, flow, c⟩ ⟨rfl, -, hend⟩
  exact ⟨rfl, hend.overflow⟩

/-- The induction over the schema. -/
theorem fieldsReadBack (abi : Abi) (S : Schema) : FieldsReadBack abi S := by
  induction S with
  | nil =>
      intro v old r data rest n c h _
      exact .pure ⟨rfl, rfl, h⟩
  | field name kind tl ih =>
      intro v old r data rest n c h huncut
      simp only [Schema.data, Schema.body, List.flatten_append, List.append_assoc] at h
      refine (kind.read_reading v.1 old.1 h huncut.1).bind ?_
      rintro ⟨w, flow, c₁⟩ ⟨rfl, rfl, h₁⟩
      refine (ih v.2 old.2 h₁ huncut.2).bind ?_
      rintro ⟨ws, flow, c₂⟩ ⟨rfl, rfl, h₂⟩
      refine .pure ⟨rfl, rfl, ?_⟩
      simpa only [Schema.body, Nat.add_assoc] using h₂
  | nested name msg tl ihMsg ih =>
      intro v old r data rest n c h huncut
      obtain ⟨hname, hmsg, htl⟩ := huncut
      have hserialized := serialize_eq_writeMessage msg 0 v.1
      simp only [Schema.data, Schema.body, List.flatten_append, List.append_assoc] at h
      rw [← Schema.serialize, hserialized] at h
      refine (readHeader_reading h hname).bind fun c₁ h₁ => ?_
      refine (readNested_reading h₁ fun hfits sub hsub =>
        (ihMsg.deserialize v.1 old.1 hmsg hfits hsub).mono fun _ hout => hout.1).bind ?_
      rintro ⟨w, c₂⟩ ⟨rfl, h₂⟩
      rw [← hserialized] at h₂
      refine (ih v.2 old.2 (by simpa only [Schema.data, Nat.add_assoc] using h₂)
        (by simpa only [Nat.add_assoc] using htl)).bind ?_
      rintro ⟨ws, flow, c₃⟩ ⟨rfl, rfl, h₃⟩
      refine .pure ⟨rfl, rfl, ?_⟩
      simpa only [Schema.body, Schema.serialize, Nat.add_assoc] using h₃
  | nestedArray name size msg tl ihMsg ih =>
      intro v old r data rest n c h huncut
      obtain ⟨hname, hitems, htl⟩ := huncut
      have hserialized : (fun item => writeMessage 0 (msg.body item).2 (msg.body item).1)
          = fun item => writeMessage 0 (msg.body item).1.flatten.length (msg.body item).1 :=
        funext fun item => serialize_eq_writeMessage msg 0 item
      simp only [Schema.data, Schema.body, List.flatten_append, List.flatten_cons,
        List.append_assoc, List.length_map, hserialized] at h
      refine (readHeader_reading h hname).bind fun c₁ h₁ => ?_
      refine (readCount_reading (v := v.1) h₁ ?_ (by decide)).bind ?_
      · rw [List.length_append, length_flatMap_nestedPieces]
        refine Nat.le_trans ?_ (Nat.le_add_right _ _)
        rw [Arr.length]
        induction v.1.1 with
        | nil => exact Nat.zero_le _
        | cons item items ih =>
            simp only [List.map_cons, List.sum_cons, List.length_cons] at ih ⊢
            omega
      rintro ⟨count, flow, c₂⟩ ⟨rfl, rfl, h₂⟩
      have holds : (old.1.resized msg.default v.1.length).length = v.1.1.length := by
        cases size with
        | none => exact List.length_replicate
        | some m => exact (old.1.2 m rfl).trans (v.1.2 m rfl).symm
      refine (readElems_reading (fun item => (msg.body item).1) v.1.1
        (fun item hitem o hfits sub hsub =>
          (ihMsg.deserialize item o (hitems item hitem) hfits hsub).mono fun _ hout => hout.1)
        holds (h₂.resize size _)).bind ?_
      rintro ⟨items, c₃⟩ ⟨rfl, h₃⟩
      rw [← hserialized, List.map_map] at h₃
      refine (ih v.2 old.2 (by simpa only [Schema.data, Nat.add_assoc] using h₃)
        (by simpa only [Schema.serialize, Function.comp_def, Nat.add_assoc] using htl)).bind ?_
      rintro ⟨ws, flow, c₄⟩ ⟨rfl, rfl, h₄⟩
      refine .pure ⟨Prod.ext (Arr.store_eq _ _) rfl, rfl, ?_⟩
      simpa only [Schema.body, List.map_map, Nat.add_assoc] using h₄

/-- `deserialize`, run on what `serialize` makes of `v`, gives `v` back and reports no
overflow. -/
def Schema.RoundTrips (abi : Abi) (S : Schema) (msgId : ℕ) (v old : S.Value) : Prop :=
  Returns (S.deserialize abi (Region.whole (S.serialize msgId v)) old) fun out =>
    out.value = v ∧ out.deserializeOk = true

instance (abi : Abi) (S : Schema) (msgId : ℕ) (v old : S.Value) :
    Decidable (S.RoundTrips abi msgId v old) :=
  inferInstanceAs (Decidable (Returns _ _))

/-- **The round trip.**  Where no field name reaches the end of its page, the generated
`deserialize` gives back the value from which `serialize` made the buffer, whatever the
message held before, and `deserialize_ok()` is true. -/
theorem roundTrip_of_namesUncut (abi : Abi) (S : Schema) (msgId : ℕ) (v old : S.Value)
    (hfits : S.Fits v) (huncut : S.NamesUncut v 0) : S.RoundTrips abi msgId v old := by
  have hpages : (S.data v).length / ipcMsgMaxSize + 1 < 2 ^ 16 := by
    rw [length_data]
    exact hfits
  have hr : Carries (Region.whole (S.serialize msgId v)) (S.data v) := by
    rw [serialize_eq_writeMessage]
    exact carries_of_append hpages (List.append_nil _).symm rfl
  refine ((fieldsReadBack abi S).deserialize v old huncut hpages hr).mono fun out hout => ?_
  exact ⟨hout.1, by rw [Outcome.deserializeOk, hout.2]; rfl⟩

/-- A message `a` with a name string and an array of samples, in a message that counts
them. -/
def sampleSchema : Schema :=
  .field [110] (.scalar .uint16)
    (.nested [97] (.field [115] .string (.field [120] (.scalars .float32 none) .nil)) .nil)

def sampleValue : sampleSchema.Value :=
  (2, (([104, 105], (⟨[1, 2], fun _ h => nomatch h⟩, ())), ()))

theorem roundTrip_sample :
    sampleSchema.Fits sampleValue ∧ sampleSchema.NamesUncut sampleValue 0 ∧
      sampleSchema.RoundTrips ⟨32, fun _ => 8⟩ 7 sampleValue sampleSchema.default :=
  have hfits : sampleSchema.Fits sampleValue := by decide +kernel
  have huncut : sampleSchema.NamesUncut sampleValue 0 := by decide +kernel
  ⟨hfits, huncut, roundTrip_of_namesUncut _ _ _ _ _ hfits huncut⟩

/-- An array `a` of bytes and a flag `b` behind it. -/
def crossingSchema : Schema :=
  .field [97] (.scalars .uint8 none) (.field [98] .bool .nil)

/-- With 1445 elements the name of `b` is the last byte of its page. -/
def crossingValue : crossingSchema.Value :=
  (⟨List.replicate 1445 0, fun _ h => nomatch h⟩, (false, ()))

/-- The flag is read from the page tail: it comes back `true`, and nothing is reported. -/
theorem crossing_not_roundTrip :
    crossingSchema.Fits crossingValue ∧
      ¬ crossingSchema.RoundTrips ⟨32, fun _ => 8⟩ 7 crossingValue crossingSchema.default := by
  decide +kernel

end DzIpc.Wire
