import DzIpc.Library.Following
import DzIpc.TopicCat.MsgTypeIdentify
import DzIpc.Wire.Deframe
import DzIpc.Wire.Safety

/-!
# What a buffer says to the echo tool

The data bytes of a buffer are those that do not stand in a page tail.  `textOf` reads them as
fields, with a check before every length, and gives the text or the reason why there is none.  It
knows no pages and no offsets: it is the meaning that `msg_to_string` is compared with.

* `readInto_follows`: the paged reader takes the next data bytes where there are enough, and reads
  outside of the buffer where there are not.
* The other readers, each with what it allocates.
-/

namespace DzIpc.TopicCat

open Wire Weave

/-! ## The data bytes of a buffer -/

/-- The number of data bytes in a buffer of `n` bytes. -/
def dataLength (n : ℕ) : ℕ := n / 1472 * 1460 + min (n % 1472) 1460

/-- The data bytes of a buffer. -/
def dataOf (buffer : List UInt8) : List UInt8 := dataBytes buffer (dataLength buffer.length) 0

@[simp] theorem length_dataOf (buffer : List UInt8) :
    (dataOf buffer).length = dataLength buffer.length := by
  rw [dataOf, length_dataBytes, Nat.sub_zero]

theorem dataLength_le (n : ℕ) : dataLength n ≤ n := by
  unfold dataLength
  omega

/-- A data byte is in the buffer if its position is. -/
theorem position_lt_iff {p n : ℕ} : position p < n ↔ p < dataLength n := by
  rw [position_eq, dataLength]
  omega

theorem getElem_dataOf {buffer : List UInt8} {p : ℕ} (hp : p < (dataOf buffer).length) :
    (dataOf buffer)[p] = buffer.getD (position p) 0 := by
  simp [dataOf, dataBytes]

/-! ## Reading them as fields -/

/-- Why a buffer has no text. -/
inductive Misfit where
  /-- A length announces more bytes than there are. -/
  | cut
  /-- A count is negative, or a type is unknown. -/
  | thrown
  /-- The messages are nested more deeply than allowed for. -/
  | tooDeep
  /-- The size of an array does not fit the 32 bits of `total_size`. -/
  | overflow
  deriving DecidableEq, Repr

/-- The next `len` bytes, and what follows. -/
def takeBytes (s : List UInt8) (len : ℕ) : Except Misfit (List UInt8 × List UInt8) :=
  if len ≤ s.length then .ok (s.take len, s.drop len) else .error .cut

def takeInt32 (s : List UInt8) : Except Misfit (ℤ × List UInt8) := do
  let (bytes, s) ← takeBytes s 4
  return (i32 (leNat bytes), s)

/-- A string; a negative length is none. -/
def takeString (s : List UInt8) : Except Misfit (Text × List UInt8) := do
  let (size, s) ← takeInt32 s
  takeBytes s size.toNat

/-- As many elements of `width` bytes as a count says. -/
def takeItems (s : List UInt8) (width : ℕ) (count : ℤ) :
    Except Misfit (List (BitVec (8 * width)) × List UInt8) :=
  if count < 0 then .error .thrown
  else if count.toNat * width < 2 ^ 31 then do
    let (bytes, s) ← takeBytes s (count.toNat * width)
    return (ofBytes width count.toNat bytes, s)
  else .error .overflow

def takeStrings : ℕ → List UInt8 → Except Misfit (List Text × List UInt8)
  | 0, s => return ([], s)
  | count + 1, s => do
      let (str, s) ← takeString s
      let (strs, s) ← takeStrings count s
      return (str :: strs, s)

/-- A field without a nested message. -/
def plainText (floats : FloatText) (name : Text) (s : List UInt8) :
    PlainType → Except Misfit (Text × List UInt8)
  | .bool => do
      let (bytes, s) ← takeBytes s 1
      return (line name (boolText (decide (leNat bytes = 1))), s)
  | .scalar t => do
      let (bytes, s) ← takeBytes s t.size
      return (line name (scalarText floats t (BitVec.ofNat _ (leNat bytes))), s)
  | .string => do
      let (value, s) ← takeString s
      return (line name value, s)
  | .boolArray => do
      let (count, s) ← takeInt32 s
      let (items, s) ← takeItems s 1 count
      return (arrayLine name ((items.map fun b => decide (b ≠ 0)).map boolText), s)
  | .scalarArray t => do
      let (count, s) ← takeInt32 s
      let (items, s) ← takeItems s t.size count
      return (arrayLine name (items.map (scalarText floats t)), s)
  | .stringArray => do
      let (count, s) ← takeInt32 s
      if count < 0 then .error .thrown
      else
        let (strs, s) ← takeStrings count.toNat s
        return (arrayLine name (strs.map quoted), s)

/-- The bytes of a nested message. -/
def takeMessage (s : List UInt8) (size : ℤ) : Except Misfit (List UInt8 × List UInt8) :=
  if size < 0 then .error .thrown else takeBytes s size.toNat

section

variable (floats : FloatText) (textOf : List UInt8 → Except Misfit Text)

/-- A nested message: a size and that many bytes, which are a buffer of their own. -/
def nestedText (s : List UInt8) (indent : Text) : Except Misfit (Text × List UInt8) := do
  let (size, s) ← takeInt32 s
  let (nested, s) ← takeMessage s size
  let text ← textOf nested
  return (indentLines text indent, s)

/-- The elements of an array of nested messages. -/
def elementsText : ℕ → List UInt8 → Except Misfit (Text × List UInt8)
  | 0, s => return ([], s)
  | count + 1, s => do
      let (lines, s) ← nestedText textOf s elementIndent
      let (rest, s) ← elementsText count s
      return (dashLine ++ lines ++ rest, s)

/-- A field. -/
def fieldText (s : List UInt8) : Except Misfit (Text × List UInt8) := do
  let (name, s) ← takeString s
  let (typeByte, s) ← takeBytes s 1
  match msgType (leNat typeByte) with
  | some (.plain t) => plainText floats name s t
  | some .nested => do
      let (lines, s) ← nestedText textOf s nestedIndent
      return (nestedLine name ++ lines, s)
  | some .nestedArray => do
      let (count, s) ← takeInt32 s
      let (items, s) ← elementsText textOf count.toNat s
      return (nestedArrayLine name ++ items ++ closeLine, s)
  | none => .error .thrown

/-- The fields end where no more than a tail is left of the buffer. -/
def Ended (buffer s : List UInt8) : Prop :=
  buffer.length ≤ position ((dataOf buffer).length - s.length) + tailMsgSize

instance (buffer s : List UInt8) : Decidable (Ended buffer s) := inferInstanceAs (Decidable (_ ≤ _))

/-- The fields of a buffer.  A field takes five bytes at least, so the rounds are no bound as soon as
they are more than the bytes. -/
def fieldsText (buffer : List UInt8) : ℕ → List UInt8 → Except Misfit Text
  | 0, _ => .error .cut
  | rounds + 1, s =>
      if Ended buffer s then return []
      else do
        let (text, s) ← fieldText floats textOf s
        let rest ← fieldsText buffer rounds s
        return text ++ rest

end

/-- The text of a buffer whose messages are nested in fewer than `depth` levels. -/
def textOf (floats : FloatText) : ℕ → List UInt8 → Except Misfit Text
  | 0, _ => .error .tooDeep
  | depth + 1, buffer =>
      if buffer = [] then return []
      else fieldsText floats (textOf floats depth) buffer (buffer.length + 1) (dataOf buffer)

/-! ## The paged reader on the data bytes -/

/-- A bound on what is allocated when the decoder stops. -/
def Stops (limit : ℕ) : Misfit → Stop → Prop
  | .cut, .outOfBounds => True
  | .thrown, .thrown _ allocated => allocated ≤ limit
  | _, _ => False

/-- Reasons that say nothing about the decoder. -/
def Silent : Misfit → Prop
  | .tooDeep | .overflow => True
  | _ => False

/-- The reader stands in front of the data bytes `s` of the buffer. -/
def Ahead (buffer s : List UInt8) (c : Reader) : Prop :=
  ∃ past, past ++ s = dataOf buffer ∧ c.offset = position past.length

variable {buffer : List UInt8}

theorem Ahead.allocate {s : List UInt8} {c : Reader} (h : Ahead buffer s c) (size : ℕ) :
    Ahead buffer s (c.allocate size) := h

theorem Ahead.length_le {s : List UInt8} {c : Reader} (h : Ahead buffer s c) :
    s.length ≤ buffer.length := by
  obtain ⟨past, hdata, -⟩ := h
  have hlen := congrArg List.length hdata
  rw [List.length_append, length_dataOf] at hlen
  have := dataLength_le buffer.length
  omega

/-- Within a page, the data bytes stand next to each other. -/
theorem copy_data {past s : List UInt8} {len : ℕ} (hdata : past ++ s = dataOf buffer)
    (hpage : past.length % ipcMsgMaxSize + len ≤ ipcMsgMaxSize) (hpos : 0 < len) :
    copy buffer (position past.length) len
      = if len ≤ s.length then .ok (s.take len) else .error .outOfBounds := by
  have hlen := congrArg List.length hdata
  rw [List.length_append, length_dataOf] at hlen
  have hlast : position (past.length + (len - 1)) = position past.length + (len - 1) :=
    position_add_of_within (by omega)
  have hinside : position past.length + len ≤ buffer.length ↔ len ≤ s.length := by
    have hlt := position_lt_iff (p := past.length + (len - 1)) (n := buffer.length)
    omega
  unfold copy
  by_cases hle : len ≤ s.length
  · rw [if_pos (Or.inr (hinside.mpr hle)), if_pos hle]
    congr 1
    have hroom := hinside.mpr hle
    apply List.ext_getElem
    · rw [List.length_take, List.length_drop, List.length_take]
      omega
    · intro i hi hi'
      rw [List.length_take] at hi'
      have hplace : position (past.length + i) = position past.length + i :=
        position_add_of_within (by omega)
      have hin : past.length + i < (dataOf buffer).length := by
        rw [length_dataOf]
        omega
      have hget : s[i] = (dataOf buffer)[past.length + i] := by
        simp only [← hdata, List.getElem_append_right (Nat.le_add_right _ _),
          Nat.add_sub_cancel_left]
      rw [List.getElem_take, List.getElem_drop, List.getElem_take, hget, getElem_dataOf, hplace,
        List.getD_eq_getElem]
  · rw [if_neg hle, if_neg]
    rintro (hzero | hroom)
    · omega
    · exact hle (hinside.mp hroom)

/-- Bytes taken in two steps. -/
theorem takeBytes_add (s : List UInt8) (m n : ℕ) :
    takeBytes s (m + n) = do
      let (front, s) ← takeBytes s m
      let (back, s) ← takeBytes s n
      return (front ++ back, s) := by
  by_cases hm : m ≤ s.length
  · rw [takeBytes.eq_1 s m, if_pos hm]
    change takeBytes s (m + n) = takeBytes (s.drop m) n >>= _
    by_cases hn : n ≤ (s.drop m).length
    · have hsum : m + n ≤ s.length := by
        rw [List.length_drop] at hn
        omega
      rw [takeBytes, if_pos hsum, takeBytes, if_pos hn, List.take_add, ← List.drop_drop]
      rfl
    · have hsum : ¬ m + n ≤ s.length := by
        rw [List.length_drop] at hn
        omega
      rw [takeBytes, if_neg hsum, takeBytes, if_neg hn]
      rfl
  · have hsum : ¬ m + n ≤ s.length := by omega
    rw [takeBytes, if_neg hsum, takeBytes, if_neg hm]
    rfl

/-- The state behind a read: the bytes taken are returned, nothing is allocated. -/
def Took (buffer s : List UInt8) (c : Reader) (len : ℕ) (res : List UInt8 × Reader)
    (res' : List UInt8 × List UInt8) : Prop :=
  res.1 = res'.1 ∧ Ahead buffer res'.2 res.2 ∧ res.2.allocated = c.allocated ∧
    res'.1.length = len ∧ res'.2.length + len = s.length

/-- A copy inside one page, and a step over the page's tail if the page is at its end. -/
private theorem copy_follows (hsmall : buffer.length < 2 ^ 31) (limit : ℕ) {past s : List UInt8}
    {c : Reader} {len step : ℕ} (hdata : past ++ s = dataOf buffer)
    (hoffset : c.offset = position past.length)
    (hpage : past.length % ipcMsgMaxSize + len ≤ ipcMsgMaxSize) (hpos : 0 < len)
    (hstep : position (past.length + len) = position past.length + step) :
    Follows (Stops limit) Silent
      (fun bytes res => bytes = res.1 ∧ res.1.length = len ∧ res.2.length + len = s.length ∧
        (past ++ res.1) ++ res.2 = dataOf buffer ∧
        (c.skip step).offset = position (past ++ res.1).length)
      (copy buffer c.offset len) (takeBytes s len) := by
  have hlen := congrArg List.length hdata
  rw [List.length_append, length_dataOf] at hlen
  have hle := dataLength_le buffer.length
  rw [hoffset, copy_data hdata hpage hpos, takeBytes]
  by_cases hroom : len ≤ s.length
  · rw [if_pos hroom, if_pos hroom]
    have htake : (s.take len).length = len := List.length_take_of_le hroom
    refine .ok ⟨rfl, htake, ?_, ?_, ?_⟩
    · rw [List.length_drop]
      omega
    · rw [List.append_assoc, List.take_append_drop, hdata]
    · have hposition : position (past.length + len) < 2 ^ 32 := by
        rw [position_eq]
        omega
      rw [List.length_append, htake, hstep]
      change u32 (c.offset + step) = _
      rw [hoffset, u32_of_lt (by omega)]
  · rw [if_neg hroom, if_neg hroom]
    exact .error trivial

/-- The loop takes the next data bytes, wherever the pages end. -/
private theorem copyLoop_follows (hsmall : buffer.length < 2 ^ 31) (limit cutCnt : ℕ) :
    ∀ {past s : List UInt8} {c : Reader} {left : ℕ}, past ++ s = dataOf buffer →
      c.offset = position past.length → left < 2 ^ 31 →
      cutCnt = cuts ipcMsgMaxSize past.length left →
      Follows (Stops limit) Silent (Took buffer s c left)
        (copyLoop buffer cutCnt c past.length left) (takeBytes s left) := by
  induction cutCnt with
  | zero =>
      intro past s c left hdata hoffset _ hcuts
      have hwithin : past.length % ipcMsgMaxSize + left < ipcMsgMaxSize := by
        by_contra hge
        have := cuts_of_block (B := ipcMsgMaxSize) (by decide) (Nat.not_lt.mp hge)
        omega
      by_cases hpos : left > 0
      · rw [copyLoop, if_pos hpos, ← bind_pure (takeBytes s left)]
        refine (copy_follows hsmall limit hdata hoffset (Nat.le_of_lt hwithin) hpos
          (position_add_of_within hwithin)).bind ?_
        rintro bytes ⟨bytes', s'⟩ ⟨rfl, hlen, hrest, hahead, hskip⟩
        exact .pure ⟨rfl, ⟨_, hahead, hskip⟩, rfl, hlen, hrest⟩
      · obtain rfl : left = 0 := by omega
        rw [copyLoop, if_neg hpos]
        exact .ok ⟨rfl, ⟨past, hdata, hoffset⟩, rfl, rfl, rfl⟩
  | succ cutCnt ih =>
      intro past s c left hdata hoffset hleft hcuts
      have hmod : past.length % ipcMsgMaxSize < ipcMsgMaxSize := Nat.mod_lt _ (by decide)
      have hge : ipcMsgMaxSize ≤ past.length % ipcMsgMaxSize + left := by
        by_contra hlt
        have := cuts_eq_zero (Nat.not_le.mp hlt)
        omega
      have hblock := cuts_of_block (B := ipcMsgMaxSize) (by decide) hge
      -- the bytes up to the end of the current page
      obtain ⟨n, hn⟩ : ∃ n, n = ipcMsgMaxSize - past.length % ipcMsgMaxSize := ⟨_, rfl⟩
      rw [← hn] at hblock
      have hmin : min n left = n := Nat.min_eq_left (by omega)
      have hsplit : left = n + (left - n) := by omega
      rw [hsplit, takeBytes_add, ← hsplit]
      have hplace : position (past.length + n) = position past.length + (n + tailMsgSize) := by
        rw [position_add_of_block (by omega), Nat.add_assoc]
      simp only [copyLoop, ← hn, hmin]
      refine (copy_follows hsmall limit hdata hoffset (by omega) (by omega) hplace).bind ?_
      rintro bytes ⟨bytes', s'⟩ ⟨rfl, hlen, hrest, hahead, hskip⟩
      dsimp only at hlen hrest hahead hskip
      have hpure : u32 (past.length + n) = (past ++ bytes).length := by
        have hall := congrArg List.length hahead
        rw [List.length_append, length_dataOf] at hall
        have := dataLength_le buffer.length
        rw [List.length_append] at hall ⊢
        rw [u32_of_lt (by omega)]
        omega
      rw [hpure]
      refine (ih hahead hskip (by omega) (by rw [List.length_append, hlen]; omega)).bind ?_
      rintro ⟨rest, c'⟩ ⟨rest', s''⟩ ⟨rfl, hahead', halloc, hlen', hrest'⟩
      dsimp only at hlen' hrest'
      refine .pure ⟨rfl, hahead', halloc, ?_, ?_⟩
      · rw [List.length_append, hlen, hlen']
        exact hsplit.symm
      · dsimp only
        omega

/-- **The paged reader.**  In front of the data bytes `s` it takes the next `len` of them, and reads
outside of the buffer if there are fewer. -/
theorem readInto_follows (hsmall : buffer.length < 2 ^ 31) (limit : ℕ) {s : List UInt8}
    {c : Reader} (h : Ahead buffer s c) {len : ℕ} (hlen : len < 2 ^ 31) :
    Follows (Stops limit) Silent (Took buffer s c len) (readInto buffer c len)
      (takeBytes s len) := by
  obtain ⟨past, hdata, hoffset⟩ := h
  have hall := congrArg List.length hdata
  rw [List.length_append, length_dataOf] at hall
  have hle := dataLength_le buffer.length
  have hpure : toPureOffset c.offset = past.length := by
    rw [hoffset]
    exact toPureOffset_position _
  unfold readInto
  rw [hpure]
  exact copyLoop_follows hsmall limit _ hdata hoffset hlen (cutCnt_eq (by omega))

/-! ## The readers -/

section

variable (hsmall : buffer.length < 2 ^ 31) (limit : ℕ) {s : List UInt8} {c : Reader}
include hsmall

/-- What is behind a reader whose result takes `size` data bytes and costs `cost` bytes. -/
structure Reads {α : Type} (buffer s : List UInt8) (c : Reader) (cost size : α → ℕ)
    (res : α × Reader) (res' : α × List UInt8) : Prop where
  same : res.1 = res'.1
  ahead : Ahead buffer res'.2 res.2
  allocated : res.2.allocated = c.allocated + cost res'.1
  length : res'.2.length + size res'.1 = s.length

theorem readInt32_follows (h : Ahead buffer s c) :
    Follows (Stops limit) Silent
      (fun res res' => Reads buffer s c (fun _ => 0) (fun _ => 4) res res' ∧ res'.1 < 2 ^ 31)
      (readInt32FromBuffer buffer c) (takeInt32 s) := by
  refine (readInto_follows hsmall limit h (by decide)).bind ?_
  rintro ⟨bytes, c'⟩ ⟨bytes', s'⟩ ⟨rfl, hahead, halloc, -, hrest⟩
  refine .pure ⟨⟨rfl, hahead, halloc, hrest⟩, ?_⟩
  dsimp only
  exact i32_lt (leNat bytes)

theorem readString_follows (h : Ahead buffer s c) :
    Follows (Stops limit) Silent
      (Reads buffer s c List.length fun str => 4 + str.length)
      (readStringFromBuffer buffer c) (takeString s) := by
  refine (readInt32_follows hsmall limit h).bind ?_
  rintro ⟨size, c₁⟩ ⟨size', s₁⟩ ⟨⟨rfl, hahead, halloc, hlen⟩, hlt⟩
  dsimp only at hahead halloc hlen hlt ⊢
  by_cases hpos : size > 0
  · rw [if_pos hpos]
    refine (readInto_follows hsmall limit (hahead.allocate size.toNat) (by omega)).mono ?_
    rintro ⟨str, c₂⟩ ⟨str', s₂⟩ ⟨rfl, hahead', halloc', hstr, hrest⟩
    dsimp only at hahead' halloc' hstr hrest
    refine ⟨rfl, hahead', ?_, ?_⟩
    · dsimp only
      rw [halloc', Reader.allocate_allocated, halloc, hstr]
      rfl
    · dsimp only
      omega
  · have hzero : size.toNat = 0 := by omega
    rw [if_neg hpos, hzero]
    exact .ok ⟨rfl, hahead, halloc, hlen⟩

theorem readArray_follows (h : Ahead buffer s c) (hlimit : c.allocated ≤ limit) (width : ℕ)
    (count : ℤ) :
    Follows (Stops limit) Silent
      (Reads buffer s c (fun items => items.length * width) fun items => items.length * width)
      (readArrayFromBuffer buffer c width count) (takeItems s width count) := by
  unfold readArrayFromBuffer takeItems
  by_cases hneg : count < 0
  · rw [if_pos hneg, if_pos hneg]
    exact .error hlimit
  · rw [if_neg hneg, if_neg hneg]
    by_cases hfits : count.toNat * width < 2 ^ 31
    · have htotal : u32 (count.toNat * width) = count.toNat * width := u32_of_lt (by omega)
      rw [if_pos hfits]
      dsimp only
      rw [htotal]
      refine (readInto_follows hsmall limit (h.allocate _) hfits).bind ?_
      rintro ⟨bytes, c₁⟩ ⟨bytes', s₁⟩ ⟨rfl, hahead, halloc, hbytes, hrest⟩
      refine .pure ⟨rfl, hahead, ?_, ?_⟩
      · dsimp only
        rw [length_ofBytes]
        exact halloc
      · dsimp only
        rw [length_ofBytes]
        exact hrest
    · rw [if_neg hfits]
      exact .of_silent trivial

theorem readStrings_follows (count : ℕ) :
    ∀ {s : List UInt8} {c : Reader}, Ahead buffer s c →
      Follows (Stops limit) Silent
        (fun res res' => Reads buffer s c (fun strs => (strs.map List.length).sum)
          (fun strs => (strs.map fun str => 4 + str.length).sum) res res' ∧ res'.1.length = count)
        (readStringsFromBuffer buffer count c) (takeStrings count s) := by
  induction count with
  | zero =>
      intro s c h
      exact .pure ⟨⟨rfl, h, rfl, rfl⟩, rfl⟩
  | succ count ih =>
      intro s c h
      refine (readString_follows hsmall limit h).bind ?_
      rintro ⟨str, c₁⟩ ⟨str', s₁⟩ ⟨rfl, hahead, halloc, hlen⟩
      refine (ih hahead).bind ?_
      rintro ⟨strs, c₂⟩ ⟨strs', s₂⟩ ⟨⟨rfl, hahead', halloc', hlen'⟩, hcount⟩
      dsimp only at halloc hlen halloc' hlen' hcount
      refine .pure ⟨⟨rfl, hahead', ?_, ?_⟩, congrArg (· + 1) hcount⟩
      · dsimp only
        rw [List.map_cons, List.sum_cons, halloc', halloc, Nat.add_assoc]
      · dsimp only
        rw [List.map_cons, List.sum_cons]
        omega

end

end DzIpc.TopicCat
