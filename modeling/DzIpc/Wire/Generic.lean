import DzIpc.Wire.Codec

/-!
# `GenericMessage`

The message class without a schema (`generic_message.hpp`): a list of named fields, each
with its type code and the bytes of its value, that speaks the format of the generated
classes.  It has its own paged reader, which sets no flag where a read does not fit: what
could not be read stays zero and `offset` stays where it is.

The reader keeps account of the bytes it allocates and of the rounds of its loops.  The loop
over the fields has no structural measure and runs on fuel; `Wire.GenericSafety` shows that
it never runs out.
-/

namespace DzIpc.Wire

/-- `GenericMessage::FieldEntry`. -/
structure FieldEntry where
  name : List UInt8
  type : UInt8
  data : List UInt8
  deriving DecidableEq, Repr

/-- `GenericMessage`: its fields and `dz_ipc_msg_id`. -/
structure GenericMessage where
  fields : List FieldEntry
  msgId : ℕ
  deriving DecidableEq, Repr

/-! ## Serialization -/

/-- The buffer a serialization returns: `new uint8_t[_total_size]` with what was written from
its start.  The bytes it holds before are `fresh`. -/
def Writer.buffer (w : Writer) (fresh : ℕ → UInt8) : Except Fault (List UInt8) :=
  if w.out.length ≤ w.info.totalSize then
    .ok (w.out ++ ((List.range w.info.totalSize).map fresh).drop w.out.length)
  else .error .outOfBounds

/-- The buffer of the generated `serialize`. -/
def Schema.buffer (S : Schema) (fresh : ℕ → UInt8) (msgId : ℕ) (v : S.Value) :
    Except Fault (List UInt8) :=
  ((S.body v).1.foldl Writer.adaptMemcpyTos
    (serializeDataCut msgId (S.body v).2)).addTailMsg.buffer fresh

namespace FieldEntry

/-- The copies of one field. -/
def pieces (f : FieldEntry) : List (List UInt8) :=
  [le32 f.name.length, f.name, [f.type]] ++ if f.data = [] then [] else [f.data]

/-- What a field adds to `total_data_size`. -/
def size (f : FieldEntry) : ℕ := 4 + f.name.length + 1 + f.data.length

end FieldEntry

namespace GenericMessage

/-- `total_data_size`. -/
def dataSize (fields : List FieldEntry) : ℕ := (fields.map FieldEntry.size).sum

/-- `GenericMessage::serialize`.  A message without fields gets its buffer at once. -/
def serialize (m : GenericMessage) (fresh : ℕ → UInt8) : Except Fault (List UInt8) :=
  if m.fields = [] then (serializeDataCut m.msgId 0).buffer fresh
  else
    ((m.fields.flatMap FieldEntry.pieces).foldl Writer.adaptMemcpyTos
      (serializeDataCut m.msgId (dataSize m.fields))).addTailMsg.buffer fresh

/-! ## Setters -/

/-- `find_field`. -/
def findField (fields : List FieldEntry) (name : List UInt8) : Option ℕ :=
  fields.findIdx? fun f => f.name = name

/-- The common part of the setters: overwrite the field of that name, or add one. -/
def setField (m : GenericMessage) (f : FieldEntry) : GenericMessage :=
  match findField m.fields f.name with
  | some i => { m with fields := m.fields.set i f }
  | none => { m with fields := m.fields ++ [f] }

/-- The value bytes of a nested message that has been serialized. -/
def blob (bytes : List UInt8) : List UInt8 := le32 bytes.length ++ bytes

/-- `set_bool` to `set_string_array`, but for `set_bool_array`: every one stores the value
bytes of its kind. -/
def setValue (m : GenericMessage) (name : List UInt8) (k : Kind) (v : k.Value) : GenericMessage :=
  m.setField ⟨name, byte k.typeIndex, (k.valuePieces v).flatten⟩

/-- `set_bool_array`, which takes bytes and stores them as they are. -/
def setBoolArray (m : GenericMessage) (name : List UInt8) (arr : List UInt8) : GenericMessage :=
  m.setField ⟨name, byte (Kind.bools none).typeIndex, blob arr⟩

/-- `set_nested`. -/
def setNested (m : GenericMessage) (fresh : ℕ → UInt8) (name : List UInt8)
    (val : GenericMessage) : Except Fault GenericMessage := do
  let serialized ← val.serialize fresh
  return m.setField ⟨name, byte nestedTypeIndex, blob serialized⟩

/-- The elements of `set_nested_array`, serialized in order; each buffer is a new one. -/
def serializeAll : List GenericMessage → List (ℕ → UInt8) → Except Fault (List (List UInt8))
  | [], _ => return []
  | val :: vals, fresh => do
      let serialized ← val.serialize (fresh.headD fun _ => 0)
      let rest ← serializeAll vals fresh.tail
      return serialized :: rest

/-- `set_nested_array`. -/
def setNestedArray (m : GenericMessage) (fresh : List (ℕ → UInt8)) (name : List UInt8)
    (vals : List GenericMessage) : Except Fault GenericMessage := do
  let serialized ← serializeAll vals fresh
  return m.setField
    ⟨name, byte nestedArrayTypeIndex, le32 serialized.length ++ serialized.flatMap blob⟩

/-- A call of a setter. -/
inductive Setter where
  | value (k : Kind) (v : k.Value)
  | boolArray (arr : List UInt8)
  | nested (fresh : ℕ → UInt8) (val : GenericMessage)
  | nestedArray (fresh : List (ℕ → UInt8)) (vals : List GenericMessage)

/-- The call, for a field of the given name. -/
def apply (m : GenericMessage) (name : List UInt8) : Setter → Except Fault GenericMessage
  | .value k v => return m.setValue name k v
  | .boolArray arr => return m.setBoolArray name arr
  | .nested fresh val => m.setNested fresh name val
  | .nestedArray fresh vals => m.setNestedArray fresh name vals

/-- A message built by calls of setters. -/
def build (m : GenericMessage) : List (List UInt8 × Setter) → Except Fault GenericMessage
  | [] => return m
  | (name, setter) :: calls => do
      let m ← m.apply name setter
      build m calls

/-! ## The paged reader -/

/-- The state of `GenericMessage::deserialize`: the running `offset`, the flag
`_deser_overflow`, which it clears and never sets, the bytes allocated, and the rounds of
all loops. -/
structure Scan extends Cursor where
  rounds : ℕ
  deriving DecidableEq, Repr

namespace Scan

def start : Scan := { toCursor := .start, rounds := 0 }

/-- `offset += step`. -/
def skip (c : Scan) (step : ℕ) : Scan := { c with toCursor := c.toCursor.skip step }

/-- Account for an allocation. -/
def allocate (c : Scan) (size : ℕ) : Scan := { c with toCursor := c.toCursor.allocate size }

/-- Account for a round of a loop. -/
def round (c : Scan) : Scan := { c with rounds := c.rounds + 1 }

end Scan

/-- The end of a paged read: the bytes not yet filled, copied if they fit. -/
def readRest (r : Region) (c : Scan) (left : ℕ) : Except Fault (List UInt8 × Scan) :=
  if left > 0 ∧ u32 (c.offset + left) ≤ r.totalSize then do
    let bytes ← r.copy c.offset left
    return (bytes, c.skip left)
  else return (List.replicate left 0, c)

/-- The rounds of a paged read, up to the first that does not fit, and its end. -/
def pagedLoop (r : Region) : ℕ → Scan → ℕ → ℕ → Except Fault (List UInt8 × Scan)
  | 0, c, _, left => readRest r c left
  | i + 1, c, pureDataOffset, left =>
      let copySize := min (ipcMsgMaxSize - pureDataOffset % ipcMsgMaxSize) left
      if u32 (c.offset + copySize) > r.totalSize then readRest r c.round left
      else do
        let bytes ← r.copy c.offset copySize
        let (rest, c) ← pagedLoop r i (c.round.skip (copySize + tailMsgSize))
          (u32 (pureDataOffset + copySize)) (left - copySize)
        return (bytes ++ rest, c)

/-- `read_paged`, for an object of `len` bytes. -/
def readPaged (r : Region) (c : Scan) (len : ℕ) : Except Fault (List UInt8 × Scan) :=
  let pureDataOffset := toPureOffset c.offset
  let cutCnt := sub32 (u32 (pureDataOffset + len) / ipcMsgMaxSize)
    (pureDataOffset / ipcMsgMaxSize)
  pagedLoop r cutCnt c pureDataOffset len

/-- `read_paged<int32_t>`. -/
def readSize (r : Region) (c : Scan) : Except Fault (ℤ × Scan) := do
  let (bytes, c) ← readPaged r c 4
  return (i32 (leNat bytes), c)

/-- `read_string_paged` and `read_bytes_paged`, which differ in the type of the result. -/
def readBytesPaged (r : Region) (c : Scan) (size : ℤ) : Except Fault (List UInt8 × Scan) :=
  if size ≤ 0 then return ([], c)
  else readPaged r (c.allocate size.toNat) size.toNat

/-! ## Deserialization -/

/-- How the cases of the `switch` over the type read a value. -/
inductive Layout where
  | fixed (width : ℕ)
  /-- A size and that many bytes. -/
  | sized
  /-- A count and that many elements. -/
  | array (width : ℕ)
  /-- A count and that many sized values. -/
  | sizedArray
  deriving DecidableEq, Repr

/-- The `switch` over the type. -/
def layout (type : UInt8) : Option Layout :=
  match type.toNat with
  | 1 | 2 | 3 => some (.fixed 1)
  | 4 | 5 => some (.fixed 2)
  | 6 | 7 | 10 => some (.fixed 4)
  | 8 | 9 | 11 => some (.fixed 8)
  | 12 | 25 => some .sized
  | 13 | 14 | 15 => some (.array 1)
  | 16 | 17 => some (.array 2)
  | 18 | 19 | 22 => some (.array 4)
  | 20 | 21 | 23 => some (.array 8)
  | 24 | 26 => some .sizedArray
  | _ => none

/-- The check before an object of `width` bytes is read; only for single bytes it does not
allow for a page tail. -/
def short (r : Region) (c : Scan) (width : ℕ) : Bool :=
  if width = 1 then u32 (c.offset + 1) > r.totalSize
  else u32 (c.offset + width) > u32 (r.totalSize + tailMsgSize)

/-- The check before each element of an array, where the width is a `size_t`. -/
def shortElement (r : Region) (c : Scan) (width : ℕ) : Bool :=
  if width = 1 then u32 (c.offset + 1) > r.totalSize
  else c.offset + width > u32 (r.totalSize + tailMsgSize)

/-- The loop over the elements of an array. -/
def readElements (r : Region) (width : ℕ) : ℕ → Scan → Except Fault (List UInt8 × Flow × Scan)
  | 0, c => return ([], .next, c)
  | count + 1, c =>
      let c := c.round
      if shortElement r c width then return ([], .done, c)
      else do
        let (bytes, c) ← readPaged r c width
        let (rest, flow, c) ← readElements r width count c
        return (bytes ++ rest, flow, c)

/-- The code of `FT_STRING` and of `FT_NESTED`, and of each element of their arrays. -/
def readSized (r : Region) (c : Scan) : Except Fault (List UInt8 × Flow × Scan) :=
  if short r c 4 then return ([], .done, c)
  else do
    let (size, c) ← readSize r c
    if size < 0 then return ([], .done, c)
    else
      let (bytes, c) ← readBytesPaged r c size
      return (blob bytes, .next, c.allocate (4 + bytes.length))

/-- The loop over the elements of an array of sized values. -/
def readSizedArray (r : Region) : ℕ → Scan → Except Fault (List UInt8 × Flow × Scan)
  | 0, c => return ([], .next, c)
  | count + 1, c => do
      let (item, flow, c) ← readSized r c.round
      match flow with
      | .done => return ([], .done, c)
      | .next =>
          let (rest, flow, c) ← readSizedArray r count c
          return (item ++ rest, flow, c)

/-- The count of an array: `none` for a count that is negative or cannot be there. -/
def readCount (r : Region) (c : Scan) : Except Fault (Option ℕ × Scan) :=
  if short r c 4 then return (none, c)
  else do
    let (count, c) ← readSize r c
    return (if count < 0 then none else some count.toNat, c)

/-- The cases of the `switch`. -/
def readValue (r : Region) (c : Scan) : Layout → Except Fault (List UInt8 × Flow × Scan)
  | .fixed width =>
      if short r c width then return ([], .done, c)
      else do
        let (bytes, c) ← readPaged r c width
        return (bytes, .next, c.allocate width)
  | .sized => readSized r c
  | .array width => do
      match ← readCount r c with
      | (none, c) => return ([], .done, c)
      | (some count, c) =>
          -- the field's bytes are resized before the first element is read
          let (elems, flow, c) ← readElements r width count (c.allocate (4 + count * width))
          return (le32 count ++ elems, flow, c)
  | .sizedArray => do
      match ← readCount r c with
      | (none, c) => return ([], .done, c)
      | (some count, c) =>
          let (items, flow, c) ← readSizedArray r count (c.allocate 4)
          return (le32 count ++ items, flow, c)

/-- The name and the type of a field; `none` where the loop ends. -/
def readHeader (r : Region) (c : Scan) : Except Fault (Option (List UInt8 × UInt8) × Scan) :=
  if u32 (c.offset + 4) > r.totalSize then return (none, c)
  else do
    let (nameSize, c) ← readSize r c
    if nameSize ≤ 0 ∨ u32 (c.offset + nameSize.toNat) > r.totalSize then return (none, c)
    else
      let (name, c) ← readBytesPaged r c nameSize
      if u32 (c.offset + 1) > r.totalSize then return (none, c)
      else
        let (type, c) ← readPaged r c 1
        return (some (name, type.headD 0), c)

/-- The body of the loop over the fields: the field that is added, if any, and whether the
loop goes on. -/
def readField (r : Region) (c : Scan) : Except Fault (Option FieldEntry × Flow × Scan) :=
  let posInBlock := c.offset % (ipcMsgMaxSize + tailMsgSize)
  if posInBlock ≥ ipcMsgMaxSize then
    return (none, .next, c.skip (ipcMsgMaxSize + tailMsgSize - posInBlock))
  else do
    match ← readHeader r c with
    | (none, c) => return (none, .done, c)
    | (some (name, type), c) =>
        match layout type with
        | none => return (none, .done, c)
        | some l =>
            let (data, flow, c) ← readValue r c l
            return (if flow = .next then some ⟨name, type, data⟩ else none, flow, c)

/-- The loop over the fields; `none` when the fuel runs out. -/
def readFields (r : Region) :
    ℕ → Scan → List FieldEntry → Except Fault (Option (List FieldEntry × Scan))
  | 0, _, _ => return none
  | fuel + 1, c, fields =>
      if u32 (c.offset + tailMsgSize) < r.totalSize then do
        let (field, flow, c) ← readField r c.round
        match flow with
        | .done => return some (fields, c)
        | .next => readFields r fuel c (fields ++ field.toList)
      else return some (fields, c)

/-- `GenericMessage::deserialize`: the fields, and the account at its end. -/
def deserialize (r : Region) : Except Fault (Option (List FieldEntry × Scan)) :=
  if r.size < tailMsgSize then return some ([], .start)
  else readFields r (r.totalSize + 1) .start []

end GenericMessage

end DzIpc.Wire
