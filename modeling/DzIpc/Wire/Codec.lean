import DzIpc.Wire.Paging
import DzIpc.Wire.Schema

/-!
# The generated serializer and deserializer

`msg_generator.py` emits one `serialize` and one `deserialize` for each message class.
The serializer is a straight line of `adapt_memcpy_tos` calls, here the list of the byte
strings it copies.  The deserializer reads lengths through `adapt_memcpy_tods` but steps
over field names, and mostly over type bytes, by adding to `offset`.  Its results say
whether it ran to the end or returned early from a count guard.
-/

namespace DzIpc.Wire

/-! ## Serialization -/

/-- The bytes of an `int32_t`. -/
def le32 (n : ℕ) : List UInt8 := leBytes 4 n

/-- The copies every field starts with: the length of its name, the name, the type byte. -/
def headerPieces (name : List UInt8) (typeIndex : ℕ) : List (List UInt8) :=
  [le32 name.length, name, [byte typeIndex]]

/-- `b ? 1 : 0`. -/
def boolByte (b : Bool) : UInt8 := if b then 1 else 0

/-- The `TYPE_INDEX` entry of a field kind. -/
def Kind.typeIndex : Kind → ℕ
  | scalar s => s.typeIndex
  | bool => 1
  | string => 12
  | scalars s _ => s.arrayTypeIndex
  | bools _ => 13
  | strings _ => 24

/-- `NESTED_TYPE_INDEX`. -/
def nestedTypeIndex : ℕ := 25

/-- `NESTED_ARRAY_TYPE_INDEX`. -/
def nestedArrayTypeIndex : ℕ := 26

/-- The copies of a field's value. -/
def Kind.valuePieces : (k : Kind) → k.Value → List (List UInt8)
  | scalar s, v => [leBytes s.size v.toNat]
  | bool, v => [[boolByte v]]
  | string, v => [le32 v.length, v]
  | scalars s _, v =>
      le32 v.length ::
        if v.length > 0 then [v.1.flatMap fun item => leBytes s.size item.toNat] else []
  | bools _, v => le32 v.length :: if v.length > 0 then [v.1.map boolByte] else []
  | strings _, v => le32 v.length :: v.1.flatMap fun str => [le32 str.length, str]

/-- The bytes a field's value adds to `total_size_`. -/
def Kind.valueSize : (k : Kind) → k.Value → ℕ
  | scalar s, _ => s.size
  | bool, _ => 1
  | string, v => 4 + v.length
  | scalars s _, v => 4 + v.length * s.size
  | bools _, v => 4 + v.length
  | strings _, v => 4 + (v.1.map fun str => 4 + str.length).sum

/-- The copies of one nested message, already serialized. -/
def nestedPieces (serialized : List UInt8) : List (List UInt8) :=
  le32 serialized.length :: if serialized.length > 0 then [serialized] else []

/-- Lay the copies one after another and close the last page. -/
def writeMessage (msgId totalSize : ℕ) (pieces : List (List UInt8)) : List UInt8 :=
  (pieces.foldl Writer.adaptMemcpyTos (serializeDataCut msgId totalSize)).addTailMsg.out

/-- The copies a message's fields make, and what they add to `total_size_`.  Members keep
the message id 0. -/
def Schema.body : (S : Schema) → S.Value → List (List UInt8) × ℕ
  | nil, _ => ([], 0)
  | field name kind rest, v =>
      let tl := rest.body v.2
      (headerPieces name kind.typeIndex ++ kind.valuePieces v.1 ++ tl.1,
        4 + name.length + 1 + kind.valueSize v.1 + tl.2)
  | nested name msg rest, v =>
      let inner := msg.body v.1
      let serialized := writeMessage 0 inner.2 inner.1
      let tl := rest.body v.2
      (headerPieces name nestedTypeIndex ++ nestedPieces serialized ++ tl.1,
        4 + name.length + 1 + (4 + serialized.length) + tl.2)
  | nestedArray name _ msg rest, v =>
      let serialized := v.1.1.map fun item =>
        let inner := msg.body item
        writeMessage 0 inner.2 inner.1
      let tl := rest.body v.2
      (headerPieces name nestedArrayTypeIndex
          ++ (le32 serialized.length :: serialized.flatMap nestedPieces) ++ tl.1,
        4 + name.length + 1 + (4 + (serialized.map fun bytes => 4 + bytes.length).sum) + tl.2)

/-- The generated `serialize`. -/
def Schema.serialize (S : Schema) (msgId : ℕ) (v : S.Value) : List UInt8 :=
  writeMessage msgId (S.body v).2 (S.body v).1

/-! ## Deserialization -/

/-- Whether a piece of generated code ran to its end or executed `return`. -/
inductive Flow where
  | next
  | done
  deriving DecidableEq, Repr

/-- The sizes the target gives to objects: `sizeof(std::string)` and `sizeof` the message
classes. -/
structure Abi where
  stringSize : ℕ
  messageSize : Schema → ℕ

/-- `int32_t n; adapt_memcpy_tods(&n, …)`. -/
def readInt32 (r : Region) (c : Cursor) : Except Fault (ℤ × Cursor) := do
  let (bytes, c) ← adaptMemcpyTods r c 4
  return (i32 (leNat bytes), c)

/-- Step over a field's name and type byte: both are skipped by adding to `offset`. -/
def readHeader (r : Region) (c : Cursor) : Except Fault Cursor := do
  let (nameSize, c) ← readInt32 r c
  return (c.advance nameSize).skip 1

/-- Step over a string field's name and type byte: the type byte is read. -/
def readStringHeader (r : Region) (c : Cursor) : Except Fault Cursor := do
  let (nameSize, c) ← readInt32 r c
  let (_, c) ← adaptMemcpyTods r (c.advance nameSize) 1
  return c

/-- The first `count` elements of `width` bytes each. -/
def ofBytes (width : ℕ) : ℕ → List UInt8 → List (BitVec (8 * width))
  | 0, _ => []
  | count + 1, bytes =>
      BitVec.ofNat _ (leNat (bytes.take width)) :: ofBytes width count (bytes.drop width)

@[simp] theorem length_ofBytes (width count : ℕ) (bytes : List UInt8) :
    (ofBytes width count bytes).length = count := by
  induction count generalizing bytes with
  | zero => rfl
  | succ count ih => rw [ofBytes, List.length_cons, ih]

/-- The check of an array's `count`: a fixed array throws on another length than its own
(`_fixed_array_count_check`), any other array goes through `tods_count_ok`
(`_count_guard`). -/
def readCount (r : Region) (c : Cursor) (size : ArraySize) (minElemSize : ℕ) :
    Except Fault (ℕ × Flow × Cursor) := do
  let (count, c) ← readInt32 r c
  match size with
  | some n =>
      if count = (n : ℕ) then return (n, .next, c) else .error .fixedArraySize
  | none =>
      if todsCountOk r c count minElemSize then return (count.toNat, .next, c)
      else return (0, .done, c.fail)

/-- The copy of the `len` bytes of `count` items, made under `if (count > 0)`. -/
def readItems (r : Region) (c : Cursor) (count len : ℕ) : Except Fault (List UInt8 × Cursor) :=
  if count > 0 then adaptMemcpyTods r c len else .ok ([], c)

/-- Account for the `resize` or `reserve` of an array member; a fixed array has none. -/
def Cursor.resize (c : Cursor) (size : ArraySize) (bytes : ℕ) : Cursor :=
  match size with
  | none => c.allocate bytes
  | some _ => c

/-- The loop over the elements of a string array. -/
def readStrings (r : Region) : ℕ → Cursor → Except Fault (List (List UInt8) × Flow × Cursor)
  | 0, c => return ([], .next, c)
  | count + 1, c => do
      let (strSize, c) ← readInt32 r c
      if todsCountOk r c strSize 1 then
        let (str, c) ← adaptMemcpyTods r (c.allocate strSize.toNat) strSize.toNat
        let (strs, flow, c) ← readStrings r count c
        return (str :: strs, flow, c)
      else return ([], .done, c.fail)

/-- The code generated for one field without a nested message. -/
def Kind.read (abi : Abi) (r : Region) :
    (k : Kind) → k.Value → Cursor → Except Fault (k.Value × Flow × Cursor)
  | scalar s, _, c => do
      let c ← readHeader r c
      let (bytes, c) ← adaptMemcpyTods r c s.size
      return (BitVec.ofNat _ (leNat bytes), .next, c)
  | bool, _, c => do
      let c ← readHeader r c
      let (bytes, c) ← adaptMemcpyTods r c 1
      return (decide (leNat bytes ≠ 0), .next, c)
  | string, old, c => do
      let c ← readStringHeader r c
      let (size, c) ← readInt32 r c
      if todsCountOk r c size 1 then
        let (bytes, c) ← adaptMemcpyTods r (c.allocate size.toNat) size.toNat
        return (bytes, .next, c)
      else return (old, .done, c.fail)
  | scalars s size, old, c => do
      let c ← readHeader r c
      let (count, flow, c) ← readCount r c size s.size
      match flow with
      | .done => return (old, .done, c)
      | .next =>
          let c := c.resize size (count * s.size)
          let (bytes, c) ← readItems r c count (u32 (count * s.size))
          return (old.store (ofBytes s.size (bytes.length / s.size) bytes), .next, c)
  | bools size, old, c => do
      let c ← readHeader r c
      let (count, flow, c) ← readCount r c size 1
      match flow with
      | .done => return (old, .done, c)
      | .next =>
          let c := c.resize size count
          -- the bytes go through a `std::vector<uint8_t>` of the same length
          let (bytes, c) ← readItems r (c.allocate count) count count
          return (old.store (bytes.map fun b => decide (b ≠ 0)), .next, c)
  | strings size, old, c => do
      let c ← readHeader r c
      let (count, flow, c) ← readCount r c size 4
      match flow with
      | .done => return (old, .done, c)
      | .next =>
          let (strs, flow, c) ← readStrings r count (c.resize size (count * abi.stringSize))
          return (old.store strs, flow, c)

/-- What a `deserialize` call leaves behind. -/
structure Outcome (α : Type) where
  value : α
  overflow : Bool
  allocated : ℕ

/-- `deserialize_ok`. -/
def Outcome.deserializeOk {α : Type} (out : Outcome α) : Bool := !out.overflow

/-- A signed value, converted to `size_t`. -/
def toSizeT (z : ℤ) : ℕ := (z % 2 ^ 64).toNat

/-- The buffer from which a nested message is read, and the offset behind the message: the
parent's bytes where the message lies inside one page, a copy of them without the page
tails otherwise. -/
def nestedBuffer (r : Region) (c : Cursor) (size : ℤ) : Except Fault (Region × Cursor) :=
  if regionIsContiguous c.offset (toU32 size) then
    return ({ bytes := r.bytes.drop c.offset, size := toSizeT size }, c.advance size)
  else if size < 0 then .error .badArrayNewLength
  else do
    let (bytes, c) ← readItems r (c.allocate size.toNat) size.toNat size.toNat
    return ({ bytes := bytes, size := size.toNat }, c)

/-- Read one nested message: its size, its buffer, and the message itself, with the nested
`deserialize`.  Only the allocations of the nested call concern the caller. -/
def readNested {α : Type} (r : Region) (deserialize : Region → α → Except Fault (Outcome α))
    (old : α) (c : Cursor) : Except Fault (α × Cursor) := do
  let (size, c) ← readInt32 r c
  let (sub, c) ← nestedBuffer r c size
  let out ← deserialize sub old
  return (out.value, c.allocate out.allocated)

/-- The loop over the elements of an array of nested messages. -/
def readElems {α : Type} (r : Region) (deserialize : Region → α → Except Fault (Outcome α)) :
    List α → Cursor → Except Fault (List α × Cursor)
  | [], c => return ([], c)
  | old :: olds, c => do
      let (item, c) ← readNested r deserialize old c
      let (items, c) ← readElems r deserialize olds c
      return (item :: items, c)

/-- The elements an array of messages has when its loop starts: value-initialized ones
after `resize`, the previous ones in a fixed array. -/
def Arr.resized {α : Type} (fresh : α) (count : ℕ) : {size : ArraySize} → Arr size α → List α
  | none, _ => List.replicate count fresh
  | some _, old => old.1

/-- The state in which `deserialize` starts. -/
def Cursor.start : Cursor := { offset := 0, overflow := false, allocated := 0 }

/-- Package what `deserialize` leaves behind. -/
def Outcome.ofRead {α : Type} (res : α × Flow × Cursor) : Outcome α :=
  { value := res.1, overflow := res.2.2.overflow, allocated := res.2.2.allocated }

/-- The code generated for the fields of a message, in order. -/
def Schema.readFields (abi : Abi) :
    (S : Schema) → Region → S.Value → Cursor → Except Fault (S.Value × Flow × Cursor)
  | nil, _, old, c => return (old, .next, c)
  | field _ kind rest, r, old, c => do
      let (v, flow, c) ← kind.read abi r old.1 c
      match flow with
      | .done => return ((v, old.2), .done, c)
      | .next =>
          let (vs, flow, c) ← rest.readFields abi r old.2 c
          return ((v, vs), flow, c)
  | nested _ msg rest, r, old, c => do
      let c ← readHeader r c
      let (v, c) ← readNested r
        (fun sub old => Outcome.ofRead <$> msg.readFields abi sub old .start) old.1 c
      let (vs, flow, c) ← rest.readFields abi r old.2 c
      return ((v, vs), flow, c)
  | nestedArray _ size msg rest, r, old, c => do
      let c ← readHeader r c
      let (count, flow, c) ← readCount r c size 4
      match flow with
      | .done => return (old, .done, c)
      | .next =>
          let (items, c) ← readElems r
            (fun sub old => Outcome.ofRead <$> msg.readFields abi sub old .start)
            (old.1.resized msg.default count) (c.resize size (count * abi.messageSize msg))
          let (vs, flow, c) ← rest.readFields abi r old.2 c
          return ((old.1.store items, vs), flow, c)

/-- The generated `deserialize`, called on a buffer of exactly its bytes; `old` is what
the message holds before. -/
def Schema.deserialize (abi : Abi) (S : Schema) (r : Region) (old : S.Value) :
    Except Fault (Outcome S.Value) :=
  Outcome.ofRead <$> S.readFields abi r old .start

/-- The buffer over the whole of an allocation. -/
def Region.whole (bytes : List UInt8) : Region :=
  { bytes := bytes, size := bytes.length }

end DzIpc.Wire
