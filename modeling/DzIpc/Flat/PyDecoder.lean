import DzIpc.Flat.RootLayout
import DzIpc.Flat.Segment
import DzIpc.Library.Utf8
import DzIpc.Wire.Codec

/-!
# The Python decoder

`dzflat.py` reads a segment by a schema that the generator emits beside the C++ types: the fields
with their kinds and offsets, the hash and the size of the record.

A read of `struct.unpack_from` that goes beyond the buffer raises; a slice is cut off at its end.
Numbers are kept as their bytes, which the generic types do not interpret.
-/

namespace DzIpc.Flat

open Wire Blocks

/-! ## Schemas -/

/-- `Field.base`, an entry of `_SCALAR`. -/
inductive Base where
  | bool
  | num (s : Scalar)
  deriving DecidableEq, Repr

/-- The number of bytes in `_SCALAR`. -/
def Base.size : Base → ℕ
  | bool => 1
  | num s => s.size

/-- `Field.kind` without a nested schema, with `base` and `count` where the decoder uses them. -/
inductive FieldKind where
  | scalar (base : Base)
  | fixedScalarArray (base : Base) (count : ℕ)
  | string
  | varScalarArray (base : Base)
  | stringArray
  deriving DecidableEq, Repr

/-- `Schema.fields`: each with its name, its offset and its kind, or its nested schema, of which
an array needs `root_size`. -/
inductive Fields where
  | nil
  | field (name : List UInt8) (kind : FieldKind) (offset : ℕ) (rest : Fields)
  | nested (name : List UInt8) (nested : Fields) (offset : ℕ) (rest : Fields)
  | nestedArray (name : List UInt8) (nested : Fields) (nestedSize offset : ℕ) (rest : Fields)
  deriving DecidableEq, Repr

/-- `Schema`. -/
structure PySchema where
  schemaHash : ℕ
  rootSize : ℕ
  fields : Fields
  deriving DecidableEq, Repr

/-- `_Field.kind`. -/
def fieldKind : Kind → FieldKind
  | .scalar s => .scalar (.num s)
  | .bool => .scalar .bool
  | .string => .string
  | .scalars s (some n) => .fixedScalarArray (.num s) n
  | .scalars s none => .varScalarArray (.num s)
  | .bools (some n) => .fixedScalarArray .bool n
  | .bools none => .varScalarArray .bool
  | .strings _ => .stringArray

/-- The fields of `python_schema_entry`: those of the message beside those of the layout. -/
def schemaFields : Schema → List FieldLayout → Fields
  | .field name k rest, l :: ls => .field name (fieldKind k) l.offset (schemaFields rest ls)
  | .nested name msg rest, l :: ls =>
    .nested name (schemaFields msg (computeLayout msg).fields) l.offset (schemaFields rest ls)
  | .nestedArray name _ msg rest, l :: ls =>
    .nestedArray name (schemaFields msg (computeLayout msg).fields) (computeLayout msg).size l.offset
      (schemaFields rest ls)
  | _, _ => .nil

/-- `python_schema_entry`. -/
def pythonSchemaEntry (S : Schema) : PySchema :=
  { schemaHash := cachedHash S
    rootSize := (computeLayout S).size
    fields := schemaFields S (computeLayout S).fields }

/-! ## Values -/

/-- What the decoder makes of a field.  A `memoryview` of numbers is the list of them; one of the
bytes of a bool array is `bytes`. -/
inductive PyValue where
  | bool (b : Bool)
  | num (s : Scalar) (v : s.Value)
  | str (text : List Char)
  | bools (items : List Bool)
  | nums (s : Scalar) (items : List s.Value)
  | bytes (items : List UInt8)
  | strs (items : List (List Char))
  | dict (fields : List (List UInt8 × PyValue))
  | dicts (items : List (List (List UInt8 × PyValue)))

/-- A scalar that is unpacked. -/
def Base.value : Base → List UInt8 → PyValue
  | bool, bytes => .bool (leNat bytes ≠ 0)
  | num s, bytes => .num s (BitVec.ofNat _ (leNat bytes))

/-- The list of the scalars that are unpacked. -/
def Base.list : Base → ℕ → List UInt8 → PyValue
  | bool, _, bytes => .bools (bytes.map fun b => b ≠ 0)
  | num s, count, bytes => .nums s (ofBytes s.size count bytes)

/-- The view of the scalars that is cast. -/
def Base.view : Base → ℕ → List UInt8 → PyValue
  | bool, _, bytes => .bytes bytes
  | num s, count, bytes => .nums s (ofBytes s.size count bytes)

/-! ## Decoding -/

/-- `parse_header`. -/
def parseHeader (buf : List UInt8) : Option SegHeader :=
  if buf.length < segHeaderSize then none
  else
    let h := SegHeader.ofBytes buf
    if h.magic ≠ magic ∨ h.layoutVer ≠ layoutVer then none
    else if h.rootOff.toNat ≠ segHeaderSize ∨ h.totalSize.toNat > buf.length then none
    else if h.totalSize.toNat < segHeaderSize + h.rootSize.toNat then none
    else some h

/-- `_in_bounds`. -/
def inBounds (total off cnt stride : ℕ) : Bool :=
  if off = 0 ∨ off ≥ total then false
  else if stride ≠ 0 ∧ cnt > (total - off) / stride then false
  else true

/-- The bytes that `struct.unpack_from` reads. -/
def unpackFrom (buf : List UInt8) (at' len : ℕ) : Except Fault (List UInt8) :=
  if at' + len ≤ buf.length then .ok (slice at' len buf) else .error .outOfBounds

/-- `_read_varref`. -/
def readVarref (buf : List UInt8) (at' : ℕ) : Except Fault (ℕ × ℕ) := do
  let bytes ← unpackFrom buf at' varRefSize
  return (leNat (slice 0 4 bytes), leNat (slice 4 4 bytes))

/-- `_decode_record`, of a field without a nested schema. -/
def FieldKind.decode (zeroCopy : Bool) (buf : List UInt8) (total at' : ℕ) :
    FieldKind → Except Fault PyValue
  | .scalar base => do
    let bytes ← unpackFrom buf at' base.size
    return base.value bytes
  | .fixedScalarArray base count => do
    let bytes ← unpackFrom buf at' (base.size * count)
    return base.list count bytes
  | .string => do
    let (off, n) ← readVarref buf at'
    if n = 0 ∨ ¬inBounds total off n 1 then return .str []
    else return .str (decodeUtf8 (slice off n buf))
  | .varScalarArray base => do
    let (off, n) ← readVarref buf at'
    if n = 0 ∨ ¬inBounds total off n base.size then
      return if zeroCopy then base.view 0 [] else base.list 0 []
    else if zeroCopy then return base.view n (slice off (n * base.size) buf)
    else
      let bytes ← unpackFrom buf off (base.size * n)
      return base.list n bytes
  | .stringArray => do
    let (off, n) ← readVarref buf at'
    if n ≠ 0 ∧ inBounds total off n varRefSize then
      let items ← (List.range n).mapM fun i => do
        let (soff, slen) ← readVarref buf (off + i * varRefSize)
        if slen ≠ 0 ∧ inBounds total soff slen 1 then return decodeUtf8 (slice soff slen buf)
        else return []
      return .strs items
    else return .strs []

/-- `_decode_record`. -/
def decodeRecord (zeroCopy : Bool) (buf : List UInt8) (total : ℕ) :
    Fields → ℕ → Except Fault (List (List UInt8 × PyValue))
  | .nil, _ => return []
  | .field name kind offset rest, root => do
    let value ← kind.decode zeroCopy buf total (root + offset)
    let out ← decodeRecord zeroCopy buf total rest root
    return (name, value) :: out
  | .nested name nested offset rest, root => do
    let value ← decodeRecord zeroCopy buf total nested (root + offset)
    let out ← decodeRecord zeroCopy buf total rest root
    return (name, .dict value) :: out
  | .nestedArray name nested esz offset rest, root => do
    let (off, n) ← readVarref buf (root + offset)
    let elems ← if n ≠ 0 ∧ inBounds total off n esz then
        (List.range n).mapM fun i => decodeRecord zeroCopy buf total nested (off + i * esz)
      else pure []
    let out ← decodeRecord zeroCopy buf total rest root
    return (name, .dicts elems) :: out

/-- `_RX`. -/
structure RxStats where
  accepted : ℕ
  notDzflat : ℕ
  headerBad : ℕ
  schemaUnknown : ℕ
  schemaMismatch : ℕ
  deriving DecidableEq, Repr

/-- `decode`, with `SCHEMA_BY_HASH` and the counters. -/
def decode (registry : ℕ → Option PySchema) (rx : RxStats) (buf : List UInt8)
    (schema : Option PySchema) (zeroCopy : Bool) :
    Except Fault (Option (List (List UInt8 × PyValue)) × RxStats) :=
  match parseHeader buf with
  | none =>
    if hasDzflatMagic buf then return (none, { rx with headerBad := rx.headerBad + 1 })
    else return (none, { rx with notDzflat := rx.notDzflat + 1 })
  | some h =>
    match schema with
    | none =>
      match registry h.schemaHash.toNat with
      | none => return (none, { rx with schemaUnknown := rx.schemaUnknown + 1 })
      | some schema => finish h schema
    | some schema =>
      if schema.schemaHash ≠ h.schemaHash.toNat then
        return (none, { rx with schemaMismatch := rx.schemaMismatch + 1 })
      else finish h schema
where
  /-- The end of `decode`, with the schema. -/
  finish (h : SegHeader) (schema : PySchema) :
      Except Fault (Option (List (List UInt8 × PyValue)) × RxStats) := do
    if h.rootSize.toNat ≠ schema.rootSize then
      return (none, { rx with schemaMismatch := rx.schemaMismatch + 1 })
    else
      let out ← decodeRecord zeroCopy buf h.totalSize.toNat schema.fields segHeaderSize
      return (some out, { rx with accepted := rx.accepted + 1 })

end DzIpc.Flat
