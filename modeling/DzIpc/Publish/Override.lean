import DzIpc.Library.Decimal
import DzIpc.Library.Numerals
import DzIpc.Wire.Generic

/-!
# Field overrides of `dzipc_pub`

`msg_builder.h`: the tool fills a `GenericMessage` with defaults and then applies specs such as
`pose.x=1.5`.  A spec is checked against the schema; a leaf gets new value bytes, and on the way
back every message along the path is serialized into the field that it came from.

Text is bytes here, and `SchemaRegistry::load` is a function of the type's name.  A function that
returns the text of an error, empty on success, returns that text or `none`; no text of an error
is empty.  `std::stod` and the conversion to `float` are parameters, as are the bytes `fresh` that
a new buffer holds.
-/

namespace DzIpc.Publish

open Wire Numeral

/-- Text in the source. -/
def text (s : String) : List UInt8 := bytesOf s.toList

/-- `std::to_string`. -/
def toText (z : ℤ) : List UInt8 :=
  if z < 0 then text "-" ++ decimal z.natAbs else decimal z.natAbs

/-! ## Schemas -/

/-- `MsgField`. -/
structure MsgField where
  name : List UInt8
  type : ℕ
  nestedType : List UInt8
  deriving DecidableEq, Repr

/-- `MsgSchema`. -/
structure MsgSchema where
  typeName : List UInt8
  fields : List MsgField
  deriving DecidableEq, Repr

/-- `MsgSchema::find_field`. -/
def MsgSchema.findField (schema : MsgSchema) (name : List UInt8) : Option MsgField :=
  schema.fields.find? fun f => f.name = name

/-- `SchemaRegistry`, by what `load` returns. -/
abbrev Registry : Type := List UInt8 → Option MsgSchema

/-- The types that a value of an array, or a single value, can have. -/
inductive Elem where
  | bool
  | signed (width : ℕ)
  | unsigned (width : ℕ)
  | float32
  | float64
  deriving DecidableEq, Repr

/-- How `set_leaf` treats a type. -/
inductive LeafKind where
  | one (e : Elem)
  | string
  | array (e : Elem)
  | strings
  | nested
  | unsupported
  deriving DecidableEq, Repr

/-- The `switch` over `FieldType`. -/
def leafKind : ℕ → LeafKind
  | 1 => .one .bool
  | 2 => .one (.signed 1)
  | 3 => .one (.unsigned 1)
  | 4 => .one (.signed 2)
  | 5 => .one (.unsigned 2)
  | 6 => .one (.signed 4)
  | 7 => .one (.unsigned 4)
  | 8 => .one (.signed 8)
  | 9 => .one (.unsigned 8)
  | 10 => .one .float32
  | 11 => .one .float64
  | 12 => .string
  | 13 => .array .bool
  | 14 => .array (.signed 1)
  | 15 => .array (.unsigned 1)
  | 16 => .array (.signed 2)
  | 17 => .array (.unsigned 2)
  | 18 => .array (.signed 4)
  | 19 => .array (.unsigned 4)
  | 20 => .array (.signed 8)
  | 21 => .array (.unsigned 8)
  | 22 => .array .float32
  | 23 => .array .float64
  | 24 => .strings
  | 25 | 26 => .nested
  | _ => .unsupported

/-- The bytes of a value. -/
def Elem.width : Elem → ℕ
  | .bool => 1
  | .signed width | .unsigned width => width
  | .float32 => 4
  | .float64 => 8

def Elem.typeName : Elem → List UInt8
  | .bool => text "bool"
  | .signed width => text "int" ++ decimal (8 * width)
  | .unsigned width => text "uint" ++ decimal (8 * width)
  | .float32 => text "float32"
  | .float64 => text "float64"

/-- `field_type_name`. -/
def fieldTypeName (type : ℕ) : List UInt8 :=
  match leafKind type with
  | .one e => e.typeName
  | .string => text "string"
  | .array e => e.typeName ++ text "[]"
  | .strings => text "string[]"
  | .nested => if type = nestedTypeIndex then text "nested" else text "nested[]"
  | .unsupported => text "unknown"

/-! ## Specs -/

/-- `FieldOverride`. -/
structure FieldOverride where
  path : List UInt8
  value : List UInt8
  declaredType : List UInt8
  deriving DecidableEq, Repr

/-- What stands before the first separator, and behind it. -/
def cut (sep : UInt8) (s : List UInt8) : Option (List UInt8 × List UInt8) :=
  match s.dropWhile (· ≠ sep) with
  | [] => none
  | _ :: rest => some (s.takeWhile (· ≠ sep), rest)

/-- `'='`, `':'`, `'.'` and `','`. -/
def equalsSign : UInt8 := 61
def colon : UInt8 := 58
def dot : UInt8 := 46
def comma : UInt8 := 44

/-- `parse_override_spec`. -/
def parseOverrideSpec (spec : List UInt8) : Except (List UInt8) FieldOverride :=
  let emptyName := text "empty field name in '" ++ spec ++ text "'"
  let invalid :=
    text "invalid field spec '" ++ spec ++ text "' (expected name=value or name:type:value)"
  match cut equalsSign spec with
  | some (path, value) =>
      if path = [] then .error emptyName else .ok { path, value, declaredType := [] }
  | none =>
      match cut colon spec with
      | none => .error invalid
      | some (path, rest) =>
          match cut colon rest with
          | none => .error invalid
          | some (declaredType, value) =>
              if path = [] then .error emptyName else .ok { path, value, declaredType }

/-! ## Values -/

/-- Space and tab. -/
def isBlank (b : UInt8) : Bool := b = 32 || b = 9

/-- `trim`. -/
def trim (s : List UInt8) : List UInt8 :=
  ((s.dropWhile isBlank).reverse.dropWhile isBlank).reverse

/-- `split_array_literal`. -/
def splitArrayLiteral (raw : List UInt8) : List (List UInt8) :=
  let body := trim raw
  let inner :=
    if body.length ≥ 2 ∧ body.head? = some 91 ∧ body.getLast? = some 93
    then (body.drop 1).take (body.length - 2) else body
  let body := trim inner
  if body = [] then [] else (body.splitOn comma).map trim

/-- `parse_bool`. -/
def parseBool (s : List UInt8) : Except (List UInt8) Bool :=
  if s = text "true" ∨ s = text "1" ∨ s = text "True" then .ok true
  else if s = text "false" ∨ s = text "0" ∨ s = text "False" then .ok false
  else .error (text "invalid bool value '" ++ s ++ text "' (expected true/false/1/0)")

/-- `parse_signed`. -/
def parseSigned (s : List UInt8) (lo hi : ℤ) : Except (List UInt8) ℤ :=
  match stoll s with
  | some (v, []) =>
      if v < lo ∨ v > hi then
        .error (text "value " ++ s ++ text " out of range [" ++ toText lo ++ text ", " ++ toText hi
          ++ text "]")
      else .ok v
  | _ => .error (text "invalid integer value '" ++ s ++ text "'")

/-- `parse_unsigned`. -/
def parseUnsigned (s : List UInt8) (hi : ℕ) : Except (List UInt8) ℕ :=
  if s.head? = some 45 then
    .error (text "negative value '" ++ s ++ text "' for unsigned field")
  else
    match stoull s with
    | some (v, []) =>
        if v > hi then
          .error (text "value " ++ s ++ text " out of range [0, " ++ decimal hi ++ text "]")
        else .ok v
    | _ => .error (text "invalid unsigned value '" ++ s ++ text "'")

/-- The C++ library: `std::stod` with the position where it stopped, and `double` to `float`. -/
structure Floats where
  stod : List UInt8 → Option (BitVec 64 × ℕ)
  narrow : BitVec 64 → BitVec 32

/-- `parse_double`. -/
def Floats.parseDouble (fl : Floats) (s : List UInt8) : Except (List UInt8) (BitVec 64) :=
  match fl.stod s with
  | some (v, pos) =>
      if pos ≠ s.length then .error (text "invalid floating-point value '" ++ s ++ text "'")
      else .ok v
  | none => .error (text "invalid floating-point value '" ++ s ++ text "'")

/-- The object representation of an integer. -/
def intBytes (width : ℕ) (v : ℤ) : List UInt8 := leBytes width (v % 2 ^ (8 * width)).toNat

/-- The bytes of the value that a text stands for. -/
def Elem.parse (fl : Floats) (s : List UInt8) : Elem → Except (List UInt8) (List UInt8)
  | .bool => return [boolByte (← parseBool s)]
  | .signed width =>
      return intBytes width (← parseSigned s (-2 ^ (8 * width - 1)) (2 ^ (8 * width - 1) - 1))
  | .unsigned width => return intBytes width (← parseUnsigned s (2 ^ (8 * width) - 1))
  | .float32 => return leBytes 4 (fl.narrow (← fl.parseDouble s)).toNat
  | .float64 => return leBytes 8 (← fl.parseDouble s).toNat

/-- `set_array_impl`: the count is converted to a signed 32-bit number, and so many elements are
stored. -/
def arrayBytes (items : List (List UInt8)) : List UInt8 :=
  le32 items.length ++ (items.take (i32 items.length).toNat).flatten

/-- The value bytes that `set_leaf` stores in a field, or the error that it returns instead. -/
def leafData (fl : Floats) (field : MsgField) (value : List UInt8) :
    Except (List UInt8) (List UInt8) :=
  match leafKind field.type with
  | .one e => e.parse fl value
  | .string => .ok (GenericMessage.blob value)
  | .array e => return arrayBytes (← (splitArrayLiteral value).mapM fun item => e.parse fl item)
  | .strings =>
      let items := splitArrayLiteral value
      .ok (le32 items.length ++ items.flatMap GenericMessage.blob)
  | .nested =>
      .error (text "field '" ++ field.name
        ++ text "' is a nested message; override its members with dotted paths (e.g. "
        ++ field.name ++ text ".x=1.5)")
  | .unsupported => .error (text "unsupported field type for override")

/-- `set_leaf`. -/
def setLeaf (fl : Floats) (msg : GenericMessage) (field : MsgField) (value : List UInt8) :
    GenericMessage × Option (List UInt8) :=
  match leafData fl field value with
  | .ok data => (msg.setField ⟨field.name, byte field.type, data⟩, none)
  | .error err => (msg, some err)

/-! ## Default messages -/

/-- The default of a type: zeros, an empty string, or no elements. -/
def defaultData (type : ℕ) : Option (List UInt8) :=
  match leafKind type with
  | .one e => some (List.replicate e.width 0)
  | .string | .array _ | .strings => some (le32 0)
  | .nested => if type = nestedTypeIndex then none else some (le32 0)
  | .unsupported => none

/-- `build_default_message`; `depth` counts down from 17, and at 0 it is over 16 in the source.  The
second result is the one returned. -/
def buildDefaultMessage (registry : Registry) (fresh : ℕ → UInt8) :
    ℕ → GenericMessage → List MsgField → Except Fault (GenericMessage × Bool)
  | 0, msg, _ => return (msg, false)
  | depth + 1, msg, fields =>
      fields.foldlM (fun (msg, ok) f =>
        if f.type = nestedTypeIndex then do
          match if f.nestedType = [] then none else registry f.nestedType with
          | some schema =>
              let (nested, nestedOk) ←
                buildDefaultMessage registry fresh depth ⟨[], 0⟩ schema.fields
              return (← msg.setNested fresh f.name nested, nestedOk && ok)
          | none => return (← msg.setNested fresh f.name ⟨[], 0⟩, false)
        else
          match defaultData f.type with
          | some data => return (msg.setField ⟨f.name, byte f.type, data⟩, ok)
          | none => return (msg, ok)) (msg, true)

/-! ## Overrides -/

/-- What `get_nested` makes of the value bytes of a field; `none` where it throws
`std::runtime_error`. -/
def nestedFields (data : List UInt8) : Except Fault (Option (List FieldEntry)) :=
  let size := i32 (leNat (data.take 4))
  if data.length < 4 then return none
  else if size < 0 ∨ data.length < 4 + size.toNat then return none
  else do
    let fields ← GenericMessage.deserialize (Region.whole ((data.drop 4).take size.toNat))
    return fields.map Prod.fst

/-- `get_nested`. -/
def getNested (msg : GenericMessage) (name : List UInt8) :
    Except Fault (Option GenericMessage) :=
  match msg.fields.find? fun f => f.name = name with
  | none => return none
  | some f => return (← nestedFields f.data).map fun fields => ⟨fields, 0⟩

/-- The nested message that an override goes on in: that of the field, or a default one where there
is none to be read. -/
def childOf (registry : Registry) (fresh : ℕ → UInt8) (msg : GenericMessage) (name : List UInt8)
    (schema : MsgSchema) : Except Fault GenericMessage := do
  match ← getNested msg name with
  | some child => return child
  | none => return (← buildDefaultMessage registry fresh 17 ⟨[], 0⟩ schema.fields).1

/-- The error where the schema has no such field. -/
def noField (schema : MsgSchema) (head : List UInt8) : List UInt8 :=
  text "message type '" ++ schema.typeName ++ text "' has no field '" ++ head
    ++ text "'. Fields:" ++ schema.fields.flatMap fun f => text " " ++ f.name

/-- The error where the legacy form names another type. -/
def otherType (field : MsgField) (head declaredType : List UInt8) : List UInt8 :=
  text "field '" ++ head ++ text "' is declared as '" ++ fieldTypeName field.type
    ++ text "' in the .msg schema, but override says '" ++ declaredType ++ text "'"

/-- The error where the path goes on below a field that is not a nested message. -/
def notNested (field : MsgField) (head : List UInt8) : List UInt8 :=
  text "field '" ++ head ++ text "' is '" ++ fieldTypeName field.type
    ++ text "', dotted paths can only traverse nested message fields"

/-- The error where the nested type has no file. -/
def noSchema (field : MsgField) : List UInt8 :=
  text "no .msg schema found for nested type '" ++ field.nestedType ++ text "'"

/-- `apply_override_recursive`, with `path_left` as its first name and those behind it. -/
def applyOverrideRecursive (registry : Registry) (fl : Floats) (fresh : ℕ → UInt8)
    (ov : FieldOverride) : (rest : List (List UInt8)) → GenericMessage → MsgSchema →
      (head : List UInt8) → Except Fault (GenericMessage × Option (List UInt8))
  | [], msg, schema, head =>
      match schema.findField head with
      | none => return (msg, some (noField schema head))
      | some field =>
          if ov.declaredType ≠ [] ∧ ov.declaredType ≠ fieldTypeName field.type then
            return (msg, some (otherType field head ov.declaredType))
          else return setLeaf fl msg field ov.value
  | next :: rest, msg, schema, head =>
      match schema.findField head with
      | none => return (msg, some (noField schema head))
      | some field =>
          if field.type ≠ nestedTypeIndex then return (msg, some (notNested field head))
          else
            match registry field.nestedType with
            | none => return (msg, some (noSchema field))
            | some nestedSchema => do
                let child ← childOf registry fresh msg head nestedSchema
                let (child, err) ←
                  applyOverrideRecursive registry fl fresh ov rest child nestedSchema next
                match err with
                | some err => return (msg, some err)
                | none => return (← msg.setNested fresh head child, none)

/-- The names of a dotted path: the first, and those behind it. -/
def names (path : List UInt8) : List UInt8 × List (List UInt8) :=
  match path.splitOn dot with
  | [] => ([], [])
  | head :: rest => (head, rest)

/-- `apply_field_override` of a spec that has been parsed. -/
def applyFieldOverride (registry : Registry) (fl : Floats) (fresh : ℕ → UInt8)
    (msg : GenericMessage) (schema : MsgSchema) (ov : FieldOverride) :
    Except Fault (GenericMessage × Option (List UInt8)) :=
  if ov.path = [] then return (msg, some (text "empty field path"))
  else
    applyOverrideRecursive registry fl fresh ov (names ov.path).2 msg schema (names ov.path).1

/-- `apply_field_override` of a raw spec. -/
def applySpec (registry : Registry) (fl : Floats) (fresh : ℕ → UInt8) (msg : GenericMessage)
    (schema : MsgSchema) (spec : List UInt8) :
    Except Fault (GenericMessage × Option (List UInt8)) :=
  match parseOverrideSpec spec with
  | .error err => return (msg, some err)
  | .ok ov => applyFieldOverride registry fl fresh msg schema ov

end DzIpc.Publish
