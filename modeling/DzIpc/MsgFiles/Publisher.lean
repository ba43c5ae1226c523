import DzIpc.MsgFiles.Generator

/-!
# The `.msg` files of `dzipc_pub`

`msg_schema.h` and `build_default_message` of `msg_builder.h`: the publisher parses the files by
itself, finds the file of a class by the name of the class, and fills a message with a default
for every field.

`SchemaRegistry` keeps what it has parsed; as the files stay as they are, `load` here parses again.
A nested value of a default message is kept as the message it is, before it is serialized.
-/

namespace DzIpc.MsgFiles.Publisher

/-! ## Schemas -/

/-- `MsgSchema`. -/
structure MsgSchema where
  typeName : Text
  fields : List MsgField
  deriving DecidableEq

/-- The loop of `snake_to_pascal`, with its flag `capitalize`. -/
def snakeToPascalLoop (capitalize : Bool) : Text → Text
  | [] => []
  | c :: cs =>
    if c = '_' then snakeToPascalLoop true cs
    else if capitalize then c.toUpper :: snakeToPascalLoop false cs
    else c :: snakeToPascalLoop capitalize cs

/-- `snake_to_pascal`. -/
def snakeToPascal (snake : Text) : Text := snakeToPascalLoop true snake

/-- What stands before `[]`, if the text ends so and is longer. -/
def arrayBase (typeStr : Text) : Option Text :=
  match typeStr.reverse with
  | ']' :: '[' :: c :: cs => some (c :: cs).reverse
  | _ => none

/-- `FT_BOOL` to `FT_STRING`, each with the type of its array. -/
def primitiveTypes : List (Text × ℕ × ℕ) :=
  [("bool".toList, 1, 13), ("int8".toList, 2, 14), ("uint8".toList, 3, 15),
    ("int16".toList, 4, 16), ("uint16".toList, 5, 17), ("int32".toList, 6, 18),
    ("uint32".toList, 7, 19), ("int64".toList, 8, 20), ("uint64".toList, 9, 21),
    ("float32".toList, 10, 22), ("float64".toList, 11, 23), ("string".toList, 12, 24)]

/-- `FT_NESTED`. -/
def ftNested : ℕ := 25

/-- `FT_NESTED_ARRAY`. -/
def ftNestedArray : ℕ := 26

/-- `msg_field_type_byte`: the byte and `is_nested`. -/
def msgFieldTypeByte (typeStr : Text) : ℕ × Bool :=
  let isArray := (arrayBase typeStr).isSome
  let base := (arrayBase typeStr).getD typeStr
  match primitiveTypes.lookup base with
  | some (scalar, array) => (if isArray then array else scalar, false)
  | none => (if isArray then ftNestedArray else ftNested, true)

/-- Space and tab. -/
def isBlank (c : Char) : Bool := c = ' ' || c = '\t'

/-- What is cut off at the end of a line. -/
def isTrailing (c : Char) : Bool := isBlank c || c = '\r'

/-- The field of a type and a name. -/
def field (typeStr fieldName : Text) : MsgField :=
  let (type, isNested) := msgFieldTypeByte typeStr
  ⟨fieldName, type,
    if isNested then snakeToPascal ((arrayBase typeStr).getD typeStr) else []⟩

/-- A line without the blanks around it: `content`. -/
def content (line : Text) : Text := (line.dropWhile isBlank).rdropWhile isTrailing

/-- The body of the loop of `parse_msg_file`. -/
def parseLine (line : Text) : Option MsgField :=
  let line := line.dropWhile isBlank
  if line = [] ∨ line.head? = some '#' then none
  else
    let content := line.rdropWhile isTrailing
    match content.dropWhile (!isBlank ·) with
    | [] => none
    | _ :: rest =>
      let typeStr := content.takeWhile (!isBlank ·)
      let fieldName := rest.dropWhile isBlank
      if fieldName = [] ∨ typeStr = [] then none else some (field typeStr fieldName)

/-- `parse_msg_file`.  `getline` returns no empty line after the last `\n`; here it is skipped
like every empty one. -/
def parseMsgFile (f : MsgFile) : MsgSchema :=
  ⟨snakeToPascal f.baseName, (f.text.splitOn '\n').filterMap parseLine⟩

/-- `find_msg_file`, on the files in the order in which the directory is walked. -/
def findMsgFile (walk : List MsgFile) (typeName : Text) : Option MsgFile :=
  walk.find? fun f => snakeToPascal f.baseName = typeName

/-- `SchemaRegistry::load`. -/
def load (walk : List MsgFile) (typeName : Text) : Option MsgSchema :=
  (findMsgFile walk typeName).map parseMsgFile

/-- `nested_schema` of a field. -/
def loadNested (walk : List MsgFile) (f : MsgField) : Option MsgSchema :=
  if f.nestedType = [] then none else load walk f.nestedType

/-! ## Default messages -/

/-- The value of a field: its bytes, or a nested message. -/
inductive Data (μ : Type) where
  | bytes (b : List UInt8)
  | nested (msg : μ)

/-- A field of a message. -/
structure Entry (μ : Type) where
  name : Text
  type : ℕ
  data : Data μ

/-- `GenericMessage`. -/
inductive Message where
  | mk (fields : List (Entry Message))

namespace Message

/-- `fields_`. -/
def fields : Message → List (Entry Message)
  | mk fields => fields

/-- The message without fields. -/
def empty : Message := mk []

/-- The setters: they overwrite the field of that name, or add one. -/
def set (m : Message) (e : Entry Message) : Message :=
  match m.fields.findIdx? fun f => f.name = e.name with
  | some i => mk (m.fields.set i e)
  | none => mk (m.fields ++ [e])

end Message

/-- The size of the default of a type: zeros, an empty string or no elements. -/
def defaultSize : ℕ → ℕ
  | 1 | 2 | 3 => 1
  | 4 | 5 => 2
  | 8 | 9 | 11 => 8
  | _ => 4

/-- `build_default_message`, on the message `msg`; `depth` counts down from 17, and at 0 it is
over 16 in the source.  The second result is the one returned. -/
def buildDefaultMessage (walk : List MsgFile) :
    (depth : ℕ) → (msg : Message) → (fields : List MsgField) → Message × Bool
  | 0, msg, _ => (msg, false)
  | depth + 1, msg, fields =>
    fields.foldl (fun (msg, ok) f =>
      if f.type = ftNested then
        match loadNested walk f with
        | some schema =>
          let (nested, nestedOk) := buildDefaultMessage walk depth Message.empty schema.fields
          (msg.set ⟨f.name, f.type, .nested nested⟩, nestedOk && ok)
        | none => (msg.set ⟨f.name, f.type, .nested Message.empty⟩, false)
      else (msg.set ⟨f.name, f.type, .bytes (List.replicate (defaultSize f.type) 0)⟩, ok))
      (msg, true)

end DzIpc.MsgFiles.Publisher
