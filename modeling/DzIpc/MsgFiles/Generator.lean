import DzIpc.Library.Pieces

/-!
# The `.msg` files of the generator

`msg_generator.py` and the registry of `batch_msg_srv_generator.py`: the names of the files, the
types they register, and what `parse_msg_file` makes of a text.  Text is ASCII, one character an
element of a list; a message that `ValueError` carries is the error.

Of a field what the generated C++ is made from is kept, but for `cpp_type`, which only writes
`base_type` and `array_size` in C++.
-/

namespace DzIpc.MsgFiles

/-- ASCII text. -/
abbrev Text : Type := List Char

/-- A `.msg` file: its path below the message directory, without the extension, and its text. -/
structure MsgFile where
  stem : Text
  text : Text
  deriving DecidableEq

/-- The name of the file, without the extension. -/
def MsgFile.baseName (f : MsgFile) : Text := f.stem.rtakeWhile (· ≠ '/')

/-- What the generated class writes for a field in front of its value, and the class of a nested
field: the members of `MsgField`. -/
structure MsgField where
  name : Text
  type : ℕ
  nestedType : Text
  deriving DecidableEq, Repr

namespace Generator

/-! ## Python strings -/

/-- `str.isspace`. -/
def isSpace (c : Char) : Bool :=
  (9 ≤ c.toNat && c.toNat ≤ 13) || (28 ≤ c.toNat && c.toNat ≤ 32)

/-- `str.strip`. -/
def strip (s : Text) : Text := (s.dropWhile isSpace).rdropWhile isSpace

/-- `str.split` without an argument. -/
def split (s : Text) : List Text := pieces isSpace s

/-- `str.capitalize`. -/
def capitalize : Text → Text
  | [] => []
  | c :: cs => c.toUpper :: cs.map Char.toLower

/-- The line ends of a file opened for text: each of them reads as one `\n`. -/
def universalNewlines : Text → Text
  | '\r' :: '\n' :: cs => '\n' :: universalNewlines cs
  | '\r' :: cs => '\n' :: universalNewlines cs
  | c :: cs => c :: universalNewlines cs
  | [] => []

/-- `readlines`, without the line ends.  Where the text ends in one, an empty line follows here,
which is skipped like every blank one. -/
def readlines (s : Text) : List Text := (universalNewlines s).splitOn '\n'

/-! ## Types -/

/-- `_snake_to_pascal`. -/
def snakeToPascal (name : Text) : Text := (pieces (· = '_') name).flatMap capitalize

/-- `NestedTypeInfo`. -/
structure NestedTypeInfo where
  fieldType : Text
  className : Text
  includePath : Text
  deriving DecidableEq

/-- A `dict` of nested types, the entry set last first. -/
abbrev Registry : Type := List (Text × NestedTypeInfo)

/-- The keys of `TYPE_MAPPING`. -/
def typeMapping : List Text :=
  ["bool".toList, "int8".toList, "uint8".toList, "int16".toList, "uint16".toList,
    "int32".toList, "uint32".toList, "int64".toList, "uint64".toList, "float32".toList,
    "float64".toList, "string".toList]

/-- `TYPE_INDEX`. -/
def typeIndex : List (Text × ℕ) :=
  [("bool".toList, 1), ("int8".toList, 2), ("uint8".toList, 3), ("int16".toList, 4),
    ("uint16".toList, 5), ("int32".toList, 6), ("uint32".toList, 7), ("int64".toList, 8),
    ("uint64".toList, 9), ("float32".toList, 10), ("float64".toList, 11), ("string".toList, 12),
    ("bool[]".toList, 13), ("int8[]".toList, 14), ("uint8[]".toList, 15),
    ("int16[]".toList, 16), ("uint16[]".toList, 17), ("int32[]".toList, 18),
    ("uint32[]".toList, 19), ("int64[]".toList, 20), ("uint64[]".toList, 21),
    ("float32[]".toList, 22), ("float64[]".toList, 23), ("string[]".toList, 24)]

/-- `NESTED_TYPE_INDEX`. -/
def nestedTypeIndex : ℕ := 25

/-- `NESTED_ARRAY_TYPE_INDEX`. -/
def nestedArrayTypeIndex : ℕ := 26

/-- The groups of `(.+)\[(\d+)\]` where it matches all of the text. -/
def fixedArrayMatch (fieldType : Text) : Option (Text × Text) :=
  match fieldType.reverse with
  | ']' :: cs =>
    match cs.dropWhile Char.isDigit with
    | '[' :: base =>
      if cs.takeWhile Char.isDigit = [] ∨ base = [] then none
      else some (base.reverse, (cs.takeWhile Char.isDigit).reverse)
    | _ => none
  | _ => none

/-- `int` of decimal digits. -/
def int (digits : Text) : ℕ := digits.foldl (fun n c => 10 * n + (c.toNat - '0'.toNat)) 0

/-- What `_parse_field_type` returns. -/
structure ParsedType where
  baseType : Text
  isArray : Bool
  isFixedArray : Bool
  arraySize : Option ℕ
  deriving DecidableEq

/-- `_parse_field_type`. -/
def parseFieldType (fieldType : Text) : Except Text ParsedType :=
  match fixedArrayMatch fieldType with
  | some (base, digits) =>
    if int digits = 0 then
      .error ("Fixed array size must be positive: ".toList ++ fieldType)
    else .ok ⟨base, true, true, some (int digits)⟩
  | none =>
    match fieldType.reverse with
    | ']' :: '[' :: base => .ok ⟨base.reverse, true, false, none⟩
    | _ => .ok ⟨fieldType, false, false, none⟩

/-- `_get_type_index`. -/
def getTypeIndex (nestedTypes : Registry) (fieldType : Text) : Except Text ℕ := do
  let ⟨baseType, isArray, _, _⟩ ← parseFieldType fieldType
  if (nestedTypes.lookup baseType).isSome then
    return if isArray then nestedArrayTypeIndex else nestedTypeIndex
  let typeKey := if isArray then baseType ++ "[]".toList else baseType
  match typeIndex.lookup typeKey with
  | some n => return n
  | none => throw ("Unsupported type index: ".toList ++ fieldType)

/-! ## Fields -/

/-- `FieldInfo`; a field is nested if it has a `nestedInfo`. -/
structure FieldInfo where
  fieldType : Text
  baseType : Text
  fieldName : Text
  isArray : Bool
  isString : Bool
  isFixedArray : Bool
  arraySize : Option ℕ
  nestedInfo : Option NestedTypeInfo
  deriving DecidableEq

/-- The nested type of a field that holds one message (`is_nested and not is_array`). -/
def FieldInfo.nestedScalar (field : FieldInfo) : Option NestedTypeInfo :=
  if field.isArray then none else field.nestedInfo

/-- `_resolve_field_info`, in the file named `currentBaseName`. -/
def resolveFieldInfo (nestedTypes : Registry) (currentBaseName fieldType fieldName : Text) :
    Except Text FieldInfo := do
  let ⟨baseType, isArray, isFixedArray, arraySize⟩ ← parseFieldType fieldType
  if baseType ∈ typeMapping then
    return ⟨fieldType, baseType, fieldName, isArray, baseType = "string".toList, isFixedArray,
      arraySize, none⟩
  match nestedTypes.lookup baseType with
  | some nestedInfo =>
    if currentBaseName ≠ [] ∧ nestedInfo.fieldType = currentBaseName then
      throw ("Recursive nested message is not supported: ".toList ++ baseType)
    return ⟨fieldType, baseType, fieldName, isArray, false, isFixedArray, arraySize,
      some nestedInfo⟩
  | none => throw ("Unsupported type: ".toList ++ baseType)

/-- The body of the loop of `parse_msg_file`. -/
def parseLine (nestedTypes : Registry) (currentBaseName line : Text) :
    Except Text (Option FieldInfo) :=
  let line := strip line
  if line = [] ∨ line.head? = some '#' then .ok none
  else
    match split line with
    | fieldType :: fieldName :: _ =>
      some <$> resolveFieldInfo nestedTypes currentBaseName fieldType fieldName
    | _ => .ok none

/-- The loop of `parse_msg_file`: the first line that is refused ends it. -/
def parseLines (nestedTypes : Registry) (currentBaseName : Text) :
    List Text → Except Text (List FieldInfo)
  | [] => return []
  | line :: lines => do
    let field ← parseLine nestedTypes currentBaseName line
    let fields ← parseLines nestedTypes currentBaseName lines
    return field.toList ++ fields

/-- `MessageGenerator.parse_msg_file`. -/
def parseMsgFile (nestedTypes : Registry) (f : MsgFile) : Except Text (List FieldInfo) :=
  parseLines nestedTypes f.baseName (readlines f.text)

/-- The name of the field, the type byte that the generated class writes for it, and the name of
its class. -/
def FieldInfo.written (nestedTypes : Registry) (field : FieldInfo) : Except Text MsgField := do
  let type ← getTypeIndex nestedTypes field.fieldType
  return ⟨field.fieldName, type, (field.nestedInfo.map NestedTypeInfo.className).getD []⟩

/-! ## The registry -/

/-- Whether a name matches `[a-z][a-z0-9_]*`. -/
def matchesBaseName : Text → Bool
  | [] => false
  | c :: cs => c.isLower && cs.all fun d => d.isLower || d.isDigit || d = '_'

/-- `snake_to_pascal_checked`. -/
def snakeToPascalChecked (name : Text) : Except Text Text :=
  if matchesBaseName name then .ok (snakeToPascal name)
  else .error ("Msg file name must start with a lowercase letter and contain only " ++
    "lowercase letters, digits, and underscores").toList

/-- The `NestedTypeInfo` of a file, under the name of its class. -/
def nestedTypeInfo (f : MsgFile) (className : Text) : NestedTypeInfo :=
  ⟨f.baseName, className, "ipc_msg/".toList ++ f.stem ++ ".hpp".toList⟩

/-- The loop of `build_msg_type_registry`. -/
def registerFiles (registry : Registry) : List MsgFile → Except Text Registry
  | [] => return registry
  | f :: files => do
    let className ← snakeToPascalChecked f.baseName
    registerFiles ((className, nestedTypeInfo f className) ::
      (f.baseName, nestedTypeInfo f className) :: registry) files

/-- `build_msg_type_registry`. -/
def buildMsgTypeRegistry (files : List MsgFile) : Except Text Registry := registerFiles [] files

end Generator

end DzIpc.MsgFiles
