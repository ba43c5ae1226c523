import DzIpc.Library.Decimal
import DzIpc.Wire.Codec

/-!
# The decoder of the echo tool

`dzipc_topic_cat` shows the messages of a topic without their schema: `msg_to_string`
(`msg_type_identify.h`) walks over the fields of a serialized message and prints a name and a value
for each.  It is the third reader of the paged format, and the only one without a check: every
length and every count is taken from the buffer as it is.

A read outside of the buffer ends the model.  Exceptions end it too, and the bytes allocated up to
then are kept, for they are what a hostile buffer is after: strings, arrays, nested buffers and the
text itself.  The loop over the fields and the recursion into nested messages run on fuel.
-/

namespace DzIpc.TopicCat

open Wire

/-- The text of a `std::string` or a `std::stringstream`. -/
abbrev Text : Type := List UInt8

/-- How the library prints floating-point numbers: `%g` with a precision of 6, so at most the
13 characters of `-2.22507e-308`. -/
structure FloatText where
  float32 : BitVec 32 → Text
  float64 : BitVec 64 → Text
  length_float32 : ∀ v, (float32 v).length ≤ 13
  length_float64 : ∀ v, (float64 v).length ≤ 13

/-! ## The types -/

/-- The types whose value is no message. -/
inductive PlainType where
  | bool
  | scalar (s : Scalar)
  | string
  | boolArray
  | scalarArray (s : Scalar)
  | stringArray
  deriving DecidableEq, Repr

/-- `MsgType`. -/
inductive MsgType where
  | plain (t : PlainType)
  | nested
  | nestedArray
  deriving DecidableEq, Repr

/-- The `switch` over the type byte; `none` is its `default`. -/
def msgType : ℕ → Option MsgType
  | 1 => some (.plain .bool)
  | 2 => some (.plain (.scalar .int8))
  | 3 => some (.plain (.scalar .uint8))
  | 4 => some (.plain (.scalar .int16))
  | 5 => some (.plain (.scalar .uint16))
  | 6 => some (.plain (.scalar .int32))
  | 7 => some (.plain (.scalar .uint32))
  | 8 => some (.plain (.scalar .int64))
  | 9 => some (.plain (.scalar .uint64))
  | 10 => some (.plain (.scalar .float32))
  | 11 => some (.plain (.scalar .float64))
  | 12 => some (.plain .string)
  | 13 => some (.plain .boolArray)
  | 14 => some (.plain (.scalarArray .int8))
  | 15 => some (.plain (.scalarArray .uint8))
  | 16 => some (.plain (.scalarArray .int16))
  | 17 => some (.plain (.scalarArray .uint16))
  | 18 => some (.plain (.scalarArray .int32))
  | 19 => some (.plain (.scalarArray .uint32))
  | 20 => some (.plain (.scalarArray .int64))
  | 21 => some (.plain (.scalarArray .uint64))
  | 22 => some (.plain (.scalarArray .float32))
  | 23 => some (.plain (.scalarArray .float64))
  | 24 => some (.plain .stringArray)
  | 25 => some .nested
  | 26 => some .nestedArray
  | _ => none

/-! ## Printing -/

/-- A signed number. -/
def signedText (z : ℤ) : Text :=
  if z < 0 then 45 :: decimal z.natAbs else decimal z.natAbs

/-- `ss << value`; the one-byte types are cast to `int` and `unsigned int` first. -/
def scalarText (floats : FloatText) : (s : Scalar) → s.Value → Text
  | .int8, v => signedText (BitVec.toInt v)
  | .int16, v => signedText (BitVec.toInt v)
  | .int32, v => signedText (BitVec.toInt v)
  | .int64, v => signedText (BitVec.toInt v)
  | .uint8, v => decimal (BitVec.toNat v)
  | .uint16, v => decimal (BitVec.toNat v)
  | .uint32, v => decimal (BitVec.toNat v)
  | .uint64, v => decimal (BitVec.toNat v)
  | .float32, v => floats.float32 v
  | .float64, v => floats.float64 v

/-- A `bool`, without `std::boolalpha`. -/
def boolText (b : Bool) : Text := if b then [49] else [48]

/-- An element of a string array. -/
def quoted (str : Text) : Text := 34 :: str ++ [34]

/-- `ss << name << ": " << value << "\n"`. -/
def line (name value : Text) : Text := name ++ bytesOf [':', ' '] ++ value ++ bytesOf ['\n']

/-- The loop over the elements of an array. -/
def elements : List Text → Text
  | [] => []
  | [item] => item
  | item :: items => item ++ bytesOf [',', ' '] ++ elements items

/-- An array. -/
def arrayLine (name : Text) (items : List Text) : Text :=
  name ++ bytesOf [':', ' ', '[', ' '] ++ elements items ++ bytesOf [' ', ']', '\n']

/-- The header of a nested message. -/
def nestedLine (name : Text) : Text := name ++ bytesOf [':', '\n']

/-- The header of an array of nested messages. -/
def nestedArrayLine (name : Text) : Text := name ++ bytesOf [':', ' ', '[', '\n']

/-- The line before an element. -/
def dashLine : Text := bytesOf [' ', ' ', '-', '\n']

/-- The line behind the elements. -/
def closeLine : Text := bytesOf [']', '\n']

/-- The indentation of a nested message. -/
def nestedIndent : Text := bytesOf [' ', ' ']

/-- The indentation of an element. -/
def elementIndent : Text := bytesOf [' ', ' ', ' ', ' ']

/-- The `std::getline` loop, with whether a line has begun. -/
def indentFrom (indent : Text) : Bool → Text → Text
  | false, [] => []
  | true, [] => bytesOf ['\n']
  | begun, b :: rest =>
      (if begun then [] else indent) ++ b :: indentFrom indent (decide (b ≠ 10)) rest

/-- `indent_lines`. -/
def indentLines (input indent : Text) : Text := indentFrom indent false input

/-! ## Reading -/

/-- An exception. -/
inductive Thrown where
  /-- `std::runtime_error`, with its text. -/
  | unsupported (what : Text)
  /-- `std::length_error`: a vector is asked for a negative count. -/
  | lengthError
  /-- `std::bad_array_new_length`: a nested message has a negative size. -/
  | badArrayNewLength
  deriving DecidableEq, Repr

/-- Why `msg_to_string` does not return. -/
inductive Stop where
  /-- A byte outside of the buffer was read. -/
  | outOfBounds
  /-- An exception was thrown, after so many bytes had been allocated. -/
  | thrown (what : Thrown) (allocated : ℕ)
  /-- The fuel ran out. -/
  | outOfFuel
  deriving DecidableEq, Repr

/-- The running `offset`, and the bytes allocated so far. -/
structure Reader where
  offset : ℕ
  allocated : ℕ
  deriving DecidableEq, Repr

namespace Reader

/-- `offset += step`. -/
def skip (c : Reader) (step : ℕ) : Reader := { c with offset := u32 (c.offset + step) }

/-- Account for an allocation. -/
def allocate (c : Reader) (size : ℕ) : Reader := { c with allocated := c.allocated + size }

@[simp] theorem allocate_offset (c : Reader) (size : ℕ) : (c.allocate size).offset = c.offset := rfl

@[simp] theorem allocate_allocated (c : Reader) (size : ℕ) :
    (c.allocate size).allocated = c.allocated + size := rfl

@[simp] theorem skip_allocated (c : Reader) (step : ℕ) : (c.skip step).allocated = c.allocated := rfl

end Reader

/-- `memcpy` of `len` bytes from `buffer + offset`. -/
def copy (buffer : List UInt8) (offset len : ℕ) : Except Stop (List UInt8) :=
  if len = 0 ∨ offset + len ≤ buffer.length then .ok ((buffer.drop offset).take len)
  else .error .outOfBounds

/-- The rounds of a read and the remainder after them, for the `left` bytes of the destination not
yet filled. -/
def copyLoop (buffer : List UInt8) : ℕ → Reader → ℕ → ℕ → Except Stop (List UInt8 × Reader)
  | 0, c, _, left =>
      if left > 0 then do
        let bytes ← copy buffer c.offset left
        return (bytes, c.skip left)
      else return ([], c)
  | i + 1, c, pureDataOffset, left => do
      let copySize := min (ipcMsgMaxSize - pureDataOffset % ipcMsgMaxSize) left
      let bytes ← copy buffer c.offset copySize
      let (rest, c) ← copyLoop buffer i (c.skip (copySize + tailMsgSize))
        (u32 (pureDataOffset + copySize)) (left - copySize)
      return (bytes ++ rest, c)

/-- What the four readers have in common: fill a destination of `len` bytes. -/
def readInto (buffer : List UInt8) (c : Reader) (len : ℕ) : Except Stop (List UInt8 × Reader) :=
  let pureDataOffset := toPureOffset c.offset
  let cutCnt := sub32 (u32 (pureDataOffset + len) / ipcMsgMaxSize) (pureDataOffset / ipcMsgMaxSize)
  copyLoop buffer cutCnt c pureDataOffset len

/-- `read_value_from_buffer`, for an object of `width` bytes. -/
def readValueFromBuffer (buffer : List UInt8) (c : Reader) (width : ℕ) :
    Except Stop (List UInt8 × Reader) :=
  readInto buffer c width

/-- `read_value_from_buffer<int32_t>`. -/
def readInt32FromBuffer (buffer : List UInt8) (c : Reader) : Except Stop (ℤ × Reader) := do
  let (bytes, c) ← readValueFromBuffer buffer c 4
  return (i32 (leNat bytes), c)

/-- `read_string_from_buffer`. -/
def readStringFromBuffer (buffer : List UInt8) (c : Reader) : Except Stop (Text × Reader) := do
  let (strSize, c) ← readInt32FromBuffer buffer c
  if strSize > 0 then readInto buffer (c.allocate strSize.toNat) strSize.toNat
  else return ([], c)

/-- `read_raw_buffer_from_buffer`. -/
def readRawBufferFromBuffer (buffer : List UInt8) (c : Reader) (dataSize : ℤ) :
    Except Stop (List UInt8 × Reader) :=
  if dataSize < 0 then .error (.thrown .badArrayNewLength c.allocated)
  else if dataSize ≤ 0 then .ok ([], c)
  else readInto buffer (c.allocate dataSize.toNat) dataSize.toNat

/-- `read_array_from_buffer<T>` with a `T` of `width` bytes.  The vector holds zeros behind the
bytes that are copied; `total_size` has 32 bits. -/
def readArrayFromBuffer (buffer : List UInt8) (c : Reader) (width : ℕ) (elementCount : ℤ) :
    Except Stop (List (BitVec (8 * width)) × Reader) :=
  if elementCount < 0 then .error (.thrown .lengthError c.allocated)
  else do
    let count := elementCount.toNat
    let (bytes, c) ← readInto buffer (c.allocate (count * width)) (u32 (count * width))
    return (ofBytes width count bytes, c)

/-- `read_array_from_buffer<bool>`: through a `std::vector<uint8_t>`, into a vector of bits. -/
def readBoolArrayFromBuffer (buffer : List UInt8) (c : Reader) (elementCount : ℤ) :
    Except Stop (List Bool × Reader) := do
  let (tempArray, c) ← readArrayFromBuffer buffer c 1 elementCount
  return (tempArray.map fun b => decide (b ≠ 0), c.allocate ((tempArray.length + 7) / 8))

/-- `sizeof(std::string)`. -/
def stringSize : ℕ := 32

/-- The loop over the elements of a string array. -/
def readStringsFromBuffer (buffer : List UInt8) : ℕ → Reader → Except Stop (List Text × Reader)
  | 0, c => return ([], c)
  | count + 1, c => do
      let (str, c) ← readStringFromBuffer buffer c
      let (strs, c) ← readStringsFromBuffer buffer count c
      return (str :: strs, c)

/-! ## The cases of the switch -/

/-- The cases without a nested message. -/
def plainToString (floats : FloatText) (buffer : List UInt8) (name : Text) (c : Reader) :
    PlainType → Except Stop (Text × Reader)
  | .bool => do
      let (bytes, c) ← readValueFromBuffer buffer c 1
      return (line name (boolText (decide (leNat bytes = 1))), c)
  | .scalar s => do
      let (bytes, c) ← readValueFromBuffer buffer c s.size
      return (line name (scalarText floats s (BitVec.ofNat _ (leNat bytes))), c)
  | .string => do
      let (value, c) ← readStringFromBuffer buffer c
      return (line name value, c)
  | .boolArray => do
      let (count, c) ← readInt32FromBuffer buffer c
      let (value, c) ← readBoolArrayFromBuffer buffer c count
      return (arrayLine name (value.map boolText), c)
  | .scalarArray s => do
      let (count, c) ← readInt32FromBuffer buffer c
      let (value, c) ← readArrayFromBuffer buffer c s.size count
      return (arrayLine name (value.map (scalarText floats s)), c)
  | .stringArray => do
      let (count, c) ← readInt32FromBuffer buffer c
      if count < 0 then .error (.thrown .lengthError c.allocated)
      else
        let (value, c) ← readStringsFromBuffer buffer count.toNat
          (c.allocate (count.toNat * stringSize))
        return (arrayLine name (value.map quoted), c)

/-- A nested message: its bytes are copied to a buffer of their own, which `msg_to_string` is called
on, and its text is indented.  `indent_lines` copies the text to a stream. -/
def nestedToString (msgToString : List UInt8 → ℕ → Except Stop (Text × ℕ)) (buffer : List UInt8)
    (c : Reader) (indent : Text) : Except Stop (Text × Reader) := do
  let (nestedSize, c) ← readInt32FromBuffer buffer c
  let (nestedBuffer, c) ← readRawBufferFromBuffer buffer c nestedSize
  let (text, allocated) ← msgToString nestedBuffer c.allocated
  let lines := indentLines text indent
  return (lines, { c with allocated := allocated + text.length + lines.length })

/-- The loop over the elements of an array of nested messages. -/
def elementsToString (msgToString : List UInt8 → ℕ → Except Stop (Text × ℕ))
    (buffer : List UInt8) : ℕ → Reader → Except Stop (Text × Reader)
  | 0, c => return ([], c)
  | count + 1, c => do
      let (lines, c) ← nestedToString msgToString buffer c elementIndent
      let c := c.allocate (dashLine.length + lines.length)
      let (rest, c) ← elementsToString msgToString buffer count c
      return (dashLine ++ lines ++ rest, c)

/-- The text of the exception. -/
def unsupportedText (type : ℕ) (name : Text) : Text :=
  bytesOf "Unsupported message type".toList ++ decimal type ++ bytesOf " for field: ".toList ++ name

/-- One field: what is printed for it. -/
def fieldToString (floats : FloatText) (msgToString : List UInt8 → ℕ → Except Stop (Text × ℕ))
    (buffer : List UInt8) (c : Reader) : Except Stop (Text × Reader) := do
  let (name, c) ← readStringFromBuffer buffer c
  let (typeByte, c) ← readValueFromBuffer buffer c 1
  let type := leNat typeByte
  match msgType type with
  | some (.plain t) =>
      let (text, c) ← plainToString floats buffer name c t
      return (text, c.allocate text.length)
  | some .nested =>
      let (lines, c) ← nestedToString msgToString buffer c nestedIndent
      let text := nestedLine name ++ lines
      return (text, c.allocate text.length)
  | some .nestedArray =>
      let (count, c) ← readInt32FromBuffer buffer c
      let c := c.allocate (nestedArrayLine name).length
      let (items, c) ← elementsToString msgToString buffer count.toNat c
      return (nestedArrayLine name ++ items ++ closeLine, c.allocate closeLine.length)
  | none =>
      let what := unsupportedText type name
      .error (.thrown (.unsupported what) (c.allocated + what.length))

/-- The loop over the fields. -/
def fieldsToString (floats : FloatText) (buffer : List UInt8) :
    ℕ → Reader → Except Stop (Text × ℕ)
  | 0, _ => .error .outOfFuel
  | fuel + 1, c =>
      if u32 (c.offset + tailMsgSize) ≥ u32 buffer.length then return ([], c.allocated)
      else do
        -- the tail of a page is skipped; no read ends in front of one
        let c := if c.offset % (ipcMsgMaxSize + tailMsgSize) = ipcMsgMaxSize then c.skip tailMsgSize
          else c
        let (text, c) ← fieldToString floats
          (fun nested allocated =>
            if nested = [] then return ([], allocated)
            else fieldsToString floats nested fuel { offset := 0, allocated := allocated })
          buffer c
        let (rest, allocated) ← fieldsToString floats buffer fuel c
        return (text ++ rest, allocated)

/-- `msg_to_string`, which starts when `allocated` bytes are allocated: the text, and the bytes
allocated at its end. -/
def msgToString (floats : FloatText) (fuel : ℕ) (rawData : List UInt8) (allocated : ℕ) :
    Except Stop (Text × ℕ) :=
  if rawData = [] then return ([], allocated)
  else fieldsToString floats rawData fuel { offset := 0, allocated := allocated }

end DzIpc.TopicCat
