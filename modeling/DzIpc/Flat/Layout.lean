import DzIpc.Wire.Schema

/-!
# The root records of flat segments

`dzflat_generator.py` lays every message out as a record of fixed size: numbers and fixed arrays
of numbers in place, everything of variable length as a `VarRef`, nested messages in place as
their own records.  The offsets follow the rules of the C++ compiler, which checks them.
-/

namespace DzIpc.Flat

open Wire

/-- `_align_up`, `align_to`. -/
def alignTo (n a : ℕ) : ℕ := (n + a - 1) / a * a

/-- `_ROOT_ALIGN`, `kAlign`. -/
def rootAlign : ℕ := 8

/-- `sizeof(VarRef)` and `alignof(VarRef)`. -/
def varRefSize : ℕ := 8
def varRefAlign : ℕ := 4

/-- `_member_layout` of a field that is not a nested message: its size. -/
def memberSize : Kind → ℕ
  | .scalar s => s.size
  | .bool => 1
  | .scalars s (some n) => s.size * n
  | .bools (some n) => n
  | .string | .scalars _ none | .bools none | .strings _ => varRefSize

/-- `_member_layout` of a field that is not a nested message: its alignment. -/
def memberAlign : Kind → ℕ
  | .scalar s | .scalars s (some _) => s.size
  | .bool | .bools (some _) => 1
  | .string | .scalars _ none | .bools none | .strings _ => varRefAlign

/-- The size of a record whose members end at `cur`; an empty record is all padding. -/
def recordSize : Schema → ℕ → ℕ
  | .nil, _ => rootAlign
  | _, cur => alignTo cur rootAlign

/-- `compute_layout`: where the members end that follow those up to `cur`. -/
def layoutEnd : Schema → ℕ → ℕ
  | .nil, cur => cur
  | .field _ k rest, cur => layoutEnd rest (alignTo cur (memberAlign k) + memberSize k)
  | .nested _ msg rest, cur =>
      layoutEnd rest (alignTo cur rootAlign + recordSize msg (layoutEnd msg 0))
  | .nestedArray _ _ _ rest, cur => layoutEnd rest (alignTo cur varRefAlign + varRefSize)

/-- `sizeof(XxxRoot)`. -/
def rootSize (S : Schema) : ℕ := recordSize S (layoutEnd S 0)

theorem le_alignTo (n : ℕ) {a : ℕ} (ha : 0 < a) : n ≤ alignTo n a := by
  unfold alignTo
  have hmod := Nat.div_add_mod (n + a - 1) a
  have hlt := Nat.mod_lt (n + a - 1) ha
  rw [Nat.mul_comm] at hmod
  omega

theorem memberAlign_pos (k : Kind) : 0 < memberAlign k := by
  unfold memberAlign
  split
  all_goals first | exact Scalar.size_pos _ | decide

theorem le_recordSize (S : Schema) {cur : ℕ} (hcur : S = .nil → cur = 0) :
    cur ≤ recordSize S cur := by
  cases S with
  | nil => exact (hcur rfl).le.trans (Nat.zero_le _)
  | field _ _ _ => exact le_alignTo _ (by decide)
  | nested _ _ _ => exact le_alignTo _ (by decide)
  | nestedArray _ _ _ _ => exact le_alignTo _ (by decide)

theorem le_layoutEnd (S : Schema) : ∀ cur, cur ≤ layoutEnd S cur := by
  induction S with
  | nil => exact fun cur => Nat.le_refl cur
  | field _ k rest ih =>
      intro cur
      have hstart := le_alignTo cur (memberAlign_pos k)
      exact (hstart.trans (Nat.le_add_right _ _)).trans (ih _)
  | nested _ msg rest _ ih =>
      intro cur
      have hstart := le_alignTo cur (a := rootAlign) (by decide)
      exact (hstart.trans (Nat.le_add_right _ _)).trans (ih _)
  | nestedArray _ _ msg rest _ ih =>
      intro cur
      have hstart := le_alignTo cur (a := varRefAlign) (by decide)
      exact (hstart.trans (Nat.le_add_right _ _)).trans (ih _)

/-- The members end inside of the record. -/
theorem layoutEnd_le_rootSize (S : Schema) : layoutEnd S 0 ≤ rootSize S := by
  apply le_recordSize
  rintro rfl
  rfl

theorem memberSize_pos (k : Kind) : 0 < memberSize k := by
  unfold memberSize
  split
  · exact Scalar.size_pos _
  · decide
  · exact Nat.mul_pos (Scalar.size_pos _) (PNat.pos _)
  · exact PNat.pos _
  all_goals decide

/-- No record is empty. -/
theorem rootSize_pos (S : Schema) : 0 < rootSize S := by
  have hend := layoutEnd_le_rootSize S
  induction S with
  | nil => decide
  | field name k rest _ =>
      have hmember := memberSize_pos k
      have hrest : _ ≤ layoutEnd (.field name k rest) 0 :=
        le_layoutEnd rest (alignTo 0 (memberAlign k) + memberSize k)
      omega
  | nested name msg rest ihmsg _ =>
      have hmember := ihmsg (layoutEnd_le_rootSize msg)
      have hrest : _ ≤ layoutEnd (.nested name msg rest) 0 :=
        le_layoutEnd rest (alignTo 0 rootAlign + rootSize msg)
      omega
  | nestedArray name size msg rest _ _ =>
      have hrest : _ ≤ layoutEnd (.nestedArray name size msg rest) 0 :=
        le_layoutEnd rest (alignTo 0 varRefAlign + varRefSize)
      have hmember : 0 < varRefSize := by decide
      omega

/-! ## The schema hash -/

private def ascii (chars : List Char) : List UInt8 := chars.map fun c => .ofNat c.toNat

/-- The IDL name of a number type. -/
def scalarName : Scalar → List Char
  | .int8 => "int8".toList
  | .uint8 => "uint8".toList
  | .int16 => "int16".toList
  | .uint16 => "uint16".toList
  | .int32 => "int32".toList
  | .uint32 => "uint32".toList
  | .int64 => "int64".toList
  | .uint64 => "uint64".toList
  | .float32 => "float32".toList
  | .float64 => "float64".toList

def arraySuffix : ArraySize → List Char
  | none => "[]".toList
  | some n => '[' :: (toString (n : ℕ)).toList ++ [']']

/-- `_Field.token` of a field that is not a nested message. -/
def token : Kind → List Char
  | .scalar s => scalarName s
  | .bool => "bool".toList
  | .string => "string".toList
  | .scalars s size => scalarName s ++ arraySuffix size
  | .bools size => "bool".toList ++ arraySuffix size
  | .strings size => "string".toList ++ arraySuffix size

/-- The entries `name:token` of the fields. -/
def canonFields : Schema → List (List UInt8)
  | .nil => []
  | .field name k rest => (name ++ ascii (':' :: token k)) :: canonFields rest
  | .nested name _ rest => (name ++ ascii ":\x7b\x7d".toList) :: canonFields rest
  | .nestedArray name size _ rest =>
      (name ++ ascii (":\x7b\x7d".toList ++ arraySuffix size)) :: canonFields rest

def canon (S : Schema) : List UInt8 := [UInt8.ofNat ';'.toNat].intercalate (canonFields S)

/-- `kFnvPrime`, and a step of `fnv1a`. -/
def fnvStep (h v : UInt32) : UInt32 := (h ^^^ v) * 16777619

/-- `fnv1a`, from `kFnvOffset`. -/
def fnv1a (bytes : List UInt8) : UInt32 :=
  bytes.foldl (fun h b => fnvStep h b.toUInt32) 2166136261

/-- `fnv1a_u32`. -/
def fnv1aU32 (v h : UInt32) : UInt32 :=
  fnvStep (fnvStep (fnvStep (fnvStep h (v &&& 0xFF)) ((v >>> 8) &&& 0xFF)) ((v >>> 16) &&& 0xFF))
    ((v >>> 24) &&& 0xFF)

/-- `mix_nested`. -/
def mixNested (h : UInt32) (nested : List UInt32) : UInt32 :=
  nested.foldl (fun h v => fnv1aU32 v h) h

/-- `kSchemaHash` of the nested messages, in order. -/
def nestedHashes : Schema → List UInt32
  | .nil => []
  | .field _ _ rest => nestedHashes rest
  | .nested _ msg rest | .nestedArray _ _ msg rest =>
      mixNested (fnv1a (canon msg)) (nestedHashes msg) :: nestedHashes rest

/-- `kSchemaHash`. -/
def schemaHash (S : Schema) : UInt32 := mixNested (fnv1a (canon S)) (nestedHashes S)

end DzIpc.Flat
