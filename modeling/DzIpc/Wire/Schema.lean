import Mathlib.Data.PNat.Defs
import Mathlib.Tactic.Common

/-!
# Message schemas and their values

A message file is a list of fields.  The generator knows arithmetic types, `bool`,
`string`, arrays of these (`T[]` or `T[n]`), nested messages and arrays of nested
messages; a message never contains itself, so a schema is a finite tree.  A value of a
schema is what the members of the generated class hold; a fixed array carries the proof
of its length.
-/

namespace DzIpc.Wire

/-- The arithmetic entries of `TYPE_MAPPING`. -/
inductive Scalar where
  | int8 | uint8 | int16 | uint16 | int32 | uint32 | int64 | uint64 | float32 | float64
  deriving DecidableEq, Repr

namespace Scalar

/-- `sizeof`. -/
def size : Scalar → ℕ
  | int8 | uint8 => 1
  | int16 | uint16 => 2
  | int32 | uint32 | float32 => 4
  | int64 | uint64 | float64 => 8

/-- The entry of `TYPE_INDEX` for the type itself. -/
def typeIndex : Scalar → ℕ
  | int8 => 2
  | uint8 => 3
  | int16 => 4
  | uint16 => 5
  | int32 => 6
  | uint32 => 7
  | int64 => 8
  | uint64 => 9
  | float32 => 10
  | float64 => 11

/-- The entry of `TYPE_INDEX` for an array of the type. -/
def arrayTypeIndex (s : Scalar) : ℕ := s.typeIndex + 12

/-- The object representation; the codec only copies it. -/
abbrev Value (s : Scalar) : Type := BitVec (8 * s.size)

theorem size_pos (s : Scalar) : 0 < s.size := by
  cases s <;> decide

end Scalar

/-- The length of an array type: `none` for `T[]`, `some n` for `T[n]`. -/
abbrev ArraySize : Type := Option ℕ+

/-- The contents of an array member: a `std::vector`, or a `std::array` of the given
length. -/
def Arr (size : ArraySize) (α : Type) : Type :=
  { items : List α // ∀ n : ℕ+, size = some n → items.length = n }

/-- The field kinds without a nested message. -/
inductive Kind where
  | scalar (s : Scalar)
  | bool
  | string
  | scalars (s : Scalar) (size : ArraySize)
  | bools (size : ArraySize)
  | strings (size : ArraySize)
  deriving DecidableEq

/-- A message: its fields in order. -/
inductive Schema where
  | nil
  | field (name : List UInt8) (kind : Kind) (rest : Schema)
  | nested (name : List UInt8) (msg : Schema) (rest : Schema)
  | nestedArray (name : List UInt8) (size : ArraySize) (msg : Schema) (rest : Schema)

/-- What a member of the given kind holds. -/
@[reducible] def Kind.Value : Kind → Type
  | scalar s => s.Value
  | bool => Bool
  | string => List UInt8
  | scalars s size => Arr size s.Value
  | bools size => Arr size Bool
  | strings size => Arr size (List UInt8)

/-- What the members of a message hold. -/
@[reducible] def Schema.Value : Schema → Type
  | nil => Unit
  | field _ kind rest => kind.Value × rest.Value
  | nested _ msg rest => msg.Value × rest.Value
  | nestedArray _ size msg rest => Arr size msg.Value × rest.Value

/-! ## Array members -/

/-- Overwrite a list from its front; its length stays. -/
def overlay {α : Type} : List α → List α → List α
  | [], _ => []
  | old, [] => old
  | _ :: old, a :: new => a :: overlay old new

theorem length_overlay {α : Type} (old new : List α) :
    (overlay old new).length = old.length := by
  induction old generalizing new with
  | nil => simp [overlay]
  | cons a old ih =>
      cases new with
      | nil => rfl
      | cons b new => simp [overlay, ih]

theorem overlay_of_length_eq {α : Type} {old new : List α} (hlen : old.length = new.length) :
    overlay old new = new := by
  induction old generalizing new with
  | nil =>
      obtain rfl := List.length_eq_zero_iff.mp hlen.symm
      rfl
  | cons a old ih =>
      cases new with
      | nil => simp at hlen
      | cons b new =>
          simp only [List.length_cons, Nat.add_right_cancel_iff] at hlen
          simp [overlay, ih hlen]

namespace Arr

variable {size : ArraySize} {α : Type}

/-- The number of elements. -/
def length (v : Arr size α) : ℕ := v.1.length

/-- Store elements from index 0 on: a `std::vector` then holds these and no others, a
`std::array` keeps what it held behind them. -/
def store : {size : ArraySize} → Arr size α → List α → Arr size α
  | none, _, items => ⟨items, by simp⟩
  | some n, old, items =>
      ⟨overlay old.1 items, fun m hm => by rw [length_overlay]; exact old.2 m hm⟩

theorem store_eq (old v : Arr size α) : old.store v.1 = v := by
  cases size with
  | none => rfl
  | some n =>
      apply Subtype.ext
      exact overlay_of_length_eq ((old.2 n rfl).trans (v.2 n rfl).symm)

/-- Elements that are all equal: what a value-initialized member holds. -/
def fill : (size : ArraySize) → α → Arr size α
  | none, _ => ⟨[], by simp⟩
  | some n, a => ⟨List.replicate n a, fun m hm => by cases hm; exact List.length_replicate⟩

instance [DecidableEq α] : DecidableEq (Arr size α) :=
  inferInstanceAs (DecidableEq { _items : List α // _ })

end Arr

/-! ## Values -/

instance Kind.decEqValue : (k : Kind) → DecidableEq k.Value
  | scalar s => inferInstanceAs (DecidableEq (BitVec (8 * s.size)))
  | bool => inferInstanceAs (DecidableEq Bool)
  | string => inferInstanceAs (DecidableEq (List UInt8))
  | scalars s size => inferInstanceAs (DecidableEq (Arr size (BitVec (8 * s.size))))
  | bools size => inferInstanceAs (DecidableEq (Arr size Bool))
  | strings size => inferInstanceAs (DecidableEq (Arr size (List UInt8)))

instance Schema.decEqValue : (S : Schema) → DecidableEq S.Value
  | nil => inferInstanceAs (DecidableEq Unit)
  | field _ kind rest =>
      have := rest.decEqValue
      inferInstanceAs (DecidableEq (kind.Value × rest.Value))
  | nested _ msg rest =>
      have := msg.decEqValue
      have := rest.decEqValue
      inferInstanceAs (DecidableEq (msg.Value × rest.Value))
  | nestedArray _ size msg rest =>
      have := msg.decEqValue
      have := rest.decEqValue
      inferInstanceAs (DecidableEq (Arr size msg.Value × rest.Value))

/-- The value-initialized member. -/
def Kind.default : (k : Kind) → k.Value
  | scalar s => (0 : BitVec (8 * s.size))
  | bool => false
  | string => []
  | scalars s size => Arr.fill size (0 : BitVec (8 * s.size))
  | bools size => Arr.fill size false
  | strings size => Arr.fill size []

/-- The value-initialized message. -/
def Schema.default : (S : Schema) → S.Value
  | nil => ()
  | field _ kind rest => (kind.default, rest.default)
  | nested _ msg rest => (msg.default, rest.default)
  | nestedArray _ size msg rest => (Arr.fill size msg.default, rest.default)

end DzIpc.Wire
