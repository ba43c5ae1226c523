import DzIpc.Publish.Override
import DzIpc.Wire.GenericRoundTrip
import Mathlib.Data.List.Forall2
import Mathlib.Tactic.IntervalCases

/-!
# The values of leaves

What `set_leaf` stores, against what the text denotes.  The one conversion that is not faithful is
that of unsigned numbers: the minus sign is looked for in the first byte only, and the library
skips white space and negates.

* `Holds` says that the value bytes are those of the numbers in the text, and `Fitting` is the
  condition on the text.
* `parse_denotes` is the step for one value, and `leafData_holds` the result for a leaf.
* `leafData_stored` gives the layout of the bytes, and `length_leafData` their number.
-/

namespace DzIpc.Publish

open Wire Wire.GenericMessage Numeral

variable {fl : Floats}

/-! ## One value -/

/-- The bytes are those of the number that the text denotes, which is in the range of the type.  Of
the other types it says only how many bytes there are. -/
def Elem.Denotes (s data : List UInt8) : Elem → Prop
  | .signed width => ∃ z : ℤ, denoted s = some z ∧
      (-2 ^ (8 * width - 1) ≤ z ∧ z < 2 ^ (8 * width - 1)) ∧ data = intBytes width z
  | .unsigned width => ∃ z : ℤ, denoted s = some z ∧
      (0 ≤ z ∧ z < 2 ^ (8 * width)) ∧ data = intBytes width z
  | e => data.length = e.width

/-- A text for an unsigned value does not denote a negative number. -/
def Elem.Fair (s : List UInt8) : Elem → Prop
  | .unsigned _ => ∀ z : ℤ, denoted s = some z → 0 ≤ z
  | _ => True

@[simp] theorem length_intBytes (width : ℕ) (v : ℤ) : (intBytes width v).length = width :=
  length_leBytes _ _

theorem length_parse (e : Elem) (s : List UInt8) :
    Yields (e.parse fl s) fun data => data.length = e.width := by
  cases e with
  | bool => exact Yields.any.bind fun _ _ => .pure rfl
  | signed width => exact Yields.any.bind fun _ _ => .pure (length_leBytes _ _)
  | unsigned width => exact Yields.any.bind fun _ _ => .pure (length_leBytes _ _)
  | float32 => exact Yields.any.bind fun _ _ => .pure (length_leBytes _ _)
  | float64 => exact Yields.any.bind fun _ _ => .pure (length_leBytes _ _)

theorem parseSigned_denotes (s : List UInt8) (lo hi : ℤ) :
    Yields (parseSigned s lo hi) fun v => denoted s = some v ∧ lo ≤ v ∧ v ≤ hi := by
  unfold parseSigned
  split
  · rename_i v hv
    refine .ite (fun _ => trivial) (fun hrange => ?_)
    exact ⟨(stoll_eq_some.mp hv).1, by omega, by omega⟩
  · trivial

/-- The number modulo the range of the library's conversion. -/
theorem parseUnsigned_denotes (s : List UInt8) (hi : ℕ) :
    Yields (parseUnsigned s hi) fun v => v ≤ hi ∧
      ∃ z : ℤ, denoted s = some z ∧ (v : ℤ) = z % 2 ^ 64 ∧ z < 2 ^ 64 := by
  unfold parseUnsigned
  refine .ite (fun _ => trivial) (fun _ => ?_)
  split
  · rename_i v hv
    refine .ite (fun _ => trivial) (fun hle => ?_)
    exact ⟨Nat.not_lt.mp hle, stoull_eq_some hv⟩
  · trivial

/-- The step: what is stored for a value is the number in its text. -/
theorem parse_denotes (e : Elem) {s : List UInt8} (hfair : e.Fair s) :
    Yields (e.parse fl s) fun data => e.Denotes s data := by
  cases e with
  | signed width =>
      refine (parseSigned_denotes s _ _).bind fun v hv => .pure ?_
      obtain ⟨hdenoted, hlo, hhi⟩ := hv
      exact ⟨v, hdenoted, ⟨hlo, by omega⟩, rfl⟩
  | unsigned width =>
      refine (parseUnsigned_denotes s _).bind fun v hv => .pure ?_
      obtain ⟨hle, z, hdenoted, hmod, hsmall⟩ := hv
      have hz : (v : ℤ) = z := by
        rw [hmod]
        exact Int.emod_eq_of_lt (hfair z hdenoted) hsmall
      have hpos : 0 < 2 ^ (8 * width) := Nat.two_pow_pos _
      have hlt : ((v : ℕ) : ℤ) < ((2 ^ (8 * width) : ℕ) : ℤ) := Int.ofNat_lt.mpr (by omega)
      subst hz
      exact ⟨v, hdenoted, ⟨hfair _ hdenoted, by push_cast at hlt; exact hlt⟩, rfl⟩
  | bool => exact length_parse .bool s
  | float32 => exact length_parse .float32 s
  | float64 => exact length_parse .float64 s

theorem Elem.Denotes.fair {e : Elem} {s data : List UInt8} (h : e.Denotes s data) : e.Fair s := by
  cases e with
  | unsigned width =>
      intro z hz
      obtain ⟨z', hz', ⟨hnonneg, -⟩, -⟩ := h
      cases hz.symm.trans hz'
      exact hnonneg
  | bool => trivial
  | signed width => trivial
  | float32 => trivial
  | float64 => trivial

/-! ## Leaves -/

/-- A leaf of a number type, or of an array type, holds the values in the text. -/
def Holds (type : ℕ) (value data : List UInt8) : Prop :=
  match leafKind type with
  | .one e => e.Denotes value data
  | .array e =>
      (splitArrayLiteral value).length < 2 ^ 31 ∧
        ∃ elems, List.Forall₂ e.Denotes (splitArrayLiteral value) elems ∧
          data = le32 elems.length ++ elems.flatten
  | _ => True

/-- The text has no negative number for an unsigned type, nor more items than an `int32_t`
counts. -/
def Fitting (type : ℕ) (value : List UInt8) : Prop :=
  match leafKind type with
  | .one e => e.Fair value
  | .array e =>
      (splitArrayLiteral value).length < 2 ^ 31 ∧ ∀ item ∈ splitArrayLiteral value, e.Fair item
  | _ => True

/-- The value bytes that a text takes. -/
def leafSize (type : ℕ) (value : List UInt8) : ℕ :=
  match leafKind type with
  | .one e => e.width
  | .string => 4 + value.length
  | .array e => 4 + (splitArrayLiteral value).length * e.width
  | .strings => 4 + ((splitArrayLiteral value).map fun item => 4 + item.length).sum
  | .nested | .unsupported => 0

theorem Holds.fitting {type : ℕ} {value data : List UInt8} (h : Holds type value data) :
    Fitting type value := by
  unfold Holds at h
  unfold Fitting
  cases hkind : leafKind type with
  | one e =>
      rw [hkind] at h
      exact Elem.Denotes.fair h
  | array e =>
      rw [hkind] at h
      obtain ⟨hlen, elems, hall, -⟩ := h
      refine ⟨hlen, fun item hitem => ?_⟩
      obtain ⟨i, hi, rfl⟩ := List.getElem_of_mem hitem
      exact (hall.get hi (hall.length_eq ▸ hi)).fair
  | string => trivial
  | strings => trivial
  | nested => trivial
  | unsupported => trivial

/-- All elements of an array are stored if they can be counted. -/
theorem arrayBytes_eq {elems : List (List UInt8)} (hlen : elems.length < 2 ^ 31) :
    arrayBytes elems = le32 elems.length ++ elems.flatten := by
  rw [arrayBytes, i32_of_lt hlen, Int.toNat_natCast, List.take_length]

theorem length_flatten_of_forall₂ {width : ℕ} {items elems : List (List UInt8)}
    (h : List.Forall₂ (fun _ elem : List UInt8 => elem.length = width) items elems) :
    elems.flatten.length = elems.length * width := by
  induction h with
  | nil => exact (Nat.zero_mul width).symm
  | cons hlen _ ih =>
      rw [List.flatten_cons, List.length_append, hlen, ih, List.length_cons, Nat.succ_mul,
        Nat.add_comm]

/-- The elements of an array leaf, each of the type's width. -/
theorem leafData_array {field : MsgField} {value : List UInt8} {e : Elem}
    (hkind : leafKind field.type = .array e)
    (hlen : (splitArrayLiteral value).length < 2 ^ 31) :
    Yields (leafData fl field value) fun data => ∃ elems,
      elems.length = (splitArrayLiteral value).length ∧
        data = le32 elems.length ++ elems.flatten ∧
          elems.flatten.length = elems.length * e.width ∧
            ((∀ item ∈ splitArrayLiteral value, e.Fair item) →
              List.Forall₂ e.Denotes (splitArrayLiteral value) elems) := by
  unfold leafData
  rw [hkind]
  have hone : ∀ item ∈ splitArrayLiteral value, Yields (e.parse fl item) fun elem =>
      elem.length = e.width ∧ (e.Fair item → e.Denotes item elem) := by
    intro item _
    cases hparse : e.parse fl item with
    | error err => trivial
    | ok elem =>
        exact ⟨(length_parse e item).elim hparse, fun h => (parse_denotes e h).elim hparse⟩
  refine (Yields.mapM hone).bind fun elems helems => .pure ?_
  have hcount := helems.length_eq
  refine ⟨elems, hcount.symm, arrayBytes_eq (hcount ▸ hlen),
    length_flatten_of_forall₂ (helems.imp fun _ _ h => h.1), fun hfair => ?_⟩
  rw [List.forall₂_iff_get] at helems ⊢
  refine ⟨hcount, fun i hi hi' => ?_⟩
  exact (helems.2 i hi hi').2 (hfair _ (List.get_mem _ _))

/-- **The stored value is the one in the text** if the text is a fitting one. -/
theorem leafData_holds {field : MsgField} {value : List UInt8}
    (hfitting : Fitting field.type value) :
    Yields (leafData fl field value) fun data => Holds field.type value data := by
  unfold Fitting at hfitting
  unfold Holds
  cases hkind : leafKind field.type with
  | one e =>
      rw [hkind] at hfitting
      unfold leafData
      rw [hkind]
      exact parse_denotes e hfitting
  | array e =>
      rw [hkind] at hfitting
      refine (leafData_array hkind hfitting.1).mono ?_
      rintro data ⟨elems, -, hdata, -, hall⟩
      exact ⟨hfitting.1, elems, hall hfitting.2, hdata⟩
  | string => exact .of_forall fun _ => trivial
  | strings => exact .of_forall fun _ => trivial
  | nested => exact .of_forall fun _ => trivial
  | unsupported => exact .of_forall fun _ => trivial

/-! ## Layouts -/

/-- The layout that the reader has for a type. -/
def LeafKind.layout : LeafKind → Option Layout
  | .one e => some (.fixed e.width)
  | .string => some .sized
  | .array e => some (.array e.width)
  | .strings => some .sizedArray
  | .nested | .unsupported => none

theorem layout_of_leafKind {type : ℕ} {l : Layout} (h : (leafKind type).layout = some l) :
    layout (byte type) = some l := by
  by_cases hknown : type ≤ 26
  · interval_cases type <;> first | exact h | nomatch h
  · have hnone : leafKind type = .unsupported := by
      unfold leafKind
      split <;> first | rfl | omega
    rw [hnone] at h
    nomatch h

theorem length_blobs (items : List (List UInt8)) :
    (items.flatMap blob).length = (items.map fun item => 4 + item.length).sum := by
  rw [List.length_flatMap]
  exact congrArg List.sum (List.map_congr_left fun item _ => length_blob item)

/-- The value bytes of a leaf are in the layout of its type, and as many as the text takes. -/
theorem leafData_stored {field : MsgField} {value : List UInt8}
    (hfitting : Fitting field.type value) :
    Yields (leafData fl field value) fun data =>
      (∃ l, layout (byte field.type) = some l ∧ Stored l data) ∧
        data.length = leafSize field.type value := by
  unfold Fitting at hfitting
  unfold leafSize
  cases hkind : leafKind field.type with
  | one e =>
      unfold leafData
      rw [hkind]
      refine (length_parse e value).mono fun data hlen => ⟨⟨.fixed e.width, ?_, .fixed hlen⟩, hlen⟩
      exact layout_of_leafKind (by rw [hkind]; rfl)
  | string =>
      unfold leafData
      rw [hkind]
      exact ⟨⟨.sized, layout_of_leafKind (by rw [hkind]; rfl), .sized value⟩, length_blob value⟩
  | array e =>
      rw [hkind] at hfitting
      refine (leafData_array hkind hfitting.1).mono ?_
      rintro data ⟨elems, hcount, rfl, hlen, -⟩
      refine ⟨⟨.array e.width, layout_of_leafKind (by rw [hkind]; rfl), .array hlen⟩, ?_⟩
      rw [List.length_append, hlen, hcount]
      rfl
  | strings =>
      unfold leafData
      rw [hkind]
      refine ⟨⟨.sizedArray, layout_of_leafKind (by rw [hkind]; rfl),
        .sizedArray (splitArrayLiteral value)⟩, ?_⟩
      rw [List.length_append, length_blobs]
      rfl
  | nested =>
      unfold leafData
      rw [hkind]
      trivial
  | unsupported =>
      unfold leafData
      rw [hkind]
      trivial

end DzIpc.Publish
