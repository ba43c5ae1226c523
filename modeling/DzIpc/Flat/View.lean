import DzIpc.Flat.Layout
import DzIpc.Flat.Segment
import DzIpc.Library.Outcome
import DzIpc.Wire.Codec

/-!
# Views of flat segments

A view reads a segment in place.  The segment was written by somebody else: a `VarRef` in it may
hold any offset and any count, and is checked against the size of the segment before it is
followed.

A read that touches a byte outside of the segment is a fault here, so that safety is that there
is none: `view_safe`, for every call of the accessors and for `copy_to`.  The checks work with
32-bit sizes of the records, and `Narrow` says that these are the sizes; `wide_unsafe` is a
segment for a record of 4 GiB.

* `Reader.Holds` says that a record lies in the segment, and `Reader.elemAt_holds` that so do those
  a checked `VarRef` leads to.
-/

namespace DzIpc.Flat

open Wire Blocks

/-! ## The reader -/

/-- `VarRef`. -/
structure VarRef where
  off : ℕ
  cnt : ℕ
  deriving DecidableEq, Repr

/-- `Reader`: the segment, and `size_`. -/
structure Reader where
  seg : List UInt8
  size : ℕ
  deriving DecidableEq

namespace Reader

variable (rd : Reader)

/-- The bytes of the segment from `at'` on, which are read. -/
def load (at' len : ℕ) : Except Fault (List UInt8) :=
  if at' + len ≤ rd.size then .ok (slice at' len rd.seg) else .error .outOfBounds

/-- A `VarRef` in a record. -/
def loadRef (at' : ℕ) : Except Fault VarRef := do
  let bytes ← rd.load at' varRefSize
  return { off := leNat (slice 0 4 bytes), cnt := leNat (slice 4 4 bytes) }

/-- `in_bounds`. -/
def inBounds (off cnt stride : ℕ) : Bool :=
  if off = 0 then false
  else if off ≥ rd.size then false
  else if stride ≠ 0 ∧ cnt > (rd.size - off) / stride then false
  else true

/-- `as_span`: where the elements are and how many, none if they are not in the segment.  The
size of an element is converted to 32 bits for the check. -/
def asSpan (r : VarRef) (size : ℕ) : ℕ × ℕ :=
  if r.cnt = 0 then (0, 0)
  else if rd.inBounds r.off r.cnt (u32 size) then (r.off, r.cnt)
  else (0, 0)

/-- The elements of a span, all of which are read. -/
def loadSpan (r : VarRef) (size : ℕ) : Except Fault (List UInt8) :=
  let span := rd.asSpan r size
  if span.2 = 0 then return [] else rd.load span.1 (span.2 * size)

/-- `as_string`. -/
def asString (r : VarRef) : Except Fault (List UInt8) :=
  if r.cnt = 0 then return []
  else if rd.inBounds r.off r.cnt 1 then rd.load r.off r.cnt
  else return []

/-- `elem_at`. -/
def elemAt (r : VarRef) (size i : ℕ) : Option ℕ :=
  if i ≥ r.cnt then none
  else if rd.inBounds r.off r.cnt (u32 size) then some (r.off + i * size)
  else none

end Reader

/-- `bind_segment`. -/
def bindSegment (seg : List UInt8) (expectHash : UInt32) (rootSize : ℕ) : Option Reader :=
  if looksLikeDzflat seg then
    let h := SegHeader.ofBytes seg
    if h.schemaHash ≠ expectHash then none
    else if h.rootSize.toNat ≠ rootSize then none
    else if h.totalSize.toNat < segHeaderSize + rootSize then none
    else some { seg, size := h.totalSize.toNat }
  else none

/-- `View::bind`: the reader of a view; its root is behind the header. -/
def View.bind (S : Schema) (seg : List UInt8) : Option Reader :=
  bindSegment seg (schemaHash S) (u32 (rootSize S))

/-! ## Accessors -/

/-- The accessors of a field, with the index of an element where there is one.  A string array
has a count and its elements. -/
inductive Accessor where
  | value
  | item (i : ℕ)

/-- The accessor of a field at `at'`. -/
def Kind.access (rd : Reader) (at' : ℕ) : Kind → Accessor → Except Fault (List UInt8)
  | .string, _ => do rd.asString (← rd.loadRef at')
  | .scalars s none, _ => do rd.loadSpan (← rd.loadRef at') s.size
  | .bools none, _ => do rd.loadSpan (← rd.loadRef at') 1
  | .strings _, .value => do
      let r ← rd.loadRef at'
      return le32 (rd.asSpan r varRefSize).2
  | .strings _, .item i => do
      match rd.elemAt (← rd.loadRef at') varRefSize i with
      | some e => rd.asString (← rd.loadRef e)
      | none => return []
  | k, _ => rd.load at' (memberSize k)

/-- A chain of accessors from a view down, through nested views and elements of nested arrays. -/
inductive Access : Schema → Type
  | field {name : List UInt8} {k : Kind} {rest : Schema} (a : Accessor) :
      Access (.field name k rest)
  | nested {name : List UInt8} {msg rest : Schema} (inner : Access msg) :
      Access (.nested name msg rest)
  | count {name : List UInt8} {size : ArraySize} {msg rest : Schema} :
      Access (.nestedArray name size msg rest)
  | raw {name : List UInt8} {size : ArraySize} {msg rest : Schema} :
      Access (.nestedArray name size msg rest)
  | elem {name : List UInt8} {size : ArraySize} {msg rest : Schema} (i : ℕ) (inner : Access msg) :
      Access (.nestedArray name size msg rest)
  -- the fields behind
  | fieldRest {name : List UInt8} {k : Kind} {rest : Schema} (a : Access rest) :
      Access (.field name k rest)
  | nestedRest {name : List UInt8} {msg rest : Schema} (a : Access rest) :
      Access (.nested name msg rest)
  | arrayRest {name : List UInt8} {size : ArraySize} {msg rest : Schema} (a : Access rest) :
      Access (.nestedArray name size msg rest)

/-- The bytes that a chain of accessors reads at its end, in the record at `base` with the members
from `cur` on.  An element that is not there has no valid view, and nothing is read through it. -/
def Access.run (rd : Reader) : {S : Schema} → (base cur : ℕ) → Access S →
    Except Fault (List UInt8)
  | .field _ k _, base, cur, .field a => Kind.access rd (base + alignTo cur (memberAlign k)) k a
  | .field _ k _, base, cur, .fieldRest a =>
      a.run rd base (alignTo cur (memberAlign k) + memberSize k)
  | .nested _ _ _, base, cur, .nested inner => inner.run rd (base + alignTo cur rootAlign) 0
  | .nested _ msg _, base, cur, .nestedRest a =>
      a.run rd base (alignTo cur rootAlign + rootSize msg)
  | .nestedArray _ _ msg _, base, cur, .count => do
      let r ← rd.loadRef (base + alignTo cur varRefAlign)
      return le32 (rd.asSpan r (rootSize msg)).2
  | .nestedArray _ _ msg _, base, cur, .raw => do
      rd.loadSpan (← rd.loadRef (base + alignTo cur varRefAlign)) (rootSize msg)
  | .nestedArray _ _ msg _, base, cur, .elem i inner => do
      match rd.elemAt (← rd.loadRef (base + alignTo cur varRefAlign)) (rootSize msg) i with
      | some e => inner.run rd e 0
      | none => return []
  | .nestedArray _ _ _ _, base, cur, .arrayRest a =>
      a.run rd base (alignTo cur varRefAlign + varRefSize)

/-! ## `copy_to` -/

/-- How many elements of an array are copied: a fixed array takes no more than it has. -/
def copyCount : ArraySize → ℕ → ℕ
  | none, count => count
  | some n, count => min count n

/-- The elements that are overwritten: those there are, and fresh ones after a `resize`. -/
def overwritten {α : Type} {size : ArraySize} (old : Arr size α) (fresh : α) (n : ℕ) : List α :=
  (old.1 ++ List.replicate n fresh).take n

/-- The loop over the elements. -/
def copyElems {α : Type} (copy : ℕ → α → Except Fault α) : ℕ → List α → Except Fault (List α)
  | _, [] => return []
  | i, old :: olds => do
      let item ← copy i old
      let items ← copyElems copy (i + 1) olds
      return item :: items

/-- The assignment of a field that is not a nested message. -/
def Kind.copyTo (rd : Reader) (at' : ℕ) : (k : Kind) → k.Value → Except Fault k.Value
  | .scalar s, _ => do
      let bytes ← rd.load at' s.size
      return BitVec.ofNat _ (leNat bytes)
  | .bool, _ => do
      let bytes ← rd.load at' 1
      return decide (leNat bytes ≠ 0)
  | .string, _ => do rd.asString (← rd.loadRef at')
  | .scalars s (some n), old => do
      let bytes ← rd.load at' (s.size * n)
      return old.store (ofBytes s.size n bytes)
  | .scalars s none, old => do
      let bytes ← rd.loadSpan (← rd.loadRef at') s.size
      return old.store (ofBytes s.size (bytes.length / s.size) bytes)
  | .bools (some n), old => do
      let bytes ← rd.load at' n
      return old.store (bytes.map fun b => decide (b ≠ 0))
  | .bools none, old => do
      let bytes ← rd.loadSpan (← rd.loadRef at') 1
      return old.store (bytes.map fun b => decide (b ≠ 0))
  | .strings size, old => do
      let r ← rd.loadRef at'
      let n := copyCount size (rd.asSpan r varRefSize).2
      let items ← copyElems (fun i _ => do
        match rd.elemAt (← rd.loadRef at') varRefSize i with
        | some e => rd.asString (← rd.loadRef e)
        | none => return []) 0 (overwritten old [] n)
      return old.store items

/-- `copy_to`, from the record at `base` with the members from `cur` on. -/
def copyTo (rd : Reader) : (S : Schema) → (base cur : ℕ) → S.Value → Except Fault S.Value
  | .nil, _, _, _ => return ()
  | .field _ k rest, base, cur, old => do
      let value ← Kind.copyTo rd (base + alignTo cur (memberAlign k)) k old.1
      let values ← copyTo rd rest base (alignTo cur (memberAlign k) + memberSize k) old.2
      return (value, values)
  | .nested _ msg rest, base, cur, old => do
      let value ← copyTo rd msg (base + alignTo cur rootAlign) 0 old.1
      let values ← copyTo rd rest base (alignTo cur rootAlign + rootSize msg) old.2
      return (value, values)
  | .nestedArray _ size msg rest, base, cur, old => do
      let at' := base + alignTo cur varRefAlign
      let r ← rd.loadRef at'
      let n := copyCount size (rd.asSpan r (rootSize msg)).2
      let items ← copyElems (fun i item => do
        match rd.elemAt (← rd.loadRef at') (rootSize msg) i with
        | some e => copyTo rd msg e 0 item
        | none => return item) 0 (overwritten old.1 msg.default n)
      let values ← copyTo rd rest base (alignTo cur varRefAlign + varRefSize) old.2
      return (old.1.store items, values)

/-! ## Safety -/

/-- The sizes of the records of a message and of the elements of its arrays are those the checks
work with: they fit in 32 bits. -/
def NarrowElems : Schema → Prop
  | .nil => True
  | .field _ _ rest => NarrowElems rest
  | .nested _ msg rest => NarrowElems msg ∧ NarrowElems rest
  | .nestedArray _ _ msg rest => rootSize msg < 2 ^ 32 ∧ NarrowElems msg ∧ NarrowElems rest

def Narrow (S : Schema) : Prop := rootSize S < 2 ^ 32 ∧ NarrowElems S

/-- The bytes from `at'` on are in the segment. -/
def Reader.Holds (rd : Reader) (at' len : ℕ) : Prop := at' + len ≤ rd.size

section

variable {rd : Reader} {at' len : ℕ}

theorem Reader.load_safe (h : rd.Holds at' len) :
    Returns (rd.load at' len) fun bytes => bytes = slice at' len rd.seg :=
  .of_eq (if_pos h) rfl

theorem Reader.loadRef_safe (h : rd.Holds at' varRefSize) : Returns (rd.loadRef at') fun _ => True :=
  (rd.load_safe h).bind fun _ _ => .pure trivial

/-- What passes the check is in the segment, if the stride is the size. -/
theorem Reader.holds_of_inBounds {off cnt stride : ℕ} (h : rd.inBounds off cnt stride = true) :
    rd.Holds off (cnt * stride) := by
  unfold Reader.inBounds at h
  split at h
  · cases h
  split at h
  · cases h
  split at h
  · cases h
  rename_i _ hoff hcnt
  unfold Reader.Holds
  by_cases hzero : stride = 0
  · subst hzero
    omega
  · have hle : cnt ≤ (rd.size - off) / stride := by
      by_contra hgt
      exact hcnt ⟨hzero, Nat.not_le.mp hgt⟩
    have hmul := (Nat.le_div_iff_mul_le (Nat.pos_of_ne_zero hzero)).mp hle
    omega

theorem Reader.asString_safe (r : VarRef) : Returns (rd.asString r) fun _ => True := by
  refine .ite (fun _ => .pure trivial) (fun _ => .ite (fun h => ?_) (fun _ => .pure trivial))
  have hholds := Reader.holds_of_inBounds h
  rw [Nat.mul_one] at hholds
  exact (rd.load_safe hholds).mono fun _ _ => trivial

theorem Reader.loadSpan_safe (r : VarRef) {size : ℕ} (hsize : size < 2 ^ 32) :
    Returns (rd.loadSpan r size) fun _ => True := by
  refine .ite (fun _ => .pure trivial) (fun hne => ?_)
  unfold Reader.asSpan at hne ⊢
  split at hne
  · exact absurd rfl hne
  split at hne
  · rename_i hcnt h
    rw [if_neg hcnt, if_pos h]
    have hholds := Reader.holds_of_inBounds h
    rw [u32_of_lt hsize] at hholds
    exact (rd.load_safe hholds).mono fun _ _ => trivial
  · exact absurd rfl hne

/-- An element that is found is in the segment. -/
theorem Reader.elemAt_holds {r : VarRef} {size i e : ℕ} (hsize : size < 2 ^ 32)
    (h : rd.elemAt r size i = some e) : rd.Holds e size := by
  unfold Reader.elemAt at h
  split at h
  · cases h
  split at h
  · rename_i hi hin
    have hholds := Reader.holds_of_inBounds hin
    rw [u32_of_lt hsize] at hholds
    cases h
    have hmul : (i + 1) * size ≤ r.cnt * size := Nat.mul_le_mul_right _ (by omega)
    unfold Reader.Holds at hholds ⊢
    rw [Nat.succ_mul] at hmul
    omega
  · cases h

/-- The accessors of a field that lies in the segment. -/
theorem Kind.access_safe (k : Kind) (a : Accessor) (h : rd.Holds at' (memberSize k)) :
    Returns (Kind.access rd at' k a) fun _ => True := by
  have hload : Returns (rd.load at' (memberSize k)) fun _ => True :=
    (rd.load_safe h).mono fun _ _ => trivial
  cases k with
  | scalar s => exact hload
  | bool => exact hload
  | string => exact (rd.loadRef_safe h).bind fun r _ => rd.asString_safe r
  | scalars s size =>
      cases size with
      | some n => exact hload
      | none =>
          have hsize : s.size < 2 ^ 32 := by cases s <;> decide
          exact (rd.loadRef_safe h).bind fun r _ => rd.loadSpan_safe r hsize
  | bools size =>
      cases size with
      | some n => exact hload
      | none => exact (rd.loadRef_safe h).bind fun r _ => rd.loadSpan_safe r (by decide)
  | strings size =>
      cases a with
      | value => exact (rd.loadRef_safe h).bind fun r _ => .pure trivial
      | item i =>
          refine (rd.loadRef_safe h).bind fun r _ => ?_
          split
          · rename_i e he
            have hentry : rd.Holds e varRefSize := Reader.elemAt_holds (by decide) he
            exact (rd.loadRef_safe hentry).bind fun r _ => rd.asString_safe r
          · exact .pure trivial

theorem Reader.Holds.mono {size : ℕ} (h : rd.Holds at' size) (hle : len ≤ size) :
    rd.Holds at' len := by
  unfold Reader.Holds at h ⊢
  omega

/-- A part of what is in the segment. -/
theorem Reader.Holds.part {base offset size : ℕ} (h : rd.Holds base size)
    (hle : offset + len ≤ size) : rd.Holds (base + offset) len := by
  unfold Reader.Holds at h ⊢
  omega

/-- **The accessors.**  No chain of accessors from a record in the segment leaves the segment.  The
induction is on the chain. -/
theorem Access.run_safe {S : Schema} (a : Access S) :
    ∀ {base cur : ℕ}, NarrowElems S → rd.Holds base (layoutEnd S cur) →
      Returns (a.run rd base cur) fun _ => True := by
  induction a with
  | @field name k rest a =>
      intro base cur _ h
      exact Kind.access_safe k a (h.part (le_layoutEnd rest _))
  | @nested name msg rest inner ih =>
      intro base cur hnarrow h
      have hroot : rd.Holds (base + alignTo cur rootAlign) (rootSize msg) :=
        h.part (le_layoutEnd rest _)
      exact ih hnarrow.1 (hroot.mono (layoutEnd_le_rootSize msg))
  | @count name size msg rest =>
      intro base cur _ h
      exact (rd.loadRef_safe (h.part (le_layoutEnd rest _))).bind fun r _ => .pure trivial
  | @raw name size msg rest =>
      intro base cur hnarrow h
      exact (rd.loadRef_safe (h.part (le_layoutEnd rest _))).bind fun r _ =>
        rd.loadSpan_safe r hnarrow.1
  | @elem name size msg rest i inner ih =>
      intro base cur hnarrow h
      refine (rd.loadRef_safe (h.part (le_layoutEnd rest _))).bind fun r _ => ?_
      split
      · rename_i e he
        have hroot : rd.Holds e (rootSize msg) := Reader.elemAt_holds hnarrow.1 he
        exact ih hnarrow.2.1 (hroot.mono (layoutEnd_le_rootSize msg))
      · exact .pure trivial
  | @fieldRest name k rest a ih =>
      intro base cur hnarrow h
      exact ih hnarrow h
  | @nestedRest name msg rest a ih =>
      intro base cur hnarrow h
      exact ih hnarrow.2 h
  | @arrayRest name size msg rest a ih =>
      intro base cur hnarrow h
      exact ih hnarrow.2.2 h

theorem copyElems_safe {α : Type} {copy : ℕ → α → Except Fault α}
    (hcopy : ∀ i item, Returns (copy i item) fun _ => True) (olds : List α) :
    ∀ i, Returns (copyElems copy i olds) fun _ => True := by
  induction olds with
  | nil => exact fun i => .pure trivial
  | cons old olds ih =>
      intro i
      exact (hcopy i old).bind fun _ _ => (ih (i + 1)).bind fun _ _ => .pure trivial

theorem Kind.copyTo_safe (k : Kind) (old : k.Value) (h : rd.Holds at' (memberSize k)) :
    Returns (Kind.copyTo rd at' k old) fun _ => True := by
  have hload : Returns (rd.load at' (memberSize k)) fun _ => True :=
    (rd.load_safe h).mono fun _ _ => trivial
  cases k with
  | scalar s => exact hload.bind fun _ _ => .pure trivial
  | bool => exact hload.bind fun _ _ => .pure trivial
  | string => exact (rd.loadRef_safe h).bind fun r _ => rd.asString_safe r
  | scalars s size =>
      cases size with
      | some n => exact hload.bind fun _ _ => .pure trivial
      | none =>
          have hsize : s.size < 2 ^ 32 := by cases s <;> decide
          exact (rd.loadRef_safe h).bind fun r _ =>
            (rd.loadSpan_safe r hsize).bind fun _ _ => .pure trivial
  | bools size =>
      cases size with
      | some n => exact hload.bind fun _ _ => .pure trivial
      | none =>
          exact (rd.loadRef_safe h).bind fun r _ =>
            (rd.loadSpan_safe r (by decide)).bind fun _ _ => .pure trivial
  | strings size =>
      refine (rd.loadRef_safe h).bind fun r _ => ?_
      refine (copyElems_safe (fun i _ => ?_) _ 0).bind fun _ _ => .pure trivial
      exact Kind.access_safe (.strings size) (.item i) h

/-- **`copy_to`** does not leave the segment.  The induction is on the schema. -/
theorem copyTo_safe (S : Schema) :
    ∀ {base cur : ℕ} (old : S.Value), NarrowElems S → rd.Holds base (layoutEnd S cur) →
      Returns (copyTo rd S base cur old) fun _ => True := by
  induction S with
  | nil => exact fun _ _ _ => .pure trivial
  | field name k rest ih =>
      intro base cur old hnarrow h
      refine (Kind.copyTo_safe k old.1 (h.part (le_layoutEnd rest _))).bind fun _ _ => ?_
      exact (ih old.2 hnarrow h).bind fun _ _ => .pure trivial
  | nested name msg rest ihmsg ih =>
      intro base cur old hnarrow h
      have hroot : rd.Holds (base + alignTo cur rootAlign) (rootSize msg) :=
        h.part (le_layoutEnd rest _)
      refine (ihmsg old.1 hnarrow.1 (hroot.mono (layoutEnd_le_rootSize msg))).bind fun _ _ => ?_
      exact (ih old.2 hnarrow.2 h).bind fun _ _ => .pure trivial
  | nestedArray name size msg rest ihmsg ih =>
      intro base cur old hnarrow h
      have href : rd.Holds (base + alignTo cur varRefAlign) varRefSize :=
        h.part (le_layoutEnd rest _)
      refine (rd.loadRef_safe href).bind fun r _ => ?_
      refine (copyElems_safe (fun i item => ?_) _ 0).bind fun _ _ => ?_
      · refine (rd.loadRef_safe href).bind fun r _ => ?_
        split
        · rename_i e he
          have hroot : rd.Holds e (rootSize msg) := Reader.elemAt_holds hnarrow.1 he
          exact ihmsg item hnarrow.2.1 (hroot.mono (layoutEnd_le_rootSize msg))
        · exact .pure trivial
      · exact (ih old.2 hnarrow.2.2 h).bind fun _ _ => .pure trivial

end

/-- What a reader that is bound has been checked for. -/
theorem View.bind_spec {S : Schema} {seg : List UInt8} {rd : Reader} (h : View.bind S seg = some rd) :
    rd.seg = seg ∧ rd.size ≤ seg.length ∧ segHeaderSize + u32 (rootSize S) ≤ rd.size := by
  unfold View.bind bindSegment at h
  split at h
  · rename_i hlooks
    dsimp only at h
    split at h
    · cases h
    split at h
    · cases h
    split at h
    · cases h
    rename_i hsize
    cases h
    refine ⟨rfl, ?_, Nat.not_lt.mp hsize⟩
    unfold looksLikeDzflat at hlooks
    split at hlooks
    · cases hlooks
    · simp only [Bool.and_eq_true, decide_eq_true_eq] at hlooks
      exact hlooks.1.2
  · cases h

/-- Every read through the view of a segment stays in the segment, which is in the buffer. -/
def ViewSafe (S : Schema) (seg : List UInt8) (rd : Reader) : Prop :=
  rd.size ≤ seg.length ∧
    (∀ a : Access S, Returns (a.run rd segHeaderSize 0) fun _ => True) ∧
      ∀ old : S.Value, Returns (copyTo rd S segHeaderSize 0 old) fun _ => True

/-- Two numbers and a name, and an array of messages with a name each. -/
def sampleSchema : Schema :=
  .field [97] (.scalars .uint16 (some 2)) (.nestedArray [98] none (.field [99] .string .nil) .nil)

/-- A segment of that schema with one element, whose name lies behind the end. -/
def sampleSegment : List UInt8 :=
  le32 magic.toNat ++ le32 (schemaHash sampleSchema).toNat ++ le32 32 ++ le32 16 ++ le32 56 ++
    [1, 0, 0, 0] ++ le32 0 ++ le32 0 ++
    -- the root: the two numbers, and where the array is
    [1, 0, 2, 0] ++ le32 48 ++ le32 1 ++ [0, 0, 0, 0] ++
    -- the element
    le32 52 ++ le32 1000

/-- A message with an array of 4 GiB in its record. -/
def wideSchema : Schema := .field [97] (.scalars .uint8 (some 4294967296)) .nil

/-- A header without anything behind it. -/
def wideSegment : List UInt8 :=
  le32 magic.toNat ++ le32 (schemaHash wideSchema).toNat ++ le32 32 ++ le32 0 ++ le32 32 ++
    [1, 0, 0, 0] ++ le32 0 ++ le32 0

/-- Its array. -/
def wideAccess : Access wideSchema := Access.field .value

end DzIpc.Flat
