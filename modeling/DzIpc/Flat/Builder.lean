import DzIpc.Flat.Write
import DzIpc.Flat.View
import DzIpc.Library.Machine

/-!
# Building flat segments in place

A `LoanedMessage` hands a borrowed chunk to its caller: builders store numbers, strings and
references right into the records, arrays are appended behind them, and `finalize` writes the
header.  The chunk holds what the last message left in it.

The state carries, besides the chunk, what the calls have stored where: the `slots` that have been
laid out so far, and for each the bytes or the reference in it.  No step depends on these.

* `Loan.allocArray`, `Loan.putString` and `Loan.elemPtr` are the functions of `dzflat.h`.
* `step` is a call of a builder, and `machine` all sequences of calls.
-/

namespace DzIpc.Flat

open Wire Blocks

/-! ## Records -/

/-- A member of a record. -/
inductive Member where
  | field (k : Kind)
  | nested (msg : Schema)
  | elems (msg : Schema)

/-- The size of a member. -/
def Member.size : Member → ℕ
  | .field k => memberSize k
  | .nested msg => rootSize msg
  | .elems _ => varRefSize

/-- The members of a record from `cur` on, with their offsets. -/
def members : Schema → ℕ → List (ℕ × Member)
  | .nil, _ => []
  | .field _ k rest, cur =>
      (alignTo cur (memberAlign k), .field k) ::
        members rest (alignTo cur (memberAlign k) + memberSize k)
  | .nested _ msg rest, cur =>
      (alignTo cur rootAlign, .nested msg) :: members rest (alignTo cur rootAlign + rootSize msg)
  | .nestedArray _ _ msg rest, cur =>
      (alignTo cur varRefAlign, .elems msg) :: members rest (alignTo cur varRefAlign + varRefSize)

/-- Where the members lie that are stored to: those of nested messages are among them. -/
def slotsOf : Schema → (base cur : ℕ) → List (ℕ × Member)
  | .nil, _, _ => []
  | .field _ k rest, base, cur =>
      (base + alignTo cur (memberAlign k), .field k) ::
        slotsOf rest base (alignTo cur (memberAlign k) + memberSize k)
  | .nested _ msg rest, base, cur =>
      slotsOf msg (base + alignTo cur rootAlign) 0 ++
        slotsOf rest base (alignTo cur rootAlign + rootSize msg)
  | .nestedArray _ _ msg rest, base, cur =>
      (base + alignTo cur varRefAlign, .elems msg) ::
        slotsOf rest base (alignTo cur varRefAlign + varRefSize)

/-- A `VarRef` is stored in the member. -/
def Member.isRef : Member → Bool
  | .field .string | .field (.scalars _ none) | .field (.bools none) | .field (.strings _)
  | .elems _ => true
  | _ => false

/-- The size of what a `VarRef` counts. -/
def Member.elemSize : Member → ℕ
  | .field (.scalars s none) => s.size
  | .field (.strings _) => varRefSize
  | .elems msg => rootSize msg
  | _ => 1

/-- Where the elements lie that a `VarRef` leads to; numbers lie side by side, as one array. -/
def elemSlots (m : Member) (off n : ℕ) : List (ℕ × Member) :=
  match m with
  | .field .string => [(off, .field (.scalars .uint8 (some n.toPNat')))]
  | .field (.scalars s none) => [(off, .field (.scalars s (some n.toPNat')))]
  | .field (.bools none) => [(off, .field (.bools (some n.toPNat')))]
  | .field (.strings _) => (List.range n).map fun j => (off + j * varRefSize, .field .string)
  | .elems msg => (List.range n).flatMap fun j => slotsOf msg (off + j * rootSize msg) 0
  | _ => []

/-! ## The state -/

/-- What a call has stored in a slot: bytes, of which some may not be known, or a reference. -/
inductive Cell where
  | bytes (known : List (Option UInt8))
  | ref (off cnt : ℕ)

/-- What is in a slot that has been cleared, or has not. -/
def Member.fresh (m : Member) (cleared : Bool) : Cell :=
  if cleared then
    if m.isRef then .ref 0 0 else .bytes (List.replicate m.size (some 0))
  else .bytes (List.replicate m.size none)

/-- `LoanedMessage`, with the builders and spans that have been handed out. -/
structure Loan where
  w : Writer
  builders : List (Schema × ℕ)
  spans : List (ℕ × Kind)
  -- what has been stored
  slots : List (ℕ × Member)
  cell : ℕ → Cell
  /-- A call could not store what it was asked to. -/
  lost : Bool

namespace Loan

variable (s : Loan)

/-- `reserve`. -/
def reserve (n : ℕ) : ℕ × Loan :=
  ((s.w.reserve n).1, { s with w := (s.w.reserve n).2 })

/-- Slots that are laid out in what was reserved. -/
def grow (slots : List (ℕ × Member)) (cleared : Bool) : Loan :=
  { s with
    slots := s.slots ++ slots
    cell := fun p => ((slots.find? fun x => x.1 = p).map fun x => x.2.fresh cleared).getD (s.cell p) }

/-- The bytes of a slot are stored. -/
def setBytes (at' : ℕ) (bytes : List UInt8) : Loan :=
  { s with
    w := s.w.store at' bytes
    cell := Function.update s.cell at' (.bytes (bytes.map some)) }

/-- The `VarRef` of a slot is stored. -/
def setRef (at' off cnt : ℕ) : Loan :=
  { s with
    w := s.w.storeRef at' off cnt
    cell := Function.update s.cell at' (.ref off cnt) }

/-- A part of the bytes of a slot is stored, through a span. -/
def setItem (at' start : ℕ) (bytes : List UInt8) : Loan :=
  { s with
    w := s.w.store (at' + start) bytes
    cell := Function.update s.cell at' (match s.cell at' with
      | .bytes known => .bytes (overwrite known start (bytes.map some))
      | .ref off cnt => .ref off cnt) }

/-- The `VarRef` at `at'`. -/
def loadRef (at' : ℕ) : VarRef :=
  { off := leNat (slice at' 4 s.w.seg), cnt := leNat (slice (at' + 4) 4 s.w.seg) }

/-- A span is handed out, unless it is empty. -/
def handOut (at' cnt : ℕ) (k : Kind) : Loan :=
  if cnt = 0 then s else { s with spans := s.spans ++ [(at', k)] }

/-- The call was asked for something and has not stored it. -/
def note (failed : Bool) : Loan := { s with lost := s.lost || failed }

/-! ## `dzflat.h` -/

/-- `alloc_array`, for a slot at `at'`: where the elements are and how many, none if there is no
room.  `cleared` says that the caller zeroes them (a table of strings, records with padding). -/
def allocArray (at' : ℕ) (m : Member) (cleared : Bool) (n : ℕ) : (ℕ × ℕ) × Loan :=
  if n = 0 then ((0, 0), s.setRef at' 0 0)
  else if n > (2 ^ 32 - 1) / u32 m.elemSize then ((0, 0), s.setRef at' 0 0)
  else
    let bytes := n * u32 m.elemSize
    let (off, s) := s.reserve bytes
    if off = 0 then ((0, 0), s.setRef at' 0 0)
    else
      let s := if cleared then { s with w := s.w.store off (List.replicate bytes 0) } else s
      ((off, n), (s.grow (elemSlots m off n) cleared).setRef at' off n)

/-- `put_string`. -/
def putString (at' : ℕ) (str : List UInt8) : Bool × Loan :=
  let n := u32 str.length
  if n = 0 then (true, s.setRef at' 0 0)
  else
    let (off, s) := s.reserve n
    if off = 0 then (false, s.setRef at' 0 0)
    else (true, ((s.grow (elemSlots (.field .string) off n) false).setBytes off
      (str.take n)).setRef at' off n)

/-- `elem_ptr`, and the slot that `put_string_at` stores to: `nullptr` outside of the array. -/
def elemPtr (at' : ℕ) (size j : ℕ) : Option ℕ :=
  let ref := s.loadRef at'
  if j ≥ ref.cnt ∨ ref.off = 0 then none else some (ref.off + j * size)

end Loan

/-! ## The builders -/

/-- What is called for a member: `set_x`, `alloc_x`, `set_x_at`. -/
inductive Setter where
  | value (v : ℕ)
  | string (str : List UInt8)
  | alloc (n : UInt32)
  | stringAt (j : UInt32) (str : List UInt8)

/-- A call of builder `b` for its member `i`, or a store through a span. -/
inductive Op where
  /-- `x()` of a nested message. -/
  | nested (b i : ℕ)
  /-- `x_at(j)` of an array of messages. -/
  | elem (b i : ℕ) (j : UInt32)
  /-- `x()` of a fixed array. -/
  | span (b i : ℕ)
  | set (b i : ℕ) (setter : Setter)
  /-- Element `j` of a span. -/
  | write (sp j v : ℕ)

/-- `set_x`, `alloc_x` and `set_x_at` for the member at `at'`; `none` is no program. -/
def Loan.set (s : Loan) (at' : ℕ) : Member → Setter → Option Loan
  | .field (.scalar sc), .value v => some (s.setBytes at' (leBytes sc.size v))
  | .field .bool, .value v => some (s.setBytes at' [boolByte (v ≠ 0)])
  | .field .string, .string str =>
      let (stored, s) := s.putString at' str
      some (s.note (!stored))
  | .field (.scalars sc none), .alloc n =>
      let ((off, cnt), s) := s.allocArray at' (.field (.scalars sc none)) false n.toNat
      some ((s.handOut off cnt (.scalars sc (some cnt.toPNat'))).note (n ≠ 0 && cnt = 0))
  | .field (.bools none), .alloc n =>
      let ((off, cnt), s) := s.allocArray at' (.field (.bools none)) false n.toNat
      some ((s.handOut off cnt (.bools (some cnt.toPNat'))).note (n ≠ 0 && cnt = 0))
  | .field (.strings size), .alloc n =>
      -- `alloc_string_table`
      let ((_, cnt), s) := s.allocArray at' (.field (.strings size)) true n.toNat
      some (s.note (n ≠ 0 && cnt = 0))
  | .field (.strings _), .stringAt j str =>
      match s.elemPtr at' varRefSize j.toNat with
      | none => some (s.note (str ≠ []))
      | some slot =>
          let (stored, s) := s.putString slot str
          some (s.note (!stored))
  | .elems msg, .alloc n =>
      -- records without padding are not cleared
      let ((_, cnt), s) := s.allocArray at' (.elems msg) (!rootTight msg) n.toNat
      some (s.note (n ≠ 0 && cnt = 0))
  | _, _ => none

/-- Member `i` of builder `b`. -/
def Loan.member (s : Loan) (b i : ℕ) : Option (ℕ × Member) :=
  match s.builders[b]? with
  | none => none
  | some (S, r) => (members S 0)[i]?.map fun x => (r + x.1, x.2)

/-- The bytes of an element that is stored through a span. -/
def itemBytes : Kind → ℕ → List UInt8
  | .scalars s _, v => leBytes s.size v
  | _, v => leBytes 1 v

def step (s : Loan) : Op → Option Loan
  | .nested b i =>
      match s.member b i with
      | some (at', .nested msg) => some { s with builders := s.builders ++ [(msg, at')] }
      | _ => none
  | .elem b i j =>
      match s.member b i with
      | some (at', .elems msg) =>
          match s.elemPtr at' (rootSize msg) j.toNat with
          | none => some (s.note true)
          | some e => some { s with builders := s.builders ++ [(msg, e)] }
      | _ => none
  | .span b i =>
      match s.member b i with
      | some (at', .field (.scalars sc (some n))) =>
          some { s with spans := s.spans ++ [(at', .scalars sc (some n))] }
      | some (at', .field (.bools (some n))) =>
          some { s with spans := s.spans ++ [(at', .bools (some n))] }
      | _ => none
  | .set b i setter =>
      match s.member b i with
      | some (at', m) => s.set at' m setter
      | none => none
  | .write sp j v =>
      match s.spans[sp]? with
      | some (at', k) =>
          let bytes := itemBytes k v
          if (j + 1) * bytes.length ≤ memberSize k then some (s.setItem at' (j * bytes.length) bytes)
          else none
      | none => none

/-- A loan of a chunk, whose root record is zeroed. -/
def Loan.start (S : Schema) (chunk : List UInt8) : Loan :=
  let start := varlenStart S
  Loan.grow
    { w :=
        { seg := overwrite chunk segHeaderSize (List.replicate (start - segHeaderSize) 0)
          cap := u32 chunk.length
          cur := start
          ok := true }
      builders := [(S, segHeaderSize)]
      spans := []
      slots := []
      cell := fun _ => .bytes []
      lost := false }
    (slotsOf S segHeaderSize 0) true

/-- `finalize`: the segment, with its header. -/
def Loan.finalize (S : Schema) (msgId : ℕ) (s : Loan) : Option (List UInt8) :=
  if s.w.ok then some (overwrite s.w.seg 0 (headerBytes S s.w.cur msgId)) else none

/-- All sequences of calls. -/
def machine (S : Schema) (chunk : List UInt8) : Machine Loan Op where
  init := Loan.start S chunk
  step := step

end DzIpc.Flat
