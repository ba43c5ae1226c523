import DzIpc.Flat.Layout
import DzIpc.Flat.Segment
import DzIpc.Wire.Codec

/-!
# Writing flat segments

`XxxFlat::write` lays a message into a chunk of shared memory: the root record behind the header,
and behind it, appended by a `Writer`, everything of variable length.  The chunk holds what the
last message left in it.

* `flatSize` is the size that is declared for a message, and `write` is the pass.
-/

namespace DzIpc.Flat

open Wire Blocks

/-! ## The declared size -/

/-- `align_up`. -/
def alignUp (n : ℕ) : ℕ := u32 (n + 7) / 8 * 8

/-- What a field adds to `varlen_size`. -/
def Kind.varlenSize : (k : Kind) → k.Value → ℕ
  | .scalar _, _ | .bool, _ | .scalars _ (some _), _ | .bools (some _), _ => 0
  | .string, v => alignUp (u32 v.length)
  | .scalars s none, v => alignUp (u32 (v.length * s.size))
  | .bools none, v => alignUp (u32 v.length)
  | .strings _, v =>
      u32 (alignUp (u32 (v.length * varRefSize)) + (v.1.map fun s => alignUp (u32 s.length)).sum)

/-- `varlen_size`. -/
def varlenSize : (S : Schema) → S.Value → ℕ
  | .nil, _ => 0
  | .field _ k rest, v => u32 (Kind.varlenSize k v.1 + varlenSize rest v.2)
  | .nested _ msg rest, v => u32 (varlenSize msg v.1 + varlenSize rest v.2)
  | .nestedArray _ _ msg rest, v =>
      u32 (alignUp (u32 (v.1.length * rootSize msg)) + (v.1.1.map (varlenSize msg)).sum
        + varlenSize rest v.2)

/-- `varlen_start`. -/
def varlenStart (S : Schema) : ℕ := alignUp (u32 (segHeaderSize + rootSize S))

/-- `XxxFlat::size`. -/
def flatSize (S : Schema) (v : S.Value) : ℕ := u32 (varlenStart S + varlenSize S v)

/-! ## The writer -/

/-- `Writer`, with the chunk it writes to. -/
structure Writer where
  seg : List UInt8
  cap : ℕ
  cur : ℕ
  ok : Bool

namespace Writer

/-- `memcpy` or `memset` in the chunk. -/
def store (w : Writer) (at' : ℕ) (bytes : List UInt8) : Writer :=
  { w with seg := overwrite w.seg at' bytes }

/-- The assignment of a `VarRef`. -/
def storeRef (w : Writer) (at' off cnt : ℕ) : Writer := w.store at' (le32 off ++ le32 cnt)

/-- `reserve`: the offset, 0 where there is no room. -/
def reserve (w : Writer) (bytes : ℕ) : ℕ × Writer :=
  let at' := alignUp w.cur
  if at' < w.cur ∨ bytes > w.cap ∨ at' > w.cap - bytes then (0, { w with ok := false })
  else (at', { w.store w.cur (List.replicate (at' - w.cur) 0) with cur := at' + bytes })

/-- The bytes behind the others, and the `VarRef` at `at'` to them; `none` where the caller returns
`false`. -/
def putRef (at' cnt : ℕ) (bytes : List UInt8) (w : Writer) : Option Writer :=
  let n := u32 bytes.length
  if n = 0 then some (w.storeRef at' 0 cnt)
  else
    let (off, w) := w.reserve n
    if off = 0 then none else some ((w.store off (bytes.take n)).storeRef at' off cnt)

end Writer

/-! ## `emit` -/

/-- The loop over the elements of an array, whose records are `size` bytes each. -/
def emitElems {α : Type} (emit : ℕ → α → Writer → Option Writer) (block size : ℕ) :
    ℕ → List α → Writer → Option Writer
  | _, [], w => some w
  | i, item :: items, w => do
      let w ← emit (block + i * size) item w
      emitElems emit block size (i + 1) items w

/-- An array of records, and the `VarRef` at `at'` to it.  The records are zeroed first unless
every byte of them is written anyway. -/
def emitBlock {α : Type} (emit : ℕ → α → Writer → Option Writer) (tight : Bool) (at' size : ℕ)
    (items : List α) (w : Writer) : Option Writer := do
  let cnt := u32 items.length
  let (block, w) := if cnt = 0 then (0, w) else w.reserve (u32 (cnt * size))
  if cnt ≠ 0 ∧ block = 0 then none
  else
    let w := if tight || cnt = 0 then w else w.store block (List.replicate (cnt * size) 0)
    let w ← emitElems emit block size 0 (items.take cnt) w
    return w.storeRef at' block cnt

/-- A field that is not a nested message, at `at'`. -/
def Kind.emit (at' : ℕ) : (k : Kind) → k.Value → Writer → Option Writer
  | .scalar s, v, w => some (w.store at' (leBytes s.size v.toNat))
  | .bool, v, w => some (w.store at' [boolByte v])
  | .scalars s (some _), v, w =>
      some (w.store at' (v.1.flatMap fun item => leBytes s.size item.toNat))
  | .bools (some _), v, w => some (w.store at' (v.1.map boolByte))
  | .string, v, w => w.putRef at' (u32 v.length) v
  | .scalars s none, v, w =>
      w.putRef at' (u32 v.1.length) (v.1.flatMap fun item => leBytes s.size item.toNat)
  | .bools none, v, w => w.putRef at' (u32 v.1.length) (v.1.map boolByte)
  | .strings _, v, w =>
      emitBlock (fun at' str => Writer.putRef at' (u32 str.length) str) true at' varRefSize v.1 w

/-- The sizes of the members together. -/
def memberTotal : Schema → ℕ
  | .nil => 0
  | .field _ k rest => memberSize k + memberTotal rest
  | .nested _ msg rest => rootSize msg + memberTotal rest
  | .nestedArray _ _ _ rest => varRefSize + memberTotal rest

/-- The test of `kRootTight`, given that of the nested messages. -/
def recordTight (S : Schema) (nested : Bool) : Bool :=
  rootSize S = (match S with | .nil => 8 | _ => memberTotal S) && nested

/-- `kRootTight` of all nested messages. -/
def nestedTight : Schema → Bool
  | .nil => true
  | .field _ _ rest => nestedTight rest
  | .nested _ msg rest | .nestedArray _ _ msg rest =>
      recordTight msg (nestedTight msg) && nestedTight rest

/-- `kRootTight`: no byte of the record is padding. -/
def rootTight (S : Schema) : Bool := recordTight S (nestedTight S)

/-- `emit`, into the record at `base` with the members from `cur` on; `none` is `false`. -/
def emit : (S : Schema) → (base cur : ℕ) → S.Value → Writer → Option Writer
  | .nil, _, _, _, w => if w.ok then some w else none
  | .field _ k rest, base, cur, v, w => do
      let w ← Kind.emit (base + alignTo cur (memberAlign k)) k v.1 w
      emit rest base (alignTo cur (memberAlign k) + memberSize k) v.2 w
  | .nested _ msg rest, base, cur, v, w => do
      let w ← emit msg (base + alignTo cur rootAlign) 0 v.1 w
      emit rest base (alignTo cur rootAlign + rootSize msg) v.2 w
  | .nestedArray _ _ msg rest, base, cur, v, w => do
      let w ← emitBlock (fun at' item w => emit msg at' 0 item w) (rootTight msg)
        (base + alignTo cur varRefAlign) (rootSize msg) v.1.1 w
      emit rest base (alignTo cur varRefAlign + varRefSize) v.2 w

/-- The header that `write_header` writes. -/
def headerBytes (S : Schema) (totalSize msgId : ℕ) : List UInt8 :=
  le32 magic.toNat ++ le32 (schemaHash S).toNat ++ le32 segHeaderSize ++ le32 (u32 (rootSize S)) ++
    le32 totalSize ++ leBytes 2 layoutVer.toNat ++ leBytes 2 0 ++ le32 msgId ++ le32 0

/-- `XxxFlat::write`: the chunk afterwards, and the size that the header states. -/
def write (S : Schema) (v : S.Value) (seg : List UInt8) (cap msgId : ℕ) :
    Option (List UInt8 × ℕ) :=
  let start := varlenStart S
  if cap < start then none
  else do
    -- the padding of the root record
    let seg := overwrite seg segHeaderSize (List.replicate (start - segHeaderSize) 0)
    let w ← emit S segHeaderSize 0 v { seg, cap, cur := start, ok := true }
    return (overwrite w.seg 0 (headerBytes S w.cur msgId), w.cur)

end DzIpc.Flat
