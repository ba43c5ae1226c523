import DzIpc.Library.Blocks
import DzIpc.Wire.Paging

/-!
# DZFlat segments

A flat segment starts with a header of 32 bytes.  The reader trusts nothing in it: the
header says whether the bytes are a segment at all, and how many of them belong to it.
-/

namespace DzIpc.Flat

open Wire Blocks

/-- `kMagic`: "DZFL". -/
def magic : UInt32 := 0x4C465A44

/-- `kLayoutVer`. -/
def layoutVer : UInt16 := 1

/-- `SegHeader`. -/
structure SegHeader where
  magic : UInt32
  schemaHash : UInt32
  rootOff : UInt32
  rootSize : UInt32
  totalSize : UInt32
  layoutVer : UInt16
  flags : UInt16
  msgId : UInt32
  reserved : UInt32
  deriving DecidableEq, Repr

/-- `sizeof(SegHeader)`. -/
def segHeaderSize : ℕ := 32

/-- The header that the first bytes of a segment spell out. -/
def SegHeader.ofBytes (seg : List UInt8) : SegHeader where
  magic := .ofNat (leNat (slice 0 4 seg))
  schemaHash := .ofNat (leNat (slice 4 4 seg))
  rootOff := .ofNat (leNat (slice 8 4 seg))
  rootSize := .ofNat (leNat (slice 12 4 seg))
  totalSize := .ofNat (leNat (slice 16 4 seg))
  layoutVer := .ofNat (leNat (slice 20 2 seg))
  flags := .ofNat (leNat (slice 22 2 seg))
  msgId := .ofNat (leNat (slice 24 4 seg))
  reserved := .ofNat (leNat (slice 28 4 seg))

/-- `has_dzflat_magic`. -/
def hasDzflatMagic (seg : List UInt8) : Bool :=
  if seg.length < 4 then false
  else UInt32.ofNat (leNat (slice 0 4 seg)) = magic

/-- `looks_like_dzflat`. -/
def looksLikeDzflat (seg : List UInt8) : Bool :=
  if seg.length < segHeaderSize then false
  else
    let h := SegHeader.ofBytes seg
    h.magic = magic && h.layoutVer = layoutVer && h.totalSize.toNat ≤ seg.length
      && h.rootOff.toNat = segHeaderSize

end DzIpc.Flat
