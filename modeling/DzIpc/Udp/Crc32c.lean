import Mathlib.Tactic.Common

/-!
# CRC-32C

The table-driven checksum a receiver puts into its acknowledgment and a sender compares
with its own.
-/

namespace DzIpc.Udp

/-- `kCrc32cPolynomial`. -/
def crc32cPolynomial : UInt32 := 0x82F63B78

/-- One round of the inner loop of `make_table`. -/
def crcBit (crc : UInt32) : UInt32 :=
  (crc >>> 1) ^^^ (if crc &&& 1 ≠ 0 then crc32cPolynomial else 0)

/-- `make_table`. -/
def crc32cTable : List UInt32 :=
  (List.range 256).map fun i =>
    crcBit (crcBit (crcBit (crcBit (crcBit (crcBit (crcBit (crcBit (.ofNat i))))))))

/-- `crc32c_sw`. -/
def crc32c (data : List UInt8) : UInt32 :=
  ~~~ data.foldl
    (fun crc b => (crc >>> 8) ^^^ crc32cTable.getD ((crc ^^^ b.toUInt32) &&& 0xFF).toNat 0)
    0xFFFFFFFF

example : crc32c [0x31, 0x32, 0x33, 0x34, 0x35, 0x36, 0x37, 0x38, 0x39] = 0xE3069283 := by
  decide +kernel

end DzIpc.Udp
