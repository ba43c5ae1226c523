import DzIpc.Library.Crc
import DzIpc.Udp.Crc32c
import DzIpc.Wire.Paging

/-!
# The two ways to a CRC-32C

`crc32c.cc` has a table-driven implementation and one on the SSE4.2 instructions, and picks one
when the process starts.  Sender and receiver may run on different machines, so the two have to
agree; both are compared with the checksum taken bit by bit.

* The table (`step_table`).  An entry is eight steps of its index, and the bits above the low
  eight only move down, so a lookup and a shift are the eight steps of one byte.
* The instructions (`hwWords_feed`).  Sixty-four steps of a register that holds eight bytes are
  the steps of its bits one at a time, and those are the bits of its bytes, the first byte lowest.
* `crc32c_paths_agree` puts the two together.
-/

namespace DzIpc.Udp

open DzIpc.Wire

/-- The checksum bit by bit: every byte from its lowest bit up, from all ones, complemented. -/
def crc32cBitwise (data : List UInt8) : UInt32 :=
  ~~~ UInt32.ofNat (Crc.feed crc32cPolynomial.toNat 0xFFFFFFFF (Crc.bitsOfBytes data))

/-- `_mm_crc32_u8` and `_mm_crc32_u64`. -/
structure Sse42 where
  mmCrc32U8 : UInt32 → UInt8 → UInt32
  mmCrc32U64 : UInt64 → UInt64 → UInt64

/-- What the instructions are documented to leave: the remainder of the operand with the checksum
added to its first 32 bits, the upper half of a 64-bit result clear. -/
structure Sse42.Documented (cpu : Sse42) : Prop where
  u8 : ∀ (crc : UInt32) (v : UInt8), (cpu.mmCrc32U8 crc v).toNat
    = Crc.steps crc32cPolynomial.toNat 8 (crc.toNat ^^^ v.toNat)
  u64 : ∀ (crc : UInt32) (v : UInt64), (cpu.mmCrc32U64 crc.toUInt64 v).toNat
    = Crc.steps crc32cPolynomial.toNat 64 (crc.toNat ^^^ v.toNat)

/-- The `memcpy` of eight bytes into a `uint64_t`. -/
def loadWord (bytes : List UInt8) : UInt64 :=
  .ofNat (leNat bytes)

/-- The first loop of `crc32c_hw`: the checksum after it, and the bytes from `offset` on. -/
def hwWords (cpu : Sse42) : UInt32 → List UInt8 → UInt32 × List UInt8
  | crc, b₀ :: b₁ :: b₂ :: b₃ :: b₄ :: b₅ :: b₆ :: b₇ :: rest =>
      hwWords cpu
        (cpu.mmCrc32U64 crc.toUInt64 (loadWord [b₀, b₁, b₂, b₃, b₄, b₅, b₆, b₇])).toUInt32 rest
  | crc, bytes => (crc, bytes)

/-- `crc32c_hw`. -/
def crc32cHw (cpu : Sse42) (data : List UInt8) : UInt32 :=
  let words := hwWords cpu 0xFFFFFFFF data
  ~~~ words.2.foldl cpu.mmCrc32U8 words.1

/-! ## The table -/

theorem crcBit_toNat (crc : UInt32) :
    (crcBit crc).toNat = Crc.step crc32cPolynomial.toNat crc.toNat := by
  have hbit : crc &&& 1 ≠ 0 ↔ crc.toNat.testBit 0 = true := by
    rw [Ne, ← UInt32.toNat_inj, UInt32.toNat_and, Nat.testBit_zero]
    simp
  unfold crcBit Crc.step
  rw [UInt32.toNat_xor, UInt32.toNat_shiftRight]
  by_cases h : crc.toNat.testBit 0 = true
  · rw [if_pos (hbit.mpr h), if_pos h]
    rfl
  · rw [if_neg (mt hbit.mp h), if_neg h]
    rfl

/-- An entry of the table is eight steps of its index. -/
theorem crc32cTable_getD {i : ℕ} (hi : i < 2 ^ 8) :
    (crc32cTable.getD i 0).toNat = Crc.steps crc32cPolynomial.toNat 8 i := by
  have hlen : i < crc32cTable.length := by
    rw [crc32cTable, List.length_map, List.length_range]
    exact hi
  have hindex : (UInt32.ofNat i).toNat = i :=
    Nat.mod_eq_of_lt (Nat.lt_trans hi (by decide))
  rw [List.getD_eq_getElem?_getD, List.getElem?_eq_getElem hlen, Option.getD_some]
  simp only [crc32cTable, List.getElem_map, List.getElem_range, crcBit_toNat, hindex, Crc.steps]

/-- A byte through the table is its bits one at a time. -/
theorem step_table (crc : UInt32) (b : UInt8) :
    ((crc >>> 8) ^^^ crc32cTable.getD ((crc ^^^ b.toUInt32) &&& 0xFF).toNat 0).toNat
      = Crc.feed crc32cPolynomial.toNat crc.toNat (Crc.bitsOf 8 b.toNat) := by
  have hb : b.toNat < 2 ^ 8 := b.toNat_lt
  have hindex : ((crc ^^^ b.toUInt32) &&& 0xFF).toNat = (crc.toNat ^^^ b.toNat) % 2 ^ 8 := by
    rw [UInt32.toNat_and, UInt32.toNat_xor, UInt8.toNat_toUInt32]
    exact Nat.and_two_pow_sub_one_eq_mod _ 8
  have hhigh : (crc.toNat ^^^ b.toNat) >>> 8 = crc.toNat >>> 8 := by
    rw [Nat.shiftRight_xor_distrib, Nat.shiftRight_eq_zero _ _ hb, Nat.xor_zero]
  have hdown : (crc >>> 8).toNat = crc.toNat >>> 8 := UInt32.toNat_shiftRight crc 8
  rw [Crc.feed_bitsOf, Nat.mod_eq_of_lt hb, Crc.steps_eq_low_xor_high, hhigh, UInt32.toNat_xor,
    hindex, hdown, crc32cTable_getD (Nat.mod_lt _ (by decide)), Nat.xor_comm]

/-- A loop whose body consumes a byte as its bits consumes a byte string as its bits. -/
theorem foldl_feed {f : UInt32 → UInt8 → UInt32}
    (hf : ∀ crc b, (f crc b).toNat
      = Crc.feed crc32cPolynomial.toNat crc.toNat (Crc.bitsOf 8 b.toNat))
    (bytes : List UInt8) (crc : UInt32) :
    (bytes.foldl f crc).toNat
      = Crc.feed crc32cPolynomial.toNat crc.toNat (Crc.bitsOfBytes bytes) := by
  induction bytes generalizing crc with
  | nil => rfl
  | cons b bytes ih =>
      rw [List.foldl_cons, ih, hf, Crc.bitsOfBytes_cons, Crc.feed_append]

theorem crc32c_eq_bitwise (data : List UInt8) : crc32c data = crc32cBitwise data := by
  have hcrc := foldl_feed step_table data 0xFFFFFFFF
  unfold crc32c crc32cBitwise
  rw [← UInt32.ofNat_toNat (x := data.foldl _ _), hcrc]
  rfl

/-! ## The instructions -/

variable {cpu : Sse42}

theorem Sse42.Documented.u8_feed (hcpu : cpu.Documented) (crc : UInt32) (b : UInt8) :
    (cpu.mmCrc32U8 crc b).toNat
      = Crc.feed crc32cPolynomial.toNat crc.toNat (Crc.bitsOf 8 b.toNat) := by
  rw [hcpu.u8, Crc.feed_bitsOf, Nat.mod_eq_of_lt b.toNat_lt]

theorem bitsOf_leNat (bytes : List UInt8) :
    Crc.bitsOf (8 * bytes.length) (leNat bytes) = Crc.bitsOfBytes bytes := by
  induction bytes with
  | nil => rfl
  | cons b bytes ih =>
      have hlow : (b.toNat + 2 ^ 8 * leNat bytes) % 2 ^ 8 = b.toNat := by
        rw [Nat.add_mul_mod_self_left, Nat.mod_eq_of_lt b.toNat_lt]
      have hhigh : (b.toNat + 2 ^ 8 * leNat bytes) >>> 8 = leNat bytes := by
        rw [Nat.shiftRight_eq_div_pow, Nat.add_mul_div_left _ _ (by decide),
          Nat.div_eq_of_lt b.toNat_lt, Nat.zero_add]
      rw [List.length_cons, Nat.mul_succ, Nat.add_comm, Crc.bitsOf_add, leNat, hhigh, ih,
        ← Crc.bitsOf_mod 8, hlow, Crc.bitsOfBytes_cons]

/-- Eight bytes in one word are their bits one at a time. -/
theorem Sse42.Documented.u64_feed (hcpu : cpu.Documented) (crc : UInt32) {bytes : List UInt8}
    (hlen : bytes.length = 8) :
    (cpu.mmCrc32U64 crc.toUInt64 (loadWord bytes)).toUInt32.toNat
      = Crc.feed crc32cPolynomial.toNat crc.toNat (Crc.bitsOfBytes bytes) := by
  have hbits : Crc.bitsOfBytes bytes = Crc.bitsOf 64 (leNat bytes) := by
    rw [← bitsOf_leNat, hlen]
  have hload : (loadWord bytes).toNat = leNat bytes % 2 ^ 64 := rfl
  have hfeed : (cpu.mmCrc32U64 crc.toUInt64 (loadWord bytes)).toNat
      = Crc.feed crc32cPolynomial.toNat crc.toNat (Crc.bitsOfBytes bytes) := by
    rw [hcpu.u64, hload, hbits, Crc.feed_bitsOf]
  rw [UInt64.toNat_toUInt32, hfeed]
  exact Nat.mod_eq_of_lt (Crc.feed_lt _ (by decide) _ (by decide) crc.toNat_lt)

/-- The loop over words, followed by the bytes it leaves, consumes the bits of the byte string. -/
theorem hwWords_feed (hcpu : cpu.Documented) (crc : UInt32) (bytes : List UInt8) :
    Crc.feed crc32cPolynomial.toNat (hwWords cpu crc bytes).1.toNat
        (Crc.bitsOfBytes (hwWords cpu crc bytes).2)
      = Crc.feed crc32cPolynomial.toNat crc.toNat (Crc.bitsOfBytes bytes) := by
  induction crc, bytes using hwWords.induct cpu with
  | case1 crc b₀ b₁ b₂ b₃ b₄ b₅ b₆ b₇ rest ih =>
      rw [hwWords, ih, hcpu.u64_feed crc rfl, ← Crc.feed_append, ← Crc.bitsOfBytes_append]
      rfl
  | case2 crc bytes hshort =>
      rw [hwWords]
      exact hshort

theorem crc32cHw_eq_bitwise (hcpu : cpu.Documented) (data : List UInt8) :
    crc32cHw cpu data = crc32cBitwise data := by
  have hcrc : ((hwWords cpu 0xFFFFFFFF data).2.foldl cpu.mmCrc32U8
      (hwWords cpu 0xFFFFFFFF data).1).toNat
        = Crc.feed crc32cPolynomial.toNat 0xFFFFFFFF (Crc.bitsOfBytes data) := by
    rw [foldl_feed hcpu.u8_feed, hwWords_feed hcpu]
    rfl
  unfold crc32cHw crc32cBitwise
  rw [← hcrc, UInt32.ofNat_toNat]

/-- Both implementations compute the checksum taken bit by bit. -/
theorem crc32c_paths_agree (cpu : Sse42) (hcpu : cpu.Documented) (data : List UInt8) :
    crc32c data = crc32cBitwise data ∧ crc32cHw cpu data = crc32cBitwise data :=
  ⟨crc32c_eq_bitwise data, crc32cHw_eq_bitwise hcpu data⟩

/-- The instructions as a program of their own. -/
def Sse42.emulated : Sse42 where
  mmCrc32U8 := fun crc v =>
    .ofNat (Crc.steps crc32cPolynomial.toNat 8 (crc.toNat ^^^ v.toNat))
  mmCrc32U64 := fun crc v =>
    .ofNat (Crc.steps crc32cPolynomial.toNat 64 (crc.toUInt32.toNat ^^^ v.toNat))

theorem Sse42.documented_emulated : Sse42.emulated.Documented where
  u8 := fun crc v => by
    have hfeed := Crc.feed_bitsOf crc32cPolynomial.toNat 8 crc.toNat v.toNat
    rw [Nat.mod_eq_of_lt v.toNat_lt] at hfeed
    simp only [emulated, UInt32.toNat_ofNat']
    rw [← hfeed]
    exact Nat.mod_eq_of_lt (Crc.feed_lt _ (by decide) _ (by decide) crc.toNat_lt)
  u64 := fun crc v => by
    have hcrc : crc.toUInt64.toUInt32 = crc := UInt32.toUInt32_toUInt64 crc
    have hfeed := Crc.feed_bitsOf crc32cPolynomial.toNat 64 crc.toNat v.toNat
    rw [Nat.mod_eq_of_lt v.toNat_lt] at hfeed
    simp only [emulated, UInt64.toNat_ofNat', hcrc]
    rw [← hfeed]
    have hlt := Crc.feed_lt (w := 32) crc32cPolynomial.toNat (by decide)
      (Crc.bitsOf 64 v.toNat) (by decide) crc.toNat_lt
    exact Nat.mod_eq_of_lt (Nat.lt_trans hlt (by decide))

/-- The nine digits of the usual check value, one word and one byte. -/
theorem crc32c_paths_agree_check :
    crc32c [0x31, 0x32, 0x33, 0x34, 0x35, 0x36, 0x37, 0x38, 0x39]
        = crc32cBitwise [0x31, 0x32, 0x33, 0x34, 0x35, 0x36, 0x37, 0x38, 0x39]
      ∧ crc32cHw Sse42.emulated [0x31, 0x32, 0x33, 0x34, 0x35, 0x36, 0x37, 0x38, 0x39]
        = crc32cBitwise [0x31, 0x32, 0x33, 0x34, 0x35, 0x36, 0x37, 0x38, 0x39] :=
  crc32c_paths_agree Sse42.emulated Sse42.documented_emulated _

end DzIpc.Udp
