import DzIpc.Library.Outcome
import DzIpc.Library.Weave
import Mathlib.Algebra.Order.Ring.Int

/-!
# The paged byte stream

`IpcMsgBase` lays a message into a buffer with a 12-byte tail after every 1460 data bytes
(`adapt_memcpy_tos`), and reads it back by stepping over the tails
(`adapt_memcpy_tods`).  The writer appends, so its state holds the bytes `dst[0, offset)`
written so far; the reader works on a region, that is, on a pointer into an allocation and
the size claimed for it.

* `adaptMemcpyTos_laid` says that the writer weaves tails into the data and nothing else.
* `adaptMemcpyTods_spec` says that the reader, standing at the position of a data byte,
  takes the data that follow, wherever the page boundaries fall.
* `adaptMemcpyTods_safe` says that on a region no larger than its allocation the reader
  touches no byte outside it.
-/

namespace DzIpc.Wire

open Weave

/-! ## Machine integers and bytes -/

/-- `IPC_MSG_MAX_SIZE`: the data bytes of one page. -/
def ipcMsgMaxSize : ℕ := 1460

/-- `TAIL_MSG_SIZE`: the bytes of one page tail. -/
def tailMsgSize : ℕ := 12

/-- The value of an unsigned 16-bit variable. -/
def u16 (n : ℕ) : ℕ := n % 2 ^ 16

/-- The value of an unsigned 32-bit variable. -/
def u32 (n : ℕ) : ℕ := n % 2 ^ 32

/-- A signed value, converted to an unsigned 32-bit one. -/
def toU32 (z : ℤ) : ℕ := (z % 2 ^ 32).toNat

/-- The value of a signed 32-bit variable. -/
def i32 (z : ℤ) : ℤ := Int.bmod z (2 ^ 32)

/-- Unsigned 32-bit subtraction. -/
def sub32 (a b : ℕ) : ℕ := (a + 2 ^ 32 - b % 2 ^ 32) % 2 ^ 32

/-- The lowest byte of a number. -/
def byte (n : ℕ) : UInt8 := UInt8.ofNat n

/-- The `width` low bytes of a number, lowest first: the object representation of an
integer on the little-endian hosts the code runs on. -/
def leBytes : ℕ → ℕ → List UInt8
  | 0, _ => []
  | width + 1, n => byte n :: leBytes width (n / 2 ^ 8)

/-- The number whose bytes are given, lowest first. -/
def leNat : List UInt8 → ℕ
  | [] => 0
  | b :: rest => b.toNat + 2 ^ 8 * leNat rest

/-- Two bytes, highest first. -/
def be16 (n : ℕ) : List UInt8 := [byte (n / 2 ^ 8), byte n]

/-- Four bytes, highest first. -/
def be32 (n : ℕ) : List UInt8 :=
  [byte (n / 2 ^ 24), byte (n / 2 ^ 16), byte (n / 2 ^ 8), byte n]

@[simp] theorem length_leBytes (width n : ℕ) : (leBytes width n).length = width := by
  induction width generalizing n with
  | zero => rfl
  | succ width ih => simp [leBytes, ih]

theorem byte_toNat (n : ℕ) : (byte n).toNat = n % 2 ^ 8 := by
  simp [byte]

theorem leNat_leBytes (width n : ℕ) : leNat (leBytes width n) = n % (2 ^ 8) ^ width := by
  induction width generalizing n with
  | zero => simp [leBytes, leNat, Nat.mod_one]
  | succ width ih => rw [leBytes, leNat, ih, byte_toNat, Nat.pow_succ (2 ^ 8), Nat.mul_comm _ (2 ^ 8), Nat.mod_mul]

theorem u16_of_lt {n : ℕ} (hn : n < 2 ^ 16) : u16 n = n :=
  Nat.mod_eq_of_lt hn

theorem u32_of_lt {n : ℕ} (hn : n < 2 ^ 32) : u32 n = n :=
  Nat.mod_eq_of_lt hn

theorem u32_lt (n : ℕ) : u32 n < 2 ^ 32 :=
  Nat.mod_lt n (by decide)

theorem u32_le (n : ℕ) : u32 n ≤ n :=
  Nat.mod_le n _

theorem sub32_of_le {a b : ℕ} (hab : b ≤ a) (ha : a < 2 ^ 32) : sub32 a b = a - b := by
  unfold sub32
  omega

theorem i32_of_lt {n : ℕ} (hn : n < 2 ^ 31) : i32 n = n := by
  unfold i32
  rw [Int.bmod_eq_of_le] <;> omega

theorem toU32_natCast {n : ℕ} (hn : n < 2 ^ 32) : toU32 n = n := by
  unfold toU32
  omega

/-! ## The writer -/

/-- `size_info`: the page count and the size of a serialized buffer. -/
structure SizeInfo where
  pageCnt : ℕ
  totalSize : ℕ
  deriving DecidableEq, Repr

/-- `correct_total_size`. -/
def correctTotalSize (totalDataLen : ℕ) : SizeInfo :=
  let totalPage := u16 (u16 (totalDataLen / ipcMsgMaxSize) + 1)
  { pageCnt := totalPage, totalSize := u32 (totalDataLen + totalPage * tailMsgSize) }

/-- A serialization under way: the members `_total_page_cnt`, `_total_size` and
`dz_ipc_msg_id`, the running page number, and the bytes `dst[0, offset)`. -/
structure Writer where
  info : SizeInfo
  msgId : ℕ
  page : ℕ
  out : List UInt8
  deriving DecidableEq, Repr

/-- The bytes of a page tail. -/
def tailBytes (info : SizeInfo) (msgId page : ℕ) : List UInt8 :=
  be16 info.pageCnt ++ be16 page ++ be32 info.totalSize ++ be32 msgId

namespace Writer

/-- The running `offset`: every write starts where the one before it ended. -/
def offset (w : Writer) : ℕ := u32 w.out.length

/-- Copy bytes to `dst + offset` and move `offset` behind them. -/
def append (w : Writer) (bytes : List UInt8) : Writer :=
  { w with out := w.out ++ bytes }

/-- `add_tail_msg` at `dst + offset`. -/
def addTailMsg (w : Writer) : Writer :=
  w.append (tailBytes w.info w.msgId w.page)

/-- The `cut_cnt` rounds of `adapt_memcpy_tos`, with what is left of the source. -/
def cutLoop : ℕ → Writer → ℕ → List UInt8 → Writer × List UInt8
  | 0, w, _, src => (w, src)
  | i + 1, w, pureDataOffset, src =>
      let copySize := min (ipcMsgMaxSize - pureDataOffset % ipcMsgMaxSize) src.length
      let w := { w.append (src.take copySize) with page := u16 (w.page + 1) }
      cutLoop i w.addTailMsg (u32 (pureDataOffset + copySize)) (src.drop copySize)

/-- `adapt_memcpy_tos`, for the bytes of one source object. -/
def adaptMemcpyTos (w : Writer) (src : List UInt8) : Writer :=
  -- offset - (page - 1) * TAIL_MSG_SIZE in 32-bit unsigned arithmetic
  let pureDataOffset := sub32 (w.offset + tailMsgSize) (w.page * tailMsgSize)
  let cutCnt := sub32 (u32 (pureDataOffset + src.length) / ipcMsgMaxSize)
    (pureDataOffset / ipcMsgMaxSize)
  let cut := cutLoop cutCnt w pureDataOffset src
  cut.1.append cut.2

end Writer

/-- `serialize_data_cut`, with the `offset` and `page` the generated code starts from. -/
def serializeDataCut (msgId totalDataLen : ℕ) : Writer :=
  { info := correctTotalSize totalDataLen, msgId := msgId, page := 1, out := [] }

/-- The writer after the data bytes `data`. -/
def laid (info : SizeInfo) (msgId : ℕ) (data : List UInt8) : Writer :=
  { info := info
    msgId := msgId
    page := data.length / ipcMsgMaxSize + 1
    out := weave ipcMsgMaxSize (fun k => tailBytes info msgId (k + 1)) 0 data }

@[simp] theorem length_tailBytes (info : SizeInfo) (msgId page : ℕ) :
    (tailBytes info msgId page).length = tailMsgSize := rfl

theorem laid_nil (info : SizeInfo) (msgId : ℕ) :
    laid info msgId [] = { info := info, msgId := msgId, page := 1, out := [] } := rfl

/-- The position of data byte `n` in a paged stream. -/
def position (n : ℕ) : ℕ := place ipcMsgMaxSize tailMsgSize n

theorem position_eq (n : ℕ) : position n = n + 12 * (n / 1460) := rfl

theorem le_position (n : ℕ) : n ≤ position n := le_place n

theorem position_add_le (n c : ℕ) : position n + c ≤ position (n + c) := place_add_le n c

theorem position_mono {m n : ℕ} (h : m ≤ n) : position m ≤ position n := place_mono h

theorem position_add_of_within {n c : ℕ} (hc : n % ipcMsgMaxSize + c < ipcMsgMaxSize) :
    position (n + c) = position n + c := place_add_of_within hc

theorem position_add_of_block {n c : ℕ} (hc : n % ipcMsgMaxSize + c = ipcMsgMaxSize) :
    position (n + c) = position n + c + tailMsgSize := place_add_of_block (by decide) hc

/-- The woven data end at the position of the next data byte. -/
theorem length_woven {tail : ℕ → List UInt8} (htail : ∀ k, (tail k).length = tailMsgSize)
    (data : List UInt8) : (weave ipcMsgMaxSize tail 0 data).length = position data.length :=
  length_weave_zero htail (by decide) data

theorem length_laid_out (info : SizeInfo) (msgId : ℕ) (data : List UInt8) :
    (laid info msgId data).out.length = position data.length :=
  length_woven (fun _ => rfl) data

/-- The rounds that fill pages lay exactly the bytes up to the last page boundary. -/
private theorem cutLoop_laid (info : SizeInfo) (msgId : ℕ) (cutCnt : ℕ) :
    ∀ data src : List UInt8, cutCnt = cuts ipcMsgMaxSize data.length src.length →
      (data.length + src.length) / ipcMsgMaxSize + 1 < 2 ^ 16 →
      ∃ done rest, src = done ++ rest ∧
        (data ++ done).length % ipcMsgMaxSize + rest.length < ipcMsgMaxSize ∧
        Writer.cutLoop cutCnt (laid info msgId data) data.length src
          = (laid info msgId (data ++ done), rest) := by
  induction cutCnt with
  | zero =>
      intro data src hcuts _
      refine ⟨[], src, rfl, ?_, by simp [Writer.cutLoop]⟩
      simp only [List.append_nil]
      by_contra hge
      have := cuts_of_block (B := ipcMsgMaxSize) (by decide) (Nat.not_lt.mp hge)
      omega
  | succ cutCnt ih =>
      intro data src hcuts hfits
      have hmod : data.length % ipcMsgMaxSize < ipcMsgMaxSize := Nat.mod_lt _ (by decide)
      have hge : ipcMsgMaxSize ≤ data.length % ipcMsgMaxSize + src.length := by
        by_contra hlt
        have := cuts_eq_zero (Nat.not_le.mp hlt)
        omega
      have hblock := cuts_of_block (B := ipcMsgMaxSize) (by decide) hge
      -- the bytes that fill the current page
      set copy := ipcMsgMaxSize - data.length % ipcMsgMaxSize with hcopy
      have hcopyLe : copy ≤ src.length := by omega
      have htake : (src.take copy).length = copy := List.length_take_of_le hcopyLe
      have hdrop : (src.drop copy).length = src.length - copy := List.length_drop
      have hdata : (data ++ src.take copy).length = data.length + copy := by simp [htake]
      have hsmall : data.length + src.length < 2 ^ 32 := by
        have := Nat.lt_mul_div_succ (data.length + src.length) (b := ipcMsgMaxSize) (by decide)
        simp only [ipcMsgMaxSize] at this hfits
        omega
      have hlaid : (laid info msgId data).out ++ src.take copy
            ++ tailBytes info msgId (data.length / ipcMsgMaxSize + 2)
          = (laid info msgId (data ++ src.take copy)).out := by
        have hne : src.take copy ≠ [] := by
          intro h
          rw [h] at htake
          simp only [List.length_nil] at htake
          omega
        simp only [laid]
        rw [weave_append, Nat.zero_add, weave_block hne (by omega), List.append_assoc]
      have hpage : (data ++ src.take copy).length / ipcMsgMaxSize + 1
          = data.length / ipcMsgMaxSize + 2 := by
        rw [hdata, div_add_of_block (by decide) (by omega)]
      have hpage16 : u16 (data.length / ipcMsgMaxSize + 1 + 1)
          = data.length / ipcMsgMaxSize + 2 := by
        apply u16_of_lt
        have : (data.length + copy) / ipcMsgMaxSize ≤ (data.length + src.length) / ipcMsgMaxSize :=
          Nat.div_le_div_right (by omega)
        rw [div_add_of_block (by decide) (by omega)] at this
        omega
      obtain ⟨done, rest, hsrc, hend, hloop⟩ := ih (data ++ src.take copy) (src.drop copy)
        (by rw [hdata, hdrop]; omega)
        (by rw [hdata, hdrop, show data.length + copy + (src.length - copy)
              = data.length + src.length by omega]; exact hfits)
      refine ⟨src.take copy ++ done, rest, ?_, ?_, ?_⟩
      · rw [List.append_assoc, ← hsrc, List.take_append_drop]
      · rw [← List.append_assoc]
        exact hend
      · rw [← List.append_assoc, ← hloop]
        have hmin : min copy src.length = copy := Nat.min_eq_left hcopyLe
        have hpure : u32 (data.length + copy) = (data ++ src.take copy).length := by
          rw [hdata]
          exact u32_of_lt (by omega)
        simp only [Writer.cutLoop, ← hcopy, hmin, hpure]
        congr 1
        simp only [Writer.addTailMsg, Writer.append, laid, hpage16, hpage, Writer.mk.injEq, true_and]
        simpa only [laid] using hlaid

/-- One call of `adapt_memcpy_tos`, from the data offset it computes. -/
theorem adaptMemcpyTos_eq {w w' : Writer} {src rest : List UInt8} {pure cutCnt : ℕ}
    (hpure : sub32 (w.offset + tailMsgSize) (w.page * tailMsgSize) = pure)
    (hcuts : sub32 (u32 (pure + src.length) / ipcMsgMaxSize) (pure / ipcMsgMaxSize) = cutCnt)
    (hloop : Writer.cutLoop cutCnt w pure src = (w', rest)) :
    w.adaptMemcpyTos src = w'.append rest := by
  subst hpure hcuts
  simp only [Writer.adaptMemcpyTos, hloop]

/-- The data offset that `adapt_memcpy_tos` computes. -/
theorem pureDataOffset_laid (info : SizeInfo) (msgId : ℕ) (data : List UInt8)
    (hfits : data.length / ipcMsgMaxSize + 1 < 2 ^ 16) :
    sub32 ((laid info msgId data).offset + tailMsgSize)
      ((laid info msgId data).page * tailMsgSize) = data.length := by
  have hbound : data.length < 1460 * 65536 := by
    have := Nat.lt_mul_div_succ data.length (b := ipcMsgMaxSize) (by decide)
    simp only [ipcMsgMaxSize] at this hfits
    omega
  have hout := length_laid_out info msgId data
  rw [position_eq] at hout
  have hoff : (laid info msgId data).offset = data.length + 12 * (data.length / 1460) := by
    unfold Writer.offset
    rw [hout]
    exact u32_of_lt (by omega)
  rw [hoff, sub32_of_le] <;> simp only [laid, tailMsgSize, ipcMsgMaxSize] <;> omega

/-- The number of rounds that it computes. -/
theorem cutCnt_eq {n len : ℕ} (hsum : n + len < 2 ^ 32) :
    sub32 (u32 (n + len) / ipcMsgMaxSize) (n / ipcMsgMaxSize) = cuts ipcMsgMaxSize n len := by
  rw [u32_of_lt hsum, sub32_of_le]
  · rfl
  · exact Nat.div_le_div_right (by omega)
  · simp only [ipcMsgMaxSize]
    omega

/-- `adapt_memcpy_tos` lays the source after the data already laid, with a tail after every
page it completes. -/
theorem adaptMemcpyTos_laid (info : SizeInfo) (msgId : ℕ) (data src : List UInt8)
    (hfits : (data.length + src.length) / ipcMsgMaxSize + 1 < 2 ^ 16) :
    (laid info msgId data).adaptMemcpyTos src = laid info msgId (data ++ src) := by
  have hbound : data.length + src.length < 1460 * 65536 := by
    have := Nat.lt_mul_div_succ (data.length + src.length) (b := ipcMsgMaxSize) (by decide)
    simp only [ipcMsgMaxSize] at this hfits
    omega
  have hdata : data.length / ipcMsgMaxSize ≤ (data.length + src.length) / ipcMsgMaxSize :=
    Nat.div_le_div_right (Nat.le_add_right _ _)
  have hpure := pureDataOffset_laid info msgId data (by omega)
  have hcuts := cutCnt_eq (show data.length + src.length < 2 ^ 32 by omega)
  obtain ⟨done, rest, hsrc, hend, hloop⟩ := cutLoop_laid info msgId _ data src rfl hfits
  have hdiv : (data ++ src).length / ipcMsgMaxSize = (data ++ done).length / ipcMsgMaxSize := by
    rw [hsrc, ← List.append_assoc, List.length_append, div_add_of_within hend]
  rw [adaptMemcpyTos_eq hpure hcuts hloop]
  simp only [laid, Writer.append, Writer.mk.injEq, true_and, hdiv]
  rw [hsrc, ← List.append_assoc, weave_append 0 (data ++ done), Nat.zero_add, weave_within hend]

/-! ## The reader -/

/-- Why a serialization or a deserialization does not come back. -/
inductive Fault where
  /-- A byte outside the allocation was read or written. -/
  | outOfBounds
  /-- `std::runtime_error`: a fixed array field has another count. -/
  | fixedArraySize
  /-- `std::bad_array_new_length`: `new uint8_t[n]` with a negative `n`. -/
  | badArrayNewLength
  deriving DecidableEq, Repr

/-- An `ipc::buffer` that is read: the bytes from `data()` to the end of the allocation it
points into, and the `size()` it claims. -/
structure Region where
  bytes : List UInt8
  size : ℕ
  deriving DecidableEq, Repr

namespace Region

/-- `_total_size` while the region is read (`deserialize_data_cut`). -/
def totalSize (r : Region) : ℕ := u32 r.size

/-- `tods_in_range`. -/
def todsInRange (r : Region) (start len : ℕ) : Bool :=
  start ≤ r.totalSize && len ≤ r.totalSize - start

/-- `memcpy` of `len` bytes from `data() + start`. -/
def copy (r : Region) (start len : ℕ) : Except Fault (List UInt8) :=
  if len = 0 ∨ start + len ≤ r.bytes.length then .ok ((r.bytes.drop start).take len)
  else .error .outOfBounds

end Region

/-- The state of a deserialization: the running `offset`, the flag `_deser_overflow`, and
the bytes allocated or resized to so far. -/
structure Cursor where
  offset : ℕ
  overflow : Bool
  allocated : ℕ
  deriving DecidableEq, Repr

namespace Cursor

/-- `offset += step` for an unsigned step. -/
def skip (c : Cursor) (step : ℕ) : Cursor :=
  { c with offset := u32 (c.offset + step) }

/-- `offset += step` for a signed step. -/
def advance (c : Cursor) (step : ℤ) : Cursor :=
  { c with offset := toU32 (c.offset + step) }

/-- `_deser_overflow = true`. -/
def fail (c : Cursor) : Cursor :=
  { c with overflow := true }

/-- Account for an allocation. -/
def allocate (c : Cursor) (size : ℕ) : Cursor :=
  { c with allocated := c.allocated + size }

end Cursor

/-- `to_pure_offset`. -/
def toPureOffset (physicalOffset : ℕ) : ℕ :=
  physicalOffset - physicalOffset / (ipcMsgMaxSize + tailMsgSize) * tailMsgSize

/-- The rounds of `adapt_memcpy_tods` and the remainder after them, for the `left` bytes of
the destination not yet filled. -/
def todsLoop (r : Region) : ℕ → Cursor → ℕ → ℕ → Except Fault (List UInt8 × Cursor)
  | 0, c, _, left =>
      if left = 0 then .ok ([], c)
      else if r.todsInRange c.offset left then do
        let bytes ← r.copy c.offset left
        return (bytes, c.skip left)
      else .ok (List.replicate left 0, c.fail)
  | i + 1, c, pureDataOffset, left =>
      let copySize := min (ipcMsgMaxSize - pureDataOffset % ipcMsgMaxSize) left
      if r.todsInRange c.offset copySize then do
        let bytes ← r.copy c.offset copySize
        let (rest, c) ← todsLoop r i (c.skip (copySize + tailMsgSize))
          (u32 (pureDataOffset + copySize)) (left - copySize)
        return (bytes ++ rest, c)
      else .ok (List.replicate left 0, c.fail)

/-- `adapt_memcpy_tods`: the `len` bytes of the destination, and the cursor after it. -/
def adaptMemcpyTods (r : Region) (c : Cursor) (len : ℕ) : Except Fault (List UInt8 × Cursor) :=
  let pureDataOffset := toPureOffset c.offset
  let cutCnt := sub32 (u32 (pureDataOffset + len) / ipcMsgMaxSize)
    (pureDataOffset / ipcMsgMaxSize)
  todsLoop r cutCnt c pureDataOffset len

/-- `tods_count_ok`. -/
def todsCountOk (r : Region) (c : Cursor) (count : ℤ) (minElemSize : ℕ) : Bool :=
  let need := count.toNat * (if minElemSize = 0 then 1 else minElemSize)
  0 ≤ count && need ≤ 0xFFFFFFFF && r.todsInRange c.offset need

/-- `region_is_contiguous`. -/
def regionIsContiguous (physicalOffset len : ℕ) : Bool :=
  u32 (toPureOffset physicalOffset % ipcMsgMaxSize + len) < ipcMsgMaxSize

/-! ## Reading what was laid -/

/-- The region holds the data bytes `data`, woven with tails, from its first byte on. -/
def Carries (r : Region) (data : List UInt8) : Prop :=
  ∃ tail : ℕ → List UInt8, ∃ extra : List UInt8,
    (∀ k, (tail k).length = tailMsgSize) ∧
      r.bytes = weave ipcMsgMaxSize tail 0 data ++ extra ∧
      position data.length + tailMsgSize ≤ r.totalSize

theorem toPureOffset_position (n : ℕ) : toPureOffset (position n) = n := by
  unfold toPureOffset
  rw [Nat.mul_comm]
  exact place_sub (by decide) n

/-- A stretch of data bytes that does not leave its page, read in one `memcpy`. -/
theorem copy_position {r : Region} {data seg rest : List UInt8} {n : ℕ} (hr : Carries r data)
    (hdata : data.drop n = seg ++ rest) (hn : n ≤ data.length)
    (hseg : n % ipcMsgMaxSize + seg.length ≤ ipcMsgMaxSize) :
    r.copy (position n) seg.length = .ok seg := by
  obtain ⟨tail, extra, htail, hbytes, _⟩ := hr
  have hlen : n + seg.length ≤ data.length := by
    have := congrArg List.length hdata
    rw [List.length_drop, List.length_append] at this
    omega
  have hroom : position n + seg.length ≤ r.bytes.length := by
    have hplace := position_add_le n seg.length
    have hmono := position_mono hlen
    rw [hbytes, List.length_append, length_woven htail]
    omega
  unfold Region.copy
  rw [if_pos (Or.inr hroom), hbytes]
  exact congrArg Except.ok (slice_weave htail (by decide) extra hdata hn hseg)

/-- A stretch of data bytes lies inside the buffer. -/
theorem todsInRange_position {r : Region} {data : List UInt8} {n len : ℕ} (hr : Carries r data)
    (hn : n + len ≤ data.length) : r.todsInRange (position n) len = true := by
  obtain ⟨_, _, _, _, htotal⟩ := hr
  have hplace := position_add_le n len
  have hmono := position_mono hn
  simp only [Region.todsInRange, Bool.and_eq_true, decide_eq_true_eq]
  omega

private theorem todsLoop_position {r : Region} {data : List UInt8} (hr : Carries r data)
    (cutCnt : ℕ) :
    ∀ (n : ℕ) (c : Cursor) (seg rest : List UInt8), c.offset = position n →
      cutCnt = cuts ipcMsgMaxSize n seg.length → data.drop n = seg ++ rest → n ≤ data.length →
      todsLoop r cutCnt c n seg.length
        = .ok (seg, { c with offset := position (n + seg.length) }) := by
  have htotal : position data.length + tailMsgSize < 2 ^ 32 := by
    obtain ⟨_, _, _, _, htotal⟩ := hr
    have := u32_lt r.size
    unfold Region.totalSize at htotal
    omega
  induction cutCnt with
  | zero =>
      intro n c seg rest hc hcuts hdata hn
      have hlen : n + seg.length ≤ data.length := by
        have := congrArg List.length hdata
        rw [List.length_drop, List.length_append] at this
        omega
      have hwithin : n % ipcMsgMaxSize + seg.length < ipcMsgMaxSize := by
        by_contra hge
        have := cuts_of_block (B := ipcMsgMaxSize) (by decide) (Nat.not_lt.mp hge)
        omega
      have hplace : position (n + seg.length) = position n + seg.length :=
        position_add_of_within hwithin
      have hmono : position (n + seg.length) ≤ position data.length := position_mono hlen
      by_cases hnil : seg = []
      · subst hnil
        simp [todsLoop, ← hc]
      · have hne : seg.length ≠ 0 := by simpa using hnil
        have hskip : c.skip seg.length = { c with offset := position (n + seg.length) } := by
          unfold Cursor.skip
          rw [hc, hplace, u32_of_lt (by omega)]
        have hrange := todsInRange_position hr hlen
        have hcopy := copy_position hr hdata hn (by omega)
        rw [← hc] at hrange hcopy
        simp only [todsLoop, hne, if_false, hrange, if_true, hcopy, hskip]
        rfl
  | succ cutCnt ih =>
      intro n c seg rest hc hcuts hdata hn
      have hlen : n + seg.length ≤ data.length := by
        have := congrArg List.length hdata
        rw [List.length_drop, List.length_append] at this
        omega
      have hmod : n % ipcMsgMaxSize < ipcMsgMaxSize := Nat.mod_lt _ (by decide)
      have hge : ipcMsgMaxSize ≤ n % ipcMsgMaxSize + seg.length := by
        by_contra hlt
        have := cuts_eq_zero (Nat.not_le.mp hlt)
        omega
      have hblock := cuts_of_block (B := ipcMsgMaxSize) (by decide) hge
      -- the bytes up to the end of the current page
      set copy := ipcMsgMaxSize - n % ipcMsgMaxSize with hcopy
      have htake : (seg.take copy).length = copy := List.length_take_of_le (by omega)
      have hdrop : (seg.drop copy).length = seg.length - copy := List.length_drop
      have hplace : position (n + copy) = position n + copy + tailMsgSize :=
        position_add_of_block (by omega)
      have hmono : position (n + copy) ≤ position data.length := position_mono (by omega)
      have hskip : c.skip (copy + tailMsgSize) = { c with offset := position (n + copy) } := by
        unfold Cursor.skip
        rw [hc, hplace, u32_of_lt (by omega), Nat.add_assoc]
      have hsplit : data.drop n = seg.take copy ++ (seg.drop copy ++ rest) := by
        rw [← List.append_assoc, List.take_append_drop, hdata]
      have hnext : data.drop (n + copy) = seg.drop copy ++ rest := by
        rw [← List.drop_drop, hsplit, List.drop_left' htake]
      have hread := copy_position hr hsplit hn (by omega)
      have hrange : r.todsInRange c.offset copy = true := by
        rw [hc]
        exact todsInRange_position hr (by omega)
      rw [htake, ← hc] at hread
      have hloop := ih (n + copy) { c with offset := position (n + copy) } (seg.drop copy) rest rfl
        (by rw [hdrop]; omega) hnext (by omega)
      rw [hdrop, show n + copy + (seg.length - copy) = n + seg.length by omega] at hloop
      have hpure : u32 (n + copy) = n + copy := by
        have := le_position (n + copy)
        exact u32_of_lt (by omega)
      have hmin : min copy seg.length = copy := Nat.min_eq_left (by omega)
      simp only [todsLoop, ← hcopy, hmin, hrange, if_true, hread, hskip, hpure]
      change (todsLoop r cutCnt _ (n + copy) (seg.length - copy) >>= _) = _
      rw [hloop]
      change Except.ok (seg.take copy ++ seg.drop copy, _) = _
      rw [List.take_append_drop]

/-- One call of `adapt_memcpy_tods`, from the data offset it computes. -/
private theorem adaptMemcpyTods_eq {r : Region} {c : Cursor} {len pure cutCnt : ℕ}
    (hpure : toPureOffset c.offset = pure)
    (hcuts : sub32 (u32 (pure + len) / ipcMsgMaxSize) (pure / ipcMsgMaxSize) = cutCnt) :
    adaptMemcpyTods r c len = todsLoop r cutCnt c pure len := by
  subst hpure hcuts
  rfl

/-- `adapt_memcpy_tods`, called at the position of data byte `n`, reads the data bytes from
there on and stops at the position of the next one. -/
theorem adaptMemcpyTods_spec {r : Region} {data seg rest : List UInt8} {n : ℕ} {c : Cursor}
    (hr : Carries r data) (hc : c.offset = position n) (hdata : data.drop n = seg ++ rest)
    (hn : n ≤ data.length) :
    adaptMemcpyTods r c seg.length
      = .ok (seg, { c with offset := position (n + seg.length) }) := by
  have hlen : n + seg.length ≤ data.length := by
    have := congrArg List.length hdata
    rw [List.length_drop, List.length_append] at this
    omega
  have hsmall : n + seg.length < 2 ^ 32 := by
    obtain ⟨_, _, _, _, htotal⟩ := hr
    have := u32_lt r.size
    have := le_position data.length
    unfold Region.totalSize at htotal
    omega
  have hpure : toPureOffset c.offset = n := by
    rw [hc]
    exact toPureOffset_position n
  have hcuts : sub32 (u32 (n + seg.length) / ipcMsgMaxSize) (n / ipcMsgMaxSize)
      = cuts ipcMsgMaxSize n seg.length := by
    rw [u32_of_lt hsmall, sub32_of_le]
    · rfl
    · exact Nat.div_le_div_right (by omega)
    · have := Nat.div_le_self (n + seg.length) ipcMsgMaxSize
      omega
  rw [adaptMemcpyTods_eq hpure hcuts]
  exact todsLoop_position hr _ n c seg rest hc rfl hdata hn

end DzIpc.Wire
