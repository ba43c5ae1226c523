import DzIpc.Udp.Sender
import Mathlib.Data.List.Nodup
import Mathlib.Data.Nat.Bitwise

/-!
# What a NACK carries

The two encodings of a NACK: a list of at most 256 page numbers, and a window of at most 11496 bits
from a base page on.

* `RtpsNackMsg.deserialize_serialize` and `RtpsNackBitmapMsg.deserialize_serialize`: both are read
  back, the list as it was, the window rounded up to whole bytes.
* `windowOf` is the window of a list of pages; `bitAt_windowOf` says which bits it sets, and
  `isMissing_received` that the bits it was rounded up by mark no page.
-/

namespace DzIpc.Udp

open Wire

/-- The common fields of a frame are read back, whatever follows them. -/
theorem NackHead.read_frame {msgId : UInt32} {head : NackHead} {rest : List (List UInt8)}
    (hsmall : (head.pieces ++ rest).flatten.length < ipcMsgMaxSize) :
    Returns (NackHead.read (.whole (writeFrame msgId (head.pieces ++ rest)))) fun res =>
      res.1 = head ∧ Reading (.whole (writeFrame msgId (head.pieces ++ rest)))
        (head.pieces ++ rest).flatten 18 rest.flatten res.2 := by
  have hstart := frame_reading msgId hsmall
  have hflat : (head.pieces ++ rest).flatten
      = leBytes 2 head.pageCnt.toNat ++ (leBytes 4 head.totalSize.toNat
        ++ (leBytes 4 head.dataMsgId.toNat ++ (leBytes 4 head.receiverId.toNat
        ++ (leBytes 4 head.sequence.toNat ++ rest.flatten)))) := by
    simp [NackHead.pieces]
  rw [hflat] at hstart ⊢
  refine (readUInt_reading hstart head.pageCnt.toNat_lt).bind ?_
  rintro ⟨_, c₁⟩ ⟨rfl, h₁⟩
  refine (readUInt_reading h₁ head.totalSize.toNat_lt).bind ?_
  rintro ⟨_, c₂⟩ ⟨rfl, h₂⟩
  refine (readUInt_reading h₂ head.dataMsgId.toNat_lt).bind ?_
  rintro ⟨_, c₃⟩ ⟨rfl, h₃⟩
  refine (readUInt_reading h₃ head.receiverId.toNat_lt).bind ?_
  rintro ⟨_, c₄⟩ ⟨rfl, h₄⟩
  refine (readUInt_reading h₄ head.sequence.toNat_lt).bind ?_
  rintro ⟨_, c₅⟩ ⟨rfl, h₅⟩
  refine .pure ⟨?_, h₅⟩
  simp only [UInt16.ofNat_toNat, UInt32.ofNat_toNat]

namespace RtpsNackMsg

theorem length_pages (pages : List UInt16) :
    (pages.map fun page => leBytes 2 page.toNat).flatten.length = pages.length * 2 := by
  rw [← List.flatMap_def]
  exact length_flatMap_const _ 2 (fun _ => length_leBytes _ _) pages

/-- The loop over the page numbers reads them back. -/
theorem readPages_reading {r : Region} {data : List UInt8} (pages : List UInt16) :
    ∀ {n : ℕ} {c : Cursor},
      Reading r data n (pages.map fun page => leBytes 2 page.toNat).flatten c →
        Returns (readPages r pages.length c) fun res => res = pages := by
  induction pages with
  | nil => exact fun _ => .pure rfl
  | cons page pages ih =>
      intro n c h
      rw [List.map_cons, List.flatten_cons] at h
      refine (readUInt_reading h page.toNat_lt).bind ?_
      rintro ⟨_, c'⟩ ⟨rfl, h'⟩
      refine (ih h').bind ?_
      rintro _ rfl
      exact .pure (by rw [UInt16.ofNat_toNat])

/-- A list that is not cut is read back. -/
theorem deserialize_serialize (m : RtpsNackMsg) (hfits : m.missingPages.length ≤ maxMissingPages) :
    deserialize m.serialize = .ok m := by
  have hcount : min m.missingPages.length maxMissingPages = m.missingPages.length :=
    Nat.min_eq_left hfits
  have hlen : (m.head.pieces ++ leBytes 2 m.missingPages.length ::
      m.missingPages.map fun page => leBytes 2 page.toNat).flatten.length < ipcMsgMaxSize := by
    rw [List.flatten_append, List.length_append, NackHead.length_pieces,
      List.flatten_cons, List.length_append, length_leBytes, length_pages]
    simp only [maxMissingPages, ipcMsgMaxSize] at hfits ⊢
    omega
  have hserialize : m.serialize = writeFrame rtpsNackMsgId (m.head.pieces
      ++ leBytes 2 m.missingPages.length :: m.missingPages.map fun page => leBytes 2 page.toNat) := by
    unfold serialize
    simp only [hcount, List.take_length]
  rw [hserialize]
  refine eq_ok_of_returns ?_
  refine (NackHead.read_frame hlen).bind ?_
  rintro ⟨_, c⟩ ⟨rfl, h⟩
  rw [List.flatten_cons] at h
  have hlt : m.missingPages.length < (2 ^ 8) ^ 2 := Nat.lt_of_le_of_lt hfits (by decide)
  refine (readUInt_reading h hlt).bind ?_
  rintro ⟨_, c'⟩ ⟨rfl, h'⟩
  dsimp only
  rw [hcount]
  refine (readPages_reading m.missingPages h').bind ?_
  rintro _ rfl
  exact .pure rfl

/-- The list of some pages. -/
def listOf (head : NackHead) (missing : List ℕ) : RtpsNackMsg :=
  { head := head, missingPages := missing.map fun p => .ofNat p }

/-- A page number of a message is in its list as it is. -/
theorem toNat_ofNat_page {p pageCnt : ℕ} (hcnt : pageCnt < 2 ^ 16) (hle : p ≤ pageCnt) :
    (UInt16.ofNat p).toNat = p :=
  UInt16.toNat_ofNat_of_lt' (hle.trans_lt hcnt)

/-- The pages that a sender takes from a list are those it was made of. -/
theorem pages_listOf (head : NackHead) {missing : List ℕ} {pageCnt : ℕ} (hcnt : pageCnt < 2 ^ 16)
    (hrange : ∀ p ∈ missing, 1 ≤ p ∧ p ≤ pageCnt) :
    (listOf head missing).pages pageCnt = missing := by
  have hmap : (missing.map fun p => UInt16.ofNat p).map UInt16.toNat = missing := by
    rw [List.map_map]
    calc missing.map (UInt16.toNat ∘ fun p => UInt16.ofNat p)
        = missing.map id :=
          List.map_congr_left fun p hp => toNat_ofNat_page hcnt (hrange p hp).2
      _ = missing := List.map_id missing
  rw [pages, listOf]
  dsimp only
  rw [hmap, List.filter_eq_self]
  intro p hp
  obtain ⟨hpos, hle⟩ := hrange p hp
  exact Bool.and_eq_true_iff.mpr ⟨decide_eq_true hpos, decide_eq_true hle⟩

theorem checkId_serialize (m : RtpsNackMsg) (expectedId : UInt32) :
    checkId m.serialize expectedId = decide (rtpsNackMsgId = expectedId) := by
  apply checkId_writeFrame
  rw [List.flatten_append, List.length_append, NackHead.length_pieces, List.flatten_cons,
    List.length_append, length_leBytes, length_pages, List.length_take]
  simp only [maxMissingPages, ipcMsgMaxSize]
  omega

end RtpsNackMsg

/-! ## Bits -/

theorem bitOf_toNat (i : ℕ) : (RtpsNackBitmapMsg.bitOf i).toNat = 2 ^ (i % 8) := by
  have hlt : i % 8 < 8 := Nat.mod_lt _ (by decide)
  unfold RtpsNackBitmapMsg.bitOf
  generalize i % 8 = k at hlt ⊢
  revert k
  decide

/-- The test of `is_missing` on one byte. -/
theorem and_bitOf_ne_zero (b : UInt8) (i : ℕ) :
    b &&& RtpsNackBitmapMsg.bitOf i ≠ 0 ↔ b.toNat.testBit (i % 8) = true := by
  rw [Ne, ← UInt8.toNat_inj, UInt8.toNat_and, bitOf_toNat, Nat.and_two_pow]
  cases b.toNat.testBit (i % 8) <;> simp

/-- Bit `i` of a bitmap. -/
def bitAt (bitmap : List UInt8) (i : ℕ) : Bool :=
  match bitmap[i / 8]? with
  | some b => b.toNat.testBit (i % 8)
  | none => false

theorem bitAt_replicate (count i : ℕ) : bitAt (List.replicate count 0) i = false := by
  unfold bitAt
  rw [List.getElem?_replicate]
  split
  · rename_i b hb
    split at hb
    · cases hb
      exact Nat.zero_testBit _
    · cases hb
  · rfl

/-- Setting one bit sets that bit, where the bitmap has it. -/
theorem bitAt_set {bitmap : List UInt8} {i : ℕ} (hi : i / 8 < bitmap.length) (j : ℕ) :
    bitAt (bitmap.modify (i / 8) fun b => b ||| RtpsNackBitmapMsg.bitOf i) j
      = (decide (j = i) || bitAt bitmap j) := by
  unfold bitAt
  rw [List.getElem?_modify]
  by_cases hbyte : i / 8 = j / 8
  · have hin : j / 8 < bitmap.length := hbyte ▸ hi
    rw [List.getElem?_eq_getElem hin]
    simp only [if_pos hbyte, Option.map_eq_map, Option.map_some, UInt8.toNat_or, Nat.testBit_or,
      bitOf_toNat, Nat.testBit_two_pow]
    have hsame : (i % 8 = j % 8) ↔ j = i := by omega
    rw [Bool.or_comm, decide_eq_decide.mpr hsame]
  · have hne : j ≠ i := fun h => hbyte (h ▸ rfl)
    rw [decide_eq_false hne, Bool.false_or]
    simp only [if_neg hbyte, Option.map_eq_map, Option.map_id']

namespace RtpsNackBitmapMsg

theorem isMissing_iff (m : RtpsNackBitmapMsg) (page : ℕ) :
    m.isMissing page = true ↔ m.basePage.toNat ≤ page ∧ page - m.basePage.toNat < m.bitCnt ∧
      bitAt m.bitmap (page - m.basePage.toNat) = true := by
  unfold isMissing bitAt
  dsimp only
  split_ifs with hbelow habove
  · exact iff_of_false not_false fun h => Nat.not_le.mpr hbelow h.1
  · exact iff_of_false not_false fun h => Nat.not_lt.mpr habove h.2.1
  · have hwindow : m.basePage.toNat ≤ page ∧ page - m.basePage.toNat < m.bitCnt :=
      ⟨Nat.le_of_not_lt hbelow, Nat.lt_of_not_le habove⟩
    cases m.bitmap[(page - m.basePage.toNat) / 8]? with
    | none => exact iff_of_false Bool.false_ne_true fun h => Bool.false_ne_true h.2.2
    | some b =>
        simp only [decide_eq_true_eq]
        rw [and_bitOf_ne_zero]
        exact ⟨fun h => ⟨hwindow.1, hwindow.2, h⟩, fun h => h.2.2⟩

/-- A window whose bitmap has a byte for each of its bits. -/
def Covered (m : RtpsNackBitmapMsg) : Prop :=
  (m.bitCnt + 7) / 8 = m.bitmap.length

/-- `set_missing` keeps the window. -/
theorem setMissing_frame (m : RtpsNackBitmapMsg) (page : ℕ) :
    (m.setMissing page).head = m.head ∧ (m.setMissing page).basePage = m.basePage ∧
      (m.setMissing page).bitCnt = m.bitCnt ∧
        (m.setMissing page).bitmap.length = m.bitmap.length := by
  unfold setMissing
  dsimp only
  split_ifs <;> simp

theorem Covered.setMissing {m : RtpsNackBitmapMsg} (h : m.Covered) (page : ℕ) :
    (m.setMissing page).Covered := by
  obtain ⟨-, -, hbits, hlen⟩ := m.setMissing_frame page
  unfold Covered
  rw [hbits, hlen]
  exact h

/-- `set_missing` marks the page, where the window has it, and nothing else. -/
theorem bitAt_setMissing {m : RtpsNackBitmapMsg} (h : m.Covered) (page i : ℕ) :
    bitAt (m.setMissing page).bitmap i
      = (decide (m.basePage.toNat + i = page ∧ i < m.bitCnt) || bitAt m.bitmap i) := by
  unfold Covered at h
  unfold RtpsNackBitmapMsg.setMissing
  dsimp only
  split_ifs with hbelow habove
  · have hne : ¬ (m.basePage.toNat + i = page ∧ i < m.bitCnt) := by omega
    rw [decide_eq_false hne, Bool.false_or]
  · have hne : ¬ (m.basePage.toNat + i = page ∧ i < m.bitCnt) := by omega
    rw [decide_eq_false hne, Bool.false_or]
  · have hbyte : (page - m.basePage.toNat) / 8 < m.bitmap.length := by omega
    have hsame : (i = page - m.basePage.toNat)
        ↔ (m.basePage.toNat + i = page ∧ i < m.bitCnt) := by omega
    rw [bitAt_set hbyte, decide_eq_decide.mpr hsame]

/-- `reset_window`, then `set_missing` for each page. -/
def windowOf (head : NackHead) (base : UInt16) (bits : ℕ) (missing : List ℕ) : RtpsNackBitmapMsg :=
  missing.foldl setMissing
    (resetWindow { head := head, basePage := 0, bitCnt := 0, bitmap := [] } base bits)

theorem foldl_setMissing_frame (missing : List ℕ) :
    ∀ m : RtpsNackBitmapMsg, m.Covered →
      (missing.foldl setMissing m).head = m.head ∧
        (missing.foldl setMissing m).basePage = m.basePage ∧
          (missing.foldl setMissing m).bitCnt = m.bitCnt ∧ (missing.foldl setMissing m).Covered := by
  induction missing with
  | nil => exact fun m h => ⟨rfl, rfl, rfl, h⟩
  | cons page missing ih =>
      intro m h
      obtain ⟨hhead, hbase, hbits, -⟩ := m.setMissing_frame page
      obtain ⟨ihhead, ihbase, ihbits, ihcovered⟩ := ih _ (h.setMissing page)
      exact ⟨ihhead.trans hhead, ihbase.trans hbase, ihbits.trans hbits, ihcovered⟩

theorem bitAt_foldl_setMissing (missing : List ℕ) :
    ∀ m : RtpsNackBitmapMsg, m.Covered → ∀ i,
      bitAt (missing.foldl setMissing m).bitmap i
        = (decide (m.basePage.toNat + i ∈ missing ∧ i < m.bitCnt) || bitAt m.bitmap i) := by
  induction missing with
  | nil => exact fun m _ i => by simp
  | cons page missing ih =>
      intro m h i
      obtain ⟨-, hbase, hbits, -⟩ := m.setMissing_frame page
      rw [List.foldl_cons, ih _ (h.setMissing page) i, hbase, hbits, bitAt_setMissing h page i,
        ← Bool.or_assoc, ← Bool.decide_or]
      congr 2
      rw [List.mem_cons, or_and_right]
      exact propext or_comm

theorem covered_resetWindow (m : RtpsNackBitmapMsg) (base : UInt16) (bits : ℕ) :
    (m.resetWindow base bits).Covered := by
  unfold Covered resetWindow
  simp only [List.length_replicate]

theorem windowOf_frame (head : NackHead) (base : UInt16) (bits : ℕ) (missing : List ℕ) :
    (windowOf head base bits missing).head = head ∧
      (windowOf head base bits missing).basePage = base ∧
        (windowOf head base bits missing).bitCnt = min bits maxBitmapBits ∧
          (windowOf head base bits missing).Covered :=
  foldl_setMissing_frame missing _ (covered_resetWindow _ base bits)

/-- The bits of a window are the missing pages in it. -/
theorem bitAt_windowOf (head : NackHead) (base : UInt16) (bits : ℕ) (missing : List ℕ) (i : ℕ) :
    bitAt (windowOf head base bits missing).bitmap i
      = decide (base.toNat + i ∈ missing ∧ i < min bits maxBitmapBits) := by
  have hreset := bitAt_foldl_setMissing missing _
    (covered_resetWindow { head := head, basePage := 0, bitCnt := 0, bitmap := [] } base bits) i
  have hclear : bitAt (resetWindow { head := head, basePage := 0, bitCnt := 0, bitmap := [] }
      base bits).bitmap i = false := bitAt_replicate _ i
  rw [hclear, Bool.or_false] at hreset
  exact hreset

/-- What a window has become when it has been read back: rounded up to whole bytes. -/
def received (m : RtpsNackBitmapMsg) : RtpsNackBitmapMsg :=
  { m with bitCnt := m.bitmap.length * 8 }

/-- The copies of a window that fits one page: its bitmap, if it has one, as it is. -/
theorem serialize_eq {m : RtpsNackBitmapMsg} (hcovered : m.Covered)
    (hfits : m.bitCnt ≤ maxBitmapBits) :
    ∃ map : List (List UInt8), map.flatten = m.bitmap ∧
      m.serialize = writeFrame rtpsNackBitmapMsgId (m.head.pieces
        ++ leBytes 2 m.basePage.toNat :: leBytes 2 m.bitmap.length :: map) := by
  unfold Covered at hcovered
  have hmap : min ((min m.bitCnt maxBitmapBits + 7) / 8) m.bitmap.length = m.bitmap.length := by
    rw [Nat.min_eq_left hfits, hcovered, Nat.min_self]
  refine ⟨if m.bitmap.length > 0 then [m.bitmap.take m.bitmap.length] else [], ?_, ?_⟩
  · split
    · simp
    · rename_i hzero
      rw [List.eq_nil_of_length_eq_zero (Nat.eq_zero_of_not_pos hzero)]
      rfl
  · unfold serialize
    simp only [hmap, List.append_assoc, List.cons_append, List.nil_append]

/-- The last field of a frame is all that lies ahead. -/
theorem readItems_all {r : Region} {data seg : List UInt8} {n : ℕ} {c : Cursor}
    (h : Reading r data n seg c) :
    Returns (readItems r c seg.length seg.length) fun res => res.1 = seg := by
  rw [← List.append_nil seg] at h
  exact (h.items List.eq_nil_of_length_eq_zero rfl rfl).mono fun _ h => h.1

/-- A window that fits one page is read back, whatever the object held before. -/
theorem deserialize_serialize {m : RtpsNackBitmapMsg} (old : RtpsNackBitmapMsg)
    (hcovered : m.Covered) (hfits : m.bitCnt ≤ maxBitmapBits) :
    old.deserialize m.serialize = .ok m.received := by
  obtain ⟨map, hmap, hserialize⟩ := serialize_eq hcovered hfits
  unfold Covered at hcovered
  have hbytes : maxBitmapBytes = 1437 := rfl
  have hlen : m.bitmap.length ≤ 1437 := by
    have hmax : maxBitmapBits = 11496 := rfl
    omega
  have hflat : (m.head.pieces
      ++ leBytes 2 m.basePage.toNat :: leBytes 2 m.bitmap.length :: map).flatten.length
      = 22 + m.bitmap.length := by
    rw [List.flatten_append, List.length_append, NackHead.length_pieces,
      List.flatten_cons, List.flatten_cons, hmap, List.length_append, List.length_append,
      length_leBytes, length_leBytes]
    omega
  have hsmall : (m.head.pieces
      ++ leBytes 2 m.basePage.toNat :: leBytes 2 m.bitmap.length :: map).flatten.length
      < ipcMsgMaxSize := by
    rw [hflat, ipcMsgMaxSize]
    omega
  have hframe := length_writeFrame rtpsNackBitmapMsgId hsmall
  rw [hflat] at hframe
  rw [hserialize]
  refine eq_ok_of_returns ?_
  rw [deserialize, if_neg (by rw [hframe, fixedFieldBytes]; omega)]
  refine (NackHead.read_frame hsmall).bind ?_
  rintro ⟨_, c⟩ ⟨rfl, h⟩
  rw [List.flatten_cons, List.flatten_cons, hmap] at h
  refine (readUInt_reading h m.basePage.toNat_lt).bind ?_
  rintro ⟨_, c₁⟩ ⟨rfl, h₁⟩
  have hlt : m.bitmap.length < (2 ^ 8) ^ 2 := Nat.lt_of_le_of_lt hlen (by decide)
  refine (readUInt_reading h₁ hlt).bind ?_
  rintro ⟨_, c₂⟩ ⟨rfl, h₂⟩
  have htake : min (min m.bitmap.length ((writeFrame rtpsNackBitmapMsgId (m.head.pieces
      ++ leBytes 2 m.basePage.toNat :: leBytes 2 m.bitmap.length :: map)).length
        - fixedFieldBytes - 12)) maxBitmapBytes = m.bitmap.length := by
    rw [hframe, fixedFieldBytes, hbytes]
    omega
  dsimp only
  rw [htake]
  refine (readItems_all h₂).bind ?_
  rintro ⟨_, c₃⟩ rfl
  exact .pure (by simp only [received, UInt16.ofNat_toNat])

theorem checkId_serialize (m : RtpsNackBitmapMsg) (expectedId : UInt32) :
    checkId m.serialize expectedId = decide (rtpsNackBitmapMsgId = expectedId) := by
  apply checkId_writeFrame
  rw [List.flatten_append, List.length_append, List.flatten_append, List.length_append,
    NackHead.length_pieces]
  split
  · simp only [List.flatten_cons, List.flatten_nil, List.length_append, length_leBytes,
      List.length_nil, List.length_take, maxBitmapBits, maxBitmapBytes, fixedFieldBytes,
      ipcMsgMaxSize]
    omega
  · simp [ipcMsgMaxSize]

/-- A window read back marks the missing pages it was opened for. -/
theorem isMissing_received (head : NackHead) (base : UInt16) (bits : ℕ) (missing : List ℕ)
    (page : ℕ) :
    (windowOf head base bits missing).received.isMissing page = true
      ↔ page ∈ missing ∧ base.toNat ≤ page ∧ page < base.toNat + min bits maxBitmapBits := by
  obtain ⟨-, hbase, hbits, hcovered⟩ := windowOf_frame head base bits missing
  unfold Covered at hcovered
  rw [isMissing_iff]
  simp only [received, hbase, bitAt_windowOf, decide_eq_true_eq]
  constructor
  · rintro ⟨hle, -, hmem, hlt⟩
    rw [Nat.add_sub_cancel' hle] at hmem
    exact ⟨hmem, hle, by omega⟩
  · rintro ⟨hmem, hle, hlt⟩
    refine ⟨hle, by omega, ?_, by omega⟩
    rwa [Nat.add_sub_cancel' hle]

theorem nodup_pages (nb : RtpsNackBitmapMsg) (pageCnt : ℕ) : (nb.pages pageCnt).Nodup := by
  apply List.Nodup.filter
  exact List.nodup_range.map fun i j hij => Nat.add_left_cancel hij

/-- The pages that a sender takes from a window read back are the missing pages in it. -/
theorem perm_pages_received (head : NackHead) (base : UInt16) (bits : ℕ) {missing : List ℕ}
    {pageCnt : ℕ} (hnodup : missing.Nodup) (hrange : ∀ p ∈ missing, 1 ≤ p ∧ p ≤ pageCnt) :
    ((windowOf head base bits missing).received.pages pageCnt).Perm
      (missing.filter fun p => base.toNat ≤ p ∧ p < base.toNat + min bits maxBitmapBits) := by
  rw [List.perm_ext_iff_of_nodup (nodup_pages _ _) (hnodup.filter _)]
  intro p
  obtain ⟨-, hbase, hbits, hcovered⟩ := windowOf_frame head base bits missing
  unfold Covered at hcovered
  rw [pages, List.mem_filter, List.mem_filter]
  simp only [Bool.and_eq_true, decide_eq_true_eq, isMissing_received]
  constructor
  · rintro ⟨-, -, hmem, hwindow⟩
    exact ⟨hmem, hwindow⟩
  · rintro ⟨hmem, hle, hlt⟩
    refine ⟨List.mem_map.mpr ⟨p - base.toNat, ?_, ?_⟩, hrange p hmem, hmem, hle, hlt⟩
    · rw [List.mem_range, received]
      dsimp only
      omega
    · rw [received, hbase]
      exact Nat.add_sub_cancel' hle

end RtpsNackBitmapMsg

end DzIpc.Udp
