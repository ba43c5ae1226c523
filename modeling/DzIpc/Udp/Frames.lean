import DzIpc.Wire.RoundTrip
import DzIpc.Udp.Page

/-!
# Control frames

Heartbeats, acknowledgments and negative acknowledgments are messages of one page: fields
of fixed width and, for the two kinds of NACK, a list of pages or a bitmap.  They are
written and read with the paging functions every message uses, and told apart by the
message id in the tail.

* `readUInt_reading` reads one field back; `frame_reading` starts a reader on a frame.
* `RtpsAckMsg.deserialize_serialize` and its siblings: what a frame carries is read back,
  whatever the message object held before.
* `checkId_writeFrame` says which id a frame passes for.
-/

namespace DzIpc.Udp

open Wire

/-- One field of an unsigned type, read through `adapt_memcpy_tods`. -/
def readUInt (r : Region) (c : Cursor) (width : ℕ) : Except Fault (ℕ × Cursor) := do
  let (bytes, c) ← adaptMemcpyTods r c width
  return (leNat bytes, c)

/-- `total_size_` of a frame, and its pages. -/
def writeFrame (msgId : UInt32) (pieces : List (List UInt8)) : List UInt8 :=
  writeMessage msgId.toNat pieces.flatten.length pieces

/-! ## Heartbeats -/

/-- `kRtpsHeartbeatMsgId`: "DZHB". -/
def rtpsHeartbeatMsgId : UInt32 := 0x445A4842

/-- `kFlagReliable`: the sender answers NACKs. -/
def flagReliable : UInt8 := 0x01

/-- `kFlagFinal`: the sender will not retransmit any more. -/
def flagFinal : UInt8 := 0x02

/-- `kFlagBitmapNack`: the sender understands bitmap NACKs. -/
def flagBitmapNack : UInt8 := 0x04

/-- `kFlagRateFeedback`: the sender understands acknowledgments with feedback. -/
def flagRateFeedback : UInt8 := 0x08

/-- `IpcRtpsHeartbeatMsg`. -/
structure RtpsHeartbeatMsg where
  pageCnt : UInt16
  totalSize : UInt32
  dataMsgId : UInt32
  senderId : UInt32
  sequence : UInt32
  flags : UInt8
  round : UInt16
  deriving DecidableEq, Repr, Inhabited

namespace RtpsHeartbeatMsg

/-- `kWireSize`. -/
def wireSize : ℕ := 2 + 4 + 4 + 4 + 4 + 1 + 2 + 12

/-- The copies `serialize` makes. -/
def pieces (m : RtpsHeartbeatMsg) : List (List UInt8) :=
  [leBytes 2 m.pageCnt.toNat, leBytes 4 m.totalSize.toNat, leBytes 4 m.dataMsgId.toNat,
    leBytes 4 m.senderId.toNat, leBytes 4 m.sequence.toNat, leBytes 1 m.flags.toNat,
    leBytes 2 m.round.toNat]

/-- `serialize`. -/
def serialize (m : RtpsHeartbeatMsg) : List UInt8 :=
  writeFrame rtpsHeartbeatMsgId m.pieces

/-- `deserialize`: a frame of another length leaves the object as it was. -/
def deserialize (old : RtpsHeartbeatMsg) (buffer : List UInt8) : Except Fault RtpsHeartbeatMsg :=
  if buffer.length ≠ wireSize then .ok old
  else do
    let r := Region.whole buffer
    let (pageCnt, c) ← readUInt r .start 2
    let (totalSize, c) ← readUInt r c 4
    let (dataMsgId, c) ← readUInt r c 4
    let (senderId, c) ← readUInt r c 4
    let (sequence, c) ← readUInt r c 4
    let (flags, c) ← readUInt r c 1
    let (round, _) ← readUInt r c 2
    return {
      pageCnt := .ofNat pageCnt
      totalSize := .ofNat totalSize
      dataMsgId := .ofNat dataMsgId
      senderId := .ofNat senderId
      sequence := .ofNat sequence
      flags := .ofNat flags
      round := .ofNat round }

end RtpsHeartbeatMsg

/-! ## Acknowledgments -/

/-- `kRtpsAckMsgId`: "DZAK". -/
def rtpsAckMsgId : UInt32 := 0x445A414B

/-- `kRtpsAck2MsgId`: "DZA2". -/
def rtpsAck2MsgId : UInt32 := 0x445A4132

/-- `IpcRtpsAckMsg`. -/
structure RtpsAckMsg where
  pageCnt : UInt16
  totalSize : UInt32
  dataMsgId : UInt32
  receiverId : UInt32
  sequence : UInt32
  integrityFlags : UInt8
  payloadCrc32c : UInt32
  deriving DecidableEq, Repr, Inhabited

namespace RtpsAckMsg

/-- The copies `serialize` makes. -/
def pieces (m : RtpsAckMsg) : List (List UInt8) :=
  [leBytes 2 m.pageCnt.toNat, leBytes 4 m.totalSize.toNat, leBytes 4 m.dataMsgId.toNat,
    leBytes 4 m.receiverId.toNat, leBytes 4 m.sequence.toNat, leBytes 1 m.integrityFlags.toNat,
    leBytes 4 m.payloadCrc32c.toNat]

/-- `serialize`. -/
def serialize (m : RtpsAckMsg) : List UInt8 :=
  writeFrame rtpsAckMsgId m.pieces

/-- `min_size_for_seq`, which is also `min_size_for_crc`. -/
def minSizeForSeq : ℕ := 2 + 4 + 4 + 4 + 4 + 1 + 4 + 12

/-- `deserialize`: a short frame leaves the sequence and the integrity fields as they
were.  The third branch of the source, for at least `minSizeForSeq + 5` bytes but fewer
than `minSizeForSeq`, is never taken. -/
def deserialize (old : RtpsAckMsg) (buffer : List UInt8) : Except Fault RtpsAckMsg := do
  let r := Region.whole buffer
  let (pageCnt, c) ← readUInt r .start 2
  let (totalSize, c) ← readUInt r c 4
  let (dataMsgId, c) ← readUInt r c 4
  let (receiverId, c) ← readUInt r c 4
  let m := { old with
    pageCnt := .ofNat pageCnt
    totalSize := .ofNat totalSize
    dataMsgId := .ofNat dataMsgId
    receiverId := .ofNat receiverId }
  if buffer.length ≥ minSizeForSeq then do
    let (sequence, c) ← readUInt r c 4
    let (integrityFlags, c) ← readUInt r c 1
    let (payloadCrc32c, _) ← readUInt r c 4
    return { m with
      sequence := .ofNat sequence
      integrityFlags := .ofNat integrityFlags
      payloadCrc32c := .ofNat payloadCrc32c }
  else return m

end RtpsAckMsg

/-- `IpcRtpsAck2Msg`: an acknowledgment with feedback on losses. -/
structure RtpsAck2Msg extends RtpsAckMsg where
  lostPages : UInt16
  observedBps : UInt32
  deriving DecidableEq, Repr, Inhabited

namespace RtpsAck2Msg

/-- `kWireSize`. -/
def wireSize : ℕ := 2 + 4 + 4 + 4 + 4 + 1 + 4 + 2 + 4 + 12

/-- The copies `serialize` makes. -/
def pieces (m : RtpsAck2Msg) : List (List UInt8) :=
  m.toRtpsAckMsg.pieces ++ [leBytes 2 m.lostPages.toNat, leBytes 4 m.observedBps.toNat]

/-- `serialize`. -/
def serialize (m : RtpsAck2Msg) : List UInt8 :=
  writeFrame rtpsAck2MsgId m.pieces

/-- `deserialize`: a frame of another length leaves the object as it was. -/
def deserialize (old : RtpsAck2Msg) (buffer : List UInt8) : Except Fault RtpsAck2Msg :=
  if buffer.length ≠ wireSize then .ok old
  else do
    let r := Region.whole buffer
    let (pageCnt, c) ← readUInt r .start 2
    let (totalSize, c) ← readUInt r c 4
    let (dataMsgId, c) ← readUInt r c 4
    let (receiverId, c) ← readUInt r c 4
    let (sequence, c) ← readUInt r c 4
    let (integrityFlags, c) ← readUInt r c 1
    let (payloadCrc32c, c) ← readUInt r c 4
    let (lostPages, c) ← readUInt r c 2
    let (observedBps, _) ← readUInt r c 4
    return {
      pageCnt := .ofNat pageCnt
      totalSize := .ofNat totalSize
      dataMsgId := .ofNat dataMsgId
      receiverId := .ofNat receiverId
      sequence := .ofNat sequence
      integrityFlags := .ofNat integrityFlags
      payloadCrc32c := .ofNat payloadCrc32c
      lostPages := .ofNat lostPages
      observedBps := .ofNat observedBps }

end RtpsAck2Msg

/-! ## Negative acknowledgments -/

/-- `kRtpsNackMsgId`: "DZNK". -/
def rtpsNackMsgId : UInt32 := 0x445A4E4B

/-- `kRtpsNackBitmapMsgId`: "DZNB". -/
def rtpsNackBitmapMsgId : UInt32 := 0x445A4E42

/-- What both kinds of NACK say about the message they are for. -/
structure NackHead where
  pageCnt : UInt16
  totalSize : UInt32
  dataMsgId : UInt32
  receiverId : UInt32
  sequence : UInt32
  deriving DecidableEq, Repr, Inhabited

namespace NackHead

/-- The copies of the common fields. -/
def pieces (h : NackHead) : List (List UInt8) :=
  [leBytes 2 h.pageCnt.toNat, leBytes 4 h.totalSize.toNat, leBytes 4 h.dataMsgId.toNat,
    leBytes 4 h.receiverId.toNat, leBytes 4 h.sequence.toNat]

/-- Read the common fields. -/
def read (r : Region) : Except Fault (NackHead × Cursor) := do
  let (pageCnt, c) ← readUInt r .start 2
  let (totalSize, c) ← readUInt r c 4
  let (dataMsgId, c) ← readUInt r c 4
  let (receiverId, c) ← readUInt r c 4
  let (sequence, c) ← readUInt r c 4
  return ({
    pageCnt := .ofNat pageCnt
    totalSize := .ofNat totalSize
    dataMsgId := .ofNat dataMsgId
    receiverId := .ofNat receiverId
    sequence := .ofNat sequence }, c)

end NackHead

/-- `IpcRtpsNackMsg`. -/
structure RtpsNackMsg where
  head : NackHead
  missingPages : List UInt16
  deriving DecidableEq, Repr, Inhabited

namespace RtpsNackMsg

/-- `kMaxMissingPages`. -/
def maxMissingPages : ℕ := 256

/-- `serialize`. -/
def serialize (m : RtpsNackMsg) : List UInt8 :=
  let missCnt := min m.missingPages.length maxMissingPages
  writeFrame rtpsNackMsgId
    (m.head.pieces ++ leBytes 2 missCnt ::
      (m.missingPages.take missCnt).map fun page => leBytes 2 page.toNat)

/-- The loop that reads the page numbers. -/
def readPages (r : Region) : ℕ → Cursor → Except Fault (List UInt16)
  | 0, _ => return []
  | count + 1, c => do
      let (page, c) ← readUInt r c 2
      let pages ← readPages r count c
      return .ofNat page :: pages

/-- `deserialize`. -/
def deserialize (buffer : List UInt8) : Except Fault RtpsNackMsg := do
  let r := Region.whole buffer
  let (head, c) ← NackHead.read r
  let (missCnt, c) ← readUInt r c 2
  let missingPages ← readPages r (min missCnt maxMissingPages) c
  return { head := head, missingPages := missingPages }

end RtpsNackMsg

/-- `IpcRtpsNackBitmapMsg`. -/
structure RtpsNackBitmapMsg where
  head : NackHead
  basePage : UInt16
  bitCnt : ℕ
  bitmap : List UInt8
  deriving DecidableEq, Repr, Inhabited

namespace RtpsNackBitmapMsg

/-- `kFixedFieldBytes`. -/
def fixedFieldBytes : ℕ := 2 + 4 + 4 + 4 + 4 + 2 + 2

/-- `kMaxBitmapBytes`. -/
def maxBitmapBytes : ℕ := 1459 - fixedFieldBytes

/-- `kMaxBitmapBits`. -/
def maxBitmapBits : ℕ := maxBitmapBytes * 8

/-- `reset_window`. -/
def resetWindow (m : RtpsNackBitmapMsg) (base : UInt16) (bits : ℕ) : RtpsNackBitmapMsg :=
  let bitCnt := min bits maxBitmapBits
  { m with basePage := base, bitCnt := bitCnt, bitmap := List.replicate ((bitCnt + 7) / 8) 0 }

/-- `1u << (idx & 7)`. -/
def bitOf (idx : ℕ) : UInt8 := 1 <<< UInt8.ofNat (idx % 8)

/-- `set_missing`. -/
def setMissing (m : RtpsNackBitmapMsg) (page : ℕ) : RtpsNackBitmapMsg :=
  if page < m.basePage.toNat then m
  else
    let idx := page - m.basePage.toNat
    if idx ≥ m.bitCnt then m
    else { m with bitmap := m.bitmap.modify (idx / 8) fun b => b ||| bitOf idx }

/-- `is_missing`. -/
def isMissing (m : RtpsNackBitmapMsg) (page : ℕ) : Bool :=
  if page < m.basePage.toNat then false
  else
    let idx := page - m.basePage.toNat
    if idx ≥ m.bitCnt then false
    else
      match m.bitmap[idx / 8]? with
      | some b => b &&& bitOf idx ≠ 0
      | none => false

/-- `serialize`. -/
def serialize (m : RtpsNackBitmapMsg) : List UInt8 :=
  let bits := min m.bitCnt maxBitmapBits
  let mapBytes := min ((bits + 7) / 8) m.bitmap.length
  writeFrame rtpsNackBitmapMsgId
    (m.head.pieces ++ [leBytes 2 m.basePage.toNat, leBytes 2 mapBytes]
      ++ if mapBytes > 0 then [m.bitmap.take mapBytes] else [])

/-- `deserialize`: a frame too short for the fixed fields leaves the object as it was. -/
def deserialize (old : RtpsNackBitmapMsg) (buffer : List UInt8) : Except Fault RtpsNackBitmapMsg :=
  if buffer.length < fixedFieldBytes + 12 then .ok old
  else do
    let r := Region.whole buffer
    let (head, c) ← NackHead.read r
    let (basePage, c) ← readUInt r c 2
    let (mapBytes, c) ← readUInt r c 2
    let take := min (min mapBytes (buffer.length - fixedFieldBytes - 12)) maxBitmapBytes
    let (bitmap, _) ← readItems r c take take
    return { head := head, basePage := .ofNat basePage, bitCnt := take * 8, bitmap := bitmap }

end RtpsNackBitmapMsg

/-! ## Reading a frame back -/

theorem readUInt_reading {r : Region} {data rest : List UInt8} {n width k : ℕ} {c : Cursor}
    (h : Reading r data n (leBytes width k ++ rest) c) (hk : k < (2 ^ 8) ^ width) :
    Returns (readUInt r c width) fun res => res.1 = k ∧ Reading r data (n + width) rest res.2 := by
  have hlen : width = (leBytes width k).length := (length_leBytes width k).symm
  refine (h.tods (m := n + width) hlen (by rw [length_leBytes])).bind ?_
  rintro ⟨bytes, c'⟩ ⟨rfl, hc'⟩
  exact .pure ⟨by rw [leNat_leBytes, Nat.mod_eq_of_lt hk], hc'⟩

/-- A reader at the start of a frame has the frame's fields ahead. -/
theorem frame_reading (msgId : UInt32) {pieces : List (List UInt8)}
    (hsmall : pieces.flatten.length < ipcMsgMaxSize) :
    Reading (.whole (writeFrame msgId pieces)) pieces.flatten 0 pieces.flatten .start := by
  have hfits : pieces.flatten.length / ipcMsgMaxSize + 1 < 2 ^ 16 := by
    rw [Nat.div_eq_of_lt hsmall]
    decide
  exact
    { carries := carries_of_append hfits (List.append_nil _).symm rfl
      small := hfits
      within := Nat.zero_le _
      ahead := rfl
      offset := rfl
      overflow := rfl }

/-- A frame is its fields and one tail. -/
theorem writeFrame_eq (msgId : UInt32) {pieces : List (List UInt8)}
    (hsmall : pieces.flatten.length < ipcMsgMaxSize) :
    writeFrame msgId pieces
      = pieces.flatten ++ tailBytes (correctTotalSize pieces.flatten.length) msgId.toNat 1 := by
  have hdiv : pieces.flatten.length / ipcMsgMaxSize = 0 := Nat.div_eq_of_lt hsmall
  have hzero : 0 % ipcMsgMaxSize + pieces.flatten.length < ipcMsgMaxSize := by
    rw [Nat.zero_mod, Nat.zero_add]
    exact hsmall
  rw [writeFrame, writeMessage_eq _ _ (by rw [hdiv]; decide), Weave.weave_within hzero, hdiv]
  rfl

theorem length_writeFrame (msgId : UInt32) {pieces : List (List UInt8)}
    (hsmall : pieces.flatten.length < ipcMsgMaxSize) :
    (writeFrame msgId pieces).length = pieces.flatten.length + 12 := by
  rw [writeFrame_eq msgId hsmall, List.length_append]
  rfl

/-- A frame passes for its own message id only. -/
theorem checkId_writeFrame (msgId expectedId : UInt32) {pieces : List (List UInt8)}
    (hsmall : pieces.flatten.length < ipcMsgMaxSize) :
    checkId (writeFrame msgId pieces) expectedId = decide (msgId = expectedId) := by
  have hlen := length_writeFrame msgId hsmall
  have hend : Blocks.slice ((writeFrame msgId pieces).length - 4) 4 (writeFrame msgId pieces)
      = be32 msgId.toNat := by
    rw [hlen, writeFrame_eq msgId hsmall, Blocks.slice, tailBytes, ← List.append_assoc,
      List.drop_left']
    · rfl
    · simp [be16, be32]
  have hval : beNat (be32 msgId.toNat) = msgId.toNat := by
    have hlt := msgId.toNat_lt
    simp only [beNat, be32, List.foldl_cons, List.foldl_nil, byte_toNat]
    omega
  rw [checkId, if_neg (by omega), hend, hval, UInt32.ofNat_toNat]

/-- What a computation that returns a known value returns. -/
theorem eq_ok_of_returns {α : Type} {x : Except Fault α} {a : α} (h : Returns x fun b => b = a) :
    x = .ok a := by
  obtain ⟨_, hx, rfl⟩ := h
  exact hx

namespace RtpsHeartbeatMsg

theorem length_pieces (m : RtpsHeartbeatMsg) : m.pieces.flatten.length = 21 := by
  simp [pieces]

/-- A heartbeat is read back, whatever the object held before. -/
theorem deserialize_serialize (m old : RtpsHeartbeatMsg) : old.deserialize m.serialize = .ok m := by
  have hsmall : m.pieces.flatten.length < ipcMsgMaxSize := by
    rw [length_pieces]
    decide
  have hlen : m.serialize.length = wireSize := by
    rw [serialize, length_writeFrame _ hsmall, length_pieces]
    rfl
  refine eq_ok_of_returns ?_
  rw [deserialize, if_neg (by simpa using hlen)]
  refine (readUInt_reading (frame_reading rtpsHeartbeatMsgId hsmall) m.pageCnt.toNat_lt).bind ?_
  rintro ⟨_, c₁⟩ ⟨rfl, h₁⟩
  refine (readUInt_reading h₁ m.totalSize.toNat_lt).bind ?_
  rintro ⟨_, c₂⟩ ⟨rfl, h₂⟩
  refine (readUInt_reading h₂ m.dataMsgId.toNat_lt).bind ?_
  rintro ⟨_, c₃⟩ ⟨rfl, h₃⟩
  refine (readUInt_reading h₃ m.senderId.toNat_lt).bind ?_
  rintro ⟨_, c₄⟩ ⟨rfl, h₄⟩
  refine (readUInt_reading h₄ m.sequence.toNat_lt).bind ?_
  rintro ⟨_, c₅⟩ ⟨rfl, h₅⟩
  refine (readUInt_reading h₅ m.flags.toNat_lt).bind ?_
  rintro ⟨_, c₆⟩ ⟨rfl, h₆⟩
  refine (readUInt_reading h₆ m.round.toNat_lt).bind ?_
  rintro ⟨_, c₇⟩ ⟨rfl, -⟩
  exact .pure (by simp only [UInt16.ofNat_toNat, UInt32.ofNat_toNat, UInt8.ofNat_toNat])

end RtpsHeartbeatMsg

namespace RtpsAckMsg

theorem length_pieces (m : RtpsAckMsg) : m.pieces.flatten.length = 23 := by
  simp [pieces]

/-- An acknowledgment is read back, whatever the object held before. -/
theorem deserialize_serialize (m old : RtpsAckMsg) : old.deserialize m.serialize = .ok m := by
  have hsmall : m.pieces.flatten.length < ipcMsgMaxSize := by
    rw [length_pieces]
    decide
  have hlen : m.serialize.length = minSizeForSeq := by
    rw [serialize, length_writeFrame _ hsmall, length_pieces]
    rfl
  refine eq_ok_of_returns ?_
  refine (readUInt_reading (frame_reading rtpsAckMsgId hsmall) m.pageCnt.toNat_lt).bind ?_
  rintro ⟨_, c₁⟩ ⟨rfl, h₁⟩
  refine (readUInt_reading h₁ m.totalSize.toNat_lt).bind ?_
  rintro ⟨_, c₂⟩ ⟨rfl, h₂⟩
  refine (readUInt_reading h₂ m.dataMsgId.toNat_lt).bind ?_
  rintro ⟨_, c₃⟩ ⟨rfl, h₃⟩
  refine (readUInt_reading h₃ m.receiverId.toNat_lt).bind ?_
  rintro ⟨_, c₄⟩ ⟨rfl, h₄⟩
  refine .ite (fun _ => ?_) (fun hshort => absurd (Nat.le_of_eq hlen.symm) hshort)
  refine (readUInt_reading h₄ m.sequence.toNat_lt).bind ?_
  rintro ⟨_, c₅⟩ ⟨rfl, h₅⟩
  refine (readUInt_reading h₅ m.integrityFlags.toNat_lt).bind ?_
  rintro ⟨_, c₆⟩ ⟨rfl, h₆⟩
  refine (readUInt_reading h₆ m.payloadCrc32c.toNat_lt).bind ?_
  rintro ⟨_, c₇⟩ ⟨rfl, -⟩
  exact .pure (by simp only [UInt16.ofNat_toNat, UInt32.ofNat_toNat, UInt8.ofNat_toNat])

theorem checkId_serialize (m : RtpsAckMsg) (expectedId : UInt32) :
    checkId m.serialize expectedId = decide (rtpsAckMsgId = expectedId) :=
  checkId_writeFrame _ _ (by rw [length_pieces]; decide)

end RtpsAckMsg

namespace RtpsAck2Msg

theorem length_pieces (m : RtpsAck2Msg) : m.pieces.flatten.length = 29 := by
  simp [pieces, RtpsAckMsg.pieces]

/-- An acknowledgment with feedback is read back, whatever the object held before. -/
theorem deserialize_serialize (m old : RtpsAck2Msg) : old.deserialize m.serialize = .ok m := by
  have hsmall : m.pieces.flatten.length < ipcMsgMaxSize := by
    rw [length_pieces]
    decide
  have hlen : m.serialize.length = wireSize := by
    rw [serialize, length_writeFrame _ hsmall, length_pieces]
    rfl
  refine eq_ok_of_returns ?_
  rw [deserialize, if_neg (by simpa using hlen)]
  refine (readUInt_reading (frame_reading rtpsAck2MsgId hsmall) m.pageCnt.toNat_lt).bind ?_
  rintro ⟨_, c₁⟩ ⟨rfl, h₁⟩
  refine (readUInt_reading h₁ m.totalSize.toNat_lt).bind ?_
  rintro ⟨_, c₂⟩ ⟨rfl, h₂⟩
  refine (readUInt_reading h₂ m.dataMsgId.toNat_lt).bind ?_
  rintro ⟨_, c₃⟩ ⟨rfl, h₃⟩
  refine (readUInt_reading h₃ m.receiverId.toNat_lt).bind ?_
  rintro ⟨_, c₄⟩ ⟨rfl, h₄⟩
  refine (readUInt_reading h₄ m.sequence.toNat_lt).bind ?_
  rintro ⟨_, c₅⟩ ⟨rfl, h₅⟩
  refine (readUInt_reading h₅ m.integrityFlags.toNat_lt).bind ?_
  rintro ⟨_, c₆⟩ ⟨rfl, h₆⟩
  refine (readUInt_reading h₆ m.payloadCrc32c.toNat_lt).bind ?_
  rintro ⟨_, c₇⟩ ⟨rfl, h₇⟩
  refine (readUInt_reading h₇ m.lostPages.toNat_lt).bind ?_
  rintro ⟨_, c₈⟩ ⟨rfl, h₈⟩
  refine (readUInt_reading h₈ m.observedBps.toNat_lt).bind ?_
  rintro ⟨_, c₉⟩ ⟨rfl, -⟩
  exact .pure (by simp only [UInt16.ofNat_toNat, UInt32.ofNat_toNat, UInt8.ofNat_toNat])

theorem checkId_serialize (m : RtpsAck2Msg) (expectedId : UInt32) :
    checkId m.serialize expectedId = decide (rtpsAck2MsgId = expectedId) :=
  checkId_writeFrame _ _ (by rw [length_pieces]; decide)

end RtpsAck2Msg

theorem NackHead.length_pieces (head : NackHead) : head.pieces.flatten.length = 18 := by
  simp [NackHead.pieces]

end DzIpc.Udp
