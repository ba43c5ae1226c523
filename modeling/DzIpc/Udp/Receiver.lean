import DzIpc.Flat.Segment
import DzIpc.Udp.Crc32c
import DzIpc.Udp.Frames

/-!
# The receiving side of a UDP channel

`recv_chunk_common_impl` is a call that waits for a first page, assembles the message from
the pages that follow, and acknowledges it.  The state of a call is explicit: each event
that ends one of its waits (a datagram, the end of a round, the end of its time) is one
function.

`Received.Spec` is what every event keeps: the assembly, and the bytes of a call that
returns true, are made of pages received in this call (`receive_spec`, `roundOver_spec`),
and an acknowledgment is sent with a receipt only.
-/

namespace DzIpc.Udp

open Wire Blocks

/-! ## DZFlat segments on the wire -/

/-- The loop of `de_frame_dzflat`. -/
def deFrameLoop : ℕ → List UInt8 → ℕ → List UInt8
  | 0, _, _ => []
  | fuel + 1, src, left =>
      if left = 0 then []
      else
        let n := min ipcMsgMaxSize left
        src.take n ++ deFrameLoop fuel (src.drop (n + tailMsgSize)) (left - n)

/-- `de_frame_dzflat`; `none` where it returns false.  The loop makes at most one round per
page. -/
def deFrameDzflat (stream : List UInt8) (segLen : ℕ) : Option (List UInt8) :=
  if segLen < Flat.segHeaderSize then none
  else
    let pages := segLen / ipcMsgMaxSize + 1
    if segLen + pages * tailMsgSize > stream.length then none
    else some (deFrameLoop pages stream segLen)

/-- `is_rtps_control_frame`. -/
def isRtpsControlFrame (msgId : UInt32) : Bool :=
  msgId = rtpsHeartbeatMsgId || msgId = rtpsAckMsgId || msgId = rtpsAck2MsgId
    || msgId = rtpsNackMsgId || msgId = rtpsNackBitmapMsgId

/-! ## Calls -/

/-- A receiving thread: the id of its message class, `local_node_id()`, and whether its
caller passes `out_payload`.  The ids of control frames are reserved. -/
structure Receiver where
  msgId : UInt32
  receiverId : UInt32
  wantsPayload : Bool
  notControl : isRtpsControlFrame msgId = false

/-- The local variables of a call that assembles a message of several pages. -/
structure Assembling where
  asm : Assembly
  hbMsg : RtpsHeartbeatMsg
  round : ℕ
  receivedBeforeRound : ℕ
  hbSeen : Bool
  senderReliable : Bool
  hbFinal : Bool
  senderBitmapOk : Bool
  senderFeedbackOk : Bool
  fruitlessRounds : ℕ
  lostPages : UInt16
  deriving DecidableEq, Repr

/-- Where a receiving thread stands. -/
inductive RecvPhase where
  /-- No call is running. -/
  | idle
  /-- In `wait_first_data_chunk`, with `pending_hb` and `have_pending_hb`. -/
  | waiting (pendingHb : RtpsHeartbeatMsg) (havePendingHb : Bool)
  /-- In the rounds of the assembly. -/
  | assembling (call : Assembling)
  deriving DecidableEq, Repr

/-- What a call that returns true leaves: the message it says it received, and its bytes. -/
structure Receipt where
  info : ChunkMeta
  bytes : List UInt8
  deriving DecidableEq, Repr

/-- What an event does: the state after it, the frames sent to the ACK endpoint, and, where
the call returns true, its receipt. -/
structure Received where
  phase : RecvPhase
  sent : List (List UInt8)
  receipt : Option Receipt
  deriving DecidableEq, Repr

/-- The call goes on. -/
def Received.continue (phase : RecvPhase) : Received :=
  { phase := phase, sent := [], receipt := none }

/-- The call returns false. -/
def Received.giveUp : Received :=
  { phase := .idle, sent := [], receipt := none }

/-- `send_ack`. -/
def sendAck (rcv : Receiver) (info : ChunkMeta) (payloadCrc32c : UInt32) (useDza2 : Bool)
    (lostPages : UInt16) (observedBps : UInt32) : List UInt8 :=
  let ack : RtpsAckMsg :=
    { pageCnt := info.pageCnt
      totalSize := info.totalSize
      dataMsgId := info.msgId
      receiverId := rcv.receiverId
      sequence := info.sequence
      integrityFlags := 0x01
      payloadCrc32c := payloadCrc32c }
  if useDza2 then
    RtpsAck2Msg.serialize { ack with lostPages := lostPages, observedBps := observedBps }
  else ack.serialize

/-- The end of a call that has all bytes of its message.  A flat segment that the caller
wants to borrow must come out of its pages; otherwise the bytes go to the message class. -/
def finish (rcv : Receiver) (info : ChunkMeta) (bytes : List UInt8) (feedbackOk : Bool)
    (lostPages : UInt16) (observedBps : UInt32) : Received :=
  let borrow := Flat.looksLikeDzflat bytes && rcv.wantsPayload
  let segLen := (Flat.SegHeader.ofBytes bytes).totalSize.toNat
  if borrow && (deFrameDzflat bytes segLen).isNone then .giveUp
  else
    { phase := .idle
      sent := [sendAck rcv info (crc32c bytes) feedbackOk lostPages observedBps]
      receipt := some { info := info, bytes := bytes } }

/-- The heartbeat is about this message. -/
def RtpsHeartbeatMsg.about (hb : RtpsHeartbeatMsg) (info : ChunkMeta) : Bool :=
  hb.dataMsgId = info.msgId && hb.pageCnt = info.pageCnt && hb.totalSize = info.totalSize

/-- A flag of a heartbeat is set. -/
def RtpsHeartbeatMsg.has (hb : RtpsHeartbeatMsg) (flag : UInt8) : Bool :=
  hb.flags &&& flag ≠ 0

/-- `wait_first_data_chunk`, for a datagram that is no heartbeat: the message whose page it
is, with the sequence of a heartbeat about the same message. -/
def firstDataChunk (rcv : Receiver) (pendingHb : RtpsHeartbeatMsg) (havePendingHb : Bool)
    (buf : List UInt8) : Option ChunkMeta :=
  if ¬ checkId buf rcv.msgId then none
  else
    match parseTail buf with
    | none => none
    | some tail =>
        if ¬ validChunkMeta tail then none
        else if tail.nowPage = 0 ∨ tail.nowPage > tail.pageCnt then none
        else
          let tentative : ChunkMeta :=
            { pageCnt := tail.pageCnt, totalSize := tail.totalSize, msgId := tail.msgId,
              sequence := 0 }
          if buf.length ≠ expectedPageSize tentative tail.nowPage then none
          else if havePendingHb && pendingHb.about tentative then
            some { tentative with sequence := pendingHb.sequence }
          else some tentative

/-- What `recv_chunk_common_impl` does with the first page. -/
def beginAssembly (rcv : Receiver) (pendingHb : RtpsHeartbeatMsg) (havePendingHb : Bool)
    (info : ChunkMeta) (firstPage : List UInt8) : Received :=
  let known := havePendingHb && pendingHb.about info
  if info.pageCnt = 1 then
    if firstPage.length ≠ info.totalSize.toNat then .giveUp
    else finish rcv info firstPage (known && pendingHb.has flagRateFeedback) 0 0
  else
    match placePage firstPage (.start info) with
    | none => .giveUp
    | some asm =>
        .continue (.assembling
          { asm := asm
            hbMsg := default
            round := 0
            receivedBeforeRound := asm.receivedCnt
            hbSeen := false
            senderReliable := known && pendingHb.has flagReliable
            hbFinal := false
            senderBitmapOk := known && pendingHb.has flagBitmapNack
            senderFeedbackOk := known && pendingHb.has flagRateFeedback
            fruitlessRounds := 0
            lostPages := 0 })

/-- What a heartbeat about the message changes. -/
def Assembling.adopt (call : Assembling) (hb : RtpsHeartbeatMsg) : Assembling :=
  { call with
    asm := { call.asm with info := { call.asm.info with sequence := hb.sequence } }
    senderReliable := hb.has flagReliable
    hbFinal := hb.has flagFinal
    senderBitmapOk := hb.has flagBitmapNack
    senderFeedbackOk := hb.has flagRateFeedback
    hbSeen := true }

/-- A datagram reaches a call; `observedBps` is what the clock says about the rate. -/
def receive (rcv : Receiver) (phase : RecvPhase) (buf : List UInt8) (observedBps : UInt32) :
    Option Received :=
  match phase with
  | .idle => none
  | .waiting pendingHb havePendingHb =>
      if checkId buf rtpsHeartbeatMsgId then
        match pendingHb.deserialize buf with
        | .error _ => none
        | .ok hb => some (.continue (.waiting hb true))
      else
        match firstDataChunk rcv pendingHb havePendingHb buf with
        | none => some (.continue phase)
        | some info => some (beginAssembly rcv pendingHb havePendingHb info buf)
  | .assembling call =>
      if checkId buf rtpsHeartbeatMsgId then
        match call.hbMsg.deserialize buf with
        | .error _ => none
        | .ok hb =>
            let call := { call with hbMsg := hb }
            some (.continue (.assembling (if hb.about call.asm.info then call.adopt hb else call)))
      else if ¬ checkId buf rcv.msgId then some (.continue phase)
      else
        let asm := (placePage buf call.asm).getD call.asm
        if asm.receivedCnt ≥ asm.info.pageCnt.toNat then
          some (finish rcv asm.info asm.assembled call.senderFeedbackOk call.lostPages observedBps)
        else some (.continue (.assembling { call with asm := asm }))

/-! ## The end of a round -/

/-- The pages not received, in ascending order. -/
def Assembly.missing (a : Assembly) : List ℕ :=
  ((List.range a.info.pageCnt.toNat).map (· + 1)).filter fun p => a.received[p]? = some false

/-- The common fields of a NACK. -/
def nackHead (rcv : Receiver) (info : ChunkMeta) : NackHead where
  pageCnt := info.pageCnt
  totalSize := info.totalSize
  dataMsgId := info.msgId
  receiverId := rcv.receiverId
  sequence := info.sequence

/-- `send_nack_for_missing`. -/
def sendNackForMissing (rcv : Receiver) (a : Assembly) : List (List UInt8) :=
  let missingPages := a.missing.take RtpsNackMsg.maxMissingPages
  if missingPages = [] then []
  else
    [RtpsNackMsg.serialize
      { head := nackHead rcv a.info, missingPages := missingPages.map fun p => .ofNat p }]

/-- `send_nack_bitmap_for_missing`, for a first and a last missing page. -/
def sendNackBitmapForMissing (rcv : Receiver) (a : Assembly) (first last : ℕ) :
    List (List UInt8) :=
  let nb : RtpsNackBitmapMsg :=
    { head := nackHead rcv a.info, basePage := 0, bitCnt := 0, bitmap := [] }
  [(a.missing.foldl RtpsNackBitmapMsg.setMissing
      (nb.resetWindow (.ofNat first) (last - first + 1))).serialize]

/-- The choice of `send_nack_auto`, for the first and the last of the missing pages: the
bitmap reports more of them, or as many in fewer bytes. -/
def useBitmap (missing : List ℕ) (first last : ℕ) : Bool :=
  let missCnt := missing.length
  let span := last - first + 1
  let bitmapBits := min span RtpsNackBitmapMsg.maxBitmapBits
  let bitmapBytes := (bitmapBits + 7) / 8
  let bitmapCover :=
    if span > RtpsNackBitmapMsg.maxBitmapBits then
      (missing.filter fun p => p < first + bitmapBits).length
    else missCnt
  let listCover := min missCnt RtpsNackMsg.maxMissingPages
  let listBytes := listCover * 2
  bitmapCover > listCover || (bitmapCover = listCover && bitmapBytes < listBytes)

/-- `send_nack_auto`. -/
def sendNackAuto (rcv : Receiver) (a : Assembly) (peerSupportsBitmap : Bool) :
    List (List UInt8) :=
  if ¬ peerSupportsBitmap then sendNackForMissing rcv a
  else
    match a.missing.head?, a.missing.getLast? with
    | some first, some last =>
        if useBitmap a.missing first last then sendNackBitmapForMissing rcv a first last
        else sendNackForMissing rcv a
    | _, _ => []

/-- `RTPS_MAX_NACK_ROUND`. -/
def rtpsMaxNackRound : ℕ := 5

/-- `kFruitlessRoundLimit`. -/
def fruitlessRoundLimit : ℕ := 2

/-- The capture of `lost_pages` before the first NACK. -/
def Assembling.captureLost (call : Assembling) : Assembling :=
  if call.lostPages = 0 then
    { call with lostPages := .ofNat (call.asm.info.pageCnt.toNat - call.asm.receivedCnt) }
  else call

@[simp] theorem Assembling.captureLost_asm (call : Assembling) : call.captureLost.asm = call.asm := by
  unfold captureLost
  split <;> rfl

/-- The NACK at the end of a round, and the beginning of the next one. -/
def nextRound (rcv : Receiver) (call : Assembling) : Received :=
  let sent := sendNackAuto rcv call.asm call.senderBitmapOk
  if call.round + 1 < rtpsMaxNackRound then
    { phase := .assembling
        { call.captureLost with
          round := call.round + 1
          receivedBeforeRound := call.asm.receivedCnt
          hbSeen := false }
      sent := sent
      receipt := none }
  else { Received.giveUp with sent := sent }

/-- A wait ends without a datagram: a call that waits for a first page returns false, a
round of an assembly is over. -/
def roundOver (rcv : Receiver) : RecvPhase → Option Received
  | .idle => none
  | .waiting _ _ => some .giveUp
  | .assembling call =>
      if call.hbSeen then
        if ¬ call.senderReliable ∨ call.hbFinal then some .giveUp
        else some (nextRound rcv call)
      else if call.round ≥ 1 then
        if call.asm.receivedCnt = call.receivedBeforeRound then
          if call.fruitlessRounds + 1 ≥ fruitlessRoundLimit then some .giveUp
          else some (nextRound rcv { call with fruitlessRounds := call.fruitlessRounds + 1 })
        else some (nextRound rcv { call with fruitlessRounds := 0 })
      else some (nextRound rcv call)

/-- The time of a call is up. -/
def expire : RecvPhase → Option Received
  | .idle => none
  | _ => some .giveUp

/-! ## What every event keeps -/

/-- The assembly under way, if there is one, is made of datagrams that satisfy `P`. -/
def RecvPhase.Sound (P : List UInt8 → Prop) : RecvPhase → Prop
  | .assembling call => call.asm.Sound P
  | _ => True

/-- The datagram is a page of the assembly under way. -/
def RecvPhase.Has (datagram : List UInt8) : RecvPhase → Prop
  | .assembling call => call.asm.Has datagram
  | _ => False

/-- The bytes are those of the message the receipt names, in which every page is a datagram
that satisfies `P`. -/
structure Receipt.Sound (P : List UInt8 → Prop) (c : Receipt) : Prop where
  nonempty : 1 ≤ c.info.pageCnt.toNat
  pages : (chunks c.bytes).length = c.info.pageCnt.toNat
  page : ∀ p, 1 ≤ p → p ≤ c.info.pageCnt.toNat → ∃ datagram, P datagram ∧
    IsPage c.info p datagram ∧ (chunks c.bytes)[p - 1]? = some datagram

/-- The frame acknowledges the receipt. -/
def Acknowledges (rcv : Receiver) (frame : List UInt8) (c : Receipt) : Prop :=
  ∃ useDza2 lostPages observedBps,
    frame = sendAck rcv c.info (crc32c c.bytes) useDza2 lostPages observedBps

/-- The frame is a NACK of either kind. -/
def IsNack (frame : List UInt8) : Prop :=
  ∃ msgId pieces, (msgId = rtpsNackMsgId ∨ msgId = rtpsNackBitmapMsgId) ∧
    pieces.flatten.length < ipcMsgMaxSize ∧ frame = writeFrame msgId pieces

/-- What an event keeps, for the kind `P` of datagrams a call is made of, and those that
`Has` counts as received in this call. -/
structure Received.Spec (rcv : Receiver) (P Has : List UInt8 → Prop) (res : Received) : Prop where
  sound : res.phase.Sound P
  has : ∀ datagram, res.phase.Has datagram → Has datagram
  receipt : ∀ c ∈ res.receipt, c.Sound P ∧ (∀ datagram ∈ chunks c.bytes, Has datagram) ∧
    res.phase = .idle
  acks : ∀ frame ∈ res.sent, IsNack frame ∨ ∃ c ∈ res.receipt, Acknowledges rcv frame c

variable {rcv : Receiver} {P Has : List UInt8 → Prop}

theorem Received.Spec.giveUp : Received.Spec rcv P Has .giveUp where
  sound := trivial
  has := fun _ h => h.elim
  receipt := fun _ h => nomatch h
  acks := fun _ h => nomatch h

theorem Received.Spec.continue {phase : RecvPhase} (hsound : phase.Sound P)
    (hhas : ∀ datagram, phase.Has datagram → Has datagram) :
    Received.Spec rcv P Has (.continue phase) where
  sound := hsound
  has := hhas
  receipt := fun _ h => nomatch h
  acks := fun _ h => nomatch h

/-- A call ends with the bytes it has, or drops them. -/
theorem finish_spec {info : ChunkMeta} {bytes : List UInt8}
    (hsound : Receipt.Sound P { info := info, bytes := bytes })
    (hhas : ∀ datagram ∈ chunks bytes, Has datagram) (feedbackOk : Bool) (lostPages : UInt16)
    (observedBps : UInt32) :
    Received.Spec rcv P Has (finish rcv info bytes feedbackOk lostPages observedBps) := by
  unfold finish
  dsimp only
  split
  · exact .giveUp
  · refine ⟨trivial, fun _ h => h.elim, ?_, ?_⟩
    · intro c hc
      cases hc
      exact ⟨hsound, hhas, rfl⟩
    · intro frame hframe
      rw [List.mem_singleton] at hframe
      exact Or.inr ⟨_, rfl, _, _, _, hframe⟩

/-- A datagram accepted as a first page says which page of the message it is. -/
theorem firstDataChunk_spec {pendingHb : RtpsHeartbeatMsg} {havePendingHb : Bool}
    {buf : List UInt8} {info : ChunkMeta}
    (h : firstDataChunk rcv pendingHb havePendingHb buf = some info) :
    checkId buf rcv.msgId = true ∧ info.Valid ∧ ∃ p, IsPage info p buf := by
  unfold firstDataChunk at h
  split_ifs at h with hid
  split at h
  · cases h
  · rename_i tail htail
    dsimp only at h
    split_ifs at h with hvalid hrange hlen hhb
    all_goals
      cases h
      refine ⟨by simpa using hid, valid_of_validChunkMeta (by simpa using hvalid) ⟨rfl, rfl, rfl⟩, ?_⟩
      refine ⟨tail.nowPage.toNat, tail, htail, ⟨rfl, rfl, rfl⟩, rfl, ?_, ?_, not_not.mp hlen⟩
      · have hne : tail.nowPage.toNat ≠ 0 := fun h0 => hrange (Or.inl (UInt16.toNat_inj.mp h0))
        omega
      · exact Nat.le_of_not_lt fun hlt => hrange (Or.inr (UInt16.lt_iff_toNat_lt.mpr hlt))

theorem beginAssembly_spec {pendingHb : RtpsHeartbeatMsg} {havePendingHb : Bool}
    {info : ChunkMeta} {firstPage : List UInt8} (hvalid : info.Valid)
    (hpage : ∃ p, IsPage info p firstPage) (hP : P firstPage) (hhas : Has firstPage) :
    Received.Spec rcv P Has (beginAssembly rcv pendingHb havePendingHb info firstPage) := by
  unfold beginAssembly
  dsimp only
  split_ifs with hone hsize
  · exact .giveUp
  · have hpages : info.pageCnt.toNat = 1 := by rw [hone]; rfl
    have hlen : firstPage.length = info.totalSize.toNat := by simpa using hsize
    have hlow := hvalid.low
    have hhigh := hvalid.high
    rw [hpages] at hlow hhigh
    simp only [udpMaxSize, tailMsgSize] at hlow hhigh
    have hchunks : chunks firstPage = [firstPage] := by
      have hcount : blockCount udpMaxSize firstPage.length = 1 := by
        simp only [blockCount, udpMaxSize]
        omega
      have htake : slice (udpMaxSize * 0) udpMaxSize firstPage = firstPage := by
        rw [slice, Nat.mul_zero, List.drop_zero, List.take_of_length_le]
        simp only [udpMaxSize]
        omega
      rw [chunks, blocks, hcount, List.range_one, List.map_singleton, htake]
    obtain ⟨q, hq⟩ := hpage
    have hq1 : q = 1 := by
      obtain ⟨_, _, _, _, h1, h2, _⟩ := hq
      omega
    subst hq1
    refine finish_spec ⟨hvalid.pages, ?_, ?_⟩ ?_ _ _ _
    · rw [hchunks, hpages]
      rfl
    · intro p hp hle
      obtain rfl : p = 1 := Nat.le_antisymm (Nat.le_trans hle (Nat.le_of_eq hpages)) hp
      exact ⟨firstPage, hP, hq, by rw [hchunks]; rfl⟩
    · intro datagram hmem
      rw [hchunks, List.mem_singleton] at hmem
      rwa [hmem]
  · split
    · exact .giveUp
    · rename_i asm hasm
      have hstart : (Assembly.start info).Sound P := .start hvalid
      refine .continue (placePage_sound hstart hP hasm) fun datagram hd => ?_
      rcases placePage_has hstart hasm hd with ⟨p, hp, _⟩ | rfl
      · simp only [Assembly.start, List.getElem?_replicate] at hp
        split at hp <;> cases hp
      · exact hhas

/-- What the attempt to place a datagram makes of an assembly. -/
theorem placePage_getD_spec {buf : List UInt8} {a : Assembly} (hsound : a.Sound P) (hP : P buf) :
    ((placePage buf a).getD a).Sound P ∧
      ∀ datagram, ((placePage buf a).getD a).Has datagram → a.Has datagram ∨ datagram = buf := by
  cases hplace : placePage buf a with
  | none => exact ⟨hsound, fun _ hd => Or.inl hd⟩
  | some a' => exact ⟨placePage_sound hsound hP hplace, fun _ => placePage_has hsound hplace⟩

theorem Assembly.Sound.receiptSound {a : Assembly} (h : a.Sound P)
    (hfull : a.info.pageCnt.toNat ≤ a.receivedCnt) :
    Receipt.Sound P { info := a.info, bytes := a.assembled } where
  nonempty := h.valid.pages
  pages := h.length_chunks
  page := fun _ hp hle => h.block hfull hp hle

/-- **A datagram.**  What a call has, or returns, after it, the call had before, or it is
this datagram. -/
theorem receive_spec {phase : RecvPhase} {buf : List UInt8} {observedBps : UInt32}
    {res : Received} (hsound : phase.Sound P) (hP : checkId buf rcv.msgId = true → P buf)
    (h : receive rcv phase buf observedBps = some res) :
    res.Spec rcv P fun datagram => phase.Has datagram ∨ datagram = buf := by
  cases phase with
  | idle => cases h
  | waiting pendingHb havePendingHb =>
      simp only [receive] at h
      split_ifs at h with hhb
      · split at h <;> cases h
        exact .continue trivial fun _ h => h.elim
      · split at h <;> cases h
        · exact .continue trivial fun _ h => h.elim
        · rename_i info hinfo
          obtain ⟨hid, hvalid, hpage⟩ := firstDataChunk_spec hinfo
          exact beginAssembly_spec hvalid hpage (hP hid) (Or.inr rfl)
  | assembling call =>
      have hcall : call.asm.Sound P := hsound
      simp only [receive] at h
      split_ifs at h with hhb hid hfull
      · split at h <;> cases h
        rename_i hb _
        refine .continue ?_ fun datagram hd => Or.inl ?_
        · split
          · exact hcall.withSequence _
          · exact hcall
        · split at hd
          · exact hd
          · exact hd
      · cases h
        obtain ⟨hasm, hnew⟩ := placePage_getD_spec hcall (hP hid)
        exact finish_spec (hasm.receiptSound hfull)
          (fun datagram hmem => hnew datagram (hasm.has_of_mem_chunks hfull hmem)) _ _ _
      · cases h
        obtain ⟨hasm, hnew⟩ := placePage_getD_spec hcall (hP hid)
        refine .continue ?_ fun datagram hd => ?_
        · exact hasm
        · exact hnew datagram hd
      · cases h
        exact .continue hsound fun _ hd => Or.inl hd

/-- The frames a round ends with are NACKs. -/
theorem isNack_of_mem_sendNackForMissing {a : Assembly} {frame : List UInt8}
    (h : frame ∈ sendNackForMissing rcv a) : IsNack frame := by
  unfold sendNackForMissing at h
  dsimp only at h
  split at h
  · cases h
  · rw [List.mem_singleton] at h
    refine ⟨_, _, Or.inl rfl, ?_, h⟩
    have hpages : ∀ pages : List UInt16,
        (pages.map fun page => leBytes 2 page.toNat).flatten.length = pages.length * 2 := by
      intro pages
      rw [← List.flatMap_def]
      exact length_flatMap_const _ 2 (fun _ => length_leBytes _ _) pages
    rw [List.flatten_append, List.length_append, NackHead.length_pieces, List.flatten_cons,
      List.length_append, length_leBytes, hpages, List.length_take]
    simp only [RtpsNackMsg.maxMissingPages, ipcMsgMaxSize]
    omega

theorem isNack_of_mem_sendNackBitmapForMissing {a : Assembly} {first last : ℕ}
    {frame : List UInt8} (h : frame ∈ sendNackBitmapForMissing rcv a first last) :
    IsNack frame := by
  rw [sendNackBitmapForMissing, List.mem_singleton] at h
  refine ⟨_, _, Or.inr rfl, ?_, h⟩
  rw [List.flatten_append, List.length_append, List.flatten_append, List.length_append,
    NackHead.length_pieces]
  split
  · simp only [List.flatten_cons, List.flatten_nil, List.length_append, length_leBytes,
      List.length_nil, List.length_take, RtpsNackBitmapMsg.maxBitmapBits,
      RtpsNackBitmapMsg.maxBitmapBytes, RtpsNackBitmapMsg.fixedFieldBytes, ipcMsgMaxSize]
    omega
  · simp [ipcMsgMaxSize]

theorem isNack_of_mem_sendNackAuto {a : Assembly} {peerSupportsBitmap : Bool}
    {frame : List UInt8} (h : frame ∈ sendNackAuto rcv a peerSupportsBitmap) : IsNack frame := by
  unfold sendNackAuto at h
  split at h
  · exact isNack_of_mem_sendNackForMissing h
  · split at h
    · split at h
      · exact isNack_of_mem_sendNackBitmapForMissing h
      · exact isNack_of_mem_sendNackForMissing h
    · cases h

theorem nextRound_spec {call : Assembling} (hsound : call.asm.Sound P)
    (hhas : ∀ datagram, call.asm.Has datagram → Has datagram) :
    (nextRound rcv call).Spec rcv P Has := by
  unfold nextRound
  dsimp only
  split
  · refine ⟨?_, ?_, fun _ h => (nomatch h), fun _ h => Or.inl (isNack_of_mem_sendNackAuto h)⟩
    · simpa only [RecvPhase.Sound, Assembling.captureLost_asm] using hsound
    · simpa only [RecvPhase.Has, Assembling.captureLost_asm] using hhas
  · exact ⟨trivial, fun _ h => h.elim, fun _ h => (nomatch h),
      fun _ h => Or.inl (isNack_of_mem_sendNackAuto h)⟩

/-- **The end of a round.** -/
theorem roundOver_spec {phase : RecvPhase} {res : Received} (hsound : phase.Sound P)
    (h : roundOver rcv phase = some res) : res.Spec rcv P fun datagram => phase.Has datagram := by
  cases phase with
  | idle => cases h
  | waiting pendingHb havePendingHb =>
      cases h
      exact .giveUp
  | assembling call =>
      have hcall : call.asm.Sound P := hsound
      have hnext : ∀ fruitlessRounds, (nextRound rcv
          { call with fruitlessRounds := fruitlessRounds }).Spec rcv P
          fun datagram => RecvPhase.Has datagram (.assembling call) :=
        fun _ => nextRound_spec hcall fun _ hd => hd
      simp only [roundOver] at h
      split_ifs at h <;> cases h
      all_goals first | exact .giveUp | exact hnext _

theorem expire_spec {phase : RecvPhase} {res : Received} (h : expire phase = some res) :
    res.Spec rcv P fun datagram => phase.Has datagram := by
  cases phase with
  | idle => cases h
  | waiting pendingHb havePendingHb =>
      cases h
      exact .giveUp
  | assembling call =>
      cases h
      exact .giveUp

end DzIpc.Udp
