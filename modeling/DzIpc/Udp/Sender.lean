import DzIpc.Udp.Crc32c
import DzIpc.Udp.Frames

/-!
# The sending side of a UDP channel

`chunk_send_ex` cuts a serialized buffer into pages, sends them between two heartbeats and,
for a reliable send, answers the receivers' frames round by round until one of them
acknowledges the message or the time is up.  Each event that ends one of its waits is one
function; the rate of the channel only delays sends and has no part here.

* `beginSend_spec` and `roundEnd_spec` say which datagrams a send puts on the data channel,
  and what a send that reports a delivery has seen.
* `collect_spec` says what a frame must say to be taken for this message's acknowledgment.
-/

namespace DzIpc.Udp

open Wire

/-- `SocketDeliveryMode`. -/
inductive DeliveryMode where
  | bestEffort
  | reliable
  deriving DecidableEq, Repr

/-- `SocketIntegrityMode`. -/
inductive IntegrityMode where
  | none
  | crc32c
  deriving DecidableEq, Repr

/-- `SocketSendStatus`. -/
inductive SendStatus where
  | sentUnconfirmed
  | deliveredAcked
  | failedTimeout
  | failedLocalSend
  | failedIntegrity
  | failedInvalidArgument
  deriving DecidableEq, Repr

/-- `SocketSendOptions`, without the time-out, the rate and the ACK endpoint. -/
structure SendOptions where
  delivery : DeliveryMode
  integrity : IntegrityMode
  sendHeartbeat : Bool
  deriving DecidableEq, Repr

/-- `SocketSendReport`. -/
structure SendReport where
  status : SendStatus
  crc32c : UInt32
  ackCrc32c : UInt32
  sequence : UInt32
  deriving DecidableEq, Repr

/-- The local variables of a reliable `chunk_send_ex` that waits for an acknowledgment.
`lastRetransmitRound` holds, for each page number, the round it was last sent again in. -/
structure Sending where
  publishData : List UInt8
  info : ChunkMeta
  options : SendOptions
  crc32c : UInt32
  ackMsg : RtpsAckMsg
  ack2Msg : RtpsAck2Msg
  nbMsg : RtpsNackBitmapMsg
  round : ℕ
  hbRepeat : ℕ
  matchedAck : Option RtpsAckMsg
  gotNack : Bool
  nackFromUnknownPeer : Bool
  missingUnion : List ℕ
  lastRetransmitRound : List (Option ℕ)
  deriving DecidableEq, Repr

/-- The pages of the buffer that is being sent. -/
def Sending.pages (snd : Sending) : List (List UInt8) :=
  wirePages snd.publishData

/-- What an event does: the call that goes on, the receivers known to the node, the datagrams
sent on the data channel, and, where the call returns, its report. -/
structure Sent where
  sending : Option Sending
  knownPeers : List UInt32
  data : List (List UInt8)
  report : Option SendReport
  deriving DecidableEq, Repr

/-- The call returns, after the datagrams it has sent. -/
def Sent.done (knownPeers : List UInt32) (data : List (List UInt8)) (report : SendReport) : Sent :=
  { sending := none, knownPeers := knownPeers, data := data, report := some report }

/-- `send_heartbeat`. -/
def sendHeartbeat (senderId : UInt32) (info : ChunkMeta) (reliable finalHb : Bool)
    (round : UInt16) : List UInt8 :=
  RtpsHeartbeatMsg.serialize
    { pageCnt := info.pageCnt
      totalSize := info.totalSize
      dataMsgId := info.msgId
      senderId := senderId
      sequence := info.sequence
      flags := (if reliable then flagReliable else 0) ||| (if finalHb then flagFinal else 0)
        ||| flagBitmapNack ||| flagRateFeedback
      round := round }

/-- `kBestEffortHeartbeatMinPages`. -/
def bestEffortHeartbeatMinPages : ℕ := 16

/-- `kMaxHeartbeatRepeat`. -/
def maxHeartbeatRepeat : ℕ := 3

/-- A call of `chunk_send_ex`, up to its first wait.  `sequence` is what the counter says;
`localFail` is the number of pages sent before one fails to leave the host, if one does. -/
def beginSend (senderId sequence : UInt32) (knownPeers : List UInt32) (publishData : List UInt8)
    (options : SendOptions) (localFail : Option ℕ) : Sent :=
  let pages := wirePages publishData
  let report (status : SendStatus) (crc : UInt32) : SendReport :=
    { status := status, crc32c := crc, ackCrc32c := 0, sequence := sequence }
  if publishData.length < tailMsgSize then .done knownPeers [] (report .failedInvalidArgument 0)
  else if pages.any fun page => page.length < tailMsgSize then
    .done knownPeers [] (report .failedInvalidArgument 0)
  else
    let crc := if options.integrity = .crc32c then crc32c (onWire publishData) else 0
    match pages.head?.bind parseTail with
    | none => .done knownPeers [] (report .failedInvalidArgument crc)
    | some tail =>
        if ¬ validChunkMeta tail then .done knownPeers [] (report .failedInvalidArgument crc)
        else if tail.pageCnt.toNat ≠ pages.length then
          .done knownPeers [] (report .failedInvalidArgument crc)
        else
          let info : ChunkMeta :=
            { pageCnt := tail.pageCnt, totalSize := tail.totalSize, msgId := tail.msgId,
              sequence := sequence }
          let reliable : Bool := options.delivery = .reliable
          let leading :=
            if options.sendHeartbeat && reliable then [sendHeartbeat senderId info true false 0]
            else []
          match localFail with
          | some sent =>
              .done knownPeers (leading ++ pages.take sent) (report .failedLocalSend crc)
          | none =>
              let wantCompletionHb := reliable || info.pageCnt.toNat ≥ bestEffortHeartbeatMinPages
              let completion :=
                if options.sendHeartbeat && wantCompletionHb then
                  [sendHeartbeat senderId info reliable (!reliable) 1]
                else []
              let data := leading ++ pages ++ completion
              match options.delivery with
              | .bestEffort => .done knownPeers data (report .sentUnconfirmed crc)
              | .reliable =>
                  { sending := some
                      { publishData := publishData
                        info := info
                        options := options
                        crc32c := crc
                        ackMsg := default
                        ack2Msg := default
                        nbMsg := default
                        round := 0
                        hbRepeat := 0
                        matchedAck := none
                        gotNack := false
                        nackFromUnknownPeer := false
                        missingUnion := []
                        lastRetransmitRound := List.replicate (pages.length + 1) none }
                    knownPeers := knownPeers
                    data := data
                    report := none }

/-- The acknowledgment is for this message: the match on four fields. -/
def RtpsAckMsg.isFor (ack : RtpsAckMsg) (info : ChunkMeta) : Bool :=
  ack.pageCnt = info.pageCnt && ack.totalSize = info.totalSize && ack.dataMsgId = info.msgId
    && ack.sequence = info.sequence

/-- The NACK is for this message. -/
def NackHead.isFor (head : NackHead) (info : ChunkMeta) : Bool :=
  head.pageCnt = info.pageCnt && head.totalSize = info.totalSize
    && head.dataMsgId = info.msgId && head.sequence = info.sequence

/-- `record_peer_ack` and `record_peer_nack`, as far as the receivers known are concerned. -/
def recordPeer (knownPeers : List UInt32) (receiverId : UInt32) : List UInt32 :=
  knownPeers.insert receiverId

/-- The pages a bitmap NACK adds to `missing_union`. -/
def RtpsNackBitmapMsg.pages (nb : RtpsNackBitmapMsg) (pageCnt : ℕ) : List ℕ :=
  ((List.range nb.bitCnt).map (nb.basePage.toNat + ·)).filter fun p =>
    0 < p && p ≤ pageCnt && nb.isMissing p

/-- The pages an explicit NACK adds to `missing_union`. -/
def RtpsNackMsg.pages (nack : RtpsNackMsg) (pageCnt : ℕ) : List ℕ :=
  (nack.missingPages.map UInt16.toNat).filter fun p => 0 < p && p ≤ pageCnt

/-- What a NACK for this message changes. -/
def Sending.noteNack (snd : Sending) (knownPeers : List UInt32) (head : NackHead)
    (pages : List ℕ) : Sending :=
  { snd with
    gotNack := true
    nackFromUnknownPeer := snd.nackFromUnknownPeer || !knownPeers.contains head.receiverId
    missingUnion := snd.missingUnion ∪ pages }

/-- A datagram reaches a sender that waits on the ACK endpoint. -/
def collect (knownPeers : List UInt32) (snd : Sending) (buf : List UInt8) :
    Option (List UInt32 × Sending) :=
  if snd.matchedAck.isSome then none
  else if checkId buf rtpsAckMsgId then
    match snd.ackMsg.deserialize buf with
    | .error _ => none
    | .ok ack =>
        let snd := { snd with ackMsg := ack }
        if ack.isFor snd.info then
          some (recordPeer knownPeers ack.receiverId, { snd with matchedAck := some ack })
        else some (knownPeers, snd)
  else if checkId buf rtpsAck2MsgId then
    match snd.ack2Msg.deserialize buf with
    | .error _ => none
    | .ok ack2 =>
        let snd := { snd with ack2Msg := ack2 }
        if ack2.toRtpsAckMsg.isFor snd.info then
          some (recordPeer knownPeers ack2.receiverId,
            { snd with matchedAck := some ack2.toRtpsAckMsg })
        else some (knownPeers, snd)
  else if checkId buf rtpsNackMsgId then
    match RtpsNackMsg.deserialize buf with
    | .error _ => none
    | .ok nack =>
        if nack.head.isFor snd.info then
          some (recordPeer knownPeers nack.head.receiverId,
            snd.noteNack knownPeers nack.head (nack.pages snd.pages.length))
        else some (knownPeers, snd)
  else if checkId buf rtpsNackBitmapMsgId then
    match snd.nbMsg.deserialize buf with
    | .error _ => none
    | .ok nb =>
        let snd := { snd with nbMsg := nb }
        if nb.head.isFor snd.info then
          some (recordPeer knownPeers nb.head.receiverId,
            snd.noteNack knownPeers nb.head (nb.pages snd.pages.length))
        else some (knownPeers, snd)
  else some (knownPeers, snd)

/-- `drain_record_acks`, as far as the receivers known are concerned: one frame, with the
local message objects. -/
def drainOne (info : ChunkMeta) (st : List UInt32 × RtpsAckMsg × RtpsAck2Msg) (buf : List UInt8) :
    List UInt32 × RtpsAckMsg × RtpsAck2Msg :=
  let (knownPeers, ackMsg, ack2Msg) := st
  if checkId buf rtpsAck2MsgId then
    match ack2Msg.deserialize buf with
    | .error _ => st
    | .ok ack2 =>
        if ack2.toRtpsAckMsg.isFor info then (recordPeer knownPeers ack2.receiverId, ackMsg, ack2)
        else (knownPeers, ackMsg, ack2)
  else if checkId buf rtpsAckMsgId then
    match ackMsg.deserialize buf with
    | .error _ => st
    | .ok ack =>
        if ack.isFor info then (recordPeer knownPeers ack.receiverId, ack, ack2Msg)
        else (knownPeers, ack, ack2Msg)
  else st

/-- The start of the next round of the wait. -/
def Sending.nextRound (snd : Sending) : Sending :=
  { snd with
    round := snd.round + 1
    gotNack := false
    nackFromUnknownPeer := false
    missingUnion := [] }

/-- The page was sent again in the round before, several receivers are known, and no NACK
of this round came from an unknown one. -/
def Sending.suppressed (snd : Sending) (knownPeers : List UInt32) (p : ℕ) : Bool :=
  2 ≤ knownPeers.length && !snd.nackFromUnknownPeer && 0 < snd.round
    && snd.lastRetransmitRound[p]? = some (some (snd.round - 1))

/-- The pages that a round sends again. -/
def Sending.resend (snd : Sending) (knownPeers : List UInt32) : List ℕ :=
  snd.missingUnion.filter fun p => !snd.suppressed knownPeers p

/-- The pages with these numbers. -/
def Sending.pagesAt (snd : Sending) (numbers : List ℕ) : List (List UInt8) :=
  numbers.filterMap fun p => snd.pages[p - 1]?

/-- The wait of a round is over: the call returns with the acknowledgment it has, or sends
the missing pages again and starts another round.  `drained` are the frames found in the
queue; `localFail` names the pages sent before one fails to leave the host. -/
def roundEnd (senderId : UInt32) (knownPeers : List UInt32) (snd : Sending)
    (drained : List (List UInt8)) (localFail : Option (List ℕ)) : Sent :=
  let heartbeat :=
    if snd.options.sendHeartbeat then
      [sendHeartbeat senderId snd.info true false (.ofNat (snd.round + 2))]
    else []
  match snd.matchedAck with
  | some ack =>
      let status :=
        if snd.options.integrity = .crc32c
            ∧ (ack.integrityFlags &&& 0x01 = 0 ∨ ack.payloadCrc32c ≠ snd.crc32c) then
          SendStatus.failedIntegrity
        else .deliveredAcked
      .done (drained.foldl (drainOne snd.info) (knownPeers, default, default)).1 []
        { status := status, crc32c := snd.crc32c, ackCrc32c := ack.payloadCrc32c,
          sequence := snd.info.sequence }
  | none =>
      if ¬ snd.gotNack ∨ snd.missingUnion = [] then
        let repeat_ : Bool := snd.hbRepeat < maxHeartbeatRepeat
        { sending := some
            { snd.nextRound with
              hbRepeat :=
                if snd.options.sendHeartbeat && repeat_ then snd.hbRepeat + 1 else snd.hbRepeat }
          knownPeers := knownPeers
          data := if repeat_ then heartbeat else []
          report := none }
      else
        let resend := snd.resend knownPeers
        match localFail with
        | some sent =>
            .done knownPeers (snd.pagesAt (resend.filter fun p => sent.contains p))
              { status := .failedLocalSend, crc32c := snd.crc32c, ackCrc32c := 0,
                sequence := snd.info.sequence }
        | none =>
            { sending := some
                { snd.nextRound with
                  lastRetransmitRound := resend.foldl
                    (fun last p => last.set p (some snd.round)) snd.lastRetransmitRound }
              knownPeers := knownPeers
              data := snd.pagesAt resend ++ heartbeat
              report := none }

/-- The time of a waiting call is up. -/
def timeOut (knownPeers : List UInt32) (snd : Sending) : Option Sent :=
  if snd.matchedAck.isSome then none
  else
    some (.done knownPeers []
      { status := .failedTimeout, crc32c := snd.crc32c, ackCrc32c := 0,
        sequence := snd.info.sequence })

/-! ## What every event keeps -/

/-- The datagram is a heartbeat. -/
def IsHeartbeat (datagram : List UInt8) : Prop :=
  ∃ m : RtpsHeartbeatMsg, datagram = m.serialize

/-- The buffer is one whose sending is begun: it has as many pages as its first tail says,
and this tail names the message. -/
def Announces (publishData : List UInt8) (info : ChunkMeta) : Prop :=
  ∃ first tail, (wirePages publishData)[0]? = some first ∧ parseTail first = some tail ∧
    tail.Matches info ∧ info.pageCnt.toNat = (wirePages publishData).length

/-- What a send under way keeps: its variables belong to one buffer, and the checksum is
that of its on-wire bytes. -/
structure Sending.Sound (snd : Sending) : Prop where
  announces : Announces snd.publishData snd.info
  crc : snd.options.integrity = .crc32c → snd.crc32c = Udp.crc32c (onWire snd.publishData)

/-- What an event of a send of `publishData` keeps. -/
structure Sent.Spec (publishData : List UInt8) (out : Sent) : Prop where
  data : ∀ datagram ∈ out.data, datagram ∈ wirePages publishData ∨ IsHeartbeat datagram
  sending : ∀ snd ∈ out.sending, snd.publishData = publishData ∧ snd.Sound ∧ snd.matchedAck = none

theorem isHeartbeat_sendHeartbeat (senderId : UInt32) (info : ChunkMeta) (reliable finalHb : Bool)
    (round : UInt16) : IsHeartbeat (sendHeartbeat senderId info reliable finalHb round) :=
  ⟨_, rfl⟩

theorem Sent.Spec.done {publishData : List UInt8} {knownPeers : List UInt32}
    {data : List (List UInt8)} {report : SendReport}
    (hdata : ∀ datagram ∈ data, datagram ∈ wirePages publishData ∨ IsHeartbeat datagram) :
    (Sent.done knownPeers data report).Spec publishData where
  data := hdata
  sending := fun _ h => nomatch h

/-- A call up to its first wait sends its pages and heartbeats only, and only where its
first tail names the message; it does not report a delivery. -/
theorem beginSend_spec (senderId sequence : UInt32) (knownPeers : List UInt32)
    (publishData : List UInt8) (options : SendOptions) (localFail : Option ℕ) :
    (beginSend senderId sequence knownPeers publishData options localFail).Spec publishData ∧
      (∀ report ∈ (beginSend senderId sequence knownPeers publishData options localFail).report,
        report.status ≠ .deliveredAcked) ∧
      ((beginSend senderId sequence knownPeers publishData options localFail).data = [] ∨
        ∃ info, Announces publishData info) := by
  have hnil : ∀ datagram ∈ ([] : List (List UInt8)),
      datagram ∈ wirePages publishData ∨ IsHeartbeat datagram := fun _ h => nomatch h
  unfold beginSend
  dsimp only
  split
  · exact ⟨.done hnil, fun _ h => by cases h; exact nofun, Or.inl rfl⟩
  split
  · exact ⟨.done hnil, fun _ h => by cases h; exact nofun, Or.inl rfl⟩
  split
  · exact ⟨.done hnil, fun _ h => by cases h; exact nofun, Or.inl rfl⟩
  rename_i tail htail
  split
  · exact ⟨.done hnil, fun _ h => by cases h; exact nofun, Or.inl rfl⟩
  split
  · exact ⟨.done hnil, fun _ h => by cases h; exact nofun, Or.inl rfl⟩
  rename_i hcnt
  obtain ⟨first, hfirst, hparse⟩ := Option.bind_eq_some_iff.mp htail
  set info : ChunkMeta :=
    { pageCnt := tail.pageCnt, totalSize := tail.totalSize, msgId := tail.msgId,
      sequence := sequence } with hinfo
  have hannounces : Announces publishData info :=
    ⟨first, tail, by rw [← List.head?_eq_getElem?]; exact hfirst, hparse, ⟨rfl, rfl, rfl⟩,
      not_not.mp hcnt⟩
  have hheartbeat : ∀ (b : Bool) (reliable finalHb : Bool) (round : UInt16),
      ∀ datagram ∈ (if b then [sendHeartbeat senderId info reliable finalHb round] else []),
        IsHeartbeat datagram := by
    intro b reliable finalHb round datagram hmem
    split at hmem
    · rw [List.mem_singleton.mp hmem]
      exact isHeartbeat_sendHeartbeat ..
    · cases hmem
  split
  · refine ⟨.done fun datagram hmem => ?_, fun _ h => by cases h; exact nofun,
      Or.inr ⟨info, hannounces⟩⟩
    rcases List.mem_append.mp hmem with hlead | hpage
    · exact Or.inr (hheartbeat _ _ _ _ _ hlead)
    · exact Or.inl (List.mem_of_mem_take hpage)
  · have hdata : ∀ datagram ∈
        (if options.sendHeartbeat && decide (options.delivery = .reliable) then
          [sendHeartbeat senderId info true false 0] else [])
        ++ wirePages publishData
        ++ (if options.sendHeartbeat && (decide (options.delivery = .reliable)
              || decide (info.pageCnt.toNat ≥ bestEffortHeartbeatMinPages)) then
            [sendHeartbeat senderId info (decide (options.delivery = .reliable))
              (!decide (options.delivery = .reliable)) 1] else []),
        datagram ∈ wirePages publishData ∨ IsHeartbeat datagram := by
      intro datagram hmem
      rcases List.mem_append.mp hmem with hmem | hend
      · rcases List.mem_append.mp hmem with hlead | hpage
        · exact Or.inr (hheartbeat _ _ _ _ _ hlead)
        · exact Or.inl hpage
      · exact Or.inr (hheartbeat _ _ _ _ _ hend)
    split
    · exact ⟨.done hdata, fun _ h => by cases h; exact nofun, Or.inr ⟨info, hannounces⟩⟩
    · refine ⟨⟨hdata, ?_⟩, fun _ h => (nomatch h), Or.inr ⟨info, hannounces⟩⟩
      intro snd hsnd
      cases hsnd
      exact ⟨rfl, ⟨hannounces, fun h => if_pos h⟩, rfl⟩

/-- **A frame on the ACK endpoint.**  It changes nothing about what is being sent, and is
taken for an acknowledgment only if it says that it is one, for this message. -/
theorem collect_spec {knownPeers knownPeers' : List UInt32} {snd snd' : Sending}
    {buf : List UInt8} (h : collect knownPeers snd buf = some (knownPeers', snd')) :
    snd'.publishData = snd.publishData ∧ snd'.info = snd.info ∧ snd'.options = snd.options ∧
      snd'.crc32c = snd.crc32c ∧
      ∀ ack ∈ snd'.matchedAck, ack.isFor snd.info = true ∧
        (checkId buf rtpsAckMsgId = true ∧ snd.ackMsg.deserialize buf = .ok ack ∨
          checkId buf rtpsAck2MsgId = true ∧ ∃ ack2, snd.ack2Msg.deserialize buf = .ok ack2 ∧
            ack = ack2.toRtpsAckMsg) := by
  unfold collect at h
  split at h
  · cases h
  rename_i hnone
  have hwaiting : snd.matchedAck = none := by simpa using hnone
  have hkeep : ∀ ack ∈ snd.matchedAck, ack.isFor snd.info = true ∧
        (checkId buf rtpsAckMsgId = true ∧ snd.ackMsg.deserialize buf = .ok ack ∨
          checkId buf rtpsAck2MsgId = true ∧ ∃ ack2, snd.ack2Msg.deserialize buf = .ok ack2 ∧
            ack = ack2.toRtpsAckMsg) := by
    rw [hwaiting]
    exact fun _ h => nomatch h
  split at h
  · rename_i hid
    split at h
    · cases h
    · rename_i ack hack
      dsimp only at h
      split at h <;> cases h
      · rename_i hfor
        refine ⟨rfl, rfl, rfl, rfl, fun _ heq => ?_⟩
        cases heq
        exact ⟨hfor, Or.inl ⟨hid, hack⟩⟩
      · exact ⟨rfl, rfl, rfl, rfl, hkeep⟩
  split at h
  · rename_i hid
    split at h
    · cases h
    · rename_i ack2 hack2
      dsimp only at h
      split at h <;> cases h
      · rename_i hfor
        refine ⟨rfl, rfl, rfl, rfl, fun _ heq => ?_⟩
        cases heq
        exact ⟨hfor, Or.inr ⟨hid, ack2, hack2, rfl⟩⟩
      · exact ⟨rfl, rfl, rfl, rfl, hkeep⟩
  split at h
  · split at h
    · cases h
    · split at h <;> cases h
      · exact ⟨rfl, rfl, rfl, rfl, hkeep⟩
      · exact ⟨rfl, rfl, rfl, rfl, hkeep⟩
  split at h
  · split at h
    · cases h
    · dsimp only at h
      split at h <;> cases h
      · exact ⟨rfl, rfl, rfl, rfl, hkeep⟩
      · exact ⟨rfl, rfl, rfl, rfl, hkeep⟩
  · cases h
    exact ⟨rfl, rfl, rfl, rfl, hkeep⟩

theorem mem_pages_of_mem_pagesAt {snd : Sending} {numbers : List ℕ} {datagram : List UInt8}
    (h : datagram ∈ snd.pagesAt numbers) : datagram ∈ snd.pages := by
  obtain ⟨p, _, hp⟩ := List.mem_filterMap.mp h
  exact List.mem_of_getElem? hp

/-- **The end of a round.**  It sends pages and heartbeats of the same message; it reports a
delivery only with a matching acknowledgment, whose checksum is the message's if the send
asked for integrity. -/
theorem roundEnd_spec (senderId : UInt32) (knownPeers : List UInt32) {snd : Sending}
    (drained : List (List UInt8)) (localFail : Option (List ℕ)) (hsound : snd.Sound) :
    (roundEnd senderId knownPeers snd drained localFail).Spec snd.publishData ∧
      (∀ snd' ∈ (roundEnd senderId knownPeers snd drained localFail).sending,
        snd'.info = snd.info ∧ snd'.options = snd.options) ∧
      ∀ report ∈ (roundEnd senderId knownPeers snd drained localFail).report,
        report.status = .deliveredAcked → ∃ ack ∈ snd.matchedAck,
          (snd.options.integrity = .crc32c →
            ack.payloadCrc32c = Udp.crc32c (onWire snd.publishData)) := by
  have hheartbeat : ∀ datagram ∈ (if snd.options.sendHeartbeat then
      [sendHeartbeat senderId snd.info true false (.ofNat (snd.round + 2))] else []),
      datagram ∈ wirePages snd.publishData ∨ IsHeartbeat datagram := by
    intro datagram hmem
    split at hmem
    · rw [List.mem_singleton.mp hmem]
      exact Or.inr (isHeartbeat_sendHeartbeat ..)
    · cases hmem
  unfold roundEnd
  dsimp only
  split
  · rename_i ack hack
    refine ⟨.done fun _ h => (nomatch h), fun _ h => (nomatch h), fun report hreport hstatus => ?_⟩
    cases hreport
    refine ⟨ack, hack, fun hcrc => ?_⟩
    dsimp only at hstatus
    split at hstatus
    · cases hstatus
    · rename_i hgood
      rw [← hsound.crc hcrc]
      by_contra hne
      exact hgood ⟨hcrc, Or.inr hne⟩
  · rename_i hnone
    split
    · refine ⟨⟨fun datagram hmem => ?_, fun _ h => ?_⟩, fun _ h => ?_, fun _ h => nomatch h⟩
      · dsimp only at hmem
        split at hmem
        · exact hheartbeat datagram hmem
        · cases hmem
      · cases h
        exact ⟨rfl, ⟨hsound.announces, hsound.crc⟩, hnone⟩
      · cases h
        exact ⟨rfl, rfl⟩
    · split
      · refine ⟨.done fun datagram hmem => Or.inl (mem_pages_of_mem_pagesAt hmem),
          fun _ h => (nomatch h), fun report hreport hstatus => ?_⟩
        cases hreport
        cases hstatus
      · refine ⟨⟨fun datagram hmem => ?_, fun _ h => ?_⟩, fun _ h => ?_, fun _ h => nomatch h⟩
        · rcases List.mem_append.mp hmem with hpage | hhb
          · exact Or.inl (mem_pages_of_mem_pagesAt hpage)
          · exact hheartbeat datagram hhb
        · cases h
          exact ⟨rfl, ⟨hsound.announces, hsound.crc⟩, hnone⟩
        · cases h
          exact ⟨rfl, rfl⟩

end DzIpc.Udp
