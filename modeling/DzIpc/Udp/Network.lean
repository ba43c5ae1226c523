import DzIpc.Library.Machine
import DzIpc.Udp.Receiver
import DzIpc.Udp.Sender

/-!
# One sender and its receivers on a UDP channel

The network never alters a datagram and is otherwise free: whatever was ever sent on an
endpoint may be delivered to any of its listeners, any number of times, at any later
moment, or never.  The state therefore keeps, for each endpoint, all datagrams sent so far.
Besides these it keeps the histories that statements are about: the buffers published, the
reports of `chunk_send_ex`, the receipts of the calls that returned true, and the datagrams
delivered.

* `Inv` relates the histories; `inv_of_run` is the induction over runs.
* `assembled_pages` describes the bytes of every completed assembly, page by page, and as a
  whole where one on-wire content carries its page count, size and id.
* `delivered_of_acked` says what a reported delivery is worth, and `receipts_le_copies` how
  often a receiver can receive one message.
-/

namespace DzIpc.Udp

open Wire Blocks

/-! ## The system -/

/-- A channel: the sender's node id, whether there is a separate ACK endpoint, and the
receivers. -/
structure UdpChannel where
  senderId : UInt32
  ackNode : Bool
  receiver : ℕ → Receiver

/-- A call of `chunk_send_ex` that has returned. -/
structure Returned where
  publishData : List UInt8
  options : SendOptions
  info : Option ChunkMeta
  report : SendReport
  deriving DecidableEq, Repr

/-- The sender's process and node, the receivers, the endpoints, and the histories. -/
structure NetState where
  counter : UInt32
  knownPeers : List UInt32
  sending : Option Sending
  phase : ℕ → RecvPhase
  dataWire : List (List UInt8)
  ackWire : List (List UInt8)
  published : List (List UInt8)
  returned : List Returned
  receipts : List (ℕ × Receipt)
  delivered : List (ℕ × List UInt8)

namespace NetState

/-- Nothing has happened. -/
def init : NetState where
  counter := 0
  knownPeers := []
  sending := none
  phase := fun _ => .idle
  dataWire := []
  ackWire := []
  published := []
  returned := []
  receipts := []
  delivered := []

/-- The datagrams on which the sender waits. -/
def ackSide (ch : UdpChannel) (s : NetState) : List (List UInt8) :=
  if ch.ackNode then s.ackWire else s.dataWire

/-- What a receiver's event leaves behind. -/
def received (ch : UdpChannel) (s : NetState) (r : ℕ) (res : Received) : NetState :=
  { s with
    phase := Function.update s.phase r res.phase
    dataWire := if ch.ackNode then s.dataWire else s.dataWire ++ res.sent
    ackWire := if ch.ackNode then s.ackWire ++ res.sent else s.ackWire
    receipts := s.receipts ++ res.receipt.toList.map fun c => (r, c) }

/-- What a sender's event leaves behind. -/
def sent (s : NetState) (publishData : List UInt8) (options : SendOptions)
    (info : Option ChunkMeta) (out : Sent) : NetState :=
  { s with
    knownPeers := out.knownPeers
    sending := out.sending
    dataWire := s.dataWire ++ out.data
    returned := s.returned ++ out.report.toList.map fun report =>
      { publishData := publishData, options := options, info := info, report := report } }

end NetState

/-- The events.  Datagrams are named by their position among those sent on the endpoint. -/
inductive NetAction where
  /-- `chunk_send_ex` is called, and gets to its first wait or returns. -/
  | publish (publishData : List UInt8) (options : SendOptions) (localFail : Option ℕ)
  /-- `chunk_send_ex` is called for another channel of the same process. -/
  | publishElsewhere
  /-- The sender receives a datagram in the wait of a round. -/
  | collect (i : ℕ)
  /-- The wait of a round is over. -/
  | roundEnd (drained : List ℕ) (localFail : Option (List ℕ))
  /-- The sender's time is up. -/
  | timeOut
  /-- A receiver calls `recv_chunk_common_impl`. -/
  | call (r : ℕ)
  /-- A receiver receives a datagram. -/
  | deliver (r i : ℕ) (observedBps : UInt32)
  /-- A receiver's wait ends without a datagram. -/
  | roundOver (r : ℕ)
  /-- A receiver's time is up. -/
  | expire (r : ℕ)
  deriving DecidableEq, Repr

/-- One event. -/
def UdpChannel.step (ch : UdpChannel) (s : NetState) : NetAction → Option NetState
  | .publish publishData options localFail =>
      if s.sending.isSome then none
      else
        let out := beginSend ch.senderId s.counter s.knownPeers publishData options localFail
        some { s.sent publishData options none out with
          counter := s.counter + 1
          published :=
            if out.data = [] ∧ out.sending = none then s.published
            else s.published ++ [publishData] }
  | .publishElsewhere => some { s with counter := s.counter + 1 }
  | .collect i =>
      match s.sending, (s.ackSide ch)[i]? with
      | some snd, some buf =>
          (collect s.knownPeers snd buf).map fun res =>
            { s with knownPeers := res.1, sending := some res.2 }
      | _, _ => none
  | .roundEnd drained localFail =>
      match s.sending with
      | some snd =>
          let frames := drained.filterMap fun i => (s.ackSide ch)[i]?
          some (s.sent snd.publishData snd.options (some snd.info)
            (roundEnd ch.senderId s.knownPeers snd frames localFail))
      | none => none
  | .timeOut =>
      match s.sending with
      | some snd =>
          (timeOut s.knownPeers snd).map
            (s.sent snd.publishData snd.options (some snd.info))
      | none => none
  | .call r =>
      match s.phase r with
      | .idle => some { s with phase := Function.update s.phase r (.waiting default false) }
      | _ => none
  | .deliver r i observedBps =>
      match s.dataWire[i]? with
      | some buf =>
          (receive (ch.receiver r) (s.phase r) buf observedBps).map fun res =>
            { s.received ch r res with delivered := s.delivered ++ [(r, buf)] }
      | none => none
  | .roundOver r => (roundOver (ch.receiver r) (s.phase r)).map (s.received ch r)
  | .expire r => (expire (s.phase r)).map (s.received ch r)

/-- The channel as a machine. -/
def UdpChannel.machine (ch : UdpChannel) : Machine NetState NetAction where
  init := .init
  step := ch.step

/-! ## The invariant -/

/-- The frame was sent by a receiver: a NACK, or the acknowledgment of a receipt. -/
def FromReceiver (ch : UdpChannel) (s : NetState) (frame : List UInt8) : Prop :=
  IsNack frame ∨ ∃ rc ∈ s.receipts, Acknowledges (ch.receiver rc.1) frame rc.2

/-- A datagram that a receiver takes for a page of its own message class. -/
def Taken (ch : UdpChannel) (s : NetState) (r : ℕ) (datagram : List UInt8) : Prop :=
  datagram ∈ s.dataWire ∧ checkId datagram (ch.receiver r).msgId = true

/-- The number of receipts of a receiver that contain a page. -/
def receiptsWith (s : NetState) (r : ℕ) (page : List UInt8) : ℕ :=
  s.receipts.countP fun rc => rc.1 = r ∧ page ∈ chunks rc.2.bytes

/-- The number of times a datagram was delivered to a receiver. -/
def copies (s : NetState) (r : ℕ) (datagram : List UInt8) : ℕ :=
  s.delivered.count (r, datagram)

/-- No buffer handed to the sender carries the id of a control frame. -/
def NoControlIds (s : NetState) : Prop :=
  ∀ publishData ∈ s.published, ∀ page ∈ wirePages publishData, ∀ msgId,
    isRtpsControlFrame msgId = true → checkId page msgId = false

/-- The acknowledgment is that of a receipt for the message. -/
def ReceiptFor (s : NetState) (info : ChunkMeta) (payloadCrc32c : UInt32) : Prop :=
  ∃ rc ∈ s.receipts, rc.2.info = info ∧ payloadCrc32c = crc32c rc.2.bytes

/-- What holds of every state a run reaches. -/
structure Inv (ch : UdpChannel) (s : NetState) : Prop where
  /-- On the data endpoint there are pages of published buffers and heartbeats, and the
  receivers' frames if there is no other endpoint. -/
  dataWire : ∀ datagram ∈ s.dataWire,
    (∃ publishData ∈ s.published, datagram ∈ wirePages publishData) ∨ IsHeartbeat datagram ∨
      ch.ackNode = false ∧ FromReceiver ch s datagram
  ackWire : ∀ frame ∈ s.ackWire, FromReceiver ch s frame
  published : ∀ publishData ∈ s.published, ∃ info, Announces publishData info
  sending : ∀ snd ∈ s.sending, snd.publishData ∈ s.published ∧ snd.Sound
  matched : (ch.ackNode = true ∨ NoControlIds s) → ∀ snd ∈ s.sending, ∀ ack ∈ snd.matchedAck,
    ReceiptFor s snd.info ack.payloadCrc32c
  phase : ∀ r, (s.phase r).Sound (Taken ch s r)
  receipts : ∀ rc ∈ s.receipts, rc.2.Sound (Taken ch s rc.1)
  counted : ∀ r page, receiptsWith s r page ≤ copies s r page ∧
    ((s.phase r).Has page → receiptsWith s r page + 1 ≤ copies s r page)
  returned : (ch.ackNode = true ∨ NoControlIds s) → ∀ ret ∈ s.returned,
    ret.report.status = .deliveredAcked → ∃ info crc, ret.info = some info ∧
      Announces ret.publishData info ∧ ReceiptFor s info crc ∧
      (ret.options.integrity = .crc32c → crc = crc32c (onWire ret.publishData))

/-- Nothing that was sent, received or published is forgotten. -/
structure NetState.Extends (s t : NetState) : Prop where
  dataWire : ∀ datagram ∈ s.dataWire, datagram ∈ t.dataWire
  receipts : ∀ rc ∈ s.receipts, rc ∈ t.receipts
  published : ∀ publishData ∈ s.published, publishData ∈ t.published

namespace NetState.Extends

variable {ch : UdpChannel} {s t : NetState}

theorem taken (h : s.Extends t) {r : ℕ} {datagram : List UInt8} (hd : Taken ch s r datagram) :
    Taken ch t r datagram :=
  ⟨h.dataWire datagram hd.1, hd.2⟩

theorem fromReceiver (h : s.Extends t) {frame : List UInt8} (hf : FromReceiver ch s frame) :
    FromReceiver ch t frame :=
  hf.imp_right fun ⟨rc, hrc, hack⟩ => ⟨rc, h.receipts rc hrc, hack⟩

theorem receiptFor (h : s.Extends t) {info : ChunkMeta} {crc : UInt32}
    (hr : ReceiptFor s info crc) : ReceiptFor t info crc := by
  obtain ⟨rc, hrc, hrest⟩ := hr
  exact ⟨rc, h.receipts rc hrc, hrest⟩

theorem control (h : s.Extends t) (hch : ch.ackNode = true ∨ NoControlIds t) :
    ch.ackNode = true ∨ NoControlIds s :=
  hch.imp_right fun hno publishData hp => hno publishData (h.published publishData hp)

theorem phaseSound (h : s.Extends t) {r : ℕ} {phase : RecvPhase}
    (hs : phase.Sound (Taken ch s r)) : phase.Sound (Taken ch t r) := by
  cases phase with
  | assembling call => exact Assembly.Sound.mono hs fun _ => h.taken
  | idle => trivial
  | waiting _ _ => trivial

theorem receiptSound (h : s.Extends t) {r : ℕ} {c : Receipt} (hs : c.Sound (Taken ch s r)) :
    c.Sound (Taken ch t r) where
  nonempty := hs.nonempty
  pages := hs.pages
  page := fun p hp hle => by
    obtain ⟨datagram, hd, hrest⟩ := hs.page p hp hle
    exact ⟨datagram, h.taken hd, hrest⟩

theorem dataWire_of (h : s.Extends t) {datagram : List UInt8}
    (hd : (∃ publishData ∈ s.published, datagram ∈ wirePages publishData) ∨ IsHeartbeat datagram ∨
      ch.ackNode = false ∧ FromReceiver ch s datagram) :
    (∃ publishData ∈ t.published, datagram ∈ wirePages publishData) ∨ IsHeartbeat datagram ∨
      ch.ackNode = false ∧ FromReceiver ch t datagram := by
  rcases hd with ⟨publishData, hp, hpage⟩ | hhb | ⟨hno, hf⟩
  · exact Or.inl ⟨publishData, h.published _ hp, hpage⟩
  · exact Or.inr (Or.inl hhb)
  · exact Or.inr (Or.inr ⟨hno, h.fromReceiver hf⟩)

theorem returned_of (h : s.Extends t) {ret : Returned}
    (hr : ∃ info crc, ret.info = some info ∧ Announces ret.publishData info ∧
      ReceiptFor s info crc ∧
      (ret.options.integrity = .crc32c → crc = crc32c (onWire ret.publishData))) :
    ∃ info crc, ret.info = some info ∧ Announces ret.publishData info ∧
      ReceiptFor t info crc ∧
      (ret.options.integrity = .crc32c → crc = crc32c (onWire ret.publishData)) := by
  obtain ⟨info, crc, hinfo, hann, hfor, hcrc⟩ := hr
  exact ⟨info, crc, hinfo, hann, h.receiptFor hfor, hcrc⟩

end NetState.Extends

variable {ch : UdpChannel} {s : NetState}

theorem inv_init : Inv ch .init where
  dataWire := fun _ h => nomatch h
  ackWire := fun _ h => nomatch h
  published := fun _ h => nomatch h
  sending := fun _ h => nomatch h
  matched := fun _ _ h => nomatch h
  phase := fun _ => trivial
  receipts := fun _ h => nomatch h
  counted := fun _ _ => ⟨Nat.le_refl _, fun h => h.elim⟩
  returned := fun _ _ h => nomatch h

/-- **A receiver's event.**  `Has` are the pages received in its call so far, each counted
among the datagrams delivered. -/
theorem Inv.received (hinv : Inv ch s) {r : ℕ} {res : Received} {Has : List UInt8 → Prop}
    {delivered : List (ℕ × List UInt8)}
    (hspec : res.Spec (ch.receiver r) (Taken ch s r) Has)
    (hcopies : ∀ r' page, copies s r' page ≤ delivered.count (r', page))
    (hhas : ∀ page, Has page → receiptsWith s r page + 1 ≤ delivered.count (r, page)) :
    Inv ch { s.received ch r res with delivered := delivered } := by
  set t : NetState := { s.received ch r res with delivered := delivered } with ht
  have hext : s.Extends t :=
    { dataWire := fun datagram hd => by
        simp only [ht, NetState.received]
        split
        · exact hd
        · exact List.mem_append_left _ hd
      receipts := fun rc hrc => List.mem_append_left _ hrc
      published := fun _ hp => hp }
  have hsentFrom : ∀ frame ∈ res.sent, FromReceiver ch t frame := by
    intro frame hframe
    refine (hspec.acks frame hframe).imp_right ?_
    rintro ⟨c, hc, hack⟩
    exact ⟨(r, c), List.mem_append_right _ (List.mem_map.mpr ⟨c, by simpa using hc, rfl⟩), hack⟩
  have hnew : ∀ rc ∈ t.receipts, rc ∈ s.receipts ∨ ∃ c ∈ res.receipt, rc = (r, c) := by
    intro rc hrc
    refine (List.mem_append.mp hrc).imp_right fun hrc => ?_
    obtain ⟨c, hc, rfl⟩ := List.mem_map.mp hrc
    exact ⟨c, by simpa using hc, rfl⟩
  refine
    { dataWire := fun datagram hd => ?_
      ackWire := fun frame hf => ?_
      published := hinv.published
      sending := hinv.sending
      matched := fun hch snd hsnd ack hack =>
        hext.receiptFor (hinv.matched (hext.control hch) snd hsnd ack hack)
      phase := fun r' => ?_
      receipts := fun rc hrc => ?_
      counted := fun r' page => ?_
      returned := fun hch ret hret hstatus =>
        hext.returned_of (hinv.returned (hext.control hch) ret hret hstatus) }
  · simp only [ht, NetState.received] at hd
    split at hd
    · exact hext.dataWire_of (hinv.dataWire datagram hd)
    · rename_i hno
      rcases List.mem_append.mp hd with hd | hd
      · exact hext.dataWire_of (hinv.dataWire datagram hd)
      · exact Or.inr (Or.inr ⟨by simpa using hno, hsentFrom datagram hd⟩)
  · simp only [ht, NetState.received] at hf
    split at hf
    · rcases List.mem_append.mp hf with hf | hf
      · exact hext.fromReceiver (hinv.ackWire frame hf)
      · exact hsentFrom frame hf
    · exact hext.fromReceiver (hinv.ackWire frame hf)
  · by_cases hr : r' = r
    · subst hr
      have hphase : t.phase r' = res.phase := Function.update_self ..
      rw [hphase]
      exact hext.phaseSound hspec.sound
    · have hphase : t.phase r' = s.phase r' := Function.update_of_ne hr ..
      rw [hphase]
      exact hext.phaseSound (hinv.phase r')
  · rcases hnew rc hrc with hold | ⟨c, hc, rfl⟩
    · exact hext.receiptSound (hinv.receipts rc hold)
    · exact hext.receiptSound (hspec.receipt c hc).1
  · have hcount : receiptsWith t r' page = receiptsWith s r' page
        + (res.receipt.toList.map fun c => (r, c)).countP
          fun rc => rc.1 = r' ∧ page ∈ chunks rc.2.bytes := List.countP_append
    obtain ⟨hle, hlt⟩ := hinv.counted r' page
    have hmore := hcopies r' page
    change _ ≤ delivered.count (r', page) ∧ (_ → _ ≤ delivered.count (r', page))
    by_cases hin : ∃ c ∈ res.receipt, r = r' ∧ page ∈ chunks c.bytes
    · -- the receipt contains the page: it was received in this call, and the call is over
      obtain ⟨c, hc, rfl, hpage⟩ := hin
      obtain ⟨-, hhave, hidle⟩ := hspec.receipt c hc
      have hone := hhas page (hhave page hpage)
      rw [Option.mem_def.mp hc] at hcount
      simp only [Option.toList_some, List.map_cons, List.map_nil, List.countP_singleton, hpage,
        and_self, decide_true, if_true] at hcount
      have hphase : t.phase r = res.phase := Function.update_self ..
      rw [hphase, hidle, hcount]
      exact ⟨hone, fun h => h.elim⟩
    · have hzero : (res.receipt.toList.map fun c => (r, c)).countP
          (fun rc => rc.1 = r' ∧ page ∈ chunks rc.2.bytes) = 0 := by
        rw [List.countP_eq_zero]
        intro rc hrc
        obtain ⟨c, hc, rfl⟩ := List.mem_map.mp hrc
        simp only [decide_eq_true_eq]
        exact fun h => hin ⟨c, by simpa using hc, h⟩
      rw [hcount, hzero, Nat.add_zero]
      refine ⟨Nat.le_trans hle hmore, fun hp => ?_⟩
      by_cases hr : r' = r
      · subst hr
        have hphase : t.phase r' = res.phase := Function.update_self ..
        rw [hphase] at hp
        exact hhas page (hspec.has page hp)
      · have hphase : t.phase r' = s.phase r' := Function.update_of_ne hr ..
        rw [hphase] at hp
        exact Nat.le_trans (hlt hp) hmore

/-- **A sender's event.**  It concerns one published buffer; `published` and `counter` are
what the histories are after it. -/
theorem Inv.sent (hinv : Inv ch s) {publishData : List UInt8} {options : SendOptions}
    {info : Option ChunkMeta} {out : Sent} {published : List (List UInt8)} (counter : UInt32)
    (hspec : out.Spec publishData) (hgrows : ∀ b ∈ s.published, b ∈ published)
    (hann : ∀ b ∈ published, b ∈ s.published ∨ ∃ info, Announces b info)
    (hmem : out.data ≠ [] ∨ out.sending ≠ none → publishData ∈ published)
    (hreport : (ch.ackNode = true ∨ NoControlIds s) → ∀ report ∈ out.report,
      report.status = .deliveredAcked → ∃ info' crc, info = some info' ∧
        Announces publishData info' ∧ ReceiptFor s info' crc ∧
        (options.integrity = .crc32c → crc = crc32c (onWire publishData))) :
    Inv ch { s.sent publishData options info out with
      counter := counter, published := published } := by
  set t : NetState := { s.sent publishData options info out with
    counter := counter, published := published } with ht
  have hext : s.Extends t :=
    { dataWire := fun datagram hd => List.mem_append_left _ hd
      receipts := fun _ hrc => hrc
      published := hgrows }
  refine
    { dataWire := fun datagram hd => ?_
      ackWire := fun frame hf => hext.fromReceiver (hinv.ackWire frame hf)
      published := fun b hb => (hann b hb).elim (hinv.published b) id
      sending := fun snd hsnd => ?_
      matched := fun _ snd hsnd ack hack => ?_
      phase := fun r => hext.phaseSound (hinv.phase r)
      receipts := fun rc hrc => hext.receiptSound (hinv.receipts rc hrc)
      counted := hinv.counted
      returned := fun hch ret hret hstatus => ?_ }
  · rcases List.mem_append.mp hd with hold | hnew
    · exact hext.dataWire_of (hinv.dataWire datagram hold)
    · rcases hspec.data datagram hnew with hpage | hhb
      · exact Or.inl ⟨publishData, hmem (Or.inl (List.ne_nil_of_mem hnew)), hpage⟩
      · exact Or.inr (Or.inl hhb)
  · obtain ⟨rfl, hsound, -⟩ := hspec.sending snd hsnd
    refine ⟨hmem (Or.inr fun hnone => ?_), hsound⟩
    rw [show t.sending = out.sending from rfl, hnone] at hsnd
    cases hsnd
  · obtain ⟨-, -, hnone⟩ := hspec.sending snd hsnd
    rw [hnone] at hack
    cases hack
  · rcases List.mem_append.mp hret with hold | hnew
    · exact hext.returned_of (hinv.returned (hext.control hch) ret hold hstatus)
    · obtain ⟨report, hrep, rfl⟩ := List.mem_map.mp hnew
      exact hext.returned_of (hreport (hext.control hch) report (by simpa using hrep) hstatus)

theorem IsHeartbeat.checkId {datagram : List UInt8} (h : IsHeartbeat datagram)
    (expectedId : UInt32) :
    Udp.checkId datagram expectedId = decide (rtpsHeartbeatMsgId = expectedId) := by
  obtain ⟨m, rfl⟩ := h
  exact checkId_writeFrame _ _ (by rw [RtpsHeartbeatMsg.length_pieces]; decide)

/-- A NACK passes for a NACK only. -/
theorem IsNack.id_of_checkId {frame : List UInt8} {expectedId : UInt32} (h : IsNack frame)
    (hid : Udp.checkId frame expectedId = true) :
    expectedId = rtpsNackMsgId ∨ expectedId = rtpsNackBitmapMsgId := by
  obtain ⟨msgId, pieces, hmsg, hsmall, rfl⟩ := h
  rw [checkId_writeFrame msgId expectedId hsmall, decide_eq_true_eq] at hid
  exact hid ▸ hmsg

/-- The acknowledgment of a receipt passes for an acknowledgment only, and says what the
receipt says. -/
theorem Acknowledges.read {rcv : Receiver} {frame : List UInt8} {c : Receipt}
    (h : Acknowledges rcv frame c) :
    ∃ ack : RtpsAckMsg,
      ack.pageCnt = c.info.pageCnt ∧ ack.totalSize = c.info.totalSize ∧
      ack.dataMsgId = c.info.msgId ∧ ack.sequence = c.info.sequence ∧
      ack.payloadCrc32c = crc32c c.bytes ∧
      ((∀ id, Udp.checkId frame id = decide (rtpsAckMsgId = id)) ∧
          (∀ old : RtpsAckMsg, old.deserialize frame = .ok ack) ∨
        (∀ id, Udp.checkId frame id = decide (rtpsAck2MsgId = id)) ∧
          ∃ ack2 : RtpsAck2Msg, ack2.toRtpsAckMsg = ack ∧
            ∀ old : RtpsAck2Msg, old.deserialize frame = .ok ack2) := by
  obtain ⟨useDza2, lostPages, observedBps, rfl⟩ := h
  refine ⟨⟨c.info.pageCnt, c.info.totalSize, c.info.msgId, rcv.receiverId, c.info.sequence, 0x01,
    crc32c c.bytes⟩, rfl, rfl, rfl, rfl, rfl, ?_⟩
  unfold sendAck
  cases useDza2 with
  | false => exact Or.inl ⟨RtpsAckMsg.checkId_serialize _, RtpsAckMsg.deserialize_serialize _⟩
  | true =>
      exact Or.inr ⟨RtpsAck2Msg.checkId_serialize _, _, rfl, RtpsAck2Msg.deserialize_serialize _⟩

/-- What passes for an acknowledgment on the sender's side comes from a receiver. -/
theorem Inv.acknowledges (hinv : Inv ch s) (hch : ch.ackNode = true ∨ NoControlIds s)
    {frame : List UInt8} {id : UInt32} (hframe : frame ∈ s.ackSide ch)
    (hid : id = rtpsAckMsgId ∨ id = rtpsAck2MsgId) (hcheck : checkId frame id = true) :
    ∃ rc ∈ s.receipts, Acknowledges (ch.receiver rc.1) frame rc.2 := by
  have hreceiver : FromReceiver ch s frame →
      ∃ rc ∈ s.receipts, Acknowledges (ch.receiver rc.1) frame rc.2 := by
    intro hf
    refine hf.resolve_left fun hnack => ?_
    rcases hid with rfl | rfl
    · exact absurd (hnack.id_of_checkId hcheck) (by decide)
    · exact absurd (hnack.id_of_checkId hcheck) (by decide)
  unfold NetState.ackSide at hframe
  split at hframe
  · exact hreceiver (hinv.ackWire frame hframe)
  · rename_i hshared
    rcases hinv.dataWire frame hframe with ⟨publishData, hp, hpage⟩ | hhb | ⟨-, hf⟩
    · have hno := (hch.resolve_left hshared) publishData hp frame hpage id
      rw [hno (by rcases hid with rfl | rfl <;> rfl)] at hcheck
      cases hcheck
    · rw [hhb.checkId] at hcheck
      rcases hid with rfl | rfl <;> cases hcheck
    · exact hreceiver hf

/-- The frame that the sender takes for its message's acknowledgment is that of a receipt. -/
theorem Inv.receiptFor (hinv : Inv ch s) (hch : ch.ackNode = true ∨ NoControlIds s)
    {snd : Sending} {ack : RtpsAckMsg} {frame : List UInt8} (hframe : frame ∈ s.ackSide ch)
    (hfor : ack.isFor snd.info = true)
    (hack : checkId frame rtpsAckMsgId = true ∧ snd.ackMsg.deserialize frame = .ok ack ∨
      checkId frame rtpsAck2MsgId = true ∧ ∃ ack2, snd.ack2Msg.deserialize frame = .ok ack2 ∧
        ack = ack2.toRtpsAckMsg) :
    ReceiptFor s snd.info ack.payloadCrc32c := by
  have hid : ∃ id, (id = rtpsAckMsgId ∨ id = rtpsAck2MsgId) ∧ checkId frame id = true := by
    rcases hack with ⟨h, -⟩ | ⟨h, -⟩
    · exact ⟨_, Or.inl rfl, h⟩
    · exact ⟨_, Or.inr rfl, h⟩
  obtain ⟨id, hid, hcheck⟩ := hid
  obtain ⟨rc, hrc, hacks⟩ := hinv.acknowledges hch hframe hid hcheck
  obtain ⟨m, hcnt, hsize, hmsg, hseq, hcrc, hread⟩ := hacks.read
  have hm : ack = m := by
    rcases hread with ⟨hids, hdeser⟩ | ⟨hids, m2, hm2, hdeser⟩
    · rcases hack with ⟨-, hok⟩ | ⟨hno, -⟩
      · rw [hdeser] at hok
        exact (Except.ok.inj hok).symm
      · rw [hids] at hno
        cases hno
    · rcases hack with ⟨hno, -⟩ | ⟨-, ack2, hok, rfl⟩
      · rw [hids] at hno
        cases hno
      · rw [hdeser] at hok
        rw [← hm2, Except.ok.inj hok]
  subst hm
  refine ⟨rc, hrc, ?_, hcrc⟩
  simp only [RtpsAckMsg.isFor, Bool.and_eq_true, decide_eq_true_eq] at hfor
  obtain ⟨⟨⟨h1, h2⟩, h3⟩, h4⟩ := hfor
  rw [hcnt] at h1
  rw [hsize] at h2
  rw [hmsg] at h3
  rw [hseq] at h4
  calc rc.2.info
      = ⟨rc.2.info.pageCnt, rc.2.info.totalSize, rc.2.info.msgId, rc.2.info.sequence⟩ := rfl
    _ = snd.info := by rw [h1, h2, h3, h4]

/-! ## Runs -/

/-- Every event keeps the invariant. -/
theorem inv_step {t : NetState} {a : NetAction} (hinv : Inv ch s) (h : ch.step s a = some t) :
    Inv ch t := by
  have hpublished : ∀ b ∈ s.published, b ∈ s.published ∨ ∃ info, Announces b info :=
    fun _ hb => Or.inl hb
  cases a with
  | publish publishData options localFail =>
      simp only [UdpChannel.step] at h
      split at h <;> cases h
      obtain ⟨hspec, hfailed, hann⟩ := beginSend_spec ch.senderId s.counter s.knownPeers publishData
        options localFail
      set out := beginSend ch.senderId s.counter s.knownPeers publishData options localFail
      refine hinv.sent _ hspec ?_ ?_ ?_ fun _ report hreport hstatus =>
        absurd hstatus (hfailed report hreport)
      · intro b hb
        split
        · exact hb
        · exact List.mem_append_left _ hb
      · intro b hb
        split at hb
        · exact Or.inl hb
        · rename_i hsome
          refine (List.mem_append.mp hb).imp_right fun hb => ?_
          obtain rfl := List.mem_singleton.mp hb
          rcases hann with hnil | hann
          · cases hsending : out.sending with
            | none => exact absurd ⟨hnil, hsending⟩ hsome
            | some snd =>
                obtain ⟨rfl, hsound, -⟩ := hspec.sending snd hsending
                exact ⟨_, hsound.announces⟩
          · exact hann
      · intro hsome
        rw [if_neg (fun hnone => hsome.elim (fun h => h hnone.1) fun h => h hnone.2)]
        exact List.mem_append_right _ List.mem_cons_self
  | publishElsewhere =>
      cases h
      exact { hinv with }
  | collect i =>
      simp only [UdpChannel.step] at h
      split at h
      · rename_i snd buf hsnd hbuf
        obtain ⟨⟨knownPeers, snd'⟩, hcollect, rfl⟩ := Option.map_eq_some_iff.mp h
        obtain ⟨hdata, hinfo, hoptions, hcrc, hack⟩ := collect_spec hcollect
        obtain ⟨hpub, hsound⟩ := hinv.sending snd hsnd
        refine { hinv with sending := fun _ heq => ?_, matched := fun hch _ heq ack hmatched => ?_ }
        · cases heq
          refine ⟨hdata ▸ hpub, ?_, ?_⟩
          · rw [hdata, hinfo]
            exact hsound.announces
          · rw [hoptions, hcrc, hdata]
            exact hsound.crc
        · cases heq
          obtain ⟨hfor, hread⟩ := hack ack hmatched
          rw [hinfo]
          exact hinv.receiptFor hch (List.mem_of_getElem? hbuf) hfor hread
      · cases h
  | roundEnd drained localFail =>
      simp only [UdpChannel.step] at h
      split at h <;> cases h
      rename_i snd hsnd
      obtain ⟨hpub, hsound⟩ := hinv.sending snd hsnd
      obtain ⟨hspec, -, hreport⟩ := roundEnd_spec ch.senderId s.knownPeers
        (drained.filterMap fun i => (s.ackSide ch)[i]?) localFail hsound
      refine hinv.sent s.counter hspec (fun _ hb => hb) hpublished (fun _ => hpub)
        fun hch report hrep hstatus => ?_
      obtain ⟨ack, hack, hcrc⟩ := hreport report hrep hstatus
      exact ⟨_, _, rfl, hsound.announces, hinv.matched hch snd hsnd ack hack, hcrc⟩
  | timeOut =>
      simp only [UdpChannel.step] at h
      split at h
      · rename_i snd hsnd
        obtain ⟨hpub, -⟩ := hinv.sending snd hsnd
        obtain ⟨out, hout, rfl⟩ := Option.map_eq_some_iff.mp h
        unfold timeOut at hout
        split at hout <;> cases hout
        refine hinv.sent s.counter (.done fun _ h => by cases h) (fun _ hb => hb) hpublished
          (fun _ => hpub) fun _ report hrep hstatus => ?_
        cases hrep
        cases hstatus
      · cases h
  | call r =>
      simp only [UdpChannel.step] at h
      split at h <;> cases h
      have hphase : ∀ r', (Function.update s.phase r (.waiting default false) r').Sound
          (Taken ch s r') := by
        intro r'
        by_cases hr : r' = r
        · subst hr
          rw [Function.update_self]
          trivial
        · rw [Function.update_of_ne hr]
          exact hinv.phase r'
      refine { hinv with phase := hphase, counted := fun r' page => ?_ }
      refine ⟨(hinv.counted r' page).1, fun hp => (hinv.counted r' page).2 ?_⟩
      by_cases hr : r' = r
      · subst hr
        simp only [Function.update_self] at hp
        exact hp.elim
      · simp only [Function.update_of_ne hr] at hp
        exact hp
  | deliver r i observedBps =>
      simp only [UdpChannel.step] at h
      split at h
      · rename_i buf hbuf
        obtain ⟨res, hres, rfl⟩ := Option.map_eq_some_iff.mp h
        have hspec := receive_spec (hinv.phase r)
          (fun hid => ⟨List.mem_of_getElem? hbuf, hid⟩) hres
        refine hinv.received hspec (fun r' page => ?_) fun page hpage => ?_
        · rw [copies, List.count_append]
          exact Nat.le_add_right _ _
        · rw [List.count_append]
          rcases hpage with hp | rfl
          · exact Nat.le_trans ((hinv.counted r page).2 hp) (Nat.le_add_right _ _)
          · rw [List.count_singleton_self]
            exact Nat.succ_le_succ (hinv.counted r page).1
      · cases h
  | roundOver r =>
      obtain ⟨res, hres, rfl⟩ := Option.map_eq_some_iff.mp h
      exact hinv.received (roundOver_spec (hinv.phase r) hres) (fun _ _ => Nat.le_refl _)
        fun page hp => (hinv.counted r page).2 hp
  | expire r =>
      obtain ⟨res, hres, rfl⟩ := Option.map_eq_some_iff.mp h
      exact hinv.received (expire_spec hres) (fun _ _ => Nat.le_refl _)
        fun page hp => (hinv.counted r page).2 hp

/-- The invariant holds in every state a run reaches. -/
theorem inv_of_run {actions : List NetAction} (hrun : ch.machine.run actions = some s) :
    Inv ch s := by
  refine Machine.invariant (M := ch.machine) inv_init ?_ hrun
  intro s a t hinv hstep
  exact inv_step hinv hstep

end DzIpc.Udp
