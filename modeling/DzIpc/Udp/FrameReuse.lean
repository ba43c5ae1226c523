import DzIpc.Udp.FrameFields
import DzIpc.Udp.NackRuns
import DzIpc.Udp.RateLimit
import DzIpc.Udp.Receiver

/-!
# Loops that reuse their message objects

`chunk_send_ex`, `drain_record_acks` and `recv_chunk_common_impl` read all frames of one kind into
one object, and then compare its fields with the message under way.

* `FrameObjects.takes` is this comparison for the sending side; `collect_cases` and `drainFrame_cases`
  say that a frame which is not taken changes the objects only.
* `Waits.objects`, `drain_objects` and `Assembles.hbMsg`: in every run the objects are what the frames
  of this call have left.
* `takes_alike_iff` and `about_alike_iff`: a frame is taken because of what earlier frames have left,
  exactly where it has the wrong length and the last whole frame of its kind names the message.
-/

namespace DzIpc.Udp

open Wire

/-! ## The objects of a sender -/

/-- `ack_msg`, `ack2_msg` and `nb_msg`.  An explicit NACK overwrites its object. -/
structure FrameObjects where
  ack : RtpsAckMsg
  ack2 : RtpsAck2Msg
  bitmap : RtpsNackBitmapMsg
  deriving DecidableEq, Repr, Inhabited

namespace FrameObjects

/-- The objects after a frame; `nacks` says whether the loop looks at NACKs. -/
def see (nacks : Bool) (o : FrameObjects) (frame : List UInt8) : FrameObjects where
  ack := ackKind.see o.ack frame
  ack2 := ack2Kind.see o.ack2 frame
  bitmap := if nacks then bitmapKind.see o.bitmap frame else o.bitmap

/-- The frame, read into these objects, names the message. -/
def takes (nacks : Bool) (info : ChunkMeta) (o : FrameObjects) (frame : List UInt8) : Bool :=
  if checkId frame rtpsAckMsgId then (ackKind.read o.ack frame).isFor info
  else if checkId frame rtpsAck2MsgId then
    (ack2Kind.read o.ack2 frame).toRtpsAckMsg.isFor info
  else if ¬ nacks then false
  else if checkId frame rtpsNackMsgId then (nackKind.read default frame).head.isFor info
  else if checkId frame rtpsNackBitmapMsgId then (bitmapKind.read o.bitmap frame).head.isFor info
  else false

end FrameObjects

/-- A frame passes for one message id only. -/
theorem checkId_unique {frame : List UInt8} {a b : UInt32} (ha : checkId frame a = true)
    (hne : b ≠ a) : checkId frame b = false := by
  unfold checkId at ha ⊢
  split_ifs at ha ⊢
  rw [of_decide_eq_true ha]
  exact decide_eq_false hne.symm

/-! ## The wait of `chunk_send_ex` -/

def Sending.objects (snd : Sending) : FrameObjects where
  ack := snd.ackMsg
  ack2 := snd.ack2Msg
  bitmap := snd.nbMsg

def Sending.withObjects (snd : Sending) (o : FrameObjects) : Sending :=
  { snd with ackMsg := o.ack, ack2Msg := o.ack2, nbMsg := o.bitmap }

/-- A frame of one kind leaves the objects of the others. -/
theorem see_ack {frame : List UInt8} (hid : checkId frame rtpsAckMsgId = true) (nacks : Bool)
    (o : FrameObjects) : o.see nacks frame = { o with ack := ackKind.read o.ack frame } := by
  have hack2 : checkId frame ack2Kind.msgId = false := checkId_unique hid (by decide)
  have hbitmap : checkId frame bitmapKind.msgId = false := checkId_unique hid (by decide)
  have hack : checkId frame ackKind.msgId = true := hid
  simp [FrameObjects.see, FrameKind.see, hack, hack2, hbitmap]

theorem see_ack2 {frame : List UInt8} (hid : checkId frame rtpsAck2MsgId = true) (nacks : Bool)
    (o : FrameObjects) : o.see nacks frame = { o with ack2 := ack2Kind.read o.ack2 frame } := by
  have hack : checkId frame ackKind.msgId = false := checkId_unique hid (by decide)
  have hbitmap : checkId frame bitmapKind.msgId = false := checkId_unique hid (by decide)
  have hack2 : checkId frame ack2Kind.msgId = true := hid
  simp [FrameObjects.see, FrameKind.see, hack, hack2, hbitmap]

theorem see_other {frame : List UInt8} (hack : checkId frame rtpsAckMsgId = false)
    (hack2 : checkId frame rtpsAck2MsgId = false) (nacks : Bool) (o : FrameObjects) :
    o.see nacks frame
      = { o with bitmap := if nacks then bitmapKind.see o.bitmap frame else o.bitmap } := by
  have hack' : checkId frame ackKind.msgId = false := hack
  have hack2' : checkId frame ack2Kind.msgId = false := hack2
  simp [FrameObjects.see, FrameKind.see, hack', hack2']

/-- **One frame.**  It always changes the objects.  One that is not taken changes nothing else, one
that is taken is an acknowledgment or a NACK. -/
theorem collect_cases (knownPeers : List UInt32) {snd : Sending} (hwait : snd.matchedAck = none)
    (frame : List UInt8) : ∃ knownPeers' snd',
      collect knownPeers snd frame = some (knownPeers', snd') ∧
      snd'.objects = snd.objects.see true frame ∧
      (snd.objects.takes true snd.info frame = false →
        knownPeers' = knownPeers ∧ snd' = snd.withObjects (snd.objects.see true frame)) ∧
      (snd.objects.takes true snd.info frame = true →
        snd'.matchedAck.isSome = true ∨ snd'.gotNack = true) := by
  have hnot : ¬ snd.matchedAck.isSome = true := by
    rw [hwait]
    decide
  have hackRead : snd.ackMsg.deserialize frame = .ok (ackKind.read snd.ackMsg frame) :=
    ackLawful.deserialize_eq snd.ackMsg frame
  have hack2Read : snd.ack2Msg.deserialize frame = .ok (ack2Kind.read snd.ack2Msg frame) :=
    ack2Lawful.deserialize_eq snd.ack2Msg frame
  have hnackRead : RtpsNackMsg.deserialize frame = .ok (nackKind.read default frame) :=
    nackLawful.deserialize_eq default frame
  have hbitmapRead : snd.nbMsg.deserialize frame = .ok (bitmapKind.read snd.nbMsg frame) :=
    bitmapLawful.deserialize_eq snd.nbMsg frame
  rw [collect, if_neg hnot]
  unfold FrameObjects.takes
  by_cases hack : checkId frame rtpsAckMsgId = true
  · rw [if_pos hack, if_pos hack, see_ack hack, hackRead]
    dsimp only
    by_cases hfor : (ackKind.read snd.ackMsg frame).isFor snd.info = true
    · rw [if_pos hfor]
      exact ⟨_, _, rfl, rfl, fun hout => absurd hfor (Bool.eq_false_iff.mp hout),
        fun _ => Or.inl rfl⟩
    · rw [if_neg hfor]
      exact ⟨_, _, rfl, rfl, fun _ => ⟨rfl, rfl⟩, fun hin => absurd hin hfor⟩
  rw [if_neg hack, if_neg hack]
  by_cases hack2 : checkId frame rtpsAck2MsgId = true
  · rw [if_pos hack2, if_pos hack2, see_ack2 hack2, hack2Read]
    dsimp only
    by_cases hfor : (ack2Kind.read snd.ack2Msg frame).toRtpsAckMsg.isFor snd.info = true
    · rw [if_pos hfor]
      exact ⟨_, _, rfl, rfl, fun hout => absurd hfor (Bool.eq_false_iff.mp hout),
        fun _ => Or.inl rfl⟩
    · rw [if_neg hfor]
      exact ⟨_, _, rfl, rfl, fun _ => ⟨rfl, rfl⟩, fun hin => absurd hin hfor⟩
  rw [if_neg hack2, if_neg hack2, see_other (Bool.eq_false_iff.mpr hack)
    (Bool.eq_false_iff.mpr hack2), if_pos rfl, if_neg (not_not.mpr rfl : ¬ ¬ true = true)]
  by_cases hnack : checkId frame rtpsNackMsgId = true
  · have hbitmap : checkId frame bitmapKind.msgId = false := checkId_unique hnack (by decide)
    have hsee : bitmapKind.see snd.objects.bitmap frame = snd.objects.bitmap := by
      rw [FrameKind.see, hbitmap]
      rfl
    rw [if_pos hnack, if_pos hnack, hnackRead, hsee]
    dsimp only
    by_cases hfor : (nackKind.read default frame).head.isFor snd.info = true
    · rw [if_pos hfor]
      exact ⟨_, _, rfl, rfl, fun hout => absurd hfor (Bool.eq_false_iff.mp hout),
        fun _ => Or.inr rfl⟩
    · rw [if_neg hfor]
      exact ⟨_, _, rfl, rfl, fun _ => ⟨rfl, rfl⟩, fun hin => absurd hin hfor⟩
  rw [if_neg hnack, if_neg hnack]
  by_cases hbitmap : checkId frame rtpsNackBitmapMsgId = true
  · have hsee : bitmapKind.see snd.objects.bitmap frame = bitmapKind.read snd.nbMsg frame :=
      if_pos hbitmap
    rw [if_pos hbitmap, if_pos hbitmap, hbitmapRead, hsee]
    dsimp only
    by_cases hfor : (bitmapKind.read snd.nbMsg frame).head.isFor snd.info = true
    · rw [if_pos hfor]
      exact ⟨_, _, rfl, rfl, fun hout => absurd hfor (Bool.eq_false_iff.mp hout),
        fun _ => Or.inr rfl⟩
    · rw [if_neg hfor]
      exact ⟨_, _, rfl, rfl, fun _ => ⟨rfl, rfl⟩, fun hin => absurd hin hfor⟩
  · have hsee : bitmapKind.see snd.objects.bitmap frame = snd.objects.bitmap :=
      if_neg hbitmap
    rw [if_neg hbitmap, if_neg hbitmap, hsee]
    exact ⟨_, _, rfl, rfl, fun _ => ⟨rfl, rfl⟩, fun hin => absurd hin (by decide)⟩

/-- A reliable `chunk_send_ex` that waits, with the frames it has taken from the ACK endpoint.  What
the node knows of its receivers may change between two events. -/
inductive Waits (senderId : UInt32) : List (List UInt8) → Sending → Prop where
  | entered {sequence : UInt32} {knownPeers : List UInt32} {publishData : List UInt8}
      {options : SendOptions} {localFail : Option ℕ} {snd : Sending}
      (h : (beginSend senderId sequence knownPeers publishData options localFail).sending
        = some snd) : Waits senderId [] snd
  | frame {frames : List (List UInt8)} {snd snd' : Sending} {frame : List UInt8}
      {knownPeers knownPeers' : List UInt32} (hbefore : Waits senderId frames snd)
      (h : collect knownPeers snd frame = some (knownPeers', snd')) :
      Waits senderId (frames ++ [frame]) snd'
  | round {frames drained : List (List UInt8)} {snd snd' : Sending} {knownPeers : List UInt32}
      {localFail : Option (List ℕ)} (hbefore : Waits senderId frames snd)
      (h : (roundEnd senderId knownPeers snd drained localFail).sending = some snd') :
      Waits senderId frames snd'

theorem beginSend_objects {senderId sequence : UInt32} {knownPeers : List UInt32}
    {publishData : List UInt8} {options : SendOptions} {localFail : Option ℕ} {snd : Sending}
    (h : (beginSend senderId sequence knownPeers publishData options localFail).sending
      = some snd) : snd.objects = default := by
  unfold beginSend at h
  dsimp only at h
  split at h
  · cases h
  split at h
  · cases h
  split at h
  · cases h
  split at h
  · cases h
  split at h
  · cases h
  split at h
  · cases h
  split at h
  · cases h
  · cases h
    rfl

/-- The end of a round leaves the objects. -/
theorem roundEnd_objects {senderId : UInt32} {knownPeers : List UInt32} {snd snd' : Sending}
    {drained : List (List UInt8)} {localFail : Option (List ℕ)}
    (h : (roundEnd senderId knownPeers snd drained localFail).sending = some snd') :
    snd'.objects = snd.objects ∧ snd'.info = snd.info := by
  unfold roundEnd at h
  dsimp only at h
  split at h
  · cases h
  · split at h
    · cases h
      exact ⟨rfl, rfl⟩
    · split at h <;> cases h
      exact ⟨rfl, rfl⟩

namespace Waits

variable {senderId : UInt32} {frames : List (List UInt8)} {snd : Sending}

theorem objects (h : Waits senderId frames snd) :
    snd.objects = frames.foldl (FrameObjects.see true) default := by
  induction h with
  | entered h => exact beginSend_objects h
  | @frame frames snd snd' frame knownPeers knownPeers' hbefore h ih =>
      have hwait : snd.matchedAck = none := by
        by_contra hmatched
        rw [collect, if_pos (Option.isSome_iff_ne_none.mpr hmatched)] at h
        cases h
      obtain ⟨_, snd'', heq, hobjects, -, -⟩ := collect_cases knownPeers hwait frame
      obtain rfl := (Prod.mk.inj (Option.some.inj (h.symm.trans heq))).2
      rw [hobjects, ih, List.foldl_append, List.foldl_cons, List.foldl_nil]
  | round hbefore h ih => rw [(roundEnd_objects h).1, ih]

/-- The message has a page. -/
theorem pageCnt_ne (h : Waits senderId frames snd) : snd.info.pageCnt ≠ 0 := by
  induction h with
  | @entered sequence knownPeers publishData options localFail snd h =>
      have hannounces := ((beginSend_spec senderId sequence knownPeers publishData options
        localFail).1.sending snd h).2.1.announces
      obtain ⟨first, tail, hfirst, -, -, hcount⟩ := hannounces
      intro hzero
      rw [hzero] at hcount
      rw [List.eq_nil_of_length_eq_zero hcount.symm] at hfirst
      cases hfirst
  | frame hbefore h ih => rw [(collect_spec h).2.1]; exact ih
  | round hbefore h ih => rw [(roundEnd_objects h).2]; exact ih

end Waits

/-! ## `drain_record_acks` -/

/-- What `drain_record_acks` writes: the receivers known to the node, `seen`, its objects, and the
three outputs.  `runsFirst` is the map, newest entry first. -/
structure Drain where
  knownPeers : List UInt32
  seen : List UInt32
  objects : FrameObjects
  fMaxScaled : ℕ
  observedBps : UInt32
  runsFirst : List (UInt32 × RunsFirst)

namespace Drain

/-- `seen.insert`, and `record_peer_ack` where the receiver is new. -/
def recordAck (d : Drain) (receiverId : UInt32) : Drain :=
  if d.seen.contains receiverId then d
  else
    { d with
      seen := d.seen.insert receiverId
      knownPeers := recordPeer d.knownPeers receiverId }

/-- The losses that a NACK reports, from a receiver that is alive. -/
def recordLosses (d : Drain) (info : ChunkMeta) (runsCapture live : Bool) (receiverId : UInt32)
    (missCnt runs : ℕ) : Drain :=
  if missCnt > 0 ∧ live then
    { d with
      fMaxScaled := max d.fMaxScaled (scaledLossFraction missCnt info.pageCnt)
      runsFirst :=
        if runsCapture && !(d.runsFirst.map Prod.fst).contains receiverId then
          (receiverId, { captured := true, runs := runs, lost := missCnt }) :: d.runsFirst
        else d.runsFirst }
  else d

/-- The loop of `drain_record_acks`, for one frame; `live` is what `peer_is_live` says of its
receiver. -/
def frame (leaseMs : ℕ) (runsCapture : Bool) (info : ChunkMeta) (d : Drain)
    (received : List UInt8 × Bool) : Drain :=
  let (buf, live) := received
  if checkId buf rtpsAck2MsgId then
    let ack2 := ack2Kind.read d.objects.ack2 buf
    let d := { d with objects := { d.objects with ack2 := ack2 } }
    if ack2.toRtpsAckMsg.isFor info then
      { d.recordAck ack2.receiverId with
        fMaxScaled := max d.fMaxScaled (scaledLossFraction ack2.lostPages.toNat info.pageCnt)
        observedBps := ack2.observedBps }
    else d
  else if checkId buf rtpsAckMsgId then
    let ack := ackKind.read d.objects.ack buf
    let d := { d with objects := { d.objects with ack := ack } }
    if ack.isFor info then d.recordAck ack.receiverId else d
  else if leaseMs = 0 then d
  else if checkId buf rtpsNackMsgId then
    let nack := nackKind.read default buf
    if nack.head.isFor info then
      d.recordLosses info runsCapture live nack.head.receiverId (nack.missCnt info.pageCnt.toNat)
        (countExplicitRuns nack.missingPages info.pageCnt.toNat)
    else d
  else if checkId buf rtpsNackBitmapMsgId then
    let nb := bitmapKind.read d.objects.bitmap buf
    let d := { d with objects := { d.objects with bitmap := nb } }
    if nb.head.isFor info then
      d.recordLosses info runsCapture live nb.head.receiverId (nb.missCnt info.pageCnt.toNat)
        (countBitmapRuns nb info.pageCnt.toNat)
    else d
  else d

@[simp] theorem recordAck_objects (d : Drain) (receiverId : UInt32) :
    (d.recordAck receiverId).objects = d.objects := by
  unfold recordAck
  split <;> rfl

@[simp] theorem recordLosses_objects (d : Drain) (info : ChunkMeta) (runsCapture live : Bool)
    (receiverId : UInt32) (missCnt runs : ℕ) :
    (d.recordLosses info runsCapture live receiverId missCnt runs).objects = d.objects := by
  unfold recordLosses
  split <;> rfl

/-- **One frame.**  It changes the objects; one that is not taken changes nothing else. -/
theorem frame_cases (leaseMs : ℕ) (runsCapture : Bool) (info : ChunkMeta) (d : Drain)
    (buf : List UInt8) (live : Bool) :
    (d.frame leaseMs runsCapture info (buf, live)).objects = d.objects.see (0 < leaseMs) buf ∧
      (d.objects.takes (0 < leaseMs) info buf = false →
        d.frame leaseMs runsCapture info (buf, live)
          = { d with objects := d.objects.see (0 < leaseMs) buf }) := by
  unfold frame FrameObjects.takes
  dsimp only
  by_cases hack2 : checkId buf rtpsAck2MsgId = true
  · have hack : checkId buf rtpsAckMsgId = false := checkId_unique hack2 (by decide)
    rw [if_pos hack2, if_pos hack2, see_ack2 hack2, hack, if_neg Bool.false_ne_true]
    by_cases hfor : (ack2Kind.read d.objects.ack2 buf).toRtpsAckMsg.isFor info = true
    · rw [if_pos hfor]
      exact ⟨by simp, fun hout => absurd hfor (Bool.eq_false_iff.mp hout)⟩
    · rw [if_neg hfor]
      exact ⟨rfl, fun _ => rfl⟩
  rw [if_neg hack2, if_neg hack2]
  by_cases hack : checkId buf rtpsAckMsgId = true
  · rw [if_pos hack, if_pos hack, see_ack hack]
    by_cases hfor : (ackKind.read d.objects.ack buf).isFor info = true
    · rw [if_pos hfor]
      exact ⟨by simp, fun hout => absurd hfor (Bool.eq_false_iff.mp hout)⟩
    · rw [if_neg hfor]
      exact ⟨rfl, fun _ => rfl⟩
  rw [if_neg hack, if_neg hack, see_other (Bool.eq_false_iff.mpr hack)
    (Bool.eq_false_iff.mpr hack2)]
  by_cases hlease : leaseMs = 0
  · have hnacks : decide (0 < leaseMs) = false := decide_eq_false (by omega)
    rw [if_pos hlease, hnacks, if_neg Bool.false_ne_true]
    exact ⟨rfl, fun _ => rfl⟩
  have hnacks : decide (0 < leaseMs) = true := decide_eq_true (by omega)
  rw [if_neg hlease, hnacks, if_pos rfl, if_neg (not_not.mpr rfl : ¬ ¬ true = true)]
  by_cases hnack : checkId buf rtpsNackMsgId = true
  · have hbitmap : checkId buf bitmapKind.msgId = false := checkId_unique hnack (by decide)
    have hsee : bitmapKind.see d.objects.bitmap buf = d.objects.bitmap := by
      rw [FrameKind.see, hbitmap]
      rfl
    rw [if_pos hnack, if_pos hnack, hsee]
    by_cases hfor : (nackKind.read default buf).head.isFor info = true
    · rw [if_pos hfor]
      exact ⟨by simp, fun hout => absurd hfor (Bool.eq_false_iff.mp hout)⟩
    · rw [if_neg hfor]
      exact ⟨rfl, fun _ => rfl⟩
  rw [if_neg hnack, if_neg hnack]
  by_cases hbitmap : checkId buf rtpsNackBitmapMsgId = true
  · have hsee : bitmapKind.see d.objects.bitmap buf = bitmapKind.read d.objects.bitmap buf :=
      if_pos hbitmap
    rw [if_pos hbitmap, if_pos hbitmap, hsee]
    by_cases hfor : (bitmapKind.read d.objects.bitmap buf).head.isFor info = true
    · rw [if_pos hfor]
      exact ⟨by simp, fun hout => absurd hfor (Bool.eq_false_iff.mp hout)⟩
    · rw [if_neg hfor]
      exact ⟨rfl, fun _ => rfl⟩
  · have hsee : bitmapKind.see d.objects.bitmap buf = d.objects.bitmap := if_neg hbitmap
    rw [if_neg hbitmap, if_neg hbitmap, hsee]
    exact ⟨rfl, fun _ => rfl⟩

/-- Every receiver that has been counted for this message is known to the node. -/
def Known (d : Drain) : Prop :=
  ∀ receiverId ∈ d.seen, receiverId ∈ d.knownPeers

/-- Counting a receiver once a message makes it known, as counting it every time does. -/
theorem Known.recordAck {d : Drain} (h : d.Known) (receiverId : UInt32) :
    (d.recordAck receiverId).Known ∧
      (d.recordAck receiverId).knownPeers = recordPeer d.knownPeers receiverId := by
  unfold Drain.recordAck
  split_ifs with hseen
  · have hmem : receiverId ∈ d.knownPeers := h receiverId (List.contains_iff_mem.mp hseen)
    exact ⟨h, (List.insert_of_mem hmem).symm⟩
  · refine ⟨fun other hother => ?_, rfl⟩
    rcases List.mem_insert_iff.mp hother with rfl | hold
    · exact List.mem_insert_self
    · exact List.mem_insert_of_mem (h other hold)

theorem Known.recordLosses {d : Drain} (h : d.Known) (info : ChunkMeta) (runsCapture live : Bool)
    (receiverId : UInt32) (missCnt runs : ℕ) :
    (d.recordLosses info runsCapture live receiverId missCnt runs).Known ∧
      (d.recordLosses info runsCapture live receiverId missCnt runs).knownPeers
        = d.knownPeers := by
  unfold Drain.recordLosses
  split
  · exact ⟨h, rfl⟩
  · exact ⟨h, rfl⟩

/-- As far as the receivers known are concerned, the loop is that of `drainOne`. -/
theorem Known.frame {d : Drain} (h : d.Known) (leaseMs : ℕ) (runsCapture : Bool)
    (info : ChunkMeta) (buf : List UInt8) (live : Bool) :
    (d.frame leaseMs runsCapture info (buf, live)).Known ∧
      ((d.frame leaseMs runsCapture info (buf, live)).knownPeers,
          (d.frame leaseMs runsCapture info (buf, live)).objects.ack,
          (d.frame leaseMs runsCapture info (buf, live)).objects.ack2)
        = drainOne info (d.knownPeers, d.objects.ack, d.objects.ack2) buf := by
  have hack2Read : d.objects.ack2.deserialize buf = .ok (ack2Kind.read d.objects.ack2 buf) :=
    ack2Lawful.deserialize_eq d.objects.ack2 buf
  have hackRead : d.objects.ack.deserialize buf = .ok (ackKind.read d.objects.ack buf) :=
    ackLawful.deserialize_eq d.objects.ack buf
  unfold Drain.frame drainOne
  dsimp only
  by_cases hack2 : checkId buf rtpsAck2MsgId = true
  · rw [if_pos hack2, if_pos hack2, hack2Read]
    dsimp only
    split_ifs
    · obtain ⟨hknown, hpeers⟩ := Known.recordAck
        (d := { d with objects.ack2 := ack2Kind.read d.objects.ack2 buf }) h
        (ack2Kind.read d.objects.ack2 buf).receiverId
      exact ⟨hknown, by simp [hpeers]⟩
    · exact ⟨h, rfl⟩
  rw [if_neg hack2, if_neg hack2]
  by_cases hack : checkId buf rtpsAckMsgId = true
  · rw [if_pos hack, if_pos hack, hackRead]
    dsimp only
    split_ifs
    · obtain ⟨hknown, hpeers⟩ := Known.recordAck
        (d := { d with objects.ack := ackKind.read d.objects.ack buf }) h
        (ackKind.read d.objects.ack buf).receiverId
      exact ⟨hknown, by simp [hpeers]⟩
    · exact ⟨h, rfl⟩
  rw [if_neg hack, if_neg hack]
  split_ifs
  · exact ⟨h, rfl⟩
  · obtain ⟨hknown, hpeers⟩ := h.recordLosses info runsCapture live _ _ _
    exact ⟨hknown, by simp [hpeers]⟩
  · exact ⟨h, rfl⟩
  · obtain ⟨hknown, hpeers⟩ := Known.recordLosses
      (d := { d with objects.bitmap := bitmapKind.read d.objects.bitmap buf }) h info runsCapture
      live _ _ _
    exact ⟨hknown, by simp [hpeers]⟩
  · exact ⟨h, rfl⟩
  · exact ⟨h, rfl⟩

/-- In every run the objects are what the frames have left. -/
theorem objects_foldl (leaseMs : ℕ) (runsCapture : Bool) (info : ChunkMeta) (d : Drain)
    (received : List (List UInt8 × Bool)) :
    (received.foldl (frame leaseMs runsCapture info) d).objects
      = (received.map Prod.fst).foldl (FrameObjects.see (0 < leaseMs)) d.objects := by
  induction received generalizing d with
  | nil => rfl
  | cons first rest ih =>
      rw [List.foldl_cons, ih, List.map_cons, List.foldl_cons,
        (frame_cases leaseMs runsCapture info d first.1 first.2).1]

end Drain

/-- `kMaxAckDrain`. -/
def maxAckDrain : ℕ := 1024

/-- `drain_record_acks`, for the frames in the queue. -/
def drainRecordAcks (leaseMs : ℕ) (runsCapture : Bool) (info : ChunkMeta) (d : Drain)
    (queue : List (List UInt8 × Bool)) : Drain :=
  (queue.take maxAckDrain).foldl (Drain.frame leaseMs runsCapture info)
    { d with objects := default }

/-! ## The rounds of `recv_chunk_common_impl` -/

/-- The assembly of a message, with the datagrams received since its first page. -/
inductive Assembles (rcv : Receiver) : List (List UInt8) → Assembling → Prop where
  | entered {pendingHb : RtpsHeartbeatMsg} {havePendingHb : Bool} {info : ChunkMeta}
      {firstPage : List UInt8} {call : Assembling}
      (hinfo : firstDataChunk rcv pendingHb havePendingHb firstPage = some info)
      (h : (beginAssembly rcv pendingHb havePendingHb info firstPage).phase = .assembling call) :
      Assembles rcv [] call
  | datagram {datagrams : List (List UInt8)} {call call' : Assembling} {datagram : List UInt8}
      {observedBps : UInt32} {res : Received} (hbefore : Assembles rcv datagrams call)
      (h : receive rcv (.assembling call) datagram observedBps = some res)
      (hphase : res.phase = .assembling call') : Assembles rcv (datagrams ++ [datagram]) call'
  | round {datagrams : List (List UInt8)} {call call' : Assembling} {res : Received}
      (hbefore : Assembles rcv datagrams call)
      (h : roundOver rcv (.assembling call) = some res)
      (hphase : res.phase = .assembling call') : Assembles rcv datagrams call'

/-- The comparison of a heartbeat with the message. -/
def Assembling.takes (call : Assembling) (hbMsg : RtpsHeartbeatMsg) (datagram : List UInt8) :
    Bool :=
  checkId datagram rtpsHeartbeatMsgId && (heartbeatKind.read hbMsg datagram).about call.asm.info

/-- A heartbeat that is not taken changes the object only. -/
theorem receive_of_not_takes {rcv : Receiver} {call : Assembling} {datagram : List UInt8}
    (observedBps : UInt32) (hid : checkId datagram rtpsHeartbeatMsgId = true)
    (h : call.takes call.hbMsg datagram = false) :
    receive rcv (.assembling call) datagram observedBps
      = some (.continue (.assembling
          { call with hbMsg := heartbeatKind.read call.hbMsg datagram })) := by
  have hread : call.hbMsg.deserialize datagram = .ok (heartbeatKind.read call.hbMsg datagram) :=
    heartbeatLawful.deserialize_eq call.hbMsg datagram
  rw [Assembling.takes, hid, Bool.true_and] at h
  rw [receive, if_pos hid, hread]
  dsimp only
  rw [if_neg (Bool.eq_false_iff.mp h)]

theorem receive_hbMsg {rcv : Receiver} {call call' : Assembling} {datagram : List UInt8}
    {observedBps : UInt32} {res : Received}
    (h : receive rcv (.assembling call) datagram observedBps = some res)
    (hphase : res.phase = .assembling call') :
    call'.hbMsg = heartbeatKind.see call.hbMsg datagram := by
  have hread : call.hbMsg.deserialize datagram = .ok (heartbeatKind.read call.hbMsg datagram) :=
    heartbeatLawful.deserialize_eq call.hbMsg datagram
  have hidEq : heartbeatKind.msgId = rtpsHeartbeatMsgId := rfl
  unfold receive at h
  dsimp only at h
  rw [FrameKind.see, hidEq]
  split at h
  · rename_i hid
    rw [hread] at h
    cases h
    rw [if_pos hid]
    dsimp only [Received.continue] at hphase
    split at hphase <;> cases hphase <;> rfl
  · rename_i hid
    rw [if_neg hid]
    split at h
    · cases h
      cases hphase
      rfl
    · split at h
      · cases h
        unfold finish at hphase
        dsimp only at hphase
        split at hphase <;> cases hphase
      · cases h
        cases hphase
        rfl

theorem captureLost_hbMsg (call : Assembling) : call.captureLost.hbMsg = call.hbMsg := by
  unfold Assembling.captureLost
  split <;> rfl

theorem nextRound_hbMsg {rcv : Receiver} {call call' : Assembling}
    (h : (nextRound rcv call).phase = .assembling call') : call'.hbMsg = call.hbMsg := by
  unfold nextRound at h
  dsimp only at h
  split at h <;> cases h
  exact captureLost_hbMsg call

theorem roundOver_hbMsg {rcv : Receiver} {call call' : Assembling} {res : Received}
    (h : roundOver rcv (.assembling call) = some res) (hphase : res.phase = .assembling call') :
    call'.hbMsg = call.hbMsg := by
  have hgiveUp : Received.giveUp.phase ≠ .assembling call' := nofun
  unfold roundOver at h
  dsimp only at h
  split at h
  · split at h <;> cases h
    · exact absurd hphase hgiveUp
    · exact nextRound_hbMsg hphase
  · split at h
    · split at h
      · split at h <;> cases h
        · exact absurd hphase hgiveUp
        · have hkept := nextRound_hbMsg hphase
          exact hkept
      · cases h
        have hkept := nextRound_hbMsg hphase
        exact hkept
    · cases h
      exact nextRound_hbMsg hphase

theorem beginAssembly_hbMsg {rcv : Receiver} {pendingHb : RtpsHeartbeatMsg} {havePendingHb : Bool}
    {info : ChunkMeta} {firstPage : List UInt8} {call : Assembling}
    (h : (beginAssembly rcv pendingHb havePendingHb info firstPage).phase = .assembling call) :
    call.hbMsg = default := by
  unfold beginAssembly at h
  dsimp only at h
  split at h
  · split at h
    · cases h
    · unfold finish at h
      dsimp only at h
      split at h <;> cases h
  · split at h <;> cases h
    rfl

namespace Assembles

variable {rcv : Receiver} {datagrams : List (List UInt8)} {call : Assembling}

theorem hbMsg (h : Assembles rcv datagrams call) : call.hbMsg = heartbeatKind.left datagrams := by
  induction h with
  | entered hinfo h => exact beginAssembly_hbMsg h
  | datagram hbefore h hphase ih =>
      rw [receive_hbMsg h hphase, ih, FrameKind.left, FrameKind.left, List.foldl_append,
        List.foldl_cons, List.foldl_nil]
  | round hbefore h hphase ih => rw [roundOver_hbMsg h hphase, ih]

theorem sound (h : Assembles rcv datagrams call) : call.asm.Sound fun _ => True := by
  induction h with
  | @entered pendingHb havePendingHb info firstPage call hinfo h =>
      obtain ⟨-, hvalid, hpage⟩ := firstDataChunk_spec hinfo
      have hspec : Received.Spec rcv (fun _ => True) (fun _ => True)
          (beginAssembly rcv pendingHb havePendingHb info firstPage) :=
        beginAssembly_spec hvalid hpage trivial trivial
      have hsound := hspec.sound
      rw [h] at hsound
      exact hsound
  | @datagram datagrams call call' datagram observedBps res hbefore h hphase ih =>
      have hbegin : RecvPhase.Sound (fun _ => True) (.assembling call) := ih
      have hsound := (receive_spec hbegin (fun _ => trivial) h).sound
      rw [hphase] at hsound
      exact hsound
  | @round datagrams call call' res hbefore h hphase ih =>
      have hbegin : RecvPhase.Sound (fun _ => True) (.assembling call) := ih
      have hsound := (roundOver_spec hbegin h).sound
      rw [hphase] at hsound
      exact hsound

/-- The message has a page. -/
theorem pageCnt_ne (h : Assembles rcv datagrams call) : call.asm.info.pageCnt ≠ 0 := by
  intro hzero
  have hpages := h.sound.valid.pages
  rw [hzero] at hpages
  exact absurd hpages (by decide)

end Assembles

end DzIpc.Udp
