import DzIpc.Udp.FrameReuse

/-!
# Frames of the wrong length

What a loop makes of a frame of the wrong length depends on the frames before it.

* `Lawful.alike_iff` and `ack_alike_iff`: for one kind of frame, the last whole one decides.
* `Clean` says for all frames of a sender that none of them is taken because of that.
* `frames_read_alike_iff` puts the five kinds and the runs of the three loops together.
-/

namespace DzIpc.Udp

open Wire

namespace FrameKind

variable {α : Type} [Inhabited α] {k : FrameKind α}

/-- `p` holds of the last whole frame of the kind. -/
def lastSays (k : FrameKind α) (p : α → Bool) (before : List (List UInt8)) : Bool :=
  (k.lastWhole before).any fun frame => p (k.read default frame)

theorem Lawful.of_left {γ : Type} {view : α → γ} (h : k.Lawful view) (q : γ → Bool)
    (hdefault : q (view default) = false) (before : List (List UInt8)) :
    q (view (k.left before)) = k.lastSays (fun m => q (view m)) before := by
  rw [h.view_left, lastSays]
  cases k.lastWhole before with
  | none => exact hdefault
  | some frame => rfl

/-- Of a kind that keeps its object, a frame is taken because of what others have left, where it has
the wrong length and the last whole one would be taken. -/
theorem Lawful.alike_iff (h : k.Lawful id) {p : α → Bool} (hdefault : p default = false)
    (before : List (List UInt8)) (frame : List UInt8) :
    (p (k.read (k.left before) frame) = true → p (k.read default frame) = true) ↔
      (k.whole frame.length = false → k.lastSays p before = false) := by
  cases hwhole : k.whole frame.length with
  | true =>
      have hsame : k.read (k.left before) frame = k.read default frame :=
        (h.determined_iff_read frame).mp (h.replace frame hwhole) _ _
      rw [hsame]
      exact iff_of_true (fun h => h) fun hwrong => absurd hwrong (by decide)
  | false =>
      have hkept : k.read (k.left before) frame = k.left before := h.keep _ frame hwhole
      have hfresh : k.read default frame = default := h.keep _ frame hwhole
      have hleft : p (k.left before) = k.lastSays p before := h.of_left p hdefault before
      rw [hkept, hfresh, hdefault, hleft]
      cases k.lastSays p before <;> decide

end FrameKind

/-- The fields that a short acknowledgment carries itself name the message. -/
def shortAckNames (info : ChunkMeta) (frame : List UInt8) : Bool :=
  let ack := ackKind.read default frame
  ack.pageCnt = info.pageCnt && ack.totalSize = info.totalSize && ack.dataMsgId = info.msgId

theorem isFor_ack_eq (info : ChunkMeta) (old : RtpsAckMsg) (frame : List UInt8) :
    (ackKind.read old frame).isFor info
      = (shortAckNames info frame && decide ((ackKind.read old frame).sequence = info.sequence)) := by
  obtain ⟨hcnt, hsize, hid⟩ := ack_read_head old frame
  rw [RtpsAckMsg.isFor, shortAckNames, hcnt, hsize, hid]

/-- A short acknowledgment is taken because of what others have left, where the last whole one has
the sequence of the message, and an object that has read nothing has not. -/
theorem ack_alike_iff (info : ChunkMeta) (before : List (List UInt8)) (frame : List UInt8) :
    ((ackKind.read (ackKind.left before) frame).isFor info = true →
        (ackKind.read default frame).isFor info = true) ↔
      (ackKind.whole frame.length = false → shortAckNames info frame = true → info.sequence ≠ 0 →
        ackKind.lastSays (fun ack => ack.sequence = info.sequence) before = false) := by
  cases hwhole : ackKind.whole frame.length with
  | true =>
      have hsame : ackKind.read (ackKind.left before) frame = ackKind.read default frame :=
        (ackLawful.determined_iff_read frame).mp (ackLawful.replace frame hwhole) _ _
      rw [hsame]
      exact iff_of_true (fun h => h) fun hwrong => absurd hwrong (by decide)
  | false =>
      rw [isFor_ack_eq, isFor_ack_eq, ackLawful.keep _ frame hwhole, ackLawful.keep _ frame hwhole]
      have hzero : (default : RtpsAckMsg).sequence = 0 := rfl
      rw [hzero]
      by_cases hseq : info.sequence = 0
      · rw [hseq]
        refine iff_of_true (fun h => ?_) fun _ _ hne => absurd rfl hne
        exact Bool.and_eq_true_iff.mpr ⟨(Bool.and_eq_true_iff.mp h).1, by decide⟩
      · have hleft : decide ((ackKind.left before).sequence = info.sequence)
            = ackKind.lastSays (fun ack => ack.sequence = info.sequence) before :=
          ackLawful.of_left (fun sequence => decide (sequence = info.sequence))
            (decide_eq_false fun h => hseq h.symm) before
        rw [hleft, decide_eq_false fun h => hseq h.symm, Bool.and_false]
        cases shortAckNames info frame <;>
          cases ackKind.lastSays (fun ack => ack.sequence = info.sequence) before <;> simp [hseq]

/-! ## The objects of a sender -/

theorem foldl_see (nacks : Bool) (before : List (List UInt8)) :
    (before.foldl (FrameObjects.see nacks) default).ack = ackKind.left before ∧
      (before.foldl (FrameObjects.see nacks) default).ack2 = ack2Kind.left before ∧
        (nacks = true →
          (before.foldl (FrameObjects.see nacks) default).bitmap = bitmapKind.left before) := by
  unfold FrameKind.left
  induction before using List.reverseRecOn with
  | nil => exact ⟨rfl, rfl, fun _ => rfl⟩
  | append_singleton before frame ih =>
      obtain ⟨hack, hack2, hbitmap⟩ := ih
      simp only [List.foldl_append, List.foldl_cons, List.foldl_nil, FrameObjects.see]
      refine ⟨by rw [hack], by rw [hack2], fun hnacks => ?_⟩
      rw [if_pos hnacks, hbitmap hnacks]

/-- No frame of the wrong length meets the fields of an earlier one that name the message. -/
structure Clean (nacks : Bool) (info : ChunkMeta) (before : List (List UInt8))
    (frame : List UInt8) : Prop where
  ack : checkId frame rtpsAckMsgId = true → ackKind.whole frame.length = false →
    shortAckNames info frame = true → info.sequence ≠ 0 →
      ackKind.lastSays (fun ack => ack.sequence = info.sequence) before = false
  ack2 : checkId frame rtpsAck2MsgId = true → ack2Kind.whole frame.length = false →
    ack2Kind.lastSays (fun ack2 => ack2.toRtpsAckMsg.isFor info) before = false
  bitmap : nacks = true → checkId frame rtpsNackBitmapMsgId = true →
    bitmapKind.whole frame.length = false →
      bitmapKind.lastSays (fun nb => nb.head.isFor info) before = false

/-- A frame is taken because of what earlier ones have left, exactly where it is not clean. -/
theorem takes_alike_iff {nacks : Bool} {info : ChunkMeta} (hpage : info.pageCnt ≠ 0)
    (before : List (List UInt8)) (frame : List UInt8) :
    ((before.foldl (FrameObjects.see nacks) default).takes nacks info frame = true →
        (default : FrameObjects).takes nacks info frame = true) ↔
      Clean nacks info before frame := by
  obtain ⟨hack, hack2, hbitmap⟩ := foldl_see nacks before
  have hother : ∀ {a b : UInt32}, checkId frame a = true → b ≠ a → ¬ checkId frame b = true :=
    fun ha hne => Bool.eq_false_iff.mp (checkId_unique ha hne)
  have hfresh : decide ((0 : UInt16) = info.pageCnt) = false := decide_eq_false fun h => hpage h.symm
  have hack2Fresh : (default : RtpsAck2Msg).toRtpsAckMsg.isFor info = false := by
    have hzero : (default : RtpsAck2Msg).pageCnt = 0 := rfl
    rw [RtpsAckMsg.isFor, hzero, hfresh]
    rfl
  have hbitmapFresh : (default : RtpsNackBitmapMsg).head.isFor info = false := by
    have hzero : (default : RtpsNackBitmapMsg).head.pageCnt = 0 := rfl
    rw [NackHead.isFor, hzero, hfresh]
    rfl
  unfold FrameObjects.takes
  rw [hack, hack2]
  by_cases hid : checkId frame rtpsAckMsgId = true
  · rw [if_pos hid, if_pos hid]
    refine (ack_alike_iff info before frame).trans ⟨fun h => ?_, fun h => h.ack hid⟩
    exact
      { ack := fun _ => h
        ack2 := fun h2 => absurd h2 (hother hid (by decide))
        bitmap := fun _ h2 => absurd h2 (hother hid (by decide)) }
  rw [if_neg hid, if_neg hid]
  by_cases hid2 : checkId frame rtpsAck2MsgId = true
  · rw [if_pos hid2, if_pos hid2]
    refine (ack2Lawful.alike_iff (p := fun ack2 => ack2.toRtpsAckMsg.isFor info) hack2Fresh before
      frame).trans ⟨fun h => ?_, fun h => h.ack2 hid2⟩
    exact
      { ack := fun h1 => absurd h1 hid
        ack2 := fun _ => h
        bitmap := fun _ h2 => absurd h2 (hother hid2 (by decide)) }
  rw [if_neg hid2, if_neg hid2]
  cases nacks with
  | false =>
      refine iff_of_true (fun h => h) ?_
      exact
        { ack := fun h1 => absurd h1 hid
          ack2 := fun h2 => absurd h2 hid2
          bitmap := fun hnacks => absurd hnacks (by decide) }
  | true =>
      rw [if_neg (not_not.mpr rfl : ¬ ¬ true = true), if_neg (not_not.mpr rfl : ¬ ¬ true = true),
        hbitmap rfl]
      by_cases hidNack : checkId frame rtpsNackMsgId = true
      · rw [if_pos hidNack, if_pos hidNack]
        refine iff_of_true (fun h => h) ?_
        exact
          { ack := fun h1 => absurd h1 hid
            ack2 := fun h2 => absurd h2 hid2
            bitmap := fun _ h3 => absurd h3 (hother hidNack (by decide)) }
      rw [if_neg hidNack, if_neg hidNack]
      by_cases hidBitmap : checkId frame rtpsNackBitmapMsgId = true
      · rw [if_pos hidBitmap, if_pos hidBitmap]
        refine (bitmapLawful.alike_iff (p := fun nb => nb.head.isFor info) hbitmapFresh before
          frame).trans ⟨fun h => ?_, fun h => h.bitmap rfl hidBitmap⟩
        exact
          { ack := fun h1 => absurd h1 hid
            ack2 := fun h2 => absurd h2 hid2
            bitmap := fun _ _ => h }
      · rw [if_neg hidBitmap, if_neg hidBitmap]
        refine iff_of_true (fun h => h) ?_
        exact
          { ack := fun h1 => absurd h1 hid
            ack2 := fun h2 => absurd h2 hid2
            bitmap := fun _ h3 => absurd h3 hidBitmap }

/-- The heartbeats of an assembly. -/
theorem about_alike_iff {info : ChunkMeta} (hpage : info.pageCnt ≠ 0)
    (before : List (List UInt8)) (datagram : List UInt8) :
    ((heartbeatKind.read (heartbeatKind.left before) datagram).about info = true →
        (heartbeatKind.read default datagram).about info = true) ↔
      (heartbeatKind.whole datagram.length = false →
        heartbeatKind.lastSays (fun hb => hb.about info) before = false) := by
  have hfresh : (default : RtpsHeartbeatMsg).about info = false := by
    have hzero : (default : RtpsHeartbeatMsg).pageCnt = 0 := rfl
    have hne : decide ((0 : UInt16) = info.pageCnt) = false := decide_eq_false fun h => hpage h.symm
    rw [RtpsHeartbeatMsg.about, hzero, hne, Bool.and_false, Bool.false_and]
  exact heartbeatLawful.alike_iff (p := fun hb => hb.about info) hfresh before datagram

/-- The fields after `deserialize` depend on the frame only, exactly where all of them are read from
it.  In every run of the three loops a frame is taken for one of the message because of what earlier
frames have left in its object, exactly where it has the wrong length and the last frame of its kind
of the right length names the message. -/
theorem frames_read_alike_iff (frame : List UInt8) :
    ((ackKind.Determined frame ↔ RtpsAckMsg.minSizeForSeq ≤ frame.length) ∧
      (ack2Kind.Determined frame ↔ frame.length = RtpsAck2Msg.wireSize) ∧
      (heartbeatKind.Determined frame ↔ frame.length = RtpsHeartbeatMsg.wireSize) ∧
      nackKind.Determined frame ∧
      (bitmapKind.Determined frame ↔ RtpsNackBitmapMsg.fixedFieldBytes + 12 ≤ frame.length)) ∧
    (∀ senderId frames snd, Waits senderId frames snd →
      ((snd.objects.takes true snd.info frame = true →
          (default : FrameObjects).takes true snd.info frame = true) ↔
        Clean true snd.info frames frame) ∧
      ∀ leaseMs runsCapture d queue,
        ((drainRecordAcks leaseMs runsCapture snd.info d queue).objects.takes (0 < leaseMs) snd.info
            frame = true →
          (default : FrameObjects).takes (0 < leaseMs) snd.info frame = true) ↔
        Clean (0 < leaseMs) snd.info ((queue.take maxAckDrain).map Prod.fst) frame) ∧
    ∀ rcv datagrams call, Assembles rcv datagrams call →
      ((call.takes call.hbMsg frame = true → call.takes default frame = true) ↔
        (checkId frame rtpsHeartbeatMsgId = true → heartbeatKind.whole frame.length = false →
          heartbeatKind.lastSays (fun hb => hb.about call.asm.info) datagrams = false)) := by
  refine ⟨⟨?_, ?_, ?_, ?_, ?_⟩,
    fun senderId frames snd h => ⟨?_, fun leaseMs runsCapture d queue => ?_⟩,
    fun rcv datagrams call h => ?_⟩
  · have hview : ∃ m m' : RtpsAckMsg, m.sequence ≠ m'.sequence :=
      ⟨default, { (default : RtpsAckMsg) with sequence := 1 }, by decide⟩
    exact (ackLawful.determined_iff hview frame).trans decide_eq_true_iff
  · have hview : ∃ m m' : RtpsAck2Msg, id m ≠ id m' :=
      ⟨default, { (default : RtpsAck2Msg) with lostPages := 1 }, by decide⟩
    exact (ack2Lawful.determined_iff hview frame).trans decide_eq_true_iff
  · have hview : ∃ m m' : RtpsHeartbeatMsg, id m ≠ id m' :=
      ⟨default, { (default : RtpsHeartbeatMsg) with round := 1 }, by decide⟩
    exact (heartbeatLawful.determined_iff hview frame).trans decide_eq_true_iff
  · exact nackLawful.replace frame rfl
  · have hview : ∃ m m' : RtpsNackBitmapMsg, id m ≠ id m' :=
      ⟨default, { (default : RtpsNackBitmapMsg) with basePage := 1 }, by decide⟩
    exact (bitmapLawful.determined_iff hview frame).trans decide_eq_true_iff
  · rw [h.objects]
    exact takes_alike_iff h.pageCnt_ne frames frame
  · rw [drainRecordAcks, Drain.objects_foldl]
    exact takes_alike_iff h.pageCnt_ne _ frame
  · rw [Assembling.takes, Assembling.takes, h.hbMsg]
    cases checkId frame rtpsHeartbeatMsgId with
    | false => simp
    | true =>
        rw [Bool.true_and, Bool.true_and]
        refine (about_alike_iff h.pageCnt_ne datagrams frame).trans ?_
        exact ⟨fun h _ => h, fun h => h rfl⟩

/-! ## A run with a frame of the wrong length -/

/-- A message of one page, which is its tail. -/
private def tailOnly : List UInt8 := [0, 1, 0, 1, 0, 0, 0, 12, 0, 0, 0, 7]

private def tailOnlyInfo : ChunkMeta :=
  { pageCnt := 1, totalSize := 12, msgId := 7, sequence := 3 }

/-- A bitmap NACK for it. -/
private def wholeBitmap : List UInt8 :=
  (RtpsNackBitmapMsg.windowOf
    { pageCnt := 1, totalSize := 12, dataMsgId := 7, receiverId := 5, sequence := 3 } 1 1
    [1]).serialize

/-- A bitmap NACK that is its tail. -/
private def shortBitmap : List UInt8 := [0, 1, 0, 1, 0, 0, 0, 12, 0x44, 0x5A, 0x4E, 0x42]

/-- A sender of the message that has read the whole NACK. -/
private theorem waits_wholeBitmap : ∃ snd, Waits 2 [wholeBitmap] snd ∧ snd.info = tailOnlyInfo ∧
    snd.objects = (default : FrameObjects).see true wholeBitmap := by
  have hsending : (beginSend 2 3 [] tailOnly
      { delivery := .reliable, integrity := .none, sendHeartbeat := false } none).sending.map
        (fun snd => (snd.info, snd.matchedAck)) = some (tailOnlyInfo, none) := by
    decide +kernel
  obtain ⟨snd, hsnd, hfields⟩ := Option.map_eq_some_iff.mp hsending
  obtain ⟨hinfo, hwait⟩ := Prod.mk.inj hfields
  obtain ⟨_, snd', hcollect, hobjects, -, -⟩ := collect_cases [] hwait wholeBitmap
  rw [beginSend_objects hsnd] at hobjects
  exact ⟨snd', .frame (.entered hsnd) hcollect, (collect_spec hcollect).2.1.trans hinfo, hobjects⟩

/-- After it the short NACK is not clean. -/
theorem frames_read_alike_iff_short : ∃ frames snd frame, Waits 2 frames snd ∧
    ¬ Clean true snd.info frames frame := by
  obtain ⟨snd, hwaits, hinfo, hobjects⟩ := waits_wholeBitmap
  refine ⟨_, snd, shortBitmap, hwaits, fun hclean => ?_⟩
  have halike := ((frames_read_alike_iff shortBitmap).2.1 2 _ snd hwaits).1.mpr hclean
  rw [hobjects, hinfo] at halike
  exact absurd (halike (by decide +kernel)) (by decide +kernel)

/-- Two objects read a bitmap NACK without fields differently, and a sender takes it for one of its
message after it has read a whole one. -/
theorem frames_not_read_alike :
    (∃ old old' : RtpsNackBitmapMsg, ∃ frame, checkId frame rtpsNackBitmapMsgId = true ∧
      old.deserialize frame ≠ old'.deserialize frame) ∧
    ∃ senderId frames snd frame, Waits senderId frames snd ∧
      checkId frame rtpsNackBitmapMsgId = true ∧ bitmapKind.whole frame.length = false ∧
      snd.objects.takes true snd.info frame = true ∧
      (default : FrameObjects).takes true snd.info frame = false := by
  constructor
  · exact ⟨default, { (default : RtpsNackBitmapMsg) with basePage := 1 }, shortBitmap, by decide,
      by decide⟩
  · obtain ⟨snd, hwaits, hinfo, hobjects⟩ := waits_wholeBitmap
    refine ⟨2, _, snd, shortBitmap, hwaits, by decide, by decide, ?_, ?_⟩
    · rw [hobjects, hinfo]
      decide +kernel
    · rw [hinfo]
      decide +kernel

end DzIpc.Udp
