import DzIpc.Library.Latch
import DzIpc.Udp.Frames
import DzIpc.Wire.Safety

/-!
# What a control frame leaves in its object

Each loop of the transport reads all frames of one kind into one object.  `deserialize` always
returns, but a frame of the wrong length leaves fields of the object as they were.

* `FrameKind` is a kind of frame: its id, `deserialize`, and the lengths for which every field is
  read.  The five kinds are instances.
* `FrameKind.Lawful.determined_iff`: the fields depend on the frame only, exactly for these lengths.
* `FrameKind.left` is the object after the frames of a loop; `left_eq` and `sequence_left` say which
  frame its fields come from.
-/

namespace DzIpc.Udp

open Wire

/-! ## Reading always returns -/

theorem readUInt_returns {r : Region} (hr : r.Honest) {c : Cursor} (hc : c.offset < 2 ^ 32)
    (width : ℕ) : Returns (readUInt r c width) fun res => res.2.offset < 2 ^ 32 := by
  refine (tods_safe hr hc width).bind ?_
  rintro ⟨bytes, c'⟩ ⟨-, -, hc'⟩
  exact .pure hc'

theorem exists_readUInt {r : Region} (hr : r.Honest) {c : Cursor} (hc : c.offset < 2 ^ 32)
    (width : ℕ) : ∃ n c', readUInt r c width = .ok (n, c') ∧ c'.offset < 2 ^ 32 := by
  obtain ⟨res, hres, hoffset⟩ := readUInt_returns hr hc width
  exact ⟨res.1, res.2, hres, hoffset⟩

theorem start_offset_lt : Cursor.start.offset < 2 ^ 32 := by
  decide

theorem NackHead.read_returns {r : Region} (hr : r.Honest) :
    Returns (NackHead.read r) fun res => res.2.offset < 2 ^ 32 := by
  refine (readUInt_returns hr start_offset_lt _).bind fun _ h₁ => ?_
  refine (readUInt_returns hr h₁ _).bind fun _ h₂ => ?_
  refine (readUInt_returns hr h₂ _).bind fun _ h₃ => ?_
  refine (readUInt_returns hr h₃ _).bind fun _ h₄ => ?_
  refine (readUInt_returns hr h₄ _).bind fun _ h₅ => ?_
  exact .pure h₅

theorem RtpsHeartbeatMsg.deserialize_returns (old : RtpsHeartbeatMsg) (buffer : List UInt8) :
    Returns (old.deserialize buffer) fun _ => True := by
  have hr := honest_whole buffer
  refine .ite (fun _ => .ok trivial) fun _ => ?_
  refine (readUInt_returns hr start_offset_lt _).bind fun _ h₁ => ?_
  refine (readUInt_returns hr h₁ _).bind fun _ h₂ => ?_
  refine (readUInt_returns hr h₂ _).bind fun _ h₃ => ?_
  refine (readUInt_returns hr h₃ _).bind fun _ h₄ => ?_
  refine (readUInt_returns hr h₄ _).bind fun _ h₅ => ?_
  refine (readUInt_returns hr h₅ _).bind fun _ h₆ => ?_
  exact (readUInt_returns hr h₆ _).bind fun _ _ => .pure trivial

theorem RtpsAck2Msg.deserialize_returns (old : RtpsAck2Msg) (buffer : List UInt8) :
    Returns (old.deserialize buffer) fun _ => True := by
  have hr := honest_whole buffer
  refine .ite (fun _ => .ok trivial) fun _ => ?_
  refine (readUInt_returns hr start_offset_lt _).bind fun _ h₁ => ?_
  refine (readUInt_returns hr h₁ _).bind fun _ h₂ => ?_
  refine (readUInt_returns hr h₂ _).bind fun _ h₃ => ?_
  refine (readUInt_returns hr h₃ _).bind fun _ h₄ => ?_
  refine (readUInt_returns hr h₄ _).bind fun _ h₅ => ?_
  refine (readUInt_returns hr h₅ _).bind fun _ h₆ => ?_
  refine (readUInt_returns hr h₆ _).bind fun _ h₇ => ?_
  refine (readUInt_returns hr h₇ _).bind fun _ h₈ => ?_
  exact (readUInt_returns hr h₈ _).bind fun _ _ => .pure trivial

theorem RtpsNackMsg.readPages_returns {r : Region} (hr : r.Honest) (count : ℕ) :
    ∀ {c : Cursor}, c.offset < 2 ^ 32 → Returns (readPages r count c) fun _ => True := by
  induction count with
  | zero => exact fun _ => .pure trivial
  | succ count ih =>
      intro c hc
      refine (readUInt_returns hr hc _).bind fun _ h => ?_
      exact (ih h).bind fun _ _ => .pure trivial

theorem RtpsNackMsg.deserialize_returns (buffer : List UInt8) :
    Returns (deserialize buffer) fun _ => True := by
  have hr := honest_whole buffer
  refine (NackHead.read_returns hr).bind fun _ h => ?_
  refine (readUInt_returns hr h _).bind fun _ h' => ?_
  exact (readPages_returns hr _ h').bind fun _ _ => .pure trivial

theorem readItems_returns {r : Region} (hr : r.Honest) {c : Cursor} (hc : c.offset < 2 ^ 32)
    (count : ℕ) : Returns (readItems r c count count) fun _ => True := by
  unfold readItems
  split
  · exact (tods_safe hr hc count).mono fun _ _ => trivial
  · exact .ok trivial

theorem RtpsNackBitmapMsg.deserialize_returns (old : RtpsNackBitmapMsg) (buffer : List UInt8) :
    Returns (old.deserialize buffer) fun _ => True := by
  have hr := honest_whole buffer
  rw [deserialize]
  by_cases hshort : buffer.length < fixedFieldBytes + 12
  · rw [if_pos hshort]
    exact .ok trivial
  · rw [if_neg hshort]
    apply (NackHead.read_returns hr).bind
    intro _ h
    apply (readUInt_returns hr h _).bind
    intro _ h'
    apply (readUInt_returns hr h' _).bind
    rintro ⟨mapBytes, c⟩ h''
    dsimp only at h'' ⊢
    generalize min (min mapBytes (buffer.length - fixedFieldBytes - 12)) maxBitmapBytes = take
    apply (readItems_returns hr h'' take).bind
    exact fun _ _ => .pure trivial

/-- The first four fields of an acknowledgment are read from every frame, the others from a whole one
only. -/
theorem RtpsAckMsg.deserialize_eq (buffer : List UInt8) : ∃ head whole : RtpsAckMsg,
    ∀ old : RtpsAckMsg, old.deserialize buffer
      = .ok (if buffer.length ≥ minSizeForSeq then whole
        else { old with
          pageCnt := head.pageCnt
          totalSize := head.totalSize
          dataMsgId := head.dataMsgId
          receiverId := head.receiverId }) := by
  have hr := honest_whole buffer
  obtain ⟨pageCnt, c₁, hread₁, h₁⟩ := exists_readUInt hr start_offset_lt 2
  obtain ⟨totalSize, c₂, hread₂, h₂⟩ := exists_readUInt hr h₁ 4
  obtain ⟨dataMsgId, c₃, hread₃, h₃⟩ := exists_readUInt hr h₂ 4
  obtain ⟨receiverId, c₄, hread₄, h₄⟩ := exists_readUInt hr h₃ 4
  obtain ⟨sequence, c₅, hread₅, h₅⟩ := exists_readUInt hr h₄ 4
  obtain ⟨flags, c₆, hread₆, h₆⟩ := exists_readUInt hr h₅ 1
  obtain ⟨crc, c₇, hread₇, -⟩ := exists_readUInt hr h₆ 4
  refine ⟨⟨.ofNat pageCnt, .ofNat totalSize, .ofNat dataMsgId, .ofNat receiverId, 0, 0, 0⟩,
    ⟨.ofNat pageCnt, .ofNat totalSize, .ofNat dataMsgId, .ofNat receiverId, .ofNat sequence,
      .ofNat flags, .ofNat crc⟩, fun old => ?_⟩
  rw [deserialize, bind_of_ok hread₁]
  dsimp only
  rw [bind_of_ok hread₂]
  dsimp only
  rw [bind_of_ok hread₃]
  dsimp only
  rw [bind_of_ok hread₄]
  dsimp only
  split_ifs
  · rw [bind_of_ok hread₅]
    dsimp only
    rw [bind_of_ok hread₆]
    dsimp only
    rw [bind_of_ok hread₇]
    rfl
  · rfl

/-! ## Kinds of frames -/

/-- A kind of control frame: its id, `deserialize`, and the lengths for which `deserialize` reads
every field. -/
structure FrameKind (α : Type) where
  msgId : UInt32
  deserialize : α → List UInt8 → Except Fault α
  whole : ℕ → Bool

def ackKind : FrameKind RtpsAckMsg where
  msgId := rtpsAckMsgId
  deserialize := RtpsAckMsg.deserialize
  whole := fun length => length ≥ RtpsAckMsg.minSizeForSeq

def ack2Kind : FrameKind RtpsAck2Msg where
  msgId := rtpsAck2MsgId
  deserialize := RtpsAck2Msg.deserialize
  whole := fun length => length = RtpsAck2Msg.wireSize

def heartbeatKind : FrameKind RtpsHeartbeatMsg where
  msgId := rtpsHeartbeatMsgId
  deserialize := RtpsHeartbeatMsg.deserialize
  whole := fun length => length = RtpsHeartbeatMsg.wireSize

def nackKind : FrameKind RtpsNackMsg where
  msgId := rtpsNackMsgId
  deserialize := fun _ => RtpsNackMsg.deserialize
  whole := fun _ => true

def bitmapKind : FrameKind RtpsNackBitmapMsg where
  msgId := rtpsNackBitmapMsgId
  deserialize := RtpsNackBitmapMsg.deserialize
  whole := fun length => length ≥ RtpsNackBitmapMsg.fixedFieldBytes + 12

namespace FrameKind

variable {α γ : Type} {k : FrameKind α}

/-- What `deserialize` leaves in the object. -/
def read (k : FrameKind α) (old : α) (frame : List UInt8) : α :=
  match k.deserialize old frame with
  | .ok m => m
  | .error _ => old

/-- The fields after `deserialize` do not depend on the object. -/
def Determined (k : FrameKind α) (frame : List UInt8) : Prop :=
  ∀ old old', k.deserialize old frame = k.deserialize old' frame

/-- The object after a frame of a loop: it reads the frames with its id. -/
def see (k : FrameKind α) (old : α) (frame : List UInt8) : α :=
  if checkId frame k.msgId then k.read old frame else old

/-- The object after the frames of a loop. -/
def left [Inhabited α] (k : FrameKind α) (frames : List (List UInt8)) : α :=
  frames.foldl k.see default

/-- The frame is of this kind, and every field is read from it. -/
def isWhole (k : FrameKind α) (frame : List UInt8) : Bool :=
  checkId frame k.msgId && k.whole frame.length

/-- The last such frame. -/
def lastWhole (k : FrameKind α) (frames : List (List UInt8)) : Option (List UInt8) :=
  (frames.filter k.isWhole).getLast?

/-- `deserialize` always returns; a whole frame determines all fields, and another frame leaves at
least what `view` shows. -/
structure Lawful (k : FrameKind α) (view : α → γ) : Prop where
  returns : ∀ old frame, Returns (k.deserialize old frame) fun _ => True
  replace : ∀ frame, k.whole frame.length = true → k.Determined frame
  keep : ∀ old frame, k.whole frame.length = false → view (k.read old frame) = view old

namespace Lawful

variable {view : α → γ}

theorem deserialize_eq (h : k.Lawful view) (old : α) (frame : List UInt8) :
    k.deserialize old frame = .ok (k.read old frame) := by
  obtain ⟨m, hm, -⟩ := h.returns old frame
  rw [read, hm]

theorem determined_iff_read (h : k.Lawful view) (frame : List UInt8) :
    k.Determined frame ↔ ∀ old old', k.read old frame = k.read old' frame := by
  unfold Determined
  simp only [h.deserialize_eq, Except.ok.injEq]

theorem latches (h : k.Lawful view) [Inhabited α] :
    Latches (fun old frame => k.read old frame) (fun frame => k.whole frame.length) view
      fun frame => view (k.read default frame) where
  replace := fun old frame hwhole =>
    congrArg view ((h.determined_iff_read frame).mp (h.replace frame hwhole) old default)
  keep := fun old frame hshort => h.keep old frame hshort

/-- The fields depend on the frame only, exactly where every field is read from it. -/
theorem determined_iff (h : k.Lawful view) [Inhabited α] (hview : ∃ m m', view m ≠ view m')
    (frame : List UInt8) : k.Determined frame ↔ k.whole frame.length = true := by
  constructor
  · intro hdetermined
    apply (h.latches.independent_iff hview frame).mp
    intro old old'
    exact congrArg view ((h.determined_iff_read frame).mp hdetermined old old')
  · exact h.replace frame

/-- In a loop, too, what `view` shows comes from whole frames. -/
theorem latches_see (h : k.Lawful view) [Inhabited α] :
    Latches k.see k.isWhole view fun frame => view (k.read default frame) where
  replace := by
    intro old frame hwhole
    obtain ⟨hid, hlen⟩ := Bool.and_eq_true_iff.mp hwhole
    rw [see, if_pos hid]
    exact h.latches.replace old frame hlen
  keep := by
    intro old frame hother
    unfold see
    split_ifs with hid
    · rw [isWhole, hid, Bool.true_and] at hother
      exact h.keep old frame hother
    · rfl

/-- After the frames of a loop it is what the last whole one says. -/
theorem view_left (h : k.Lawful view) [Inhabited α] (frames : List (List UInt8)) :
    view (k.left frames)
      = ((k.lastWhole frames).map fun frame => view (k.read default frame)).getD (view default) :=
  h.latches_see.foldl frames default

end Lawful

end FrameKind

/-! ## The five kinds -/

section Kinds

theorem ack_read_eq (frame : List UInt8) : ∃ head whole : RtpsAckMsg, ∀ old : RtpsAckMsg,
    ackKind.read old frame
      = if frame.length ≥ RtpsAckMsg.minSizeForSeq then whole
        else { old with
          pageCnt := head.pageCnt
          totalSize := head.totalSize
          dataMsgId := head.dataMsgId
          receiverId := head.receiverId } := by
  obtain ⟨head, whole, hread⟩ := RtpsAckMsg.deserialize_eq frame
  refine ⟨head, whole, fun old => ?_⟩
  have hold : ackKind.deserialize old frame = _ := hread old
  rw [FrameKind.read, hold]

/-- A short acknowledgment leaves the sequence. -/
theorem ackLawful : ackKind.Lawful RtpsAckMsg.sequence where
  returns := by
    intro old frame
    obtain ⟨head, whole, hread⟩ := RtpsAckMsg.deserialize_eq frame
    exact ⟨_, hread old, trivial⟩
  replace := by
    intro frame hwhole old old'
    obtain ⟨head, whole, hread⟩ := RtpsAckMsg.deserialize_eq frame
    have hlen : frame.length ≥ RtpsAckMsg.minSizeForSeq := of_decide_eq_true hwhole
    have hold : ackKind.deserialize old frame = _ := hread old
    have hold' : ackKind.deserialize old' frame = _ := hread old'
    rw [hold, hold', if_pos hlen, if_pos hlen]
  keep := by
    intro old frame hshort
    obtain ⟨head, whole, hread⟩ := ack_read_eq frame
    rw [hread old, if_neg (of_decide_eq_false hshort)]

/-- Its first three fields are its own. -/
theorem ack_read_head (old : RtpsAckMsg) (frame : List UInt8) :
    (ackKind.read old frame).pageCnt = (ackKind.read default frame).pageCnt ∧
      (ackKind.read old frame).totalSize = (ackKind.read default frame).totalSize ∧
        (ackKind.read old frame).dataMsgId = (ackKind.read default frame).dataMsgId := by
  obtain ⟨head, whole, hread⟩ := ack_read_eq frame
  rw [hread old, hread default]
  split_ifs <;> exact ⟨rfl, rfl, rfl⟩

theorem ack2_keep (old : RtpsAck2Msg) (frame : List UInt8)
    (hwrong : ack2Kind.whole frame.length = false) : ack2Kind.deserialize old frame = .ok old :=
  if_pos (of_decide_eq_false hwrong)

theorem ack2Lawful : ack2Kind.Lawful id where
  returns := RtpsAck2Msg.deserialize_returns
  replace := by
    intro frame hwhole old old'
    have hlen : frame.length = RtpsAck2Msg.wireSize := of_decide_eq_true hwhole
    have hread : ∀ m : RtpsAck2Msg, ack2Kind.deserialize m frame = m.deserialize frame :=
      fun _ => rfl
    rw [hread, hread, RtpsAck2Msg.deserialize, RtpsAck2Msg.deserialize, if_neg (not_not.mpr hlen),
      if_neg (not_not.mpr hlen)]
  keep := by
    intro old frame hwrong
    rw [FrameKind.read, ack2_keep old frame hwrong]

theorem heartbeat_keep (old : RtpsHeartbeatMsg) (frame : List UInt8)
    (hwrong : heartbeatKind.whole frame.length = false) :
    heartbeatKind.deserialize old frame = .ok old :=
  if_pos (of_decide_eq_false hwrong)

theorem heartbeatLawful : heartbeatKind.Lawful id where
  returns := RtpsHeartbeatMsg.deserialize_returns
  replace := by
    intro frame hwhole old old'
    have hlen : frame.length = RtpsHeartbeatMsg.wireSize := of_decide_eq_true hwhole
    have hread : ∀ m : RtpsHeartbeatMsg, heartbeatKind.deserialize m frame = m.deserialize frame :=
      fun _ => rfl
    rw [hread, hread, RtpsHeartbeatMsg.deserialize, RtpsHeartbeatMsg.deserialize,
      if_neg (not_not.mpr hlen), if_neg (not_not.mpr hlen)]
  keep := by
    intro old frame hwrong
    rw [FrameKind.read, heartbeat_keep old frame hwrong]

theorem bitmap_keep (old : RtpsNackBitmapMsg) (frame : List UInt8)
    (hshort : bitmapKind.whole frame.length = false) :
    bitmapKind.deserialize old frame = .ok old :=
  if_pos (Nat.lt_of_not_ge (of_decide_eq_false hshort))

theorem bitmapLawful : bitmapKind.Lawful id where
  returns := RtpsNackBitmapMsg.deserialize_returns
  replace := by
    intro frame hwhole old old'
    have hlen : ¬ frame.length < RtpsNackBitmapMsg.fixedFieldBytes + 12 :=
      Nat.not_lt.mpr (of_decide_eq_true hwhole)
    have hread : ∀ m : RtpsNackBitmapMsg, bitmapKind.deserialize m frame = m.deserialize frame :=
      fun _ => rfl
    rw [hread, hread, RtpsNackBitmapMsg.deserialize, RtpsNackBitmapMsg.deserialize, if_neg hlen,
      if_neg hlen]
  keep := by
    intro old frame hshort
    rw [FrameKind.read, bitmap_keep old frame hshort]

theorem nackLawful : nackKind.Lawful id where
  returns := fun _ => RtpsNackMsg.deserialize_returns
  replace := fun _ _ _ _ => rfl
  keep := fun _ _ hnever => Bool.noConfusion hnever

end Kinds

end DzIpc.Udp
