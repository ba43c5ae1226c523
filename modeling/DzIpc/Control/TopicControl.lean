import Mathlib.Data.BitVec
import Mathlib.Logic.Function.Basic
import Mathlib.Tactic.Common

/-!
# The control segment of a topic

`TopicControl` and `PeerSlot` (`control_plane.h`): the words that the publisher or server of a
topic and its subscribers or clients share.  Every field is an atomic of its own; what a call
of `TopicControlPlane` does to them in which order is up to the modules that import this one.
-/

namespace DzIpc.Control

inductive TopicState where
  | empty
  | clearing
  | ready
  | stopping
  deriving DecidableEq, Repr

/-- `kTopicControlMagic`. -/
def topicControlMagic : BitVec 32 := 0x445A4351#32

/-- `kMaxPeerSlots`. -/
def maxPeerSlots : ℕ := 64

/-- `PeerSlot`: one subscriber's registration. -/
structure PeerSlot where
  /-- `in_use` is `1`. -/
  inUse : Bool
  ccId : BitVec 32
  pid : ℤ
  generation : BitVec 32
  heartbeatNs : ℤ
  deriving DecidableEq, Repr

/-- A slot whose fields are all zero. -/
def PeerSlot.free : PeerSlot := ⟨false, 0#32, 0, 0#32, 0⟩

structure TopicControl where
  magic : BitVec 32
  generation : BitVec 32
  state : TopicState
  ownerPid : ℤ
  heartbeatNs : ℤ
  peerCount : BitVec 32
  peers : Fin maxPeerSlots → PeerSlot

/-- A segment that was just created: zeros. -/
def TopicControl.fresh : TopicControl := ⟨0#32, 0#32, .empty, 0, 0, 0#32, fun _ => .free⟩

/-- `clear_all_peer_slots`, as a whole. -/
def TopicControl.clearAllPeerSlots (c : TopicControl) : TopicControl :=
  { c with peers := fun _ => .free }

end DzIpc.Control
