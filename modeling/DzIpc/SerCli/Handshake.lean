import DzIpc.Library.Machine
import DzIpc.Wire.Codec

/-!
# The handshake of a server and a client

`server_handshake` and `client_handshake` exchange four-byte messages on a multicast channel
of their own.  Each looks for a frame of its peer (`RunHS`), says that the handshake is
completed, and from then on watches for the peer's farewell and for its silence (`StopHS`).
What a side receives is arbitrary: its own frames come back to it, frames get lost, and the
peer may come and go.

The loops are followed from one call to the next: a test of `running`, a `send`, a `receive`,
a reading of the clock.

* `Inv` relates `peer_post_hs_seen` and `last_peer_frame`, which live as long as the loop, to
  the connection under way and to the one before.
* `drops_for_reason_iff`: all handshakes of a run are dropped for a reason of their own
  connection exactly if no connection that follows a farewell is watched for too long
  before its first frame.
* `dropped_without_reason` is a server and a client that drop a handshake for the silence of
  the connection before.
-/

namespace DzIpc.SerCli

open Wire

/-! ## Frames -/

/-- `IpcPubSubIdInitMsg`. -/
structure IpcPubSubIdInitMsg where
  hostFlag : Bool
  cliFlag : Bool
  runStatus : Bool
  pathState : UInt8
  deriving DecidableEq, Repr

/-- What `receive` returns: the bytes of a datagram, and what lies behind them in memory.
The three checks read their byte whatever the length is. -/
structure RecvBuf where
  bytes : List UInt8
  behind : ℕ → UInt8

namespace RecvBuf

/-- `data_ptr[i]`. -/
def byte (buf : RecvBuf) (i : ℕ) : UInt8 :=
  buf.bytes.getD i (buf.behind i)

def checkHost (buf : RecvBuf) : Bool := buf.byte 0 = 1

def checkCli (buf : RecvBuf) : Bool := buf.byte 1 = 1

def checkRunStatus (buf : RecvBuf) : Bool := buf.byte 2 = 1

/-- `pure_payload_size`. -/
def purePayloadSize (buf : RecvBuf) : UInt32 :=
  let n := buf.bytes.length
  if n < 12 then 0
  else
    let at_ (i : ℕ) : UInt32 := (buf.byte (n - i)).toUInt32
    let pageCnt := at_ 12 <<< 8 ||| at_ 11
    let totalSize := at_ 8 <<< 24 ||| at_ 7 <<< 16 ||| at_ 6 <<< 8 ||| at_ 5
    let tails := pageCnt * 12
    if totalSize < tails ∨ totalSize ≠ .ofNat n then 0 else totalSize - tails

/-- `peek_path_state`. -/
def peekPathState (buf : RecvBuf) : UInt8 :=
  if 4 ≤ buf.purePayloadSize then buf.byte 3 else 0

end RecvBuf

/-- The two sides. -/
inductive Role where
  | server
  | client
  deriving DecidableEq, Repr

/-- The check by which a side knows its peer's frames. -/
def Role.checkPeer : Role → RecvBuf → Bool
  | .server => RecvBuf.checkCli
  | .client => RecvBuf.checkHost

/-- Something was received, and it passes the check. -/
def Role.hears (role : Role) (buf : RecvBuf) : Bool :=
  buf.bytes ≠ [] && role.checkPeer buf

/-- The message that a side fills in and sends. -/
def Role.hsMsg : Role → IpcPubSubIdInitMsg
  | .server => { hostFlag := true, cliFlag := false, runStatus := true, pathState := 0 }
  | .client => { hostFlag := false, cliFlag := true, runStatus := true, pathState := 0 }

/-! ## The loops -/

/-- `State`. -/
inductive HsState where
  | runHS
  | stopHS
  deriving DecidableEq, Repr

/-- Where the handshake thread is. -/
inductive HsPlace where
  /-- `connect_with_retry`. -/
  | connecting
  /-- The test of `running` at the head of the loop. -/
  | head
  | sending
  | receiving
  /-- The client's `send` of its answer, up to eleven times. -/
  | answering
  /-- The peer is not gone by a farewell: its silence is measured. -/
  | silence
  /-- Behind the loop. -/
  | leaving
  | finished
  deriving DecidableEq, Repr

/-- The thread's local variables, the members of the object that it writes, and the frames
that it has sent.  Times are in nanoseconds. -/
structure HsVars where
  place : HsPlace
  hsMsg : IpcPubSubIdInitMsg
  hsBuf : Option IpcPubSubIdInitMsg
  lastSentSignal : UInt8
  st : HsState
  sendCnt : ℕ
  peerPostHsSeen : Bool
  lastPeerFrame : ℕ
  handshakeCompleted : Bool
  peerPathSignal : UInt8
  sent : List IpcPubSubIdInitMsg
  deriving DecidableEq, Repr

/-- What the calls of the loops return. -/
inductive HsEvent where
  /-- `connect_with_retry`; then `hs_path_signal_` and the clock are read. -/
  | connect (ok : Bool) (signal : UInt8) (now : ℕ)
  /-- `running` and `hs_path_signal_` at the head of the loop. -/
  | loop (running : Bool) (signal : UInt8)
  /-- `send`; in `StopHS` `hs_path_signal_` is read before it. -/
  | send (ok : Bool) (signal : UInt8)
  /-- `receive` returns a datagram, or nothing (empty bytes); the clock is read where the
  frame is the peer's. -/
  | receive (buf : RecvBuf) (now : ℕ)
  /-- The clock and `running` in the test for silence. -/
  | measure (now : ℕ) (running : Bool)

/-- `kPeerSilentTimeoutNs`. -/
def peerSilentTimeoutNs : ℕ := 1500000000

namespace HsVars

/-- `refresh_out_frame`. -/
def refreshOutFrame (s : HsVars) (signal : UInt8) : HsVars :=
  if signal = s.lastSentSignal then s
  else
    { s with
      hsMsg := { s.hsMsg with pathState := signal }
      hsBuf := some { s.hsMsg with pathState := signal }
      lastSentSignal := signal }

/-- `send(hs_buf)`. -/
def send (s : HsVars) : HsVars :=
  { s with sent := s.sent ++ s.hsBuf.toList }

/-- The handshake is completed. -/
def complete (s : HsVars) : HsVars :=
  { s with handshakeCompleted := true, st := .stopHS, place := .head }

/-- The frame of `RunHS` does not complete the handshake of the role. -/
def refuses (role : Role) (buf : RecvBuf) : Bool :=
  !role.hears buf || !buf.checkRunStatus

/-- What every datagram of `RunHS` changes. -/
def peek (s : HsVars) (buf : RecvBuf) : HsVars :=
  if buf.bytes = [] then s else { s with peerPathSignal := buf.peekPathState }

/-- `receive` in the server's `RunHS`. -/
def serverReceive (s : HsVars) (buf : RecvBuf) : HsVars :=
  if refuses .server buf then { s.peek buf with place := .head }
  else (s.peek buf).complete

/-- `receive` in the client's `RunHS`. -/
def clientReceive (s : HsVars) (buf : RecvBuf) : HsVars :=
  if refuses .client buf then { s.peek buf with place := .head }
  else { s.peek buf with place := .answering }

/-- A frame of the peer in `StopHS`. -/
def hear (role : Role) (s : HsVars) (buf : RecvBuf) (now : ℕ) : HsVars :=
  if role.hears buf then
    { s with peerPostHsSeen := true, lastPeerFrame := now, peerPathSignal := buf.peekPathState }
  else s

/-- `receive` in `StopHS`. -/
def watch (role : Role) (s : HsVars) (buf : RecvBuf) (now : ℕ) : HsVars :=
  if !role.hears buf || buf.checkRunStatus then { s.hear role buf now with place := .silence }
  else { s.hear role buf now with handshakeCompleted := false, st := .runHS, place := .head }

/-- The test for silence. -/
def measure (s : HsVars) (now : ℕ) (running : Bool) : HsVars :=
  if s.peerPostHsSeen ∧ now - s.lastPeerFrame > peerSilentTimeoutNs ∧ running then
    { s with handshakeCompleted := false, st := .runHS, peerPostHsSeen := false, place := .head }
  else { s with place := .head }

/-- The client's answer: it stays in `RunHS` if the answer does not leave. -/
def answer (s : HsVars) (ok : Bool) : HsVars :=
  if ok then s.send.complete
  else if s.sendCnt + 1 > 10 then { s with sendCnt := 0, place := .head }
  else { s with sendCnt := s.sendCnt + 1 }

/-- Where an iteration of the loop starts: the client's `RunHS` does not send first. -/
def firstPlace (role : Role) (st : HsState) : HsPlace :=
  match role, st with
  | .client, .runHS => .receiving
  | _, _ => .sending

/-- One step of `server_handshake` or `client_handshake`. -/
def step (role : Role) (s : HsVars) : HsEvent → Option HsVars
  | .connect ok signal now =>
      if s.place ≠ .connecting then none
      else if !ok then some { s with place := .finished }
      else some { s.refreshOutFrame signal with lastPeerFrame := now, place := .head }
  | .loop running signal =>
      if s.place ≠ .head then none
      else if !running then some { s with place := .leaving }
      else some { s.refreshOutFrame signal with place := firstPlace role s.st }
  | .send ok signal =>
      match s.place with
      | .sending =>
          let s := if s.st = .stopHS then s.refreshOutFrame signal else s
          some (if ok then { s.send with place := .receiving } else { s with place := .head })
      | .answering => some (s.answer ok)
      | .leaving =>
          let bye := { s.hsMsg with runStatus := false }
          some
            { s with
              hsMsg := bye, hsBuf := some bye, place := .finished
              sent := if ok then s.sent ++ [bye] else s.sent }
      | _ => none
  | .receive buf now =>
      if s.place ≠ .receiving then none
      else
        match s.st, role with
        | .runHS, .server => some (s.serverReceive buf)
        | .runHS, .client => some (s.clientReceive buf)
        | .stopHS, _ => some (s.watch role buf now)
  | .measure now running =>
      if s.place ≠ .silence then none else some (s.measure now running)

/-- The thread starts. -/
def init (role : Role) : HsVars where
  place := .connecting
  hsMsg := role.hsMsg
  hsBuf := none
  lastSentSignal := 0xFF
  st := .runHS
  sendCnt := 0
  peerPostHsSeen := false
  lastPeerFrame := 0
  handshakeCompleted := false
  peerPathSignal := 0
  sent := []

end HsVars

/-! ## An observer -/

/-- The loop with what an observer of its calls knows: when the last frame of the peer was
received since the handshake was completed, when the farewell was received that ended the
connection before (if one did), and whether a handshake was ever dropped for no reason of
its own connection. -/
structure Observed where
  vars : HsVars
  peerFrameAt : Option ℕ
  farewellAt : Option ℕ
  droppedWithoutReason : Bool
  deriving DecidableEq, Repr

namespace Observed

variable (role : Role)

/-- The event brings a frame of the peer. -/
def PeerFrame : HsEvent → Prop
  | .receive buf _ => role.hears buf
  | _ => False

/-- A reason of the connection under way to drop its handshake: the peer's farewell was just
received, or more than 1500 ms have passed since the last frame of the peer, which was
received after the handshake was completed. -/
def HasReason (o : Observed) : HsEvent → Prop
  | .receive buf _ => role.hears buf ∧ ¬ buf.checkRunStatus
  | .measure now _ => ∃ at_ ∈ o.peerFrameAt, now - at_ > peerSilentTimeoutNs
  | _ => False

instance : DecidablePred (PeerFrame role) := fun e => by
  cases e <;> unfold PeerFrame <;> infer_instance

instance (o : Observed) : DecidablePred (o.HasReason role) := fun e => by
  cases e <;> unfold HasReason <;> infer_instance

/-- When the event's clock was read. -/
def time : HsEvent → ℕ
  | .receive _ now | .measure now _ => now
  | _ => 0

/-- What the observer notes. -/
def observe (o : Observed) (e : HsEvent) (vars : HsVars) : Observed where
  vars := vars
  peerFrameAt :=
    if ¬ o.vars.handshakeCompleted ∧ vars.handshakeCompleted then none
    else if o.vars.handshakeCompleted ∧ PeerFrame role e then some (time e)
    else o.peerFrameAt
  farewellAt :=
    if o.vars.handshakeCompleted ∧ ¬ vars.handshakeCompleted then
      if PeerFrame role e then some (time e) else none
    else o.farewellAt
  droppedWithoutReason := o.droppedWithoutReason ||
    (o.vars.handshakeCompleted && !vars.handshakeCompleted && !decide (o.HasReason role e))

end Observed

/-- The handshake thread of a side, observed. -/
def handshake (role : Role) : Machine Observed HsEvent where
  init :=
    { vars := .init role, peerFrameAt := none, farewellAt := none, droppedWithoutReason := false }
  step := fun o e => (o.vars.step role e).map (o.observe role e)

/-- `server_handshake`. -/
def serverHandshake : Machine Observed HsEvent := handshake .server

/-- `client_handshake`. -/
def clientHandshake : Machine Observed HsEvent := handshake .client

/-- A handshake was dropped for no reason of its own connection. -/
def Unfounded (o : Observed) : Prop :=
  o.droppedWithoutReason = true

instance : DecidablePred Unfounded := fun o =>
  inferInstanceAs (Decidable (o.droppedWithoutReason = true))

/-- Every handshake that was dropped was dropped for a reason of its own connection. -/
def DropsForReason (o : Observed) : Prop :=
  ¬ Unfounded o

/-- Where a farewell ended the connection before and no frame of the peer has been received in
this one, the silence is measured at most 1500 ms after the farewell, or on the way out. -/
def MeasuredSoon (o : Observed) : HsEvent → Prop
  | .measure now running =>
      o.peerFrameAt = none → running → ∀ at_ ∈ o.farewellAt, now - at_ ≤ peerSilentTimeoutNs
  | _ => True

instance (o : Observed) : DecidablePred (MeasuredSoon o) := fun e => by
  cases e <;> unfold MeasuredSoon <;> infer_instance

/-! ## What the two variables say -/

/-- The last frame of the peer that counts: the last of this connection, or else the farewell
that ended the one before. -/
def Observed.lastHeard (o : Observed) : Option ℕ :=
  if o.vars.handshakeCompleted then o.peerFrameAt.or o.farewellAt else o.farewellAt

/-- What every step of a handshake thread keeps. -/
structure Inv (o : Observed) : Prop where
  completed : o.vars.handshakeCompleted = true ↔ o.vars.st = .stopHS
  silence : o.vars.place = .silence → o.vars.st = .stopHS
  answering : o.vars.place = .answering → o.vars.st = .runHS
  connecting : o.vars.place = .connecting → o.vars.peerPostHsSeen = false
  seen : o.vars.peerPostHsSeen = o.lastHeard.isSome
  last : ∀ at_ ∈ o.lastHeard, o.vars.lastPeerFrame = at_

/-- The step leaves alone what the invariant is about, but for the place. -/
structure Quiet (s t : HsVars) : Prop where
  completed : t.handshakeCompleted = s.handshakeCompleted
  st : t.st = s.st
  seen : t.peerPostHsSeen = s.peerPostHsSeen
  last : t.peerPostHsSeen = true → t.lastPeerFrame = s.lastPeerFrame
  silence : t.place = .silence → s.st = .stopHS
  answering : t.place = .answering → s.st = .runHS
  connecting : t.place ≠ .connecting

variable {role : Role} {o o' : Observed} {s t : HsVars} {e : HsEvent}

theorem inv_init (role : Role) : Inv (handshake role).init where
  completed := by simp [handshake, HsVars.init]
  silence := nofun
  answering := nofun
  connecting := fun _ => rfl
  seen := rfl
  last := fun _ h => nomatch h

theorem refreshOutFrame_quiet (s : HsVars) (signal : UInt8) :
    (s.refreshOutFrame signal).handshakeCompleted = s.handshakeCompleted ∧
      (s.refreshOutFrame signal).st = s.st ∧
      (s.refreshOutFrame signal).peerPostHsSeen = s.peerPostHsSeen ∧
      (s.refreshOutFrame signal).lastPeerFrame = s.lastPeerFrame := by
  unfold HsVars.refreshOutFrame
  split <;> exact ⟨rfl, rfl, rfl, rfl⟩

/-- A step that leaves the invariant's variables alone drops nothing and keeps it. -/
theorem Inv.of_quiet (h : Inv o) (hq : Quiet o.vars t)
    (hno : o.vars.handshakeCompleted = true → ¬ Observed.PeerFrame role e) :
    Inv (o.observe role e t) ∧
      (o.observe role e t).droppedWithoutReason = o.droppedWithoutReason := by
  have hpeer : (o.observe role e t).peerFrameAt = o.peerFrameAt := by
    simp only [Observed.observe, hq.completed]
    rw [if_neg fun hc => hc.1 hc.2, if_neg fun hc => hno hc.1 hc.2]
  have hfarewell : (o.observe role e t).farewellAt = o.farewellAt := by
    simp only [Observed.observe, hq.completed]
    rw [if_neg fun hc => hc.2 hc.1]
  have hheard : (o.observe role e t).lastHeard = o.lastHeard := by
    unfold Observed.lastHeard
    rw [hpeer, hfarewell]
    simp only [Observed.observe, hq.completed]
  refine ⟨⟨?_, ?_, ?_, ?_, ?_, ?_⟩, ?_⟩
  · rw [show (o.observe role e t).vars = t from rfl, hq.completed, hq.st]
    exact h.completed
  · intro hplace
    exact hq.st.trans (hq.silence hplace)
  · intro hplace
    exact hq.st.trans (hq.answering hplace)
  · exact fun hplace => absurd hplace hq.connecting
  · rw [hheard, ← h.seen]
    exact hq.seen
  · intro at_ hat
    rw [hheard] at hat
    have hseen : t.peerPostHsSeen = true := by
      rw [hq.seen, h.seen, Option.mem_def.mp hat]
      rfl
    exact (hq.last hseen).trans (h.last at_ hat)
  · simp only [Observed.observe, hq.completed]
    cases o.vars.handshakeCompleted <;> simp

/-- The handshake is completed: what is known of the connection before stays. -/
theorem Inv.of_complete (h : Inv o) (hst : o.vars.st = .runHS) (hcomplete : t.handshakeCompleted)
    (htst : t.st = .stopHS) (hplace : t.place = .head)
    (hseen : t.peerPostHsSeen = o.vars.peerPostHsSeen)
    (hlast : t.lastPeerFrame = o.vars.lastPeerFrame) :
    Inv (o.observe role e t) ∧
      (o.observe role e t).droppedWithoutReason = o.droppedWithoutReason := by
  have hold : o.vars.handshakeCompleted = false := by
    cases hc : o.vars.handshakeCompleted with
    | false => rfl
    | true =>
        rw [h.completed.mp hc] at hst
        cases hst
  have hheard : (o.observe role e t).lastHeard = o.lastHeard := by
    simp [Observed.lastHeard, Observed.observe, hcomplete, hold]
  refine ⟨⟨?_, ?_, ?_, ?_, ?_, ?_⟩, ?_⟩
  · exact iff_of_true hcomplete htst
  · exact fun _ => htst
  · intro hans
    rw [show (o.observe role e t).vars.place = .head from hplace] at hans
    cases hans
  · intro hcon
    rw [show (o.observe role e t).vars.place = .head from hplace] at hcon
    cases hcon
  · rw [hheard, ← h.seen]
    exact hseen
  · intro at_ hat
    rw [hheard] at hat
    exact hlast.trans (h.last at_ hat)
  · simp [Observed.observe, hold]

/-- A frame in `StopHS`: the peer's frame is what was heard last, and its farewell is a
reason. -/
theorem Inv.of_watch (h : Inv o) (hst : o.vars.st = .stopHS) (buf : RecvBuf) (now : ℕ) :
    Inv (o.observe role (.receive buf now) (o.vars.watch role buf now)) ∧
      (o.observe role (.receive buf now) (o.vars.watch role buf now)).droppedWithoutReason
        = o.droppedWithoutReason := by
  have hold : o.vars.handshakeCompleted = true := h.completed.mpr hst
  by_cases hpeer : Observed.PeerFrame role (.receive buf now)
  · have hheard : role.hears buf = true := hpeer
    by_cases hrun : buf.checkRunStatus = true
    · -- the connection goes on
      have hwatch : o.vars.watch role buf now =
          { o.vars with
            peerPostHsSeen := true, lastPeerFrame := now, peerPathSignal := buf.peekPathState
            place := .silence } := by
        simp [HsVars.watch, HsVars.hear, hheard, hrun]
      rw [hwatch]
      refine ⟨⟨?_, ?_, nofun, nofun, ?_, ?_⟩, ?_⟩
      · exact h.completed
      · exact fun _ => hst
      · simp [Observed.lastHeard, Observed.observe, hold, hpeer]
      · intro at_ hat
        simpa [Observed.lastHeard, Observed.observe, hold, hpeer, Observed.time] using hat
      · simp [Observed.observe, hold]
    · -- the farewell ends it
      have hreason : o.HasReason role (.receive buf now) := ⟨hpeer, hrun⟩
      have hwatch : o.vars.watch role buf now =
          { o.vars with
            peerPostHsSeen := true, lastPeerFrame := now, peerPathSignal := buf.peekPathState
            handshakeCompleted := false, st := .runHS, place := .head } := by
        simp [HsVars.watch, HsVars.hear, hheard, hrun]
      rw [hwatch]
      refine ⟨⟨?_, nofun, nofun, nofun, ?_, ?_⟩, ?_⟩
      · simp [Observed.observe]
      · simp [Observed.lastHeard, Observed.observe, hold, hpeer]
      · intro at_ hat
        simpa [Observed.lastHeard, Observed.observe, hold, hpeer, Observed.time] using hat
      · simp [Observed.observe, hold, hreason]
  · have hheard : role.hears buf = false := Bool.eq_false_iff.mpr hpeer
    have hwatch : o.vars.watch role buf now = { o.vars with place := .silence } := by
      simp [HsVars.watch, HsVars.hear, hheard]
    rw [hwatch]
    apply h.of_quiet _ fun _ => hpeer
    exact ⟨rfl, rfl, rfl, fun _ => rfl, fun _ => hst, nofun, nofun⟩

/-- The test for silence drops the handshake without a reason exactly where it is not made
soon. -/
theorem Inv.of_measure (h : Inv o) (hst : o.vars.st = .stopHS) (now : ℕ) (running : Bool) :
    Inv (o.observe role (.measure now running) (o.vars.measure now running)) ∧
      ((o.observe role (.measure now running) (o.vars.measure now running)).droppedWithoutReason
          = true ↔
        o.droppedWithoutReason = true ∨ ¬ MeasuredSoon o (.measure now running)) := by
  have hold : o.vars.handshakeCompleted = true := h.completed.mpr hst
  have hheard : o.lastHeard = o.peerFrameAt.or o.farewellAt := if_pos hold
  by_cases hdrop : o.vars.peerPostHsSeen ∧ now - o.vars.lastPeerFrame > peerSilentTimeoutNs ∧ running
  · obtain ⟨hseen, hsilent, hrunning⟩ := hdrop
    have hmeasure : o.vars.measure now running =
        { o.vars with
          handshakeCompleted := false, st := .runHS, peerPostHsSeen := false, place := .head } :=
      if_pos ⟨hseen, hsilent, hrunning⟩
    have hsome : o.lastHeard.isSome = true := by rw [← h.seen]; exact hseen
    obtain ⟨at_, hat⟩ := Option.isSome_iff_exists.mp hsome
    have hlate : now - at_ > peerSilentTimeoutNs := by rw [← h.last at_ hat]; exact hsilent
    rw [hmeasure]
    refine ⟨⟨?_, nofun, nofun, nofun, ?_, ?_⟩, ?_⟩
    · simp [Observed.observe]
    · simp [Observed.lastHeard, Observed.observe, hold, Observed.PeerFrame]
    · simp [Observed.lastHeard, Observed.observe, hold, Observed.PeerFrame]
    · rw [hheard] at hat
      have hreason : o.HasReason role (.measure now running) ↔
          MeasuredSoon o (.measure now running) := by
        cases hpeer : o.peerFrameAt with
        | none =>
            rw [hpeer, Option.none_or] at hat
            refine iff_of_false (fun hreason => ?_) fun hsoon => ?_
            · obtain ⟨_, hmem, _⟩ := hreason
              rw [hpeer] at hmem
              cases hmem
            · exact absurd (hsoon hpeer hrunning at_ hat) (Nat.not_le.mpr hlate)
        | some last =>
            rw [hpeer, Option.some_or] at hat
            cases hat
            refine iff_of_true ⟨at_, hpeer, hlate⟩ fun hnone => ?_
            rw [hpeer] at hnone
            cases hnone
      simp [Observed.observe, hold, hreason]
  · have hmeasure : o.vars.measure now running = { o.vars with place := .head } := if_neg hdrop
    rw [hmeasure]
    have hsoon : MeasuredSoon o (.measure now running) := by
      intro hpeer hrunning at_ hat
      have hlast : at_ ∈ o.lastHeard := by rw [hheard, hpeer, Option.none_or]; exact hat
      have hseen : o.vars.peerPostHsSeen = true := by
        rw [h.seen, Option.mem_def.mp hlast]
        rfl
      by_contra hlate
      apply hdrop
      rw [h.last at_ hlast]
      exact ⟨hseen, Nat.not_le.mp hlate, hrunning⟩
    have hquiet : Quiet o.vars { o.vars with place := .head } :=
      ⟨rfl, rfl, rfl, fun _ => rfl, nofun, nofun, nofun⟩
    have hno : ¬ Observed.PeerFrame role (.measure now running) := not_false
    obtain ⟨hinv, hsame⟩ := h.of_quiet hquiet fun _ => hno
    refine ⟨hinv, ?_⟩
    rw [hsame]
    simp [hsoon]

/-- A step other than the test for silence is soon. -/
theorem kept_of_same {Q : Prop} (h : Inv o' ∧ o'.droppedWithoutReason = o.droppedWithoutReason)
    (hsoon : Q) : Inv o' ∧ (o'.droppedWithoutReason = true ↔ o.droppedWithoutReason = true ∨ ¬ Q) :=
  ⟨h.1, by rw [h.2]; exact ⟨Or.inl, fun hor => hor.resolve_right (not_not_intro hsoon)⟩⟩

/-- The thread connects: it has not heard anything yet, so that the first reading of the clock
does not matter. -/
theorem quiet_connect {ok : Bool} {signal : UInt8} {now : ℕ} (h : Inv o)
    (ht : o.vars.step role (.connect ok signal now) = some t) : Quiet o.vars t := by
  simp only [HsVars.step] at ht
  split at ht
  · cases ht
  rename_i hplace
  have hunseen := h.connecting (not_not.mp hplace)
  obtain ⟨hc, hst, hseen, -⟩ := refreshOutFrame_quiet o.vars signal
  split at ht <;> cases ht
  · exact ⟨rfl, rfl, rfl, fun _ => rfl, nofun, nofun, nofun⟩
  · refine ⟨hc, hst, hseen, fun hs => ?_, nofun, nofun, nofun⟩
    rw [show _ = o.vars.peerPostHsSeen from hseen, hunseen] at hs
    cases hs

/-- An iteration starts with a `send` or a `receive`. -/
theorem firstPlace_eq (role : Role) (st : HsState) :
    HsVars.firstPlace role st = .sending ∨ HsVars.firstPlace role st = .receiving := by
  unfold HsVars.firstPlace
  split
  · exact Or.inr rfl
  · exact Or.inl rfl

theorem quiet_loop {running : Bool} {signal : UInt8}
    (ht : s.step role (.loop running signal) = some t) : Quiet s t := by
  simp only [HsVars.step] at ht
  split at ht
  · cases ht
  obtain ⟨hc, hst, hseen, hlast⟩ := refreshOutFrame_quiet s signal
  split at ht <;> cases ht
  · exact ⟨rfl, rfl, rfl, fun _ => rfl, nofun, nofun, nofun⟩
  · refine ⟨hc, hst, hseen, fun _ => hlast, fun hp => ?_, fun hp => ?_, fun hp => ?_⟩ <;>
      rcases firstPlace_eq role s.st with hfirst | hfirst <;> cases hfirst.symm.trans hp

/-- A `send` other than the client's answer. -/
theorem quiet_send {ok : Bool} {signal : UInt8} (hplace : s.place ≠ .answering)
    (ht : s.step role (.send ok signal) = some t) : Quiet s t := by
  simp only [HsVars.step] at ht
  split at ht
  · obtain ⟨hc, hst, hseen, hlast⟩ := refreshOutFrame_quiet s signal
    cases ht
    split <;> split
    · exact ⟨hc, hst, hseen, fun _ => hlast, nofun, nofun, nofun⟩
    · exact ⟨rfl, rfl, rfl, fun _ => rfl, nofun, nofun, nofun⟩
    · exact ⟨hc, hst, hseen, fun _ => hlast, nofun, nofun, nofun⟩
    · exact ⟨rfl, rfl, rfl, fun _ => rfl, nofun, nofun, nofun⟩
  · contradiction
  · cases ht
    exact ⟨rfl, rfl, rfl, fun _ => rfl, nofun, nofun, nofun⟩
  · cases ht

/-- The client's answer completes the handshake if it leaves. -/
theorem Inv.of_answer (h : Inv o) (hplace : o.vars.place = .answering) (ok : Bool)
    (signal : UInt8) :
    Inv (o.observe role (.send ok signal) (o.vars.answer ok)) ∧
      (o.observe role (.send ok signal) (o.vars.answer ok)).droppedWithoutReason
        = o.droppedWithoutReason := by
  have hst := h.answering hplace
  have hno : ¬ Observed.PeerFrame role (.send ok signal) := not_false
  unfold HsVars.answer
  split
  · exact h.of_complete hst rfl rfl rfl rfl rfl
  split
  · refine h.of_quiet ?_ fun _ => hno
    exact ⟨rfl, rfl, rfl, fun _ => rfl, nofun, nofun, nofun⟩
  · refine h.of_quiet ?_ fun _ => hno
    refine ⟨rfl, rfl, rfl, fun _ => rfl, fun hp => ?_, fun _ => hst, fun hp => ?_⟩
    · cases hplace.symm.trans hp
    · cases hplace.symm.trans hp

/-- A frame in `RunHS`: the server completes the handshake with it, the client answers first. -/
theorem Inv.of_receive (h : Inv o) (hst : o.vars.st = .runHS) {buf : RecvBuf} {now : ℕ}
    (ht : t = o.vars.serverReceive buf ∨ t = o.vars.clientReceive buf) :
    Inv (o.observe role (.receive buf now) t) ∧
      (o.observe role (.receive buf now) t).droppedWithoutReason = o.droppedWithoutReason := by
  have hpeek : (o.vars.peek buf).handshakeCompleted = o.vars.handshakeCompleted ∧
      (o.vars.peek buf).st = o.vars.st ∧ (o.vars.peek buf).peerPostHsSeen = o.vars.peerPostHsSeen ∧
      (o.vars.peek buf).lastPeerFrame = o.vars.lastPeerFrame := by
    unfold HsVars.peek
    split <;> exact ⟨rfl, rfl, rfl, rfl⟩
  obtain ⟨hc, hpst, hseen, hlast⟩ := hpeek
  have hno : o.vars.handshakeCompleted = true →
      ¬ Observed.PeerFrame role (.receive buf now) := by
    intro hcompleted
    rw [h.completed.mp hcompleted] at hst
    cases hst
  rcases ht with rfl | rfl
  · unfold HsVars.serverReceive
    split
    · refine h.of_quiet ?_ hno
      exact ⟨hc, hpst, hseen, fun _ => hlast, nofun, nofun, nofun⟩
    · exact h.of_complete hst rfl rfl rfl hseen hlast
  · unfold HsVars.clientReceive
    refine h.of_quiet ?_ hno
    split
    · exact ⟨hc, hpst, hseen, fun _ => hlast, nofun, nofun, nofun⟩
    · exact ⟨hc, hpst, hseen, fun _ => hlast, nofun, fun _ => hst, nofun⟩

/-- A step keeps the invariant, and drops a handshake without a reason exactly where it
measures the silence too late. -/
theorem inv_step (h : Inv o) (hstep : (handshake role).step o e = some o') :
    Inv o' ∧ (o'.droppedWithoutReason = true ↔
      o.droppedWithoutReason = true ∨ ¬ MeasuredSoon o e) := by
  obtain ⟨t, ht, rfl⟩ := Option.map_eq_some_iff.mp hstep
  cases e with
  | connect ok signal now =>
      exact kept_of_same (h.of_quiet (quiet_connect h ht) fun _ => not_false) trivial
  | loop running signal =>
      exact kept_of_same (h.of_quiet (quiet_loop ht) fun _ => not_false) trivial
  | send ok signal =>
      refine kept_of_same ?_ trivial
      by_cases hplace : o.vars.place = .answering
      · simp only [HsVars.step, hplace] at ht
        cases ht
        exact h.of_answer hplace ok signal
      · exact h.of_quiet (quiet_send hplace ht) fun _ => not_false
  | receive buf now =>
      refine kept_of_same ?_ trivial
      simp only [HsVars.step] at ht
      split at ht
      · cases ht
      cases hst : o.vars.st with
      | runHS =>
          apply h.of_receive hst
          cases role <;> simp only [hst, Option.some.injEq] at ht
          · exact Or.inl ht.symm
          · exact Or.inr ht.symm
      | stopHS =>
          simp only [hst, Option.some.injEq] at ht
          rw [← ht]
          exact h.of_watch hst buf now
  | measure now running =>
      simp only [HsVars.step] at ht
      split at ht
      · cases ht
      rename_i hplace
      cases ht
      exact h.of_measure (h.silence (not_not.mp hplace)) now running

/-! ## Runs -/

/-- **Handshakes are dropped for a reason of their own connection** exactly in the runs in which
a connection that follows a farewell of the peer is measured soon: until its first frame of
the peer, no test for silence comes more than 1500 ms after that farewell. -/
theorem drops_for_reason_iff (role : Role) {events : List HsEvent} {o : Observed}
    (hrun : (handshake role).run events = some o) :
    DropsForReason o ↔ (handshake role).Guarded MeasuredSoon events := by
  constructor
  · intro hclean
    have hunfounded : ¬ Unfounded o := hclean
    refine Machine.guardedFrom_of_unmarked ?_ ?_ ?_ (inv_init role) hrun hunfounded
    · exact fun _ _ _ h hstep => (inv_step h hstep).1
    · exact fun _ _ _ h hstep hlate => (inv_step h hstep).2.mpr (Or.inr hlate)
    · intro o e o' hmarked hstep
      obtain ⟨t, -, rfl⟩ := Option.map_eq_some_iff.mp hstep
      have hold : o.droppedWithoutReason = true := hmarked
      simp [Unfounded, Observed.observe, hold]
  · intro hguarded
    have hclean : Inv o ∧ DropsForReason o := by
      apply Machine.invariant_of_guarded _ _ hguarded hrun
      · exact ⟨inv_init role, Bool.false_ne_true⟩
      · intro o e o' h hsoon hstep
        obtain ⟨hinv, hiff⟩ := inv_step h.1 hstep
        refine ⟨hinv, fun hdropped => ?_⟩
        rcases hiff.mp hdropped with hold | hlate
        · exact h.2 hold
        · exact hlate hsoon
    exact hclean.2

/-- A frame of a side, as received. -/
def frame (hostFlag cliFlag runStatus : UInt8) : RecvBuf where
  bytes := writeMessage 0 4 [[hostFlag], [cliFlag], [runStatus], [0]]
  behind := fun _ => 0

/-- A handshake of the server: it says hello and hears the client. -/
def serverMeets (now : ℕ) : List HsEvent :=
  [.loop true 0, .send true 0, .receive (frame 0 1 1) now]

/-- The server hears the client's farewell. -/
def serverParts (now : ℕ) : List HsEvent :=
  [.loop true 0, .send true 0, .receive (frame 0 1 0) now]

/-- The server hears its own frame, and measures. -/
def serverHearsItself (now : ℕ) : List HsEvent :=
  [.loop true 0, .send true 0, .receive (frame 1 0 1) now, .measure now true]

/-- A client that comes, goes, and comes back two seconds later. -/
def serverRun : List HsEvent :=
  .connect true 0 0 :: (serverMeets 1000 ++ serverParts 2000 ++ serverMeets 2000002000 ++
    serverHearsItself 2000003000)

/-- The same for a client whose server is restarted. -/
def clientRun : List HsEvent :=
  [.connect true 0 0, .loop true 0, .receive (frame 1 0 1) 1000, .send true 0,
    .loop true 0, .send true 0, .receive (frame 1 0 0) 2000,
    .loop true 0, .receive (frame 1 0 1) 2000002000, .send true 0,
    .loop true 0, .send true 0, .receive (frame 0 1 1) 2000003000, .measure 2000003000 true]

/-- The server's first connection, up to the client's farewell. -/
theorem drops_for_reason_iff_serverRun :
    ∃ o, (handshake .server).run (serverRun.take 7) = some o ∧
      (DropsForReason o ↔ (handshake .server).Guarded MeasuredSoon (serverRun.take 7)) := by
  have hsome : ((handshake .server).run (serverRun.take 7)).isSome = true := by decide +kernel
  obtain ⟨o, hrun⟩ := Option.isSome_iff_exists.mp hsome
  exact ⟨o, hrun, drops_for_reason_iff .server hrun⟩

/-- Neither side always has a reason: a peer that comes back two seconds after its farewell is
taken for silent before it can be heard. -/
theorem dropped_without_reason :
    (¬ ∀ (events : List HsEvent) (o : Observed),
      serverHandshake.run events = some o → DropsForReason o) ∧
    ¬ ∀ (events : List HsEvent) (o : Observed),
      clientHandshake.run events = some o → DropsForReason o := by
  constructor
  · intro hall
    have hbad : (serverHandshake.run serverRun).any (fun o => decide (Unfounded o)) = true := by
      decide +kernel
    obtain ⟨o, hrun, hdropped⟩ := Machine.exists_of_any hbad
    exact hall _ o hrun hdropped
  · intro hall
    have hbad : (clientHandshake.run clientRun).any (fun o => decide (Unfounded o)) = true := by
      decide +kernel
    obtain ⟨o, hrun, hdropped⟩ := Machine.exists_of_any hbad
    exact hall _ o hrun hdropped

end DzIpc.SerCli
