import DzIpc.SerCli.Handshake
import DzIpc.Wire.RoundTrip
import Mathlib.Data.List.GetD

/-!
# What the handshake takes for a frame

The handshake loops look at single bytes of whatever arrives on the multicast channel.  A frame
is the serialization of an `IpcPubSubIdInitMsg`: 16 bytes, or the 15 bytes of older versions,
which have no path state.

* `inspected` lists the bytes that an iteration looks at, and `step_congr` says that it
  looks at no other.
* `acts_only_on_frames_iff`: a loop treats a datagram as it should exactly if the datagram is
  a frame of the peer, or is long enough for the bytes that are looked at and happens to
  carry nothing that the loop would store or act on.
* `acts_without_frame` is a server that completes its handshake on three bytes.
-/

namespace DzIpc.SerCli

open Wire

/-! ## Frames on the wire -/

/-- A flag, as `serialize` caches it. -/
def flagByte (b : Bool) : UInt8 :=
  if b then 1 else 0

/-- A message that does not fill its first page. -/
theorem writeMessage_onePage (msgId n : ℕ) {pieces : List (List UInt8)}
    (hn : pieces.flatten.length = n) (hshort : n < ipcMsgMaxSize) :
    writeMessage msgId n pieces = pieces.flatten ++ tailBytes (correctTotalSize n) msgId 1 := by
  subst hn
  have hdiv : pieces.flatten.length / ipcMsgMaxSize = 0 := Nat.div_eq_of_lt hshort
  have hpages : pieces.flatten.length / ipcMsgMaxSize + 1 < 2 ^ 16 := by
    rw [hdiv]
    decide
  have hwithin : 0 % ipcMsgMaxSize + pieces.flatten.length < ipcMsgMaxSize := by
    rw [Nat.zero_mod, Nat.zero_add]
    exact hshort
  rw [writeMessage_eq msgId pieces hpages, Weave.weave_within hwithin, messageTail, hdiv]

namespace IpcPubSubIdInitMsg

/-- `IpcPubSubIdInitMsg::serialize`. -/
def serialize (m : IpcPubSubIdInitMsg) (msgId : ℕ) : List UInt8 :=
  writeMessage msgId 4
    [[flagByte m.hostFlag], [flagByte m.cliFlag], [flagByte m.runStatus], [m.pathState]]

/-- The frame of the versions before the path state. -/
def serializeOld (m : IpcPubSubIdInitMsg) (msgId : ℕ) : List UInt8 :=
  writeMessage msgId 3 [[flagByte m.hostFlag], [flagByte m.cliFlag], [flagByte m.runStatus]]

/-- The role in which a message is sent: exactly its flag is set. -/
def SentBy (m : IpcPubSubIdInitMsg) (role : Role) : Prop :=
  m.hostFlag = role.hsMsg.hostFlag ∧ m.cliFlag = role.hsMsg.cliFlag

theorem serialize_eq (m : IpcPubSubIdInitMsg) (msgId : ℕ) :
    m.serialize msgId = [flagByte m.hostFlag, flagByte m.cliFlag, flagByte m.runStatus, m.pathState,
      0, 1, 0, 1, 0, 0, 0, 16] ++ be32 msgId := by
  rw [serialize, writeMessage_onePage msgId 4 rfl (by decide)]
  rfl

theorem serializeOld_eq (m : IpcPubSubIdInitMsg) (msgId : ℕ) :
    m.serializeOld msgId = [flagByte m.hostFlag, flagByte m.cliFlag, flagByte m.runStatus,
      0, 1, 0, 1, 0, 0, 0, 15] ++ be32 msgId := by
  rw [serializeOld, writeMessage_onePage msgId 3 rfl (by decide)]
  rfl

end IpcPubSubIdInitMsg

/-- The other side. -/
def Role.peer : Role → Role
  | .server => .client
  | .client => .server

/-- The bytes are a frame that the role sends. -/
inductive IsFrame (role : Role) : List UInt8 → Prop
  | current (m : IpcPubSubIdInitMsg) (msgId : ℕ) (hrole : m.SentBy role) :
      IsFrame role (m.serialize msgId)
  | old (m : IpcPubSubIdInitMsg) (msgId : ℕ) (hrole : m.SentBy role) :
      IsFrame role (m.serializeOld msgId)

theorem IsFrame.length {role : Role} {bytes : List UInt8} (h : IsFrame role bytes) :
    15 ≤ bytes.length := by
  cases h with
  | current m msgId =>
      rw [m.serialize_eq]
      exact Nat.le_succ 15
  | old m msgId =>
      rw [m.serializeOld_eq]
      exact Nat.le_refl 15

theorem peekPathState_serialize {m : IpcPubSubIdInitMsg} {msgId : ℕ} {buf : RecvBuf}
    (h : buf.bytes = m.serialize msgId) : buf.peekPathState = m.pathState := by
  have hsize : buf.purePayloadSize = 4 := by
    rw [RecvBuf.purePayloadSize]
    simp [RecvBuf.byte, h, m.serialize_eq, be32]
  rw [RecvBuf.peekPathState, hsize, if_pos (by decide), RecvBuf.byte, h, m.serialize_eq]
  rfl

/-- An older frame is read as `PathState::Unknown`. -/
theorem peekPathState_serializeOld {m : IpcPubSubIdInitMsg} {msgId : ℕ} {buf : RecvBuf}
    (h : buf.bytes = m.serializeOld msgId) : buf.peekPathState = 0 := by
  have hsize : buf.purePayloadSize = 3 := by
    rw [RecvBuf.purePayloadSize]
    simp [RecvBuf.byte, h, m.serializeOld_eq, be32]
  rw [RecvBuf.peekPathState, hsize, if_neg (by decide)]

/-! ## What an iteration looks at -/

/-- Where the other side says who it is. -/
def Role.peerByte : Role → ℕ
  | .server => 1
  | .client => 0

namespace RecvBuf

/-- The bytes that `peek_path_state` looks at. -/
def peeked (buf : RecvBuf) : List ℕ :=
  let n := buf.bytes.length
  if n < 12 then []
  else [n - 12, n - 11, n - 8, n - 7, n - 6, n - 5] ++ if 4 ≤ buf.purePayloadSize then [3] else []

/-- `receive` came back with nothing. -/
def nothing : RecvBuf where
  bytes := []
  behind := fun _ => 0

variable {buf buf' : RecvBuf}

theorem peeked_inside : ∀ i ∈ buf.peeked, i < buf.bytes.length := by
  intro i hi
  by_cases hshort : buf.bytes.length < 12
  · rw [peeked, if_pos hshort] at hi
    nomatch hi
  · rw [peeked, if_neg hshort] at hi
    rcases List.mem_append.mp hi with htail | hfourth
    · simp only [List.mem_cons, List.not_mem_nil, or_false] at htail
      omega
    · split at hfourth
      · rw [List.mem_singleton] at hfourth
        omega
      · nomatch hfourth

theorem byte_congr (hbytes : buf.bytes = buf'.bytes) {i : ℕ} (hi : i < buf.bytes.length) :
    buf.byte i = buf'.byte i := by
  rw [byte, byte, ← hbytes, List.getD_eq_getElem _ _ hi, List.getD_eq_getElem _ _ hi]

/-- The path state depends on the datagram alone. -/
theorem peekPathState_congr (hbytes : buf.bytes = buf'.bytes) :
    buf.peekPathState = buf'.peekPathState := by
  by_cases hshort : buf.bytes.length < 12
  · have hsize : buf.purePayloadSize = 0 := if_pos hshort
    have hsize' : buf'.purePayloadSize = 0 := if_pos (by rw [← hbytes]; exact hshort)
    rw [peekPathState, peekPathState, hsize, hsize']
    rfl
  · have hat : ∀ i, 0 < i → buf.byte (buf.bytes.length - i) = buf'.byte (buf.bytes.length - i) :=
      fun i hi => byte_congr hbytes (by omega)
    have hsize : buf.purePayloadSize = buf'.purePayloadSize := by
      rw [purePayloadSize, purePayloadSize, ← hbytes]
      simp only [hat 12 (by decide), hat 11 (by decide), hat 8 (by decide), hat 7 (by decide),
        hat 6 (by decide), hat 5 (by decide)]
    rw [peekPathState, peekPathState, hsize, byte_congr hbytes (by omega)]

end RecvBuf

/-- The bytes that an iteration looks at: the role byte, the status byte behind a role byte that
fits, and what `peek_path_state` reads, in `StopHS` only behind a role byte that fits. -/
def inspected (role : Role) (st : HsState) (buf : RecvBuf) : List ℕ :=
  if buf.bytes = [] then []
  else
    role.peerByte :: (if role.checkPeer buf then [2] else [])
      ++ if st = .runHS ∨ role.checkPeer buf then buf.peeked else []

variable {role : Role} {s : HsVars} {buf buf' : RecvBuf} {now : ℕ}

theorem checkPeer_eq (role : Role) (buf : RecvBuf) :
    role.checkPeer buf = decide (buf.byte role.peerByte = 1) := by
  cases role <;> rfl

theorem checkPeer_congr (h : buf.byte role.peerByte = buf'.byte role.peerByte) :
    role.checkPeer buf = role.checkPeer buf' := by
  rw [checkPeer_eq, checkPeer_eq, h]

/-- The iteration looks at no byte that is not listed. -/
theorem step_congr (hbytes : buf.bytes = buf'.bytes)
    (hsame : ∀ i ∈ inspected role s.st buf, buf.byte i = buf'.byte i) :
    s.step role (.receive buf now) = s.step role (.receive buf' now) := by
  have hpeek := RecvBuf.peekPathState_congr hbytes
  by_cases hnil : buf.bytes = []
  · have hnil' : buf'.bytes = [] := by rw [← hbytes, hnil]
    simp [HsVars.step, HsVars.serverReceive, HsVars.clientReceive, HsVars.watch, HsVars.hear,
      HsVars.refuses, HsVars.peek, Role.hears, hnil, hnil']
  · rw [inspected, if_neg hnil] at hsame
    have hpeer := checkPeer_congr (hsame role.peerByte (by simp))
    have hrun : role.checkPeer buf = true → buf.checkRunStatus = buf'.checkRunStatus := by
      intro hcheck
      rw [RecvBuf.checkRunStatus, RecvBuf.checkRunStatus, hsame 2 (by simp [hcheck])]
    have hhears : role.hears buf = role.hears buf' := by
      rw [Role.hears, Role.hears, hpeer, hbytes]
    have hrefuses : HsVars.refuses role buf = HsVars.refuses role buf' := by
      cases hcheck : role.checkPeer buf with
      | false => simp [HsVars.refuses, Role.hears, ← hpeer, hcheck]
      | true => rw [HsVars.refuses, HsVars.refuses, hhears, hrun hcheck]
    have hkeeps : (!role.hears buf || buf.checkRunStatus)
        = (!role.hears buf' || buf'.checkRunStatus) := by
      cases hcheck : role.checkPeer buf with
      | false => simp [Role.hears, ← hpeer, hcheck]
      | true => rw [hhears, hrun hcheck]
    have hstate : s.peek buf = s.peek buf' := by
      rw [HsVars.peek, HsVars.peek, hbytes, hpeek]
    have hhear : s.hear role buf now = s.hear role buf' now := by
      rw [HsVars.hear, HsVars.hear, hhears, hpeek]
    cases hst : s.st <;> cases role <;>
      simp only [HsVars.step, hst, HsVars.serverReceive, HsVars.clientReceive, HsVars.watch,
        hrefuses, hkeeps, hstate, hhear]

/-! ## What an iteration does -/

/-- The loop treats a datagram as it should: it looks at its bytes only; unless it is a frame of
the other side, the loop goes on as if nothing had been received; and an older frame is read as
`PathState::Unknown`. -/
structure ActsOnlyOnFrames (role : Role) (s : HsVars) (buf : RecvBuf) (now : ℕ) : Prop where
  inside : ∀ i ∈ inspected role s.st buf, i < buf.bytes.length
  quiet : ¬ IsFrame role.peer buf.bytes →
    s.step role (.receive buf now) = s.step role (.receive .nothing now)
  old : ∀ (m : IpcPubSubIdInitMsg) (msgId : ℕ), buf.bytes = m.serializeOld msgId →
    buf.peekPathState = 0

/-- The role byte lies inside the datagram, and so does the status byte where it is read. -/
def ReadsInside (role : Role) (buf : RecvBuf) : Prop :=
  role.peerByte < buf.bytes.length ∧ (role.checkPeer buf → 2 < buf.bytes.length)

/-- The datagram carries nothing that the loop would store or act on: in `RunHS` it shows the path
state already stored and does not pass the two checks; in `StopHS` it does not pass the role check,
or it repeats what was stored at the same time. -/
def CarriesNothing (role : Role) (s : HsVars) (buf : RecvBuf) (now : ℕ) : Prop :=
  match s.st with
  | .runHS => buf.peekPathState = s.peerPathSignal ∧ HsVars.refuses role buf
  | .stopHS => role.checkPeer buf → buf.checkRunStatus ∧ s.peerPostHsSeen ∧
      s.lastPeerFrame = now ∧ buf.peekPathState = s.peerPathSignal

theorem inside_iff (hne : buf.bytes ≠ []) (st : HsState) :
    (∀ i ∈ inspected role st buf, i < buf.bytes.length) ↔ ReadsInside role buf := by
  rw [inspected, if_neg hne, ReadsInside]
  constructor
  · intro h
    refine ⟨h role.peerByte (by simp), fun hcheck => h 2 ?_⟩
    simp [hcheck]
  · rintro ⟨hpeer, hstatus⟩ i hi
    rcases List.mem_append.mp hi with hi | hi
    · rcases List.mem_cons.mp hi with rfl | hi
      · exact hpeer
      · split at hi
        · rw [List.mem_singleton.mp hi]
          exact hstatus ‹_›
        · nomatch hi
    · split at hi
      · exact RecvBuf.peeked_inside i hi
      · nomatch hi

/-- In `RunHS` a datagram leaves no trace exactly if it carries nothing. -/
theorem quiet_runHS_iff (hplace : s.place = .receiving) (hst : s.st = .runHS)
    (hne : buf.bytes ≠ []) :
    s.step role (.receive buf now) = s.step role (.receive .nothing now) ↔
      buf.peekPathState = s.peerPathSignal ∧ HsVars.refuses role buf := by
  have hnothing : s.step role (.receive .nothing now) = some { s with place := .head } := by
    cases role <;> simp [HsVars.step, hplace, hst, HsVars.serverReceive, HsVars.clientReceive,
      HsVars.refuses, HsVars.peek, Role.hears, RecvBuf.nothing]
  have hpeek : s.peek buf = { s with peerPathSignal := buf.peekPathState } := if_neg hne
  rw [hnothing]
  cases hrefuses : HsVars.refuses role buf with
  | true =>
      have hstep : s.step role (.receive buf now)
          = some { s with peerPathSignal := buf.peekPathState, place := .head } := by
        cases role <;> simp [HsVars.step, hplace, hst, HsVars.serverReceive, HsVars.clientReceive,
          hrefuses, hpeek]
      rw [hstep]
      constructor
      · intro h
        exact ⟨congrArg HsVars.peerPathSignal (Option.some.inj h), rfl⟩
      · rintro ⟨hsame, -⟩
        rw [hsame]
  | false =>
      -- the server completes the handshake, the client goes on to answer
      constructor
      · intro h
        cases role with
        | server =>
            simp only [HsVars.step, hplace, hst, HsVars.serverReceive, hrefuses] at h
            have := congrArg HsVars.st (Option.some.inj h)
            simp [HsVars.complete] at this
        | client =>
            simp only [HsVars.step, hplace, hst, HsVars.clientReceive, hrefuses] at h
            have := congrArg HsVars.place (Option.some.inj h)
            simp at this
      · rintro ⟨-, hfalse⟩
        cases hfalse

/-- In `StopHS` too. -/
theorem quiet_stopHS_iff (hplace : s.place = .receiving) (hst : s.st = .stopHS)
    (hne : buf.bytes ≠ []) :
    s.step role (.receive buf now) = s.step role (.receive .nothing now) ↔
      (role.checkPeer buf → buf.checkRunStatus ∧ s.peerPostHsSeen ∧
        s.lastPeerFrame = now ∧ buf.peekPathState = s.peerPathSignal) := by
  have hnothing : s.step role (.receive .nothing now) = some { s with place := .silence } := by
    simp [HsVars.step, hplace, hst, HsVars.watch, HsVars.hear, Role.hears, RecvBuf.nothing]
  have hstep : s.step role (.receive buf now) = some (s.watch role buf now) := by
    simp [HsVars.step, hplace, hst]
  have hhears : role.hears buf = role.checkPeer buf := by simp [Role.hears, hne]
  rw [hnothing, hstep]
  cases hcheck : role.checkPeer buf with
  | false => simp [HsVars.watch, HsVars.hear, hhears, hcheck]
  | true =>
      cases hrun : buf.checkRunStatus with
      | true =>
          have hwatch : s.watch role buf now
              = { s with
                  peerPostHsSeen := true, lastPeerFrame := now
                  peerPathSignal := buf.peekPathState, place := .silence } := by
            simp [HsVars.watch, HsVars.hear, hhears, hcheck, hrun]
          rw [hwatch]
          constructor
          · intro h _
            have hstate := Option.some.inj h
            exact ⟨rfl, (congrArg HsVars.peerPostHsSeen hstate).symm,
              (congrArg HsVars.lastPeerFrame hstate).symm, congrArg HsVars.peerPathSignal hstate⟩
          · intro h
            obtain ⟨-, hseen, hlast, hsignal⟩ := h rfl
            rw [hsignal, ← hlast, ← hseen]
      | false =>
          -- the datagram ends the connection
          constructor
          · intro h
            have := congrArg HsVars.st (Option.some.inj h)
            simp [HsVars.watch, hhears, hcheck, hrun, hst] at this
          · intro h
            cases (h rfl).1

theorem quiet_iff (hplace : s.place = .receiving) (hne : buf.bytes ≠ []) :
    s.step role (.receive buf now) = s.step role (.receive .nothing now) ↔
      CarriesNothing role s buf now := by
  unfold CarriesNothing
  cases hst : s.st with
  | runHS => exact quiet_runHS_iff hplace hst hne
  | stopHS => exact quiet_stopHS_iff hplace hst hne

/-- The datagram is a frame of the other side, or nothing; or the bytes that are looked at lie
inside it and carry nothing. -/
def FrameOrNothing (role : Role) (s : HsVars) (buf : RecvBuf) (now : ℕ) : Prop :=
  buf.bytes = [] ∨ IsFrame role.peer buf.bytes ∨
    ReadsInside role buf ∧ CarriesNothing role s buf now

theorem readsInside_of_isFrame {sender : Role} (h : IsFrame sender buf.bytes) :
    ReadsInside role buf := by
  have hlen := h.length
  have hpeer : role.peerByte ≤ 1 := by cases role <;> decide
  exact ⟨by omega, fun _ => by omega⟩

theorem actsOnlyOnFrames_iff (hplace : s.place = .receiving) :
    ActsOnlyOnFrames role s buf now ↔ FrameOrNothing role s buf now := by
  have hold : ∀ (m : IpcPubSubIdInitMsg) (msgId : ℕ), buf.bytes = m.serializeOld msgId →
      buf.peekPathState = 0 := fun m msgId => peekPathState_serializeOld
  by_cases hnil : buf.bytes = []
  · have hinspected : inspected role s.st buf = [] := if_pos hnil
    have hsame : s.step role (.receive buf now) = s.step role (.receive .nothing now) := by
      apply step_congr hnil
      rw [hinspected]
      exact fun _ h => nomatch h
    refine ⟨fun _ => Or.inl hnil, fun _ => ⟨?_, fun _ => hsame, hold⟩⟩
    rw [hinspected]
    exact fun _ h => nomatch h
  · constructor
    · intro h
      by_cases hframe : IsFrame role.peer buf.bytes
      · exact Or.inr (Or.inl hframe)
      · have hinside := (inside_iff hnil s.st).mp h.inside
        have hquiet := (quiet_iff hplace hnil).mp (h.quiet hframe)
        exact Or.inr (Or.inr ⟨hinside, hquiet⟩)
    · rintro (hempty | hframe | ⟨hinside, hnothing⟩)
      · exact absurd hempty hnil
      · have hinside : ReadsInside role buf := readsInside_of_isFrame hframe
        exact ⟨(inside_iff hnil s.st).mpr hinside, fun hno => absurd hframe hno, hold⟩
      · refine ⟨(inside_iff hnil s.st).mpr hinside, fun _ => ?_, hold⟩
        exact (quiet_iff hplace hnil).mpr hnothing

/-- What is said of a receiving loop, said of an event of a run. -/
def AtReceive (P : HsVars → RecvBuf → ℕ → Prop) (o : Observed) : HsEvent → Prop
  | .receive buf now => P o.vars buf now
  | _ => True

/-- **What the loops act on.**  In any state of either loop a datagram is treated as it should
be exactly if it is a frame of the other side, or nothing, or is long enough and carries nothing;
and so is every datagram of a run. -/
theorem acts_only_on_frames_iff (role : Role) :
    (∀ (s : HsVars) (buf : RecvBuf) (now : ℕ), s.place = .receiving →
      (ActsOnlyOnFrames role s buf now ↔ FrameOrNothing role s buf now)) ∧
    ∀ (events : List HsEvent) (o : Observed), (handshake role).run events = some o →
      ((handshake role).Guarded (AtReceive (ActsOnlyOnFrames role)) events ↔
        (handshake role).Guarded (AtReceive (FrameOrNothing role)) events) := by
  refine ⟨fun s buf now => actsOnlyOnFrames_iff, fun events o hrun => ?_⟩
  refine @Machine.guardedFrom_iff _ _ (handshake role) _ _ (fun _ => True)
    (fun _ _ _ _ _ => trivial) ?_ _ _ _ trivial hrun
  intro o e o' _ hstep
  cases e with
  | receive buf now =>
      have hplace : o.vars.place = .receiving := by
        by_contra hno
        simp [handshake, HsVars.step, hno] at hstep
      exact actsOnlyOnFrames_iff hplace
  | connect | loop | send | measure => exact Iff.rfl

/-- A server that has sent its first frame, and then receives. -/
def serverReceives (bytes : List UInt8) : List HsEvent :=
  [.connect true 0 0, .loop true 0, .send true 0, .receive { bytes, behind := fun _ => 0 } 0]

/-- A client that receives. -/
def clientReceives (bytes : List UInt8) : List HsEvent :=
  [.connect true 0 0, .loop true 0, .receive { bytes, behind := fun _ => 0 } 0]

/-- The client's frame, received by the server. -/
theorem acts_only_on_frames_iff_client :
    serverHandshake.Guarded (AtReceive (ActsOnlyOnFrames .server))
      (serverReceives (Role.client.hsMsg.serialize 7)) := by
  have hframe : IsFrame Role.server.peer (Role.client.hsMsg.serialize 7) := .current _ 7 ⟨rfl, rfl⟩
  have hrun : ∃ o, serverHandshake.run (serverReceives (Role.client.hsMsg.serialize 7)) = some o :=
    ⟨_, rfl⟩
  obtain ⟨o, hrun⟩ := hrun
  refine ((acts_only_on_frames_iff .server).2 _ o hrun).mpr ⟨trivial, trivial, trivial, ?_, trivial⟩
  exact Or.inr (Or.inl hframe)

/-- Three bytes complete the server's handshake and make the client answer. -/
theorem acts_without_frame :
    (¬ ∀ (events : List HsEvent) (o : Observed), serverHandshake.run events = some o →
      serverHandshake.Guarded (AtReceive (ActsOnlyOnFrames .server)) events) ∧
    ¬ ∀ (events : List HsEvent) (o : Observed), clientHandshake.run events = some o →
      clientHandshake.Guarded (AtReceive (ActsOnlyOnFrames .client)) events := by
  have hshort : ∀ {sender : Role} {bytes : List UInt8}, bytes.length = 3 →
      ¬ IsFrame sender bytes := by
    intro sender bytes hlen hframe
    have := hframe.length
    omega
  constructor
  · intro hall
    obtain ⟨-, -, -, hacts, -⟩ := hall (serverReceives [0, 1, 1]) _ rfl
    have hsame := hacts.quiet (hshort rfl)
    exact absurd hsame (by decide)
  · intro hall
    obtain ⟨-, -, hacts, -⟩ := hall (clientReceives [1, 0, 1]) _ rfl
    have hsame := hacts.quiet (hshort rfl)
    exact absurd hsame (by decide)

/-- On one byte the server looks for the client's byte behind the datagram. -/
example : ¬ ∀ i ∈ inspected .server .runHS { bytes := [0], behind := fun _ => 0 }, i < 1 := by
  decide

end DzIpc.SerCli
