import DzIpc.Library.Machine
import Mathlib.Data.Int.Notation
import Mathlib.Tactic.Common

/-!
# The switch between socket and shared memory

`auto_ser_ipc::supervise` and `auto_cli_ipc::supervise` wait for the UDP handshake, look for
a reason to use shared memory, try to establish the SHM leg, and then patrol until the
handshake is lost or the leg is.  Between two answers from outside (the handshake, the pool,
the occupancy of the channel, the peer's signal, the clock, the new leg) such a loop stores to
one variable after the other; the stores are listed in the order of the source and are
executed one by one, so that every state between two of them is a state of the run.

* `Settled` says what an `Active` state looks like; `PlaceInv` says what holds at each place of
  the loop once its pending stores are done, `Safe` what holds while they are executed.
* `path_switch`: in every run of either loop, every `Active` state is settled, and one Probe
  phase is followed by at most one SHM leg.
-/

namespace DzIpc.SerCli.PathSwitch

/-! ## The status -/

/-- `path::State`. -/
inductive State where
  | idle
  | probe
  | negotiate
  | establish
  | active
  | withdraw
  | teardown
  | closed
  deriving DecidableEq, Repr

/-- `path::Kind`. -/
inductive Kind where
  | none
  | socket
  | shm
  deriving DecidableEq, Repr

/-- `path::DecisionReason`. -/
inductive DecisionReason where
  | pending
  | peerInPool
  | noEvidence
  | timeout
  | shmNotReady
  | channelOccupied
  deriving DecidableEq, Repr

/-- `path::FallbackReason`. -/
inductive FallbackReason where
  | none
  | shmEstablishFailed
  | shmRendezvousTimeout
  | shmChannelOccupied
  | remoteIoFailure
  | withdrawnByPeer
  deriving DecidableEq, Repr

/-- `path::Evidence`; the kind is 0 where there is none. -/
structure Evidence where
  kind : ℤ
  peerPid : ℤ
  tsNs : ℤ
  deriving DecidableEq, Repr

/-- No evidence. -/
def Evidence.absent : Evidence := ⟨0, 0, 0⟩

/-! ## The signals of the handshake frames -/

/-- `IpcPubSubIdInitMsg::PathState`, as the byte that is sent. -/
def proposeShm : UInt8 := 1

def confirmShm : UInt8 := 2

def withdrawToSocketSignal : UInt8 := 4

def withdrawChannelOccupied : UInt8 := 5

def withdrawEstablishFailed : UInt8 := 6

def withdrawRendezvousTimeout : UInt8 := 7

def withdrawRuntimeDisconnect : UInt8 := 8

/-- `wire_signal_for_fallback`. -/
def wireSignalForFallback : FallbackReason → UInt8
  | .shmChannelOccupied => withdrawChannelOccupied
  | .shmEstablishFailed => withdrawEstablishFailed
  | .shmRendezvousTimeout => withdrawRendezvousTimeout
  | .remoteIoFailure => withdrawRuntimeDisconnect
  | .withdrawnByPeer | .none => withdrawToSocketSignal

/-- `decode_peer_withdraw`. -/
def decodePeerWithdraw (sig : UInt8) : Option (DecisionReason × FallbackReason) :=
  if sig = withdrawToSocketSignal then some (.shmNotReady, .withdrawnByPeer)
  else if sig = withdrawChannelOccupied then some (.channelOccupied, .shmChannelOccupied)
  else if sig = withdrawEstablishFailed then some (.shmNotReady, .shmEstablishFailed)
  else if sig = withdrawRendezvousTimeout then some (.timeout, .shmRendezvousTimeout)
  else if sig = withdrawRuntimeDisconnect then some (.shmNotReady, .remoteIoFailure)
  else none

/-- A reason that is announced is decoded as that reason; the two reasons that are not the
sender's own are announced as a plain withdrawal. -/
theorem decode_wireSignal (reason : FallbackReason) :
    (decodePeerWithdraw (wireSignalForFallback reason)).map Prod.snd
      = some (if reason = .none then .withdrawnByPeer else reason) := by
  cases reason <;> rfl

/-! ## Variables and stores -/

/-- The status, the route, the legs, and four counts of an observer: the Probe phases
completed, the losses of an SHM leg at run time, and the SHM legs built and established since
the last Probe phase began. -/
structure Vars where
  state : State
  selected : Kind
  decision : DecisionReason
  fallback : FallbackReason
  evidence : Evidence
  switchAttempts : ℕ
  switchSuccesses : ℕ
  switchFallbacks : ℕ
  useShm : Bool
  shmLeg : Bool
  dataPlaneRunning : Bool
  hsPathSignal : UInt8
  attemptedThisConnection : Bool
  probes : ℕ
  losses : ℕ
  built : ℕ
  established : ℕ
  deriving DecidableEq, Repr

/-- What the loops store. -/
inductive Store where
  | setState (state : State)
  | setSelected (kind : Kind)
  | setDecision (reason : DecisionReason)
  | setFallback (reason : FallbackReason)
  | evidenceKind (kind : ℤ)
  | evidencePid (pid : ℤ)
  | evidenceTs (ts : ℤ)
  | addAttempt
  | addSuccess
  | addFallback
  | useShm (value : Bool)
  /-- `shm_leg_ = std::move(leg)`. -/
  | moveLeg
  /-- `shm_leg_.reset()`. -/
  | resetLeg
  | setPathSignal (signal : UInt8)
  | openDataPlane (ok : Bool)
  | stopDataPlane
  /-- `restart_data_plane`, which succeeds. -/
  | restartDataPlane
  | attempted (value : Bool)
  /-- The observer counts a loss at run time that has been handled. -/
  | countLoss
  deriving DecidableEq, Repr

/-- One store. -/
def Store.exec (v : Vars) : Store → Vars
  | .setState .probe => { v with state := .probe, built := 0, established := 0 }
  | .setState .negotiate => { v with state := .negotiate, probes := v.probes + 1 }
  | .setState state => { v with state := state }
  | .setSelected kind => { v with selected := kind }
  | .setDecision reason => { v with decision := reason }
  | .setFallback reason => { v with fallback := reason }
  | .evidenceKind kind => { v with evidence := { v.evidence with kind := kind } }
  | .evidencePid pid => { v with evidence := { v.evidence with peerPid := pid } }
  | .evidenceTs ts => { v with evidence := { v.evidence with tsNs := ts } }
  | .addAttempt => { v with switchAttempts := v.switchAttempts + 1 }
  | .addSuccess => { v with switchSuccesses := v.switchSuccesses + 1 }
  | .addFallback => { v with switchFallbacks := v.switchFallbacks + 1 }
  | .useShm true => { v with useShm := true, established := v.established + 1 }
  | .useShm false => { v with useShm := false }
  | .moveLeg => { v with shmLeg := true, built := v.built + 1 }
  | .resetLeg => { v with shmLeg := false }
  | .setPathSignal signal => { v with hsPathSignal := signal }
  | .openDataPlane ok => { v with dataPlaneRunning := ok }
  | .stopDataPlane => { v with dataPlaneRunning := false }
  | .restartDataPlane => { v with dataPlaneRunning := true }
  | .attempted value => { v with attemptedThisConnection := value }
  | .countLoss => { v with losses := v.losses + 1 }

/-- Stores, in their order. -/
def execAll (v : Vars) (stores : List Store) : Vars :=
  stores.foldl Store.exec v

/-! ## The two loops -/

/-- The two sides. -/
inductive Side where
  | server
  | client
  deriving DecidableEq, Repr

/-- `Options`, without the times. -/
structure Options where
  allowShm : Bool
  forceNoEvidence : Bool
  deriving DecidableEq, Repr

/-- `status_.evidence`, field by field. -/
def storeEvidence (ev : Evidence) : List Store :=
  [.evidenceKind ev.kind, .evidencePid ev.peerPid, .evidenceTs ev.tsNs]

/-- `auto_ser_ipc::withdraw_to_socket`. -/
def serverWithdraw (reason : FallbackReason) : List Store :=
  [.resetLeg, .restartDataPlane, .setPathSignal (wireSignalForFallback reason), .useShm false,
    .setSelected .socket, .setFallback reason]

/-- `auto_cli_ipc::withdraw_to_socket`. -/
def clientWithdraw (reason : FallbackReason) : List Store :=
  [.resetLeg, .restartDataPlane, .useShm false, .setSelected .socket, .setFallback reason]

def Side.withdrawToSocket : Side → FallbackReason → List Store
  | .server => serverWithdraw
  | .client => clientWithdraw

/-- The side has built its leg but not established it. -/
def Side.giveUp : Side → FallbackReason → Bool → List Store
  | .server, failReason, peerGone =>
      serverWithdraw (if peerGone then .withdrawnByPeer else failReason) ++ [.addFallback]
  | .client, failReason, peerGone =>
      clientWithdraw (if peerGone then .withdrawnByPeer else failReason)
        ++ [.setDecision (if peerGone then .timeout else .shmNotReady), .addFallback]

/-- The new leg is confirmed. -/
def confirmLeg : List Store :=
  [.setPathSignal confirmShm, .stopDataPlane, .useShm true, .setSelected .shm, .addSuccess]

/-- The handshake is lost in the Active phase. -/
def Side.onDisconnect (side : Side) : List Store :=
  .setState .withdraw :: side.withdrawToSocket .withdrawnByPeer
    ++ [.attempted false, .setDecision .pending] ++ storeEvidence .absent

/-- The SHM leg is lost in the Active phase. -/
def Side.onLegLoss (side : Side) : List Store :=
  .setState .withdraw :: side.withdrawToSocket .remoteIoFailure
    ++ [.addFallback, .countLoss, .setState .active]

/-- Where `supervise` is. -/
inductive Place where
  /-- Before `InitChannel`. -/
  | created
  /-- `socket_leg_->InitChannel`. -/
  | opening
  /-- The outer `while (running_)`. -/
  | top
  /-- The loop that waits for the handshake. -/
  | probing
  /-- Behind it. -/
  | probed
  /-- `find_peer`. -/
  | findingPeer
  /-- `shm_channel_occupied`. -/
  | asking
  /-- The client waits for the server's signal. -/
  | awaitingSignal
  /-- The SHM leg is constructed. -/
  | constructing
  /-- The loop that waits for the peer on the SHM leg. -/
  | rendezvous
  /-- Behind the `try` block. -/
  | deciding (established : Bool) (failReason : FallbackReason)
  /-- The patrol. -/
  | patrol
  | finished
  deriving DecidableEq, Repr

/-- What the loop reads, and what happens to it. -/
inductive Event where
  /-- `InitChannel`. -/
  | initChannel
  /-- The socket leg's `InitChannel` returns: whether its data plane was opened, and whether
  its handshake thread was started then; the loop gets its thread. -/
  | opened (ok started : Bool)
  /-- The next pending store. -/
  | store
  /-- The destructor stores `running_ = false`. -/
  | stop
  /-- `running_` alone. -/
  | test
  | probe (handshake : Bool)
  | foundPeer (ev : Evidence)
  | occupied (answer : Bool)
  /-- The signal loop: whether there is time left, the peer's signal, the handshake. -/
  | signal (inTime : Bool) (sig : UInt8) (handshake : Bool)
  | constructed
  /-- An exception in the `try` block. -/
  | throws
  /-- The rendezvous loop: whether there is time left, the leg's handshake, the socket's. -/
  | meet (inTime legUp handshake : Bool)
  | decide (handshake : Bool)
  /-- The patrol: the socket's handshake, and the leg's. -/
  | inspect (handshake legUp : Bool)
  deriving DecidableEq, Repr

/-- The place of the loop, the stores it is about to execute, the variables, `running_`, and
whether the socket leg has a handshake thread. -/
structure LoopState where
  place : Place
  todo : List Store
  vars : Vars
  running : Bool
  handshakeThread : Bool
  deriving DecidableEq, Repr

variable (side : Side) (opts : Options)

/-- Where the loop goes with what it reads, and what it stores on the way. -/
def next (s : LoopState) : Event → Option (Place × List Store)
  | .initChannel =>
      if s.place = .created then some (.opening, [.setState .probe, .setSelected .socket])
      else none
  | .opened ok _ =>
      if s.place = .opening then some (.top, [.openDataPlane ok]) else none
  | .test =>
      match s.place with
      | .top => some (if s.running then (.probing, [.setState .probe]) else (.finished, []))
      | .probed =>
          some
            (if ¬ s.running then (.finished, [])
            else if opts.allowShm ∧ ¬ s.vars.attemptedThisConnection then
              (.findingPeer, [.setState .negotiate])
            else if ¬ opts.allowShm then
              (.patrol, [.setState .negotiate, .setDecision .noEvidence, .setState .active])
            else (.patrol, [.setState .negotiate, .setState .active]))
      | _ => none
  | .probe handshake =>
      if s.place = .probing then
        some (if s.running ∧ ¬ handshake then (.probing, []) else (.probed, []))
      else none
  | .foundPeer found =>
      if s.place = .findingPeer then
        let ev := if opts.forceNoEvidence then .absent else found
        some
          (if ev.kind = 0 then
            (.patrol, storeEvidence ev ++ [.setDecision .noEvidence, .setState .active])
          else
            match side with
            | .server => (.asking, storeEvidence ev)
            | .client =>
                (.awaitingSignal, storeEvidence ev ++ [.setDecision .peerInPool, .attempted true]))
      else none
  | .occupied answer =>
      if s.place = .asking then
        some
          (if answer then
            (.patrol,
              [.attempted true, .setDecision .channelOccupied, .setFallback .shmChannelOccupied,
                .addAttempt, .addFallback,
                .setPathSignal (wireSignalForFallback .shmChannelOccupied), .setState .active])
          else
            (.constructing,
              [.attempted true, .setDecision .peerInPool, .addAttempt, .setState .establish,
                .setPathSignal proposeShm]))
      else none
  | .signal inTime sig handshake =>
      if s.place = .awaitingSignal then
        some
          (if ¬ (s.running ∧ inTime) then (.patrol, [.setState .active])
          else if sig = proposeShm ∨ sig = confirmShm then
            (.constructing, [.addAttempt, .setState .establish])
          else
            match decodePeerWithdraw sig with
            | some (decision, fallback) =>
                (.patrol,
                  [.setDecision decision, .setFallback fallback, .addAttempt, .addFallback,
                    .setPathSignal withdrawToSocketSignal, .setState .active])
            | none =>
                if ¬ handshake then (.patrol, [.setState .active]) else (.awaitingSignal, []))
      else none
  | .constructed =>
      if s.place = .constructing then some (.rendezvous, [.moveLeg]) else none
  | .throws =>
      if s.place = .constructing ∨ s.place = .rendezvous then
        some (.deciding false .shmEstablishFailed, [])
      else none
  | .meet inTime legUp handshake =>
      if s.place = .rendezvous then
        some
          (if ¬ (s.running ∧ inTime) then (.deciding false .shmRendezvousTimeout, [])
          else if s.vars.shmLeg ∧ legUp then (.deciding true .shmRendezvousTimeout, [])
          else if ¬ handshake then (.deciding false .shmRendezvousTimeout, [])
          else (.rendezvous, []))
      else none
  | .decide handshake =>
      match s.place with
      | .deciding established failReason =>
          some
            (.patrol,
              (if established ∧ s.running then confirmLeg
                else side.giveUp failReason (!handshake)) ++ [.setState .active])
      | _ => none
  | .inspect handshake legUp =>
      if s.place = .patrol then
        some
          (if ¬ s.running then (.top, [])
          else if ¬ handshake then (.top, side.onDisconnect)
          else if s.vars.useShm ∧ ¬ (s.vars.shmLeg ∧ legUp) then (.patrol, side.onLegLoss)
          else (.patrol, []))
      else none
  | .store | .stop => none

/-- The handshake that an event reads as completed. -/
def Event.readsHandshake : Event → Bool
  | .probe handshake | .signal _ _ handshake | .meet _ _ handshake | .decide handshake
  | .inspect handshake _ => handshake
  | _ => false

/-- The socket leg has its handshake thread: it is started once, with an open data plane. -/
def Event.startsThread : Event → Bool
  | .opened ok started => ok && started
  | _ => false

/-- One step of the loop, or of the destructor.  A handshake is never completed without its
thread. -/
def step (s : LoopState) : Event → Option LoopState
  | .stop => some { s with running := false }
  | .store =>
      match s.todo with
      | [] => none
      | store :: rest => some { s with vars := store.exec s.vars, todo := rest }
  | e =>
      if s.todo ≠ [] ∨ (e.readsHandshake ∧ ¬ s.handshakeThread) then none
      else
        (next side opts s e).map fun target =>
          { s with
            place := target.1, todo := target.2
            handshakeThread := bif e.startsThread then true else s.handshakeThread }

/-- The object is constructed. -/
def init : LoopState where
  place := .created
  todo := []
  vars :=
    { state := .idle, selected := .none, decision := .pending, fallback := .none
      evidence := .absent, switchAttempts := 0, switchSuccesses := 0, switchFallbacks := 0
      useShm := false, shmLeg := false, dataPlaneRunning := false, hsPathSignal := 0
      attemptedThisConnection := false, probes := 0, losses := 0, built := 0, established := 0 }
  running := true
  handshakeThread := false

/-- The `supervise` loop of a side. -/
def supervise : Machine LoopState Event where
  init := init
  step := step side opts

/-! ## The books -/

/-- An `Active` state: one route, the leg that belongs to it, and books that balance. -/
structure Settled (v : Vars) : Prop where
  route : v.useShm = true ∧ v.shmLeg = true ∧ v.dataPlaneRunning = false ∨
    v.useShm = false ∧ v.shmLeg = false ∧ v.dataPlaneRunning = true
  successes : v.switchSuccesses ≤ v.switchAttempts
  attempts : v.switchAttempts ≤ v.probes
  balance : v.switchAttempts + v.losses = v.switchSuccesses + v.switchFallbacks

/-- What holds in every state: an `Active` state is settled, and since the last Probe phase
began at most one SHM leg was built, and established. -/
structure Good (v : Vars) : Prop where
  settled : v.state = .active → Settled v
  built : v.built ≤ 1
  established : v.established ≤ v.built

/-- Every state on the way through the stores is good. -/
def Safe (v : Vars) : List Store → Prop
  | [] => Good v
  | store :: rest => Good v ∧ Safe (store.exec v) rest

/-- The books with so many attempts that are not decided, and so many Probe phases that saw no
attempt. -/
structure Books (v : Vars) (undecided idle : ℕ) : Prop where
  balance : v.switchAttempts + v.losses = v.switchSuccesses + v.switchFallbacks + undecided
  losses : v.losses ≤ v.switchFallbacks
  attempts : v.switchAttempts + idle ≤ v.probes

/-- The requests go over the socket, and there is no SHM leg. -/
structure NoLeg (v : Vars) : Prop where
  useShm : v.useShm = false
  shmLeg : v.shmLeg = false

/-- A handshake is under way and no attempt has been made since. -/
structure Waiting (v : Vars) : Prop where
  books : Books v 0 1
  noLeg : NoLeg v
  state : v.state = .negotiate
  built : v.built = 0
  established : v.established = 0
  dataPlane : v.dataPlaneRunning = true

/-- An attempt is under way: the requests still go over the socket. -/
structure Attempting (v : Vars) : Prop where
  books : Books v 1 0
  useShm : v.useShm = false
  state : v.state = .establish
  built : v.built ≤ 1
  established : v.established = 0
  dataPlane : v.dataPlaneRunning = true

/-- What holds at a place of the loop once its pending stores are executed. -/
def PlaceInv (s : LoopState) (v : Vars) : Prop :=
  match s.place with
  | .created => v = init.vars ∧ s.handshakeThread = false
  | .opening =>
      v = { init.vars with state := .probe, selected := .socket } ∧ s.handshakeThread = false
  | .top =>
      Books v 0 0 ∧
        (s.running = true → NoLeg v ∧ v.attemptedThisConnection = false ∧
          (s.handshakeThread = true → v.dataPlaneRunning = true))
  | .probing =>
      Books v 0 0 ∧ NoLeg v ∧ v.state = .probe ∧ v.attemptedThisConnection = false ∧
        v.built = 0 ∧ v.established = 0 ∧
        (s.handshakeThread = true → v.dataPlaneRunning = true)
  | .probed =>
      Books v 0 0 ∧ NoLeg v ∧ v.state = .probe ∧ v.attemptedThisConnection = false ∧
        v.built = 0 ∧ v.established = 0 ∧ (s.running = true → v.dataPlaneRunning = true)
  | .findingPeer | .asking | .awaitingSignal => Waiting v
  | .constructing => Attempting v ∧ v.built = 0
  | .rendezvous => Attempting v ∧ v.shmLeg = true ∧ v.built = 1
  | .deciding established _ => Attempting v ∧ (established = true → v.shmLeg = true ∧ v.built = 1)
  | .patrol => Books v 0 0 ∧ Settled v
  | .finished => True

/-- What every step keeps. -/
structure Inv (s : LoopState) : Prop where
  place : PlaceInv s (execAll s.vars s.todo)
  safe : Safe s.vars s.todo

variable {side opts} {s t : LoopState}

theorem Safe.good {v : Vars} {stores : List Store} (h : Safe v stores) : Good v := by
  cases stores with
  | nil => exact h
  | cons store rest => exact h.1

/-- The store does not enter the `Active` state and counts no leg. -/
def Store.plain : Store → Bool
  | .setState .active | .moveLeg | .useShm true => false
  | _ => true

/-- The state is not `Active`, and the legs are counted. -/
structure Quiet (v : Vars) : Prop where
  state : v.state ≠ .active
  built : v.built ≤ 1
  established : v.established ≤ v.built

theorem Quiet.good {v : Vars} (h : Quiet v) : Good v :=
  ⟨fun hactive => absurd hactive h.state, h.built, h.established⟩

theorem Quiet.exec {v : Vars} (h : Quiet v) {store : Store} (hplain : store.plain = true) :
    Quiet (store.exec v) := by
  obtain ⟨hstate, hbuilt, hest⟩ := h
  cases store with
  | setState state =>
      cases state with
      | active => cases hplain
      | probe => exact ⟨nofun, Nat.zero_le 1, Nat.le_refl 0⟩
      | _ => exact ⟨nofun, hbuilt, hest⟩
  | useShm value =>
      cases value with
      | true => cases hplain
      | false => exact ⟨hstate, hbuilt, hest⟩
  | moveLeg => cases hplain
  | _ => exact ⟨hstate, hbuilt, hest⟩

/-- Plain stores are safe where the state is not `Active`. -/
theorem Quiet.safe {stores : List Store} :
    ∀ {v : Vars}, Quiet v → (∀ store ∈ stores, store.plain = true) →
      Safe v stores ∧ Quiet (execAll v stores) := by
  induction stores with
  | nil => exact fun h _ => ⟨h.good, h⟩
  | cons store rest ih =>
      intro v h hplain
      obtain ⟨hsafe, hquiet⟩ := ih (h.exec (hplain store List.mem_cons_self))
        fun s hs => hplain s (List.mem_cons_of_mem _ hs)
      exact ⟨⟨h.good, hsafe⟩, hquiet⟩

/-- The loop goes to a place whose stores are plain. -/
theorem Quiet.inv {v : Vars} (h : Quiet v) {place : Place} {stores : List Store}
    {running thread : Bool} (hplain : ∀ store ∈ stores, store.plain = true)
    (hplace : PlaceInv ⟨place, stores, v, running, thread⟩ (execAll v stores)) :
    Inv ⟨place, stores, v, running, thread⟩ :=
  ⟨hplace, (h.safe hplain).1⟩

/-- The books of a state with one open route. -/
theorem Books.settled {v : Vars} (h : Books v 0 0)
    (hroute : v.useShm = true ∧ v.shmLeg = true ∧ v.dataPlaneRunning = false ∨
      v.useShm = false ∧ v.shmLeg = false ∧ v.dataPlaneRunning = true) : Settled v := by
  obtain ⟨hbalance, hlosses, hattempts⟩ := h
  exact ⟨hroute, by omega, by omega, by omega⟩

theorem Settled.activate {v : Vars} (h : Settled v) : Settled { v with state := .active } :=
  ⟨h.route, h.successes, h.attempts, h.balance⟩

theorem Books.activate {v : Vars} (h : Books v 0 0) : Books { v with state := .active } 0 0 :=
  ⟨h.balance, h.losses, h.attempts⟩

/-- The end of a list of stores that are safe up to the last, which enters the `Active`
state. -/
theorem safe_activate {stores : List Store} :
    ∀ {v : Vars}, Safe v stores → Settled (execAll v stores) →
      Safe v (stores ++ [.setState .active]) := by
  induction stores with
  | nil => exact fun h hsettled => ⟨h, ⟨fun _ => hsettled.activate, h.built, h.established⟩⟩
  | cons store rest ih => exact fun h hsettled => ⟨h.1, ih h.2 hsettled⟩

/-- The loop enters the patrol: the books balance and one route is open once the stores are
done. -/
theorem inv_patrol {v : Vars} {stores : List Store} {running thread : Bool}
    (hsafe : Safe v stores) (hbooks : Books (execAll v stores) 0 0)
    (hroute : (execAll v stores).useShm = true ∧ (execAll v stores).shmLeg = true ∧
        (execAll v stores).dataPlaneRunning = false ∨
      (execAll v stores).useShm = false ∧ (execAll v stores).shmLeg = false ∧
        (execAll v stores).dataPlaneRunning = true) :
    Inv ⟨.patrol, stores ++ [.setState .active], v, running, thread⟩ := by
  have hsettled : Settled (execAll v stores) := hbooks.settled hroute
  have hlast : execAll v (stores ++ [.setState .active])
      = { execAll v stores with state := .active } := List.foldl_append
  refine ⟨?_, safe_activate hsafe hsettled⟩
  show Books (execAll v (stores ++ [.setState .active])) 0 0 ∧
    Settled (execAll v (stores ++ [.setState .active]))
  rw [hlast]
  exact ⟨hbooks.activate, hsettled.activate⟩

/-! ## One lemma for each place -/

section Places

variable {v : Vars} {running thread : Bool}

/-- The outer loop starts again. -/
theorem inv_probing (h : Inv ⟨.top, [], v, true, thread⟩) :
    Inv ⟨.probing, [.setState .probe], v, true, thread⟩ := by
  obtain ⟨hbooks, hrun⟩ := h.place
  obtain ⟨hnoLeg, hattempted, hplane⟩ := hrun rfl
  have hfirst : Quiet ((Store.setState .probe).exec v) := ⟨nofun, Nat.zero_le 1, Nat.le_refl 0⟩
  refine ⟨⟨?_, ?_, rfl, hattempted, rfl, rfl, hplane⟩, h.safe, hfirst.good⟩
  · exact ⟨hbooks.balance, hbooks.losses, hbooks.attempts⟩
  · exact ⟨hnoLeg.useShm, hnoLeg.shmLeg⟩

/-- The handshake is there: a Probe phase is completed, and the loop looks for evidence or
goes on patrol. -/
theorem inv_negotiate (opts : Options) (h : Inv ⟨.probed, [], v, true, thread⟩)
    {target : Place × List Store}
    (hnext : next side opts ⟨.probed, [], v, true, thread⟩ .test = some target) :
    Inv ⟨target.1, target.2, v, true, thread⟩ := by
  obtain ⟨hbooks, hnoLeg, hstate, hattempted, hbuilt, hest, hplane⟩ := h.place
  have hbuilt' : v.built = 0 := hbuilt
  have hest' : v.established = 0 := hest
  have hquiet : Quiet v := ⟨by rw [show v.state = .probe from hstate]; exact nofun, by omega, by omega⟩
  have hnegotiate : Books ((Store.setState .negotiate).exec v) 0 1 :=
    ⟨hbooks.balance, hbooks.losses, Nat.succ_le_succ hbooks.attempts⟩
  have hsettle : Books ((Store.setState .negotiate).exec v) 0 0 :=
    ⟨hnegotiate.balance, hnegotiate.losses, Nat.le_of_succ_le hnegotiate.attempts⟩
  have hroute := And.intro hnoLeg.useShm (And.intro hnoLeg.shmLeg (hplane rfl))
  simp only [next, not_true_eq_false, if_false, Option.some.injEq] at hnext
  split at hnext
  · cases hnext
    apply hquiet.inv (by decide)
    exact Waiting.mk hnegotiate ⟨hnoLeg.useShm, hnoLeg.shmLeg⟩ rfl hbuilt hest (hplane rfl)
  split at hnext <;> cases hnext
  · have hsafe : Safe v [.setState .negotiate, .setDecision .noEvidence] :=
      (hquiet.safe (by decide)).1
    exact inv_patrol hsafe ⟨hsettle.balance, hsettle.losses, hsettle.attempts⟩ (Or.inr hroute)
  · have hsafe : Safe v [.setState .negotiate] := (hquiet.safe (by decide)).1
    exact inv_patrol hsafe hsettle (Or.inr hroute)

theorem Waiting.quiet (h : Waiting v) : Quiet v :=
  ⟨by rw [h.state]; exact nofun, by rw [h.built]; exact Nat.zero_le 1,
    by rw [h.established]; exact Nat.zero_le _⟩

/-- The evidence is noted, and nothing else of interest. -/
theorem Waiting.evidence (h : Waiting v) (ev : Evidence) : Waiting (execAll v (storeEvidence ev)) :=
  ⟨⟨h.books.balance, h.books.losses, h.books.attempts⟩, ⟨h.noLeg.useShm, h.noLeg.shmLeg⟩, h.state,
    h.built, h.established, h.dataPlane⟩

/-- The connection stays on the socket without an attempt. -/
theorem Waiting.stay (h : Waiting v) {stores : List Store}
    (hplain : ∀ store ∈ stores, store.plain = true) (hafter : Waiting (execAll v stores)) :
    Inv ⟨.patrol, stores ++ [.setState .active], v, running, thread⟩ :=
  inv_patrol (h.quiet.safe hplain).1
    ⟨hafter.books.balance, hafter.books.losses, Nat.le_of_succ_le hafter.books.attempts⟩
    (Or.inr ⟨hafter.noLeg.useShm, hafter.noLeg.shmLeg, hafter.dataPlane⟩)

/-- An attempt that is refused before a leg is built is counted twice, as an attempt and as a
fallback. -/
theorem Waiting.refused (h : Waiting v) :
    Books { v with
      switchAttempts := v.switchAttempts + 1, switchFallbacks := v.switchFallbacks + 1 } 0 0 := by
  obtain ⟨hbalance, hlosses, hattempts⟩ := h.books
  refine ⟨?_, ?_, hattempts⟩
  · show v.switchAttempts + 1 + v.losses = v.switchSuccesses + (v.switchFallbacks + 1) + 0
    omega
  · exact Nat.le_succ_of_le hlosses

/-- An attempt begins. -/
theorem Waiting.attempt (h : Waiting v) :
    Books { v with switchAttempts := v.switchAttempts + 1 } 1 0 := by
  obtain ⟨hbalance, hlosses, hattempts⟩ := h.books
  refine ⟨?_, hlosses, hattempts⟩
  show v.switchAttempts + 1 + v.losses = v.switchSuccesses + v.switchFallbacks + 1
  omega

/-- The loop has looked for its peer in the pool. -/
theorem inv_foundPeer (side : Side) (opts : Options) (h : Waiting v) {ev : Evidence}
    {target : Place × List Store}
    (hnext : next side opts ⟨.findingPeer, [], v, running, thread⟩ (.foundPeer ev) = some target) :
    Inv ⟨target.1, target.2, v, running, thread⟩ := by
  simp only [next, if_true, Option.some.injEq] at hnext
  generalize (if opts.forceNoEvidence = true then Evidence.absent else ev) = found at hnext
  have hnoted := h.evidence found
  have hafter : ∀ decision, Waiting (execAll v (storeEvidence found ++ [.setDecision decision])) :=
    fun _ => ⟨⟨h.books.balance, h.books.losses, h.books.attempts⟩,
      ⟨h.noLeg.useShm, h.noLeg.shmLeg⟩, h.state, h.built, h.established, h.dataPlane⟩
  split at hnext
  · cases hnext
    exact h.stay (by simp [storeEvidence, Store.plain]) (hafter .noEvidence)
  · cases side with
    | server =>
        cases hnext
        apply h.quiet.inv (by simp [storeEvidence, Store.plain])
        exact hnoted
    | client =>
        cases hnext
        apply h.quiet.inv (by simp [storeEvidence, Store.plain])
        have hw := hafter .peerInPool
        exact Waiting.mk ⟨hw.books.balance, hw.books.losses, hw.books.attempts⟩
          ⟨hw.noLeg.useShm, hw.noLeg.shmLeg⟩ hw.state hw.built hw.established hw.dataPlane

/-- The server has asked whether the channel is occupied. -/
theorem inv_occupied (opts : Options) (h : Waiting v) {answer : Bool} {target : Place × List Store}
    (hnext : next side opts ⟨.asking, [], v, running, thread⟩ (.occupied answer) = some target) :
    Inv ⟨target.1, target.2, v, running, thread⟩ := by
  simp only [next, if_true, Option.some.injEq] at hnext
  split at hnext <;> cases hnext
  · have hrefused := h.refused
    have hsafe : Safe v [.attempted true, .setDecision .channelOccupied,
        .setFallback .shmChannelOccupied, .addAttempt, .addFallback,
        .setPathSignal (wireSignalForFallback .shmChannelOccupied)] :=
      (h.quiet.safe (by decide)).1
    exact inv_patrol hsafe ⟨hrefused.balance, hrefused.losses, hrefused.attempts⟩
      (Or.inr ⟨h.noLeg.useShm, h.noLeg.shmLeg, h.dataPlane⟩)
  · have hattempt := h.attempt
    apply h.quiet.inv (by decide)
    refine ⟨⟨⟨hattempt.balance, hattempt.losses, hattempt.attempts⟩, h.noLeg.useShm, rfl, ?_,
      h.established, h.dataPlane⟩, h.built⟩
    exact h.quiet.built

/-- The client has read the server's signal. -/
theorem inv_signal (opts : Options) (h : Waiting v) {inTime handshake : Bool} {sig : UInt8}
    {target : Place × List Store}
    (hnext : next side opts ⟨.awaitingSignal, [], v, running, thread⟩
      (.signal inTime sig handshake) = some target) :
    Inv ⟨target.1, target.2, v, running, thread⟩ := by
  have hnone : ∀ store ∈ ([] : List Store), store.plain = true := by decide
  simp only [next, if_true, Option.some.injEq] at hnext
  split at hnext
  · cases hnext
    exact h.stay hnone h
  split at hnext
  · cases hnext
    have hattempt := h.attempt
    apply h.quiet.inv (by decide)
    refine ⟨⟨⟨hattempt.balance, hattempt.losses, hattempt.attempts⟩, h.noLeg.useShm, rfl, ?_,
      h.established, h.dataPlane⟩, h.built⟩
    exact h.quiet.built
  split at hnext
  · rename_i decision fallback _
    cases hnext
    have hrefused := h.refused
    have hsafe : Safe v [.setDecision decision, .setFallback fallback, .addAttempt, .addFallback,
        .setPathSignal withdrawToSocketSignal] :=
      (h.quiet.safe (by simp [Store.plain])).1
    exact inv_patrol hsafe ⟨hrefused.balance, hrefused.losses, hrefused.attempts⟩
      (Or.inr ⟨h.noLeg.useShm, h.noLeg.shmLeg, h.dataPlane⟩)
  split at hnext <;> cases hnext
  · exact h.stay hnone h
  · exact h.quiet.inv hnone h

theorem Attempting.quiet (h : Attempting v) : Quiet v :=
  ⟨by rw [h.state]; exact nofun, h.built, by rw [h.established]; exact Nat.zero_le _⟩

/-- The `try` block ends. -/
theorem Attempting.decide (h : Attempting v) {established : Bool} {failReason : FallbackReason}
    (hleg : established = true → v.shmLeg = true ∧ v.built = 1) :
    Inv ⟨.deciding established failReason, [], v, running, thread⟩ :=
  h.quiet.inv (by decide) ⟨h, hleg⟩

/-- The new leg is confirmed: it is the one leg of this Probe phase. -/
theorem Attempting.confirm (h : Attempting v) (hleg : v.shmLeg = true) (hbuilt : v.built = 1) :
    Inv ⟨.patrol, confirmLeg ++ [.setState .active], v, running, thread⟩ := by
  have hquiet := h.quiet
  have hest := h.established
  obtain ⟨hbalance, hlosses, hattempts⟩ := h.books
  -- from the third store on the leg is counted
  have hcounted : Quiet { v with
      hsPathSignal := confirmShm, dataPlaneRunning := false, useShm := true
      established := v.established + 1 } := by
    refine ⟨hquiet.state, hquiet.built, ?_⟩
    show v.established + 1 ≤ v.built
    omega
  have hlast : Safe _ [.setSelected .shm, .addSuccess] := (hcounted.safe (by decide)).1
  have hsafe : Safe v confirmLeg :=
    ⟨hquiet.good, (hquiet.exec rfl).good, ((hquiet.exec rfl).exec rfl).good, hlast⟩
  refine inv_patrol hsafe ⟨?_, hlosses, hattempts⟩ (Or.inl ⟨rfl, hleg, rfl⟩)
  show v.switchAttempts + v.losses = v.switchSuccesses + 1 + v.switchFallbacks + 0
  omega

/-- What a withdrawal that counts a fallback leaves of the variables of the books. -/
theorem execAll_giveUp (side : Side) (failReason : FallbackReason) (peerGone : Bool) (v : Vars) :
    ∃ signal decision fallback, execAll v (side.giveUp failReason peerGone) =
      { v with
        shmLeg := false, dataPlaneRunning := true, hsPathSignal := signal, useShm := false
        selected := .socket, decision := decision, fallback := fallback
        switchFallbacks := v.switchFallbacks + 1 } := by
  cases side with
  | server =>
      refine ⟨wireSignalForFallback (if peerGone then .withdrawnByPeer else failReason), v.decision,
        if peerGone then .withdrawnByPeer else failReason, ?_⟩
      simp only [Side.giveUp, serverWithdraw, execAll, List.cons_append, List.nil_append,
        List.foldl_cons, List.foldl_nil, Store.exec]
  | client =>
      refine ⟨v.hsPathSignal, if peerGone then .timeout else .shmNotReady,
        if peerGone then .withdrawnByPeer else failReason, ?_⟩
      simp only [Side.giveUp, clientWithdraw, execAll, List.cons_append, List.nil_append,
        List.foldl_cons, List.foldl_nil, Store.exec]

/-- The attempt failed: it is counted as a fallback. -/
theorem Attempting.giveUp (side : Side) (h : Attempting v) (failReason : FallbackReason)
    (peerGone : Bool) :
    Inv ⟨.patrol, side.giveUp failReason peerGone ++ [.setState .active], v, running, thread⟩ := by
  obtain ⟨hbalance, hlosses, hattempts⟩ := h.books
  have hplain : ∀ store ∈ side.giveUp failReason peerGone, store.plain = true := by
    cases side <;> simp [Side.giveUp, serverWithdraw, clientWithdraw, Store.plain]
  obtain ⟨signal, decision, fallback, hexec⟩ := execAll_giveUp side failReason peerGone v
  apply inv_patrol (h.quiet.safe hplain).1
  · rw [hexec]
    refine ⟨?_, Nat.le_succ_of_le hlosses, hattempts⟩
    show v.switchAttempts + v.losses = v.switchSuccesses + (v.switchFallbacks + 1) + 0
    omega
  · rw [hexec]
    exact Or.inr ⟨rfl, rfl, rfl⟩

/-- On patrol the handshake is lost: the connection is wound up. -/
theorem inv_onDisconnect (side : Side) (h : Inv ⟨.patrol, [], v, running, thread⟩) :
    Inv ⟨.top, side.onDisconnect, v, running, thread⟩ := by
  have hpatrol : Books v 0 0 ∧ Settled v := h.place
  have hbooks := hpatrol.1
  have hgood : Good v := h.safe
  have hfirst : Quiet ((Store.setState .withdraw).exec v) := ⟨nofun, hgood.built, hgood.established⟩
  have hplain : ∀ store ∈ side.withdrawToSocket .withdrawnByPeer
      ++ [.attempted false, .setDecision .pending] ++ storeEvidence .absent, store.plain = true := by
    cases side <;> decide
  refine ⟨?_, hgood, (hfirst.safe hplain).1⟩
  cases side <;>
    exact ⟨⟨hbooks.balance, hbooks.losses, hbooks.attempts⟩, fun _ => ⟨⟨rfl, rfl⟩, rfl, fun _ => rfl⟩⟩

/-- On patrol the SHM leg is lost: this is a fallback without an attempt. -/
theorem inv_onLegLoss (side : Side) (h : Inv ⟨.patrol, [], v, running, thread⟩) :
    Inv ⟨.patrol, side.onLegLoss, v, running, thread⟩ := by
  have hpatrol : Books v 0 0 ∧ Settled v := h.place
  obtain ⟨hbalance, hlosses, hattempts⟩ := hpatrol.1
  have hgood : Good v := h.safe
  have hfirst : Quiet ((Store.setState .withdraw).exec v) := ⟨nofun, hgood.built, hgood.established⟩
  have hplain : ∀ store ∈ side.withdrawToSocket .remoteIoFailure ++ [.addFallback, .countLoss],
      store.plain = true := by
    cases side <;> decide
  have hbooks : ∀ w : Vars, w.switchAttempts = v.switchAttempts → w.losses = v.losses + 1 →
      w.switchSuccesses = v.switchSuccesses → w.switchFallbacks = v.switchFallbacks + 1 →
      w.probes = v.probes → Books w 0 0 := by
    intro w ha hl hs hf hp
    exact ⟨by omega, by omega, by omega⟩
  have hsafe : Safe v (.setState .withdraw ::
      (side.withdrawToSocket .remoteIoFailure ++ [.addFallback, .countLoss])) :=
    ⟨hgood, (hfirst.safe hplain).1⟩
  have hinv : Inv ⟨.patrol, (.setState .withdraw ::
      (side.withdrawToSocket .remoteIoFailure ++ [.addFallback, .countLoss]))
        ++ [.setState .active], v, running, thread⟩ := by
    apply inv_patrol hsafe
    · cases side <;> exact hbooks _ rfl rfl rfl rfl rfl
    · cases side <;> exact Or.inr ⟨rfl, rfl, rfl⟩
  cases side <;> exact hinv

/-- The leg is built. -/
theorem Attempting.build (h : Attempting v) (hbuilt : v.built = 0) :
    Inv ⟨.rendezvous, [.moveLeg], v, running, thread⟩ := by
  have hnew : Attempting ((Store.moveLeg).exec v) := by
    refine ⟨⟨h.books.balance, h.books.losses, h.books.attempts⟩, h.useShm, h.state, ?_,
      h.established, h.dataPlane⟩
    show v.built + 1 ≤ 1
    omega
  refine ⟨⟨hnew, rfl, ?_⟩, h.quiet.good, hnew.quiet.good⟩
  show v.built + 1 = 1
  omega

/-- The loop has looked at the new leg, at the clock and at the handshake. -/
theorem inv_meet (opts : Options) (h : Attempting v) (hleg : v.shmLeg = true) (hbuilt : v.built = 1)
    {inTime legUp handshake : Bool} {target : Place × List Store}
    (hnext : next side opts ⟨.rendezvous, [], v, running, thread⟩ (.meet inTime legUp handshake)
      = some target) :
    Inv ⟨target.1, target.2, v, running, thread⟩ := by
  simp only [next, if_true, Option.some.injEq] at hnext
  split at hnext
  · cases hnext
    exact h.decide nofun
  split at hnext
  · cases hnext
    exact h.decide fun _ => ⟨hleg, hbuilt⟩
  split at hnext <;> cases hnext
  · exact h.decide nofun
  · exact h.quiet.inv (by decide) ⟨h, hleg, hbuilt⟩

end Places

/-! ## Every run -/

/-- What the loop reads leads to a place whose invariant holds. -/
theorem inv_next {e : Event} {target : Place × List Store} (h : Inv s) (htodo : s.todo = [])
    (hthread : e.readsHandshake = true → s.handshakeThread = true)
    (hnext : next side opts s e = some target) :
    Inv { s with
      place := target.1, todo := target.2
      handshakeThread := bif e.startsThread then true else s.handshakeThread } := by
  obtain ⟨place, todo, v, running, thread⟩ := s
  obtain rfl : todo = [] := htodo
  have hgood : Good v := h.safe
  cases e with
  | initChannel =>
      simp only [next] at hnext
      split at hnext <;> cases hnext
      rename_i hat
      obtain rfl : place = .created := hat
      obtain ⟨hv, hnone⟩ := h.place
      obtain rfl : v = init.vars := hv
      have hquiet : Quiet init.vars := ⟨nofun, Nat.zero_le 1, Nat.le_refl 0⟩
      exact hquiet.inv (by decide) ⟨rfl, hnone⟩
  | opened ok started =>
      simp only [next] at hnext
      split at hnext <;> cases hnext
      rename_i hat
      obtain rfl : place = .opening := hat
      obtain ⟨hv, hnone⟩ := h.place
      obtain rfl : v = { init.vars with state := .probe, selected := .socket } := hv
      have hquiet : Quiet { init.vars with state := .probe, selected := .socket } :=
        ⟨nofun, Nat.zero_le 1, Nat.le_refl 0⟩
      refine hquiet.inv (by simp [Store.plain]) ⟨⟨rfl, Nat.le_refl 0, Nat.le_refl 0⟩, fun _ => ?_⟩
      refine ⟨⟨rfl, rfl⟩, rfl, fun hthread => ?_⟩
      obtain rfl : thread = false := hnone
      cases ok with
      | true => rfl
      | false => cases hthread
  | test =>
      cases place with
      | top =>
          cases running with
          | false =>
              cases hnext
              exact ⟨trivial, hgood⟩
          | true =>
              cases hnext
              exact inv_probing h
      | probed =>
          cases running with
          | false =>
              cases hnext
              exact ⟨trivial, hgood⟩
          | true => exact inv_negotiate opts h hnext
      | _ => cases hnext
  | probe handshake =>
      simp only [next] at hnext
      split at hnext <;> cases hnext
      rename_i hat
      obtain rfl : place = .probing := hat
      split
      · exact h
      · rename_i hexit
        obtain ⟨hbooks, hnoLeg, hstate, hattempted, hbuilt, hest, hplane⟩ := h.place
        refine ⟨⟨hbooks, hnoLeg, hstate, hattempted, hbuilt, hest, fun hrunning => ?_⟩, hgood⟩
        apply hplane
        apply hthread
        by_contra hno
        exact hexit ⟨hrunning, hno⟩
  | foundPeer found =>
      by_cases hat : place = .findingPeer
      · subst hat
        exact inv_foundPeer side opts h.place hnext
      · simp only [next, if_neg hat] at hnext
        cases hnext
  | occupied answer =>
      by_cases hat : place = .asking
      · subst hat
        exact inv_occupied opts h.place hnext
      · simp only [next, if_neg hat] at hnext
        cases hnext
  | signal inTime sig handshake =>
      by_cases hat : place = .awaitingSignal
      · subst hat
        exact inv_signal opts h.place hnext
      · simp only [next, if_neg hat] at hnext
        cases hnext
  | constructed =>
      simp only [next] at hnext
      split at hnext <;> cases hnext
      rename_i hat
      obtain rfl : place = .constructing := hat
      obtain ⟨hattempting, hbuilt⟩ := h.place
      exact hattempting.build hbuilt
  | throws =>
      simp only [next] at hnext
      split at hnext <;> cases hnext
      rename_i hat
      have hattempting : Attempting v := by
        rcases hat with hat | hat
        · obtain rfl : place = .constructing := hat
          exact h.place.1
        · obtain rfl : place = .rendezvous := hat
          exact h.place.1
      exact hattempting.decide nofun
  | meet inTime legUp handshake =>
      by_cases hat : place = .rendezvous
      · subst hat
        obtain ⟨hattempting, hleg, hbuilt⟩ := h.place
        exact inv_meet opts hattempting hleg hbuilt hnext
      · simp only [next, if_neg hat] at hnext
        cases hnext
  | decide handshake =>
      cases place with
      | deciding established failReason =>
          obtain ⟨hattempting, hleg⟩ := h.place
          simp only [next, Option.some.injEq] at hnext
          cases hnext
          dsimp only
          split
          · rename_i hest
            obtain ⟨hshm, hbuilt⟩ := hleg hest.1
            exact hattempting.confirm hshm hbuilt
          · exact hattempting.giveUp side failReason _
      | _ => cases hnext
  | inspect handshake legUp =>
      simp only [next] at hnext
      split at hnext <;> cases hnext
      rename_i hat
      obtain rfl : place = .patrol := hat
      split
      · rename_i hstopped
        have hpatrol : Books v 0 0 ∧ Settled v := h.place
        exact ⟨⟨hpatrol.1, fun hrunning => absurd hrunning hstopped⟩, hgood⟩
      split
      · exact inv_onDisconnect side h
      split
      · exact inv_onLegLoss side h
      · exact h
  | store => cases hnext
  | stop => cases hnext

/-- The destructor stops the loop at any point. -/
theorem PlaceInv.stopped {v : Vars} (h : PlaceInv s v) : PlaceInv { s with running := false } v := by
  obtain ⟨place, todo, _, running, thread⟩ := s
  cases place with
  | top => exact ⟨h.1, nofun⟩
  | probed =>
      obtain ⟨hbooks, hnoLeg, hstate, hattempted, hbuilt, hest, -⟩ := h
      exact ⟨hbooks, hnoLeg, hstate, hattempted, hbuilt, hest, nofun⟩
  | _ => exact h

/-- A step in which the loop reads something. -/
theorem inv_read {e : Event} (h : Inv s) (hstop : e ≠ .stop) (hstore : e ≠ .store)
    (hstep : step side opts s e = some t) : Inv t := by
  have hgo : (if s.todo ≠ [] ∨ (e.readsHandshake = true ∧ ¬ s.handshakeThread = true) then none
      else (next side opts s e).map fun target =>
        { s with
          place := target.1, todo := target.2
          handshakeThread := bif e.startsThread then true else s.handshakeThread }) = some t := by
    cases e <;> first | exact hstep | contradiction
  split at hgo
  · cases hgo
  · rename_i hidle
    rw [not_or, not_not, not_and_not_right] at hidle
    obtain ⟨target, hnext, rfl⟩ := Option.map_eq_some_iff.mp hgo
    exact inv_next h hidle.1 hidle.2 hnext

/-- A step keeps the invariant. -/
theorem inv_step {e : Event} (h : Inv s) (hstep : step side opts s e = some t) : Inv t := by
  by_cases hstop : e = .stop
  · subst hstop
    cases hstep
    exact ⟨h.place.stopped, h.safe⟩
  by_cases hstore : e = .store
  · subst hstore
    simp only [step] at hstep
    split at hstep
    · cases hstep
    · rename_i store rest htodo
      cases hstep
      have hplace := h.place
      have hsafe := h.safe
      rw [htodo] at hplace hsafe
      exact ⟨hplace, hsafe.2⟩
  · exact inv_read h hstop hstore hstep

theorem inv_init : Inv init :=
  ⟨⟨rfl, rfl⟩, ⟨nofun, Nat.zero_le 1, Nat.le_refl 0⟩⟩

/-- **The path switch.**  In every run of `supervise`, on either side and with any options: a
state whose status is `Active` has one open route with the leg that belongs to it, at most as
many successes as attempts and as Probe phases, and as many attempts and handled losses as
successes and fallbacks; and after one Probe phase at most one SHM leg is established. -/
theorem path_switch (side : Side) (opts : Options) {events : List Event} {s : LoopState}
    (hrun : (supervise side opts).run events = some s) :
    (s.vars.state = .active →
      (s.vars.useShm = true ∧ s.vars.shmLeg = true ∧ s.vars.dataPlaneRunning = false ∨
        s.vars.useShm = false ∧ s.vars.shmLeg = false ∧ s.vars.dataPlaneRunning = true) ∧
      s.vars.switchSuccesses ≤ s.vars.switchAttempts ∧ s.vars.switchAttempts ≤ s.vars.probes ∧
      s.vars.switchAttempts + s.vars.losses
        = s.vars.switchSuccesses + s.vars.switchFallbacks) ∧
    s.vars.established ≤ 1 := by
  have hinv : Inv s :=
    Machine.invariant (M := supervise side opts) inv_init (fun _ _ _ h hstep => inv_step h hstep) hrun
  have hgood := hinv.safe.good
  refine ⟨fun hactive => ?_, Nat.le_trans hgood.established hgood.built⟩
  obtain ⟨hroute, hsuccesses, hattempts, hbalance⟩ := hgood.settled hactive
  exact ⟨hroute, hsuccesses, hattempts, hbalance⟩

/-- The next stores, so many of them. -/
def stores (n : ℕ) : List Event := List.replicate n .store

/-- A server that switches to shared memory and loses its leg. -/
def serverRun : List Event :=
  [.initChannel] ++ stores 2 ++ [.opened true true] ++ stores 1 ++ [.test] ++ stores 1 ++
    [.probe true, .test] ++ stores 1 ++ [.foundPeer ⟨4, 77, 1⟩] ++ stores 3 ++ [.occupied false] ++
    stores 5 ++ [.constructed] ++ stores 1 ++ [.meet true true true, .decide true] ++ stores 6 ++
    [.inspect true false] ++ stores 10

/-- The server has lost its leg and is `Active` on the socket again. -/
theorem path_switch_serverRun :
    ∃ s, (supervise .server ⟨true, false⟩).run serverRun = some s ∧
      s.vars.state = .active ∧ s.vars.switchAttempts = 1 ∧ s.vars.losses = 1 ∧
      (s.vars.state = .active →
        (s.vars.useShm = true ∧ s.vars.shmLeg = true ∧ s.vars.dataPlaneRunning = false ∨
          s.vars.useShm = false ∧ s.vars.shmLeg = false ∧ s.vars.dataPlaneRunning = true) ∧
        s.vars.switchSuccesses ≤ s.vars.switchAttempts ∧ s.vars.switchAttempts ≤ s.vars.probes ∧
        s.vars.switchAttempts + s.vars.losses
          = s.vars.switchSuccesses + s.vars.switchFallbacks) ∧
      s.vars.established ≤ 1 := by
  have hend : ((supervise .server ⟨true, false⟩).run serverRun).map
      (fun s => (s.vars.state, s.vars.switchAttempts, s.vars.losses)) = some (.active, 1, 1) := by
    decide +kernel
  obtain ⟨s, hrun, heq⟩ := Option.map_eq_some_iff.mp hend
  obtain ⟨hstate, hrest⟩ := Prod.mk.injEq .. ▸ heq
  obtain ⟨hattempts, hlosses⟩ := Prod.mk.injEq .. ▸ hrest
  exact ⟨s, hrun, hstate, hattempts, hlosses, path_switch .server ⟨true, false⟩ hrun⟩

end DzIpc.SerCli.PathSwitch
