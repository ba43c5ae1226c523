import DzIpc.Library.Machine
import DzIpc.Library.Writes

/-!
# The info pool

A table of fixed size in shared memory, in which each endpoint enters itself.  The operations of
`IpcInfoPool` are critical sections of a mutex that outlives a dead owner: each is a list of
stores, and a process that dies in a section has made the first of them.  Strings are kept in
arrays of fixed size.

The machine has any number of processes.  A process builds its `Impl` when it first uses the
pool, and the first of all initialises the segment; registrations are those of
`ScopedRegistration` objects, which unregister only what they registered, and `rebind` is two
calls.  While one process is
in a section others may die, so that the answers of `pid_alive` about these are arbitrary.
-/

namespace DzIpc.Control.InfoPool

/-! ## Entries -/

inductive EntryKind where
  | unknown
  | shmPub
  | shmSub
  | socketPub
  | socketSub
  | shmServer
  | shmClient
  | socketServer
  | socketClient
  deriving DecidableEq, Repr

def kMaxTopicName : ℕ := 128
def kMaxTypeName : ℕ := 64
def kMaxExtra : ℕ := 64
def kMaxEntries : ℕ := 512

/-- What an endpoint enters. -/
structure RegisterInfo where
  kind : EntryKind
  topicName : List UInt8
  typeName : List UInt8
  domainId : BitVec 32
  extra : List UInt8
  deriving DecidableEq, Repr

structure PoolEntry where
  inUse : Bool
  pid : ℕ
  kind : EntryKind
  registerTs : ℕ
  heartbeat : ℕ
  topicName : List UInt8
  typeName : List UInt8
  domainId : BitVec 32
  extra : List UInt8
  deriving DecidableEq, Repr

/-- A fresh segment is all zeros. -/
def PoolEntry.zero : PoolEntry :=
  { inUse := false, pid := 0, kind := .unknown, registerTs := 0, heartbeat := 0
    topicName := List.replicate kMaxTopicName 0, typeName := List.replicate kMaxTypeName 0
    domainId := 0, extra := List.replicate kMaxExtra 0 }

/-- `EntrySnapshot`. -/
structure EntrySnapshot where
  slot : ℕ
  kind : EntryKind
  pid : ℕ
  registerTs : ℕ
  heartbeat : ℕ
  topicName : List UInt8
  typeName : List UInt8
  domainId : BitVec 32
  extra : List UInt8
  inUse : Bool
  alive : Bool
  deriving DecidableEq, Repr

/-- `copy_truncate`: the bytes, then the terminator. -/
def copyTruncate (cap : ℕ) (src : List UInt8) : List (List UInt8 → List UInt8) :=
  let n := min src.length (cap - 1)
  [fun dst => src.take n ++ dst.drop n, fun dst => dst.take n ++ 0 :: dst.drop (n + 1)]

/-- The string that an array of characters holds. -/
def cString (chars : List UInt8) : List UInt8 :=
  chars.takeWhile fun c => c ≠ 0

abbrev Store := PoolEntry → PoolEntry

/-- The stores of `register_entry` to the entry it has found. -/
def registerStores (pid now : ℕ) (info : RegisterInfo) : List Store :=
  [fun e => { e with pid := pid }, fun e => { e with kind := info.kind },
    fun e => { e with registerTs := now }, fun e => { e with heartbeat := now }] ++
  ((copyTruncate kMaxTopicName info.topicName).map fun f e =>
    { e with topicName := f e.topicName }) ++
  ((copyTruncate kMaxTypeName info.typeName).map fun f e => { e with typeName := f e.typeName }) ++
  [fun e => { e with domainId := info.domainId }] ++
  ((copyTruncate kMaxExtra info.extra).map fun f e => { e with extra := f e.extra }) ++
  [fun e => { e with inUse := true }]

/-- The stores that give an entry up: `unregister_entry`, `snapshot` and `gc_dead`. -/
def clearStores : List Store :=
  [fun e => { e with pid := 0 }, fun e => { e with kind := .unknown },
    fun e => { e with registerTs := 0 }, fun e => { e with heartbeat := 0 },
    fun e => { e with topicName := e.topicName.set 0 0 },
    fun e => { e with typeName := e.typeName.set 0 0 }, fun e => { e with domainId := 0 },
    fun e => { e with extra := e.extra.set 0 0 }, fun e => { e with inUse := false }]

/-! ## The operations -/

/-- The segment's entries. -/
abbrev Entries := ℕ → PoolEntry

/-- The entry `register_entry` takes. -/
def freeSlot (entries : Entries) : Option ℕ :=
  (List.range kMaxEntries).find? fun i => !(entries i).inUse

/-- The entries that `snapshot(true)` and `gc_dead` reclaim; `alive` is what `pid_alive` answers
when the loop comes to an entry. -/
def reclaimed (entries : Entries) (alive : ℕ → Bool) : List ℕ :=
  (List.range kMaxEntries).filter fun i => (entries i).inUse && !alive i

/-- What `snapshot` returns. -/
def snapshot (entries : Entries) (alive : ℕ → Bool) (gc : Bool) : List EntrySnapshot :=
  (List.range kMaxEntries).filterMap fun i =>
    let e := entries i
    if !e.inUse || (!alive i && gc) then none
    else
      some
        { slot := i, kind := e.kind, pid := e.pid, registerTs := e.registerTs
          heartbeat := e.heartbeat, topicName := cString e.topicName, typeName := cString e.typeName
          domainId := e.domainId, extra := cString e.extra, inUse := e.inUse, alive := alive i }

/-- The calls that enter a section. -/
inductive Call where
  | register (info : RegisterInfo) (now : ℕ)
  | unregister (slot : ℕ)
  | snapshot (gc : Bool)
  | gcDead
  deriving DecidableEq, Repr

/-- The stores of a call. -/
def writes (entries : Entries) (alive : ℕ → Bool) (pid : ℕ) : Call → List (Write ℕ PoolEntry)
  | .register info now =>
      match freeSlot entries with
      | some i => Write.all i (registerStores pid now info)
      | none => []
  | .unregister slot =>
      if slot < kMaxEntries ∧ (entries slot).inUse = true then Write.all slot clearStores else []
  | .snapshot false => []
  | .snapshot true | .gcDead =>
      (reclaimed entries alive).flatMap fun i => Write.all i clearStores

/-! ## Looking somebody up -/

/-- `find_peer`: the newest entry that matches. -/
def lookForPeer (all : List EntrySnapshot) (topicName : List UInt8) (domainId : ℕ)
    (peerKind : EntryKind) : Option EntrySnapshot :=
  all.foldl
    (fun best e =>
      if !e.inUse || !e.alive || e.kind ≠ peerKind then best
      else if e.topicName ≠ topicName ∨ e.domainId ≠ BitVec.ofNat 32 domainId then best
      else
        match best with
        | none => some e
        | some b => if e.registerTs > b.registerTs then some e else some b)
    none

/-- `shm_channel_occupied`; `probe` is the answer of the control plane, which it asks last. -/
def shmChannelOccupied (all : List EntrySnapshot) (topicName : List UInt8) (domainId selfPid : ℕ)
    (probe : Bool) : Bool :=
  all.any (fun e =>
    e.inUse && e.alive && (e.kind = .shmServer || e.kind = .shmClient) &&
      e.topicName = topicName && e.domainId = BitVec.ofNat 32 domainId && e.pid ≠ selfPid) || probe

/-! ## The processes -/

/-- `init_state`, with the process that initialises the segment. -/
inductive InitState where
  | uninit
  | inProgress (pid : ℕ)
  | ready
  deriving DecidableEq, Repr

/-- A registration that returned a slot: its slot, its owner, and what was entered. -/
structure Reg where
  slot : ℕ
  pid : ℕ
  info : RegisterInfo
  deriving DecidableEq, Repr

structure State where
  initState : InitState
  entries : Entries
  /-- Whether the `Impl` of a process is ready, once it is built. -/
  impl : ℕ → Option Bool
  alive : ℕ → Bool
  /-- The registrations that returned a slot and have not been unregistered. -/
  regs : List Reg

/-- `pid_alive`. -/
def State.pidAlive (s : State) (pid : ℕ) : Bool :=
  0 < pid && s.alive pid

inductive Action where
  /-- The first process changes `init_state`. -/
  | initBegin (p : ℕ)
  | initEnd (p : ℕ)
  /-- The segment is ready. -/
  | attach (p : ℕ)
  /-- It cannot be mapped, or is not ready after two seconds. -/
  | giveUp (p : ℕ)
  | die (p : ℕ)
  /-- A call: the processes that die meanwhile, what `pid_alive` answers for the entries of these,
  and, if the caller dies in the section, the number of stores it has made. -/
  | call (p : ℕ) (c : Call) (deaths : List ℕ) (answer : ℕ → Bool) (cut : Option ℕ)

/-- What `pid_alive` answers during a call. -/
def State.aliveDuring (s : State) (deaths : List ℕ) (answer : ℕ → Bool) (i : ℕ) : Bool :=
  let pid := (s.entries i).pid
  s.pidAlive pid && (pid ∉ deaths || answer i)

/-- The list `snapshot` returns to a process. -/
def State.snapshotBy (s : State) (p : ℕ) (gc : Bool) (deaths : List ℕ) (answer : ℕ → Bool) :
    List EntrySnapshot :=
  if s.impl p = some true then snapshot s.entries (s.aliveDuring deaths answer) gc else []

/-- The slot `register_entry` returns to a process; `none` is -1. -/
def State.registerBy (s : State) (p : ℕ) : Option ℕ :=
  if s.impl p = some true then freeSlot s.entries else none

/-- The processes die that die during a call. -/
def State.mourn (s : State) (p : ℕ) (deaths : List ℕ) (cut : Option ℕ) : State :=
  { s with alive := fun q => s.alive q && q ∉ deaths && (cut.isNone || q ≠ p) }

/-- The registrations after a call. -/
def State.regsAfter (s : State) (p : ℕ) (cut : Option ℕ) : Call → List Reg
  | .register info _ =>
      match cut, s.registerBy p with
      | none, some i => { slot := i, pid := p, info := info } :: s.regs
      | _, _ => s.regs
  | .unregister slot =>
      if s.impl p = some true then s.regs.filter fun g => ¬ (g.slot = slot ∧ g.pid = p) else s.regs
  | .snapshot _ | .gcDead => s.regs

/-- The entries after a call. -/
def State.entriesAfter (s : State) (p : ℕ) (c : Call) (deaths : List ℕ) (answer : ℕ → Bool)
    (cut : Option ℕ) : Entries :=
  if s.impl p = some true then
    let stores := writes s.entries (s.aliveDuring deaths answer) p c
    Write.apply (match cut with
      | none => stores
      | some k => stores.take k) s.entries
  else s.entries

/-- Who may call: a live process whose pool object is built, and to unregister only the owner. -/
def State.mayCall (s : State) (p : ℕ) : Call → Bool
  | .unregister slot =>
      s.pidAlive p && (s.impl p).isSome && s.regs.any fun g => g.slot = slot && g.pid = p
  | _ => s.pidAlive p && (s.impl p).isSome

def step (s : State) : Action → Option State
  | .initBegin p =>
      if s.pidAlive p ∧ s.impl p = none ∧ s.initState = .uninit then
        some { s with initState := .inProgress p }
      else none
  | .initEnd p =>
      if s.pidAlive p ∧ s.initState = .inProgress p then
        some { s with
          initState := .ready
          entries := fun i => { s.entries i with inUse := false }
          impl := Function.update s.impl p (some true) }
      else none
  | .attach p =>
      if s.pidAlive p ∧ s.impl p = none ∧ s.initState = .ready then
        some { s with impl := Function.update s.impl p (some true) }
      else none
  | .giveUp p =>
      if s.pidAlive p ∧ s.impl p = none ∧ s.initState ≠ .inProgress p then
        some { s with impl := Function.update s.impl p (some false) }
      else none
  | .die p => some { s with alive := Function.update s.alive p false }
  | .call p c deaths answer cut =>
      if s.mayCall p c then
        some { s.mourn p deaths cut with
          entries := s.entriesAfter p c deaths answer cut
          regs := s.regsAfter p cut c }
      else none

/-- All processes there will ever be are alive, and nobody has used the pool. -/
def machine : Machine State Action where
  init :=
    { initState := .uninit, entries := fun _ => .zero, impl := fun _ => none, alive := fun _ => true
      regs := [] }
  step := step

end DzIpc.Control.InfoPool
