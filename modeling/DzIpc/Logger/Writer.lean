import DzIpc.Control.InfoPool
import DzIpc.Library.Machine
import DzIpc.Logger.Bag

/-!
# The logger

`LoggerImpl`: `record` puts events into a queue, and the writer thread takes them out one by one,
adds each to the chunk of the open bag, and closes the bag and opens the next one when one of four
limits is met.  The actions of the machine are the critical sections of the mutex; between them
other threads record, also while the writer holds an event that it has taken, and while it
rotates, which it does without the mutex.  File operations succeed.

Beside the state of the source the machine keeps, for the run since the last `start`, the events
that were queued, those in the chunk, and the bags that are closed, each with its events.

* `run_inv`: an event that was queued is in a closed bag, in the chunk, with the writer or in the
  queue, once and in order; and a closed bag is the file of its events.
-/

namespace DzIpc.Logger

/-! ## Settings -/

/-- `std::numeric_limits<size_t>::max()`. -/
def sizeMax : ℕ := 2 ^ 64 - 1

/-- `safe_mb_to_bytes`. -/
def safeMbToBytes (mb : ℕ) : ℕ :=
  if mb > sizeMax / (1024 * 1024) then sizeMax else mb * 1024 * 1024

/-- `safe_add_saturate`. -/
def safeAddSaturate (a b : ℕ) : ℕ := if a > sizeMax - b then sizeMax else a + b

/-- `safe_mul_saturate`. -/
def safeMulSaturate (a b : ℕ) : ℕ := if 0 < a ∧ b > sizeMax / a then sizeMax else a * b

/-- The arguments of `start`, without the path. -/
structure StartArgs where
  maxMemoryMb : ℕ
  maxQueueSize : ℕ
  maxFileSizeMb : ℕ
  maxDurationSec : ℕ
  deriving DecidableEq

structure Settings where
  maxMemory : ℕ
  maxQueue : ℕ
  maxFileSize : ℕ
  maxDurationSec : ℕ
  deriving DecidableEq

/-- What `start` makes of its arguments. -/
def StartArgs.settings (a : StartArgs) : Settings :=
  { maxMemory := if 0 < a.maxMemoryMb then safeMbToBytes a.maxMemoryMb else safeMbToBytes 256
    maxQueue := if 0 < a.maxQueueSize then a.maxQueueSize else 100000
    maxFileSize := if 0 < a.maxFileSizeMb then safeMbToBytes a.maxFileSizeMb else 0
    maxDurationSec := a.maxDurationSec }

namespace Settings

/-- `augmented_queue_cap`. -/
def augmentedQueueCap (c : Settings) : ℕ :=
  if c.maxQueue > sizeMax / 3 * 2 then sizeMax else c.maxQueue + c.maxQueue / 2

/-- `low_watermark`. -/
def lowWatermark (c : Settings) : ℕ :=
  if c.maxQueue / 2 < 1 ∧ 1 ≤ c.maxQueue then 1 else c.maxQueue / 2

end Settings

/-! ## Endpoint metadata -/

open Control.InfoPool (EntryKind EntrySnapshot)

/-- `transport_from_entry_kind`. -/
def transportFromEntryKind : EntryKind → TransportKind
  | .socketPub | .socketSub | .socketServer | .socketClient => .socket
  | _ => .shm

/-- The role of an endpoint; an unknown kind has none. -/
def roleFromEntryKind : EntryKind → Option RoleKind
  | .shmPub | .socketPub => some .publisher
  | .shmSub | .socketSub => some .subscriber
  | .shmClient | .socketClient => some .client
  | .shmServer | .socketServer => some .server
  | .unknown => none

/-- The event of an entry in the loop of `record_endpoint_meta_locked`. -/
def metaEvent (e : EntrySnapshot) (now : BitVec 64) : Option LogEvent :=
  if e.inUse then
    (roleFromEntryKind e.kind).map fun role =>
      { timestampNs := now, topic := e.topicName, typeName := e.typeName
        domainId := e.domainId, msgId := 0, transport := transportFromEntryKind e.kind
        role := role, eventKind := .endpointMeta, payload := none }
  else none

/-! ## State -/

/-- Where the writer is: in `wait_for_event_or_deadline`, with an event that it has taken, in
`do_rotate` without the mutex, or at its end. -/
inductive WriterPc where
  | waiting
  | holding (e : LogEvent)
  | rotating
  | exited
  deriving DecidableEq

/-- A bag that has been closed: the file, and (history) the events that were in the chunk. -/
structure Bag where
  bytes : List UInt8
  events : List LogEvent

/-- `LoggerImpl`; the writer is `none` where the thread is not joinable, and the bag where no
file is open. -/
structure Impl where
  running : Bool
  writer : Option WriterPc
  stopping : Bool
  settings : Settings
  queue : List LogEvent
  bag : Option OpenBag
  bagStartTime : ℕ
  bagStartSteady : ℕ
  rotationInProgress : Bool
  queueRotationArmed : Bool
  queueRearmBlocked : Bool
  queueReleasePending : Bool
  rotationCounter : ℕ
  droppedCount : ℕ
  -- history of the run
  metadata : List LogEvent
  accepted : List LogEvent
  logged : List LogEvent
  bags : List Bag

namespace Impl

/-- The logger before its first `start`. -/
def init : Impl :=
  { running := false, writer := none, stopping := false
    settings := ⟨safeMbToBytes 256, 100000, 0, 0⟩, queue := [], bag := none
    bagStartTime := 0, bagStartSteady := 0, rotationInProgress := false
    queueRotationArmed := false, queueRearmBlocked := false, queueReleasePending := false
    rotationCounter := 0, droppedCount := 0
    metadata := [], accepted := [], logged := [], bags := [] }

/-! ## `start`, `record` and `stop` -/

/-- `start`, with the snapshot of the info pool and the time at which each entry is read. -/
def start (s : Impl) (args : StartArgs) (entries : List (EntrySnapshot × BitVec 64)) : Impl :=
  if s.running ∨ s.writer.isSome then s
  else
    let queue := entries.filterMap fun (e, now) => metaEvent e now
    { running := true, writer := some .waiting, stopping := s.stopping
      settings := args.settings, queue := queue, bag := some .opened
      bagStartTime := 0, bagStartSteady := 0, rotationInProgress := false
      queueRotationArmed := 0 < args.settings.maxQueue ∧ queue.length ≥ args.settings.maxQueue
      queueRearmBlocked := false, queueReleasePending := false
      rotationCounter := 0, droppedCount := 0
      metadata := queue, accepted := [], logged := [], bags := [] }

/-- The bound on the queue that `record` checks. -/
def effMax (s : Impl) : ℕ :=
  if s.queueRotationArmed ∨ s.rotationInProgress ∨ s.queueRearmBlocked then
    s.settings.augmentedQueueCap
  else s.settings.maxQueue

/-- The event with the time at which it is recorded, if it has none. -/
def stamped (event : LogEvent) (now : BitVec 64) : LogEvent :=
  if event.timestampNs = 0 then { event with timestampNs := now } else event

/-- `record`. -/
def record (s : Impl) (event : LogEvent) (now : BitVec 64) : Impl :=
  if ¬s.running then s
  else if 0 < s.effMax ∧ s.queue.length ≥ s.effMax then
    { s with droppedCount := s.droppedCount + 1 }
  else
    { s with
      queue := s.queue ++ [stamped event now]
      queueRotationArmed := s.queueRotationArmed ||
        (0 < s.settings.maxQueue ∧ s.queue.length + 1 ≥ s.settings.maxQueue ∧
          ¬s.queueRearmBlocked)
      accepted := s.accepted ++ [stamped event now] }

/-- The open bag is completed and its file closed. -/
def closeBag (s : Impl) : Impl :=
  match s.bag with
  | none => s
  | some b =>
    { s with
      bag := none, logged := []
      bags := s.bags ++ [{ bytes := b.finalizeCurrentBag.out, events := s.logged }] }

/-- The end of `stop`, behind `join`. -/
def finishStop (s : Impl) : Impl :=
  { s.closeBag with
    writer := none, stopping := false, queue := [], queueRotationArmed := false
    queueRearmBlocked := false, queueReleasePending := false }

/-! ## The writer -/

/-- `should_rotate_locked`, at a reading of the steady clock in nanoseconds. -/
def shouldRotate (s : Impl) (b : OpenBag) (now : ℕ) : Bool :=
  if b.chunk.msgData = [] then false
  else if b.chunk.msgData.length ≥ s.settings.maxMemory then true
  else if 0 < s.settings.maxFileSize ∧
      safeAddSaturate b.bytesWritten (safeAddSaturate b.chunk.msgData.length
        (safeAddSaturate 30 (safeAddSaturate (safeMulSaturate b.chunk.indexEntries.length 28) 80)))
        ≥ s.settings.maxFileSize then true
  else if 0 < s.settings.maxDurationSec ∧ 0 < s.bagStartSteady ∧
      (now - s.bagStartSteady) / 1000000000 ≥ s.settings.maxDurationSec then true
  else 0 < s.settings.maxQueue ∧ s.queueRotationArmed

/-- `maybe_unblock_rearm_locked`. -/
def maybeUnblockRearm (s : Impl) : Impl :=
  let unblocked := s.queueRearmBlocked ∧ s.queue.length < s.settings.lowWatermark
  let released := s.queueReleasePending ∧ s.queue = []
  { s with
    queueRearmBlocked := if unblocked then false else s.queueRearmBlocked
    queueReleasePending := if released then false else s.queueReleasePending }

/-- The end of a round of `writer_loop`: the rotation starts, or the writer waits again. -/
def endRound (s : Impl) (b : OpenBag) (now : ℕ) : Impl :=
  if s.shouldRotate b now then { s with writer := some .rotating, rotationInProgress := true }
  else { s.maybeUnblockRearm with writer := some .waiting }

/-- The writer adds the event that it has taken to the chunk. -/
def append (s : Impl) (e : LogEvent) (b : OpenBag) (now : ℕ) : Impl :=
  match serializeEventToMsgRec e with
  | none => { s with writer := some .waiting }
  | some msgRec =>
    let first := b.chunk.msgData = [] ∧ s.bagStartTime = 0
    let b' := { b with chunk := b.chunk.append e.timestampNs.toNat msgRec }
    let s' := { s with
      bag := some b'
      bagStartTime := if first then e.timestampNs.toNat else s.bagStartTime
      bagStartSteady := if first then now else s.bagStartSteady
      logged := s.logged ++ [e] }
    s'.endRound b' now

/-- `do_rotate`, from where it gives the mutex back to its end, and the rest of the round. -/
def rotate (s : Impl) : Impl :=
  let s' := { s.closeBag with
    rotationCounter := s.rotationCounter + 1, bag := some .opened, bagStartTime := 0
    bagStartSteady := 0, rotationInProgress := false, queueRotationArmed := false
    queueRearmBlocked := s.queue.length ≥ s.settings.lowWatermark
    queueReleasePending := s.queueReleasePending || s.queue ≠ [] }
  { s'.maybeUnblockRearm with writer := some .waiting }

end Impl

/-! ## The machine -/

inductive Action where
  | start (args : StartArgs) (entries : List (EntrySnapshot × BitVec 64))
  | record (event : LogEvent) (now : BitVec 64)
  | requestStop
  | finishStop
  | pop
  | deadline (now : ℕ)
  | append (now : ℕ)
  | rotate
  | exit

/-- One critical section.  `start` and `stop` are called one after the other. -/
def step (s : Impl) : Action → Option Impl
  | .start args entries => if s.stopping then none else some (s.start args entries)
  | .record event now => some (s.record event now)
  | .requestStop => if s.stopping then none else some { s with running := false, stopping := true }
  | .finishStop =>
    if s.stopping ∧ (s.writer = none ∨ s.writer = some .exited) then some s.finishStop else none
  | .pop =>
    match s.writer, s.queue with
    | some .waiting, e :: queue => some { s with writer := some (.holding e), queue := queue }
    | _, _ => none
  | .deadline now =>
    match s.writer, s.queue, s.bag with
    | some .waiting, [], some b =>
      if s.running ∧ 0 < s.settings.maxDurationSec ∧ 0 < s.bagStartSteady ∧
          s.bagStartSteady + s.settings.maxDurationSec * 1000000000 ≤ now then
        some (s.endRound b now)
      else none
    | _, _, _ => none
  | .append now =>
    match s.writer, s.bag with
    | some (.holding e), some b => some (s.append e b now)
    | _, _ => none
  | .rotate => if s.writer = some .rotating then some s.rotate else none
  | .exit =>
    if s.writer = some .waiting ∧ ¬s.running ∧ s.queue = [] then
      some { s with writer := some .exited }
    else none

/-- The logger. -/
def machine : Machine Impl Action := ⟨Impl.init, step⟩

/-! ## The invariant -/

/-- The chunk of a list of events. -/
def chunkOf (events : List LogEvent) : ChunkBuf :=
  events.foldl (fun c e => c.append e.timestampNs.toNat e.record) .empty

/-- A new bag with these events in its chunk. -/
def openedWith (events : List LogEvent) : OpenBag :=
  { OpenBag.opened with chunk := chunkOf events }

/-- The file of these events. -/
def bagBytes (events : List LogEvent) : List UInt8 :=
  (openedWith events).finalizeCurrentBag.out

/-- The event that the writer has taken. -/
def Impl.held (s : Impl) : List LogEvent :=
  match s.writer with
  | some (.holding e) => [e]
  | _ => []

/-- What holds of the logger at any time. -/
structure Inv (s : Impl) : Prop where
  balance : (s.metadata ++ s.accepted).filter LogEvent.Fits =
    s.bags.flatMap Bag.events ++ s.logged ++ (s.held ++ s.queue).filter LogEvent.Fits
  closed : ∀ g ∈ s.bags, g.bytes = bagBytes g.events
  bag_open : s.writer.isSome = true → s.bag = some (openedWith s.logged)
  idle : s.writer = none →
    s.running = false ∧ s.bag = none ∧ s.logged = [] ∧ s.queue = []
  exited : s.writer = some .exited → s.running = false ∧ s.queue = []

namespace Inv

variable {s : Impl}

theorem joinable (h : Inv s) (hrunning : s.running = true) :
    s.writer.isSome = true ∧ s.writer ≠ some .exited := by
  constructor
  · rw [Option.isSome_iff_ne_none]
    intro hnone
    rw [(h.idle hnone).1] at hrunning
    nomatch hrunning
  · intro hexited
    rw [(h.exited hexited).1] at hrunning
    nomatch hrunning

theorem start (h : Inv s) (args : StartArgs) (entries : List (EntrySnapshot × BitVec 64)) :
    Inv (s.start args entries) := by
  rw [Impl.start]
  split_ifs with hbusy
  · exact h
  · refine ⟨?_, ?_, ?_, ?_, ?_⟩
    · simp [Impl.held]
    · simp
    · exact fun _ => rfl
    · simp
    · simp

theorem record (h : Inv s) (event : LogEvent) (now : BitVec 64) : Inv (s.record event now) := by
  rw [Impl.record]
  split_ifs with hrunning hfull
  · exact ⟨h.balance, h.closed, h.bag_open, h.idle, h.exited⟩
  · obtain ⟨hsome, hexited⟩ := h.joinable hrunning
    refine ⟨?_, h.closed, h.bag_open, fun hnone => ?_, fun hexit => absurd hexit hexited⟩
    · have hbal := h.balance
      simp only [Impl.held] at hbal ⊢
      rw [← List.append_assoc s.metadata, List.filter_append, hbal, ← List.append_assoc _ s.queue,
        List.filter_append (_ ++ s.queue), List.append_assoc _ (List.filter _ _) _]
    · exact absurd hnone (Option.isSome_iff_ne_none.mp hsome)
  · exact h

/-- Steps of the writer that touch neither events nor files. -/
theorem of_same {t : Impl} (h : Inv s) (hmeta : t.metadata = s.metadata)
    (hacc : t.accepted = s.accepted) (hbags : t.bags = s.bags) (hlogged : t.logged = s.logged)
    (hevents : (t.held ++ t.queue).filter LogEvent.Fits = (s.held ++ s.queue).filter LogEvent.Fits)
    (hbag : t.bag = s.bag) (hs : s.writer.isSome = true) (ht : t.writer.isSome = true)
    (hexited : t.writer = some .exited → t.running = false ∧ t.queue = []) : Inv t := by
  refine ⟨?_, ?_, ?_, ?_, hexited⟩
  · rw [hmeta, hacc, hbags, hlogged, hevents]
    exact h.balance
  · rw [hbags]
    exact h.closed
  · intro _
    rw [hbag, hlogged]
    exact h.bag_open hs
  · intro hnone
    rw [hnone] at ht
    nomatch ht

/-- The round ends, with the writer in `do_rotate` or in its wait. -/
theorem endRound (h : Inv { s with writer := some .waiting }) (b : OpenBag) (now : ℕ) :
    Inv (s.endRound b now) := by
  rw [Impl.endRound]
  split_ifs
  · exact h.of_same rfl rfl rfl rfl rfl rfl rfl rfl fun hexit => (nomatch hexit)
  · exact h.of_same rfl rfl rfl rfl rfl rfl rfl rfl fun hexit => (nomatch hexit)

theorem openedWith_append (events : List LogEvent) (e : LogEvent) :
    openedWith (events ++ [e]) =
      { openedWith events with
        chunk := (openedWith events).chunk.append e.timestampNs.toNat e.record } := by
  rw [openedWith, chunkOf, List.foldl_append]
  rfl

theorem append (h : Inv s) {e : LogEvent} {b : OpenBag} (hpc : s.writer = some (.holding e))
    (hb : s.bag = some b) (now : ℕ) : Inv (s.append e b now) := by
  have hsome : s.writer.isSome = true := by rw [hpc]; rfl
  have hopen := h.bag_open hsome
  rw [hb, Option.some.injEq] at hopen
  have hbal := h.balance
  rw [Impl.held, hpc] at hbal
  rw [Impl.append, serializeEventToMsgRec]
  by_cases hfits : e.Fits
  · rw [if_pos hfits]
    apply endRound
    refine ⟨?_, h.closed, fun _ => ?_, fun hnone => (nomatch hnone), fun hexit => (nomatch hexit)⟩
    · change _ = _ ++ (s.logged ++ [e]) ++ ([] ++ s.queue).filter LogEvent.Fits
      rw [hbal, List.filter_append, List.filter_cons_of_pos (by simpa using hfits)]
      simp
    · change some _ = some (openedWith (s.logged ++ [e]))
      rw [openedWith_append, hopen]
  · rw [if_neg hfits]
    refine h.of_same rfl rfl rfl rfl ?_ rfl hsome rfl fun hexit => (nomatch hexit)
    rw [Impl.held, Impl.held, hpc, List.filter_append, List.filter_append,
      List.filter_cons_of_neg (by simpa using hfits)]

/-- The bag is closed: its events move to the closed bags. -/
theorem closeBag (h : Inv s) :
    (s.closeBag.bags.flatMap Bag.events = s.bags.flatMap Bag.events ++ s.logged) ∧
      (∀ g ∈ s.closeBag.bags, g.bytes = bagBytes g.events) ∧ s.closeBag.bag = none ∧
      s.closeBag.logged = [] := by
  cases hwriter : s.writer with
  | none =>
    obtain ⟨-, hbag, hlogged, -⟩ := h.idle hwriter
    rw [Impl.closeBag, hbag]
    simp only
    exact ⟨by rw [hlogged, List.append_nil], h.closed, hbag, hlogged⟩
  | some pc =>
    have hbag := h.bag_open (by rw [hwriter]; rfl)
    rw [Impl.closeBag, hbag]
    refine ⟨?_, ?_, rfl, rfl⟩
    · rw [List.flatMap_append, List.flatMap_singleton]
    · rw [List.forall_mem_append, List.forall_mem_singleton]
      exact ⟨h.closed, rfl⟩

theorem rotate (h : Inv s) (hpc : s.writer = some .rotating) : Inv s.rotate := by
  obtain ⟨hevents, hclosed, -, hlogged⟩ := h.closeBag
  have hbal := h.balance
  rw [Impl.held, hpc] at hbal
  refine ⟨?_, hclosed, fun _ => ?_, fun hnone => (nomatch hnone), fun hexit => (nomatch hexit)⟩
  · change (s.closeBag.metadata ++ s.closeBag.accepted).filter LogEvent.Fits =
      s.closeBag.bags.flatMap Bag.events ++ s.closeBag.logged ++
        ([] ++ s.closeBag.queue).filter LogEvent.Fits
    rw [hevents, hlogged, List.append_nil]
    rw [Impl.closeBag]
    cases s.bag <;> exact hbal
  · change some OpenBag.opened = some (openedWith s.closeBag.logged)
    rw [hlogged]
    rfl

theorem finishStop (h : Inv s) (hpc : s.writer = none ∨ s.writer = some .exited)
    (hstop : s.running = false) : Inv s.finishStop := by
  obtain ⟨hevents, hclosed, hbag, hlogged⟩ := h.closeBag
  have hqueue : s.queue = [] := by
    rcases hpc with hnone | hexited
    · exact (h.idle hnone).2.2.2
    · exact (h.exited hexited).2
  have hheld : s.held = [] := by
    rcases hpc with hpc | hpc <;> rw [Impl.held, hpc]
  have hbal := h.balance
  rw [hheld, hqueue] at hbal
  have hsame : s.closeBag.metadata = s.metadata ∧ s.closeBag.accepted = s.accepted ∧
      s.closeBag.running = s.running := by
    rw [Impl.closeBag]
    cases s.bag <;> exact ⟨rfl, rfl, rfl⟩
  refine ⟨?_, hclosed, fun hsome => (nomatch hsome), fun _ => ?_, fun hexit => (nomatch hexit)⟩
  · change (s.closeBag.metadata ++ s.closeBag.accepted).filter LogEvent.Fits =
      s.closeBag.bags.flatMap Bag.events ++ s.closeBag.logged ++ ([] ++ []).filter LogEvent.Fits
    rw [hsame.1, hsame.2.1, hevents, hlogged, List.append_nil]
    exact hbal
  · exact ⟨hsame.2.2.trans hstop, hbag, hlogged, rfl⟩

end Inv

/-! ## Runs -/

/-- Between the two halves of `stop` nothing runs. -/
def StopsFirst (s : Impl) : Prop := s.stopping = true → s.running = false

theorem running_append (s : Impl) (e : LogEvent) (b : OpenBag) (now : ℕ) :
    (s.append e b now).running = s.running ∧ (s.append e b now).stopping = s.stopping := by
  rw [Impl.append]
  cases serializeEventToMsgRec e with
  | none => exact ⟨rfl, rfl⟩
  | some msgRec =>
    simp only [Impl.endRound]
    split_ifs <;> exact ⟨rfl, rfl⟩

/-- One critical section. -/
theorem step_inv {s t : Impl} {a : Action} (h : Inv s ∧ StopsFirst s) (ht : step s a = some t) :
    Inv t ∧ StopsFirst t := by
  obtain ⟨hinv, hstops⟩ := h
  cases a with
  | start args entries =>
    simp only [step, Option.ite_none_left_eq_some, Option.some.injEq] at ht
    obtain ⟨hstop, rfl⟩ := ht
    refine ⟨hinv.start args entries, fun hstop' => ?_⟩
    rw [Impl.start] at hstop' ⊢
    split_ifs at hstop' ⊢
    · exact absurd hstop' hstop
    · exact absurd hstop' hstop
  | record event now =>
    obtain rfl := Option.some.inj ht
    refine ⟨hinv.record event now, fun hstop => ?_⟩
    rw [Impl.record] at hstop ⊢
    split_ifs at hstop ⊢
    all_goals exact hstops hstop
  | requestStop =>
    simp only [step, Option.ite_none_left_eq_some, Option.some.injEq] at ht
    obtain ⟨-, rfl⟩ := ht
    refine ⟨⟨hinv.balance, hinv.closed, hinv.bag_open, fun hnone => ?_, fun hexit => ?_⟩,
      fun _ => rfl⟩
    · exact ⟨rfl, (hinv.idle hnone).2⟩
    · exact ⟨rfl, (hinv.exited hexit).2⟩
  | finishStop =>
    simp only [step, Option.ite_none_right_eq_some, Option.some.injEq] at ht
    obtain ⟨⟨hstop, hpc⟩, rfl⟩ := ht
    exact ⟨hinv.finishStop hpc (hstops hstop), fun h => (nomatch h)⟩
  | pop =>
    simp only [step] at ht
    split at ht
    · next e queue hpc hqueue =>
      obtain rfl := Option.some.inj ht
      refine ⟨hinv.of_same rfl rfl rfl rfl ?_ rfl (by rw [hpc]; rfl) rfl
        fun hexit => (nomatch hexit), hstops⟩
      simp [Impl.held, hpc, hqueue]
    · nomatch ht
  | deadline now =>
    simp only [step] at ht
    split at ht
    · next b hpc hqueue hbag =>
      split_ifs at ht
      obtain rfl := Option.some.inj ht
      constructor
      · apply Inv.endRound
        refine hinv.of_same rfl rfl rfl rfl ?_ rfl (by rw [hpc]; rfl) rfl
          fun hexit => (nomatch hexit)
        simp [Impl.held, hpc]
      · intro hstop
        rw [Impl.endRound] at hstop ⊢
        split_ifs at hstop ⊢
        all_goals exact hstops hstop
    · nomatch ht
  | append now =>
    simp only [step] at ht
    split at ht
    · next e b hpc hbag =>
      obtain rfl := Option.some.inj ht
      refine ⟨hinv.append hpc hbag now, fun hstop => ?_⟩
      obtain ⟨hrunning, hstopping⟩ := running_append s e b now
      rw [hstopping] at hstop
      rw [hrunning]
      exact hstops hstop
    · nomatch ht
  | rotate =>
    simp only [step, Option.ite_none_right_eq_some, Option.some.injEq] at ht
    obtain ⟨hpc, rfl⟩ := ht
    refine ⟨hinv.rotate hpc, fun hstop => ?_⟩
    have hsame : s.closeBag.stopping = s.stopping ∧ s.closeBag.running = s.running := by
      rw [Impl.closeBag]
      cases s.bag <;> exact ⟨rfl, rfl⟩
    change s.closeBag.running = false
    change s.closeBag.stopping = true at hstop
    rw [hsame.1] at hstop
    rw [hsame.2]
    exact hstops hstop
  | exit =>
    simp only [step, Option.ite_none_right_eq_some, Option.some.injEq] at ht
    obtain ⟨⟨hpc, hrunning, hqueue⟩, rfl⟩ := ht
    refine ⟨hinv.of_same rfl rfl rfl rfl ?_ rfl (by rw [hpc]; rfl) rfl
      fun _ => ⟨(Bool.not_eq_true _).mp hrunning, hqueue⟩, hstops⟩
    simp [Impl.held, hpc]

theorem init_inv : Inv Impl.init ∧ StopsFirst Impl.init :=
  ⟨⟨rfl, fun _ hg => (nomatch hg), fun hsome => (nomatch hsome), fun _ => ⟨rfl, rfl, rfl, rfl⟩,
    fun hexit => (nomatch hexit)⟩, fun hstop => (nomatch hstop)⟩

/-- Every run. -/
theorem run_inv {actions : List Action} {s : Impl} (h : machine.run actions = some s) : Inv s :=
  (Machine.invariant (M := machine) init_inv (fun _ _ _ => step_inv) h).1

end DzIpc.Logger
