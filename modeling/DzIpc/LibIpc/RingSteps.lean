import DzIpc.Library.Machine
import DzIpc.LibIpc.Ring

/-!
# The broadcast ring, one access at a time

`push`, `force_push`, `connect` and `pop` of the single-producer broadcast policy with every
atomic access and every copy of a slot taken as a step of its own, for one writer and any
number of readers in any order.  A compare-and-swap may fail for no reason.

A slot holds the value of the push that wrote it together with the number of that push, and
each reader keeps the list of what its `pop` calls delivered; both are history variables.
-/

namespace DzIpc.LibIpc.RingSteps

variable {V : Type}

/-- The contents of a slot: nothing yet, or what a push wrote. -/
abbrev Data (V : Type) := Option (ℕ × V)

/-- Where the writer is in `push` (`force = false`) or `force_push`. -/
inductive WriterPc (V : Type)
  | idle
  /-- About to load the connections. -/
  | readCc (force : Bool) (v : V)
  /-- About to load `rc_` of the slot at the write index. -/
  | loadRc (force : Bool) (v : V) (cc : Cc)
  /-- About to exchange the `rc_` it loaded. -/
  | cas (force : Bool) (v : V) (cc : Cc) (rem : Cc) (epoch : BitVec 32)
  /-- About to write the data. -/
  | write (v : V)
  /-- About to advance the write index. -/
  | advance
  deriving DecidableEq

/-- Where a reader is in `connect` or `pop`; `i` is the slot, `epoch` the epoch first read. -/
inductive ReaderPc (V : Type)
  | idle
  /-- Connected, about to take the write index as its cursor. -/
  | connecting
  /-- About to compare its cursor with the write index less a lap. -/
  | lap
  /-- About to move its cursor to the oldest slot. -/
  | resync
  /-- About to compare its cursor with the write index. -/
  | check
  /-- About to load `rc_` of the slot at its cursor. -/
  | loadRc0
  /-- About to copy the data. -/
  | copy (i : Fin 256) (epoch : BitVec 32)
  /-- About to load `rc_` again. -/
  | loadRc1 (i : Fin 256) (epoch : BitVec 32) (data : Data V)
  /-- About to load the `rc_` it will exchange. -/
  | loadRc (i : Fin 256) (epoch : BitVec 32) (data : Data V)
  /-- About to exchange it. -/
  | cas (i : Fin 256) (epoch : BitVec 32) (data : Data V) (rem : Cc)
  deriving DecidableEq

/-- A reader: its queue, its place in the code, and what it was given, newest first. -/
structure Reader (V : Type) where
  queue : Queue
  pc : ReaderPc V
  received : List (Data V)

/-- The shared ring and the parties. -/
structure State (V : Type) where
  ring : Ring (Data V)
  writer : WriterPc V
  readers : ℕ → Reader V
  /-- The values written into slots, in order. -/
  pushed : List V
  /-- How many calls of `push` and `force_push` have begun. -/
  started : ℕ

/-- A step of one of the parties; the flag lets a compare-and-swap fail. -/
inductive Action (V : Type)
  | push (v : V)
  | forcePush (v : V)
  | writer (spurious : Bool)
  | connect (r : ℕ)
  | pop (r : ℕ)
  | reader (r : ℕ) (spurious : Bool)
  deriving DecidableEq

/-- A call of `push` or `force_push` begins. -/
def Action.begins : Action V → Bool
  | .push _ | .forcePush _ => true
  | _ => false

/-- The zeroed ring, everybody idle. -/
def init : State V :=
  { ring := Ring.zeroed none
    writer := .idle
    readers := fun _ => ⟨⟨0#32, 0#32⟩, .idle, []⟩
    pushed := []
    started := 0 }

/-- Store a slot. -/
def setElem (q : Ring (Data V)) (i : Fin 256) (e : Elem (Data V)) : Ring (Data V) :=
  { q with elems := Function.update q.elems i e }

/-- The next step of the writer. -/
def writerStep (s : State V) (spurious : Bool) : Option (State V) :=
  match s.writer with
  | .idle => none
  | .readCc force v =>
      if s.ring.cc = 0#32 then some { s with writer := .idle }
      else some { s with writer := .loadRc force v s.ring.cc }
  | .loadRc force v cc =>
      let el := s.ring.head
      -- only `push` refuses a slot that is still held
      if force = false ∧ cc &&& el.rem ≠ 0#32 ∧ el.epoch = s.ring.epoch then
        some { s with writer := .idle }
      else some { s with writer := .cas force v cc el.rem el.epoch }
  | .cas force v cc rem epoch =>
      let el := s.ring.head
      if spurious = false ∧ el.rem = rem ∧ el.epoch = epoch then
        some { s with
          ring := setElem s.ring (indexOf s.ring.wt) ⟨cc, s.ring.epoch, el.data⟩
          writer := .write v }
      else some { s with writer := .readCc force v }
  | .write v =>
      some { s with
        ring := setElem s.ring (indexOf s.ring.wt)
          { s.ring.head with data := some (s.pushed.length, v) }
        pushed := s.pushed ++ [v]
        writer := .advance }
  | .advance => some { s with ring := { s.ring with wt := s.ring.wt + 1#32 }, writer := .idle }

/-- `pop` returns true with what it copied. -/
def Reader.deliver (rd : Reader V) (data : Data V) : Reader V :=
  { rd with pc := .idle, received := data :: rd.received }

/-- The next step of a reader: the ring and the reader after it. -/
def readerStep (q : Ring (Data V)) (rd : Reader V) (spurious : Bool) :
    Option (Ring (Data V) × Reader V) :=
  let my := rd.queue.connected
  let cur := rd.queue.cursor
  match rd.pc with
  | .idle => none
  | .connecting => some (q, { rd with queue := ⟨my, q.wt⟩, pc := .idle })
  | .lap =>
      if (q.wt - cur).toNat > ringSlots then some (q, { rd with pc := .resync })
      else some (q, { rd with pc := .check })
  | .resync =>
      some (q, { rd with queue := ⟨my, q.wt - BitVec.ofNat 32 ringSlots⟩, pc := .check })
  | .check =>
      if cur = q.wt then some (q, { rd with pc := .idle }) else some (q, { rd with pc := .loadRc0 })
  | .loadRc0 =>
      let i := indexOf cur
      let el := q.elems i
      let rd := { rd with queue := ⟨my, cur + 1#32⟩ }
      if my ≠ 0#32 ∧ el.rem &&& my = 0#32 then some (q, { rd with pc := .check })
      else some (q, { rd with pc := .copy i el.epoch })
  | .copy i epoch => some (q, { rd with pc := .loadRc1 i epoch (q.elems i).data })
  | .loadRc1 i epoch data =>
      if (q.elems i).epoch ≠ epoch then some (q, { rd with pc := .check })
      else some (q, { rd with pc := .loadRc i epoch data })
  | .loadRc i epoch data =>
      let el := q.elems i
      if el.epoch ≠ epoch then some (q, { rd with pc := .check })
      else if el.rem = 0#32 then some (q, rd.deliver data)
      else some (q, { rd with pc := .cas i epoch data el.rem })
  | .cas i epoch data rem =>
      let el := q.elems i
      if spurious = false ∧ el.rem = rem ∧ el.epoch = epoch then
        some (setElem q i { el with rem := rem &&& ~~~my }, rd.deliver data)
      else some (q, { rd with pc := .loadRc i epoch data })

/-- One step. -/
def step (s : State V) : Action V → Option (State V)
  | .push v =>
      match s.writer with
      | .idle => some { s with writer := .readCc false v, started := s.started + 1 }
      | _ => none
  | .forcePush v =>
      match s.writer with
      | .idle =>
          some { s with
            ring := { s.ring with epoch := s.ring.epoch + 1#32 }
            writer := .readCc true v
            started := s.started + 1 }
      | _ => none
  | .writer spurious => writerStep s spurious
  | .connect r =>
      let rd := s.readers r
      match rd.pc with
      | .idle =>
          if s.ring.isConnected rd.queue then some s
          else
            let (id, cc) := Ring.connHeadConnect s.ring.cc
            let ring := { s.ring with cc := cc }
            let queue : Queue := ⟨id, rd.queue.cursor⟩
            -- the cursor is taken only when a bit was gained
            let pc := if ring.isConnected queue then .connecting else .idle
            some { s with
              ring := ring
              readers := Function.update s.readers r { rd with queue := queue, pc := pc } }
      | _ => none
  | .pop r =>
      let rd := s.readers r
      match rd.pc with
      | .idle =>
          if s.ring.isConnected rd.queue then
            some { s with readers := Function.update s.readers r { rd with pc := .lap } }
          else none
      | _ => none
  | .reader r spurious =>
      match readerStep s.ring (s.readers r) spurious with
      | none => none
      | some (ring, rd) =>
          some { s with ring := ring, readers := Function.update s.readers r rd }

/-- The ring as a machine. -/
def machine (V : Type) : Machine (State V) (Action V) := ⟨init, step⟩

/-! ## Calls without interference -/

/-- The steps of one `push` that succeeds at the first attempt. -/
def pushSteps (v : V) : List (Action V) :=
  [.push v, .writer false, .writer false, .writer false, .writer false, .writer false]

/-- A `push` without interference is `push` of the sequential ring. -/
theorem run_pushSteps {s : State V} {v : V} {old : Elem (Data V)} {q : Ring (Data V)}
    (hidle : s.writer = .idle) (hpush : s.ring.push (some (s.pushed.length, v)) = some (old, q)) :
    (machine V).runFrom s (pushSteps v) =
      some { s with ring := q, pushed := s.pushed ++ [v], started := s.started + 1 } := by
  obtain ⟨hcc, hfull, -, rfl⟩ := Ring.push_eq_some hpush
  have hnotfull : ¬ (s.ring.cc &&& s.ring.head.rem ≠ 0#32 ∧ s.ring.head.epoch = s.ring.epoch) := by
    rw [← Ring.full_iff]
    simp [hfull]
  have hnot : ¬ (s.ring.cc &&& (s.ring.elems (indexOf s.ring.wt)).rem ≠ 0#32 ∧
      (s.ring.elems (indexOf s.ring.wt)).epoch = s.ring.epoch) := hnotfull
  simp [pushSteps, Machine.runFrom, machine, step, hidle, writerStep, hcc, hnot, Ring.head,
    setElem, Ring.overwrite]

end DzIpc.LibIpc.RingSteps
