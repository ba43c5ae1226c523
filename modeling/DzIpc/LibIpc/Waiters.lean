import DzIpc.Library.Machine
import DzIpc.Library.Monitor
import DzIpc.LibIpc.Ring

/-!
# Waking the readers and the writer

`waiter.h` between one writer and any number of readers of a broadcast channel: two waiters
in shared memory, `rd_waiter_` for the readers and `wt_waiter_` for the writer, each with its
lock, its condition and its count.  Processes map the waiters and initialise them, the
readers pop and the writer pushes, both wait when they fail, and both wake the other side.
Each access to a lock, a count or a condition is a step of its own; an operation of the
ring is one step.

* `Inv` carries the two monitors: who waits must wait, or is about to be woken.
* `inv_step` is the induction step; `noLostWakeup_of_guarded` is the result for runs whose
  steps are `Careful`.
* `lost_wakeups` has a run for each part of that condition in which somebody sleeps in
  vain; `away_of_run` shows that nobody is about to wake the sleeper there.
-/

namespace DzIpc.LibIpc.Waiters

open Monitor (Op Phase)

/-- The processes, each with one handle of the channel. -/
inductive Process where
  | writer
  | reader (i : ℕ)
  deriving DecidableEq, Repr

/-- The threads: the writer, the receiving thread of each reader, and in each process a
thread that disconnects the handle. -/
inductive Thread where
  | writer
  | reader (i : ℕ)
  | leaver (p : Process)
  deriving DecidableEq, Repr

/-- `rd_waiter_` and `wt_waiter_`. -/
inductive Side where
  | rd
  | wt
  deriving DecidableEq, Repr

/-- The process a thread belongs to. -/
def Thread.process : Thread → Process
  | writer => .writer
  | reader i => .reader i
  | leaver p => p

/-- How far `waiter::open` has come. -/
inductive Opening where
  | closed
  /-- The state is mapped and its references counted up. -/
  | mapped
  /-- `ref() <= 1` was true: about to construct the state. -/
  | first
  | ready
  deriving DecidableEq, Repr

/-- The shared ring and waiters, and of each process the queue, what it has opened and the
`quit_` of its waiters. -/
structure State where
  ring : Ring Unit
  queues : Process → Queue
  rd : Monitor Thread
  wt : Monitor Thread
  refs : Side → ℕ
  opening : Process → Side → Opening
  quit : Process → Bool

/-- The steps of all threads. -/
inductive Action where
  /-- The next step of `waiter::open`. -/
  | openNext (p : Process) (w : Side)
  /-- `reconnect` of a reader. -/
  | connect (i : ℕ)
  /-- The writer tries a push outside `wait_if`. -/
  | push
  | forcePush
  | pushSniffer
  /-- A reader tries a pop outside `wait_if`. -/
  | pop (i : ℕ)
  /-- Call `wait_if`. -/
  | enter (t : Thread)
  /-- Evaluate the loop condition of `wait_if`. -/
  | test (t : Thread)
  /-- Any other step of `wait_if` or `wake`. -/
  | turn (w : Side) (t : Thread) (op : Op)
  /-- `disconnect` of a handle, up to its first `wake`. -/
  | disconnect (p : Process)
  /-- `disconnect_receivers`. -/
  | evict (ids : Cc)
  deriving DecidableEq

/-- Nothing mapped. -/
def init : State :=
  { ring := Ring.zeroed ()
    queues := fun _ => ⟨0#32, 0#32⟩
    rd := Monitor.idle
    wt := Monitor.idle
    refs := fun _ => 0
    opening := fun _ _ => .closed
    quit := fun _ => false }

namespace State

/-- One of the two waiters. -/
def monitor (s : State) : Side → Monitor Thread
  | .rd => s.rd
  | .wt => s.wt

/-- Replace one of the two waiters. -/
def setMonitor (s : State) (w : Side) (m : Monitor Thread) : State :=
  match w with
  | .rd => { s with rd := m }
  | .wt => { s with wt := m }

/-- The ring and the queue of a process after an operation of its handle. -/
def setQueue (s : State) (p : Process) (ring : Ring Unit) (q : Queue) : State :=
  { s with ring := ring, queues := Function.update s.queues p q }

/-- The thread is in no call of a waiter, and its process has opened both. -/
def free (s : State) (t : Thread) : Bool :=
  s.rd.phase t = .away ∧ s.wt.phase t = .away ∧ s.opening t.process .rd = .ready ∧
    s.opening t.process .wt = .ready

/-- `notify_readers`, up to the first step of `wake`. -/
def notifyReaders (s : State) : Option State :=
  (s.rd.step .writer .knock).map (s.setMonitor .rd)

/-- `notify_writers` if the pop freed its slot.  Only the writer waits there, so that waking
one and waking all are the same. -/
def notifyWriters (s : State) (i : ℕ) (writable : Bool) : Option State :=
  if writable then (s.wt.step (.reader i) .knock).map (s.setMonitor .wt) else some s

end State

/-- The predicate of `recv`: reconnect if the connection is gone, and pop.  The result is
`none` for a pop that fails, and otherwise whether the slot became writable. -/
def popPred (ring : Ring Unit) (q : Queue) : Option Bool × Ring Unit × Queue :=
  let (ring, q) := ring.connect q
  match ring.pop q with
  | (none, ring, q) => (none, ring, q)
  | (some (_, writable), ring, q) => (some writable, ring, q)

/-- The next step of `waiter::open`. -/
def openNext (s : State) (p : Process) (w : Side) : Option State :=
  let set (o : Opening) : Process → Side → Opening :=
    Function.update s.opening p (Function.update (s.opening p) w o)
  match s.opening p w with
  | .closed =>
      some { s with
        refs := Function.update s.refs w (s.refs w + 1), opening := set .mapped }
  | .mapped => some { s with opening := set (if s.refs w ≤ 1 then .first else .ready) }
  | .first => some { s.setMonitor w (s.monitor w).reset with opening := set .ready }
  | .ready => none

/-- One evaluation of a reader's predicate, with its effects. -/
def tryPop (s : State) (i : ℕ) : Option Bool × State :=
  match popPred s.ring (s.queues (.reader i)) with
  | (res, ring, q) => (res, s.setQueue (.reader i) ring q)

/-- One step. -/
def step (s : State) : Action → Option State
  | .openNext p w => openNext s p w
  | .connect i =>
      if s.free (.reader i) then
        let (ring, q) := s.ring.connect (s.queues (.reader i))
        some (s.setQueue (.reader i) ring q)
      else none
  | .push =>
      if s.free .writer then
        match s.ring.push () with
        | none => some s
        | some (_, ring) => { s with ring := ring }.notifyReaders
      else none
  | .forcePush =>
      if s.free .writer then
        match s.ring.forcePush () with
        | (none, ring) => some { s with ring := ring }
        | (some _, ring) => { s with ring := ring }.notifyReaders
      else none
  | .pushSniffer =>
      if s.free .writer then { s with ring := s.ring.pushSniffer () }.notifyReaders else none
  | .pop i =>
      if s.free (.reader i) then
        match tryPop s i with
        | (none, s) => some s
        | (some writable, s) => s.notifyWriters i writable
      else none
  | .enter t =>
      if s.free t then
        match t with
        | .writer => (s.wt.step t .enter).map (s.setMonitor .wt)
        | .reader _ => (s.rd.step t .enter).map (s.setMonitor .rd)
        | .leaver _ => none
      else none
  | .test .writer =>
      if s.quit .writer then do
        let wt ← s.wt.step .writer .pass
        { s with wt := wt }.notifyReaders
      else
        match s.ring.push () with
        | none => (s.wt.step .writer .refuse).map (s.setMonitor .wt)
        | some (_, ring) => do
            let wt ← s.wt.step .writer .pass
            { s with ring := ring, wt := wt }.notifyReaders
  | .test (.reader i) =>
      if s.quit (.reader i) then (s.rd.step (.reader i) .pass).map (s.setMonitor .rd)
      else
        match tryPop s i with
        | (none, t) => (t.rd.step (.reader i) .refuse).map (t.setMonitor .rd)
        | (some writable, t) => do
            let rd ← t.rd.step (.reader i) .pass
            { t with rd := rd }.notifyWriters i writable
  | .test (.leaver _) => none
  | .turn w t op =>
      match op with
      | .lock | .count | .sleep | .rouse | .again | .giveUp | .hear | .broadcast => do
          let m ← (s.monitor w).step t op
          let s := s.setMonitor w m
          match w, t with
          | .wt, .leaver _ =>
              -- `quit_waiting` wakes the readers when it is done with the writer
              if m.phase t = .away then (s.rd.step t .knock).map (s.setMonitor .rd) else some s
          | _, _ => some s
      | _ => none
  | .disconnect p =>
      if s.free (.leaver p) then
        let (ring, q) := s.ring.disconnect (s.queues p)
        (s.wt.step (.leaver p) .knock).map fun wt =>
          { s.setQueue p ring q with quit := Function.update s.quit p true, wt := wt }
      else none
  | .evict ids => some { s with ring := { s.ring with cc := s.ring.cc &&& ~~~ids } }

/-- The waiters as a machine. -/
def machine : Machine State Action := ⟨init, step⟩

/-- Nobody sleeps who could go on: a reader asleep has nothing to pop unless a push is still
waking the readers, and the writer asleep cannot push unless somebody is still waking it. -/
structure NoLostWakeup (s : State) : Prop where
  readers : ∀ i, s.rd.phase (.reader i) = .blocked → s.rd.phase .writer = .away →
    (s.ring.pop (s.queues (.reader i))).1 = none
  writer : s.wt.phase .writer = .blocked → (∀ t, (s.wt.phase t).wakes = false) →
    s.ring.push () = none

/-! ## The condition on the steps -/

/-- The writer has been told to wait. -/
def WriterWaits (s : State) : Prop := (s.wt.phase .writer).refused = true

instance (s : State) : Decidable (WriterWaits s) := inferInstanceAs (Decidable (_ = _))

/-- The slot at the write index carries, in the present epoch, a bit of these readers. -/
def HeadHeldBy (ring : Ring Unit) (ids : Cc) : Prop :=
  ids &&& ring.head.rem ≠ 0#32 ∧ ring.head.epoch = ring.epoch

instance (ring : Ring Unit) (ids : Cc) : Decidable (HeadHeldBy ring ids) :=
  inferInstanceAs (Decidable (_ ∧ _))

/-- While the writer waits, a reader that connects is not the only one, or the slot at the
write index carries the bit it gets, which is then bit 0. -/
def JoinsOthers (s : State) (i : ℕ) : Prop :=
  WriterWaits s → s.ring.isConnected (s.queues (.reader i)) = true ∨ s.ring.cc ≠ 0#32 ∨
    HeadHeldBy s.ring 1#32

/-- If the next pop is from the slot at the write index, it leaves there no bit, or the bit of
a reader that is connected. -/
def LeavesHolder (ring : Ring Unit) (q : Queue) : Prop :=
  (ring.nextSlot q).2 = some (indexOf ring.wt) →
    ring.head.rem &&& ~~~q.connected = 0#32 ∨
      ring.cc &&& (ring.head.rem &&& ~~~q.connected) ≠ 0#32

instance (ring : Ring Unit) (q : Queue) : Decidable (LeavesHolder ring q) :=
  inferInstanceAs (Decidable (_ → _ ∨ _))

/-- While the writer waits, a pop leaves the slot at the write index to a reader that is
connected, or to nobody. -/
def LeavesReaders (s : State) (i : ℕ) : Prop :=
  WriterWaits s → LeavesHolder (s.ring.connect (s.queues (.reader i))).1
    (s.ring.connect (s.queues (.reader i))).2

/-- While the writer waits, the readers struck off are not the last that hold the slot at
the write index, unless no reader is left. -/
def SparesHolders (s : State) (ids : Cc) : Prop :=
  WriterWaits s → s.ring.cc &&& ~~~ids = 0#32 ∨ HeadHeldBy s.ring (s.ring.cc &&& ~~~ids)

/-- The condition on a step: the state of a waiter is constructed only while nobody is
counted in it, and while the writer waits no step that will not wake it frees the slot at
the write index. -/
def Careful (s : State) : Action → Prop
  | .openNext p w => s.opening p w = .first → (s.monitor w).waiters = 0
  | .connect i => JoinsOthers s i
  | .pop i => JoinsOthers s i ∧ LeavesReaders s i
  | .test (.reader i) => s.quit (.reader i) = false → JoinsOthers s i ∧ LeavesReaders s i
  | .evict ids => SparesHolders s ids
  | _ => True

instance (s : State) (i : ℕ) : Decidable (JoinsOthers s i) :=
  inferInstanceAs (Decidable (_ → _))

instance (s : State) (i : ℕ) : Decidable (LeavesReaders s i) :=
  inferInstanceAs (Decidable (_ → _))

instance (s : State) (ids : Cc) : Decidable (SparesHolders s ids) :=
  inferInstanceAs (Decidable (_ → _))

instance (s : State) : (a : Action) → Decidable (Careful s a)
  | .openNext _ _ => inferInstanceAs (Decidable (_ → _))
  | .connect i => inferInstanceAs (Decidable (JoinsOthers s i))
  | .pop _ => inferInstanceAs (Decidable (_ ∧ _))
  | .test (.reader _) => inferInstanceAs (Decidable (_ → _ ∧ _))
  | .evict ids => inferInstanceAs (Decidable (SparesHolders s ids))
  | .test .writer | .test (.leaver _) | .push | .forcePush | .pushSniffer | .enter _
  | .turn _ _ _ | .disconnect _ => isTrue trivial

/-! ## The ring under the predicates -/

section Ring

variable {ring ring' : Ring Unit} {q q' : Queue}

private theorem popLoop_none {my : Cc} {n : ℕ} :
    ∀ {cur cur' : U2}, ring.popLoop my n cur = (cur', none) → cur' = cur + BitVec.ofNat 32 n := by
  induction n with
  | zero =>
      intro cur cur' h
      simpa [Ring.popLoop] using h.symm
  | succ n ih =>
      intro cur cur' h
      unfold Ring.popLoop at h
      split at h
      · rw [ih h, Nat.add_comm, BitVec.ofNat_add, BitVec.add_assoc]
      · cases h

/-- A pop that delivers nothing has come to the write index. -/
theorem cursor_of_pop_none (h : ring.pop q = (none, ring', q')) : q'.cursor = ring'.wt := by
  obtain ⟨rfl, -⟩ := Ring.pop_none h
  unfold Ring.pop at h
  split at h
  · rename_i cur hslot
    cases h
    rw [popLoop_none hslot, BitVec.ofNat_toNat, BitVec.setWidth_eq, BitVec.add_comm,
      BitVec.sub_add_cancel]
  · cases h

/-- There is nothing to pop at the write index. -/
theorem pop_of_cursor (h : q.cursor = ring.wt) : (ring.pop q).1 = none := by
  simp [Ring.pop, Ring.nextSlot, Ring.resync, Ring.popLoop, h]

theorem push_eq_none_iff : ring.push () = none ↔ ring.cc = 0#32 ∨ HeadHeldBy ring ring.cc := by
  unfold Ring.push HeadHeldBy
  rw [← Ring.full_iff]
  by_cases hcc : ring.cc = 0#32 <;> simp [hcc]

/-- Connecting leaves the policy head and the slots alone. -/
theorem connect_eq (ring : Ring Unit) (q : Queue) :
    (ring.connect q).1 = { ring with cc := (ring.connect q).1.cc } := by
  rcases ring.connect_cases q with ⟨-, h⟩ | ⟨-, h⟩ | ⟨id, -, -, -, h⟩ <;> rw [h]

theorem connect_wt (ring : Ring Unit) (q : Queue) : (ring.connect q).1.wt = ring.wt := by
  rw [connect_eq]

/-- A reader that joins others makes no room. -/
theorem push_connect (hfull : ring.push () = none)
    (hjoins : ring.isConnected q = true ∨ ring.cc ≠ 0#32 ∨ HeadHeldBy ring 1#32) :
    (ring.connect q).1.push () = none := by
  rcases ring.connect_cases q with ⟨-, h⟩ | ⟨-, h⟩ | ⟨id, hnot, -, hfree, h⟩
  · rwa [h]
  · rwa [h]
  · rw [push_eq_none_iff] at hfull
    rw [h, push_eq_none_iff]
    right
    rcases hfull with hcc | ⟨hheld, hepoch⟩
    · have hid : id = 1#32 := by
        have hq : ring.connect q = ({ ring with cc := 1#32 }, ⟨1#32, ring.wt⟩) := by
          rw [Ring.connect, hnot]
          simp [Ring.connHeadConnect, Ring.isConnected, hcc]
        rw [hq] at h
        injection h with _ hqueue
        injection hqueue with hid
        exact hid.symm
      rcases hjoins with hconn | hne | hbit
      · rw [hnot] at hconn
        cases hconn
      · exact absurd hcc hne
      · simpa [HeadHeldBy, Ring.head, hcc, hid] using hbit
    · refine ⟨?_, hepoch⟩
      change (ring.cc ||| id) &&& ring.head.rem ≠ 0#32
      rw [Mask.ne_zero_iff] at hheld ⊢
      obtain ⟨i, hi⟩ := hheld
      simp only [BitVec.getLsbD_and, Bool.and_eq_true] at hi
      exact ⟨i, by simp [hi.1, hi.2]⟩

/-- A pop that leaves a slot to others makes no room. -/
theorem push_pop {writable : Bool} (hfull : ring.push () = none)
    (hpop : ring.pop q = (some ((), writable), ring', q'))
    (hleaves : LeavesHolder ring q) (hkept : writable = false) : ring'.push () = none := by
  rw [push_eq_none_iff] at hfull ⊢
  unfold Ring.pop at hpop
  split at hpop
  · cases hpop
  · rename_i cur i hslot
    simp only [Prod.mk.injEq, Option.some.injEq, true_and] at hpop
    obtain ⟨hwritable, rfl, -⟩ := hpop
    refine hfull.imp_right fun ⟨hheld, hepoch⟩ => ?_
    by_cases hi : i = indexOf ring.wt
    · subst hi
      have hhead : (ring.clear (indexOf ring.wt) q.connected).head =
          { ring.head with rem := ring.head.rem &&& ~~~q.connected } :=
        Ring.clear_elems_self ring (indexOf ring.wt) q.connected
      rw [HeadHeldBy, hhead]
      refine ⟨(hleaves (by rw [hslot])).resolve_left ?_, hepoch⟩
      rw [hkept, Ring.clear_elems_self] at hwritable
      exact of_decide_eq_false hwritable
    · have hhead : (ring.clear i q.connected).head = ring.head :=
        Ring.clear_elems_of_ne ring q.connected (Ne.symm hi)
      rw [HeadHeldBy, hhead]
      exact ⟨hheld, hepoch⟩

end Ring

/-! ## The invariant -/

/-- A reader has to wait when it has come to the write index. -/
def ReaderMust (s : State) (t : Thread) : Prop :=
  ∀ i, t = .reader i → (s.queues (.reader i)).cursor = s.ring.wt

/-- The writer has to wait when the ring takes no message. -/
def WriterMust (s : State) (t : Thread) : Prop := t = .writer → s.ring.push () = none

/-- Who waits has to, or is about to be woken: a reader by the writer, the writer by
anybody. -/
structure Inv (s : State) : Prop where
  readers : s.rd.Watched (· = .writer) (ReaderMust s)
  writer : s.wt.Watched (fun _ => True) (WriterMust s)

theorem inv_init : Inv init := ⟨Monitor.watched_idle _ _, Monitor.watched_idle _ _⟩

section Step

variable {s s' t : State} {i : ℕ} {ring : Ring Unit} {q : Queue}

/-- The write index stays, and so does the cursor of a reader that waits. -/
private theorem readers_setQueue (h : s.rd.Watched (· = .writer) (ReaderMust s)) {p : Process}
    (hwt : ring.wt = s.ring.wt)
    (hq : ∀ i, p = .reader i → (s.rd.phase (.reader i)).refused = true →
      q.cursor = (s.queues p).cursor) :
    s.rd.Watched (· = .writer) (ReaderMust (s.setQueue p ring q)) := by
  refine h.mono fun t ht hmust i hti => ?_
  have hcursor : (s.queues (.reader i)).cursor = s.ring.wt := hmust i hti
  change (Function.update s.queues p q (.reader i)).cursor = ring.wt
  by_cases hp : p = .reader i
  · subst hti
    rw [← hp, Function.update_self, hq i hp ht, hp, hcursor, hwt]
  · rw [Function.update_of_ne (Ne.symm hp), hcursor, hwt]

/-- While the writer waits, the ring keeps refusing. -/
private theorem writer_keeps (h : s.wt.Watched (fun _ => True) (WriterMust s))
    (hwt : s'.wt = s.wt)
    (hkeep : WriterWaits s → s.ring.push () = none → s'.ring.push () = none) :
    s'.wt.Watched (fun _ => True) (WriterMust s') := by
  rw [hwt]
  refine h.mono fun t ht hmust htw => ?_
  subst htw
  exact hkeep ht (hmust rfl)

private theorem inv_notifyReaders {must : Thread → Prop} (hrd : s.rd.Watched (· = .writer) must)
    (hwt : s.wt.Watched (fun _ => True) (WriterMust s)) (h : s.notifyReaders = some s') :
    Inv s' := by
  obtain ⟨m, hm, rfl⟩ := Option.map_eq_some_iff.mp h
  exact ⟨hrd.knock rfl hm, hwt⟩

private theorem inv_notifyWriters {must : Thread → Prop} {writable : Bool}
    (hrd : s.rd.Watched (· = .writer) (ReaderMust s)) (hwt : s.wt.Watched (fun _ => True) must)
    (hkept : writable = false → s.wt.Watched (fun _ => True) (WriterMust s))
    (h : s.notifyWriters i writable = some s') : Inv s' := by
  cases writable with
  | true =>
      obtain ⟨m, hm, rfl⟩ := Option.map_eq_some_iff.mp h
      exact ⟨hrd, hwt.knock trivial hm⟩
  | false =>
      cases h
      exact ⟨hrd, hkept rfl⟩

/-- A thread that is in no call has not been told to wait. -/
private theorem not_refused_of_free {u : Thread} (h : s.free u = true) :
    (s.rd.phase u).refused = false ∧ (s.wt.phase u).refused = false := by
  simp only [State.free, decide_eq_true_eq] at h
  rw [h.1, h.2.1]
  exact ⟨rfl, rfl⟩

/-- Neither has a thread that holds the lock and has yet to test. -/
private theorem phase_of_refuse {m m' : Monitor Thread} {u : Thread}
    (h : m.step u .refuse = some m') : (m.phase u).refused = false := by
  simp only [Monitor.step] at h
  split at h <;> cases h
  rename_i hphase
  rw [hphase]
  rfl

private theorem phase_of_pass {m m' : Monitor Thread} {u : Thread}
    (h : m.step u .pass = some m') : (m.phase u).refused = false := by
  simp only [Monitor.step] at h
  split at h <;> cases h
  rename_i hphase
  rw [hphase]
  rfl

/-- What one evaluation of a reader's predicate does to the ring and to its queue. -/
private theorem tryPop_spec {res : Option Bool} (h : tryPop s i = (res, t)) :
    ∃ ring q, t = s.setQueue (.reader i) ring q ∧ ring.wt = s.ring.wt ∧
      (res = none → q.cursor = ring.wt) ∧
      (JoinsOthers s i ∧ LeavesReaders s i → res ≠ some true → WriterWaits s →
        s.ring.push () = none → ring.push () = none) := by
  have hconnect := connect_wt s.ring (s.queues (.reader i))
  rcases hpop : (s.ring.connect (s.queues (.reader i))).1.pop
    (s.ring.connect (s.queues (.reader i))).2 with ⟨_ | ⟨⟨⟩, writable⟩, ring, q⟩
  · have hnone : tryPop s i = (none, s.setQueue (.reader i) ring q) := by
      simp only [tryPop, popPred, hpop]
    rw [hnone] at h
    cases h
    obtain ⟨hring, -⟩ := Ring.pop_none hpop
    refine ⟨ring, q, rfl, by rw [hring, hconnect], fun _ => cursor_of_pop_none hpop, ?_⟩
    intro ⟨hjoins, _⟩ _ hwaits hfull
    rw [hring]
    exact push_connect hfull (hjoins hwaits)
  · have hsome : tryPop s i = (some writable, s.setQueue (.reader i) ring q) := by
      simp only [tryPop, popPred, hpop]
    rw [hsome] at h
    cases h
    have hwt : ring.wt = (s.ring.connect (s.queues (.reader i))).1.wt := by
      unfold Ring.pop at hpop
      split at hpop <;> cases hpop
      rfl
    refine ⟨ring, q, rfl, by rw [hwt, hconnect], (nomatch ·), ?_⟩
    intro ⟨hjoins, hleaves⟩ hkept hwaits hfull
    have hwritable : writable = false := by
      cases writable with
      | true => exact absurd rfl hkept
      | false => rfl
    exact push_pop (push_connect hfull (hjoins hwaits)) hpop (hleaves hwaits) hwritable

/-! ## One step -/

private theorem inv_openNext (h : Inv s) {p : Process} {w : Side}
    (hcareful : s.opening p w = .first → (s.monitor w).waiters = 0)
    (hstep : openNext s p w = some s') : Inv s' := by
  unfold openNext at hstep
  dsimp only at hstep
  split at hstep <;> cases hstep
  · exact ⟨h.readers, h.writer⟩
  · exact ⟨h.readers, h.writer⟩
  · rename_i hfirst
    have hzero := hcareful hfirst
    cases w with
    | rd => exact ⟨h.readers.reset hzero, h.writer⟩
    | wt => exact ⟨h.readers, h.writer.reset hzero⟩

/-- The writer does not wait, so that nothing is required of the ring it leaves. -/
private theorem writer_free (h : Inv s) (hfree : s.free .writer = true) (ring : Ring Unit) :
    s.wt.Watched (fun _ => True) (WriterMust { s with ring := ring }) :=
  writer_keeps h.writer (show State.wt { s with ring := ring } = s.wt from rfl) fun hwaits => by
    rw [WriterWaits, (not_refused_of_free hfree).2] at hwaits
    cases hwaits

private theorem inv_connect (h : Inv s) (hfree : s.free (.reader i) = true)
    (hjoins : JoinsOthers s i) :
    Inv (s.setQueue (.reader i) (s.ring.connect (s.queues (.reader i))).1
      (s.ring.connect (s.queues (.reader i))).2) where
  readers := by
    refine readers_setQueue h.readers (connect_wt _ _) fun j hj hwaits => ?_
    cases hj
    rw [(not_refused_of_free hfree).1] at hwaits
    cases hwaits
  writer := writer_keeps h.writer rfl fun hwaits hfull => push_connect hfull (hjoins hwaits)

/-- A reader's predicate, evaluated outside `wait_if` or in it. -/
private theorem inv_tryPop (h : Inv s) {res : Option Bool} (htry : tryPop s i = (res, t))
    (hphase : (s.rd.phase (.reader i)).refused = false) :
    t.rd = s.rd ∧ t.wt = s.wt ∧ t.rd.Watched (· = .writer) (ReaderMust t) ∧
      (res = none → (t.queues (.reader i)).cursor = t.ring.wt) ∧
      (JoinsOthers s i ∧ LeavesReaders s i → res ≠ some true →
        t.wt.Watched (fun _ => True) (WriterMust t)) := by
  obtain ⟨ring, q, rfl, hwt, hnone, hkeep⟩ := tryPop_spec htry
  refine ⟨rfl, rfl, ?_, ?_, ?_⟩
  · refine readers_setQueue h.readers hwt fun j hj hwaits => ?_
    cases hj
    rw [hphase] at hwaits
    cases hwaits
  · intro hres
    change (Function.update s.queues (.reader i) q (.reader i)).cursor = ring.wt
    rw [Function.update_self, hnone hres]
  · intro hcareful hres
    exact writer_keeps h.writer rfl (hkeep hcareful hres)

private theorem inv_pop (h : Inv s) (hfree : s.free (.reader i) = true)
    (hcareful : JoinsOthers s i ∧ LeavesReaders s i) {res : Option Bool}
    (htry : tryPop s i = (res, t))
    (hstep : (match res with
      | none => some t
      | some writable => t.notifyWriters i writable) = some s') : Inv s' := by
  obtain ⟨-, hwt, hreaders, -, hwriter⟩ := inv_tryPop h htry (not_refused_of_free hfree).1
  cases res with
  | none =>
      cases hstep
      exact ⟨hreaders, hwriter hcareful nofun⟩
  | some writable =>
      have hold : t.wt.Watched (fun _ => True) (WriterMust s) := by
        rw [hwt]
        exact h.writer
      exact inv_notifyWriters hreaders hold (fun hkept => hwriter hcareful (by simp [hkept])) hstep

/-- The loop condition of a reader's `wait_if` that is not told to quit. -/
private theorem inv_test (h : Inv s) (hcareful : JoinsOthers s i ∧ LeavesReaders s i)
    {res : Option Bool} (htry : tryPop s i = (res, t))
    (hstep : (match res with
      | none => (t.rd.step (.reader i) .refuse).map (t.setMonitor .rd)
      | some writable => do
          let rd ← t.rd.step (.reader i) .pass
          { t with rd := rd }.notifyWriters i writable) = some s') : Inv s' := by
  have hrd : t.rd = s.rd := by
    obtain ⟨_, _, rfl, -⟩ := tryPop_spec htry
    rfl
  cases res with
  | none =>
      obtain ⟨m, hm, rfl⟩ := Option.map_eq_some_iff.mp hstep
      have hphase := phase_of_refuse hm
      rw [hrd] at hphase
      obtain ⟨-, -, hreaders, hcursor, hwriter⟩ := inv_tryPop h htry hphase
      refine ⟨hreaders.step hm fun _ j hj => ?_, hwriter hcareful nofun⟩
      cases hj
      exact hcursor rfl
  | some writable =>
      obtain ⟨m, hm, hnotify⟩ := Option.bind_eq_some_iff.mp hstep
      have hphase := phase_of_pass hm
      rw [hrd] at hphase
      obtain ⟨-, hwt, hreaders, -, hwriter⟩ := inv_tryPop h htry hphase
      have hold : t.wt.Watched (fun _ => True) (WriterMust s) := by
        rw [hwt]
        exact h.writer
      have hpassed : m.Watched (· = .writer) (ReaderMust { t with rd := m }) :=
        hreaders.step hm nofun
      exact inv_notifyWriters (s := { t with rd := m }) hpassed hold
        (fun hkept => hwriter hcareful (by simp [hkept])) hnotify

/-- The writer's loop condition. -/
private theorem inv_testWriter (h : Inv s) (hstep : step s (.test .writer) = some s') :
    Inv s' := by
  have hleave : ∀ (ring : Ring Unit) {m : Monitor Thread}, s.wt.step .writer .pass = some m →
      { s with ring := ring, wt := m }.notifyReaders = some s' → Inv s' := by
    intro ring m hm hnotify
    have hkeeps : s.wt.Watched (fun _ => True) (WriterMust { s with ring := ring, wt := m }) :=
      h.writer.mono fun u hu _ huw => by
        subst huw
        rw [phase_of_pass hm] at hu
        cases hu
    exact inv_notifyReaders (s := { s with ring := ring, wt := m }) h.readers
      (hkeeps.step hm nofun) hnotify
  simp only [step] at hstep
  split at hstep
  · obtain ⟨m, hm, hnotify⟩ := Option.bind_eq_some_iff.mp hstep
    exact hleave s.ring hm hnotify
  · split at hstep
    · rename_i hfull
      obtain ⟨m, hm, rfl⟩ := Option.map_eq_some_iff.mp hstep
      exact ⟨h.readers, h.writer.step hm fun _ _ => hfull⟩
    · rename_i ring _
      obtain ⟨m, hm, hnotify⟩ := Option.bind_eq_some_iff.mp hstep
      exact hleave ring hm hnotify

/-- The other steps at a waiter. -/
private theorem inv_turn (h : Inv s) {w : Side} {u : Thread} {op : Op}
    (hstep : step s (.turn w u op) = some s') : Inv s' := by
  have hmove : ∀ {m : Monitor Thread}, (s.monitor w).step u op = some m → op ≠ .refuse →
      Inv (s.setMonitor w m) := by
    intro m hm hop
    cases w with
    | rd => exact ⟨h.readers.step hm fun hrefuse => absurd hrefuse hop, h.writer⟩
    | wt => exact ⟨h.readers, h.writer.step hm fun hrefuse => absurd hrefuse hop⟩
  have hnext : ∀ {t : State}, Inv t → (t.rd.step u .knock).map (t.setMonitor .rd) = some s' →
      Inv s' := by
    intro t ht hknock
    obtain ⟨m, hm, rfl⟩ := Option.map_eq_some_iff.mp hknock
    exact ⟨ht.readers.step hm nofun, ht.writer⟩
  have hgo : op ≠ .refuse → ((s.monitor w).step u op).bind (fun m =>
      match w, u with
      | .wt, .leaver _ =>
          if m.phase u = .away then
            ((s.setMonitor w m).rd.step u .knock).map ((s.setMonitor w m).setMonitor .rd)
          else some (s.setMonitor w m)
      | _, _ => some (s.setMonitor w m)) = some s' → Inv s' := by
    intro hop hbind
    obtain ⟨m, hm, hrest⟩ := Option.bind_eq_some_iff.mp hbind
    have hinv := hmove hm hop
    split at hrest
    · split at hrest
      · exact hnext hinv hrest
      · cases hrest
        exact hinv
    · cases hrest
      exact hinv
  cases op with
  | enter | knock | refuse | pass => cases hstep
  | _ => exact hgo nofun hstep

private theorem inv_disconnect (h : Inv s) {p : Process}
    (hstep : step s (.disconnect p) = some s') : Inv s' := by
  simp only [step] at hstep
  split at hstep
  · obtain ⟨m, hm, rfl⟩ := Option.map_eq_some_iff.mp hstep
    refine ⟨?_, h.writer.knock trivial hm⟩
    refine readers_setQueue h.readers ?_ fun _ _ _ => ?_
    · unfold Ring.disconnect
      split <;> rfl
    · unfold Ring.disconnect
      split <;> rfl
  · cases hstep

/-- **The induction step.** -/
theorem inv_step {a : Action} (h : Inv s) (hcareful : Careful s a) (hstep : step s a = some s') :
    Inv s' := by
  cases a with
  | openNext p w => exact inv_openNext h hcareful hstep
  | connect i =>
      simp only [step] at hstep
      split at hstep <;> cases hstep
      rename_i hfree
      exact inv_connect h hfree hcareful
  | push =>
      simp only [step] at hstep
      split at hstep
      · rename_i hfree
        split at hstep
        · cases hstep
          exact h
        · rename_i ring _
          exact inv_notifyReaders (s := { s with ring := ring }) h.readers
            (writer_free h hfree ring) hstep
      · cases hstep
  | forcePush =>
      simp only [step] at hstep
      split at hstep
      · rename_i hfree
        split at hstep
        · rename_i ring hforce
          cases hstep
          have hwt : ring.wt = s.ring.wt := by
            unfold Ring.forcePush at hforce
            dsimp only at hforce
            split at hforce <;> cases hforce
            rfl
          refine ⟨h.readers.mono fun u _ hmust i hi => ?_, writer_free h hfree ring⟩
          change (s.queues (.reader i)).cursor = ring.wt
          rw [hwt, hmust i hi]
        · rename_i ring _
          exact inv_notifyReaders (s := { s with ring := ring }) h.readers
            (writer_free h hfree ring) hstep
      · cases hstep
  | pushSniffer =>
      simp only [step] at hstep
      split at hstep
      · rename_i hfree
        exact inv_notifyReaders (s := { s with ring := s.ring.pushSniffer () }) h.readers
          (writer_free h hfree (s.ring.pushSniffer ())) hstep
      · cases hstep
  | pop i =>
      simp only [step] at hstep
      split at hstep
      · rename_i hfree
        cases htry : tryPop s i with
        | mk res t =>
            rw [htry] at hstep
            cases res <;> exact inv_pop h hfree hcareful htry hstep
      · cases hstep
  | enter u =>
      simp only [step] at hstep
      split at hstep
      · cases u with
        | writer =>
            obtain ⟨m, hm, rfl⟩ := Option.map_eq_some_iff.mp hstep
            exact ⟨h.readers, h.writer.step hm nofun⟩
        | reader i =>
            obtain ⟨m, hm, rfl⟩ := Option.map_eq_some_iff.mp hstep
            exact ⟨h.readers.step hm nofun, h.writer⟩
        | leaver p => cases hstep
      · cases hstep
  | test u =>
      cases u with
      | writer => exact inv_testWriter h hstep
      | reader i =>
          simp only [step] at hstep
          split at hstep
          · obtain ⟨m, hm, rfl⟩ := Option.map_eq_some_iff.mp hstep
            exact ⟨h.readers.step hm nofun, h.writer⟩
          · rename_i hquit
            cases htry : tryPop s i with
            | mk res t =>
                rw [htry] at hstep
                have hcare := hcareful (by simpa using hquit)
                cases res <;> exact inv_test h hcare htry hstep
      | leaver p => cases hstep
  | turn w u op => exact inv_turn h hstep
  | disconnect p => exact inv_disconnect h hstep
  | evict ids =>
      cases hstep
      refine ⟨h.readers, writer_keeps h.writer rfl fun hwaits _ => ?_⟩
      exact push_eq_none_iff.mpr (hcareful hwaits)

end Step

/-! ## Runs -/

theorem Inv.noLostWakeup {s : State} (h : Inv s) : NoLostWakeup s where
  readers := by
    intro i hblocked haway
    refine pop_of_cursor (h.readers.covered.must_of_blocked hblocked ?_ i rfl)
    intro u hu
    rw [hu, haway]
    rfl
  writer := by
    intro hblocked hquiet
    exact h.writer.covered.must_of_blocked hblocked (fun u _ => hquiet u) rfl

/-- **No lost wake-up.**  In every run whose steps meet the condition, whoever sleeps has
to. -/
theorem noLostWakeup_of_guarded {actions : List Action} {s : State}
    (hcareful : machine.Guarded Careful actions) (hrun : machine.run actions = some s) :
    NoLostWakeup s :=
  (Machine.invariant_of_guarded inv_init (fun _ _ _ => inv_step) hcareful hrun).noLostWakeup

/-- `waiter::open` of both waiters, one after the other. -/
def opens (p : Process) : List Action :=
  [.openNext p .wt, .openNext p .wt, .openNext p .rd, .openNext p .rd]

/-- The same for the process that comes first and constructs the state. -/
def opensFirst (p : Process) : List Action :=
  [.openNext p .wt, .openNext p .wt, .openNext p .wt,
    .openNext p .rd, .openNext p .rd, .openNext p .rd]

/-- A thread whose predicate holds goes to sleep. -/
def sleeps (w : Side) (t : Thread) : List Action :=
  [.enter t, .turn w t .lock, .test t, .turn w t .count, .turn w t .sleep]

/-- A reader goes to sleep, is woken by a push and pops the message. -/
def wakesReader : List Action :=
  opensFirst .writer ++ opens (.reader 0) ++ [.connect 0] ++ sleeps .rd (.reader 0) ++
    [.push, .turn .rd .writer .lock, .turn .rd .writer .hear, .turn .rd .writer .broadcast,
      .turn .rd (.reader 0) .lock, .turn .rd (.reader 0) .again, .test (.reader 0)]

theorem noLostWakeup_wakesReader :
    machine.Guarded Careful wakesReader ∧
      ∃ s, machine.run wakesReader = some s ∧ NoLostWakeup s := by
  have hcareful : machine.Guarded Careful wakesReader := by decide +kernel
  have hends : ∃ s, machine.run wakesReader = some s ∧ (s.queues (.reader 0)).cursor = 1#32 :=
    Machine.exists_of_any (by decide +kernel)
  obtain ⟨s, hrun, -⟩ := hends
  exact ⟨hcareful, s, hrun, noLostWakeup_of_guarded hcareful hrun⟩

/-! ## Threads that take no step -/

/-- The thread that takes a step at a waiter. -/
def Action.thread : Action → Option Thread
  | .openNext _ _ | .connect _ | .evict _ => none
  | .push | .forcePush | .pushSniffer => some .writer
  | .pop i => some (.reader i)
  | .enter t | .test t | .turn _ t _ => some t
  | .disconnect p => some (.leaver p)

/-- The thread is at neither waiter. -/
def Away (s : State) (u : Thread) : Prop := s.rd.phase u = .away ∧ s.wt.phase u = .away

section Away

variable {s s' : State} {u t : Thread}

private theorem Away.move (h : Away s u) (hu : u ≠ t) {w : Side} {op : Op} {m : Monitor Thread}
    (hm : (s.monitor w).step t op = some m) : Away (s.setMonitor w m) u := by
  cases w with
  | rd => exact ⟨Monitor.step_away hm hu h.1, h.2⟩
  | wt => exact ⟨h.1, Monitor.step_away hm hu h.2⟩

private theorem Away.map (h : Away s u) (hu : u ≠ t) {w : Side} {op : Op}
    (hstep : ((s.monitor w).step t op).map (s.setMonitor w) = some s') : Away s' u := by
  obtain ⟨m, hm, rfl⟩ := Option.map_eq_some_iff.mp hstep
  exact h.move hu hm

private theorem Away.notifyWriters (h : Away s u) {i : ℕ} (hu : u ≠ .reader i) {writable : Bool}
    (hstep : s.notifyWriters i writable = some s') : Away s' u := by
  cases writable with
  | true => exact h.map (w := .wt) hu hstep
  | false =>
      cases hstep
      exact h

private theorem Away.tryPop (h : Away s u) {i : ℕ} {res : Option Bool} {t : State}
    (htry : tryPop s i = (res, t)) : Away t u := by
  obtain ⟨_, _, rfl, -⟩ := tryPop_spec htry
  exact h

private theorem Away.leaveWriter (h : Away s u) (hu : u ≠ .writer) {ring : Ring Unit}
    (hstep : ((s.wt.step .writer .pass).bind fun wt =>
      { s with ring := ring, wt := wt }.notifyReaders) = some s') : Away s' u := by
  obtain ⟨m, hm, hnotify⟩ := Option.bind_eq_some_iff.mp hstep
  have hmoved : Away { s with ring := ring, wt := m } u := h.move (w := .wt) hu hm
  exact hmoved.map (w := .rd) hu hnotify

private theorem Away.turn (h : Away s u) (hu : u ≠ t) {w : Side} {op : Op}
    (hstep : step s (.turn w t op) = some s') : Away s' u := by
  have hgo : ((s.monitor w).step t op).bind (fun m =>
      match w, t with
      | .wt, .leaver _ =>
          if m.phase t = .away then
            ((s.setMonitor w m).rd.step t .knock).map ((s.setMonitor w m).setMonitor .rd)
          else some (s.setMonitor w m)
      | _, _ => some (s.setMonitor w m)) = some s' → Away s' u := by
    intro hbind
    obtain ⟨m, hm, hrest⟩ := Option.bind_eq_some_iff.mp hbind
    have hmoved := h.move hu hm
    split at hrest
    · split at hrest
      · exact hmoved.map (w := .rd) hu hrest
      · cases hrest
        exact hmoved
    · cases hrest
      exact hmoved
  cases op with
  | enter | knock | refuse | pass => cases hstep
  | _ => exact hgo hstep

/-- A thread that takes no step stays where it is. -/
theorem Away.step {a : Action} (h : Away s u) (ha : a.thread ≠ some u)
    (hstep : step s a = some s') : Away s' u := by
  have hne : ∀ {v}, a.thread = some v → u ≠ v := by
    intro v hv huv
    exact ha (hv.trans (congrArg some huv.symm))
  cases a with
  | openNext p w =>
      simp only [Waiters.step, openNext] at hstep
      split at hstep <;> cases hstep
      · exact h
      · exact h
      · cases w <;> exact h
  | connect i =>
      simp only [Waiters.step] at hstep
      split at hstep <;> cases hstep
      exact h
  | push | forcePush =>
      simp only [Waiters.step] at hstep
      split at hstep
      · split at hstep
        · cases hstep
          exact h
        · rename_i ring _
          exact Away.map (s := { s with ring := ring }) h (w := .rd) (hne rfl) hstep
      · cases hstep
  | pushSniffer =>
      simp only [Waiters.step] at hstep
      split at hstep
      · exact Away.map (s := { s with ring := s.ring.pushSniffer () }) h (w := .rd) (hne rfl) hstep
      · cases hstep
  | pop i =>
      simp only [Waiters.step] at hstep
      split at hstep
      · split at hstep
        · rename_i htry
          cases hstep
          exact h.tryPop htry
        · rename_i htry
          exact (h.tryPop htry).notifyWriters (hne rfl) hstep
      · cases hstep
  | enter t =>
      simp only [Waiters.step] at hstep
      split at hstep
      · cases t with
        | writer => exact h.map (w := .wt) (hne rfl) hstep
        | reader i => exact h.map (w := .rd) (hne rfl) hstep
        | leaver p => cases hstep
      · cases hstep
  | test t =>
      cases t with
      | writer =>
          simp only [Waiters.step] at hstep
          split at hstep
          · exact Away.leaveWriter h (hne rfl) hstep
          · split at hstep
            · exact h.map (w := .wt) (hne rfl) hstep
            · exact h.leaveWriter (hne rfl) hstep
      | reader i =>
          simp only [Waiters.step] at hstep
          split at hstep
          · exact h.map (w := .rd) (hne rfl) hstep
          · split at hstep
            · rename_i htry
              exact (h.tryPop htry).map (w := .rd) (hne rfl) hstep
            · rename_i t htry
              obtain ⟨m, hm, hnotify⟩ := Option.bind_eq_some_iff.mp hstep
              have hmoved : Away { t with rd := m } u :=
                (h.tryPop htry).move (w := .rd) (hne rfl) hm
              exact hmoved.notifyWriters (hne rfl) hnotify
      | leaver p => cases hstep
  | turn w t op => exact h.turn (hne rfl) hstep
  | disconnect p =>
      simp only [Waiters.step] at hstep
      split at hstep
      · obtain ⟨m, hm, rfl⟩ := Option.map_eq_some_iff.mp hstep
        exact ⟨h.1, Monitor.step_away hm (hne rfl) h.2⟩
      · cases hstep
  | evict ids =>
      cases hstep
      exact h

end Away

/-- Only the threads of a run can be at a waiter behind it. -/
theorem away_of_run {actions : List Action} {s : State} {u : Thread}
    (hrun : machine.run actions = some s) (hu : u ∉ actions.filterMap Action.thread) :
    Away s u := by
  have hother : machine.Guarded (fun _ a => a.thread ≠ some u) actions :=
    Machine.guardedFrom_of_mem machine.init fun a ha hthread =>
      hu (List.mem_filterMap.mpr ⟨a, ha, hthread⟩)
  have hinit : Away machine.init u := ⟨rfl, rfl⟩
  have hkept : ∀ s a t, Away s u → a.thread ≠ some u → machine.step s a = some t → Away t u :=
    fun _ _ _ h ha hstep => h.step ha hstep
  exact Machine.invariant_of_guarded hinit hkept hother hrun

/-! ## Sleeping in vain -/

/-- `wake` with nobody to wake. -/
def findsNobody (w : Side) (t : Thread) : List Action := [.turn w t .lock, .turn w t .hear]

/-- Two readers connect and the writer fills the ring. -/
def fillsRing : List Action :=
  opensFirst .writer ++ opens (.reader 0) ++ opens (.reader 1) ++ [.connect 0, .connect 1] ++
    (List.replicate 256 (.push :: findsNobody .rd .writer)).flatten

/-- A reader goes to sleep while the writer is about to construct the state; the message
pushed afterwards does not wake it. -/
def constructsLate : List Action :=
  [.openNext .writer .wt, .openNext .writer .wt, .openNext .writer .wt,
    .openNext .writer .rd, .openNext .writer .rd] ++ opens (.reader 0) ++ [.connect 0] ++
    sleeps .rd (.reader 0) ++ [.openNext .writer .rd, .push] ++ findsNobody .rd .writer

/-- The writer sleeps because nobody is connected, and then a reader connects. -/
def connectsFirst : List Action :=
  opensFirst .writer ++ opens (.reader 0) ++ sleeps .wt .writer ++ [.connect 0]

/-- Reader 1 leaves, which wakes the writer, and the writer goes to sleep again; reader 0
then pops from the slot at the write index, where the bit of reader 1 is left. -/
def leavesBit : List Action :=
  fillsRing ++ sleeps .wt .writer ++
    [.disconnect (.reader 1), .turn .wt (.leaver (.reader 1)) .lock,
      .turn .wt (.leaver (.reader 1)) .hear, .turn .wt (.leaver (.reader 1)) .broadcast] ++
    findsNobody .rd (.leaver (.reader 1)) ++
    [.turn .wt .writer .lock, .turn .wt .writer .again, .test .writer, .turn .wt .writer .count,
      .turn .wt .writer .sleep, .pop 0]

/-- Reader 1 has popped from the slot at the write index, and reader 0 is struck off. -/
def strikesOff : List Action := fillsRing ++ sleeps .wt .writer ++ [.pop 1, .evict 1#32]

/-- A reader sleeps, the writer is at no waiter, and there is a message to pop. -/
def ReaderInVain (s : State) (i : ℕ) : Prop :=
  s.rd.phase (.reader i) = .blocked ∧ s.rd.phase .writer = .away ∧
    ((s.ring.pop (s.queues (.reader i))).1).isSome = true

/-- The writer sleeps, none of these threads wakes others, and there is room to push. -/
def WriterInVain (s : State) (threads : List Thread) : Prop :=
  s.wt.phase .writer = .blocked ∧ (∀ t ∈ threads, (s.wt.phase t).wakes = false) ∧
    (s.ring.push ()).isSome = true

instance (s : State) (i : ℕ) : Decidable (ReaderInVain s i) :=
  inferInstanceAs (Decidable (_ ∧ _))

instance (s : State) (threads : List Thread) : Decidable (WriterInVain s threads) :=
  inferInstanceAs (Decidable (_ ∧ _))

theorem ReaderInVain.lost {s : State} {i : ℕ} (h : ReaderInVain s i) : ¬ NoLostWakeup s := by
  intro hno
  obtain ⟨hblocked, haway, hpop⟩ := h
  rw [hno.readers i hblocked haway] at hpop
  cases hpop

theorem lost_of_writerInVain {actions : List Action}
    (h : ∃ s, machine.run actions = some s ∧
      WriterInVain s (actions.filterMap Action.thread)) :
    ∃ s, machine.run actions = some s ∧ ¬ NoLostWakeup s := by
  obtain ⟨s, hrun, hblocked, hquiet, hpush⟩ := h
  refine ⟨s, hrun, fun hno => ?_⟩
  have hall : ∀ t, (s.wt.phase t).wakes = false := by
    intro t
    by_cases ht : t ∈ actions.filterMap Action.thread
    · exact hquiet t ht
    · rw [(away_of_run hrun ht).2]
      rfl
  rw [hno.writer hblocked hall] at hpush
  cases hpush

/-- **Lost wake-ups**, one for each part of the condition. -/
theorem lost_wakeups :
    (∃ s, machine.run constructsLate = some s ∧ ¬ NoLostWakeup s) ∧
      (∃ s, machine.run connectsFirst = some s ∧ ¬ NoLostWakeup s) ∧
      (∃ s, machine.run leavesBit = some s ∧ ¬ NoLostWakeup s) ∧
      ∃ s, machine.run strikesOff = some s ∧ ¬ NoLostWakeup s := by
  have hreader : ∃ s, machine.run constructsLate = some s ∧ ReaderInVain s 0 :=
    Machine.exists_of_any (by decide +kernel)
  obtain ⟨s, hrun, hvain⟩ := hreader
  refine ⟨⟨s, hrun, hvain.lost⟩, ?_, ?_, ?_⟩
  · exact lost_of_writerInVain (Machine.exists_of_any (by decide +kernel))
  · exact lost_of_writerInVain (Machine.exists_of_any (by decide +kernel))
  · exact lost_of_writerInVain (Machine.exists_of_any (by decide +kernel))

end DzIpc.LibIpc.Waiters
