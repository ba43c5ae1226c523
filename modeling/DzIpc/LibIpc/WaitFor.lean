import DzIpc.LibIpc.SendCall

/-!
# Waiting with a predicate

`wait_for` and `waiter::wait_if` as the calls of one handle use them.  Any number of threads
send, receive, disconnect and reconnect through the handle; the other processes may leave
the ring and the chunks in any state between two steps.  A step of a call evaluates its
predicate once, reads `quit_`, forces a push, or handles the message in hand.

What the calls return is recorded, together with the last result of the predicate, the slots
pushed, and whether the message in hand was popped.

* `Honest` is the claim about one return value.
* `honest_iff_unquit`: a run has honest return values only exactly if no `wait_if` in it
  found `quit_` set.
-/

namespace DzIpc.LibIpc.WaitFor

open SendCall (Entry)

/-- `msg_t`, with the connection id of its sender. -/
structure Slot where
  ccId : BitVec 32
  msg : Msg
  deriving DecidableEq

/-- `msg_t{}`. -/
def Slot.blank : Slot := ⟨0#32, Msg.blank⟩

/-! ## One call of `wait_for` -/

/-- What a handle knows about a waiter. -/
structure Waiter where
  valid : Bool
  quit : Bool
  deriving DecidableEq, Repr

namespace Waiter

/-- `waiter::open`. -/
def opened : Waiter := { valid := true, quit := false }

/-- `init` of a connection opens the waiters that are not open. -/
def init (w : Waiter) : Waiter := if w.valid then w else opened

def quitWaiting (w : Waiter) : Waiter := { w with quit := true }

end Waiter

/-- Where a call of `wait_for` is. -/
inductive Phase where
  /-- In its own loop, about to evaluate the predicate. -/
  | spin (k : ℕ)
  /-- In `wait_if`, about to read `quit_`. -/
  | check
  /-- In `wait_if`, about to evaluate the predicate. -/
  | eval
  /-- In `wait_if`, waiting for the condition. -/
  | asleep
  deriving DecidableEq, Repr

/-- A call of `wait_for`, with the last result of its predicate.  A time-out of `none` is
`invalid_value`. -/
structure Wait where
  tm : Option ℕ
  phase : Phase
  last : Option Bool
  deriving DecidableEq, Repr

/-- The call begins. -/
def Wait.start (tm : Option ℕ) : Wait := ⟨tm, .spin 0, none⟩

/-- A call goes on, or it returns and leaves the last result of its predicate behind. -/
inductive Next where
  | more (w : Wait)
  | returns (ok : Bool) (last : Option Bool)
  deriving DecidableEq, Repr

/-- What happens to a call. -/
inductive Event where
  | evaluated (pred : Bool)
  | checked (quit : Bool)
  | woken
  | timedOut
  deriving DecidableEq, Repr

/-- `wait_for`, with `wait_if` inside. -/
def Wait.next (w : Wait) : Event → Option Next
  | .evaluated pred =>
      match w.phase with
      | .spin k =>
          if pred = false then some (.returns true (some pred))
          else if w.tm = some 0 then some (.returns false (some pred))
          else if k < 32 then some (.more { w with phase := .spin (k + 1), last := some pred })
          else some (.more { w with phase := .check, last := some pred })
      | .eval =>
          if pred then some (.more { w with phase := .asleep, last := some pred })
          else some (.returns true (some pred))
      | _ => none
  | .checked quit =>
      match w.phase with
      | .check =>
          if quit then some (.returns true w.last) else some (.more { w with phase := .eval })
      | _ => none
  | .woken =>
      match w.phase with
      | .asleep => some (.more { w with phase := .check })
      | _ => none
  | .timedOut =>
      match w.phase, w.tm with
      | .asleep, some _ => some (.returns false w.last)
      | _, _ => none

/-! ## The calls of a handle -/

/-- A sending call: the slot to push and those to push after it, the call of `wait_for` for
the slot, and how many slots the call needs and has pushed. -/
structure Pushing where
  sniffer : Bool
  forces : Bool
  tm : Option ℕ
  slot : Msg
  rest : List Msg
  wait : Wait
  needed : ℕ
  pushed : ℕ
  deriving DecidableEq

/-- A call of `recv`, with the message in hand. -/
structure Receiving where
  tm : Option ℕ
  wait : Wait
  slot : Slot
  popped : Bool
  deriving DecidableEq

/-- What a thread is doing with the handle. -/
inductive Call where
  | idle
  /-- A sending call about to make its closure. -/
  | opening (entry : Entry) (tm : Option ℕ) (slots : List Msg)
  | pushing (p : Pushing)
  /-- A push timed out and is about to be forced. -/
  | forcing (p : Pushing)
  | receiving (r : Receiving)
  /-- `quit_waiting` of the writers' waiter, and then of the readers'. -/
  | quitting (w : Bool) (clears : Bool)
  deriving DecidableEq

/-- What the calls have returned. -/
inductive Ret where
  | waited (ok : Bool) (last : Option Bool)
  | sent (ok : Bool) (needed pushed : ℕ)
  | received (buff : List (Option UInt8)) (popped : Bool)
  deriving DecidableEq

/-- A handle, and what it shares with the other processes. -/
structure State where
  ring : Ring Slot
  contents : ChunkId → ℕ → UInt8
  queue : Queue
  wtWaiter : Waiter
  rdWaiter : Waiter
  calls : ℕ → Call
  caches : ℕ → Recv.Caches
  returns : List Ret

/-- The steps of the threads and of the other processes. -/
inductive Action where
  /-- The other processes leave the ring and the chunks like this. -/
  | others (ring : Ring Slot) (contents : ChunkId → ℕ → UInt8)
  /-- The thread uses another handle, which leaves its cache like this. -/
  | elsewhere (t : ℕ) (caches : Recv.Caches)
  /-- `send`, `try_send` or `no_member_try_send`; a large message may get a chunk. -/
  | send (t : ℕ) (entry : Entry) (payload : List UInt8) (tm : Option ℕ) (msgId : BitVec 32)
      (chunk : Option ℕ)
  /-- `publish_loan` of a chunk. -/
  | publishLoan (t : ℕ) (size id : ℕ) (tm : Option ℕ) (msgId : BitVec 32)
  | recv (t : ℕ) (tm : Option ℕ)
  | disconnect (t : ℕ)
  | reconnect (t : ℕ) (startToRecv : Bool)
  /-- The next step of a call; `found` tells whether `find_storage` maps the chunk. -/
  | run (t : ℕ) (found : Bool)
  | woken (t : ℕ)
  | timedOut (t : ℕ)

/-- A handle that has been opened. -/
def init : State :=
  { ring := Ring.zeroed Slot.blank
    contents := fun _ _ => 0
    queue := ⟨0#32, 0#32⟩
    wtWaiter := Waiter.opened
    rdWaiter := Waiter.opened
    calls := fun _ => .idle
    caches := fun _ => []
    returns := [] }

namespace State

def setCall (s : State) (t : ℕ) (c : Call) : State :=
  { s with calls := Function.update s.calls t c }

def log (s : State) (r : Ret) : State := { s with returns := r :: s.returns }

/-- `init` of the connection. -/
def reopen (s : State) : State :=
  { s with wtWaiter := s.wtWaiter.init, rdWaiter := s.rdWaiter.init }

end State

/-- The slots of a message. -/
def slots (large : Bool) (payload : List UInt8) (msgId : BitVec 32) (chunk : Option ℕ) :
    List Msg :=
  match large, chunk with
  | true, some id => [.ofChunk msgId payload.length id]
  | _, _ => (Recv.fragments payload).map fun f => ⟨msgId, f.1, .bytes f.2⟩

/-- A sending call returns. -/
def finish (s : State) (t : ℕ) (p : Pushing) (ok : Bool) : State :=
  (s.log (.sent ok p.needed p.pushed)).setCall t .idle

/-- `try_push` returned true: go on with the next slot. -/
def nextSlot (s : State) (t : ℕ) (p : Pushing) : State :=
  match p.rest with
  | m :: rest => s.setCall t (.pushing { p with slot := m, rest := rest, wait := .start p.tm })
  | [] => finish s t p true

/-- The slots of a sending call, one after the other. -/
def startPush (s : State) (t : ℕ) (sniffer forces : Bool) (tm : Option ℕ) : List Msg → State
  | [] => (s.log (.sent true 0 0)).setCall t .idle
  | m :: rest =>
      s.setCall t (.pushing
        { sniffer := sniffer, forces := forces, tm := tm, slot := m, rest := rest,
          wait := .start tm, needed := rest.length + 1, pushed := 0 })

/-- A sending call after a step of its `wait_for`. -/
def afterPush (s : State) (t : ℕ) (p : Pushing) : Next → State
  | .more w => s.setCall t (.pushing { p with wait := w })
  | .returns ok last =>
      let s := s.log (.waited ok last)
      if ok then nextSlot s t p
      else if p.forces then s.setCall t (.forcing p) else finish s t p false

/-- The loop of `recv` after a pop: the buffer to return, if any, and the cache. -/
def deliver (found : Bool) (contents : ChunkId → ℕ → UInt8) (caches : Recv.Caches) (m : Msg) :
    Option (List (Option UInt8)) × Recv.Caches :=
  if m.rSize ≤ 0 then (some [], caches)
  else
    match m.body with
    | .storage _ => if found then Recv.recvMsg contents caches m (0, 0) else (none, caches)
    | .bytes _ => Recv.recvMsg contents caches m (0, 0)

/-- `recv` at the head of its loop. -/
def Receiving.start (tm : Option ℕ) : Receiving :=
  { tm := tm, wait := .start tm, slot := .blank, popped := false }

/-- `recv` after a step of its `wait_for`. -/
def afterPop (self : BitVec 32) (found : Bool) (s : State) (t : ℕ) (r : Receiving) :
    Next → State
  | .more w => s.setCall t (.receiving { r with wait := w })
  | .returns false last =>
      ((s.log (.waited false last)).log (.received [] r.popped)).setCall t .idle
  | .returns true last =>
      let s := s.log (.waited true last)
      if r.slot.ccId = self then
        -- ignore message to self
        s.setCall t (.receiving (.start r.tm))
      else
        match deliver found s.contents (s.caches t) r.slot.msg with
        | (some buff, caches) =>
            ({ s with caches := Function.update s.caches t caches }.log
              (.received buff r.popped)).setCall t .idle
        | (none, caches) =>
            { s with caches := Function.update s.caches t caches }.setCall t
              (.receiving (.start r.tm))

/-- The connections a sending call finds do not let it go on. -/
def refused (ring : Ring Slot) (payload : List UInt8) : Entry → Bool
  | .noMemberTrySend => ring.cc = 0#32 ∧ payload.length > SendCall.snifferPayloadLimit
  | _ => ring.cc = 0#32

/-- The start of a sending call. -/
def startSend (s : State) (t : ℕ) (entry : Entry) (payload : List UInt8) (tm : Option ℕ)
    (msgId : BitVec 32) (chunk : Option ℕ) : State :=
  if payload = [] ∨ refused s.ring payload entry then s.log (.sent false 0 0)
  else
    s.setCall t (.opening entry tm
      (slots (s.ring.cc ≠ 0#32 ∧ payload.length > dataLength) payload msgId chunk))

/-- The next step of a sending call that waits for a push. -/
def runPush (self : BitVec 32) (s : State) (t : ℕ) (p : Pushing) : Option State :=
  if p.sniffer then
    let s := { s with ring := s.ring.pushSniffer ⟨self, p.slot⟩ }
    some (nextSlot s t { p with pushed := p.pushed + 1 })
  else
    match p.wait.phase with
    | .check => (p.wait.next (.checked s.wtWaiter.quit)).map (afterPush s t p)
    | _ =>
        match s.ring.push ⟨self, p.slot⟩ with
        | none => (p.wait.next (.evaluated true)).map (afterPush s t p)
        | some (_, ring) =>
            (p.wait.next (.evaluated false)).map
              (afterPush { s with ring := ring } t { p with pushed := p.pushed + 1 })

/-- The next step of `recv`. -/
def runPop (self : BitVec 32) (found : Bool) (s : State) (t : ℕ) (r : Receiving) :
    Option State :=
  match r.wait.phase with
  | .check => (r.wait.next (.checked s.rdWaiter.quit)).map (afterPop self found s t r)
  | _ =>
      -- the predicate reconnects the handle if it has to
      let s := if s.ring.isConnected s.queue then s else s.reopen
      let (ring, queue) := s.ring.connect s.queue
      match ring.pop queue with
      | (none, ring, queue) =>
          (r.wait.next (.evaluated true)).map
            (afterPop self found { s with ring := ring, queue := queue } t r)
      | (some (slot, _), ring, queue) =>
          (r.wait.next (.evaluated false)).map
            (afterPop self found { s with ring := ring, queue := queue } t
              { r with slot := slot, popped := true })

/-- `disconnect_receiver`, up to `quit_waiting`. -/
def disconnectReceiver (s : State) (t : ℕ) : State :=
  let (ring, queue) := s.ring.disconnect s.queue
  { s with ring := ring, queue := queue }.setCall t
    (.quitting false (s.ring.isConnected s.queue))

/-- The next step of a call. -/
def runCall (self : BitVec 32) (s : State) (t : ℕ) (found : Bool) : Option State :=
  match s.calls t with
  | .idle => none
  | .opening entry tm slots =>
      let sniffer : Bool := entry = .noMemberTrySend ∧ s.ring.cc = 0#32
      some (startPush s t sniffer (entry ≠ .trySend) tm slots)
  | .pushing p => runPush self s t p
  | .forcing p =>
      match s.ring.forcePush ⟨self, p.slot⟩ with
      | (none, ring) => some (finish { s with ring := ring } t p false)
      | (some _, ring) =>
          some (nextSlot { s with ring := ring } t { p with pushed := p.pushed + 1 })
  | .receiving r => runPop self found s t r
  | .quitting false clears =>
      some ({ s with wtWaiter := s.wtWaiter.quitWaiting }.setCall t (.quitting true clears))
  | .quitting true clears =>
      some ({ s with
        rdWaiter := s.rdWaiter.quitWaiting
        caches := if clears then Function.update s.caches t [] else s.caches }.setCall t .idle)

/-- The condition is signalled, or the wait for it ends. -/
def signal (self : BitVec 32) (s : State) (t : ℕ) (e : Event) : Option State :=
  match s.calls t with
  | .pushing p => (p.wait.next e).map (afterPush s t p)
  | .receiving r => (r.wait.next e).map (afterPop self true s t r)
  | _ => none

/-- One step of a handle with the connection id `self`. -/
def step (self : BitVec 32) (s : State) : Action → Option State
  | .others ring contents => some { s with ring := ring, contents := contents }
  | .elsewhere t caches =>
      if s.calls t = .idle then some { s with caches := Function.update s.caches t caches }
      else none
  | .send t entry payload tm msgId chunk =>
      if s.calls t = .idle ∧ entry ≠ .publishLoan then
        some (startSend s t entry payload tm msgId chunk)
      else none
  | .publishLoan t size id tm msgId =>
      if s.calls t = .idle then
        some (startPush s t false true tm [.ofChunk msgId size id])
      else none
  | .recv t tm =>
      if s.calls t = .idle then
        if s.ring.isConnected s.queue then some (s.setCall t (.receiving (.start tm)))
        else some (s.log (.received [] false))
      else none
  | .disconnect t => if s.calls t = .idle then some (disconnectReceiver s t) else none
  | .reconnect t startToRecv =>
      if s.calls t = .idle then
        let s := s.reopen
        if startToRecv then
          let (ring, queue) := s.ring.connect s.queue
          some { s with ring := ring, queue := queue }
        else if s.ring.isConnected s.queue then some (disconnectReceiver s t)
        else some s
      else none
  | .run t found => runCall self s t found
  | .woken t => signal self s t .woken
  | .timedOut t => signal self s t .timedOut

/-- The calls of a handle as a machine. -/
def machine (self : BitVec 32) : Machine State Action := ⟨init, step self⟩

/-! ## The claim and its condition -/

/-- A return value that tells the truth: `wait_for` saw its predicate false, a sending call
pushed all its slots, and a buffer of `recv` was made from a message that was popped. -/
def Ret.Honest : Ret → Prop
  | .waited ok last => ok = true → last = some false
  | .sent ok needed pushed => ok = true → pushed = needed
  | .received buff popped => buff ≠ [] → popped = true

/-- Every call has told the truth. -/
def Honest (s : State) : Prop := ∀ r ∈ s.returns, r.Honest

/-- The step is not one in which `wait_if` finds `quit_` set. -/
def Unquit (s : State) : Action → Prop
  | .run t _ =>
      match s.calls t with
      | .pushing p => p.sniffer = false → p.wait.phase = .check → s.wtWaiter.quit = false
      | .receiving r => r.wait.phase = .check → s.rdWaiter.quit = false
      | _ => True
  | _ => True

/-! ## One call of `wait_for` -/

/-- Behind its own loop, a call has last seen its predicate true. -/
def Wait.Ok (w : Wait) : Prop :=
  match w.phase with
  | .spin _ => True
  | .check | .eval | .asleep => w.last = some true

theorem Wait.start_ok (tm : Option ℕ) : (Wait.start tm).Ok := trivial

theorem Wait.more_ok {w w' : Wait} {e : Event} (hw : w.Ok) (h : w.next e = some (.more w')) :
    w'.Ok ∧ e ≠ .evaluated false := by
  cases e with
  | evaluated pred =>
      simp only [Wait.next] at h
      cases hphase : w.phase with
      | spin k =>
          simp only [hphase] at h
          cases pred with
          | false => simp at h
          | true =>
              refine ⟨?_, by simp⟩
              by_cases htm : w.tm = some 0
              · simp [htm] at h
              · by_cases hk : k < 32 <;> simp [htm, hk] at h <;> subst h <;> simp [Wait.Ok]
      | eval =>
          simp only [hphase] at h
          cases pred with
          | false => simp at h
          | true =>
              simp at h
              subst h
              simp [Wait.Ok]
      | check | asleep => simp [hphase] at h
  | checked quit =>
      simp only [Wait.next] at h
      cases hphase : w.phase with
      | check =>
          have hlast : w.last = some true := by simpa [Wait.Ok, hphase] using hw
          cases quit <;> simp [hphase] at h
          subst h
          simp [Wait.Ok, hlast]
      | spin k | eval | asleep => simp [hphase] at h
  | woken =>
      simp only [Wait.next] at h
      cases hphase : w.phase with
      | asleep =>
          have hlast : w.last = some true := by simpa [Wait.Ok, hphase] using hw
          simp [hphase] at h
          subst h
          simp [Wait.Ok, hlast]
      | spin k | eval | check => simp [hphase] at h
  | timedOut =>
      simp only [Wait.next] at h
      cases hphase : w.phase <;> cases htm : w.tm <;> simp [hphase, htm] at h

/-- A call returns true when its predicate turned false, or because of `quit_`. -/
theorem Wait.returns_cases {w : Wait} {e : Event} {ok : Bool} {last : Option Bool}
    (h : w.next e = some (.returns ok last)) :
    e = .evaluated false ∧ ok = true ∧ last = some false ∨
      e = .checked true ∧ w.phase = .check ∧ ok = true ∧ last = w.last ∨
      e ≠ .evaluated false ∧ ok = false := by
  cases e with
  | evaluated pred =>
      simp only [Wait.next] at h
      cases hphase : w.phase with
      | spin k =>
          simp only [hphase] at h
          cases pred with
          | false => exact Or.inl (by simpa [eq_comm] using h)
          | true =>
              refine Or.inr (Or.inr ⟨by simp, ?_⟩)
              by_cases htm : w.tm = some 0
              · simp [htm] at h
                exact h.1
              · by_cases hk : k < 32 <;> simp [htm, hk] at h
      | eval =>
          simp only [hphase] at h
          cases pred with
          | false => exact Or.inl (by simpa [eq_comm] using h)
          | true => simp at h
      | check | asleep => simp [hphase] at h
  | checked quit =>
      simp only [Wait.next] at h
      cases hphase : w.phase with
      | check =>
          cases quit with
          | true => exact Or.inr (Or.inl (by simpa [hphase, eq_comm] using h))
          | false => simp [hphase] at h
      | spin k | eval | asleep => simp [hphase] at h
  | woken =>
      simp only [Wait.next] at h
      cases hphase : w.phase <;> simp [hphase] at h
  | timedOut =>
      simp only [Wait.next] at h
      cases hphase : w.phase <;> cases htm : w.tm <;> simp [hphase, htm] at h
      exact Or.inr (Or.inr ⟨by simp, h.1⟩)

/-! ## The invariant -/

/-- What holds of a call under way; only as long as no `quit_` has been found set (`strict`)
are the slots it needs those pushed and those still to push. -/
def Call.Sound (strict : Prop) : Call → Prop
  | .pushing p => p.wait.Ok ∧ (strict → p.pushed + p.rest.length + 1 = p.needed)
  | .forcing p => strict → p.pushed + p.rest.length + 1 = p.needed
  | .receiving r => r.wait.Ok
  | .idle | .opening _ _ _ | .quitting _ _ => True

/-- The calls under way are sound, and what returned so far is honest. -/
structure Inv (strict : Prop) (s : State) : Prop where
  calls : ∀ t, (s.calls t).Sound strict
  honest : strict → Honest s

theorem inv_init (strict : Prop) : Inv strict init :=
  ⟨fun _ => trivial, fun _ _ hr => (nomatch hr)⟩

section Step

variable {strict : Prop} {self : BitVec 32} {s s' : State} {t : ℕ}

private theorem Inv.setCall (h : Inv strict s) {c : Call} (hc : c.Sound strict) :
    Inv strict (s.setCall t c) where
  calls := by
    intro u
    by_cases hu : u = t
    · subst hu
      simpa [State.setCall] using hc
    · simpa [State.setCall, hu] using h.calls u
  honest := h.honest

private theorem Inv.log (h : Inv strict s) {r : Ret} (hr : strict → r.Honest) :
    Inv strict (s.log r) where
  calls := h.calls
  honest := fun hs => List.forall_mem_cons.mpr ⟨hr hs, h.honest hs⟩

/-- Nothing but the calls and what they returned matters. -/
private theorem Inv.congr (h : Inv strict s) (hcalls : s'.calls = s.calls)
    (hreturns : s'.returns = s.returns) : Inv strict s' :=
  ⟨by rw [hcalls]; exact h.calls, by rw [Honest, hreturns]; exact h.honest⟩

private theorem inv_finish (h : Inv strict s) {p : Pushing} {ok : Bool}
    (hp : strict → ok = true → p.pushed = p.needed) : Inv strict (finish s t p ok) :=
  (h.log (r := .sent ok p.needed p.pushed) hp).setCall trivial

private theorem inv_nextSlot (h : Inv strict s) {p : Pushing}
    (hcount : strict → p.pushed + p.rest.length = p.needed) : Inv strict (nextSlot s t p) := by
  unfold nextSlot
  split
  · rename_i m rest hrest
    rw [hrest] at hcount
    exact h.setCall ⟨Wait.start_ok p.tm, hcount⟩
  · rename_i hrest
    rw [hrest] at hcount
    exact inv_finish h fun hs _ => hcount hs

private theorem inv_startPush (h : Inv strict s) {sniffer forces : Bool} {tm : Option ℕ}
    {slots : List Msg} : Inv strict (startPush s t sniffer forces tm slots) := by
  cases slots with
  | nil => exact (h.log (r := .sent true 0 0) fun _ _ => rfl).setCall trivial
  | cons m rest => exact h.setCall ⟨Wait.start_ok tm, fun _ => by simp⟩

/-- A sending call after a step of its `wait_for`: its slot has been pushed exactly if the
predicate turned false. -/
private theorem inv_afterPush (h : Inv strict s) {p : Pushing} {e : Event} {n : Next}
    (hw : p.wait.Ok) (hn : p.wait.next e = some n) (hquit : strict → e ≠ .checked true)
    (hcount : strict →
      p.pushed + p.rest.length + (if e = .evaluated false then 0 else 1) = p.needed) :
    Inv strict (afterPush s t p n) := by
  have hwhole : e ≠ .evaluated false → strict → p.pushed + p.rest.length + 1 = p.needed := by
    intro hne hs
    simpa [hne] using hcount hs
  cases n with
  | more w =>
      obtain ⟨hok, hne⟩ := Wait.more_ok hw hn
      exact h.setCall ⟨hok, hwhole hne⟩
  | returns ok last =>
      rcases Wait.returns_cases hn with ⟨rfl, rfl, rfl⟩ | ⟨rfl, -, rfl, rfl⟩ | ⟨hne, rfl⟩
      · have hlogged := h.log (r := .waited true (some false)) fun _ _ => rfl
        exact inv_nextSlot hlogged fun hs => by simpa using hcount hs
      · have hlogged := h.log (r := .waited true p.wait.last) fun hs => absurd rfl (hquit hs)
        exact inv_nextSlot hlogged fun hs => absurd rfl (hquit hs)
      · have hlogged := h.log (r := .waited false last) fun _ => nofun
        simp only [afterPush, Bool.false_eq_true, if_false]
        split
        · exact hlogged.setCall (hwhole hne)
        · exact inv_finish hlogged fun _ => nofun

private theorem inv_afterPop (h : Inv strict s) {found : Bool} {r : Receiving} {e : Event}
    {n : Next} (hw : r.wait.Ok) (hn : r.wait.next e = some n)
    (hquit : strict → e ≠ .checked true) (hpopped : e = .evaluated false → r.popped = true) :
    Inv strict (afterPop self found s t r n) := by
  have htrue : ∀ last, (strict → last = some false ∧ r.popped = true) →
      Inv strict (afterPop self found s t r (.returns true last)) := by
    intro last hlast
    have hlogged := h.log (r := .waited true last) fun hs _ => (hlast hs).1
    simp only [afterPop]
    split
    · exact hlogged.setCall (c := .receiving (.start r.tm)) (Wait.start_ok r.tm)
    · split
      · rename_i buff caches _
        have hcache : Inv strict { s.log (.waited true last) with
            caches := Function.update s.caches t caches } := hlogged.congr rfl rfl
        exact (hcache.log (r := .received buff r.popped) fun hs _ => (hlast hs).2).setCall trivial
      · exact (hlogged.congr (by rfl) (by rfl)).setCall (c := .receiving (.start r.tm))
          (Wait.start_ok r.tm)
  cases n with
  | more w => exact h.setCall (Wait.more_ok hw hn).1
  | returns ok last =>
      rcases Wait.returns_cases hn with ⟨rfl, rfl, rfl⟩ | ⟨rfl, -, rfl, rfl⟩ | ⟨hne, rfl⟩
      · exact htrue _ fun _ => ⟨rfl, hpopped rfl⟩
      · exact htrue _ fun hs => absurd rfl (hquit hs)
      · have hlogged := h.log (r := .waited false last) fun _ => nofun
        exact (hlogged.log (r := .received [] r.popped) fun _ hbuff => absurd rfl hbuff).setCall
          trivial

private theorem inv_runPush (h : Inv strict s) {p : Pushing} (hp : (Call.pushing p).Sound strict)
    (hquit : strict → p.sniffer = false → p.wait.phase = .check → s.wtWaiter.quit = false)
    (hstep : runPush self s t p = some s') : Inv strict s' := by
  obtain ⟨hw, hcount⟩ := hp
  have hone : ∀ {e : Event}, e ≠ .evaluated false → strict →
      p.pushed + p.rest.length + (if e = .evaluated false then 0 else 1) = p.needed := by
    intro e hne hs
    rw [if_neg hne]
    exact hcount hs
  have hnow : strict → p.pushed + 1 + p.rest.length = p.needed := by
    intro hs
    have hsum := hcount hs
    omega
  unfold runPush at hstep
  split at hstep
  · cases hstep
    exact inv_nextSlot (p := { p with pushed := p.pushed + 1 }) (h.congr (by rfl) (by rfl)) hnow
  · rename_i hsniffer
    split at hstep
    · rename_i hphase
      obtain ⟨n, hn, rfl⟩ := Option.map_eq_some_iff.mp hstep
      refine inv_afterPush h hw hn (fun hs => ?_) (hone nofun)
      rw [hquit hs (by simpa using hsniffer) hphase]
      simp
    · split at hstep
      · obtain ⟨n, hn, rfl⟩ := Option.map_eq_some_iff.mp hstep
        exact inv_afterPush h hw hn (fun _ => nofun) (hone nofun)
      · obtain ⟨n, hn, rfl⟩ := Option.map_eq_some_iff.mp hstep
        exact inv_afterPush (p := { p with pushed := p.pushed + 1 })
          (h.congr (by rfl) (by rfl)) hw hn (fun _ => nofun) hnow

private theorem inv_runPop (h : Inv strict s) {found : Bool} {r : Receiving} (hw : r.wait.Ok)
    (hquit : strict → r.wait.phase = .check → s.rdWaiter.quit = false)
    (hstep : runPop self found s t r = some s') : Inv strict s' := by
  unfold runPop at hstep
  split at hstep
  · rename_i hphase
    obtain ⟨n, hn, rfl⟩ := Option.map_eq_some_iff.mp hstep
    refine inv_afterPop h hw hn (fun hs => ?_) nofun
    rw [hquit hs hphase]
    simp
  · have hcalls : (if s.ring.isConnected s.queue then s else s.reopen).calls = s.calls := by
      split <;> rfl
    have hreturns : (if s.ring.isConnected s.queue then s else s.reopen).returns = s.returns := by
      split <;> rfl
    dsimp only at hstep
    split at hstep
    · obtain ⟨n, hn, rfl⟩ := Option.map_eq_some_iff.mp hstep
      exact inv_afterPop (h.congr (by exact hcalls) (by exact hreturns)) hw hn
        (fun _ => nofun) nofun
    · rename_i slot _ _ _ _
      obtain ⟨n, hn, rfl⟩ := Option.map_eq_some_iff.mp hstep
      exact inv_afterPop (r := { r with slot := slot, popped := true })
        (h.congr (by exact hcalls) (by exact hreturns)) hw hn (fun _ => nofun) fun _ => rfl

private theorem inv_disconnectReceiver (h : Inv strict s) :
    Inv strict (disconnectReceiver s t) :=
  (h.congr (by rfl) (by rfl)).setCall trivial

private theorem inv_startSend (h : Inv strict s) {entry : Entry} {payload : List UInt8}
    {tm : Option ℕ} {msgId : BitVec 32} {chunk : Option ℕ} :
    Inv strict (startSend s t entry payload tm msgId chunk) := by
  unfold startSend
  split
  · exact h.log (r := .sent false 0 0) fun _ => nofun
  · exact h.setCall (c := .opening entry tm _) trivial

private theorem inv_runCall (h : Inv strict s) {found : Bool}
    (hunquit : strict → Unquit s (.run t found)) (hstep : runCall self s t found = some s') :
    Inv strict s' := by
  have hcall := h.calls t
  unfold runCall at hstep
  split at hstep
  · cases hstep
  · cases hstep
    exact inv_startPush h
  · rename_i p hpushing
    rw [hpushing] at hcall
    refine inv_runPush h hcall (fun hs => ?_) hstep
    have hun := hunquit hs
    simpa only [Unquit, hpushing] using hun
  · rename_i p hforcing
    rw [hforcing] at hcall
    split at hstep
    · cases hstep
      exact inv_finish (h.congr (by rfl) (by rfl)) fun _ => nofun
    · cases hstep
      refine inv_nextSlot (p := { p with pushed := p.pushed + 1 }) (h.congr (by rfl) (by rfl))
        fun hs => ?_
      have hsum := hcall hs
      change p.pushed + 1 + p.rest.length = p.needed
      omega
  · rename_i r hreceiving
    rw [hreceiving] at hcall
    refine inv_runPop h hcall (fun hs => ?_) hstep
    have hun := hunquit hs
    simpa only [Unquit, hreceiving] using hun
  · cases hstep
    exact (h.congr (by rfl) (by rfl)).setCall trivial
  · cases hstep
    exact (h.congr (by rfl) (by rfl)).setCall trivial

private theorem inv_signal (h : Inv strict s) {e : Event} (he : e = .woken ∨ e = .timedOut)
    (hstep : signal self s t e = some s') : Inv strict s' := by
  have hcall := h.calls t
  have hne : e ≠ .evaluated false ∧ e ≠ .checked true := by
    rcases he with rfl | rfl <;> exact ⟨nofun, nofun⟩
  unfold signal at hstep
  split at hstep
  · rename_i p hpushing
    rw [hpushing] at hcall
    obtain ⟨n, hn, rfl⟩ := Option.map_eq_some_iff.mp hstep
    refine inv_afterPush h hcall.1 hn (fun _ => hne.2) fun hs => ?_
    rw [if_neg hne.1]
    exact hcall.2 hs
  · rename_i r hreceiving
    rw [hreceiving] at hcall
    obtain ⟨n, hn, rfl⟩ := Option.map_eq_some_iff.mp hstep
    exact inv_afterPop h hcall hn (fun _ => hne.2) fun heq => absurd heq hne.1
  · cases hstep

/-- **The induction step.** -/
theorem inv_step {a : Action} (h : Inv strict s) (hunquit : strict → Unquit s a)
    (hstep : step self s a = some s') : Inv strict s' := by
  cases a with
  | others ring contents =>
      cases hstep
      exact h.congr rfl rfl
  | elsewhere t caches =>
      simp only [step] at hstep
      split at hstep <;> cases hstep
      exact h.congr rfl rfl
  | send t entry payload tm msgId chunk =>
      simp only [step] at hstep
      split at hstep <;> cases hstep
      exact inv_startSend h
  | publishLoan t size id tm msgId =>
      simp only [step] at hstep
      split at hstep <;> cases hstep
      exact inv_startPush h
  | recv t tm =>
      simp only [step] at hstep
      split at hstep
      · split at hstep <;> cases hstep
        · exact h.setCall (c := .receiving (.start tm)) (Wait.start_ok tm)
        · exact h.log (r := .received [] false) fun _ hbuff => absurd rfl hbuff
      · cases hstep
  | disconnect t =>
      simp only [step] at hstep
      split at hstep <;> cases hstep
      exact inv_disconnectReceiver h
  | reconnect t startToRecv =>
      have hreopened : Inv strict s.reopen := h.congr rfl rfl
      simp only [step] at hstep
      split at hstep
      · split at hstep
        · cases hstep
          exact hreopened.congr rfl rfl
        · split at hstep <;> cases hstep
          · exact inv_disconnectReceiver hreopened
          · exact hreopened
      · cases hstep
  | run t found => exact inv_runCall h hunquit hstep
  | woken t => exact inv_signal h (Or.inl rfl) hstep
  | timedOut t => exact inv_signal h (Or.inr rfl) hstep

/-! ## What is returned stays returned -/

private theorem log_returns {rs : List Ret} (h : rs ⊆ s.returns) (r : Ret) :
    rs ⊆ (s.log r).returns :=
  List.subset_cons_of_subset r h

private theorem nextSlot_returns {rs : List Ret} (h : rs ⊆ s.returns) (p : Pushing) :
    rs ⊆ (nextSlot s t p).returns := by
  unfold nextSlot
  split
  · exact h
  · exact log_returns h _

private theorem afterPush_returns {rs : List Ret} (h : rs ⊆ s.returns) (p : Pushing) (n : Next) :
    rs ⊆ (afterPush s t p n).returns := by
  cases n with
  | more w => exact h
  | returns ok last =>
      simp only [afterPush]
      split
      · exact nextSlot_returns (log_returns h _) p
      · split
        · exact log_returns h _
        · exact log_returns (log_returns h _) _

private theorem afterPop_returns {rs : List Ret} (h : rs ⊆ s.returns) (found : Bool)
    (r : Receiving) (n : Next) : rs ⊆ (afterPop self found s t r n).returns := by
  cases n with
  | more w => exact h
  | returns ok last =>
      cases ok with
      | false => exact log_returns (log_returns h _) _
      | true =>
          simp only [afterPop]
          split
          · exact log_returns h _
          · split
            · exact log_returns (s := { s.log _ with caches := _ }) (log_returns h _) _
            · exact log_returns h _

private theorem runCall_returns {found : Bool} (hstep : runCall self s t found = some s') :
    s.returns ⊆ s'.returns := by
  have hrefl : s.returns ⊆ s.returns := List.Subset.refl _
  unfold runCall at hstep
  split at hstep
  · cases hstep
  · rename_i tm slots _
    cases hstep
    cases slots with
    | nil => exact log_returns hrefl _
    | cons m rest => exact hrefl
  · rename_i p _
    unfold runPush at hstep
    split at hstep
    · cases hstep
      exact nextSlot_returns (by exact hrefl) _
    · split at hstep
      · obtain ⟨n, -, rfl⟩ := Option.map_eq_some_iff.mp hstep
        exact afterPush_returns hrefl p n
      · split at hstep
        · obtain ⟨n, -, rfl⟩ := Option.map_eq_some_iff.mp hstep
          exact afterPush_returns hrefl p n
        · obtain ⟨n, -, rfl⟩ := Option.map_eq_some_iff.mp hstep
          exact afterPush_returns (by exact hrefl) _ n
  · split at hstep
    · cases hstep
      exact log_returns (by exact hrefl) _
    · cases hstep
      exact nextSlot_returns (by exact hrefl) _
  · rename_i r _
    unfold runPop at hstep
    have hreopened : s.returns ⊆ (if s.ring.isConnected s.queue then s else s.reopen).returns := by
      split <;> exact hrefl
    split at hstep
    · obtain ⟨n, -, rfl⟩ := Option.map_eq_some_iff.mp hstep
      exact afterPop_returns hrefl found r n
    · dsimp only at hstep
      split at hstep
      · obtain ⟨n, -, rfl⟩ := Option.map_eq_some_iff.mp hstep
        exact afterPop_returns (by exact hreopened) found _ n
      · obtain ⟨n, -, rfl⟩ := Option.map_eq_some_iff.mp hstep
        exact afterPop_returns (by exact hreopened) found _ n
  · cases hstep
    exact hrefl
  · cases hstep
    exact hrefl

theorem step_returns {a : Action} (hstep : step self s a = some s') :
    s.returns ⊆ s'.returns := by
  have hrefl : s.returns ⊆ s.returns := List.Subset.refl _
  cases a with
  | others ring contents =>
      cases hstep
      exact hrefl
  | elsewhere t caches | disconnect t =>
      simp only [step] at hstep
      split at hstep <;> cases hstep
      exact hrefl
  | send t entry payload tm msgId chunk =>
      simp only [step] at hstep
      split at hstep <;> cases hstep
      unfold startSend
      split
      · exact log_returns hrefl _
      · exact hrefl
  | publishLoan t size id tm msgId =>
      simp only [step] at hstep
      split at hstep <;> cases hstep
      exact hrefl
  | recv t tm =>
      simp only [step] at hstep
      split at hstep
      · split at hstep <;> cases hstep
        · exact hrefl
        · exact log_returns hrefl _
      · cases hstep
  | reconnect t startToRecv =>
      simp only [step] at hstep
      split at hstep
      · split at hstep
        · cases hstep
          exact hrefl
        · split at hstep <;> cases hstep <;> exact hrefl
      · cases hstep
  | run t found => exact runCall_returns hstep
  | woken t | timedOut t =>
      simp only [step, signal] at hstep
      split at hstep
      · obtain ⟨n, -, rfl⟩ := Option.map_eq_some_iff.mp hstep
        exact afterPush_returns hrefl _ n
      · obtain ⟨n, -, rfl⟩ := Option.map_eq_some_iff.mp hstep
        exact afterPop_returns hrefl true _ n
      · cases hstep

/-- A `quit_` found set makes `wait_for` return true although its predicate was true. -/
theorem not_honest_of_quit {a : Action} (h : Inv strict s) (hstep : step self s a = some s')
    (hquit : ¬ Unquit s a) : ¬ Honest s' := by
  have hlie : ∀ {s'' : State}, (s.log (.waited true (some true))).returns ⊆ s''.returns →
      ¬ Honest s'' := by
    intro s'' hsub hall
    have hfalse := hall _ (hsub List.mem_cons_self) rfl
    cases hfalse
  cases a with
  | run t found =>
      have hcall := h.calls t
      simp only [step, runCall] at hstep
      cases hc : s.calls t with
      | pushing p =>
          simp only [Unquit, hc] at hquit
          push Not at hquit
          obtain ⟨hsniffer, hphase, hset⟩ := hquit
          rw [hc] at hcall
          have hlast : p.wait.last = some true := by
            have hok := hcall.1
            simpa [Wait.Ok, hphase] using hok
          have hset' : s.wtWaiter.quit = true := by simpa using hset
          simp only [hc, runPush, hsniffer, hphase, Wait.next, hset', hlast, Bool.false_eq_true,
            if_false, if_true, Option.map_some, Option.some.injEq] at hstep
          subst hstep
          exact hlie (nextSlot_returns (List.Subset.refl _) p)
      | receiving r =>
          simp only [Unquit, hc] at hquit
          push Not at hquit
          obtain ⟨hphase, hset⟩ := hquit
          rw [hc] at hcall
          have hlast : r.wait.last = some true := by
            have hok : r.wait.Ok := hcall
            simpa [Wait.Ok, hphase] using hok
          have hset' : s.rdWaiter.quit = true := by simpa using hset
          simp only [hc, runPop, hphase, Wait.next, hset', hlast, if_true, Option.map_some,
            Option.some.injEq] at hstep
          subst hstep
          refine hlie ?_
          simp only [afterPop]
          split
          · exact List.Subset.refl _
          · split
            · exact log_returns (by exact List.Subset.refl _) _
            · exact List.Subset.refl _
      | idle | opening _ _ _ | forcing _ | quitting _ _ =>
          simp [Unquit, hc] at hquit
  | _ => exact absurd trivial hquit

end Step

/-! ## Runs -/

/-- **Waiting.**  What the calls of a run returned is true exactly if no `wait_if` of the run
found `quit_` set. -/
theorem honest_iff_unquit {self : BitVec 32} {actions : List Action} {s : State}
    (hrun : (machine self).run actions = some s) :
    Honest s ↔ (machine self).Guarded Unquit actions := by
  constructor
  · intro hhonest
    have hinv : ∀ s a t, Inv False s → (machine self).step s a = some t → Inv False t :=
      fun _ _ _ h hstep => inv_step h False.elim hstep
    have hmark : ∀ s a t, Inv False s → (machine self).step s a = some t → ¬ Unquit s a →
        ¬ Honest t := fun _ _ _ h hstep hquit => not_honest_of_quit h hstep hquit
    have hstays : ∀ s a t, ¬ Honest s → (machine self).step s a = some t → ¬ Honest t :=
      fun _ _ _ hlie hstep hall => hlie fun r hr => hall r (step_returns hstep hr)
    exact Machine.guardedFrom_of_unmarked hinv hmark hstays (inv_init False) hrun
      (not_not.mpr hhonest)
  · intro hguarded
    exact (Machine.invariant_of_guarded (inv_init True)
      (fun _ _ _ h hunquit hstep => inv_step h (fun _ => hunquit) hstep) hguarded hrun).honest
      trivial

/-- A ring with one reader, which has read nothing of the 256 messages in it. -/
def fullRing : Ring Slot :=
  { Ring.zeroed Slot.blank with
    cc := 1#32
    wt := 256#32
    elems := fun _ => ⟨1#32, 0#32, Slot.blank⟩ }

/-- The reader has left behind a message of one byte, and `recv` returns it. -/
def receivesOne : List Action :=
  [.reconnect 0 true,
    .others
      { Ring.zeroed Slot.blank with
        cc := 1#32
        wt := 1#32
        elems := fun _ => ⟨1#32, 0#32, ⟨2#32, ⟨0#32, 1#32 - 64#32, .bytes [7]⟩⟩⟩ }
      (fun _ _ => 0),
    .recv 0 none, .run 0 true]

theorem honest_iff_unquit_receivesOne :
    ∃ s, (machine 1#32).run receivesOne = some s ∧
      Ret.received [some 7] true ∈ s.returns ∧
      (Honest s ↔ (machine 1#32).Guarded Unquit receivesOne) := by
  have hends : ∃ s, (machine 1#32).run receivesOne = some s ∧
      Ret.received [some 7] true ∈ s.returns :=
    Machine.exists_of_any (by decide +kernel)
  obtain ⟨s, hrun, hmem⟩ := hends
  exact ⟨s, hrun, hmem, honest_iff_unquit hrun⟩

/-- `recv` of a handle that has been disconnected and reconnected. -/
def recvAfterReconnect : List Action :=
  [.reconnect 0 true, .disconnect 0, .run 0 true, .run 0 true, .reconnect 0 true,
    .recv 0 (some 1)] ++ List.replicate 34 (.run 0 true)

/-- `try_send` to a full ring while another thread disconnects the handle. -/
def disconnectDuringSend : List Action :=
  [.others fullRing (fun _ _ => 0), .send 0 .trySend [7] (some 1) 0#32 none] ++
    List.replicate 34 (.run 0 true) ++
    [.disconnect 1, .run 1 true, .run 1 true, .run 0 true]

/-- **A wait cut short.**  Without a message in the ring `recv` returns 64 zeros, and
`try_send` returns true without a push. -/
theorem waits_cut_short :
    (∃ s, (machine 1#32).run recvAfterReconnect = some s ∧
      Ret.received (List.replicate 64 (some 0)) false ∈ s.returns ∧ ¬ Honest s) ∧
      ∃ s, (machine 1#32).run disconnectDuringSend = some s ∧
        Ret.sent true 1 0 ∈ s.returns ∧ ¬ Honest s := by
  have hrecv : ∃ s, (machine 1#32).run recvAfterReconnect = some s ∧
      Ret.received (List.replicate 64 (some 0)) false ∈ s.returns :=
    Machine.exists_of_any (by decide +kernel)
  have hsend : ∃ s, (machine 1#32).run disconnectDuringSend = some s ∧
      Ret.sent true 1 0 ∈ s.returns :=
    Machine.exists_of_any (by decide +kernel)
  obtain ⟨s, hrun, hmem⟩ := hrecv
  obtain ⟨s', hrun', hmem'⟩ := hsend
  refine ⟨⟨s, hrun, hmem, fun hall => ?_⟩, s', hrun', hmem', fun hall => ?_⟩
  · have hpopped : false = true := hall _ hmem (by simp)
    cases hpopped
  · have hcount : 0 = 1 := hall _ hmem' rfl
    cases hcount

end DzIpc.LibIpc.WaitFor
