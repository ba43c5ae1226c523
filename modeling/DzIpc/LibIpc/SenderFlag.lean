import DzIpc.Library.Machine
import DzIpc.LibIpc.Ring
import Mathlib.Logic.Function.Basic

/-!
# Who may send on a single-producer channel

`sender_checker` keeps one flag in the `elem_array`, and every queue remembers in its
`sender_flag_` that it once took the flag.  `shut_sending` gives the flag back but leaves
`sender_flag_` set, so that a queue that comes back as a sender does not ask again.

* `Inv` holds while no queue uses a remembered flag that it gave back: the sending queue is the
  one that holds the flag.
* `oneSender_of_guarded` is the result, and `two_senders` a hand-over and back after which two
  queues send.
-/

namespace DzIpc.LibIpc.SenderFlag

variable {D : Type*}

/-! ## The queues -/

/-- A queue of the channel. -/
structure Sender where
  queue : Queue
  /-- `sender_flag_` -/
  senderFlag : Bool
  /-- `ready_sending` returned `true`, and no `shut_sending` was called since. -/
  sending : Bool

/-- The `elem_array`, with the flag of its `sender_checker`, and the queues attached to it. -/
structure State (D : Type*) where
  ring : Ring D
  flag : Bool
  senders : ℕ → Sender

inductive Action where
  | readySending (i : ℕ)
  | shutSending (i : ℕ)
  | connect (i : ℕ)
  | disconnect (i : ℕ)
  | reconnect (i : ℕ) (startToRecv : Bool)

def State.set (s : State D) (i : ℕ) (q : Sender) : State D :=
  { s with senders := Function.update s.senders i q }

/-- `queue_base::ready_sending`, with what it returns. -/
def readySending (s : State D) (i : ℕ) : Bool × State D :=
  let q := s.senders i
  if q.senderFlag then (true, s.set i { q with sending := true })
  else
    -- `test_and_set`: the flag is set whatever it was
    let ok := !s.flag
    (ok, { s.set i { q with senderFlag := ok, sending := q.sending || ok } with flag := true })

/-- `queue_base::shut_sending`. -/
def shutSending (s : State D) (i : ℕ) : State D :=
  let q := s.senders i
  let s := s.set i { q with sending := false }
  if q.senderFlag then { s with flag := false } else s

/-- An operation on the connections, made for a queue. -/
def State.actRing (s : State D) (i : ℕ) (op : Ring D → Queue → Ring D × Queue) : State D :=
  let q := s.senders i
  { s.set i { q with queue := (op s.ring q.queue).2 } with ring := (op s.ring q.queue).1 }

/-- `detail_impl::reconnect`. -/
def reconnect (s : State D) (i : ℕ) (startToRecv : Bool) : State D :=
  if startToRecv then (shutSending s i).actRing i Ring.connect
  else (readySending (s.actRing i Ring.disconnect) i).2

def step (s : State D) : Action → Option (State D)
  | .readySending i => some (readySending s i).2
  | .shutSending i => some (shutSending s i)
  | .connect i => some (s.actRing i Ring.connect)
  | .disconnect i => some ((shutSending s i).actRing i Ring.disconnect)
  | .reconnect i startToRecv => some (reconnect s i startToRecv)

/-- An `elem_array` to which no queue is attached yet. -/
def machine (blank : D) : Machine (State D) Action :=
  { init := ⟨Ring.zeroed blank, false, fun _ => ⟨⟨0#32, 0#32⟩, false, false⟩⟩, step := step }

/-! ## The claim and the condition -/

/-- At most one queue is able to send. -/
def OneSender (s : State D) : Prop :=
  ∀ i j, (s.senders i).sending = true → (s.senders j).sending = true → i = j

/-- The queue gave the flag back and still remembers it. -/
def State.Stale (s : State D) (i : ℕ) : Prop :=
  (s.senders i).senderFlag = true ∧ (s.senders i).sending = false

instance (s : State D) (i : ℕ) : Decidable (s.Stale i) := inferInstanceAs (Decidable (_ ∧ _))

/-- No queue becomes a sender again on the strength of a flag it gave back, and none gives the
flag back a second time while it is taken. -/
def NoReturn (s : State D) : Action → Prop
  | .readySending i | .reconnect i false => ¬ s.Stale i
  | .shutSending i | .reconnect i true | .disconnect i => s.Stale i → s.flag = false
  | .connect _ => True

instance : ∀ (s : State D) (a : Action), Decidable (NoReturn s a)
  | s, .readySending i | s, .reconnect i false => inferInstanceAs (Decidable (¬ s.Stale i))
  | s, .shutSending i | s, .reconnect i true | s, .disconnect i =>
      inferInstanceAs (Decidable (s.Stale i → s.flag = false))
  | _, .connect _ => inferInstanceAs (Decidable True)

/-- A sending queue remembers the flag, the flag is set, and there is no other. -/
structure Inv (s : State D) : Prop where
  holds : ∀ i, (s.senders i).sending = true → (s.senders i).senderFlag = true ∧ s.flag = true
  one : OneSender s

/-! ## The steps -/

section

variable {s t : State D}

@[simp] theorem set_senders (s : State D) (i j : ℕ) (q : Sender) :
    (s.set i q).senders j = if j = i then q else s.senders j := by
  simp [State.set, Function.update_apply]

@[simp] theorem set_flag (s : State D) (i : ℕ) (q : Sender) : (s.set i q).flag = s.flag := rfl

/-- The invariant reads the flag and the flags of the queues only. -/
theorem Inv.congr (h : Inv s) (hflag : t.flag = s.flag)
    (hsender : ∀ i, (t.senders i).senderFlag = (s.senders i).senderFlag)
    (hsending : ∀ i, (t.senders i).sending = (s.senders i).sending) : Inv t := by
  constructor
  · intro i hi
    rw [hsending] at hi
    rw [hsender, hflag]
    exact h.holds i hi
  · intro i j hi hj
    rw [hsending] at hi hj
    exact h.one i j hi hj

@[simp] theorem actRing_flag (s : State D) (i : ℕ) (op : Ring D → Queue → Ring D × Queue) :
    (s.actRing i op).flag = s.flag := rfl

@[simp] theorem actRing_senderFlag (s : State D) (i j : ℕ)
    (op : Ring D → Queue → Ring D × Queue) :
    ((s.actRing i op).senders j).senderFlag = (s.senders j).senderFlag := by
  unfold State.actRing
  rw [set_senders]
  split
  · rename_i hji
    rw [hji]
  · rfl

@[simp] theorem actRing_sending (s : State D) (i j : ℕ) (op : Ring D → Queue → Ring D × Queue) :
    ((s.actRing i op).senders j).sending = (s.senders j).sending := by
  unfold State.actRing
  rw [set_senders]
  split
  · rename_i hji
    rw [hji]
  · rfl

theorem Inv.actRing (h : Inv s) (i : ℕ) (op : Ring D → Queue → Ring D × Queue) :
    Inv (s.actRing i op) :=
  h.congr rfl (fun j => actRing_senderFlag s i j op) fun j => actRing_sending s i j op

/-- A queue that asks for the flag, or that holds it. -/
theorem Inv.readySending (h : Inv s) {i : ℕ} (hstale : ¬ s.Stale i) :
    Inv (readySending s i).2 := by
  cases hcached : (s.senders i).senderFlag with
  | true =>
      have hsending : (s.senders i).sending = true := by
        by_contra hnot
        exact hstale ⟨hcached, by simpa using hnot⟩
      refine h.congr ?_ (fun j => ?_) (fun j => ?_)
      all_goals simp only [SenderFlag.readySending, hcached, if_true, set_flag, set_senders]
      all_goals
        split
        · rename_i hji
          simp only [hji, hcached, hsending]
        · rfl
  | false =>
      have hidle : (s.senders i).sending = false := by
        by_contra hsending
        rw [(h.holds i (by simpa using hsending)).1] at hcached
        cases hcached
      cases hflag : s.flag with
      | true =>
          refine h.congr ?_ (fun j => ?_) (fun j => ?_)
          all_goals simp only [SenderFlag.readySending, hcached, hflag, Bool.false_eq_true,
            if_false, set_senders, Bool.not_true, Bool.or_false]
          all_goals
            split
            · rename_i hji
              rw [hji, ← hcached]
            · rfl
      | false =>
          -- the flag was free, so nobody else sends
          have hnobody : ∀ j, (s.senders j).sending = false := by
            intro j
            by_contra hsending
            rw [(h.holds j (by simpa using hsending)).2] at hflag
            cases hflag
          have honly : ∀ j, ((SenderFlag.readySending s i).2.senders j).sending = true →
              j = i := by
            intro j hj
            by_contra hji
            simp only [SenderFlag.readySending, hcached, Bool.false_eq_true, if_false,
              set_senders, if_neg hji, hnobody] at hj
          constructor
          · intro j hj
            obtain rfl := honly j hj
            simp [SenderFlag.readySending, hcached, hflag]
          · intro j k hj hk
            rw [honly j hj, honly k hk]

/-- A queue that gives the flag back, or that had none to give. -/
theorem Inv.shutSending (h : Inv s) {i : ℕ} (hfree : s.Stale i → s.flag = false) :
    Inv (shutSending s i) := by
  have hsender : ∀ j, ((SenderFlag.shutSending s i).senders j).sending = true →
      j ≠ i ∧ (s.senders j).sending = true := by
    intro j hj
    have hset : ((s.set i { s.senders i with sending := false }).senders j).sending = true := by
      simp only [SenderFlag.shutSending] at hj
      split at hj <;> exact hj
    rw [set_senders] at hset
    split at hset
    · cases hset
    · exact ⟨‹_›, hset⟩
  constructor
  · intro j hj
    obtain ⟨hji, hsending⟩ := hsender j hj
    obtain ⟨hcached, hflag⟩ := h.holds j hsending
    have hnone : (s.senders i).senderFlag = false := by
      by_contra hset
      have hset : (s.senders i).senderFlag = true := by simpa using hset
      cases hi : (s.senders i).sending with
      | true => exact hji (h.one j i hsending hi)
      | false =>
          rw [hfree ⟨hset, hi⟩] at hflag
          cases hflag
    simp [SenderFlag.shutSending, hnone, hji, hcached, hflag]
  · intro j k hj hk
    exact h.one j k (hsender j hj).2 (hsender k hk).2

theorem Inv.step (h : Inv s) {a : Action} (hguard : NoReturn s a) (hstep : step s a = some t) :
    Inv t := by
  cases a with
  | readySending i =>
      cases hstep
      exact h.readySending hguard
  | shutSending i =>
      cases hstep
      exact h.shutSending hguard
  | connect i =>
      cases hstep
      exact h.actRing i _
  | disconnect i =>
      cases hstep
      exact (h.shutSending hguard).actRing i _
  | reconnect i startToRecv =>
      cases hstep
      cases startToRecv with
      | true => exact (h.shutSending hguard).actRing i _
      | false =>
          have hstale : ¬ (s.actRing i Ring.disconnect).Stale i := by
            unfold State.Stale
            rw [actRing_senderFlag, actRing_sending]
            exact hguard
          exact (h.actRing i Ring.disconnect).readySending hstale

end

/-! ## The result -/

/-- **One producer.**  In every state of a run in which no queue uses a flag that it gave back,
at most one queue is able to send. -/
theorem oneSender_of_guarded (blank : D) {actions : List Action} {s : State D}
    (hguarded : (machine blank).Guarded NoReturn actions)
    (hrun : (machine blank).run actions = some s) : OneSender s := by
  have hinit : Inv (machine blank).init := ⟨nofun, nofun⟩
  have hinv : Inv s := Machine.invariant_of_guarded hinit
    (fun _ _ _ hs hguard hstep => hs.step hguard hstep) hguarded hrun
  exact hinv.one

/-- The first queue sends and becomes a receiver, the second one takes over, and a third one
asks in vain. -/
def handOver : List Action :=
  [.reconnect 0 false, .reconnect 0 true, .reconnect 1 false, .readySending 2]

theorem oneSender_handOver :
    ∃ s, (machine ()).run handOver = some s ∧ OneSender s ∧ (s.senders 1).sending = true := by
  obtain ⟨s, hrun, hsending⟩ := Machine.exists_of_any (M := machine ())
    (P := fun s => (s.senders 1).sending = true)
    (show ((machine ()).run handOver).any _ = true by decide)
  have hguarded : (machine ()).Guarded NoReturn handOver := by decide
  exact ⟨s, hrun, oneSender_of_guarded () hguarded hrun, hsending⟩

/-- The first queue comes back while the second one sends. -/
def handOverAndBack : List Action :=
  [.reconnect 0 false, .reconnect 0 true, .reconnect 1 false, .reconnect 0 false]

/-- Two queues send. -/
theorem two_senders :
    ∃ s, (machine ()).run handOverAndBack = some s ∧ ¬ OneSender s := by
  obtain ⟨s, hrun, hboth⟩ := Machine.exists_of_any (M := machine ())
    (P := fun s => (s.senders 0).sending = true ∧ (s.senders 1).sending = true)
    (show ((machine ()).run handOverAndBack).any _ = true by decide)
  exact ⟨s, hrun, fun hone => absurd (hone 0 1 hboth.1 hboth.2) (by decide)⟩

end DzIpc.LibIpc.SenderFlag
