import DzIpc.Flat.Builder
import DzIpc.Library.Tickets
import DzIpc.Library.Machine
import DzIpc.LibIpc.Channel

/-!
# How loans end

`detail_impl::loan` lends a chunk of shared memory; `publish_loan` hands it over to the queue,
or gives it back if the push fails, and `discard_loan` gives it back.  A `LoanedMessage` owns
a loan while it is armed: it is built over it, moved about, published and destroyed.
`try_publish_dzflat` lends and ends within one call.

Loans are numbered as they are handed out, and the log records every push and every release
with its loan.  What the queue, the pool and the message do is up to the caller of a step.

* `ledger` reads the state as a ledger of tickets: the armed objects hold them, pushes and
  releases redeem them.
* `step_keeps`, `step_loses`: a step loses a loan exactly where the chunk is too small for the
  root record of the object that is built over it, or a wait for the push is cut short.
* `ended_once_iff`: once all objects are destroyed, every loan has been ended exactly once if
  and only if no step of the run was of this kind.
* `leaked` is a message with a root record of more than one kilobyte whose budget makes the
  sum of `loan_size` wrap around.
-/

namespace DzIpc.PubSub.Loans

open Wire Flat LibIpc

/-! ## Loans and objects -/

/-- `loan_t`: the capacity lent, and the number of the loan. -/
structure LoanT where
  serial : ℕ
  size : ℕ
  deriving DecidableEq, Repr

/-- `LoanedMessage`: its schema (a template argument), its channel and loan, what is built over
the chunk, and the flag.  The builder of an object that is not armed is a null builder. -/
structure LoanedMessage where
  S : Schema
  hasCh : Bool
  lo : Option LoanT
  built : Option Flat.Loan
  armed : Bool

namespace LoanedMessage

/-- `LoanedMessage() = default`. -/
def empty (S : Schema) : LoanedMessage :=
  { S := S, hasCh := false, lo := none, built := none, armed := false }

/-- The constructor over a valid loan of a chunk with these bytes. -/
def ofLoan (S : Schema) (lo : LoanT) (chunk : List UInt8) : LoanedMessage :=
  if lo.size < varlenStart S then
    { S := S, hasCh := true, lo := some lo, built := none, armed := false }
  else
    { S := S, hasCh := true, lo := some lo, built := some (Flat.Loan.start S chunk), armed := true }

/-- The loan that the object owns. -/
def owned (o : LoanedMessage) : Option ℕ :=
  if o.armed then o.lo.map LoanT.serial else none

/-- `release`, and the last line of `discard`. -/
def disarm (o : LoanedMessage) : LoanedMessage :=
  { o with armed := false }

/-- What `adopt` leaves of its argument. -/
def movedFrom (o : LoanedMessage) : LoanedMessage :=
  { o with hasCh := false, armed := false }

/-- `adopt`: the builder is rebuilt for the new owner. -/
def adopted (o : LoanedMessage) : LoanedMessage :=
  { o with built := if o.armed then o.built else none }

end LoanedMessage

/-- How a loan ends. -/
inductive LoanEnd where
  /-- A push with the loan's chunk succeeded. -/
  | pushed (serial : ℕ)
  /-- `discard_loan` gave the chunk back. -/
  | released (serial : ℕ)
  deriving DecidableEq, Repr

/-- The loan that has ended. -/
def LoanEnd.serial : LoanEnd → ℕ
  | .pushed n | .released n => n

/-- The program's objects, by their variables, the number of loans handed out, and the log, the
last end first. -/
structure State where
  objects : ℕ → Option LoanedMessage
  handedOut : ℕ
  log : List LoanEnd

/-! ## The calls -/

/-- How `publish_loan` fares: the queue has no segment, the message counter is not there, the
push succeeds while it is waited for, `quit_waiting` ends the wait, or the time is up and the
push is forced. -/
inductive Push where
  | noQueue
  | noCounter
  | inWait
  | quit
  | timeOut (forced : Bool)
  deriving DecidableEq, Repr

/-- `publish_loan`: what it returns, and the end of the loan.  A wait that is cut short reports
success. -/
def publishLoan (n : ℕ) : Push → Bool × Option LoanEnd
  | .noQueue | .noCounter => (false, some (.released n))
  | .inWait => (true, some (.pushed n))
  | .quit => (true, none)
  | .timeOut true => (true, some (.pushed n))
  | .timeOut false => (false, some (.released n))

/-- Whether a push may fare so: a call without time to wait tries once. -/
def Push.possible (p : Push) (tm : ℕ) : Bool :=
  p ≠ .quit || tm ≠ 0

/-- `Flat::loan_size`, in 32 bits. -/
def loanSize (S : Schema) (varlenBudget : ℕ) : ℕ :=
  u32 (varlenStart S + varlenBudget)

/-- What is done with the objects of a program, and `try_publish_dzflat`.  A chunk that `loan`
gets from the pool is named by its bytes. -/
inductive Action where
  | default (i : ℕ) (S : Schema)
  /-- `shm_pub_ipc::loan`: whether DZFlat is enabled and the publisher is there, and the chunk,
  if `detail_impl::loan` gets one. -/
  | loan (i : ℕ) (S : Schema) (varlenBudget : ℕ) (enabled : Bool) (chunk : Option (List UInt8))
  | build (i : ℕ) (op : Flat.Op)
  | moveConstruct (i j : ℕ)
  | moveAssign (i j : ℕ)
  /-- `publish_loaned`. -/
  | publish (i : ℕ) (publisher : Bool) (msgId tm : ℕ) (push : Push)
  | discard (i : ℕ)
  | destroy (i : ℕ)
  /-- `try_publish_dzflat`: whether it is enabled and supported, whether there is a publisher
  with receivers, the size needed, the chunk, whether the message could be written. -/
  | tryPublish (supported receivers : Bool) (need : ℕ) (chunk : Option (List UInt8))
      (written : Bool) (tm : ℕ) (push : Push)

namespace State

/-- Nothing has happened. -/
def init : State :=
  { objects := fun _ => none, handedOut := 0, log := [] }

/-- An object takes a new value, or ends. -/
def put (s : State) (i : ℕ) (o : Option LoanedMessage) : State :=
  { s with objects := Function.update s.objects i o }

/-- A loan may end. -/
def note (s : State) (e : Option LoanEnd) : State :=
  { s with log := e.toList ++ s.log }

/-- `discard`: an armed object gives its chunk back. -/
def discard (s : State) (i : ℕ) (o : LoanedMessage) : State :=
  (s.note ((if o.hasCh then o.owned else none).map .released)).put i (some o.disarm)

/-- `detail_impl::loan`: a chunk has the capacity that is asked for. -/
def lends (need : ℕ) (chunk : Option (List UInt8)) : Bool :=
  chunk.all fun bytes => bytes.length = Channel.loanCapacity need

end State

/-- One step. -/
def step (s : State) : Action → Option State
  | .default i S =>
      if (s.objects i).isSome then none else some (s.put i (some (.empty S)))
  | .loan i S budget enabled chunk =>
      if (s.objects i).isSome ∨ ¬ State.lends (loanSize S budget) chunk then none
      else if ¬ enabled then some (s.put i (some (.empty S)))
      else
        match chunk with
        | none => some (s.put i (some (.empty S)))
        | some bytes =>
            let lo : LoanT :=
              { serial := s.handedOut, size := Channel.loanCapacity (loanSize S budget) }
            some ({ s with handedOut := s.handedOut + 1 }.put i (some (.ofLoan S lo bytes)))
  | .build i op =>
      match s.objects i with
      | some o =>
          if ¬ o.armed then none
          else do
            let built ← o.built
            let built' ← Flat.step built op
            return s.put i (some { o with built := some built' })
      | none => none
  | .moveConstruct i j =>
      match s.objects j with
      | some o =>
          if (s.objects i).isSome then none
          else some ((s.put i (some o.adopted)).put j (some o.movedFrom))
      | none => none
  | .moveAssign i j =>
      match s.objects i, s.objects j with
      | some o, some rhs =>
          if i = j then some s
          else some (((s.discard i o).put i (some rhs.adopted)).put j (some rhs.movedFrom))
      | _, _ => none
  | .publish i publisher msgId tm push =>
      match s.objects i with
      | some o =>
          if ¬ push.possible tm then none
          else if ¬ o.armed ∨ ¬ publisher then some s
          else
            match o.built.bind (Flat.Loan.finalize o.S msgId), o.lo with
            | some _, some lo =>
                some ((s.note (publishLoan lo.serial push).2).put i (some o.disarm))
            | _, _ => some s
      | none => none
  | .discard i =>
      match s.objects i with
      | some o => some (s.discard i o)
      | none => none
  | .destroy i =>
      match s.objects i with
      | some o => some ((s.discard i o).put i none)
      | none => none
  | .tryPublish supported receivers need chunk written tm push =>
      if ¬ State.lends need chunk ∨ ¬ push.possible tm then none
      else if ¬ supported ∨ ¬ receivers ∨ need = 0 then some s
      else
        match chunk with
        | none => some s
        | some _ =>
            let s' := { s with handedOut := s.handedOut + 1 }
            some
              (if written then s'.note (publishLoan s.handedOut push).2
              else s'.note (some (.released s.handedOut)))

/-- Every sequence of calls. -/
def machine : Machine State Action where
  init := .init
  step := step

/-- Every loan has been ended exactly once: by one push or by one release. -/
def EndedOnce (s : State) : Prop :=
  ∀ n < s.handedOut, (s.log.map LoanEnd.serial).count n = 1

/-- All objects are destroyed. -/
def AllDestroyed (s : State) : Prop :=
  ∀ i, s.objects i = none

/-- What a step needs so as not to lose a loan: a chunk in which the root record of the object
has room, and a push that is not cut short. -/
def Sufficient (s : State) : Action → Prop
  | .loan _ S budget enabled chunk =>
      enabled = true → chunk.isSome = true → varlenStart S ≤ Channel.loanCapacity (loanSize S budget)
  | .publish i publisher msgId _ push =>
      push = .quit → publisher = true → ∀ o ∈ s.objects i, o.armed = true →
        o.built.bind (Flat.Loan.finalize o.S msgId) = none
  | .tryPublish supported receivers need chunk written _ push =>
      push = .quit → supported = true → receivers = true → need ≠ 0 → chunk.isSome = true →
        written = false
  | _ => True

/-! ## The ledger of the loans -/

/-- The state as a ledger: armed objects hold their loans. -/
def ledger (s : State) : Tickets ℕ where
  next := s.handedOut
  holds := fun i => (s.objects i).bind LoanedMessage.owned
  redeemed := s.log.map LoanEnd.serial

/-- An armed object has a channel, a loan, and something built over it. -/
def WellFormed (s : State) : Prop :=
  ∀ i o, s.objects i = some o → o.armed = true →
    o.hasCh = true ∧ o.lo.isSome = true ∧ o.built.isSome = true

variable {s t : State} {i : ℕ} {o : LoanedMessage}

theorem holds_eq (ho : s.objects i = some o) : (ledger s).holds i = o.owned := by
  simp [ledger, ho]

theorem holds_none (ho : s.objects i = none) : (ledger s).holds i = none := by
  simp [ledger, ho]

theorem ledger_put (s : State) (i : ℕ) (o : Option LoanedMessage) :
    ledger (s.put i o) =
      { ledger s with holds := Function.update (ledger s).holds i (o.bind LoanedMessage.owned) } := by
  have hholds : (ledger (s.put i o)).holds
      = Function.update (ledger s).holds i (o.bind LoanedMessage.owned) := by
    funext k
    by_cases hk : k = i
    · subst hk
      simp [ledger, State.put]
    · simp [ledger, State.put, hk]
  rw [← hholds]
  rfl

/-- An object that owns the same loan as before changes nothing. -/
theorem ledger_put_of_eq {o : Option LoanedMessage}
    (h : o.bind LoanedMessage.owned = (ledger s).holds i) : ledger (s.put i o) = ledger s := by
  rw [ledger_put, h, Function.update_eq_self]

/-- `discard` ends the loan of an armed object, and nothing else. -/
theorem keeps_discard (hwf : WellFormed s) (ho : s.objects i = some o) :
    Tickets.Keeps (ledger s) (ledger (s.discard i o)) ∧ (ledger (s.discard i o)).holds i = none := by
  have hnone : (ledger (s.discard i o)).holds i = none := by
    rw [State.discard, ledger_put]
    exact Function.update_self ..
  refine ⟨?_, hnone⟩
  cases harmed : o.armed with
  | false =>
      have howned : o.owned = none := by simp [LoanedMessage.owned, harmed]
      have hsame : ledger (s.discard i o) = ledger s := by
        have hnote : s.note ((if o.hasCh then o.owned else none).map .released) = s := by
          simp [howned, State.note]
        rw [State.discard, hnote]
        apply ledger_put_of_eq
        rw [holds_eq ho, howned]
        rfl
      rw [hsame]
      exact .refl _
  | true =>
      obtain ⟨hch, hlo, -⟩ := hwf i o ho harmed
      obtain ⟨lo, hlo⟩ := Option.isSome_iff_exists.mp hlo
      have howned : o.owned = some lo.serial := by simp [LoanedMessage.owned, harmed, hlo]
      have hredeem : ledger (s.discard i o) = (ledger s).redeem i lo.serial := by
        rw [State.discard, ledger_put, hch, if_pos rfl, howned]
        rfl
      rw [hredeem]
      exact Tickets.keeps_redeem ((holds_eq ho).trans howned)

/-- A loan is passed from one object to another that owns none. -/
theorem keeps_adopt {j : ℕ} {rhs : LoanedMessage} (hij : j ≠ i) (hrhs : s.objects j = some rhs)
    (hfree : (ledger s).holds i = none) :
    Tickets.Keeps (ledger s) (ledger ((s.put i (some rhs.adopted)).put j (some rhs.movedFrom))) := by
  have hpass : ledger ((s.put i (some rhs.adopted)).put j (some rhs.movedFrom))
      = (ledger s).pass j i := by
    rw [ledger_put, ledger_put]
    unfold Tickets.pass
    rw [holds_eq hrhs]
    rfl
  rw [hpass]
  exact Tickets.keeps_pass hij hfree

/-- `publish_loan` ends the loan, unless its wait is cut short. -/
theorem publishLoan_end (n : ℕ) (push : Push) :
    (push ≠ .quit → ∃ e, (publishLoan n push).2 = some e ∧ e.serial = n) ∧
      (push = .quit → (publishLoan n push).2 = none) := by
  refine ⟨fun hne => ?_, fun heq => by rw [heq]; rfl⟩
  cases push with
  | quit => exact absurd rfl hne
  | timeOut forced => cases forced <;> exact ⟨_, rfl, rfl⟩
  | _ => exact ⟨_, rfl, rfl⟩

/-! ## What a step does about lost loans -/

theorem wellFormed_put (hwf : WellFormed s) {o : Option LoanedMessage}
    (ho : ∀ o' ∈ o, o'.armed = true →
      o'.hasCh = true ∧ o'.lo.isSome = true ∧ o'.built.isSome = true) : WellFormed (s.put i o) := by
  intro k o' hk harmed
  by_cases hki : k = i
  · subst hki
    have hmem : o = some o' := by simpa [State.put] using hk
    exact ho o' hmem harmed
  · exact hwf k o' (by simpa [State.put, hki] using hk) harmed

theorem wellFormed_put_unarmed (hwf : WellFormed s) (harmed : o.armed = false) :
    WellFormed (s.put i (some o)) := by
  apply wellFormed_put hwf
  intro o' ho' htrue
  cases ho'
  rw [harmed] at htrue
  cases htrue

theorem wellFormed_discard (hwf : WellFormed s) : WellFormed (s.discard i o) := by
  have hnote : WellFormed (s.note ((if o.hasCh then o.owned else none).map .released)) := hwf
  exact wellFormed_put_unarmed hnote rfl

/-- Every step keeps the objects well formed. -/
theorem wellFormed_step {a : Action} (hwf : WellFormed s) (hstep : step s a = some t) :
    WellFormed t := by
  cases a with
  | default i S =>
      simp only [step] at hstep
      split at hstep <;> cases hstep
      exact wellFormed_put_unarmed hwf rfl
  | loan i S budget enabled chunk =>
      simp only [step] at hstep
      split at hstep
      · cases hstep
      split at hstep
      · cases hstep
        exact wellFormed_put_unarmed hwf rfl
      split at hstep <;> cases hstep
      · exact wellFormed_put_unarmed hwf rfl
      · have hnext : WellFormed { s with handedOut := s.handedOut + 1 } := hwf
        apply wellFormed_put hnext
        intro o' ho' harmed
        cases ho'
        unfold LoanedMessage.ofLoan at harmed ⊢
        split at harmed
        · cases harmed
        · rename_i hroom
          rw [if_neg hroom]
          exact ⟨rfl, rfl, rfl⟩
  | build i op =>
      simp only [step] at hstep
      split at hstep
      · rename_i o ho
        split at hstep
        · cases hstep
        rename_i harmed
        obtain ⟨built, hbuilt, hstep⟩ := Option.bind_eq_some_iff.mp hstep
        obtain ⟨built', hop, hstep⟩ := Option.bind_eq_some_iff.mp hstep
        cases hstep
        apply wellFormed_put hwf
        intro o' ho' _
        cases ho'
        obtain ⟨hch, hlo, -⟩ := hwf i o ho (not_not.mp harmed)
        exact ⟨hch, hlo, rfl⟩
      · cases hstep
  | moveConstruct i j =>
      simp only [step] at hstep
      split at hstep
      · rename_i o ho
        split at hstep <;> cases hstep
        refine wellFormed_put_unarmed (wellFormed_put hwf fun o' ho' harmed => ?_) rfl
        cases ho'
        obtain ⟨hch, hlo, hbuilt⟩ := hwf j o ho harmed
        have harmed' : o.armed = true := harmed
        refine ⟨hch, hlo, ?_⟩
        simp only [LoanedMessage.adopted, harmed', if_true, hbuilt]
      · cases hstep
  | moveAssign i j =>
      simp only [step] at hstep
      split at hstep
      · rename_i o rhs ho hrhs
        split at hstep <;> cases hstep
        · exact hwf
        · refine wellFormed_put_unarmed
            (wellFormed_put (wellFormed_discard hwf) fun o' ho' harmed => ?_) rfl
          cases ho'
          obtain ⟨hch, hlo, hbuilt⟩ := hwf j rhs hrhs harmed
          have harmed' : rhs.armed = true := harmed
          refine ⟨hch, hlo, ?_⟩
          simp only [LoanedMessage.adopted, harmed', if_true, hbuilt]
      · cases hstep
  | publish i publisher msgId tm push =>
      simp only [step] at hstep
      split at hstep
      · split at hstep
        · cases hstep
        split at hstep
        · cases hstep
          exact hwf
        split at hstep <;> cases hstep
        · rename_i lo _ _
          have hnote : WellFormed (s.note (publishLoan lo.serial push).2) := hwf
          exact wellFormed_put_unarmed hnote rfl
        · exact hwf
      · cases hstep
  | discard i =>
      simp only [step] at hstep
      split at hstep <;> cases hstep
      exact wellFormed_discard hwf
  | destroy i =>
      simp only [step] at hstep
      split at hstep <;> cases hstep
      exact wellFormed_put (wellFormed_discard hwf) fun _ h => nomatch h
  | tryPublish supported receivers need chunk written tm push =>
      simp only [step] at hstep
      split at hstep
      · cases hstep
      split at hstep
      · cases hstep
        exact hwf
      split at hstep <;> cases hstep
      · exact hwf
      · split <;> exact hwf

/-- The construction over a chunk: the object owns the new loan if its root record has room. -/
theorem keeps_loan {S : Schema} {size : ℕ} {bytes : List UInt8} (hfree : s.objects i = none)
    (hroom : varlenStart S ≤ size) :
    Tickets.Keeps (ledger s)
      (ledger ({ s with handedOut := s.handedOut + 1 }.put i
        (some (.ofLoan S ⟨s.handedOut, size⟩ bytes)))) := by
  have hissue : ledger ({ s with handedOut := s.handedOut + 1 }.put i
      (some (.ofLoan S ⟨s.handedOut, size⟩ bytes))) = (ledger s).issue i := by
    rw [ledger_put, LoanedMessage.ofLoan, if_neg (Nat.not_lt.mpr hroom)]
    rfl
  rw [hissue]
  exact Tickets.keeps_issue (holds_none hfree)

theorem loses_loan {S : Schema} {size : ℕ} {bytes : List UInt8} (hfree : s.objects i = none)
    (hroom : ¬ varlenStart S ≤ size) :
    Tickets.Loses (ledger s)
      (ledger ({ s with handedOut := s.handedOut + 1 }.put i
        (some (.ofLoan S ⟨s.handedOut, size⟩ bytes)))) := by
  have hvoid : ledger ({ s with handedOut := s.handedOut + 1 }.put i
      (some (.ofLoan S ⟨s.handedOut, size⟩ bytes))) = (ledger s).void := by
    rw [LoanedMessage.ofLoan, if_pos (Nat.not_le.mp hroom)]
    apply ledger_put_of_eq
    exact (holds_none hfree).symm
  rw [hvoid]
  exact Tickets.loses_void

/-- The publication of an armed object whose segment is sealed. -/
theorem ledger_publish {lo : LoanT} (ho : s.objects i = some o) (harmed : o.armed = true)
    (hlo : o.lo = some lo) (push : Push) :
    (push ≠ .quit → Tickets.Keeps (ledger s)
      (ledger ((s.note (publishLoan lo.serial push).2).put i (some o.disarm)))) ∧
    (push = .quit → Tickets.Loses (ledger s)
      (ledger ((s.note (publishLoan lo.serial push).2).put i (some o.disarm)))) := by
  have hheld : (ledger s).holds i = some lo.serial := by
    rw [holds_eq ho]
    simp [LoanedMessage.owned, harmed, hlo]
  obtain ⟨hend, hquit⟩ := publishLoan_end lo.serial push
  refine ⟨fun hne => ?_, fun heq => ?_⟩
  · obtain ⟨e, he, hserial⟩ := hend hne
    have hredeem : ledger ((s.note (publishLoan lo.serial push).2).put i (some o.disarm))
        = (ledger s).redeem i lo.serial := by
      rw [ledger_put, he, ← hserial]
      rfl
    rw [hredeem]
    exact Tickets.keeps_redeem hheld
  · have hforget : ledger ((s.note (publishLoan lo.serial push).2).put i (some o.disarm))
        = (ledger s).forget i := by
      rw [ledger_put, hquit heq]
      rfl
    rw [hforget]
    exact Tickets.loses_forget hheld

/-- A step that needs nothing and keeps. -/
theorem of_keeps {L L' : Tickets ℕ} {P : Prop} (hp : P) (h : Tickets.Keeps L L') :
    (P → Tickets.Keeps L L') ∧ (¬ P → Tickets.Loses L L') :=
  ⟨fun _ => h, fun hnot => absurd hp hnot⟩

/-- **One step.**  It loses a loan exactly where it lacks what it needs. -/
theorem step_ledger {a : Action} (hwf : WellFormed s) (hstep : step s a = some t) :
    (Sufficient s a → Tickets.Keeps (ledger s) (ledger t)) ∧
      (¬ Sufficient s a → Tickets.Loses (ledger s) (ledger t)) := by
  cases a with
  | default i S =>
      simp only [step] at hstep
      split at hstep <;> cases hstep
      rename_i hfree
      have hsame : ledger (s.put i (some (.empty S))) = ledger s :=
        ledger_put_of_eq (holds_none (Option.not_isSome_iff_eq_none.mp hfree)).symm
      apply of_keeps trivial
      rw [hsame]
      exact .refl _
  | loan i S budget enabled chunk =>
      simp only [step] at hstep
      split at hstep
      · cases hstep
      rename_i hready
      rw [not_or, not_not] at hready
      have hfree := Option.not_isSome_iff_eq_none.mp hready.1
      have hempty : ledger (s.put i (some (.empty S))) = ledger s :=
        ledger_put_of_eq (holds_none hfree).symm
      split at hstep
      · rename_i hoff
        cases hstep
        apply of_keeps (fun hon => absurd hon hoff)
        rw [hempty]
        exact .refl _
      rename_i hon
      split at hstep <;> cases hstep
      · apply of_keeps (fun _ => nofun)
        rw [hempty]
        exact .refl _
      · refine ⟨fun hroom => keeps_loan hfree (hroom (not_not.mp hon) rfl), fun hsmall => ?_⟩
        exact loses_loan hfree fun hroom => hsmall fun _ _ => hroom
  | build i op =>
      simp only [step] at hstep
      split at hstep
      · rename_i o ho
        split at hstep
        · cases hstep
        obtain ⟨built, hbuilt, hstep⟩ := Option.bind_eq_some_iff.mp hstep
        obtain ⟨built', hop, hstep⟩ := Option.bind_eq_some_iff.mp hstep
        cases hstep
        have hsame : ledger (s.put i (some { o with built := some built' })) = ledger s :=
          ledger_put_of_eq (holds_eq ho).symm
        apply of_keeps trivial
        rw [hsame]
        exact .refl _
      · cases hstep
  | moveConstruct i j =>
      simp only [step] at hstep
      split at hstep
      · rename_i o ho
        split at hstep <;> cases hstep
        rename_i hfree
        have hnone := Option.not_isSome_iff_eq_none.mp hfree
        have hij : j ≠ i := by
          rintro rfl
          rw [ho] at hnone
          cases hnone
        exact of_keeps trivial (keeps_adopt hij ho (holds_none hnone))
      · cases hstep
  | moveAssign i j =>
      simp only [step] at hstep
      split at hstep
      · rename_i o rhs ho hrhs
        split at hstep <;> cases hstep
        · exact of_keeps trivial (.refl _)
        · rename_i hij
          obtain ⟨hkeeps, hfree⟩ := keeps_discard hwf ho
          have hrhs' : (s.discard i o).objects j = some rhs := by
            simp [State.discard, State.put, State.note, Ne.symm hij, hrhs]
          exact of_keeps trivial (hkeeps.trans (keeps_adopt (Ne.symm hij) hrhs' hfree))
      · cases hstep
  | publish i publisher msgId tm push =>
      simp only [step] at hstep
      split at hstep
      · rename_i o ho
        split at hstep
        · cases hstep
        split at hstep
        · rename_i hnot
          cases hstep
          refine of_keeps (fun _ hpub o' ho' harmed => ?_) (.refl _)
          obtain rfl : o = o' := Option.some.inj (ho.symm.trans ho')
          exact (hnot.elim (fun h => h harmed) fun h => h hpub).elim
        rename_i hgo
        rw [not_or, not_not, not_not] at hgo
        split at hstep <;> cases hstep
        · rename_i seg lo hseal hlo
          obtain ⟨hkeeps, hloses⟩ := ledger_publish ho hgo.1 hlo push
          by_cases hquit : push = .quit
          · refine ⟨fun hsuff => ?_, fun _ => hloses hquit⟩
            have hnone := hsuff hquit hgo.2 o ho hgo.1
            rw [hseal] at hnone
            cases hnone
          · exact of_keeps (fun h => absurd h hquit) (hkeeps hquit)
        · rename_i hnot
          refine of_keeps (fun _ _ o' ho' harmed => ?_) (.refl _)
          obtain rfl : o = o' := Option.some.inj (ho.symm.trans ho')
          obtain ⟨lo, hlo⟩ := Option.isSome_iff_exists.mp (hwf i o ho harmed).2.1
          by_contra hne
          obtain ⟨seg, hseg⟩ := Option.ne_none_iff_exists'.mp hne
          exact hnot seg lo hseg hlo
      · cases hstep
  | discard i =>
      simp only [step] at hstep
      split at hstep <;> cases hstep
      rename_i o ho
      exact of_keeps trivial (keeps_discard hwf ho).1
  | destroy i =>
      simp only [step] at hstep
      split at hstep <;> cases hstep
      rename_i o ho
      obtain ⟨hkeeps, hfree⟩ := keeps_discard hwf ho
      have hsame : ledger ((s.discard i o).put i none) = ledger (s.discard i o) :=
        ledger_put_of_eq hfree.symm
      apply of_keeps trivial
      rw [hsame]
      exact hkeeps
  | tryPublish supported receivers need chunk written tm push =>
      simp only [step] at hstep
      split at hstep
      · cases hstep
      split at hstep
      · rename_i hnot
        cases hstep
        refine of_keeps (fun _ hsupp hrecv hneed => ?_) (.refl _)
        rcases hnot with h | h | h
        · exact absurd hsupp h
        · exact absurd hrecv h
        · exact absurd h hneed
      rename_i hgo
      split at hstep <;> cases hstep
      · exact of_keeps (fun _ _ _ _ h => nomatch h) (.refl _)
      · have hstamp : ∀ e : LoanEnd, e.serial = s.handedOut →
            Tickets.Keeps (ledger s)
              (ledger ({ s with handedOut := s.handedOut + 1 }.note (some e))) := by
          intro e he
          have hledger : ledger ({ s with handedOut := s.handedOut + 1 }.note (some e))
              = (ledger s).stamp := by
            simp [ledger, State.note, Tickets.stamp, he]
          rw [hledger]
          exact Tickets.keeps_stamp
        cases written with
        | false =>
            exact of_keeps (fun _ _ _ _ _ => rfl) (hstamp (.released s.handedOut) rfl)
        | true =>
            obtain ⟨hend, hnone⟩ := publishLoan_end s.handedOut push
            by_cases hquit : push = .quit
            · refine ⟨fun hsuff => ?_, fun _ => ?_⟩
              · rw [not_or, not_or, not_not, not_not] at hgo
                cases hsuff hquit hgo.1 hgo.2.1 hgo.2.2 rfl
              · rw [if_pos rfl, hnone hquit]
                exact Tickets.loses_void
            · obtain ⟨e, he, hserial⟩ := hend hquit
              refine of_keeps (fun h => absurd h hquit) ?_
              rw [if_pos rfl, he]
              exact hstamp e hserial

/-! ## Runs -/

/-- What every run keeps. -/
structure Inv (s : State) : Prop where
  wellFormed : WellFormed s
  sound : (ledger s).Sound

theorem inv_init : Inv State.init where
  wellFormed := fun _ _ h => nomatch h
  sound := ⟨(fun h => nomatch h), (fun h => nomatch h), (fun h => nomatch h), List.nodup_nil⟩

theorem inv_step {a : Action} (h : Inv s) (hstep : step s a = some t) : Inv t := by
  refine ⟨wellFormed_step h.wellFormed hstep, ?_⟩
  obtain ⟨hkeeps, hloses⟩ := step_ledger h.wellFormed hstep
  by_cases hsuff : Sufficient s a
  · exact (hkeeps hsuff h.sound).1
  · exact (hloses hsuff h.sound).1

/-- Some loan has been lost. -/
def Leaky (s : State) : Prop :=
  Inv s ∧ (ledger s).Lost

/-- A lost loan stays lost. -/
theorem lost_step {a : Action} (h : Inv s) (hstep : step s a = some t)
    (hlost : (ledger s).Lost ∨ ¬ Sufficient s a) : (ledger t).Lost := by
  obtain ⟨hkeeps, hloses⟩ := step_ledger h.wellFormed hstep
  by_cases hsuff : Sufficient s a
  · exact (hkeeps hsuff h.sound).2.mpr (hlost.resolve_right (not_not_intro hsuff))
  · exact (hloses hsuff h.sound).2

/-- **Every loan is ended exactly once** where all objects are destroyed, if and only if in no
step of the run an object was built over a chunk without room for its root record, and no
push was cut short. -/
theorem ended_once_iff {actions : List Action} {s : State} (hrun : machine.run actions = some s)
    (hall : AllDestroyed s) : EndedOnce s ↔ machine.Guarded Sufficient actions := by
  have hinv : Inv s :=
    Machine.invariant (M := machine) inv_init (fun _ _ _ h hstep => inv_step h hstep) hrun
  have hnone : ∀ i, (ledger s).holds i = none := fun i => holds_none (hall i)
  have honce : EndedOnce s ↔ ¬ (ledger s).Lost := Tickets.redeemed_once_iff hinv.sound hnone
  rw [honce]
  constructor
  · intro hclean
    have hsafe : ¬ Leaky s := fun h => hclean h.2
    refine Machine.guardedFrom_of_unmarked ?_ ?_ ?_ inv_init hrun hsafe
    · exact fun _ _ _ h hstep => inv_step h hstep
    · exact fun _ _ _ h hstep hnot => ⟨inv_step h hstep, lost_step h hstep (Or.inr hnot)⟩
    · exact fun _ _ _ h hstep => ⟨inv_step h.1 hstep, lost_step h.1 hstep (Or.inl h.2)⟩
  · intro hguarded
    have hclean : Inv s ∧ ¬ (ledger s).Lost := by
      apply Machine.invariant_of_guarded _ _ hguarded hrun
      · exact ⟨inv_init, fun ⟨_, hn, _⟩ => absurd hn (Nat.not_lt_zero _)⟩
      · intro s a t h hsuff hstep
        refine ⟨inv_step h.1 hstep, fun hlost => h.2 ?_⟩
        exact (((step_ledger h.1.wellFormed hstep).1 hsuff) h.1.sound).2.mp hlost
    exact hclean.2

/-! ## An object that is lent and destroyed -/

/-- An object of a schema, lent with a budget, and destroyed. -/
def loanDestroyed (S : Schema) (varlenBudget : ℕ) (chunk : List UInt8) : List Action :=
  [.loan 0 S varlenBudget true (some chunk), .destroy 0]

/-- The chunk is given back if the root record of the object has room in it. -/
theorem run_loanDestroyed {S : Schema} {varlenBudget : ℕ} {chunk : List UInt8}
    (hlen : chunk.length = Channel.loanCapacity (loanSize S varlenBudget)) :
    ∃ s, machine.run (loanDestroyed S varlenBudget chunk) = some s ∧ AllDestroyed s ∧
      s.handedOut = 1 ∧
      s.log = if varlenStart S ≤ chunk.length then [.released 0] else [] := by
  let lo : LoanT := { serial := 0, size := chunk.length }
  let first : State := { State.init with handedOut := 1 }.put 0 (some (.ofLoan S lo chunk))
  have hloan : machine.step machine.init (.loan 0 S varlenBudget true (some chunk)) = some first := by
    simp [machine, step, State.init, State.lends, hlen, first, lo]
  have hdestroy : machine.step first (.destroy 0)
      = some ((first.discard 0 (.ofLoan S lo chunk)).put 0 none) := by
    simp [machine, step, first, State.put]
  refine ⟨(first.discard 0 (.ofLoan S lo chunk)).put 0 none, ?_, fun i => ?_, rfl, ?_⟩
  · unfold Machine.run loanDestroyed
    rw [Machine.runFrom_cons hloan, Machine.runFrom_cons hdestroy, Machine.runFrom_nil]
  · simp [State.put, State.discard, State.note, State.init, first]
  · by_cases hroom : varlenStart S ≤ chunk.length
    · have hover : LoanedMessage.ofLoan S lo chunk =
          { S := S, hasCh := true, lo := some lo, built := some (Flat.Loan.start S chunk),
            armed := true } := if_neg (Nat.not_lt.mpr hroom)
      rw [if_pos hroom, hover]
      rfl
    · have hover : LoanedMessage.ofLoan S lo chunk =
          { S := S, hasCh := true, lo := some lo, built := none, armed := false } :=
        if_pos (Nat.not_le.mp hroom)
      rw [if_neg hroom, hover]
      rfl

/-- A message with one byte. -/
def byteRecord : Schema :=
  .field [120] (.scalar .uint8) .nil

/-- A message with an array of 1024 bytes. -/
def bigRecord : Schema :=
  .field [100] (.scalars .uint8 (some 1024)) .nil

theorem ended_once_iff_byteRecord :
    ∃ s, machine.run (loanDestroyed byteRecord 0 (List.replicate 1024 0)) = some s ∧
      AllDestroyed s ∧
      (EndedOnce s ↔
        machine.Guarded Sufficient (loanDestroyed byteRecord 0 (List.replicate 1024 0))) := by
  have hlen : (List.replicate 1024 (0 : UInt8)).length
      = Channel.loanCapacity (loanSize byteRecord 0) := List.length_replicate.trans (by decide)
  obtain ⟨s, hrun, hall, -, -⟩ := run_loanDestroyed hlen
  exact ⟨s, hrun, hall, ended_once_iff hrun hall⟩

/-- **A loan that does not end.**  The root record takes 1056 bytes, and with this budget the
sum of `loan_size` is 0, so that the chunk has 1024. -/
theorem leaked :
    ∃ s, machine.run (loanDestroyed bigRecord (2 ^ 32 - 1056) (List.replicate 1024 0)) = some s ∧
      AllDestroyed s ∧ ¬ EndedOnce s := by
  have hlen : (List.replicate 1024 (0 : UInt8)).length
      = Channel.loanCapacity (loanSize bigRecord (2 ^ 32 - 1056)) :=
    List.length_replicate.trans (by decide)
  obtain ⟨s, hrun, hall, hnext, hlog⟩ := run_loanDestroyed hlen
  have hsmall : ¬ varlenStart bigRecord ≤ (List.replicate 1024 (0 : UInt8)).length := by
    rw [List.length_replicate]
    decide
  refine ⟨s, hrun, hall, fun honce => ?_⟩
  have hend := honce 0 (hnext ▸ Nat.zero_lt_one)
  rw [hlog, if_neg hsmall] at hend
  cases hend

end DzIpc.PubSub.Loans
