import DzIpc.Common.CircularQueue
import DzIpc.Library.Machine

/-!
# Waiting at a `CircularQueue`

Producers enqueue and then notify without holding `wait_mtx_`; a consumer that finds the queue
empty takes the mutex, evaluates its predicate and blocks.  Every access to the queue, the
mutex and the condition variable is a step, and any party may take the next one; the queue
itself is the bounded list it behaves like.  A blocked consumer may wake for no reason, and
one with a time-out may give up.

* `Inv` is the invariant of careful runs: while a consumer waits, or is about to, an element in
  the queue has a producer that is still to notify.
* `emptyQueue_of_guarded` is the result, and `lost_wakeup` a run that is not careful.
-/

namespace DzIpc.Common.QueueWait

variable {α : Type}

/-! ## The parties -/

/-- Where a consumer is in `pop`; the flag tells a call without a time-out. -/
inductive ConsumerPc where
  | idle
  /-- About to call `try_pop`. -/
  | trying (forever : Bool)
  /-- About to take the mutex. -/
  | locking (forever : Bool)
  /-- Holding the mutex, about to evaluate the predicate. -/
  | evaluating (forever : Bool)
  /-- Holding the mutex, about to release it and block. -/
  | parking (forever : Bool)
  | blocked (forever : Bool)
  /-- Out of time, about to take the mutex again. -/
  | expired
  /-- Out of time, holding the mutex, about to evaluate the predicate. -/
  | lastLook
  deriving DecidableEq, Repr

/-- The queue, its mutex with the holder, the consumers blocked at the condition variable, the
consumers, and the producers that have enqueued and not yet notified. -/
structure State (α : Type) where
  queue : List α
  mutex : Option ℕ
  waiting : List ℕ
  consumers : ℕ → ConsumerPc
  notifying : List ℕ

inductive Action (α : Type) where
  /-- `push_owned` up to the element being stored. -/
  | enqueue (p : ℕ) (msg : α)
  /-- `notify_one`, which wakes one of the blocked consumers. -/
  | notify (p : ℕ) (i : ℕ)
  | pop (c : ℕ) (forever : Bool)
  | consumer (c : ℕ)
  | spurious (c : ℕ)
  | timeout (c : ℕ)
  deriving DecidableEq

def init : State α :=
  { queue := [], mutex := none, waiting := [], consumers := fun _ => .idle
    notifying := [] }

/-- Put a consumer at another place. -/
def State.set (s : State α) (c : ℕ) (pc : ConsumerPc) : State α :=
  { s with consumers := Function.update s.consumers c pc }

/-- Take a consumer out of the wait. -/
def State.wake (s : State α) (c : ℕ) (pc : ConsumerPc) : State α :=
  { s.set c pc with waiting := s.waiting.erase c }

/-- The next step of a consumer. -/
def consumerStep (s : State α) (c : ℕ) : Option (State α) :=
  match s.consumers c with
  | .idle | .blocked _ => none
  | .trying forever =>
      match s.queue with
      | [] => some (s.set c (.locking forever))
      | _ :: rest => some { s.set c .idle with queue := rest }
  | .locking forever =>
      if s.mutex = none then some { s.set c (.evaluating forever) with mutex := some c } else none
  | .evaluating forever =>
      if s.queue = [] then some (s.set c (.parking forever))
      else some { s.set c (.trying forever) with mutex := none }
  | .parking forever =>
      some { s.set c (.blocked forever) with mutex := none, waiting := s.waiting ++ [c] }
  | .expired => if s.mutex = none then some { s.set c .lastLook with mutex := some c } else none
  | .lastLook =>
      if s.queue = [] then some { s.set c .idle with mutex := none }
      else some { s.set c (.trying false) with mutex := none }

def step (capacity : ℕ) (s : State α) : Action α → Option (State α)
  | .enqueue p msg =>
      if p ∈ s.notifying then none
      else some { s with queue := Fifo.push capacity s.queue msg, notifying := p :: s.notifying }
  | .notify p i =>
      if p ∈ s.notifying then
        let s := { s with notifying := s.notifying.erase p }
        match s.waiting[i]? with
        | some c =>
            -- a woken consumer takes the mutex again and evaluates the predicate
            match s.consumers c with
            | .blocked forever => some (s.wake c (.locking forever))
            | _ => none
        | none => if s.waiting = [] then some s else none
      else none
  | .pop c forever => if s.consumers c = .idle then some (s.set c (.trying forever)) else none
  | .consumer c => consumerStep s c
  | .spurious c =>
      match s.consumers c with
      | .blocked forever => some (s.wake c (.locking forever))
      | _ => none
  | .timeout c =>
      match s.consumers c with
      | .blocked false => some (s.wake c .expired)
      | _ => none

/-- A queue of the given capacity with its producers and consumers. -/
def machine (α : Type) (capacity : ℕ) : Machine (State α) (Action α) :=
  { init := init, step := step capacity }

/-! ## The claim and the condition -/

/-- If a consumer is blocked in a `pop` without a time-out and no producer is about to notify,
the queue is empty. -/
def NoLostWakeup (s : State α) : Prop :=
  (∃ c, s.consumers c = .blocked true) → s.notifying = [] → s.queue = []

/-- A consumer has found the queue empty and is about to block. -/
def State.AboutToBlock (s : State α) : Prop :=
  match s.mutex with
  | some c => s.consumers c = .parking true ∨ s.consumers c = .parking false
  | none => False

instance (s : State α) : Decidable s.AboutToBlock := by
  unfold State.AboutToBlock
  exact match s.mutex with
    | some c => inferInstanceAs (Decidable (_ ∨ _))
    | none => inferInstanceAs (Decidable False)

/-- A notification finds the queue empty again, or it finds nobody about to block and no more
than one consumer blocked. -/
def Careful (s : State α) : Action α → Prop
  | .notify _ _ => s.queue = [] ∨ ¬ s.AboutToBlock ∧ s.waiting.length ≤ 1
  | _ => True

instance : ∀ (s : State α) (a : Action α), Decidable (Careful s a)
  | _, .notify _ _ => inferInstanceAs (Decidable (_ ∨ _ ∧ _))
  | _, .enqueue _ _ | _, .pop _ _ | _, .consumer _ | _, .spurious _ | _, .timeout _ =>
      inferInstanceAs (Decidable True)

/-- Blocked, or about to be. -/
def ConsumerPc.waits : ConsumerPc → Bool
  | .blocked _ | .parking _ => true
  | _ => false

def ConsumerPc.isBlocked : ConsumerPc → Bool
  | .blocked _ => true
  | _ => false

/-- Holding the mutex. -/
def ConsumerPc.holds : ConsumerPc → Bool
  | .evaluating _ | .parking _ | .lastLook => true
  | _ => false

/-- The mutex and the wait agree with the places of the consumers. -/
structure Orderly (s : State α) : Prop where
  holder : ∀ c, (s.consumers c).holds = true → s.mutex = some c
  waiting : ∀ c, c ∈ s.waiting ↔ (s.consumers c).isBlocked = true
  nodup : s.waiting.Nodup

/-- The invariant of careful runs. -/
structure Inv (s : State α) : Prop extends Orderly s where
  notified : s.queue ≠ [] → (∃ c, (s.consumers c).waits = true) → s.notifying ≠ []

/-! ## Steps -/

theorem set_consumers (s : State α) (c d : ℕ) (pc : ConsumerPc) :
    (s.set c pc).consumers d = if d = c then pc else s.consumers d := by
  simp [State.set, Function.update_apply]

theorem wake_consumers (s : State α) (c d : ℕ) (pc : ConsumerPc) :
    (s.wake c pc).consumers d = if d = c then pc else s.consumers d :=
  set_consumers s c d pc

section

variable {s t : State α} {c : ℕ} {pc : ConsumerPc}

/-- A consumer that moves on without having been blocked; it waits only where the queue is
empty. -/
theorem Inv.move (h : Inv s) (hcons : t.consumers = (s.set c pc).consumers)
    (hwaiting : t.waiting = s.waiting) (hnotifying : t.notifying = s.notifying)
    (hqueue : t.queue ≠ [] → s.queue ≠ [])
    (hmutex : ∀ d, d ≠ c → (s.consumers d).holds = true → t.mutex = some d)
    (hholds : pc.holds = true → t.mutex = some c)
    (hblocked : (s.consumers c).isBlocked = false) (hblocked' : pc.isBlocked = false)
    (hwaits : pc.waits = true → t.queue = []) : Inv t := by
  have hplace : ∀ d, t.consumers d = if d = c then pc else s.consumers d := fun d => by
    rw [hcons, set_consumers]
  refine { toOrderly := ⟨?holder, ?waiting, ?nodup⟩, notified := ?notified }
  case holder =>
    intro d hd
    rw [hplace] at hd
    split at hd
    · rename_i hdc
      rw [hdc]
      exact hholds hd
    · exact hmutex d ‹_› hd
  case waiting =>
    intro d
    rw [hwaiting, h.waiting, hplace]
    split
    · rename_i hdc
      rw [hdc, hblocked, hblocked']
    · rfl
  case nodup =>
    rw [hwaiting]
    exact h.nodup
  case notified =>
    rintro hne ⟨d, hd⟩
    rw [hplace] at hd
    rw [hnotifying]
    split at hd
    · exact absurd (hwaits hd) hne
    · exact h.notified (hqueue hne) ⟨d, hd⟩

/-- A consumer that holds the mutex is alone with it. -/
theorem Inv.alone (h : Inv s) (hc : (s.consumers c).holds = true) {d : ℕ} (hne : d ≠ c)
    (hd : (s.consumers d).holds = true) : False := by
  have hmutex := h.holder d hd
  rw [h.holder c hc] at hmutex
  exact hne (Option.some.inj hmutex).symm

/-- A consumer that wakes. -/
theorem Orderly.wake (h : Orderly s) (hholds : pc.holds = false) (hblocked : pc.isBlocked = false) :
    Orderly (s.wake c pc) := by
  have hplace := fun d => wake_consumers s c d pc
  constructor
  case holder =>
    intro d hd
    rw [hplace] at hd
    split at hd
    · rw [hholds] at hd
      cases hd
    · exact h.holder d hd
  case waiting =>
    intro d
    change d ∈ s.waiting.erase c ↔ _
    rw [h.nodup.mem_erase_iff, h.waiting, hplace]
    split
    · rename_i hdc
      simp [hdc, hblocked]
    · rename_i hdc
      simp [hdc]
  case nodup => exact h.nodup.erase c

theorem Inv.wake (h : Inv s) (hholds : pc.holds = false) (hwaits : pc.waits = false)
    (hblocked : pc.isBlocked = false) : Inv (s.wake c pc) where
  toOrderly := h.toOrderly.wake hholds hblocked
  notified := by
    rintro hne ⟨d, hd⟩
    rw [wake_consumers] at hd
    split at hd
    · rw [hwaits] at hd
      cases hd
    · exact h.notified hne ⟨d, hd⟩

/-- A consumer that has found the queue empty blocks and releases the mutex. -/
theorem Inv.park (h : Inv s) {forever : Bool} (hpc : s.consumers c = .parking forever) :
    Inv { s.set c (.blocked forever) with mutex := none, waiting := s.waiting ++ [c] } := by
  have hplace : ∀ d, (s.set c (.blocked forever)).consumers d
      = if d = c then .blocked forever else s.consumers d := fun d => set_consumers s c d _
  have hnew : c ∉ s.waiting := by
    rw [h.waiting, hpc]
    exact Bool.false_ne_true
  refine { toOrderly := ⟨?holder, ?waiting, ?nodup⟩, notified := ?notified }
  case holder =>
    intro d hd
    rw [hplace] at hd
    split at hd
    · cases hd
    · exact absurd (h.alone (by rw [hpc]; rfl) ‹_› hd) id
  case waiting =>
    intro d
    change d ∈ s.waiting ++ [c] ↔ _
    rw [List.mem_append, h.waiting, List.mem_singleton, hplace]
    split
    · rename_i hdc
      simp [hdc, ConsumerPc.isBlocked]
    · rename_i hdc
      simp [hdc]
  case nodup =>
    rw [List.nodup_append]
    exact ⟨h.nodup, List.pairwise_singleton _ c, fun a ha b hb => by
      rw [List.mem_singleton] at hb
      rintro rfl
      exact hnew (hb ▸ ha)⟩
  case notified =>
    rintro hne ⟨d, hd⟩
    rw [hplace] at hd
    split at hd
    · exact h.notified hne ⟨c, by rw [hpc]; rfl⟩
    · exact h.notified hne ⟨d, hd⟩

/-- One consumer's step. -/
theorem Inv.consumerStep (h : Inv s) (hstep : consumerStep s c = some t) : Inv t := by
  unfold QueueWait.consumerStep at hstep
  split at hstep
  case h_1 | h_2 => cases hstep
  case h_3 forever hpc =>
    have hblocked : (s.consumers c).isBlocked = false := by rw [hpc]; rfl
    split at hstep
    · cases hstep
      exact h.move rfl rfl rfl id (fun d _ => h.holder d) nofun hblocked rfl nofun
    · rename_i hqueue
      cases hstep
      exact h.move rfl rfl rfl (fun _ => by rw [hqueue]; exact List.cons_ne_nil _ _)
        (fun d _ => h.holder d) nofun hblocked rfl nofun
  case h_4 forever hpc =>
    split at hstep
    · rename_i hfree
      cases hstep
      refine h.move rfl rfl rfl id (fun d _ hd => ?_) (fun _ => rfl) (by rw [hpc]; rfl) rfl nofun
      have hmutex := h.holder d hd
      rw [hfree] at hmutex
      cases hmutex
    · cases hstep
  case h_5 forever hpc =>
    have hholds : (s.consumers c).holds = true := by rw [hpc]; rfl
    split at hstep
    · rename_i hqueue
      cases hstep
      exact h.move rfl rfl rfl id (fun d _ => h.holder d) (fun _ => h.holder c hholds)
        (by rw [hpc]; rfl) rfl (fun _ => hqueue)
    · cases hstep
      exact h.move rfl rfl rfl id (fun d hne hd => absurd (h.alone hholds hne hd) id) nofun
        (by rw [hpc]; rfl) rfl nofun
  case h_6 forever hpc =>
    cases hstep
    exact h.park hpc
  case h_7 hpc =>
    split at hstep
    · rename_i hfree
      cases hstep
      refine h.move rfl rfl rfl id (fun d _ hd => ?_) (fun _ => rfl) (by rw [hpc]; rfl) rfl nofun
      have hmutex := h.holder d hd
      rw [hfree] at hmutex
      cases hmutex
    · cases hstep
  case h_8 hpc =>
    have hholds : (s.consumers c).holds = true := by rw [hpc]; rfl
    split at hstep
    all_goals
      cases hstep
      exact h.move rfl rfl rfl id (fun d hne hd => absurd (h.alone hholds hne hd) id) nofun
        (by rw [hpc]; rfl) rfl nofun

/-- A notification that finds nobody about to block, and one consumer blocked at most. -/
theorem Inv.notify (h : Inv s) {p i : ℕ} (hcareful : Careful s (.notify p i))
    {capacity : ℕ} (hstep : step capacity s (.notify p i) = some t) : Inv t := by
  have hwaits : ∀ d, (s.consumers d).waits = true →
      (s.consumers d).isBlocked = true ∨ s.AboutToBlock := by
    intro d hd
    have hholder := h.holder d
    cases hpc : s.consumers d with
    | blocked forever => exact .inl rfl
    | parking forever =>
        right
        rw [hpc] at hholder
        rw [State.AboutToBlock, hholder rfl]
        cases forever with
        | true => exact .inl hpc
        | false => exact .inr hpc
    | _ =>
        rw [hpc] at hd
        cases hd
  simp only [QueueWait.step] at hstep
  split at hstep
  case isFalse => cases hstep
  -- the consumers and the wait do not depend on who is to notify
  have horderly : Orderly { s with notifying := s.notifying.erase p } :=
    { holder := h.holder, waiting := h.waiting, nodup := h.nodup }
  split at hstep
  · rename_i c hc
    split at hstep
    · rename_i forever hpc
      cases hstep
      refine { toOrderly := horderly.wake rfl rfl, notified := ?_ }
      rintro hne ⟨d, hd⟩
      rcases hcareful with hempty | ⟨hnone, hlen⟩
      · exact absurd hempty hne
      · rw [wake_consumers] at hd
        split at hd
        · cases hd
        · rename_i hdc
          rcases hwaits d hd with hblocked | habout
          · have hmem := (h.waiting d).mpr hblocked
            obtain ⟨hi, hci⟩ := List.getElem?_eq_some_iff.mp hc
            obtain ⟨j, hj, hdj⟩ := List.getElem_of_mem hmem
            obtain rfl : i = j := by omega
            exact absurd (hdj.symm.trans hci) hdc
          · exact absurd habout hnone
    · cases hstep
  · split at hstep
    · rename_i hnobody
      cases hstep
      refine { toOrderly := horderly, notified := ?_ }
      rintro hne ⟨d, hd⟩
      rcases hcareful with hempty | ⟨hnone, -⟩
      · exact absurd hempty hne
      · rcases hwaits d hd with hblocked | habout
        · have hmem := (h.waiting d).mpr hblocked
          rw [hnobody] at hmem
          exact absurd hmem List.not_mem_nil
        · exact absurd habout hnone
    · cases hstep

/-- The step: a careful step keeps the invariant. -/
theorem Inv.step {capacity : ℕ} {a : Action α} (h : Inv s) (hcareful : Careful s a)
    (hstep : step capacity s a = some t) : Inv t := by
  cases a with
  | enqueue p msg =>
      simp only [QueueWait.step] at hstep
      split at hstep
      · cases hstep
      · cases hstep
        exact { holder := h.holder, waiting := h.waiting, nodup := h.nodup
                notified := fun _ _ => List.cons_ne_nil _ _ }
  | notify p i => exact h.notify hcareful hstep
  | pop c forever =>
      simp only [QueueWait.step] at hstep
      split at hstep
      · rename_i hpc
        cases hstep
        exact h.move rfl rfl rfl id (fun d _ => h.holder d) nofun (by rw [hpc]; rfl) rfl nofun
      · cases hstep
  | consumer c => exact h.consumerStep hstep
  | spurious c =>
      simp only [QueueWait.step] at hstep
      split at hstep
      · rename_i hpc
        cases hstep
        exact h.wake rfl rfl rfl
      · cases hstep
  | timeout c =>
      simp only [QueueWait.step] at hstep
      split at hstep
      · rename_i hpc
        cases hstep
        exact h.wake rfl rfl rfl
      · cases hstep

end

theorem inv_init : Inv (init : State α) where
  holder := nofun
  waiting := fun _ => ⟨nofun, nofun⟩
  nodup := List.nodup_nil
  notified := fun hne => absurd rfl hne

/-- **No wake-up is lost in a careful run.** -/
theorem emptyQueue_of_guarded (α : Type) (capacity : ℕ) {actions : List (Action α)}
    {s : State α} (hguarded : (machine α capacity).Guarded Careful actions)
    (hrun : (machine α capacity).run actions = some s) : NoLostWakeup s := by
  have h : Inv s := Machine.invariant_of_guarded inv_init
    (fun _ _ _ hinv hcareful hstep => hinv.step hcareful hstep) hguarded hrun
  rintro ⟨c, hc⟩ hidle
  by_contra hne
  exact h.notified hne ⟨c, by rw [hc]; rfl⟩ hidle

/-- The push is notified before the consumer evaluates its predicate. -/
def keptWakeup : List (Action ℕ) :=
  [.pop 0 true, .consumer 0, .consumer 0, .enqueue 0 7, .notify 0 0, .consumer 0, .consumer 0]

theorem noLostWakeup_kept : ∃ s, (machine ℕ 4).Guarded Careful keptWakeup ∧
    (machine ℕ 4).run keptWakeup = some s ∧ NoLostWakeup s := by
  have hguarded : (machine ℕ 4).Guarded Careful keptWakeup := by decide +kernel
  obtain ⟨s, hrun, -⟩ : ∃ s, (machine ℕ 4).run keptWakeup = some s ∧ s.queue = [] :=
    Machine.exists_of_any (by decide +kernel)
  exact ⟨s, hguarded, hrun, emptyQueue_of_guarded ℕ 4 hguarded hrun⟩

/-- The push is notified between the predicate and the block. -/
def lostWakeup : List (Action ℕ) :=
  [.pop 0 true, .consumer 0, .consumer 0, .consumer 0, .enqueue 0 7, .notify 0 0, .consumer 0]

/-- **A wake-up lost.**  The consumer stays blocked with an element in the queue. -/
theorem lost_wakeup : ∃ s, (machine ℕ 4).run lostWakeup = some s ∧ ¬ NoLostWakeup s := by
  obtain ⟨s, hrun, hblocked, hidle, hqueue⟩ : ∃ s, (machine ℕ 4).run lostWakeup = some s ∧
      s.consumers 0 = .blocked true ∧ s.notifying = [] ∧ s.queue = [7] :=
    Machine.exists_of_any (by decide +kernel)
  refine ⟨s, hrun, fun hnone => ?_⟩
  rw [hnone ⟨0, hblocked⟩ hidle] at hqueue
  cases hqueue

end DzIpc.Common.QueueWait
