import DzIpc.Library.Machine
import Mathlib.Data.List.Basic

/-!
# Bounded FIFO queues

What a bounded queue that many parties share is for: an element is appended while there is room,
and a party takes the oldest one.  The state keeps what was taken and by whom, so that the whole
history can be read off it.

* `enqueued_eq` is the FIFO law of every run: what was put in is what was taken, in that order,
  followed by what is queued.
* `given` is the part of it that one party took.
-/

namespace DzIpc.BoundedFifo

variable {Taker α : Type*}

/-- What was taken and by whom, the oldest first, and what is queued. -/
structure State (Taker α : Type*) where
  taken : List (Taker × α)
  queue : List α

/-- An element is put in, or a party takes one. -/
inductive Event (Taker α : Type*) where
  | enqueue (v : α)
  | dequeue (t : Taker)

/-- The elements that were ever put in. -/
def State.log (s : State Taker α) : List α :=
  s.taken.map Prod.snd ++ s.queue

def step (capacity : ℕ) (s : State Taker α) : Event Taker α → Option (State Taker α)
  | .enqueue v => if s.queue.length < capacity then some { s with queue := s.queue ++ [v] } else none
  | .dequeue t =>
      match s.queue with
      | [] => none
      | v :: rest => some { taken := s.taken ++ [(t, v)], queue := rest }

/-- The empty queue of a given capacity. -/
def machine (Taker α : Type*) (capacity : ℕ) : Machine (State Taker α) (Event Taker α) :=
  { init := ⟨[], []⟩, step := step capacity }

/-- What one party took, the oldest first. -/
def State.given [DecidableEq Taker] (s : State Taker α) (t : Taker) : List α :=
  (s.taken.filter fun x => x.1 = t).map Prod.snd

/-- The element that an event puts in. -/
def Event.put : Event Taker α → Option α
  | .enqueue v => some v
  | .dequeue _ => none

/-! ## Steps -/

theorem length_log (s : State Taker α) : s.log.length = s.taken.length + s.queue.length := by
  simp [State.log]

/-- An element is put in while there is room. -/
theorem exists_enqueue {capacity : ℕ} {s : State Taker α} (v : α)
    (hroom : s.log.length < s.taken.length + capacity) :
    ∃ s', (machine Taker α capacity).step s (.enqueue v) = some s' ∧ s'.log = s.log ++ [v] ∧
      s'.taken = s.taken := by
  rw [length_log] at hroom
  exact ⟨{ s with queue := s.queue ++ [v] }, if_pos (by omega), by simp [State.log], rfl⟩

/-- The oldest element is the one behind those that were taken. -/
theorem exists_dequeue {capacity : ℕ} {s : State Taker α} (t : Taker)
    (hsome : s.taken.length < s.log.length) :
    ∃ s' v, (machine Taker α capacity).step s (.dequeue t) = some s' ∧
      s.log[s.taken.length]? = some v ∧ s'.log = s.log ∧ s'.taken = s.taken ++ [(t, v)] := by
  cases hqueue : s.queue with
  | nil =>
      rw [length_log, hqueue, List.length_nil] at hsome
      exact absurd hsome (Nat.lt_irrefl _)
  | cons v rest =>
      refine ⟨{ taken := s.taken ++ [(t, v)], queue := rest }, v, ?_, ?_, ?_, rfl⟩
      · simp only [machine, step, hqueue]
      · simp [State.log, hqueue]
      · simp [State.log, hqueue]

/-- The elements put in, and the room that they keep to. -/
theorem step_log {capacity : ℕ} {s s' : State Taker α} {e : Event Taker α}
    (hstep : (machine Taker α capacity).step s e = some s') :
    s'.log = s.log ++ e.put.toList ∧ (s.queue.length ≤ capacity → s'.queue.length ≤ capacity) := by
  cases e with
  | enqueue v =>
      simp only [machine, step] at hstep
      split at hstep
      · next hroom =>
          cases hstep
          refine ⟨?_, fun _ => ?_⟩
          · simp [State.log, Event.put]
          · rw [List.length_append]
            exact hroom
      · cases hstep
  | dequeue t =>
      simp only [machine, step] at hstep
      split at hstep
      · cases hstep
      · next v rest hqueue =>
          cases hstep
          refine ⟨?_, fun hle => ?_⟩
          · simp [State.log, Event.put, hqueue]
          · rw [hqueue, List.length_cons] at hle
            exact Nat.le_of_succ_le hle

/-- What a party has once one of them has taken an element. -/
theorem given_append [DecidableEq Taker] {s s' : State Taker α} {t : Taker} {v : α}
    (htaken : s'.taken = s.taken ++ [(t, v)]) (k : Taker) :
    s'.given k = s.given k ++ if t = k then [v] else [] := by
  unfold State.given
  rw [htaken, List.filter_append, List.map_append]
  congr 1
  by_cases htk : t = k <;> simp [htk]

/-! ## Runs -/

theorem runFrom_log {capacity : ℕ} {events : List (Event Taker α)} :
    ∀ {s s' : State Taker α}, (machine Taker α capacity).runFrom s events = some s' →
      s'.log = s.log ++ events.filterMap Event.put ∧
        (s.queue.length ≤ capacity → s'.queue.length ≤ capacity) := by
  induction events with
  | nil =>
      intro s s' hrun
      cases hrun
      simp
  | cons e rest ih =>
      intro s s' hrun
      obtain ⟨t, ht, hrest⟩ := Machine.exists_step_of_runFrom hrun
      obtain ⟨hlog, hroom⟩ := step_log ht
      obtain ⟨hlog', hroom'⟩ := ih hrest
      refine ⟨?_, fun hle => hroom' (hroom hle)⟩
      rw [hlog', hlog, List.append_assoc]
      cases hput : e.put <;> simp [hput]

/-- **First in, first out.**  What was put in is what was taken, in that order, followed by what
is queued. -/
theorem enqueued_eq {capacity : ℕ} {events : List (Event Taker α)} {s : State Taker α}
    (hrun : (machine Taker α capacity).run events = some s) :
    events.filterMap Event.put = s.taken.map Prod.snd ++ s.queue ∧ s.queue.length ≤ capacity := by
  obtain ⟨hlog, hroom⟩ := runFrom_log hrun
  exact ⟨hlog.symm, hroom (Nat.zero_le _)⟩

end DzIpc.BoundedFifo
