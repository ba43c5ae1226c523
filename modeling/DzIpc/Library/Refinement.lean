import DzIpc.Library.Machine

/-!
# Refinement with silent steps

A step of a machine shows an event or shows none.  A machine refines another one if its visible
steps are steps of the other and its silent ones leave the other where it is; the relation that
ties the two states is the invariant of the proof.

* `Machine.Simulates` is the simulation, and `Machine.Simulates.run` what it says about runs.
* `Machine.run_lockstep` is the case of two machines that take the same steps.
* `Machine.guardedFrom_of_length` guards a run that is too short for a counter to reach its bound.
-/

namespace DzIpc

namespace Machine

variable {State Action Abs Event : Type*}

section Events

variable (M : Machine State Action) (event : State → Action → Option Event)

/-- The events that a list of actions shows, from a given state. -/
def eventsFrom : State → List Action → List Event
  | _, [] => []
  | s, a :: rest =>
      match M.step s a with
      | some t => (event s a).toList ++ eventsFrom t rest
      | none => []

/-- The events that a list of actions shows, from the initial state. -/
def events (actions : List Action) : List Event :=
  M.eventsFrom event M.init actions

end Events

variable {M : Machine State Action} {N : Machine Abs Event}

/-- `R` ties the two machines together: it holds initially, a silent step of the first one keeps
it, and a visible step is answered by the second one. -/
structure Simulates (M : Machine State Action) (N : Machine Abs Event)
    (guard : State → Action → Prop) (event : State → Action → Option Event)
    (R : State → Abs → Prop) : Prop where
  init : R M.init N.init
  silent : ∀ {s a t A}, R s A → guard s a → M.step s a = some t → event s a = none → R t A
  visible : ∀ {s a t A e}, R s A → guard s a → M.step s a = some t → event s a = some e →
    ∃ A', N.step A e = some A' ∧ R t A'

theorem Simulates.runFrom {guard : State → Action → Prop} {event : State → Action → Option Event}
    {R : State → Abs → Prop} (h : M.Simulates N guard event R) :
    ∀ {actions : List Action} {s u : State} {A : Abs}, R s A → M.GuardedFrom guard s actions →
      M.runFrom s actions = some u →
      ∃ B, N.runFrom A (M.eventsFrom event s actions) = some B ∧ R u B := by
  intro actions
  induction actions with
  | nil =>
      intro s u A hR _ hrun
      cases hrun
      exact ⟨A, rfl, hR⟩
  | cons a rest ih =>
      intro s u A hR hguarded hrun
      obtain ⟨t, ht, hrest⟩ := exists_step_of_runFrom hrun
      simp only [GuardedFrom, ht] at hguarded
      simp only [eventsFrom, ht]
      cases he : event s a with
      | none => exact ih (h.silent hR hguarded.1 ht he) hguarded.2 hrest
      | some e =>
          obtain ⟨A', hA', hR'⟩ := h.visible hR hguarded.1 ht he
          obtain ⟨B, hB, hRB⟩ := ih hR' hguarded.2 hrest
          exact ⟨B, (runFrom_cons hA').mpr hB, hRB⟩

/-- **Refinement.**  The events of a guarded run are a run of the abstract machine, and the
states in which the two end are tied. -/
theorem Simulates.run {guard : State → Action → Prop} {event : State → Action → Option Event}
    {R : State → Abs → Prop} (h : M.Simulates N guard event R) {actions : List Action} {u : State}
    (hguarded : M.Guarded guard actions) (hrun : M.run actions = some u) :
    ∃ B, N.run (M.events event actions) = some B ∧ R u B :=
  h.runFrom h.init hguarded hrun

/-- A run that shows every action shows what it was made of. -/
theorem eventsFrom_some {actions : List Action} {s u : State}
    (hrun : M.runFrom s actions = some u) : M.eventsFrom (fun _ a => some a) s actions = actions := by
  induction actions generalizing s with
  | nil => rfl
  | cons a rest ih =>
      obtain ⟨t, ht, hrest⟩ := exists_step_of_runFrom hrun
      simp only [eventsFrom, ht, Option.toList_some, ih hrest, List.singleton_append]

/-- **Lockstep.**  Where each step of the one machine is answered by the same step of the other,
each run is. -/
theorem run_lockstep {N : Machine Abs Action} {guard : State → Action → Prop}
    {R : State → Abs → Prop} (hinit : R M.init N.init)
    (hstep : ∀ {s a t A}, R s A → guard s a → M.step s a = some t →
      ∃ A', N.step A a = some A' ∧ R t A')
    {actions : List Action} {u : State} (hguarded : M.Guarded guard actions)
    (hrun : M.run actions = some u) : ∃ B, N.run actions = some B ∧ R u B := by
  have hsim : M.Simulates N guard (fun _ a => some a) R := by
    refine ⟨hinit, fun _ _ _ hnone => (by cases hnone), ?_⟩
    intro s a t A e hR hguard ht he
    cases he
    exact hstep hR hguard ht
  have hevents : M.events (fun _ a => some a) actions = actions := eventsFrom_some hrun
  obtain ⟨B, hB, hR⟩ := hsim.run hguarded hrun
  exact ⟨B, hevents ▸ hB, hR⟩

/-- A count that a step raises by one at most is raised by no more than the length of a run. -/
theorem count_le_of_runFrom {count : State → ℕ}
    (hcount : ∀ {s a t}, M.step s a = some t → count t ≤ count s + 1) :
    ∀ {actions : List Action} {s u : State}, M.runFrom s actions = some u →
      count u ≤ count s + actions.length := by
  intro actions
  induction actions with
  | nil =>
      intro s u hrun
      cases hrun
      exact Nat.le_refl _
  | cons a rest ih =>
      intro s u hrun
      obtain ⟨t, ht, hrest⟩ := exists_step_of_runFrom hrun
      have hstep := hcount ht
      have hle := ih hrest
      rw [List.length_cons]
      omega

/-- Such a count stays within its bound in a run that is short enough. -/
theorem guardedFrom_of_length {count : State → ℕ} {bound : ℕ}
    (hcount : ∀ {s a t}, M.step s a = some t → count t ≤ count s + 1) :
    ∀ {actions : List Action} {s : State}, count s + actions.length < bound →
      M.GuardedFrom (fun s _ => count s + 1 < bound) s actions := by
  intro actions
  induction actions with
  | nil => exact fun _ => trivial
  | cons a rest ih =>
      intro s hlt
      rw [List.length_cons] at hlt
      refine ⟨by omega, ?_⟩
      cases ht : M.step s a with
      | none => trivial
      | some t =>
          have hle := hcount ht
          exact ih (by omega)

end Machine

end DzIpc
