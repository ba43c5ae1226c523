import Mathlib.Data.List.Basic
import Mathlib.Tactic.Common

/-!
# State machines and guarded runs

A machine has one initial state and a partial, executable step function; every
nondeterministic choice is part of the action.  A *run* is a list of actions all of
which are enabled, and a *guarded* run is one in which every step also meets a side
condition on the state before it.

* `Machine.invariant` is the induction over runs: what holds initially and is kept by
  every step holds wherever a run ends.
* `Machine.invariant_of_guarded` is the same induction over guarded runs, where a step
  need only keep the invariant when it meets the guard.
* `Machine.guardedFrom_of_forall` meets a guard by what the actions of a run have in common.
* `Machine.guardedFrom_of_unmarked` goes the other way: a run without a mark is guarded; and
  `Machine.guardedFrom_iff` compares two guards.
* `Machine.forall_take_iff_guardedFrom` is both ways at once, where the guard is exact, and so
  is `Machine.good_iff_guarded` for what a run never gets back.
-/

namespace DzIpc

/-- A deterministic machine over explicit actions: `step s a` is `none` where the action
`a` is not enabled in `s`. -/
structure Machine (State Action : Type*) where
  init : State
  step : State → Action → Option State

namespace Machine

variable {State Action : Type*} (M : Machine State Action)

/-- The state in which a list of actions ends, from a given state. -/
def runFrom : State → List Action → Option State
  | s, [] => some s
  | s, a :: rest =>
      match M.step s a with
      | some t => runFrom t rest
      | none => none

/-- The state in which a list of actions ends, from the initial state. -/
def run (actions : List Action) : Option State :=
  M.runFrom M.init actions

/-- Every step of the run meets the guard in the state it is taken in. -/
def GuardedFrom (guard : State → Action → Prop) : State → List Action → Prop
  | _, [] => True
  | s, a :: rest =>
      guard s a ∧
        match M.step s a with
        | some t => GuardedFrom guard t rest
        | none => True

/-- Every step of the run from the initial state meets the guard. -/
def Guarded (guard : State → Action → Prop) (actions : List Action) : Prop :=
  M.GuardedFrom guard M.init actions

instance decidableGuardedFrom (guard : State → Action → Prop)
    [∀ s a, Decidable (guard s a)] :
    ∀ (s : State) (actions : List Action), Decidable (M.GuardedFrom guard s actions)
  | _, [] => isTrue trivial
  | s, a :: rest =>
      match h : M.step s a with
      | some t =>
          have := decidableGuardedFrom guard t rest
          decidable_of_iff (guard s a ∧ M.GuardedFrom guard t rest) (by simp [GuardedFrom, h])
      | none => decidable_of_iff (guard s a) (by simp [GuardedFrom, h])

instance (guard : State → Action → Prop) [∀ s a, Decidable (guard s a)]
    (actions : List Action) : Decidable (M.Guarded guard actions) :=
  decidableGuardedFrom M guard M.init actions

variable {M}

@[simp] theorem runFrom_nil (s : State) : M.runFrom s [] = some s := rfl

theorem runFrom_cons {s t u : State} {a : Action} {rest : List Action}
    (hstep : M.step s a = some t) : M.runFrom s (a :: rest) = some u ↔ M.runFrom t rest = some u := by
  simp [runFrom, hstep]

/-- A run that ends took an enabled first step. -/
theorem exists_step_of_runFrom {s u : State} {a : Action} {rest : List Action}
    (hrun : M.runFrom s (a :: rest) = some u) :
    ∃ t, M.step s a = some t ∧ M.runFrom t rest = some u := by
  cases hstep : M.step s a with
  | none => simp [runFrom, hstep] at hrun
  | some t => exact ⟨t, rfl, (runFrom_cons hstep).mp hrun⟩

theorem runFrom_append {s u : State} (first second : List Action) :
    M.runFrom s (first ++ second) = some u ↔
      ∃ t, M.runFrom s first = some t ∧ M.runFrom t second = some u := by
  induction first generalizing s with
  | nil => simp
  | cons a rest ih =>
      cases hstep : M.step s a with
      | none => simp [runFrom, hstep]
      | some t => simpa [runFrom, hstep] using ih

theorem GuardedFrom.and {guard guard' : State → Action → Prop} :
    ∀ {actions : List Action} {s : State}, M.GuardedFrom guard s actions →
      M.GuardedFrom guard' s actions →
      M.GuardedFrom (fun s a => guard s a ∧ guard' s a) s actions := by
  intro actions
  induction actions with
  | nil => exact fun _ _ => trivial
  | cons a rest ih =>
      intro s h h'
      refine ⟨⟨h.1, h'.1⟩, ?_⟩
      have hrest := h.2
      have hrest' := h'.2
      cases hstep : M.step s a with
      | none => trivial
      | some t =>
          simp only [hstep] at hrest hrest'
          exact ih hrest hrest'

/-- The rule of induction over guarded runs from any state. -/
theorem invariant_of_guardedFrom {guard : State → Action → Prop} {Inv : State → Prop}
    (hstep : ∀ s a t, Inv s → guard s a → M.step s a = some t → Inv t) :
    ∀ {actions : List Action} {s u : State}, Inv s → M.GuardedFrom guard s actions →
      M.runFrom s actions = some u → Inv u := by
  intro actions
  induction actions with
  | nil =>
      intro s u hs _ hrun
      cases hrun
      exact hs
  | cons a rest ih =>
      intro s u hs hguarded hrun
      obtain ⟨t, ht, hrest⟩ := exists_step_of_runFrom hrun
      simp only [GuardedFrom, ht] at hguarded
      exact ih (hstep s a t hs hguarded.1 ht) hguarded.2 hrest

/-- **Guarded runs.**  What holds initially and is kept by every step that meets the
guard holds in every state a guarded run reaches. -/
theorem invariant_of_guarded {guard : State → Action → Prop} {Inv : State → Prop}
    (hinit : Inv M.init)
    (hstep : ∀ s a t, Inv s → guard s a → M.step s a = some t → Inv t)
    {actions : List Action} {u : State} (hguarded : M.Guarded guard actions)
    (hrun : M.run actions = some u) : Inv u :=
  invariant_of_guardedFrom hstep hinit hguarded hrun

/-- **Runs.**  What holds initially and is kept by every step holds in every state a run
reaches. -/
theorem invariant {Inv : State → Prop} (hinit : Inv M.init)
    (hstep : ∀ s a t, Inv s → M.step s a = some t → Inv t)
    {actions : List Action} {u : State} (hrun : M.run actions = some u) : Inv u := by
  suffices h : ∀ (actions : List Action) (s : State), Inv s →
      M.runFrom s actions = some u → Inv u from h actions M.init hinit hrun
  intro actions
  induction actions with
  | nil =>
      intro s hs hrun
      cases hrun
      exact hs
  | cons a rest ih =>
      intro s hs hrun
      obtain ⟨t, ht, hrest⟩ := exists_step_of_runFrom hrun
      exact ih t (hstep s a t hs ht) hrest

/-- **Marked states.**  If a step that does not meet the guard leaves a mark that stays, a
run that ends without a mark is guarded. -/
theorem guardedFrom_of_unmarked {guard : State → Action → Prop} {Inv Marked : State → Prop}
    (hinv : ∀ s a t, Inv s → M.step s a = some t → Inv t)
    (hmark : ∀ s a t, Inv s → M.step s a = some t → ¬ guard s a → Marked t)
    (hstays : ∀ s a t, Marked s → M.step s a = some t → Marked t) :
    ∀ {actions : List Action} {s u : State}, Inv s → M.runFrom s actions = some u →
      ¬ Marked u → M.GuardedFrom guard s actions := by
  have hstaysRun : ∀ {actions : List Action} {s u : State}, Marked s →
      M.runFrom s actions = some u → Marked u := by
    intro actions
    induction actions with
    | nil =>
        intro s u hs hrun
        cases hrun
        exact hs
    | cons a rest ih =>
        intro s u hs hrun
        obtain ⟨t, ht, hrest⟩ := exists_step_of_runFrom hrun
        exact ih (hstays s a t hs ht) hrest
  intro actions
  induction actions with
  | nil => exact fun _ _ _ => trivial
  | cons a rest ih =>
      intro s u hs hrun hclean
      obtain ⟨t, ht, hrest⟩ := exists_step_of_runFrom hrun
      refine ⟨?_, ?_⟩
      · by_contra hguard
        exact hclean (hstaysRun (hmark s a t hs ht hguard) hrest)
      · simp only [ht]
        exact ih (hinv s a t hs ht) hrest hclean

/-- Two guards that agree in the steps of a run. -/
theorem guardedFrom_iff {guard guard' : State → Action → Prop} {Inv : State → Prop}
    (hinv : ∀ s a t, Inv s → M.step s a = some t → Inv t)
    (hiff : ∀ s a t, Inv s → M.step s a = some t → (guard s a ↔ guard' s a)) :
    ∀ {actions : List Action} {s u : State}, Inv s → M.runFrom s actions = some u →
      (M.GuardedFrom guard s actions ↔ M.GuardedFrom guard' s actions) := by
  intro actions
  induction actions with
  | nil => exact fun _ _ => Iff.rfl
  | cons a rest ih =>
      intro s u hs hrun
      obtain ⟨t, ht, hrest⟩ := exists_step_of_runFrom hrun
      simp only [GuardedFrom, ht]
      exact and_congr (hiff s a t hs ht) (ih (hinv s a t hs ht) hrest)

/-- A guard that follows from what the actions keep is met by every run of such actions. -/
theorem guardedFrom_of_forall {guard : State → Action → Prop} {Inv : State → Prop}
    {ok : Action → Prop} (hguard : ∀ s a, Inv s → ok a → guard s a)
    (hstep : ∀ s a t, Inv s → ok a → M.step s a = some t → Inv t) :
    ∀ {actions : List Action} {s : State}, Inv s → (∀ a ∈ actions, ok a) →
      M.GuardedFrom guard s actions := by
  intro actions
  induction actions with
  | nil => exact fun _ _ => trivial
  | cons a rest ih =>
      intro s hs hall
      have ha : ok a := hall a List.mem_cons_self
      refine ⟨hguard s a hs ha, ?_⟩
      cases ht : M.step s a with
      | none => trivial
      | some t => exact ih (hstep s a t hs ha ht) fun a' ha' => hall a' (List.mem_cons_of_mem a ha')

/-- A guard on the actions alone. -/
theorem guardedFrom_of_mem {ok : Action → Prop} {actions : List Action} (s : State)
    (hall : ∀ a ∈ actions, ok a) : M.GuardedFrom (fun _ a => ok a) s actions :=
  guardedFrom_of_forall (fun _ _ (_ : True) ha => ha) (fun _ _ _ _ _ _ => trivial) trivial hall

/-- A run meets a guard on the actions alone just if each of them does. -/
theorem guardedFrom_iff_forall {ok : Action → Prop} {actions : List Action} {s u : State}
    (hrun : M.runFrom s actions = some u) :
    M.GuardedFrom (fun _ a => ok a) s actions ↔ ∀ a ∈ actions, ok a := by
  refine ⟨?_, guardedFrom_of_mem s⟩
  induction actions generalizing s with
  | nil => exact fun _ a ha => absurd ha List.not_mem_nil
  | cons a rest ih =>
      obtain ⟨t, ht, hrest⟩ := exists_step_of_runFrom hrun
      simp only [GuardedFrom, ht]
      rintro ⟨ha, hguarded⟩
      exact List.forall_mem_cons.mpr ⟨ha, ih hrest hguarded⟩

/-- **Exact guards.**  Where a step from a good state meets the guard just if it ends in a good
state, the runs through good states are the guarded ones. -/
theorem forall_take_iff_guardedFrom {guard : State → Action → Prop} {Good : State → Prop}
    (hiff : ∀ s a t, Good s → M.step s a = some t → (guard s a ↔ Good t)) :
    ∀ {actions : List Action} {s u : State}, Good s → M.runFrom s actions = some u →
      ((∀ k t, M.runFrom s (actions.take k) = some t → Good t) ↔ M.GuardedFrom guard s actions) := by
  intro actions
  induction actions with
  | nil =>
      intro s u hs _
      refine iff_of_true (fun k t ht => ?_) trivial
      rw [List.take_nil] at ht
      cases ht
      exact hs
  | cons a rest ih =>
      intro s u hs hrun
      obtain ⟨t, ht, hrest⟩ := exists_step_of_runFrom hrun
      simp only [GuardedFrom, ht]
      constructor
      · intro hall
        have hgood : Good t := hall 1 t ((runFrom_cons ht).mpr rfl)
        refine ⟨(hiff s a t hs ht).mpr hgood, (ih hgood hrest).mp fun k t' ht' => ?_⟩
        exact hall (k + 1) t' ((runFrom_cons ht).mpr ht')
      · rintro ⟨hguard, hguarded⟩ k t' ht'
        have hgood : Good t := (hiff s a t hs ht).mp hguard
        cases k with
        | zero =>
            cases ht'
            exact hs
        | succ k => exact (ih hgood hrest).mpr hguarded k t' ((runFrom_cons ht).mp ht')

/-- **Goodness that is lost for good.**  Where a step keeps goodness just if it meets the guard,
as long as the run stays in `Scope`, the runs that end there good are the guarded ones. -/
theorem good_iff_guarded {guard : State → Action → Prop} {Inv Scope Good : State → Prop}
    (hinit : Inv M.init) (hgood : Good M.init)
    (hstep : ∀ s a t, Inv s → M.step s a = some t → Inv t)
    (hscope : ∀ s a t, M.step s a = some t → Scope t → Scope s)
    (hiff : ∀ s a t, Inv s → M.step s a = some t → Scope t → (Good t ↔ Good s ∧ guard s a))
    {actions : List Action} {u : State} (hrun : M.run actions = some u) (hu : Scope u) :
    Good u ↔ M.Guarded guard actions := by
  let Lost : State → Prop := fun s => Inv s ∧ (Scope s → ¬ Good s)
  let Kept : State → Prop := fun s => Inv s ∧ (Scope s → Good s)
  constructor
  · intro hgoodu
    have hnot : ¬ Lost u := fun hlost => hlost.2 hu hgoodu
    refine guardedFrom_of_unmarked hstep ?_ ?_ hinit hrun hnot
    · intro s a t hs ht hguard
      exact ⟨hstep s a t hs ht, fun hscopet hgoodt => hguard ((hiff s a t hs ht hscopet).mp hgoodt).2⟩
    · rintro s a t ⟨hs, hlost⟩ ht
      refine ⟨hstep s a t hs ht, fun hscopet hgoodt => ?_⟩
      exact hlost (hscope s a t ht hscopet) ((hiff s a t hs ht hscopet).mp hgoodt).1
  · intro hguarded
    have hkept : Kept u := by
      refine invariant_of_guarded ⟨hinit, fun _ => hgood⟩ ?_ hguarded hrun
      rintro s a t ⟨hs, hkept⟩ hguard ht
      refine ⟨hstep s a t hs ht, fun hscopet => (hiff s a t hs ht hscopet).mpr ?_⟩
      exact ⟨hkept (hscope s a t ht hscopet), hguard⟩
    exact hkept.2 hu

/-- A run whose last state, evaluated, has a property. -/
theorem exists_of_any {P : State → Prop} [DecidablePred P] {actions : List Action}
    (h : (M.run actions).any (fun s => decide (P s)) = true) : ∃ s, M.run actions = some s ∧ P s := by
  cases hrun : M.run actions with
  | none =>
      rw [hrun] at h
      cases h
  | some s =>
      rw [hrun] at h
      exact ⟨s, rfl, of_decide_eq_true h⟩

end Machine

end DzIpc
