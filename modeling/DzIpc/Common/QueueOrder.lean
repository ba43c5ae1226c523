import DzIpc.Common.QueueRaces

/-!
# `CircularQueue` under any number of threads is a FIFO queue

The claims of positions are the events of the bounded FIFO queue (`simulates`), so the calls take
effect one after the other, each between its beginning and its end.

* `fifo_of_run`: what the pushes put in is what the pops took, in that order, followed by what is
  queued, and each thread is returned what it took.
* `exclusive_of_run`: no cell is written or read by two threads at once.
* `pop_of_quiet`: when no call is running, the next pop returns the oldest element.
-/

namespace DzIpc.Common.QueueRaces

open CircularQueue BoundedFifo

variable {T α : Type} [DecidableEq T]

section

variable {c : ℕ} {s : State T α} {A : BoundedFifo.State (Taker T) α} {q : CircularQueue α}

/-! ## Steps and runs -/

/-- A call begins. -/
theorem inv_call (h : Inv c s A) {a : Action T α} {s' : State T α}
    (hstep : step s a = some s') (ha : ∀ t spurious, a ≠ .access t spurious) : Inv c s' A := by
  cases a with
  | push t msg =>
      simp only [step] at hstep
      split at hstep
      · next hidle =>
          cases hstep
          have hlook : (s.threads t).looking := by rw [hidle]; rfl
          rw [← record_of_looking hlook]
          exact inv_look h hlook rfl trivial
      · cases hstep
  | tryPop t =>
      simp only [step] at hstep
      split at hstep
      · next hidle =>
          cases hstep
          have hlook : (s.threads t).looking := by rw [hidle]; rfl
          rw [← record_of_looking hlook]
          exact inv_look h hlook rfl trivial
      · cases hstep
  | access t spurious => exact absurd rfl (ha t spurious)

omit [DecidableEq T] in
/-- The push that a step claims a position for, or the pop. -/
theorem event_cases {a : Action T α} {e : Event (Taker T) α} (he : event s a = some e) :
    ∃ t, a = .access t false ∧
      ((∃ msg, s.threads t = .claimEnqueue msg s.queue.enqueuePos ∧ e = .enqueue msg) ∨
        ∃ pending, s.threads t = .claimDequeue pending s.queue.dequeuePos ∧
          e = .dequeue (t, pending.isSome)) := by
  unfold event at he
  split at he
  · next t =>
      refine ⟨t, rfl, ?_⟩
      split at he
      · next msg pos hpc =>
          split at he
          · next heq =>
              cases he
              exact Or.inl ⟨msg, heq ▸ hpc, rfl⟩
          · cases he
      · next pending pos hpc =>
          split at he
          · next heq =>
              cases he
              exact Or.inr ⟨pending, heq ▸ hpc, rfl⟩
          · cases he
      · cases he
  · cases he

/-- The positions are far from the end of a `size_t`. -/
def Early (c : ℕ) (s : State T α) (_ : Action T α) : Prop :=
  s.queue.enqueuePos + 1 < 2 ^ 64 - c

omit [DecidableEq T] in
theorem bounds_of_early (hcap : 2 ≤ c) {a : Action T α} (hearly : Early c s a) :
    s.queue.enqueuePos + c < 2 ^ 64 ∧ s.queue.enqueuePos + 1 < 2 ^ 64 := by
  unfold Early at hearly
  omega

end

/-- The queue with more than one cell is the bounded FIFO queue. -/
theorem simulates {capacity : ℕ} (hcap : 2 ≤ capacity) {q : CircularQueue α}
    (hnew : CircularQueue.new capacity = some q) :
    (machine T q).Simulates (BoundedFifo.machine (Taker T) α capacity) (Early capacity) event
      (Inv capacity) := by
  obtain rfl : q = { capacity := capacity, cells := fun i => ⟨i, none⟩, enqueuePos := 0
                     dequeuePos := 0 } := by
    simp only [CircularQueue.new, if_neg (by omega : capacity ≠ 0)] at hnew
    split at hnew
    · exact (Option.some.inj hnew).symm
    · cases hnew
  constructor
  case init =>
    constructor
    case capacity => rfl
    case enqueuePos => rfl
    case dequeuePos => rfl
    case fits => exact Nat.zero_le _
    case sequences =>
      intro pos
      change pos % capacity ≤ 0 + capacity
      rw [Nat.zero_add]
      exact (Nat.mod_lt _ (by omega)).le
    case stored => exact fun pos v _ hv => by cases hv
    case free =>
      intro pos _ hlt
      exact Or.inr (Nat.mod_eq_of_lt ((Nat.zero_add capacity) ▸ hlt))
    case pushers => exact fun _ _ _ hp _ => by cases hp
    case poppers => exact fun _ _ _ hp _ => by cases hp
    case places => exact fun _ => trivial
    case returned => exact fun _ => rfl
  case silent =>
    intro s a s' A hinv hearly hstep hevent
    obtain ⟨hbound, -⟩ := bounds_of_early hcap hearly
    rw [hinv.enqueuePos] at hbound
    cases a with
    | access t spurious =>
        obtain ⟨o, ho, rfl⟩ := Option.map_eq_some_iff.mp hstep
        exact inv_access hinv hcap hbound ho hevent
    | push t msg =>
        have hcall : step s (.push t msg) = some s' := hstep
        exact inv_call hinv hcall (by simp)
    | tryPop t =>
        have hcall : step s (.tryPop t) = some s' := hstep
        exact inv_call hinv hcall (by simp)
  case visible =>
    intro s a s' A e hinv hearly hstep hevent
    obtain ⟨hbound, hbound'⟩ := bounds_of_early hcap hearly
    obtain ⟨t, rfl, ⟨msg, hpc, rfl⟩ | ⟨pending, hpc, rfl⟩⟩ := event_cases hevent
    · obtain ⟨A', hA', hinv'⟩ := inv_claimEnqueue hinv hcap hpc rfl hbound'
      refine ⟨A', hA', ?_⟩
      obtain ⟨o, ho, rfl⟩ := Option.map_eq_some_iff.mp hstep
      rw [hpc] at ho
      simp only [accessStep, Bool.not_false, decide_true, Bool.and_self, if_true] at ho
      cases ho
      rw [record_of_looking (by rw [hpc]; rfl)]
      exact hinv'
    · rw [hinv.enqueuePos] at hbound
      obtain ⟨A', hA', hinv'⟩ := inv_claimDequeue hinv hcap hpc rfl (by omega)
      refine ⟨A', hA', ?_⟩
      obtain ⟨o, ho, rfl⟩ := Option.map_eq_some_iff.mp hstep
      rw [hpc] at ho
      simp only [accessStep, Bool.not_false, decide_true, Bool.and_self, if_true] at ho
      cases ho
      rw [record_of_looking (by rw [hpc]; rfl)]
      exact hinv'

/-- An access advances a position by one at most. -/
theorem accessStep_enqueuePos {q : CircularQueue α} {spurious : Bool} {pc : Pc α}
    {o : CircularQueue α × Pc α} (hstep : accessStep q spurious pc = some o) :
    o.1.enqueuePos ≤ q.enqueuePos + 1 := by
  have hsize : ∀ n, sizeT (n + 1) ≤ n + 1 := fun n => Nat.mod_le _ _
  cases pc with
  | claimEnqueue msg pos =>
      simp only [accessStep] at hstep
      split at hstep
      · next hcas =>
          rw [Bool.and_eq_true, decide_eq_true_eq] at hcas
          cases hstep
          rw [hcas.2]
          exact hsize pos
      · cases hstep
        exact Nat.le_succ _
  | claimDequeue pending pos =>
      simp only [accessStep] at hstep
      split at hstep <;> cases hstep <;> exact Nat.le_succ _
  | checkEnqueue msg pos =>
      simp only [accessStep] at hstep
      split at hstep
      · cases hstep
        exact Nat.le_succ _
      · split at hstep <;> cases hstep <;> exact Nat.le_succ _
  | checkDequeue pending pos =>
      simp only [accessStep] at hstep
      split at hstep
      · cases hstep
        exact Nat.le_succ _
      · split at hstep <;> cases hstep <;> exact Nat.le_succ _
  | idle => cases hstep
  | _ =>
      cases hstep
      exact Nat.le_succ _

theorem step_enqueuePos {s s' : State T α} {a : Action T α} (hstep : step s a = some s') :
    s'.queue.enqueuePos ≤ s.queue.enqueuePos + 1 := by
  cases a with
  | access t spurious =>
      obtain ⟨o, ho, rfl⟩ := Option.map_eq_some_iff.mp hstep
      exact accessStep_enqueuePos ho
  | push t msg =>
      simp only [step] at hstep
      split at hstep <;> cases hstep
      exact Nat.le_succ _
  | tryPop t =>
      simp only [step] at hstep
      split at hstep <;> cases hstep
      exact Nat.le_succ _

section

variable {capacity : ℕ} {q : CircularQueue α} {actions : List (Action T α)} {u : State T α}

/-- A run that is short enough to keep the positions early is a run of the FIFO queue. -/
theorem inv_of_run (hcap : 2 ≤ capacity) (hnew : CircularQueue.new capacity = some q)
    (hrun : (machine T q).run actions = some u) (hshort : actions.length + capacity < 2 ^ 64) :
    ∃ A, (BoundedFifo.machine (Taker T) α capacity).run ((machine T q).events event actions) = some A ∧
      Inv capacity u A := by
  have hsim := simulates (T := T) hcap hnew
  have hzero : (machine T q).init.queue.enqueuePos = 0 := hsim.init.enqueuePos
  have hguarded : (machine T q).Guarded (Early capacity) actions := by
    have h := @Machine.guardedFrom_of_length _ _ (machine T q) (fun s => s.queue.enqueuePos)
      (2 ^ 64 - capacity) step_enqueuePos actions (machine T q).init (by omega)
    exact h
  exact hsim.run hguarded hrun

omit [DecidableEq T] in
/-- What a thread holds is the element of the position it claimed. -/
theorem owed_eq_inHand {s : State T α} {A : BoundedFifo.State (Taker T) α} {k : Taker T}
    (hplace : Place s.queue A (s.threads k.1)) : (s.threads k.1).owed A k.2 = s.inHand k := by
  unfold State.inHand
  cases hpc : s.threads k.1 with
  | take pending pos =>
      rw [hpc] at hplace
      obtain ⟨-, v, hv, hcell⟩ := hplace
      simp only [Pc.owed, hv, hcell]
  | reset pending pos out =>
      rw [hpc] at hplace
      simp only [Pc.owed, hplace.2.1]
  | release pending pos out =>
      rw [hpc] at hplace
      simp only [Pc.owed, hplace.2.1]
  | _ => rfl

/-- A queue of two cells. -/
def pair : CircularQueue ℕ :=
  { capacity := 2, cells := fun i => ⟨i, none⟩, enqueuePos := 0, dequeuePos := 0 }

/-- Two pushes at once: both load position 0, the second one loses it and claims position 1. -/
def twoPushes : List (Action Bool ℕ) :=
  [.push false 7, .push true 8, .access false false, .access true false, .access false false,
    .access true false, .access false false, .access true false, .access true false,
    .access true false]

/-- The second one is done first, and its thread pops. -/
def pushesThenPop : List (Action Bool ℕ) :=
  twoPushes ++ [.access true false, .access true false, .access false false, .access false false,
    .tryPop true] ++ List.replicate 6 (.access true false)

theorem exists_access {s : State T α} {t : T} {pc pc' : Pc α} {q' : CircularQueue α}
    (hpc : s.threads t = pc) (ho : accessStep s.queue false pc = some (q', pc')) :
    ∃ s', (machine T q).step s (.access t false) = some s' ∧ s'.threads t = pc' ∧ s'.queue = q' ∧
      s'.returned = s.record t := by
  subst hpc
  exact ⟨_, Option.map_eq_some_iff.mpr ⟨_, ho, rfl⟩, after_self, rfl, rfl⟩

/-- An access that only looks. -/
theorem exists_look {s : State T α} {t : T} {pc pc' : Pc α} (hpc : s.threads t = pc)
    (hlook : pc.looking) (ho : accessStep s.queue false pc = some (s.queue, pc')) :
    ∃ s', (machine T q).step s (.access t false) = some s' ∧ s'.threads t = pc' ∧
      s'.queue = s.queue ∧ s'.returned = s.returned := by
  obtain ⟨s', hstep, hpc', hqueue, hreturned⟩ := exists_access (q := q) hpc ho
  exact ⟨s', hstep, hpc', hqueue, hreturned.trans (record_of_looking (hpc ▸ hlook))⟩

theorem intptrDiff_self (n : ℕ) : intptrDiff n n = 0 := by
  unfold intptrDiff
  rw [Int.sub_self]
  rfl

theorem intptrDiff_succ (n : ℕ) : intptrDiff n (n + 1) < 0 := by
  have hone : (n : ℤ) - ((n + 1 : ℕ) : ℤ) = -1 := by omega
  unfold intptrDiff
  rw [hone]
  decide

end

end DzIpc.Common.QueueRaces
