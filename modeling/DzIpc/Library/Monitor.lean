import Mathlib.Algebra.Order.Ring.Int
import Mathlib.Data.List.Nodup
import Mathlib.Logic.Function.Basic
import Mathlib.Tactic.Common

/-!
# Monitors with a count of their waiters

A monitor is a lock, a condition variable and a count of the threads that wait.  A thread
that waits takes the lock, tests its predicate, counts itself and goes to sleep, releasing
the lock in the same step; a thread that wakes others takes the lock once as a barrier and
signals only if the count it reads there is not zero.

* `Sound` ties the lock and the count to the phases of the threads; every operation keeps
  it (`Sound.step`), except that resetting the count does so only at zero.
* `Covered` is the claim against lost wake-ups: a thread that was told to wait still has to,
  or a wake-up is under way that will reach it.  The operations keep it (`Covered.step`), and
  what makes a predicate false must come with a new wake-up (`Covered.knock`).
* `Covered.must_of_blocked` reads the claim off a quiet state.
-/

namespace DzIpc

/-- Where a thread is with respect to a monitor. -/
inductive Monitor.Phase where
  /-- Not at the monitor. -/
  | away
  /-- About to take the lock in order to wait. -/
  | enter
  /-- Holding the lock, about to test its predicate. -/
  | test
  /-- Holding the lock, told to wait. -/
  | tested
  /-- Holding the lock, counted, about to sleep. -/
  | counted
  /-- Asleep. -/
  | blocked
  /-- Awake, without the lock. -/
  | woken
  /-- Holding the lock again, still counted. -/
  | leaving
  /-- About to take the lock in order to wake the others. -/
  | knock
  /-- Holding the lock, about to read the count. -/
  | barrier
  /-- About to signal. -/
  | signal
  deriving DecidableEq, Repr

namespace Monitor.Phase

/-- The thread holds the lock. -/
def holds : Phase → Bool
  | test | tested | counted | leaving | barrier => true
  | _ => false

/-- The thread is counted. -/
def isCounted : Phase → Bool
  | counted | blocked | woken | leaving => true
  | _ => false

/-- The thread was told to wait and has not been woken. -/
def refused : Phase → Bool
  | tested | counted | blocked => true
  | _ => false

/-- The thread is waking others. -/
def wakes : Phase → Bool
  | knock | barrier | signal => true
  | _ => false

end Monitor.Phase

/-- The state of a monitor, with the phases of all threads; `inside` is a history variable
that lists the threads counted. -/
structure Monitor (T : Type) where
  owner : Option T
  waiters : ℤ
  phase : T → Monitor.Phase
  inside : List T

namespace Monitor

variable {T : Type} [DecidableEq T]

/-- Nobody at the monitor. -/
def idle : Monitor T := { owner := none, waiters := 0, phase := fun _ => .away, inside := [] }

/-- Put a thread into a phase. -/
def move (m : Monitor T) (t : T) (p : Phase) : Monitor T :=
  { m with phase := Function.update m.phase t p }

/-- What a thread can do at a monitor. -/
inductive Op where
  /-- Start to wait. -/
  | enter
  /-- Start to wake the others. -/
  | knock
  /-- Take the lock. -/
  | lock
  /-- The predicate holds: wait. -/
  | refuse
  /-- The predicate does not hold: release the lock and go. -/
  | pass
  | count
  /-- Release the lock and fall asleep. -/
  | sleep
  /-- Wake up by oneself, after a time-out or without a cause. -/
  | rouse
  /-- Take oneself off the count and test again. -/
  | again
  /-- Take oneself off the count and give up. -/
  | giveUp
  /-- Read the count and release the lock. -/
  | hear
  /-- Wake all that are asleep. -/
  | broadcast
  deriving DecidableEq, Repr

/-- One operation of one thread. -/
def step (m : Monitor T) (t : T) : Op → Option (Monitor T)
  | .enter => if m.phase t = .away then some (m.move t .enter) else none
  | .knock => if m.phase t = .away then some (m.move t .knock) else none
  | .lock =>
      match m.owner, m.phase t with
      | none, .enter => some { m.move t .test with owner := some t }
      | none, .woken => some { m.move t .leaving with owner := some t }
      | none, .knock => some { m.move t .barrier with owner := some t }
      | _, _ => none
  | .refuse => if m.phase t = .test then some (m.move t .tested) else none
  | .pass => if m.phase t = .test then some { m.move t .away with owner := none } else none
  | .count =>
      if m.phase t = .tested then
        some { m.move t .counted with waiters := m.waiters + 1, inside := t :: m.inside }
      else none
  | .sleep =>
      if m.phase t = .counted then some { m.move t .blocked with owner := none } else none
  | .rouse => if m.phase t = .blocked then some (m.move t .woken) else none
  | .again =>
      if m.phase t = .leaving then
        some { m.move t .test with waiters := m.waiters - 1, inside := m.inside.erase t }
      else none
  | .giveUp =>
      if m.phase t = .leaving then
        some { m.move t .away with
          owner := none, waiters := m.waiters - 1, inside := m.inside.erase t }
      else none
  | .hear =>
      if m.phase t = .barrier then
        some { m.move t (if m.waiters = 0 then .away else .signal) with owner := none }
      else none
  | .broadcast =>
      if m.phase t = .signal then
        some { m with
          phase := fun u =>
            if u = t then .away else if m.phase u = .blocked then .woken else m.phase u }
      else none

/-- Set the count to zero. -/
def reset (m : Monitor T) : Monitor T := { m with waiters := 0 }

/-- The lock is held by the one thread whose phase says so, and the count is that of the
threads counted. -/
structure Sound (m : Monitor T) : Prop where
  owner : ∀ t, m.owner = some t ↔ (m.phase t).holds = true
  nodup : m.inside.Nodup
  inside : ∀ t, t ∈ m.inside ↔ (m.phase t).isCounted = true
  waiters : m.waiters = (m.inside.length : ℤ)

omit [DecidableEq T] in
theorem sound_idle : Sound (idle : Monitor T) where
  owner := fun t => by simp [idle, Phase.holds]
  nodup := List.nodup_nil
  inside := fun t => by simp [idle, Phase.isCounted]
  waiters := rfl

omit [DecidableEq T] in
theorem Sound.reset {m : Monitor T} (h : Sound m) (hzero : m.waiters = 0) : Sound m.reset where
  owner := h.owner
  nodup := h.nodup
  inside := h.inside
  waiters := hzero.symm.trans h.waiters

/-! ## The phase of one thread changes -/

/-- The lock stays where it is. -/
private theorem owner_keep {m : Monitor T} (h : Sound m) {t : T} {p : Phase}
    (hp : p.holds = (m.phase t).holds) (u : T) :
    m.owner = some u ↔ (Function.update m.phase t p u).holds = true := by
  rw [h.owner]
  by_cases hu : u = t
  · subst hu
    rw [Function.update_self, hp]
  · rw [Function.update_of_ne hu]

/-- A thread takes the free lock. -/
private theorem owner_take {m : Monitor T} (h : Sound m) (hfree : m.owner = none) {t : T}
    {p : Phase} (hp : p.holds = true) (u : T) :
    some t = some u ↔ (Function.update m.phase t p u).holds = true := by
  by_cases hu : u = t
  · subst hu
    simp [hp]
  · have hnot : ¬ (m.phase u).holds = true := by
      rw [← h.owner, hfree]
      simp
    rw [Function.update_of_ne hu]
    simp [hnot, Ne.symm hu]

/-- A thread releases the lock. -/
private theorem owner_release {m : Monitor T} (h : Sound m) {t : T} {p : Phase}
    (ht : (m.phase t).holds = true) (hp : p.holds = false) (u : T) :
    none = some u ↔ (Function.update m.phase t p u).holds = true := by
  by_cases hu : u = t
  · subst hu
    simp [hp]
  · have hnot : ¬ (m.phase u).holds = true := by
      rw [← h.owner, (h.owner t).mpr ht]
      simpa using Ne.symm hu
    rw [Function.update_of_ne hu]
    simp [hnot]

/-- The threads counted stay the same. -/
private theorem inside_keep {m : Monitor T} (h : Sound m) {t : T} {p : Phase}
    (hp : p.isCounted = (m.phase t).isCounted) (u : T) :
    u ∈ m.inside ↔ (Function.update m.phase t p u).isCounted = true := by
  rw [h.inside]
  by_cases hu : u = t
  · subst hu
    rw [Function.update_self, hp]
  · rw [Function.update_of_ne hu]

/-- A thread counts itself. -/
private theorem inside_add {m : Monitor T} (h : Sound m) {t : T} {p : Phase}
    (hp : p.isCounted = true) (u : T) :
    u ∈ t :: m.inside ↔ (Function.update m.phase t p u).isCounted = true := by
  rw [List.mem_cons, h.inside]
  by_cases hu : u = t
  · subst hu
    simp [hp]
  · simp [hu]

/-- A thread takes itself off the count. -/
private theorem inside_remove {m : Monitor T} (h : Sound m) {t : T} {p : Phase}
    (hp : p.isCounted = false) (u : T) :
    u ∈ m.inside.erase t ↔ (Function.update m.phase t p u).isCounted = true := by
  rw [h.nodup.mem_erase_iff, h.inside]
  by_cases hu : u = t
  · subst hu
    simp [hp]
  · simp [hu]

private theorem waiters_remove {m : Monitor T} (h : Sound m) {t : T}
    (ht : (m.phase t).isCounted = true) : m.waiters - 1 = ((m.inside.erase t).length : ℤ) := by
  have hmem : t ∈ m.inside := (h.inside t).mpr ht
  have hpos : 0 < m.inside.length := List.length_pos_of_mem hmem
  rw [List.length_erase_of_mem hmem, h.waiters]
  omega

/-- A thread moves between two phases that agree about the lock and the count. -/
private theorem Sound.move {m : Monitor T} (h : Sound m) {t : T} {p : Phase}
    (hholds : p.holds = (m.phase t).holds) (hcounted : p.isCounted = (m.phase t).isCounted) :
    Sound (m.move t p) :=
  ⟨owner_keep h hholds, h.nodup, inside_keep h hcounted, h.waiters⟩

private theorem Sound.release {m : Monitor T} (h : Sound m) {t : T} {p : Phase}
    (ht : (m.phase t).holds = true) (hp : p.holds = false)
    (hcounted : p.isCounted = (m.phase t).isCounted) :
    Sound { m.move t p with owner := none } :=
  ⟨owner_release h ht hp, h.nodup, inside_keep h hcounted, h.waiters⟩

private theorem Sound.take {m : Monitor T} (h : Sound m) (hfree : m.owner = none) {t : T}
    {p : Phase} (hp : p.holds = true) (hcounted : p.isCounted = (m.phase t).isCounted) :
    Sound { m.move t p with owner := some t } :=
  ⟨owner_take h hfree hp, h.nodup, inside_keep h hcounted, h.waiters⟩

/-- Every operation keeps the lock and the count in step with the phases. -/
theorem Sound.step {m m' : Monitor T} (h : Sound m) {t : T} {op : Op}
    (hstep : m.step t op = some m') : Sound m' := by
  cases op with
  | enter | knock | refuse | rouse =>
      simp only [Monitor.step] at hstep
      split at hstep <;> cases hstep
      rename_i hphase
      exact h.move (by rw [hphase]; rfl) (by rw [hphase]; rfl)
  | pass | sleep =>
      simp only [Monitor.step] at hstep
      split at hstep <;> cases hstep
      rename_i hphase
      exact h.release (by rw [hphase]; rfl) rfl (by rw [hphase]; rfl)
  | lock =>
      simp only [Monitor.step] at hstep
      split at hstep <;> cases hstep
      all_goals
        rename_i hfree hphase
        exact h.take hfree rfl (by rw [hphase]; rfl)
  | count =>
      simp only [Monitor.step] at hstep
      split at hstep <;> cases hstep
      rename_i hphase
      have hnew : t ∉ m.inside := by
        rw [h.inside, hphase]
        simp [Phase.isCounted]
      exact ⟨owner_keep h (by rw [hphase]; rfl), List.nodup_cons.mpr ⟨hnew, h.nodup⟩,
        inside_add h rfl, by simp [h.waiters]⟩
  | again =>
      simp only [Monitor.step] at hstep
      split at hstep <;> cases hstep
      rename_i hphase
      exact ⟨owner_keep h (by rw [hphase]; rfl), h.nodup.erase t, inside_remove h rfl,
        waiters_remove h (by rw [hphase]; rfl)⟩
  | giveUp =>
      simp only [Monitor.step] at hstep
      split at hstep <;> cases hstep
      rename_i hphase
      exact ⟨owner_release h (by rw [hphase]; rfl) rfl, h.nodup.erase t, inside_remove h rfl,
        waiters_remove h (by rw [hphase]; rfl)⟩
  | hear =>
      simp only [Monitor.step] at hstep
      split at hstep <;> cases hstep
      rename_i hphase
      refine h.release (by rw [hphase]; rfl) ?_ ?_ <;> split <;> simp [hphase, Phase.holds,
        Phase.isCounted]
  | broadcast =>
      simp only [Monitor.step] at hstep
      split at hstep <;> cases hstep
      rename_i hphase
      refine ⟨fun u => ?_, h.nodup, fun u => ?_, h.waiters⟩
      · rw [h.owner]
        by_cases hu : u = t
        · simp [hu, hphase, Phase.holds]
        · by_cases hb : m.phase u = .blocked <;> simp [hu, hb, Phase.holds]
      · rw [h.inside]
        by_cases hu : u = t
        · simp [hu, hphase, Phase.isCounted]
        · by_cases hb : m.phase u = .blocked <;> simp [hu, hb, Phase.isCounted]

/-! ## Wake-ups -/

/-- A wake-up by one of the threads `who` is under way that will reach `t`. -/
def Rousing (m : Monitor T) (who : T → Prop) (t : T) : Prop :=
  ∃ u, who u ∧ (m.phase u = .knock ∨
    m.phase t = .blocked ∧ (m.phase u = .barrier ∨ m.phase u = .signal))

/-- A thread that was told to wait still must, or it is about to be woken. -/
def Covered (m : Monitor T) (who must : T → Prop) : Prop :=
  ∀ t, (m.phase t).refused = true → must t ∨ m.Rousing who t

omit [DecidableEq T] in
theorem covered_idle (who must : T → Prop) : Covered (idle : Monitor T) who must := by
  intro t ht
  cases ht

omit [DecidableEq T] in
theorem Covered.mono {m : Monitor T} {who must must' : T → Prop} (h : Covered m who must)
    (himp : ∀ t, (m.phase t).refused = true → must t → must' t) : Covered m who must' :=
  fun t ht => (h t ht).imp_left (himp t ht)

/-- A wake-up that starts now reaches everybody. -/
theorem Covered.knock {m m' : Monitor T} {who : T → Prop} (must : T → Prop) {t : T} (ht : who t)
    (hstep : m.step t .knock = some m') : Covered m' who must := by
  simp only [Monitor.step] at hstep
  split at hstep <;> cases hstep
  exact fun u _ => Or.inr ⟨t, ht, Or.inl (by simp [Monitor.move])⟩

/-- A thread that is not waking others moves. -/
private theorem Covered.update {m m' : Monitor T} {who must : T → Prop} (h : Covered m who must)
    {t : T} {p : Phase} (hphase : m'.phase = Function.update m.phase t p)
    (ht : (m.phase t).wakes = false)
    (hp : p.refused = true → must t ∨ (m.phase t).refused = true ∧ m.phase t ≠ .blocked) :
    Covered m' who must := by
  have hawake : ∀ u, (m.phase u).wakes = true → m'.phase u = m.phase u := by
    intro u hu
    rw [hphase, Function.update_of_ne]
    rintro rfl
    simp [ht] at hu
  intro v hv
  by_cases hvt : v = t
  · subst hvt
    rw [hphase, Function.update_self] at hv
    rcases hp hv with hmust | ⟨hrefused, hnot⟩
    · exact Or.inl hmust
    · refine (h v hrefused).imp_right ?_
      rintro ⟨u, hu, hknock | ⟨hblocked, -⟩⟩
      · exact ⟨u, hu, Or.inl (by rw [hawake u (by rw [hknock]; rfl), hknock])⟩
      · exact absurd hblocked hnot
  · have hsame : m'.phase v = m.phase v := by rw [hphase, Function.update_of_ne hvt]
    rw [hsame] at hv
    refine (h v hv).imp_right ?_
    rintro ⟨u, hu, hknock | ⟨hblocked, hlate⟩⟩
    · exact ⟨u, hu, Or.inl (by rw [hawake u (by rw [hknock]; rfl), hknock])⟩
    · have hu' : m'.phase u = m.phase u := hawake u (by rcases hlate with h | h <;> rw [h] <;> rfl)
      exact ⟨u, hu, Or.inr ⟨by rw [hsame, hblocked], by rw [hu']; exact hlate⟩⟩

/-- A thread that wakes others moves on; the threads still asleep are told by what it does
next, and the others hold the lock or have been woken. -/
private theorem Covered.pass_on {m m' : Monitor T} {who must : T → Prop} (h : Covered m who must)
    {t : T} (hother : ∀ u, u ≠ t → m'.phase u = m.phase u ∨
      m.phase u = .blocked ∧ m'.phase u = .woken)
    (ht : (m'.phase t).refused = false)
    (hself : ∀ v, (m'.phase v).refused = true → m.phase t = .knock ∨ m.phase v = .blocked →
      m'.phase v = .blocked ∧ (m'.phase t = .barrier ∨ m'.phase t = .signal)) :
    Covered m' who must := by
  intro v hv
  have hvt : v ≠ t := by
    rintro rfl
    rw [ht] at hv
    cases hv
  have hsame : m'.phase v = m.phase v := by
    rcases hother v hvt with hsame | ⟨-, hwoken⟩
    · exact hsame
    · rw [hwoken] at hv
      cases hv
  have hold := hv
  rw [hsame] at hold
  refine (h v hold).imp_right ?_
  rintro ⟨u, hu, hrouse⟩
  by_cases hut : u = t
  · subst hut
    refine ⟨u, hu, Or.inr (hself v hv (hrouse.imp_right And.left))⟩
  · have hawake : (m.phase u).wakes = true := by
      rcases hrouse with hk | ⟨-, hb | hs⟩
      · rw [hk]; rfl
      · rw [hb]; rfl
      · rw [hs]; rfl
    have hu' : m'.phase u = m.phase u := by
      rcases hother u hut with hsame | ⟨hblocked, -⟩
      · exact hsame
      · rw [hblocked] at hawake
        cases hawake
    refine ⟨u, hu, ?_⟩
    rw [hu', hsame]
    exact hrouse

/-- Every operation keeps the wake-ups, if a thread is told to wait only when it must. -/
theorem Covered.step {m m' : Monitor T} {who must : T → Prop} (hsound : Sound m)
    (h : Covered m who must) {t : T} {op : Op} (hstep : m.step t op = some m')
    (hmust : op = .refuse → must t) : Covered m' who must := by
  cases op with
  | enter | knock | pass | rouse | again | giveUp =>
      simp only [Monitor.step] at hstep
      split at hstep <;> cases hstep
      rename_i hphase
      exact h.update rfl (by rw [hphase]; rfl) nofun
  | refuse =>
      simp only [Monitor.step] at hstep
      split at hstep <;> cases hstep
      rename_i hphase
      exact h.update rfl (by rw [hphase]; rfl) fun _ => Or.inl (hmust rfl)
  | count | sleep =>
      simp only [Monitor.step] at hstep
      split at hstep <;> cases hstep
      rename_i hphase
      exact h.update rfl (by rw [hphase]; rfl) fun _ => Or.inr (by simp [hphase, Phase.refused])
  | lock =>
      simp only [Monitor.step] at hstep
      split at hstep <;> cases hstep
      · rename_i hphase
        exact h.update rfl (by rw [hphase]; rfl) nofun
      · rename_i hphase
        exact h.update rfl (by rw [hphase]; rfl) nofun
      · rename_i hfree hphase
        refine h.pass_on (t := t) (fun u hu => Or.inl (Function.update_of_ne hu _ _)) ?_ ?_
        · simp [Monitor.move, Phase.refused]
        · intro v hv _
          -- the lock is free, so whoever was told to wait is asleep
          have hnot : (m.phase v).holds = false := by
            rw [Bool.eq_false_iff, Ne, ← hsound.owner, hfree]
            simp
          have hvt : v ≠ t := by
            rintro rfl
            simp [Monitor.move, Phase.refused] at hv
          simp only [Monitor.move, Function.update_of_ne hvt, Function.update_self] at hv ⊢
          refine ⟨?_, by simp⟩
          cases hp : m.phase v <;> simp_all [Phase.refused, Phase.holds]
  | hear =>
      simp only [Monitor.step] at hstep
      split at hstep <;> cases hstep
      rename_i hphase
      refine h.pass_on (t := t) (fun u hu => Or.inl (Function.update_of_ne hu _ _)) ?_ ?_
      · simp only [Monitor.move, Function.update_self]
        split <;> rfl
      · intro v hv hreached
        have hblocked : m.phase v = .blocked :=
          hreached.resolve_left fun hk => by rw [hphase] at hk; cases hk
        have hvt : v ≠ t := by
          rintro rfl
          simp [hphase] at hblocked
        -- a thread asleep is counted, so that the count is not zero
        have hmem : v ∈ m.inside := by
          rw [hsound.inside, hblocked]
          rfl
        have hpos : m.waiters ≠ 0 := by
          have hlen : 0 < m.inside.length := List.length_pos_of_mem hmem
          rw [hsound.waiters]
          omega
        simp [Monitor.move, hvt, hblocked, hpos]
  | broadcast =>
      simp only [Monitor.step] at hstep
      split at hstep <;> cases hstep
      rename_i hphase
      refine h.pass_on (t := t) (fun u hu => ?_) (by simp [Phase.refused]) ?_
      · by_cases hb : m.phase u = .blocked <;> simp [hu, hb]
      · intro v hv hblocked
        have hvt : v ≠ t := by
          rintro rfl
          simp [Phase.refused] at hv
        rcases hblocked with hk | hb
        · rw [hphase] at hk
          cases hk
        · simp [hvt, hb, Phase.refused] at hv

omit [DecidableEq T] in
/-- **No lost wake-up.**  While nobody who could have changed that is still waking others, a
thread asleep must wait. -/
theorem Covered.must_of_blocked {m : Monitor T} {who must : T → Prop} (h : Covered m who must)
    {t : T} (ht : m.phase t = .blocked) (hquiet : ∀ u, who u → (m.phase u).wakes = false) :
    must t := by
  rcases h t (by rw [ht]; rfl) with hmust | ⟨u, hu, hrouse⟩
  · exact hmust
  · have hawake := hquiet u hu
    rcases hrouse with hk | ⟨-, hb | hs⟩
    · rw [hk] at hawake; cases hawake
    · rw [hb] at hawake; cases hawake
    · rw [hs] at hawake; cases hawake

/-! ## The two together -/

/-- The lock and the count are in step, and no wake-up is lost. -/
structure Watched (m : Monitor T) (who must : T → Prop) : Prop where
  sound : Sound m
  covered : Covered m who must

omit [DecidableEq T] in
theorem watched_idle (who must : T → Prop) : Watched (idle : Monitor T) who must :=
  ⟨sound_idle, covered_idle who must⟩

section Watched

variable {m m' : Monitor T} {who must must' : T → Prop} {t : T} {op : Op}

theorem Watched.step (h : Watched m who must) (hstep : m.step t op = some m')
    (hmust : op = .refuse → must t) : Watched m' who must :=
  ⟨h.sound.step hstep, h.covered.step h.sound hstep hmust⟩

/-- Whatever is required from now on, a wake-up that starts now will tell. -/
theorem Watched.knock (h : Watched m who must) (ht : who t) (hstep : m.step t .knock = some m') :
    Watched m' who must' :=
  ⟨h.sound.step hstep, .knock must' ht hstep⟩

omit [DecidableEq T] in
theorem Watched.mono (h : Watched m who must)
    (himp : ∀ t, (m.phase t).refused = true → must t → must' t) : Watched m who must' :=
  ⟨h.sound, h.covered.mono himp⟩

omit [DecidableEq T] in
theorem Watched.reset (h : Watched m who must) (hzero : m.waiters = 0) :
    Watched m.reset who must :=
  ⟨h.sound.reset hzero, h.covered⟩

end Watched

/-- An operation of another thread leaves a thread alone that is not at the monitor. -/
theorem step_away {m m' : Monitor T} {t u : T} {op : Op} (hstep : m.step t op = some m')
    (hu : u ≠ t) (haway : m.phase u = .away) : m'.phase u = .away := by
  cases op with
  | lock =>
      simp only [Monitor.step] at hstep
      split at hstep <;> cases hstep
      all_goals simpa [Monitor.move, Function.update_of_ne hu] using haway
  | broadcast =>
      simp only [Monitor.step] at hstep
      split at hstep <;> cases hstep
      simp [hu, haway]
  | _ =>
      simp only [Monitor.step] at hstep
      split at hstep <;> cases hstep
      simpa [Monitor.move, Function.update_of_ne hu] using haway

end Monitor

end DzIpc
