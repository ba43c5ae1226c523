import DzIpc.Library.Machine
import Mathlib.Algebra.GroupWithZero.Nat
import Mathlib.Logic.Function.Basic

/-!
# `count_sem`

A counter with a maximum, a mutex and a condition variable.  Every call looks at the counter and
changes it while it holds the mutex, so that this is one step; a `wait` that finds 0 blocks, which
releases the mutex, and looks again whenever it wakes, notified or not, and when its time is up.

`post` compares the counter with `max_count_ - count` in 32 bits.

* `Effect` is what a call can do in the step in which it returns, and `step_cases` what a step can.
* `counts_iff`: the counter stays within its maximum and agrees with the calls as long as no
  `post` asks for more than the maximum, and no longer.
* `counts_default`: with the default maximum it always does.
-/

namespace DzIpc.LibIpc

/-- `count_sem`. -/
structure CountSem where
  count : UInt32
  maxCount : UInt32
  deriving DecidableEq, Repr

namespace CountSem

/-! ## The calls -/

/-- `IPC_INVALID_VALUE`: no time-out. -/
def invalidValue : UInt64 := 0xFFFFFFFFFFFFFFFF

/-- `--count_`. -/
def take (sem : CountSem) : CountSem := { sem with count := sem.count - 1 }

/-- `try_wait`. -/
def tryWait (sem : CountSem) : Bool × CountSem :=
  if sem.count = 0 then (false, sem) else (true, sem.take)

/-- The predicate of `wait` and what follows it; `none`: it blocks. -/
def await (sem : CountSem) : Option (Bool × CountSem) :=
  if sem.count > 0 then some (true, sem.take) else none

/-- `wait`, up to the first look at the counter. -/
def wait (sem : CountSem) (tm : UInt64) : Option (Bool × CountSem) :=
  if tm = invalidValue then sem.await
  else if tm = 0 then
    if sem.count = 0 then some (false, sem) else some (true, sem.take)
  else sem.await

/-- The last look of `wait_for`, when the time is up. -/
def expire (sem : CountSem) : Bool × CountSem :=
  if sem.count > 0 then (true, sem.take) else (false, sem)

/-- `post`. -/
def post (sem : CountSem) (count : UInt32) : Bool × CountSem :=
  if count = 0 then (true, sem)
  else if sem.count > sem.maxCount - count then (false, sem)
  else (true, { sem with count := sem.count + count })

inductive Call
  | tryWait
  | wait (tm : UInt64)
  | post (count : UInt32)
  deriving DecidableEq, Repr

/-- A call up to where it returns or blocks. -/
def enter (sem : CountSem) : Call → Option (Bool × CountSem)
  | .tryWait => some sem.tryWait
  | .wait tm => sem.wait tm
  | .post count => some (sem.post count)

/-! ## The threads -/

inductive Place
  | outside
  /-- Blocked in `wait`. -/
  | blocked (tm : UInt64)
  deriving DecidableEq, Repr

/-- A call that has returned, with the counter before and after the step in which it did. -/
structure Returned where
  call : Call
  result : Bool
  before : UInt32
  after : UInt32
  deriving DecidableEq, Repr

/-- The semaphore, where each thread is, and the calls that have returned. -/
structure State (T : Type) where
  sem : CountSem
  threads : T → Place
  log : List Returned

inductive Action (T : Type)
  | call (i : T) (call : Call)
  /-- A blocked thread wakes and looks at the counter. -/
  | wake (i : T)
  | timeout (i : T)
  deriving DecidableEq

variable {T : Type} [DecidableEq T]

/-- A call returns. -/
def State.returns (s : State T) (i : T) (call : Call) (res : Bool × CountSem) : State T :=
  { sem := res.2
    threads := Function.update s.threads i .outside
    log := s.log ++ [⟨call, res.1, s.sem.count, res.2.count⟩] }

def step (s : State T) : Action T → Option (State T)
  | .call i call =>
      if s.threads i = .outside then
        match s.sem.enter call, call with
        | some res, _ => some (s.returns i call res)
        | none, .wait tm => some { s with threads := Function.update s.threads i (.blocked tm) }
        | none, _ => none
      else none
  | .wake i =>
      match s.threads i with
      | .blocked tm =>
          match s.sem.await with
          | some res => some (s.returns i (.wait tm) res)
          | none => some s
      | .outside => none
  | .timeout i =>
      match s.threads i with
      | .blocked tm =>
          if tm = invalidValue then none else some (s.returns i (.wait tm) s.sem.expire)
      | .outside => none

/-- A semaphore with the threads that use it. -/
def machine (T : Type) [DecidableEq T] (count maxCount : UInt32) : Machine (State T) (Action T) :=
  { init := ⟨⟨count, maxCount⟩, fun _ => .outside, []⟩, step }

/-! ## The count -/

/-- What an accepted `post` has added. -/
def Returned.posted (r : Returned) : ℕ :=
  match r.call, r.result with
  | .post count, true => count.toNat
  | _, _ => 0

/-- Whether it is a successful wait. -/
def Returned.waited (r : Returned) : ℕ :=
  match r.call, r.result with
  | .tryWait, true | .wait _, true => 1
  | _, _ => 0

/-- The counter is within its maximum; a `post` that failed has left it alone; and it is the
initial count, and what has been posted, less the successful waits. -/
structure Counts (count maxCount : UInt32) (s : State T) : Prop where
  constant : s.sem.maxCount = maxCount
  bounded : s.sem.count ≤ maxCount
  unchanged : ∀ r ∈ s.log, ∀ n, r.call = .post n → r.result = false → r.after = r.before
  balanced : s.sem.count.toNat + (s.log.map Returned.waited).sum =
    count.toNat + (s.log.map Returned.posted).sum

/-- A `post` asks for at most the maximum. -/
def Call.WithinMax (maxCount : UInt32) : Call → Prop
  | .post count => count ≤ maxCount
  | .tryWait | .wait _ => True

def Action.WithinMax (maxCount : UInt32) : Action T → Prop
  | .call _ c => c.WithinMax maxCount
  | .wake _ | .timeout _ => True

instance (maxCount : UInt32) (call : Call) : Decidable (call.WithinMax maxCount) := by
  cases call <;> unfold Call.WithinMax <;> infer_instance

instance (maxCount : UInt32) (a : Action T) : Decidable (a.WithinMax maxCount) := by
  cases a <;> unfold Action.WithinMax <;> infer_instance

variable {sem : CountSem} {s t : State T} {count maxCount n : UInt32}

/-! ## What a call does -/

/-- What a call can do to the counter in the step in which it returns. -/
inductive Effect (sem : CountSem) : Call → Bool × CountSem → Prop
  | waitFailed {call : Call} (hwait : ∀ n, call ≠ .post n) : Effect sem call (false, sem)
  | waited {call : Call} (hwait : call = .tryWait ∨ ∃ tm, call = .wait tm)
      (hpos : 0 < sem.count.toNat) : Effect sem call (true, sem.take)
  | postFailed {n : UInt32} (hlt : sem.maxCount - n < sem.count) : Effect sem (.post n) (false, sem)
  | posted {n : UInt32} (hle : n = 0 ∨ sem.count ≤ sem.maxCount - n) :
      Effect sem (.post n) (true, { sem with count := sem.count + n })

theorem pos_of_ne_zero (h : sem.count ≠ 0) : 0 < sem.count.toNat :=
  Nat.pos_of_ne_zero fun hzero => h (UInt32.toNat_inj.mp hzero)

theorem effect_await {tm : UInt64} {res : Bool × CountSem} (h : sem.await = some res) :
    Effect sem (.wait tm) res := by
  unfold await at h
  split at h
  · rename_i hpos
    cases h
    exact .waited (Or.inr ⟨tm, rfl⟩) (UInt32.lt_iff_toNat_lt.mp hpos)
  · cases h

theorem effect_expire (tm : UInt64) : Effect sem (.wait tm) sem.expire := by
  unfold expire
  split
  · rename_i hpos
    exact .waited (Or.inr ⟨tm, rfl⟩) (UInt32.lt_iff_toNat_lt.mp hpos)
  · exact .waitFailed fun n heq => Call.noConfusion heq

theorem effect_post : Effect sem (.post n) (sem.post n) := by
  unfold post
  split
  · rename_i hzero
    subst hzero
    have hsame : (true, sem) = (true, { sem with count := sem.count + 0 }) := by
      rw [UInt32.add_zero]
    rw [hsame]
    exact .posted (Or.inl rfl)
  · split
    · rename_i hlt
      exact .postFailed hlt
    · rename_i hle
      exact .posted (Or.inr (UInt32.not_lt.mp hle))

theorem effect_enter {call : Call} {res : Bool × CountSem} (h : sem.enter call = some res) :
    Effect sem call res := by
  cases call with
  | tryWait =>
      cases h
      unfold tryWait
      split
      · exact .waitFailed fun n heq => Call.noConfusion heq
      · rename_i hne
        exact .waited (Or.inl rfl) (pos_of_ne_zero hne)
  | wait tm =>
      simp only [enter, wait] at h
      split at h
      · exact effect_await h
      split at h
      · split at h
        · cases h
          exact .waitFailed fun n heq => Call.noConfusion heq
        · rename_i hne
          cases h
          exact .waited (Or.inr ⟨tm, rfl⟩) (pos_of_ne_zero hne)
      · exact effect_await h
  | post n =>
      cases h
      exact effect_post

/-- A step blocks or wakes a thread, or a call returns in it. -/
theorem step_cases (maxCount : UInt32) {a : Action T} (hstep : step s a = some t) :
    (t.sem = s.sem ∧ t.log = s.log ∧ a.WithinMax maxCount) ∨
      ∃ i call res, Effect s.sem call res ∧ t = s.returns i call res ∧
        (a.WithinMax maxCount ↔ call.WithinMax maxCount) := by
  cases a with
  | call i call =>
      simp only [step] at hstep
      split at hstep
      · split at hstep
        · rename_i henter
          cases hstep
          exact Or.inr ⟨i, _, _, effect_enter henter, rfl, Iff.rfl⟩
        · cases hstep
          exact Or.inl ⟨rfl, rfl, trivial⟩
        · cases hstep
      · cases hstep
  | wake i =>
      simp only [step] at hstep
      split at hstep
      · rename_i tm _
        split at hstep
        · rename_i res hawait
          cases hstep
          exact Or.inr ⟨i, .wait tm, res, effect_await hawait, rfl, Iff.rfl⟩
        · cases hstep
          exact Or.inl ⟨rfl, rfl, trivial⟩
      · cases hstep
  | timeout i =>
      simp only [step] at hstep
      split at hstep
      · rename_i tm _
        split at hstep
        · cases hstep
        · cases hstep
          exact Or.inr ⟨i, .wait tm, _, effect_expire tm, rfl, Iff.rfl⟩
      · cases hstep

/-! ## The overflow test -/

/-- Where `count` is at most the maximum, the test compares the sum with the maximum. -/
theorem le_sub_iff (hn : n ≤ sem.maxCount) :
    sem.count ≤ sem.maxCount - n ↔ sem.count.toNat + n.toNat ≤ sem.maxCount.toNat := by
  rw [UInt32.le_iff_toNat_le] at hn ⊢
  rw [UInt32.toNat_sub_of_le _ _ (UInt32.le_iff_toNat_le.mpr hn)]
  omega

/-- Where it is greater, the difference wraps, and the test passes whatever the counter is. -/
theorem le_sub_of_lt (hle : sem.count ≤ sem.maxCount) (hn : sem.maxCount < n) :
    sem.count ≤ sem.maxCount - n := by
  rw [UInt32.le_iff_toNat_le] at hle ⊢
  rw [UInt32.lt_iff_toNat_lt] at hn
  have hn32 := n.toNat_lt
  rw [UInt32.toNat_sub]
  omega

/-! ## Runs -/

section

variable {start : UInt32} {i : T} {call : Call} {res : Bool × CountSem}

/-- A call returns, and the counter agrees with the calls again. -/
theorem Counts.returns (h : Counts start maxCount s) (hconst : res.2.maxCount = maxCount)
    (hle : res.2.count ≤ maxCount)
    (hsame : ∀ n, call = .post n → res.1 = false → res.2.count = s.sem.count)
    (hsum : res.2.count.toNat + Returned.waited ⟨call, res.1, s.sem.count, res.2.count⟩ =
      s.sem.count.toNat + Returned.posted ⟨call, res.1, s.sem.count, res.2.count⟩) :
    Counts start maxCount (s.returns i call res) := by
  refine ⟨hconst, hle, fun r hr n hcall hfail => ?_, ?_⟩
  · rcases List.mem_append.mp hr with hold | hnew
    · exact h.unchanged r hold n hcall hfail
    · obtain rfl := List.mem_singleton.mp hnew
      exact hsame n hcall hfail
  · have hbalanced := h.balanced
    simp only [State.returns, List.map_append, List.map_singleton, List.sum_append,
      List.sum_singleton]
    omega

theorem counts_waitFailed (h : Counts start maxCount s) (hwait : ∀ n, call ≠ .post n) :
    Counts start maxCount (s.returns i call (false, s.sem)) := by
  refine h.returns h.constant h.bounded (fun _ _ _ => rfl) ?_
  cases call with
  | tryWait => rfl
  | wait tm => rfl
  | post n => exact absurd rfl (hwait n)

theorem counts_waited (h : Counts start maxCount s)
    (hwait : call = .tryWait ∨ ∃ tm, call = .wait tm) (hpos : 0 < s.sem.count.toNat) :
    Counts start maxCount (s.returns i call (true, s.sem.take)) := by
  have hone : (1 : UInt32) ≤ s.sem.count := UInt32.le_iff_toNat_le.mpr hpos
  have htake : s.sem.take.count.toNat = s.sem.count.toNat - 1 := UInt32.toNat_sub_of_le _ _ hone
  have hle := UInt32.le_iff_toNat_le.mp h.bounded
  refine h.returns h.constant ?_ (fun _ _ hfail => Bool.noConfusion hfail) ?_
  · rw [UInt32.le_iff_toNat_le, htake]
    omega
  · rcases hwait with rfl | ⟨tm, rfl⟩ <;> simp only [Returned.waited, Returned.posted] <;> omega

theorem counts_posted (h : Counts start maxCount s) (hn : n ≤ maxCount)
    (hle : n = 0 ∨ s.sem.count ≤ s.sem.maxCount - n) :
    Counts start maxCount
      (s.returns i (.post n) (true, { s.sem with count := s.sem.count + n })) := by
  have hmax := maxCount.toNat_lt
  have hsum : s.sem.count.toNat + n.toNat ≤ maxCount.toNat := by
    rcases hle with rfl | hle
    · exact UInt32.le_iff_toNat_le.mp h.bounded
    · rw [← h.constant] at hn ⊢
      exact (le_sub_iff hn).mp hle
  have hadd : (s.sem.count + n).toNat = s.sem.count.toNat + n.toNat := by
    rw [UInt32.toNat_add]
    omega
  refine h.returns h.constant ?_ (fun _ _ hfail => Bool.noConfusion hfail) ?_
  · rw [UInt32.le_iff_toNat_le, hadd]
    exact hsum
  · exact hadd

/-- An accepted `post` of more than the maximum raises the counter over it, or loses a lap of the
counter. -/
theorem not_counts_posted (h : Counts start maxCount s) (hn : maxCount < n) :
    ¬ Counts start maxCount
      (s.returns i (.post n) (true, { s.sem with count := s.sem.count + n })) := by
  intro hcounts
  have hold := h.balanced
  have hnew := hcounts.balanced
  have hle := UInt32.le_iff_toNat_le.mp hcounts.bounded
  have hlt := UInt32.lt_iff_toNat_lt.mp hn
  simp only [State.returns, List.map_append, List.map_singleton, List.sum_append,
    List.sum_singleton, Returned.waited, Returned.posted] at hnew hle
  omega

/-- The step in which a call returns. -/
theorem counts_effect (h : Counts start maxCount s) (heffect : Effect s.sem call res) :
    call.WithinMax maxCount ↔ Counts start maxCount (s.returns i call res) := by
  cases heffect with
  | waitFailed hwait =>
      refine iff_of_true ?_ (counts_waitFailed h hwait)
      cases call with
      | tryWait => trivial
      | wait tm => trivial
      | post n => exact absurd rfl (hwait n)
  | waited hwait hpos =>
      refine iff_of_true ?_ (counts_waited h hwait hpos)
      rcases hwait with rfl | ⟨tm, rfl⟩ <;> trivial
  | @postFailed n hlt =>
      have hfailed : Counts start maxCount (s.returns i (.post n) (false, s.sem)) :=
        h.returns h.constant h.bounded (fun _ _ _ => rfl) rfl
      refine iff_of_true ?_ hfailed
      -- were it more than the maximum, the test would have passed
      by_contra hn
      have hle : s.sem.count ≤ s.sem.maxCount := h.constant.symm ▸ h.bounded
      have hmore : s.sem.maxCount < n := h.constant.symm ▸ UInt32.not_le.mp hn
      exact UInt32.not_lt.mpr (le_sub_of_lt hle hmore) hlt
  | posted hle =>
      constructor
      · exact fun hn => counts_posted h hn hle
      · intro hcounts
        by_contra hn
        exact not_counts_posted h (UInt32.not_le.mp hn) hcounts

end

/-- The next step keeps the count just if it is no `post` of more than the maximum. -/
theorem counts_step {a : Action T} (h : Counts count maxCount s) (hstep : step s a = some t) :
    a.WithinMax maxCount ↔ Counts count maxCount t := by
  rcases step_cases maxCount hstep with ⟨hsem, hlog, hmax⟩ | ⟨i, call, res, heffect, rfl, hmax⟩
  · refine iff_of_true hmax ⟨?_, ?_, ?_, ?_⟩
    · rw [hsem]
      exact h.constant
    · rw [hsem]
      exact h.bounded
    · rw [hlog]
      exact h.unchanged
    · rw [hsem, hlog]
      exact h.balanced
  · exact hmax.trans (counts_effect h heffect)

theorem counts_init (hle : count ≤ maxCount) :
    Counts count maxCount (machine T count maxCount).init :=
  ⟨rfl, hle, fun _ hr => absurd hr List.not_mem_nil, rfl⟩

/-- **The count.**  It is kept all through a run just if no `post` of the run asks for more than
the maximum. -/
theorem counts_iff (T : Type) [DecidableEq T] {count maxCount : UInt32} (hle : count ≤ maxCount)
    {actions : List (Action T)} {s : State T}
    (hrun : (machine T count maxCount).run actions = some s) :
    (∀ k t, (machine T count maxCount).run (actions.take k) = some t →
        Counts count maxCount t) ↔
      ∀ a ∈ actions, a.WithinMax maxCount := by
  rw [← Machine.guardedFrom_iff_forall hrun]
  exact Machine.forall_take_iff_guardedFrom (fun _ _ _ h hstep => counts_step h hstep)
    (counts_init hle) hrun

/-- A thread waits for the other one's `post`, of which it takes one; the last `post` would go
over the maximum and fails. -/
def turns : List (Action Bool) :=
  [.call true (.wait invalidValue), .call false (.post 2), .wake true, .call true .tryWait,
    .call false (.post 3), .call false (.post 1)]

theorem counts_iff_turns : ∃ s, (machine Bool 0 3).run turns = some s ∧ s.sem.count = 3 ∧
    s.log.map Returned.result = [true, true, true, true, false] ∧
      ∀ k t, (machine Bool 0 3).run (turns.take k) = some t → Counts 0 3 t :=
  ⟨_, rfl, rfl, rfl, (counts_iff Bool (by decide) rfl).mpr (by decide)⟩

/-- A `post` of 11 to a semaphore of at most 10 is accepted. -/
theorem maximum_exceeded : ¬ ∀ (count maxCount : UInt32) (actions : List (Action Unit))
    (s : State Unit), count ≤ maxCount → (machine Unit count maxCount).run actions = some s →
      Counts count maxCount s := by
  intro hall
  have hcounts := hall 0 10 [.call () (.post 11)] _ (by decide) rfl
  exact absurd hcounts.bounded (by decide)

omit [DecidableEq T] in
theorem withinMax_default (a : Action T) : a.WithinMax 0xFFFFFFFF := by
  cases a with
  | call i call =>
      cases call with
      | tryWait => trivial
      | wait tm => trivial
      | post n => exact UInt32.le_iff_toNat_le.mpr (Nat.le_of_lt_succ n.toNat_lt)
  | wake i => trivial
  | timeout i => trivial

/-- A semaphore with the default maximum keeps the count whatever is posted. -/
theorem counts_default {actions : List (Action T)}
    (hrun : (machine T count 0xFFFFFFFF).run actions = some s) : Counts count 0xFFFFFFFF s := by
  have hle : count ≤ 0xFFFFFFFF := UInt32.le_iff_toNat_le.mpr (Nat.le_of_lt_succ count.toNat_lt)
  exact Machine.invariant (counts_init hle)
    (fun _ a _ h hstep => (counts_step h hstep).mp (withinMax_default a)) hrun

end CountSem

end DzIpc.LibIpc
