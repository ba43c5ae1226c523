import DzIpc.Library.Machine
import Mathlib.Logic.Function.Basic

/-!
# The mutex of processes that die

`robust_mutex` of `platform/linux/mutex.h` over `a0/mtx.c`: a futex word with the id of the thread
that has the mutex, a bit that says that its owner died and one that says that there are waiters.
Each access to the word is a step, so is what the kernel does at `FUTEX_LOCK_PI`,
`FUTEX_UNLOCK_PI` and `FUTEX_WAIT_REQUEUE_PI`, and a thread may die anywhere; then the kernel
looks for the mutex in its robust list and in `list_op_pending`.

`Step` is what the steps do; those of a thread that leave the word alone are one, `Move`.
-/

namespace DzIpc.LibIpc.RobustMutex

/-! ## The word and the places -/

/-- The id in the futex word: 0, that of a thread, or `FUTEX_TID_MASK`, which is no thread's. -/
inductive Owner (T : Type*) where
  | free
  | thread (t : T)
  | nobody
  deriving DecidableEq

/-- The futex word, with `FUTEX_OWNER_DIED` and `FUTEX_WAITERS`. -/
structure Word (T : Type*) where
  owner : Owner T
  died : Bool
  waiters : Bool
  deriving DecidableEq

/-- Why `a0_cnd_timedwait_impl` locks the mutex itself: `ETIMEDOUT` or `EAGAIN`. -/
inductive WaitErr where
  | timedOut
  | again
  deriving DecidableEq

/-- Who asks for the mutex: `lock`, `try_lock`, or a wait that is over. -/
inductive Call where
  | lock
  | tryLock
  | regain (e : WaitErr)
  deriving DecidableEq

/-- What comes after `a0_mtx_unlock`: the caller of `unlock`, the loop of `lock`, the exception of
`try_lock`, or the sleep of a wait. -/
inductive Then where
  | user
  | again
  | threw
  | wait
  deriving DecidableEq

/-- Where a thread is.  Outside of the calls it says what the last one returned, and of who has the
mutex whether the call found that the owner before died. -/
inductive Pc where
  | out (ret : Bool)
  /-- About to look whether the mutex is recoverable. -/
  | look (c : Call)
  /-- About to swap its id for 0. -/
  | swapIn (c : Call)
  /-- In `FUTEX_LOCK_PI`. -/
  | ask (c : Call)
  /-- Back from it, about to look whether the owner before died. -/
  | check (c : Call)
  /-- About to add the mutex to its robust list. -/
  | add (c : Call) (died : Bool)
  /-- The same, without the mutex. -/
  | addFailed
  | hold (ret died : Bool)
  /-- About to mark the mutex consistent. -/
  | consistent (k : Then)
  /-- About to read the word, to unlock. -/
  | unload (k : Then) (died : Bool)
  /-- Out of the robust list, about to swap 0 for its id. -/
  | swapOut (k : Then) (died : Bool)
  /-- In `FUTEX_UNLOCK_PI`. -/
  | unlockPi (k : Then) (died : Bool)
  /-- About to mark the mutex not recoverable. -/
  | mark (k : Then)
  /-- In `FUTEX_WAIT_REQUEUE_PI`. -/
  | asleep
  /-- Back from it with the mutex, about to add it to its robust list. -/
  | woken
  | dead
  deriving DecidableEq

/-- A thread: its place, and whether the mutex is in its robust list, and in `list_op_pending`. -/
structure Thread where
  pc : Pc
  listed : Bool
  pending : Bool
  deriving DecidableEq

structure State (T : Type*) where
  word : Word T
  threads : T → Thread

variable {T : Type*}

def Word.zero : Word T := ⟨.free, false, false⟩

/-- The id of a thread and nothing else. -/
def Word.heldBy (t : T) : Word T := ⟨.thread t, false, false⟩

/-- `ftx_notrecoverable`. -/
def Word.notRecoverable (w : Word T) : Bool :=
  match w.owner with
  | .nobody => w.died
  | _ => false

/-- `new_val` of `a0_mtx_unlock`. -/
def Word.unlocked (died : Bool) : Word T :=
  if died then ⟨.nobody, true, false⟩ else Word.zero

/-- The bits of `FTX_NOTRECOVERABLE` set. -/
def Word.spoil (w : Word T) : Word T :=
  { w with owner := .nobody, died := true }

/-- What a call makes of the mutex that it got.  `robust_mutex` mends one whose owner died; a wait
that timed out does not look, and one that was not put to sleep returns false. -/
def Call.taken (died : Bool) : Call → Pc
  | .lock => if died then .consistent .again else .hold true false
  | .tryLock => if died then .consistent .threw else .hold true false
  | .regain .timedOut => .hold false died
  | .regain .again => .hold (!died) died

/-- What a call does without the mutex: a wait adds it to the list all the same. -/
def Call.failed (th : Thread) : Call → Thread
  | .lock | .tryLock => ⟨.out false, th.listed, false⟩
  | .regain _ => { th with pc := .addFailed }

/-- After `robust_op_end` of `a0_mtx_unlock`. -/
def Then.thread (listed : Bool) : Then → Thread
  | .user => ⟨.out true, listed, false⟩
  | .again => ⟨.look .lock, listed, true⟩
  | .threw => ⟨.out false, listed, false⟩
  | .wait => ⟨.asleep, listed, true⟩

/-- After `FUTEX_UNLOCK_PI`. -/
def Then.left (k : Then) (died : Bool) (th : Thread) : Thread :=
  if died then { th with pc := .mark k } else k.thread th.listed

/-- Where a thread is when the kernel has given it the mutex. -/
def Pc.given : Pc → Option Pc
  | .ask c => some (.check c)
  | .asleep => some .woken
  | _ => none

/-! ## Steps -/

inductive Action (T : Type*) where
  | lock (t : T)
  | tryLock (t : T)
  | unlock (t : T)
  /-- `condition::wait`. -/
  | wait (t : T)
  /-- The next access of a thread in a call. -/
  | next (t : T)
  /-- The kernel gives the free mutex to a thread, behind which others wait or not. -/
  | grant (t : T) (waiters : Bool)
  /-- `FUTEX_LOCK_PI` finds the mutex taken. -/
  | block (t : T)
  /-- `FUTEX_LOCK_PI` returns `EINTR`. -/
  | interrupt (t : T)
  /-- `FUTEX_LOCK_PI` returns another error. -/
  | refuse (t : T)
  /-- `FUTEX_WAIT_REQUEUE_PI` returns `ETIMEDOUT` or `EAGAIN`. -/
  | wake (t : T) (e : WaitErr)
  /-- `FUTEX_WAIT_REQUEUE_PI` returns another error. -/
  | wakeFails (t : T)
  /-- `FUTEX_UNLOCK_PI` gives the mutex to a thread that waits for it, or frees it. -/
  | handOver (t : T) (heir : Option T)
  | die (t : T)
  deriving DecidableEq

section

variable [DecidableEq T]

def State.set (s : State T) (t : T) (w : Word T) (th : Thread) : State T :=
  { word := w, threads := Function.update s.threads t th }

def State.next (s : State T) (t : T) : Option (State T) :=
  let w := s.word
  let th := s.threads t
  match th.pc with
  | .look c =>
      some (s.set t w (if w.notRecoverable then c.failed th else { th with pc := .swapIn c }))
  | .swapIn c =>
      if w = Word.zero then some (s.set t (Word.heldBy t) { th with pc := .add c false })
      else some (s.set t w { th with pc := .ask c })
  | .check c => some (s.set t w { th with pc := .add c w.died })
  | .add c died => some (s.set t w ⟨c.taken died, true, false⟩)
  | .addFailed => some (s.set t w ⟨.out false, true, false⟩)
  | .consistent k =>
      if w.died ∧ w.owner = .thread t then
        some (s.set t { w with died := false } { th with pc := .unload k false })
      else some (s.set t w { th with pc := .out false })
  | .unload k _ =>
      if w.owner = .thread t then some (s.set t w ⟨.swapOut k w.died, false, true⟩)
      else some (s.set t w { th with pc := .out false })
  | .swapOut k died =>
      if w = Word.heldBy t then some (s.set t (Word.unlocked died) (k.thread th.listed))
      else some (s.set t w { th with pc := .unlockPi k died })
  | .mark k => some (s.set t w.spoil (k.thread th.listed))
  | .woken => some (s.set t w ⟨.hold true w.died, true, false⟩)
  | _ => none

/-- `FUTEX_UNLOCK_PI`, which refuses who is not the owner. -/
def State.handOver (s : State T) (t : T) (heir : Option T) : Option (State T) :=
  let w := s.word
  let th := s.threads t
  match th.pc with
  | .unlockPi k died =>
      match heir with
      | none =>
          some (s.set t (if w.owner = .thread t then Word.zero else w) (k.left died th))
      | some t' =>
          match (s.threads t').pc.given with
          | some pc =>
              if w.owner = .thread t then
                some ((s.set t w (k.left died th)).set t' ⟨.thread t', false, true⟩
                  { s.threads t' with pc := pc })
              else none
          | none => none
  | _ => none

/-- A thread dies, and the kernel frees the mutex for it where it finds it. -/
def State.die (s : State T) (t : T) : State T :=
  let th := s.threads t
  s.set t
    (if s.word.owner = .thread t ∧ (th.listed || th.pending) then
      { s.word with owner := .free, died := true }
    else s.word)
    ⟨.dead, false, false⟩

def step (s : State T) : Action T → Option (State T)
  | .lock t =>
      match (s.threads t).pc with
      | .out _ => some (s.set t s.word ⟨.look .lock, (s.threads t).listed, true⟩)
      | _ => none
  | .tryLock t =>
      match (s.threads t).pc with
      | .out _ => some (s.set t s.word ⟨.look .tryLock, (s.threads t).listed, true⟩)
      | _ => none
  | .unlock t =>
      match (s.threads t).pc with
      | .hold _ died => some (s.set t s.word { s.threads t with pc := .unload .user died })
      | _ => none
  | .wait t =>
      match (s.threads t).pc with
      | .hold _ died => some (s.set t s.word { s.threads t with pc := .unload .wait died })
      | _ => none
  | .next t => s.next t
  | .grant t waiters =>
      match (s.threads t).pc.given with
      | some pc =>
          if s.word.owner = .free then
            some (s.set t ⟨.thread t, s.word.died, waiters⟩ { s.threads t with pc := pc })
          else none
      | none => none
  | .block t =>
      match (s.threads t).pc.given with
      | some _ => some (s.set t { s.word with waiters := true } (s.threads t))
      | none => none
  | .interrupt t =>
      match (s.threads t).pc with
      | .ask c => some (s.set t s.word { s.threads t with pc := .look c })
      | _ => none
  | .refuse t =>
      match (s.threads t).pc with
      | .ask c => some (s.set t s.word (c.failed (s.threads t)))
      | _ => none
  | .wake t e =>
      match (s.threads t).pc with
      | .asleep => some (s.set t s.word { s.threads t with pc := .look (.regain e) })
      | _ => none
  | .wakeFails t =>
      match (s.threads t).pc with
      | .asleep => some (s.set t s.word { s.threads t with pc := .addFailed })
      | _ => none
  | .handOver t heir => s.handOver t heir
  | .die t =>
      match (s.threads t).pc with
      | .dead => none
      | _ => some (s.die t)

/-- `A0_EMPTY`, and no thread has called yet. -/
def init : State T :=
  { word := Word.zero, threads := fun _ => ⟨.out false, false, false⟩ }

def machine (T : Type*) [DecidableEq T] : Machine (State T) (Action T) := ⟨init, step⟩

/-! ## What a step does -/

/-- The steps of a thread that leave the word `w` alone. -/
inductive Move (w : Word T) (t : T) (th : Thread) : Thread → Prop
  | call {ret c} (hpc : th.pc = .out ret) : Move w t th ⟨.look c, th.listed, true⟩
  | swapIn {c} (hpc : th.pc = .look c) : Move w t th { th with pc := .swapIn c }
  | failed {c} (hpc : th.pc = .look c ∨ th.pc = .ask c) : Move w t th (c.failed th)
  | ask {c} (hpc : th.pc = .swapIn c) : Move w t th { th with pc := .ask c }
  | look {c} (hpc : th.pc = .ask c ∨ th.pc = .asleep) : Move w t th { th with pc := .look c }
  | check {c} (hpc : th.pc = .check c) : Move w t th { th with pc := .add c w.died }
  | add {c died} (hpc : th.pc = .add c died) : Move w t th ⟨c.taken died, true, false⟩
  | woken (hpc : th.pc = .woken) : Move w t th ⟨.hold true w.died, true, false⟩
  | wakeFails (hpc : th.pc = .asleep) : Move w t th { th with pc := .addFailed }
  | addFailed (hpc : th.pc = .addFailed) : Move w t th ⟨.out false, true, false⟩
  | inconsistent {k} (hpc : th.pc = .consistent k) (hword : ¬ (w.died ∧ w.owner = .thread t)) :
      Move w t th { th with pc := .out false }
  | unowned {k died} (hpc : th.pc = .unload k died) (howner : w.owner ≠ .thread t) :
      Move w t th { th with pc := .out false }
  | unload {k died} (hpc : th.pc = .unload k died) (howner : w.owner = .thread t) :
      Move w t th ⟨.swapOut k w.died, false, true⟩
  | unlockPi {k died} (hpc : th.pc = .swapOut k died) :
      Move w t th { th with pc := .unlockPi k died }
  | refused {k died} (hpc : th.pc = .unlockPi k died) (howner : w.owner ≠ .thread t) :
      Move w t th (k.left died th)

/-- The steps. -/
inductive Step (s : State T) : Action T → State T → Prop
  | move {a t th} (hm : Move s.word t (s.threads t) th) : Step s a (s.set t s.word th)
  | back {a t ret died k} (hpc : (s.threads t).pc = .hold ret died)
      (ha : a = .unlock t ∨ a = .wait t) :
      Step s a (s.set t s.word { s.threads t with pc := .unload k died })
  | swapIn {t c} (hpc : (s.threads t).pc = .swapIn c) (hzero : s.word = Word.zero) :
      Step s (.next t) (s.set t (Word.heldBy t) { s.threads t with pc := .add c false })
  | grant {t waiters pc} (hgiven : (s.threads t).pc.given = some pc) (hfree : s.word.owner = .free) :
      Step s (.grant t waiters)
        (s.set t ⟨.thread t, s.word.died, waiters⟩ { s.threads t with pc := pc })
  | block {t} : Step s (.block t) (s.set t { s.word with waiters := true } (s.threads t))
  | consistent {t k} (hpc : (s.threads t).pc = .consistent k) (howner : s.word.owner = .thread t) :
      Step s (.next t)
        (s.set t { s.word with died := false } { s.threads t with pc := .unload k false })
  | swapOut {t k died} (hpc : (s.threads t).pc = .swapOut k died) (hword : s.word = Word.heldBy t) :
      Step s (.next t) (s.set t (Word.unlocked died) (k.thread (s.threads t).listed))
  | freed {t k died} (hpc : (s.threads t).pc = .unlockPi k died) (howner : s.word.owner = .thread t) :
      Step s (.handOver t none) (s.set t Word.zero (k.left died (s.threads t)))
  | handOver {t t' k died pc} (hpc : (s.threads t).pc = .unlockPi k died)
      (howner : s.word.owner = .thread t) (hgiven : (s.threads t').pc.given = some pc) :
      Step s (.handOver t (some t'))
        ((s.set t s.word (k.left died (s.threads t))).set t' ⟨.thread t', false, true⟩
          { s.threads t' with pc := pc })
  | mark {t k} (hpc : (s.threads t).pc = .mark k) :
      Step s (.next t) (s.set t s.word.spoil (k.thread (s.threads t).listed))
  | die {t} : Step s (.die t) (s.die t)

theorem next_cases {s u : State T} {t : T} (h : s.next t = some u) : Step s (.next t) u := by
  unfold State.next at h
  cases hpc : (s.threads t).pc with
  | look c =>
      simp only [hpc] at h
      obtain rfl := Option.some.inj h
      split
      next => exact .move (.failed (.inl hpc))
      next => exact .move (.swapIn hpc)
  | swapIn c =>
      simp only [hpc] at h
      split at h
      next hzero =>
        cases h
        exact .swapIn hpc hzero
      next =>
        cases h
        exact .move (.ask hpc)
  | check c =>
      simp only [hpc] at h
      cases h
      exact .move (.check hpc)
  | add c died =>
      simp only [hpc] at h
      cases h
      exact .move (.add hpc)
  | addFailed =>
      simp only [hpc] at h
      cases h
      exact .move (.addFailed hpc)
  | consistent k =>
      simp only [hpc] at h
      split at h
      next hword =>
        cases h
        exact .consistent hpc hword.2
      next hword =>
        cases h
        exact .move (.inconsistent hpc hword)
  | unload k died =>
      simp only [hpc] at h
      split at h
      next howner =>
        cases h
        exact .move (.unload hpc howner)
      next howner =>
        cases h
        exact .move (.unowned hpc howner)
  | swapOut k died =>
      simp only [hpc] at h
      split at h
      next hword =>
        cases h
        exact .swapOut hpc hword
      next =>
        cases h
        exact .move (.unlockPi hpc)
  | mark k =>
      simp only [hpc] at h
      cases h
      exact .mark hpc
  | woken =>
      simp only [hpc] at h
      cases h
      exact .move (.woken hpc)
  | out ret => simp only [hpc] at h; cases h
  | ask c => simp only [hpc] at h; cases h
  | hold ret died => simp only [hpc] at h; cases h
  | unlockPi k died => simp only [hpc] at h; cases h
  | asleep => simp only [hpc] at h; cases h
  | dead => simp only [hpc] at h; cases h

theorem handOver_cases {s u : State T} {t : T} {heir : Option T} (h : s.handOver t heir = some u) :
    Step s (.handOver t heir) u := by
  simp only [State.handOver] at h
  split at h
  next k died hpc =>
    cases heir with
    | none =>
        obtain rfl := Option.some.inj h
        split
        next howner => exact .freed hpc howner
        next howner =>
          exact .move (.refused hpc howner)
    | some t' =>
        simp only at h
        split at h
        next pc hgiven =>
          split at h
          next howner =>
            obtain rfl := Option.some.inj h
            exact .handOver hpc howner hgiven
          next => cases h
        next => cases h
  next => cases h

theorem step_cases {s u : State T} {a : Action T} (h : step s a = some u) : Step s a u := by
  cases a with
  | next t => exact next_cases h
  | handOver t heir => exact handOver_cases h
  | lock t =>
      simp only [step] at h
      split at h
      next hpc =>
        cases h
        exact .move (.call hpc)
      next => cases h
  | tryLock t =>
      simp only [step] at h
      split at h
      next hpc =>
        cases h
        exact .move (.call hpc)
      next => cases h
  | unlock t =>
      simp only [step] at h
      split at h
      next hpc =>
        cases h
        exact .back hpc (.inl rfl)
      next => cases h
  | wait t =>
      simp only [step] at h
      split at h
      next hpc =>
        cases h
        exact .back hpc (.inr rfl)
      next => cases h
  | grant t waiters =>
      simp only [step] at h
      split at h
      next hgiven =>
        split at h
        next hfree =>
          cases h
          exact .grant hgiven hfree
        next => cases h
      next => cases h
  | block t =>
      simp only [step] at h
      split at h
      next =>
        cases h
        exact .block
      next => cases h
  | interrupt t =>
      simp only [step] at h
      split at h
      next hpc =>
        cases h
        exact .move (.look (.inl hpc))
      next => cases h
  | refuse t =>
      simp only [step] at h
      split at h
      next hpc =>
        cases h
        exact .move (.failed (.inr hpc))
      next => cases h
  | wake t e =>
      simp only [step] at h
      split at h
      next hpc =>
        cases h
        exact .move (.look (.inr hpc))
      next => cases h
  | wakeFails t =>
      simp only [step] at h
      split at h
      next hpc =>
        cases h
        exact .move (.wakeFails hpc)
      next => cases h
  | die t =>
      simp only [step] at h
      split at h
      next => cases h
      next =>
        cases h
        exact .die

end

end DzIpc.LibIpc.RobustMutex
