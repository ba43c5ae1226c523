import DzIpc.Library.Machine
import DzIpc.Library.Parties
import Mathlib.Algebra.Group.Nat.Defs

/-!
# `rw_lock`

One word holds the number of readers and, in its highest bit, the flag of a writer.  Every load,
store and read-modify-write is a step of one thread; the threads take theirs in any order, and a
compare-and-swap may fail for no reason.

* `Inv` says what the word is: the flag of the one writer that has set it, if any, and the number
  of readers; a writer that has the lock is alone.
* `excludes` is the result for all runs with fewer than 2 ^ 31 - 1 readers at once.
-/

namespace DzIpc.LibIpc.RwLock

/-! ## The lock -/

/-- `w_mask`. -/
def wMask : BitVec 32 := 0x7fffffff#32

/-- `w_flag`. -/
def wFlag : BitVec 32 := wMask + 1#32

/-- Where a thread is. -/
inductive Pc where
  | idle
  -- `lock`
  | fetchOr
  | waitReaders
  | exclusive
  -- `lock_shared`
  | loadShared
  | tryShared (old : BitVec 32)
  | shared
  deriving DecidableEq, Repr

structure State where
  lc : BitVec 32
  threads : List Pc
  deriving DecidableEq, Repr

inductive Action where
  | spawn
  | lock (i : ℕ)
  | lockShared (i : ℕ)
  /-- The next access within `lock` or `lock_shared`. -/
  | access (i : ℕ) (spurious : Bool)
  | unlock (i : ℕ)
  | unlockShared (i : ℕ)
  deriving DecidableEq, Repr

def State.set (s : State) (i : ℕ) (pc : Pc) : State := { s with threads := s.threads.set i pc }

/-- The next access of a thread within `lock` or `lock_shared`. -/
def access (s : State) (i : ℕ) (spurious : Bool) : Pc → Option State
  | .fetchOr =>
      let old := s.lc
      let s' := { s with lc := old ||| wFlag }
      if old = 0#32 then some (s'.set i .exclusive)
      else if old &&& wFlag = 0#32 then some (s'.set i .waitReaders)
      else some (s'.set i .fetchOr)
  | .waitReaders =>
      if s.lc &&& wMask = 0#32 then some (s.set i .exclusive) else some (s.set i .waitReaders)
  | .loadShared => some (s.set i (.tryShared s.lc))
  | .tryShared old =>
      if old &&& wFlag ≠ 0#32 then some (s.set i (.tryShared s.lc))
      else if spurious = false ∧ s.lc = old then
        some ({ s with lc := old + 1#32 }.set i .shared)
      else some (s.set i (.tryShared s.lc))
  | .idle | .exclusive | .shared => none

/-- A thread starts a call or leaves the lock, from the place where it may. -/
def State.go (s : State) (i : ℕ) (fromPc : Pc) (next : State) : Option State :=
  if s.threads[i]? = some fromPc then some next else none

def step (s : State) : Action → Option State
  | .spawn => some { s with threads := s.threads ++ [.idle] }
  | .lock i => s.go i .idle (s.set i .fetchOr)
  | .lockShared i => s.go i .idle (s.set i .loadShared)
  | .access i spurious => s.threads[i]?.bind (access s i spurious)
  | .unlock i => s.go i .exclusive ({ s with lc := 0#32 }.set i .idle)
  | .unlockShared i => s.go i .shared ({ s with lc := s.lc - 1#32 }.set i .idle)

def machine : Machine State Action := { init := ⟨0#32, []⟩, step := step }

/-! ## Who has the lock -/

/-- `lock` has set the flag, and `unlock` not yet cleared it. -/
def Pc.writes : Pc → Bool
  | .waitReaders | .exclusive => true
  | _ => false

def Pc.reads : Pc → Bool
  | .shared => true
  | _ => false

def State.writers (s : State) : ℕ := s.threads.countP Pc.writes

def State.readers (s : State) : ℕ := s.threads.countP Pc.reads

/-- At most one thread has the exclusive lock, and then none has the shared one. -/
def Excludes (s : State) : Prop :=
  s.threads.countP (· = .exclusive) ≤ 1 ∧
    (.exclusive ∈ s.threads → .shared ∉ s.threads)

/-- Nobody has the lock, and nobody has set the flag and waits for the readers to leave. -/
def Free (s : State) : Prop :=
  ∀ pc ∈ s.threads, pc.writes = false ∧ pc.reads = false

/-! ## The bits of the word -/

section Bits

variable {lc : BitVec 32} {w r : ℕ}

theorem and_wFlag_eq_zero (hw : w ≤ 1) (hr : r < 2 ^ 31) (hlc : lc.toNat = 2 ^ 31 * w + r) :
    lc &&& wFlag = 0#32 ↔ w = 0 := by
  have hflag : wFlag = BitVec.twoPow 32 31 := by decide
  have hmsb : lc.getLsbD 31 = decide (2 ^ 31 ≤ lc.toNat) :=
    (BitVec.msb_eq_getLsbD_last lc).symm.trans (BitVec.msb_eq_decide lc)
  rw [hflag, BitVec.and_twoPow, hmsb]
  by_cases hset : 2 ^ 31 ≤ lc.toNat
  · rw [if_pos (decide_eq_true hset)]
    exact iff_of_false (by decide) (by omega)
  · rw [if_neg (by rwa [decide_eq_true_iff])]
    exact iff_of_true rfl (by omega)

theorem and_wMask_eq_zero (hr : r < 2 ^ 31) (hlc : lc.toNat = 2 ^ 31 * w + r) :
    lc &&& wMask = 0#32 ↔ r = 0 := by
  have hmask : wMask.toNat = 2 ^ 31 - 1 := by decide
  rw [← BitVec.toNat_inj, BitVec.toNat_and, hmask, Nat.and_two_pow_sub_one_eq_mod, hlc,
    BitVec.toNat_ofNat, Nat.zero_mod, Nat.mul_add_mod, Nat.mod_eq_of_lt hr]

theorem toNat_or_wFlag (hw : w ≤ 1) (hr : r < 2 ^ 31) (hlc : lc.toNat = 2 ^ 31 * w + r) :
    (lc ||| wFlag).toNat = 2 ^ 31 * 1 + r := by
  have hflag : wFlag.toNat = 2 ^ 31 * 1 := by decide
  rw [BitVec.toNat_or, hflag, hlc, Nat.two_pow_add_eq_or_of_lt hr, Nat.two_pow_add_eq_or_of_lt hr]
  obtain rfl | rfl : w = 0 ∨ w = 1 := by omega
  · rw [Nat.mul_zero, Nat.zero_or, Nat.or_comm]
  · rw [Nat.or_comm, ← Nat.or_assoc, Nat.or_self]

end Bits

/-! ## The invariant -/

structure Inv (s : State) : Prop where
  /-- At most one thread has set the flag. -/
  one : s.writers ≤ 1
  few : s.readers < 2 ^ 31
  word : s.lc.toNat = 2 ^ 31 * s.writers + s.readers
  alone : .exclusive ∈ s.threads → s.readers = 0

section

variable {s t : State} {i : ℕ} {pc : Pc}

theorem writers_set (pc' : Pc) (hpc : s.threads[i]? = some pc) (lc : BitVec 32) :
    (State.set { s with lc := lc } i pc').writers + pc.writes.toNat
      = s.writers + pc'.writes.toNat :=
  Parties.countP_set pc' hpc Pc.writes

theorem readers_set (pc' : Pc) (hpc : s.threads[i]? = some pc) (lc : BitVec 32) :
    (State.set { s with lc := lc } i pc').readers + pc.reads.toNat
      = s.readers + pc'.reads.toNat :=
  Parties.countP_set pc' hpc Pc.reads

/-- A step of a thread that neither sets nor clears anything. -/
theorem Inv.stay (h : Inv s) (hpc : s.threads[i]? = some pc) {pc' : Pc}
    (hwrites : pc'.writes = pc.writes) (hreads : pc'.reads = pc.reads)
    (halone : pc' = .exclusive → s.readers = 0) : Inv (s.set i pc') := by
  have hw := writers_set pc' hpc s.lc
  have hr := readers_set pc' hpc s.lc
  rw [hwrites] at hw
  rw [hreads] at hr
  have hw' : (s.set i pc').writers = s.writers := Nat.add_right_cancel hw
  have hr' : (s.set i pc').readers = s.readers := Nat.add_right_cancel hr
  refine ⟨hw' ▸ h.one, hr' ▸ h.few, ?_, fun hmem => hr' ▸ ?_⟩
  · rw [hw', hr']
    exact h.word
  · rcases List.mem_or_eq_of_mem_set hmem with hold | hnew
    · exact h.alone hold
    · exact halone hnew.symm

/-- A writer is counted. -/
theorem writers_pos (hpc : s.threads[i]? = some pc) (hwrites : pc.writes = true) :
    0 < s.writers :=
  Parties.countP_pos hpc hwrites

theorem Inv.not_exclusive (hzero : s.writers = 0) : .exclusive ∉ s.threads := by
  intro hmem
  have hpos : 0 < s.threads.countP Pc.writes := List.countP_pos_iff.mpr ⟨_, hmem, rfl⟩
  exact absurd hzero (Nat.ne_of_gt hpos)

/-- `fetch_or` sets the flag where it was clear. -/
theorem Inv.setFlag (h : Inv s) (hpc : s.threads[i]? = some .fetchOr) (hclear : s.writers = 0)
    {pc' : Pc} (hwrites : pc'.writes = true) (hreads : pc'.reads = false)
    (halone : pc' = .exclusive → s.readers = 0) :
    Inv (State.set { s with lc := s.lc ||| wFlag } i pc') := by
  have hw := writers_set pc' hpc (s.lc ||| wFlag)
  have hr := readers_set pc' hpc (s.lc ||| wFlag)
  rw [hwrites, hclear] at hw
  rw [hreads] at hr
  have hw' : (State.set { s with lc := s.lc ||| wFlag } i pc').writers = 1 := hw
  have hr' : (State.set { s with lc := s.lc ||| wFlag } i pc').readers = s.readers := hr
  refine ⟨Nat.le_of_eq hw', hr' ▸ h.few, ?_, fun hmem => hr' ▸ ?_⟩
  · rw [hw', hr']
    exact toNat_or_wFlag h.one h.few h.word
  · rcases List.mem_or_eq_of_mem_set hmem with hold | hnew
    · exact absurd hold (Inv.not_exclusive hclear)
    · exact halone hnew.symm

/-- Where the flag is set, `fetch_or` changes nothing. -/
theorem Inv.keepFlag (h : Inv s) (hset : s.writers ≠ 0) : s.lc ||| wFlag = s.lc := by
  have hone : s.writers = 1 := Nat.le_antisymm h.one (Nat.one_le_iff_ne_zero.mpr hset)
  rw [← BitVec.toNat_inj, toNat_or_wFlag h.one h.few h.word, h.word, hone]

theorem Inv.access (h : Inv s) (hpc : s.threads[i]? = some pc) (hfew : s.readers < 2 ^ 31 - 1)
    {spurious : Bool} (hstep : access s i spurious pc = some t) : Inv t := by
  have hflag := and_wFlag_eq_zero h.one h.few h.word
  cases pc with
  | idle => cases hstep
  | exclusive => cases hstep
  | shared => cases hstep
  | fetchOr =>
      simp only [RwLock.access] at hstep
      split at hstep
      · rename_i hzero
        have hword := h.word
        rw [hzero, BitVec.toNat_ofNat, Nat.zero_mod] at hword
        cases hstep
        exact h.setFlag hpc (by omega) rfl rfl fun _ => by omega
      split at hstep
      · rename_i hclear
        cases hstep
        exact h.setFlag hpc (hflag.mp hclear) rfl rfl nofun
      · rename_i hset
        cases hstep
        rw [h.keepFlag fun hzero => hset (hflag.mpr hzero)]
        exact h.stay hpc rfl rfl nofun
  | waitReaders =>
      simp only [RwLock.access] at hstep
      split at hstep
      · rename_i hnone
        cases hstep
        exact h.stay hpc rfl rfl fun _ => (and_wMask_eq_zero h.few h.word).mp hnone
      · cases hstep
        exact h.stay hpc rfl rfl nofun
  | loadShared =>
      cases hstep
      exact h.stay hpc rfl rfl nofun
  | tryShared old =>
      simp only [RwLock.access] at hstep
      split at hstep
      · cases hstep
        exact h.stay hpc rfl rfl nofun
      rename_i hclear
      split at hstep
      · -- the word is still the one that was seen without the flag
        rename_i hsame
        obtain ⟨-, rfl⟩ := hsame
        cases hstep
        have hzero : s.writers = 0 := hflag.mp (not_not.mp hclear)
        have hw := writers_set .shared hpc (s.lc + 1#32)
        have hr := readers_set .shared hpc (s.lc + 1#32)
        have hw' : (State.set { s with lc := s.lc + 1#32 } i .shared).writers = 0 := hw.trans hzero
        have hr' : (State.set { s with lc := s.lc + 1#32 } i .shared).readers = s.readers + 1 := hr
        have hword := h.word
        refine ⟨by omega, by omega, ?_, fun hmem => absurd hmem (Inv.not_exclusive hw')⟩
        rw [hw', hr']
        change (s.lc + 1#32).toNat = _
        bv_omega
      · cases hstep
        exact h.stay hpc rfl rfl nofun

/-- `unlock` clears the word of a writer that is alone. -/
theorem Inv.unlock (h : Inv s) (hpc : s.threads[i]? = some .exclusive) :
    Inv (State.set { s with lc := 0#32 } i .idle) := by
  have hnone : s.readers = 0 := h.alone (List.mem_of_getElem? hpc)
  have hpos : 0 < s.writers := writers_pos hpc rfl
  have hone := h.one
  have hw := writers_set .idle hpc 0#32
  have hr := readers_set .idle hpc 0#32
  rw [show Pc.exclusive.writes.toNat = 1 from rfl, show Pc.idle.writes.toNat = 0 from rfl] at hw
  have hw' : (State.set { s with lc := 0#32 } i .idle).writers = 0 := by omega
  have hr' : (State.set { s with lc := 0#32 } i .idle).readers = 0 := hr.trans hnone
  refine ⟨by omega, by omega, ?_, fun hmem => absurd hmem (Inv.not_exclusive hw')⟩
  rw [hw', hr']
  rfl

/-- `unlock_shared` takes one reader off. -/
theorem Inv.unlockShared (h : Inv s) (hpc : s.threads[i]? = some .shared) :
    Inv (State.set { s with lc := s.lc - 1#32 } i .idle) := by
  have hpos : 0 < s.readers := Parties.countP_pos hpc rfl
  have hw := writers_set .idle hpc (s.lc - 1#32)
  have hr := readers_set .idle hpc (s.lc - 1#32)
  rw [show Pc.shared.reads.toNat = 1 from rfl, show Pc.idle.reads.toNat = 0 from rfl] at hr
  have hw' : (State.set { s with lc := s.lc - 1#32 } i .idle).writers = s.writers := hw
  have hword := h.word
  have hfew := h.few
  refine ⟨hw' ▸ h.one, by omega, ?_, fun hmem => ?_⟩
  · rw [hw']
    change (s.lc - 1#32).toNat = _
    bv_omega
  · rcases List.mem_or_eq_of_mem_set hmem with hold | hnew
    · exact absurd (h.alone hold) (Nat.ne_of_gt hpos)
    · cases hnew

theorem inv_init : Inv machine.init :=
  ⟨Nat.zero_le 1, by decide, rfl, nofun⟩

/-- Fewer than 2 ^ 31 - 1 readers at once. -/
def FewReaders (s : State) (_ : Action) : Prop := s.readers < 2 ^ 31 - 1

instance (s : State) (a : Action) : Decidable (FewReaders s a) :=
  inferInstanceAs (Decidable (s.readers < 2 ^ 31 - 1))

theorem inv_step {a : Action} (h : Inv s) (hfew : FewReaders s a) (hstep : step s a = some t) :
    Inv t := by
  cases a with
  | spawn =>
      cases hstep
      have hw : State.writers { s with threads := s.threads ++ [.idle] } = s.writers := by
        simp [State.writers, Pc.writes]
      have hr : State.readers { s with threads := s.threads ++ [.idle] } = s.readers := by
        simp [State.readers, Pc.reads]
      refine ⟨hw ▸ h.one, hr ▸ h.few, ?_, fun hmem => ?_⟩
      · rw [hw, hr]
        exact h.word
      · rw [hr]
        exact h.alone (by simpa using hmem)
  | lock i =>
      simp only [step, State.go] at hstep
      split at hstep
      · rename_i hpc
        cases hstep
        exact h.stay hpc rfl rfl nofun
      · cases hstep
  | lockShared i =>
      simp only [step, State.go] at hstep
      split at hstep
      · rename_i hpc
        cases hstep
        exact h.stay hpc rfl rfl nofun
      · cases hstep
  | access i spurious =>
      obtain ⟨pc, hpc, haccess⟩ := Option.bind_eq_some_iff.mp hstep
      exact h.access hpc hfew haccess
  | unlock i =>
      simp only [step, State.go] at hstep
      split at hstep
      · rename_i hpc
        cases hstep
        exact h.unlock hpc
      · cases hstep
  | unlockShared i =>
      simp only [step, State.go] at hstep
      split at hstep
      · rename_i hpc
        cases hstep
        exact h.unlockShared hpc
      · cases hstep

end

/-! ## The result -/

section

variable {s : State}

theorem Inv.exclusion (h : Inv s) : Excludes s := by
  refine ⟨?_, fun hmem hshared => ?_⟩
  · refine Nat.le_trans (List.countP_mono_left fun pc _ hpc => ?_) h.one
    rw [of_decide_eq_true hpc]
    rfl
  · have hpos : 0 < s.threads.countP Pc.reads := List.countP_pos_iff.mpr ⟨_, hshared, rfl⟩
    exact absurd (h.alone hmem) (Nat.ne_of_gt hpos)

theorem Inv.lc_eq_zero (h : Inv s) (hfree : Free s) : s.lc = 0#32 := by
  have hw : s.writers = 0 :=
    List.countP_eq_zero.mpr fun pc hpc => Bool.eq_false_iff.mp (hfree pc hpc).1
  have hr : s.readers = 0 :=
    List.countP_eq_zero.mpr fun pc hpc => Bool.eq_false_iff.mp (hfree pc hpc).2
  rw [← BitVec.toNat_inj, h.word, hw, hr]
  rfl

end

/-- **The lock excludes.**  With fewer than 2 ^ 31 - 1 readers at once, at most one thread has the
exclusive lock, while it does none has the shared one, and the word is 0 where the lock is free. -/
theorem excludes {actions : List Action} {s : State} (hrun : machine.run actions = some s)
    (hfew : machine.Guarded FewReaders actions) :
    Excludes s ∧ (Free s → s.lc = 0#32) := by
  have hinv : Inv s :=
    Machine.invariant_of_guarded (M := machine) inv_init (fun _ _ _ => inv_step) hfew hrun
  exact ⟨hinv.exclusion, hinv.lc_eq_zero⟩

/-- A writer that sets the flag while a reader is inside, and gets the lock when it has left. -/
theorem excludes_writerWaits :
    Excludes ⟨wFlag, [.idle, .exclusive, .tryShared wFlag]⟩ ∧
      (Free ⟨wFlag, [.idle, .exclusive, .tryShared wFlag]⟩ → wFlag = 0#32) :=
  have hrun : machine.run [.spawn, .spawn, .spawn, .lockShared 0, .access 0 false, .access 0 true,
      .access 0 false, .lock 1, .access 1 false, .access 1 false, .lockShared 2, .access 2 false,
      .unlockShared 0, .access 1 false, .access 2 false]
        = some ⟨wFlag, [.idle, .exclusive, .tryShared wFlag]⟩ := by decide
  excludes hrun (by decide)

end DzIpc.LibIpc.RwLock
