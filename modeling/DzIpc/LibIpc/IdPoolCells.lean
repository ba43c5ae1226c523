import DzIpc.Library.Machine
import DzIpc.LibIpc.IdPool
import Mathlib.Data.Fin.Basic

/-!
# `id_pool` in its cells

The pool as it lies in the shared segment: `next_` is an array of `max_count` bytes, `cursor_` is
a byte, and ids are signed.  An access outside the array has no result.

* `toIdPool` forgets the width of the cells; `prepare_toIdPool`, `acquire_toIdPool` and
  `release_toIdPool` say that the operations are those of `IdPool`.
* `Inv` is the invariant of the runs that release only what they hold: the ids that are out are
  those that are not in the free list.
* `keepsFreeList_of_guarded` is the result.
-/

namespace DzIpc.LibIpc

/-- `id_pool<>`. -/
structure CellPool where
  next : Fin maxCount → UInt8
  cursor : UInt8
  prepared : Bool

namespace CellPool

variable {p q : CellPool} {c : UInt8} {id : ℤ}

/-! ## The operations -/

/-- The zeroed shared segment. -/
def zeroed : CellPool := ⟨fun _ => 0, 0, false⟩

/-- `invalid()`. -/
def invalid (p : CellPool) : Bool := p.cursor = 0 ∧ p.prepared = false ∧ ∀ i, p.next i = 0

/-- The loop of `init()`: the index is read back from the cell.  It is entered with as many
rounds as there are cells. -/
def initLoop : ℕ → ℕ → (Fin maxCount → UInt8) → Fin maxCount → UInt8
  | 0, _, next => next
  | rounds + 1, i, next =>
      if h : i < maxCount then
        let cell := UInt8.ofNat (i + 1)
        initLoop rounds cell.toNat (Function.update next ⟨i, h⟩ cell)
      else next

/-- `init()`. -/
def init (p : CellPool) : CellPool := { p with next := initLoop maxCount 0 p.next }

/-- `prepare()`. -/
def prepare (p : CellPool) : CellPool :=
  { (if !p.prepared && p.invalid then p.init else p) with prepared := true }

/-- `empty()`. -/
def empty (p : CellPool) : Bool := p.cursor.toNat = maxCount

/-- `acquire()`. -/
def acquire (p : CellPool) : Option (ℤ × CellPool) :=
  if p.empty then some (-1, p)
  else if h : p.cursor.toNat < maxCount then
    some (p.cursor.toNat, { p with cursor := p.next ⟨p.cursor.toNat, h⟩ })
  else none

/-- `release(id)`. -/
def release (p : CellPool) (id : ℤ) : Option (Bool × CellPool) :=
  if id < 0 then some (false, p)
  else if h : id.toNat < maxCount then
    some (true,
      { p with
        next := Function.update p.next ⟨id.toNat, h⟩ p.cursor
        cursor := UInt8.ofNat id.toNat })
  else none

/-! ## The cells as numbers -/

/-- The numbers in the array, and 0 outside. -/
def numbers (next : Fin maxCount → UInt8) (i : ℕ) : ℕ :=
  if h : i < maxCount then (next ⟨i, h⟩).toNat else 0

/-- The pool without the width of its cells. -/
def toIdPool (p : CellPool) : IdPool := ⟨numbers p.next, p.cursor.toNat, p.prepared⟩

variable {next : Fin maxCount → UInt8} {i : ℕ}

theorem numbers_of_lt (h : i < maxCount) : numbers next i = (next ⟨i, h⟩).toNat := dif_pos h

theorem numbers_of_not_lt (h : ¬ i < maxCount) : numbers next i = 0 := dif_neg h

/-- Writing a cell is writing its number. -/
theorem numbers_update (hi : i < maxCount) (cell : UInt8) :
    numbers (Function.update next ⟨i, hi⟩ cell) =
      Function.update (numbers next) i cell.toNat := by
  funext j
  by_cases hj : j < maxCount
  · rw [numbers_of_lt hj]
    by_cases heq : j = i
    · subst heq
      rw [Function.update_self, Function.update_self]
    · have hcell : (⟨j, hj⟩ : Fin maxCount) ≠ ⟨i, hi⟩ := fun h => heq (congrArg Fin.val h)
      rw [Function.update_of_ne hcell, Function.update_of_ne heq, numbers_of_lt hj]
  · have hne : j ≠ i := by omega
    rw [numbers_of_not_lt hj, Function.update_of_ne hne, numbers_of_not_lt hj]

theorem zeroed_toIdPool : zeroed.toIdPool = IdPool.zeroed := by
  have hnumbers : numbers (fun _ => 0) = fun _ => 0 := by
    funext i
    unfold numbers
    split <;> rfl
  exact congrArg (fun next => (⟨next, 0, false⟩ : IdPool)) hnumbers

/-- A number of the array fits in a cell. -/
theorem toNat_cell (h : i ≤ maxCount) : (UInt8.ofNat i).toNat = i :=
  UInt8.toNat_ofNat_of_lt' (Nat.lt_of_le_of_lt h (by decide))

theorem invalid_toIdPool : p.toIdPool.invalid = p.invalid := by
  have hcells : (∀ i < maxCount, numbers p.next i = 0) ↔ ∀ i, p.next i = 0 := by
    constructor
    · intro h i
      have hcell := h i i.isLt
      rw [numbers_of_lt i.isLt] at hcell
      exact UInt8.toNat_inj.mp hcell
    · intro h i hi
      rw [numbers_of_lt hi, h]
      rfl
  have hcursor : p.cursor.toNat = 0 ↔ p.cursor = 0 := UInt8.toNat_inj (b := 0)
  unfold IdPool.invalid invalid
  exact decide_eq_decide.mpr (and_congr hcursor (and_congr_right fun _ => hcells))

/-- The loop of `init` links the cells from `i` on. -/
theorem initLoop_eq (rounds : ℕ) : ∀ (i : ℕ) (next : Fin maxCount → UInt8),
    maxCount ≤ i + rounds → ∀ j, (initLoop rounds i next j).toNat =
      if i ≤ j then (j : ℕ) + 1 else (next j).toNat := by
  induction rounds with
  | zero =>
      intro i next hrounds j
      rw [initLoop, if_neg (by omega)]
  | succ rounds ih =>
      intro i next hrounds j
      rw [initLoop]
      split
      · rename_i hi
        dsimp only
        rw [toNat_cell (by omega), ih (i + 1) _ (by omega) j]
        by_cases hj : (j : ℕ) = i
        · have hcell : j = ⟨i, hi⟩ := Fin.ext hj
          rw [if_neg (by omega), if_pos (by omega), hcell, Function.update_self,
            toNat_cell (by omega)]
        · have hcell : j ≠ ⟨i, hi⟩ := fun heq => hj (congrArg Fin.val heq)
          rw [Function.update_of_ne hcell]
          exact if_congr (by omega) rfl rfl
      · rw [if_neg (by omega)]

theorem numbers_init :
    numbers (initLoop maxCount 0 next) = fun i => if i < maxCount then i + 1 else 0 := by
  funext i
  by_cases hi : i < maxCount
  · rw [numbers_of_lt hi, if_pos hi]
    exact (initLoop_eq maxCount 0 next (by omega) ⟨i, hi⟩).trans (if_pos (Nat.zero_le _))
  · rw [numbers_of_not_lt hi, if_neg hi]

theorem init_toIdPool : p.init.toIdPool = p.toIdPool.init := by
  have hnext : numbers (initLoop maxCount 0 p.next) = p.toIdPool.init.next := by
    rw [numbers_init]
    funext i
    exact ite_congr rfl (fun _ => rfl) fun hi => (numbers_of_not_lt hi).symm
  exact congrArg (fun next => (⟨next, p.cursor.toNat, p.prepared⟩ : IdPool)) hnext

theorem prepare_toIdPool : p.prepare.toIdPool = p.toIdPool.prepare := by
  unfold prepare IdPool.prepare
  rw [invalid_toIdPool]
  have hprepared : p.toIdPool.prepared = p.prepared := rfl
  rw [hprepared]
  split
  · rw [← init_toIdPool]
    rfl
  · rfl

theorem acquire_empty (hcursor : p.cursor.toNat = maxCount) : p.acquire = some (-1, p) :=
  if_pos (decide_eq_true hcursor)

theorem acquire_toIdPool (hcursor : p.cursor.toNat < maxCount) :
    ∃ q : CellPool, p.acquire = some ((p.cursor.toNat : ℤ), q) ∧ q.prepared = p.prepared ∧
      p.toIdPool.acquire = (some p.cursor.toNat, q.toIdPool) := by
  have hne : p.cursor.toNat ≠ maxCount := Nat.ne_of_lt hcursor
  have hpool : p.toIdPool.acquire = _ := if_neg hne
  have hnext : p.toIdPool.next p.cursor.toNat = (p.next ⟨p.cursor.toNat, hcursor⟩).toNat :=
    numbers_of_lt hcursor
  unfold acquire empty
  rw [if_neg (by simpa using hne), dif_pos hcursor]
  refine ⟨_, rfl, rfl, ?_⟩
  rw [hpool]
  exact congrArg (fun cursor => (some p.cursor.toNat, { p.toIdPool with cursor })) hnext

theorem release_toIdPool (hi : i < maxCount) :
    ∃ q, p.release i = some (true, q) ∧ q.prepared = p.prepared ∧
      q.toIdPool = p.toIdPool.release i := by
  unfold release
  rw [if_neg (by omega), dif_pos (by rwa [Int.toNat_natCast])]
  refine ⟨_, rfl, rfl, ?_⟩
  have hnext : numbers (Function.update p.next ⟨i, hi⟩ p.cursor) = _ := numbers_update hi p.cursor
  have hcursor : (UInt8.ofNat i).toNat = i := toNat_cell (Nat.le_of_lt hi)
  exact congrArg₂ (fun next cursor => (⟨next, cursor, p.prepared⟩ : IdPool)) hnext hcursor

/-! ## The free list -/

/-- Following `next_` from a cell visits these ids and ends at `max_count`. -/
def Visits (next : Fin maxCount → UInt8) : UInt8 → List (Fin maxCount) → Prop
  | c, [] => c.toNat = maxCount
  | c, i :: rest => c.toNat = i ∧ Visits next (next i) rest

theorem visits_of_linked {l : List ℕ} : ∀ {c : UInt8}, IdPool.Linked (numbers next) c.toNat l →
    ∃ ids : List (Fin maxCount), ids.map Fin.val = l ∧ Visits next c ids := by
  induction l with
  | nil => exact fun h => ⟨[], rfl, h⟩
  | cons i rest ih =>
      intro c h
      obtain ⟨hc, hi, hrest⟩ := h
      rw [numbers_of_lt hi] at hrest
      obtain ⟨ids, hids, hvisits⟩ := ih hrest
      exact ⟨⟨i, hi⟩ :: ids, congrArg (i :: ·) hids, hc, hvisits⟩

/-- `acquire` hands out the head of the free list, and fails where the list is empty. -/
theorem acquire_spec (hprepared : p.prepared = true) (h : p.toIdPool.Usable) :
    (p.toIdPool.freeIds = [] ∧ p.acquire = some (-1, p)) ∨
      ∃ (i : ℕ) (q : CellPool), i < maxCount ∧ p.acquire = some ((i : ℤ), q) ∧
        q.prepared = true ∧ q.toIdPool.Usable ∧ p.toIdPool.freeIds = i :: q.toIdPool.freeIds ∧
        i ∉ q.toIdPool.freeIds := by
  have hpool : p.toIdPool.prepare = p.toIdPool := IdPool.prepare_of_prepared hprepared
  have hlinked := h.freeList.linked
  rw [hpool] at hlinked
  cases hfree : p.toIdPool.freeIds with
  | nil =>
      rw [hfree] at hlinked
      exact Or.inl ⟨rfl, acquire_empty hlinked⟩
  | cons i rest =>
      rw [hfree] at hlinked
      obtain ⟨hcursor, hi, -⟩ := hlinked
      have hlt : p.cursor.toNat < maxCount := Nat.lt_of_le_of_lt (Nat.le_of_eq hcursor) hi
      obtain ⟨q, hacquire, hprep, hid⟩ := acquire_toIdPool hlt
      rw [← hpool] at hid
      obtain ⟨husable, hlist, -, hnotin⟩ := h.acquire hid
      exact Or.inr ⟨_, q, hlt, hacquire, hprep.trans hprepared, husable, hfree ▸ hlist, hnotin⟩

/-- `release` puts an id that is out at the head of the free list. -/
theorem release_spec (h : p.toIdPool.Usable) (hi : i < maxCount) (hout : i ∉ p.toIdPool.freeIds) :
    ∃ q, p.release i = some (true, q) ∧ q.prepared = p.prepared ∧ q.toIdPool.Usable ∧
      q.toIdPool.freeIds = i :: p.toIdPool.freeIds := by
  obtain ⟨q, hrelease, hprepared, hq⟩ := release_toIdPool (p := p) hi
  obtain ⟨husable, hlist⟩ := h.release hi hout
  rw [← hq] at husable hlist
  exact ⟨q, hrelease, hprepared, husable, hlist⟩

/-! ## Runs -/

/-- The pool and the ids that are out. -/
structure State where
  pool : CellPool
  out : List ℤ

inductive Action
  | prepare
  | acquire
  | release (id : ℤ)
  deriving DecidableEq

def step (s : State) : Action → Option State
  | .prepare => some { s with pool := s.pool.prepare }
  | .acquire =>
      match s.pool.acquire with
      | some (id, pool) => some { pool, out := if id = -1 then s.out else id :: s.out }
      | none => none
  | .release id =>
      match s.pool.release id with
      | some (_, pool) => some { pool, out := s.out.erase id }
      | none => none

/-- The zeroed pool after `prepare`, and calls in any order. -/
def machine : Machine State Action := { init := ⟨zeroed.prepare, []⟩, step }

/-- Only an id that is out is released. -/
def ReleasesHeld (s : State) : Action → Prop
  | .release id => id ∈ s.out
  | .prepare | .acquire => True

instance (s : State) (a : Action) : Decidable (ReleasesHeld s a) := by
  cases a <;> unfold ReleasesHeld <;> infer_instance

/-- The free list has no cycle, ends at `max_count` and lists the ids that are not out; `acquire`
gives one of them, and fails where there is none. -/
structure KeepsFreeList (s : State) : Prop where
  list : ∃ ids, ids.Nodup ∧ Visits s.pool.next s.pool.cursor ids ∧
    ∀ i : Fin maxCount, i ∈ ids ↔ (i.val : ℤ) ∉ s.out
  acquires : ∃ id pool, s.pool.acquire = some (id, pool) ∧ id ∉ s.out ∧
    (id = -1 ↔ ∀ i : Fin maxCount, (i.val : ℤ) ∈ s.out)
  releases : ∀ id ∈ s.out, ∃ pool, s.pool.release id = some (true, pool)

/-- The invariant. -/
structure Inv (s : State) : Prop where
  prepared : s.pool.prepared = true
  usable : s.pool.toIdPool.Usable
  nodup : s.out.Nodup
  valid : ∀ id ∈ s.out, ∃ i < maxCount, id = (i : ℤ)
  free : ∀ i < maxCount, i ∈ s.pool.toIdPool.freeIds ↔ (i : ℤ) ∉ s.out

variable {s t : State}

theorem inv_init : Inv machine.init := by
  have hpool : machine.init.pool.toIdPool = IdPool.zeroed.prepare := by
    rw [← zeroed_toIdPool]
    exact prepare_toIdPool
  refine ⟨rfl, ?_, List.nodup_nil, fun id hid => absurd hid List.not_mem_nil, fun i hi => ?_⟩
  · rw [hpool]
    exact IdPool.usable_zeroed.prepare
  · rw [hpool, IdPool.freeIds_prepare, IdPool.freeList_zeroed.freeIds_eq, List.mem_range'_1]
    exact iff_of_true ⟨Nat.zero_le i, by omega⟩ List.not_mem_nil

theorem Inv.acquire (h : Inv s) (hstep : step s .acquire = some t) : Inv t := by
  rcases acquire_spec h.prepared h.usable with
    ⟨-, hacquire⟩ | ⟨i, q, hi, hacquire, hprepared, husable, hlist, hnotin⟩
  · rw [step, hacquire] at hstep
    cases hstep
    exact h
  · rw [step, hacquire] at hstep
    obtain rfl := Option.some.inj hstep
    have hne : ¬ (i : ℤ) = -1 := by omega
    have hfree : (i : ℤ) ∉ s.out := (h.free i hi).mp (hlist ▸ List.mem_cons_self)
    refine ⟨hprepared, husable, ?_, ?_, fun j hj => ?_⟩
    · rw [if_neg hne]
      exact List.nodup_cons.mpr ⟨hfree, h.nodup⟩
    · rw [if_neg hne]
      exact List.forall_mem_cons.mpr ⟨⟨i, hi, rfl⟩, h.valid⟩
    · have hold := h.free j hj
      rw [hlist, List.mem_cons] at hold
      rw [if_neg hne, List.mem_cons, not_or, ← hold, Int.natCast_inj]
      constructor
      · intro hmem
        exact ⟨fun heq => hnotin (heq ▸ hmem), Or.inr hmem⟩
      · rintro ⟨hji, hmem⟩
        exact hmem.resolve_left hji

theorem Inv.release {id : ℤ} (h : Inv s) (hid : id ∈ s.out)
    (hstep : step s (.release id) = some t) : Inv t := by
  obtain ⟨i, hi, rfl⟩ := h.valid id hid
  have hout : i ∉ s.pool.toIdPool.freeIds := fun hmem => (h.free i hi).mp hmem hid
  obtain ⟨q, hrelease, hprepared, husable, hlist⟩ := release_spec h.usable hi hout
  rw [step, hrelease] at hstep
  obtain rfl := Option.some.inj hstep
  refine ⟨hprepared.trans h.prepared, husable, h.nodup.erase _,
    fun id hmem => h.valid id (List.mem_of_mem_erase hmem), fun j hj => ?_⟩
  rw [hlist, List.mem_cons, h.nodup.mem_erase_iff, h.free j hj, ne_eq, Int.natCast_inj]
  tauto

/-- Every call keeps the invariant. -/
theorem Inv.step {a : Action} (h : Inv s) (hheld : ReleasesHeld s a)
    (hstep : step s a = some t) : Inv t := by
  cases a with
  | prepare =>
      obtain rfl := Option.some.inj hstep
      have hsame : s.pool.prepare = s.pool := by
        unfold prepare
        rw [h.prepared]
        exact congrArg (CellPool.mk s.pool.next s.pool.cursor) h.prepared.symm
      rw [hsame]
      exact h
  | acquire => exact h.acquire hstep
  | release id => exact h.release hheld hstep

theorem Inv.keepsFreeList (h : Inv s) : KeepsFreeList s := by
  have hlinked := h.usable.freeList.linked
  rw [IdPool.prepare_of_prepared (p := s.pool.toIdPool) h.prepared] at hlinked
  obtain ⟨ids, hids, hvisits⟩ := visits_of_linked hlinked
  have hmem : ∀ i : Fin maxCount, i ∈ ids ↔ (i.val : ℤ) ∉ s.out := by
    intro i
    rw [← h.free i i.isLt, ← hids, List.mem_map_of_injective Fin.val_injective]
  refine ⟨⟨ids, ?_, hvisits, hmem⟩, ?_, fun id hid => ?_⟩
  · have hnodup := h.usable.freeList.nodup
    rw [← hids] at hnodup
    exact hnodup.of_map _
  · rcases acquire_spec h.prepared h.usable with
      ⟨hempty, hacquire⟩ | ⟨i, q, hi, hacquire, -, -, hlist, -⟩
    · refine ⟨-1, s.pool, hacquire, fun hout => ?_, iff_of_true rfl fun i => ?_⟩
      · obtain ⟨i, -, heq⟩ := h.valid (-1) hout
        omega
      · by_contra hfree
        have hlisted := (h.free i i.isLt).mpr hfree
        rw [hempty] at hlisted
        cases hlisted
    · have hfree : (i : ℤ) ∉ s.out := (h.free i hi).mp (hlist ▸ List.mem_cons_self)
      exact ⟨i, q, hacquire, hfree, iff_of_false (by omega) fun hall => hfree (hall ⟨i, hi⟩)⟩
  · obtain ⟨i, hi, rfl⟩ := h.valid id hid
    have hout : i ∉ s.pool.toIdPool.freeIds := fun hmem => (h.free i hi).mp hmem hid
    obtain ⟨q, hrelease, -⟩ := release_spec h.usable hi hout
    exact ⟨q, hrelease⟩

/-- **The free list.**  However ids are acquired and those that are out released, the free list
lists those that are not out. -/
theorem keepsFreeList_of_guarded {actions : List Action}
    (hheld : machine.Guarded ReleasesHeld actions) (hrun : machine.run actions = some s) :
    KeepsFreeList s := by
  have hinv : Inv s := Machine.invariant_of_guarded inv_init
    (fun _ _ _ h hheld hstep => h.step hheld hstep) hheld hrun
  exact hinv.keepsFreeList

/-- The first of two ids comes back and is given out again. -/
def reused : List Action := [.acquire, .acquire, .release 0, .acquire]

theorem keepsFreeList_reused :
    ∃ s, machine.run reused = some s ∧ s.out = [0, 1] ∧ KeepsFreeList s := by
  have hheld : machine.Guarded ReleasesHeld reused := by decide
  exact ⟨_, rfl, rfl, keepsFreeList_of_guarded hheld rfl⟩

end CellPool

end DzIpc.LibIpc
