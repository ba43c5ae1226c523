import DzIpc.Common.CircularQueue
import DzIpc.Library.BoundedFifo
import DzIpc.Library.Refinement
import DzIpc.Library.Threads
import Mathlib.Algebra.Group.Nat.Defs

/-!
# `CircularQueue` under any number of threads

`push` and `try_pop` of any number of threads, where every access to a position, to a sequence
number and to the data of a cell is a step of its own and the threads take theirs in any order.  A
compare-and-swap may fail for no reason.

Position `p` belongs to the cell `p % capacity`.  A push claims its position in `enqueue_pos_`, and
the cell is its own until it stores the sequence number; a pop claims its position in
`dequeue_pos_`, and the cell is its own until it hands it to the push a lap later.

* `Inv` ties the cells and the threads to the bounded FIFO queue that the positions describe.
* `slot_ne` is the one fact about sequence numbers, which fails for a single cell: the number of a
  cell tells whether a push or a pop has it, and of which position.
* `inv_look`, `inv_setCell`, `inv_claimEnqueue` and `inv_claimDequeue` say what an access does to
  the invariant, and `inv_access` puts those that claim nothing together.

The elements that a thread is given include the ones that its `push` drops to make room.
-/

namespace DzIpc.Common.QueueRaces

open CircularQueue BoundedFifo Threads

variable {T α : Type}

/-! ## The threads -/

/-- Where a thread is in `push_owned` or in `try_pop`.  In `try_dequeue`, `pending` is the message
of the `push_owned` that called it. -/
inductive Pc (α : Type) where
  | idle
  /-- About to load `enqueue_pos_`. -/
  | loadEnqueue (msg : α)
  /-- About to load the sequence number of the cell. -/
  | checkEnqueue (msg : α) (pos : ℕ)
  /-- About to advance `enqueue_pos_`. -/
  | claimEnqueue (msg : α) (pos : ℕ)
  /-- About to store the data. -/
  | store (msg : α) (pos : ℕ)
  /-- About to store the sequence number. -/
  | publish (pos : ℕ)
  /-- About to load `dequeue_pos_`. -/
  | loadDequeue (pending : Option α)
  | checkDequeue (pending : Option α) (pos : ℕ)
  /-- About to advance `dequeue_pos_`. -/
  | claimDequeue (pending : Option α) (pos : ℕ)
  /-- About to move the data out. -/
  | take (pending : Option α) (pos : ℕ)
  /-- About to reset the pointer in the cell. -/
  | reset (pending : Option α) (pos : ℕ) (out : Option α)
  /-- About to store the sequence number of the next lap. -/
  | release (pending : Option α) (pos : ℕ) (out : Option α)
  deriving DecidableEq

/-- Where a thread goes on when `try_dequeue` has returned: a `push_owned` tries again. -/
def Pc.resume : Option α → Pc α
  | none => .idle
  | some msg => .loadEnqueue msg

/-- Who takes an element: a thread, in `try_pop` or to drop it in its `push_owned`. -/
abbrev Taker (T : Type) : Type := T × Bool

/-- The queue, the threads, and what `try_dequeue` returned to each of them, the oldest first. -/
structure State (T α : Type) where
  queue : CircularQueue α
  threads : T → Pc α
  returned : Taker T → List α

inductive Action (T α : Type) where
  | push (t : T) (msg : α)
  | tryPop (t : T)
  /-- The next access of a thread; a compare-and-swap may be `spurious`. -/
  | access (t : T) (spurious : Bool)

section

variable (q : CircularQueue α)

/-- The cell of a position. -/
def cellAt (pos : ℕ) : Cell α := q.cells (pos % q.capacity)

/-- The next access of a thread. -/
def accessStep (spurious : Bool) : Pc α → Option (CircularQueue α × Pc α)
  | .idle => none
  | .loadEnqueue msg => some (q, .checkEnqueue msg q.enqueuePos)
  | .checkEnqueue msg pos =>
      if intptrDiff (cellAt q pos).sequence pos = 0 then some (q, .claimEnqueue msg pos)
      -- `try_enqueue` returns false, and `push_owned` makes room
      else if intptrDiff (cellAt q pos).sequence pos < 0 then some (q, .loadDequeue (some msg))
      else some (q, .loadEnqueue msg)
  | .claimEnqueue msg pos =>
      if !spurious && q.enqueuePos = pos then
        some ({ q with enqueuePos := sizeT (pos + 1) }, .store msg pos)
      else some (q, .checkEnqueue msg q.enqueuePos)
  | .store msg pos => some (q.setCell pos ⟨(cellAt q pos).sequence, some msg⟩, .publish pos)
  | .publish pos => some (q.setCell pos ⟨sizeT (pos + 1), (cellAt q pos).data⟩, .idle)
  | .loadDequeue pending => some (q, .checkDequeue pending q.dequeuePos)
  | .checkDequeue pending pos =>
      if intptrDiff (cellAt q pos).sequence (sizeT (pos + 1)) = 0 then
        some (q, .claimDequeue pending pos)
      -- `try_dequeue` returns false
      else if intptrDiff (cellAt q pos).sequence (sizeT (pos + 1)) < 0 then
        some (q, .resume pending)
      else some (q, .loadDequeue pending)
  | .claimDequeue pending pos =>
      if !spurious && q.dequeuePos = pos then
        some ({ q with dequeuePos := sizeT (pos + 1) }, .take pending pos)
      else some (q, .checkDequeue pending q.dequeuePos)
  | .take pending pos =>
      some (q.setCell pos ⟨(cellAt q pos).sequence, none⟩, .reset pending pos (cellAt q pos).data)
  | .reset pending pos out =>
      some (q.setCell pos ⟨(cellAt q pos).sequence, none⟩, .release pending pos out)
  | .release pending pos _ =>
      some (q.setCell pos ⟨sizeT (pos + q.capacity), (cellAt q pos).data⟩, .resume pending)

end

variable [DecidableEq T]

/-- What `try_dequeue` has returned once a thread has made its next access. -/
def State.record (s : State T α) (t : T) : Taker T → List α :=
  match s.threads t with
  | .release pending _ out =>
      Function.update s.returned (t, pending.isSome) (s.returned (t, pending.isSome) ++ out.toList)
  | _ => s.returned

/-- The state after a step of a thread. -/
def State.after (s : State T α) (t : T) (q : CircularQueue α) (pc : Pc α)
    (returned : Taker T → List α) : State T α :=
  { queue := q, threads := Function.update s.threads t pc, returned := returned }

def step (s : State T α) : Action T α → Option (State T α)
  | .push t msg =>
      match s.threads t with
      | .idle => some (s.after t s.queue (.loadEnqueue msg) s.returned)
      | _ => none
  | .tryPop t =>
      match s.threads t with
      | .idle => some (s.after t s.queue (.loadDequeue none) s.returned)
      | _ => none
  | .access t spurious =>
      (accessStep s.queue spurious (s.threads t)).map fun out => s.after t out.1 out.2 (s.record t)

/-- A queue that any number of threads use. -/
def machine (T : Type) [DecidableEq T] (q : CircularQueue α) : Machine (State T α) (Action T α) :=
  { init := { queue := q, threads := fun _ => .idle, returned := fun _ => [] }, step := step }

/-! ## The purpose -/

/-- The claims of positions: a push that advances `enqueue_pos_`, and a pop that advances
`dequeue_pos_`. -/
def event (s : State T α) : Action T α → Option (Event (Taker T) α)
  | .access t false =>
      match s.threads t with
      | .claimEnqueue msg pos => if s.queue.enqueuePos = pos then some (.enqueue msg) else none
      | .claimDequeue pending pos =>
          if s.queue.dequeuePos = pos then some (.dequeue (t, pending.isSome)) else none
      | _ => none
  | _ => none

/-- The element that a thread has claimed and not yet returned. -/
def State.inHand (s : State T α) (k : Taker T) : List α :=
  match s.threads k.1 with
  | .take pending pos => if pending.isSome = k.2 then (cellAt s.queue pos).data.toList else []
  | .reset pending _ out | .release pending _ out =>
      if pending.isSome = k.2 then out.toList else []
  | _ => []

/-- The position whose cell's data a thread is about to access. -/
def Pc.touching : Pc α → Option ℕ
  | .store _ pos | .take _ pos | .reset _ pos _ => some pos
  | _ => none

/-! ## The invariant -/

/-- The position that a thread has claimed for its push. -/
def Pc.pushing : Pc α → Option ℕ
  | .store _ pos | .publish pos => some pos
  | _ => none

/-- The position that a thread has claimed for its pop. -/
def Pc.popping : Pc α → Option ℕ
  | .take _ pos | .reset _ pos _ | .release _ pos _ => some pos
  | _ => none

/-- A thread that has claimed no position only looks at the queue. -/
def Pc.looking : Pc α → Bool
  | .store _ _ | .publish _ | .take _ _ | .reset _ _ _ | .release _ _ _ => false
  | _ => true

/-- What a thread owes to the caller of its `try_dequeue`: the element of its position. -/
def Pc.owed (A : BoundedFifo.State (Taker T) α) (dropping : Bool) : Pc α → List α
  | .take pending pos | .reset pending pos _ | .release pending pos _ =>
      if pending.isSome = dropping then A.log[pos]?.toList else []
  | _ => []

/-- What holds of the place of one thread.  The sequence number of a cell says whose it is: that of
a claimed position, until its push is done, is the position, and until its pop is done, one more. -/
def Place (q : CircularQueue α) (A : BoundedFifo.State (Taker T) α) : Pc α → Prop
  | .checkEnqueue _ pos => pos ≤ A.log.length
  | .claimEnqueue _ pos =>
      pos ≤ A.log.length ∧ (pos = A.log.length → (cellAt q pos).sequence = pos)
  | .store msg pos =>
      A.taken.length ≤ pos ∧ A.log[pos]? = some msg ∧ (cellAt q pos).sequence = pos
  | .publish pos =>
      A.taken.length ≤ pos ∧ ∃ v, A.log[pos]? = some v ∧ cellAt q pos = ⟨pos, some v⟩
  | .checkDequeue _ pos => pos ≤ A.taken.length
  | .claimDequeue _ pos =>
      pos ≤ A.taken.length ∧ (pos = A.taken.length → (cellAt q pos).sequence = pos + 1)
  | .take _ pos =>
      pos < A.taken.length ∧ ∃ v, A.log[pos]? = some v ∧ cellAt q pos = ⟨pos + 1, some v⟩
  | .reset _ pos out | .release _ pos out =>
      pos < A.taken.length ∧ A.log[pos]? = out ∧ (cellAt q pos).sequence = pos + 1
  | _ => True

/-- The queue, its threads and what they were given are those of a bounded FIFO queue. -/
structure Inv (c : ℕ) (s : State T α) (A : BoundedFifo.State (Taker T) α) : Prop where
  capacity : s.queue.capacity = c
  enqueuePos : s.queue.enqueuePos = A.log.length
  dequeuePos : s.queue.dequeuePos = A.taken.length
  fits : A.log.length ≤ A.taken.length + c
  sequences : ∀ pos, (cellAt s.queue pos).sequence ≤ A.log.length + c
  /-- The cell of an element is still its push's, or holds the element. -/
  stored : ∀ pos v, A.taken.length ≤ pos → A.log[pos]? = some v →
    (∃ t, (s.threads t).pushing = some pos) ∨ cellAt s.queue pos = ⟨pos + 1, some v⟩
  /-- The cell of a position to come is still a pop's, or waits for the push. -/
  free : ∀ pos, A.log.length ≤ pos → pos < A.taken.length + c →
    (∃ t p, (s.threads t).popping = some p ∧ p + c = pos) ∨ (cellAt s.queue pos).sequence = pos
  pushers : Exclusive Pc.pushing s.threads
  poppers : Exclusive Pc.popping s.threads
  places : ∀ t, Place s.queue A (s.threads t)
  returned : ∀ k, A.given k = s.returned k ++ (s.threads k.1).owed A k.2

section

variable {c : ℕ} {s : State T α} {A : BoundedFifo.State (Taker T) α} {q : CircularQueue α}

/-! ## Whose a cell is -/

omit [DecidableEq T] in
theorem sequence_of_pushing {pc : Pc α} {pos : ℕ} (hplace : Place q A pc)
    (hpc : pc.pushing = some pos) :
    A.taken.length ≤ pos ∧ pos < A.log.length ∧ (cellAt q pos).sequence = pos := by
  cases pc with
  | store msg pos' =>
      obtain ⟨hle, hlog, hseq⟩ := hplace
      cases hpc
      exact ⟨hle, (List.getElem?_eq_some_iff.mp hlog).1, hseq⟩
  | publish pos' =>
      obtain ⟨hle, v, hlog, hcell⟩ := hplace
      cases hpc
      exact ⟨hle, (List.getElem?_eq_some_iff.mp hlog).1, by rw [hcell]⟩
  | _ => cases hpc

omit [DecidableEq T] in
theorem sequence_of_popping {pc : Pc α} {pos : ℕ} (hplace : Place q A pc)
    (hpc : pc.popping = some pos) :
    pos < A.taken.length ∧ (cellAt q pos).sequence = pos + 1 := by
  cases pc with
  | take pending pos' =>
      obtain ⟨hlt, v, -, hcell⟩ := hplace
      cases hpc
      exact ⟨hlt, by rw [hcell]⟩
  | reset pending pos' out =>
      obtain ⟨hlt, -, hseq⟩ := hplace
      cases hpc
      exact ⟨hlt, hseq⟩
  | release pending pos' out =>
      obtain ⟨hlt, -, hseq⟩ := hplace
      cases hpc
      exact ⟨hlt, hseq⟩
  | _ => cases hpc

theorem cellAt_congr {pos pos' : ℕ} (h : pos % q.capacity = pos' % q.capacity) :
    cellAt q pos = cellAt q pos' := by
  unfold cellAt
  rw [h]

theorem cellAt_setCell {pos pos' : ℕ} (cell : Cell α) (h : pos' % q.capacity = pos % q.capacity) :
    cellAt (q.setCell pos cell) pos' = cell := by
  change Function.update q.cells (pos % q.capacity) cell (pos' % q.capacity) = cell
  rw [h, Function.update_self]

theorem cellAt_setCell_ne {pos pos' : ℕ} (cell : Cell α) (h : pos' % q.capacity ≠ pos % q.capacity) :
    cellAt (q.setCell pos cell) pos' = cellAt q pos' :=
  Function.update_of_ne h _ _

/-- With more than one cell, the sequence number of a cell cannot be both a position of the cell
and one more than a position of it. -/
theorem slot_ne {pos pos' : ℕ} (hcap : 2 ≤ q.capacity) (hpos : (cellAt q pos).sequence = pos)
    (hpos' : (cellAt q pos').sequence = pos' + 1) : pos % q.capacity ≠ pos' % q.capacity := by
  intro hmod
  obtain rfl : pos = pos' + 1 := by rw [← hpos, ← hpos', cellAt_congr hmod]
  have hone : (pos' + 1) % q.capacity = (pos' + 0) % q.capacity := hmod
  have hdvd : 1 % q.capacity = 0 % q.capacity := Nat.ModEq.add_left_cancel' pos' hone
  rw [Nat.mod_eq_of_lt hcap, Nat.zero_mod] at hdvd
  cases hdvd

omit [DecidableEq T] in
/-- The cell of `pos` is the thread `t`'s: no other thread has claimed a position of it, and none
of its positions is waiting. -/
structure Owned (s : State T α) (A : BoundedFifo.State (Taker T) α) (t : T) (pos : ℕ) : Prop where
  push : ∀ {p}, (cellAt s.queue p).sequence = p →
    (∃ t', t' ≠ t ∧ (s.threads t').pushing = some p) ∨ A.log.length ≤ p →
    p % s.queue.capacity ≠ pos % s.queue.capacity
  pop : ∀ {p}, (cellAt s.queue p).sequence = p + 1 →
    (∃ t', t' ≠ t ∧ (s.threads t').popping = some p) ∨ A.taken.length ≤ p →
    p % s.queue.capacity ≠ pos % s.queue.capacity

theorem owned_of_pushing (h : Inv c s A) (hcap : 2 ≤ c) {t : T} {pos : ℕ}
    (hpc : (s.threads t).pushing = some pos) : Owned s A t pos := by
  obtain ⟨-, hlt, hseq⟩ := sequence_of_pushing (h.places t) hpc
  have hcap' : 2 ≤ s.queue.capacity := by rwa [h.capacity]
  constructor
  · intro p hp hwho hmod
    obtain rfl : p = pos := by rw [← hp, cellAt_congr hmod, hseq]
    rcases hwho with ⟨t', hne, ht'⟩ | hle
    · exact hne (h.pushers ht' hpc)
    · exact absurd hlt (Nat.not_lt.mpr hle)
  · exact fun hp _ => (slot_ne hcap' hseq hp).symm

theorem owned_of_popping (h : Inv c s A) (hcap : 2 ≤ c) {t : T} {pos : ℕ}
    (hpc : (s.threads t).popping = some pos) : Owned s A t pos := by
  obtain ⟨hlt, hseq⟩ := sequence_of_popping (h.places t) hpc
  have hcap' : 2 ≤ s.queue.capacity := by rwa [h.capacity]
  constructor
  · exact fun hp _ => slot_ne hcap' hp hseq
  · intro p hp hwho hmod
    obtain rfl : p = pos := by
      have hsucc : p + 1 = pos + 1 := by rw [← hp, cellAt_congr hmod, hseq]
      exact Nat.succ.inj hsucc
    rcases hwho with ⟨t', hne, ht'⟩ | hle
    · exact hne (h.poppers ht' hpc)
    · exact absurd hlt (Nat.not_lt.mpr hle)

/-! ## Writing a cell -/

omit [DecidableEq T] in
/-- The place of a thread depends on the cell of its own position, and on those of the next push
and the next pop. -/
theorem Place.congr {q' : CircularQueue α} {pc : Pc α} (hplace : Place q A pc)
    (hmine : ∀ p, pc.pushing = some p ∨ pc.popping = some p → cellAt q' p = cellAt q p)
    (hpush : ∀ p, p = A.log.length → (cellAt q p).sequence = p → cellAt q' p = cellAt q p)
    (hpop : ∀ p, p = A.taken.length → (cellAt q p).sequence = p + 1 → cellAt q' p = cellAt q p) :
    Place q' A pc := by
  cases pc with
  | claimEnqueue msg p => exact ⟨hplace.1, fun hp => by rw [hpush p hp (hplace.2 hp), hplace.2 hp]⟩
  | claimDequeue pending p => exact ⟨hplace.1, fun hp => by rw [hpop p hp (hplace.2 hp), hplace.2 hp]⟩
  | store msg p => simpa only [Place, hmine p (Or.inl rfl)] using hplace
  | publish p => simpa only [Place, hmine p (Or.inl rfl)] using hplace
  | take pending p => simpa only [Place, hmine p (Or.inr rfl)] using hplace
  | reset pending p out => simpa only [Place, hmine p (Or.inr rfl)] using hplace
  | release pending p out => simpa only [Place, hmine p (Or.inr rfl)] using hplace
  | _ => exact hplace

omit [DecidableEq T] in
theorem place_setCell {t : T} {pos : ℕ} (howned : Owned s A t pos) {t' : T} (hne : t' ≠ t)
    (hplace : Place s.queue A (s.threads t')) (cell : Cell α) :
    Place (s.queue.setCell pos cell) A (s.threads t') := by
  refine hplace.congr (fun p hp => ?_) (fun p hp hseq => ?_) (fun p hp hseq => ?_)
  · rcases hp with hp | hp
    · have hseq := (sequence_of_pushing hplace hp).2.2
      exact cellAt_setCell_ne cell (howned.push hseq (Or.inl ⟨t', hne, hp⟩))
    · have hseq := (sequence_of_popping hplace hp).2
      exact cellAt_setCell_ne cell (howned.pop hseq (Or.inl ⟨t', hne, hp⟩))
  · exact cellAt_setCell_ne cell (howned.push hseq (Or.inr hp.ge))
  · exact cellAt_setCell_ne cell (howned.pop hseq (Or.inr hp.ge))

section

variable {t : T} {pc : Pc α} {returned : Taker T → List α}

@[simp] theorem after_queue : (s.after t q pc returned).queue = q := rfl

@[simp] theorem after_returned : (s.after t q pc returned).returned = returned := rfl

@[simp] theorem after_self : (s.after t q pc returned).threads t = pc :=
  Function.update_self _ _ _

theorem after_of_ne {t' : T} (hne : t' ≠ t) :
    (s.after t q pc returned).threads t' = s.threads t' :=
  Function.update_of_ne hne _ _

/-- What the threads are owed stays what it is. -/
theorem returned_of_owed (h : Inv c s A) (howed : ∀ b, pc.owed A b = (s.threads t).owed A b)
    (k : Taker T) :
    A.given k = s.returned k ++ ((s.after t q pc s.returned).threads k.1).owed A k.2 := by
  rw [h.returned k]
  by_cases hk : k.1 = t
  · rw [hk, after_self, howed]
  · rw [after_of_ne hk]

/-- A thread writes the cell it owns. -/
theorem inv_setCell (h : Inv c s A) {pos : ℕ} (howned : Owned s A t pos) {cell : Cell α}
    (hseq : cell.sequence ≤ A.log.length + c)
    (hplace : Place (s.queue.setCell pos cell) A pc)
    (hmine : ∀ p, (s.threads t).pushing = some p ∨ (s.threads t).popping = some p → p = pos)
    (hpushing : ∀ p, pc.pushing = some p → (s.threads t).pushing = some p)
    (hpopping : ∀ p, pc.popping = some p → (s.threads t).popping = some p)
    (hstored : ∀ v, (s.threads t).pushing = some pos → A.log[pos]? = some v →
      pc.pushing = some pos ∨ cell = ⟨pos + 1, some v⟩)
    (hfree : (s.threads t).popping = some pos → pc.popping = some pos ∨ cell.sequence = pos + c)
    (hreturned : ∀ k, A.given k =
      returned k ++ ((s.after t (s.queue.setCell pos cell) pc returned).threads k.1).owed A k.2) :
    Inv c (s.after t (s.queue.setCell pos cell) pc returned) A := by
  constructor
  case capacity => exact h.capacity
  case enqueuePos => exact h.enqueuePos
  case dequeuePos => exact h.dequeuePos
  case fits => exact h.fits
  case returned => exact hreturned
  case pushers => exact h.pushers.keep hpushing
  case poppers => exact h.poppers.keep hpopping
  case sequences =>
    intro p
    rw [after_queue]
    by_cases hmod : p % s.queue.capacity = pos % s.queue.capacity
    · rw [cellAt_setCell cell hmod]
      exact hseq
    · rw [cellAt_setCell_ne cell hmod]
      exact h.sequences p
  case stored =>
    intro p v hle hv
    rw [after_queue]
    rcases h.stored p v hle hv with ⟨t', ht'⟩ | hcell
    · by_cases hne : t' = t
      · subst hne
        obtain rfl := hmine p (Or.inl ht')
        rcases hstored v ht' hv with hpc | hcell
        · exact Or.inl ⟨t', by rw [after_self, hpc]⟩
        · exact Or.inr (by rw [cellAt_setCell cell rfl, hcell])
      · exact Or.inl ⟨t', by rw [after_of_ne hne, ht']⟩
    · have hother := howned.pop (by rw [hcell]) (Or.inr hle)
      exact Or.inr (by rw [cellAt_setCell_ne cell hother, hcell])
  case free =>
    intro p hle hlt
    rw [after_queue]
    rcases h.free p hle hlt with ⟨t', p', ht', hp'⟩ | hcell
    · by_cases hne : t' = t
      · subst hne
        obtain rfl := hmine p' (Or.inr ht')
        rcases hfree ht' with hpc | hcell
        · exact Or.inl ⟨t', p', by rw [after_self, hpc], hp'⟩
        · have hmod : p % s.queue.capacity = p' % s.queue.capacity := by
            rw [← hp', h.capacity, Nat.add_mod_right]
          refine Or.inr ?_
          rw [cellAt_setCell cell hmod, hcell, hp']
      · exact Or.inl ⟨t', p', by rw [after_of_ne hne, ht'], hp'⟩
    · have hother := howned.push hcell (Or.inr hle)
      exact Or.inr (by rw [cellAt_setCell_ne cell hother, hcell])
  case places =>
    intro t'
    rw [after_queue]
    by_cases hne : t' = t
    · subst hne
      rw [after_self]
      exact hplace
    · rw [after_of_ne hne]
      exact place_setCell howned hne (h.places t') cell

omit [DecidableEq T] in
/-- A thread that looks has no position and owes nothing. -/
theorem looking_spec {pc : Pc α} (hpc : pc.looking) :
    pc.pushing = none ∧ pc.popping = none ∧
      ∀ (A : BoundedFifo.State (Taker T) α) b, pc.owed A b = [] := by
  cases pc with
  | store msg p => cases hpc
  | publish p => cases hpc
  | take pending p => cases hpc
  | reset pending p out => cases hpc
  | release pending p out => cases hpc
  | _ => exact ⟨rfl, rfl, fun _ _ => rfl⟩

/-- What `try_dequeue` has returned changes only when a pop releases its cell. -/
theorem record_of_ne (hpc : ∀ pending pos out, s.threads t ≠ .release pending pos out) :
    s.record t = s.returned := by
  unfold State.record
  split
  · next pending pos out heq => exact absurd heq (hpc pending pos out)
  · rfl

theorem record_of_looking (hpc : (s.threads t).looking) : s.record t = s.returned := by
  refine record_of_ne fun pending pos out heq => ?_
  rw [heq] at hpc
  cases hpc

/-- A thread looks at the queue. -/
theorem inv_look (h : Inv c s A) (hold : (s.threads t).looking) (hnew : pc.looking)
    (hplace : Place s.queue A pc) : Inv c (s.after t s.queue pc (s.record t)) A := by
  obtain ⟨hpush, hpop, howed⟩ := looking_spec (T := T) hold
  obtain ⟨hpush', hpop', howed'⟩ := looking_spec (T := T) hnew
  rw [record_of_looking hold]
  constructor
  case capacity => exact h.capacity
  case enqueuePos => exact h.enqueuePos
  case dequeuePos => exact h.dequeuePos
  case fits => exact h.fits
  case sequences => exact h.sequences
  case returned => exact returned_of_owed h fun b => by rw [howed, howed']
  case pushers =>
    exact h.pushers.keep fun p hp => by rw [hpush'] at hp; cases hp
  case poppers =>
    exact h.poppers.keep fun p hp => by rw [hpop'] at hp; cases hp
  case stored =>
    intro p v hle hv
    rcases h.stored p v hle hv with ⟨t', ht'⟩ | hcell
    · exact Or.inl ⟨t', by rw [after_of_ne (ne_of_none hpush ht'), ht']⟩
    · exact Or.inr hcell
  case free =>
    intro p hle hlt
    rcases h.free p hle hlt with ⟨t', p', ht', hp'⟩ | hcell
    · exact Or.inl ⟨t', p', by rw [after_of_ne (ne_of_none hpop ht'), ht'], hp'⟩
    · exact Or.inr hcell
  case places =>
    intro t'
    rw [after_queue]
    by_cases heq : t' = t
    · subst heq
      rw [after_self]
      exact hplace
    · rw [after_of_ne heq]
      exact h.places t'

end

/-! ## Claiming a position -/

theorem sizeT_of_lt {n : ℕ} (hn : n < 2 ^ 64) : sizeT n = n :=
  Nat.mod_eq_of_lt hn

theorem eq_of_intptrDiff {seq pos : ℕ} (hseq : seq < 2 ^ 64) (hpos : pos < 2 ^ 64)
    (hdiff : intptrDiff seq pos = 0) : seq = pos := by
  have hdvd : ((2 ^ 64 : ℕ) : ℤ) ∣ (seq : ℤ) - pos := Int.dvd_of_bmod_eq_zero hdiff
  omega

/-- The cell of the next push is free once it has its number. -/
theorem room_of_sequence (h : Inv c s A) (hcap : 2 ≤ c)
    (hseq : (cellAt s.queue A.log.length).sequence = A.log.length) :
    A.log.length < A.taken.length + c := by
  refine Nat.lt_of_le_of_ne h.fits fun hfull => ?_
  have hmod : A.log.length % s.queue.capacity = A.taken.length % s.queue.capacity := by
    rw [hfull, h.capacity, Nat.add_mod_right]
  rw [cellAt_congr hmod] at hseq
  -- the oldest element would have the number of the next lap
  rcases h.stored A.taken.length _ le_rfl
    (List.getElem?_eq_getElem (by omega)) with ⟨t, ht⟩ | hcell
  · have hold := (sequence_of_pushing (h.places t) ht).2.2
    omega
  · rw [hcell] at hseq
    change A.taken.length + 1 = _ at hseq
    omega

/-- There is an element for the next pop once its cell has the number behind. -/
theorem some_of_sequence (h : Inv c s A) (hcap : 2 ≤ c)
    (hseq : (cellAt s.queue A.taken.length).sequence = A.taken.length + 1) :
    A.taken.length < A.log.length := by
  have hle : A.taken.length ≤ A.log.length := by
    rw [length_log]
    exact Nat.le_add_right _ _
  refine Nat.lt_of_le_of_ne hle fun hempty => ?_
  rcases h.free A.taken.length hempty.ge (by omega) with ⟨t, p, ht, hp⟩ | hcell
  · have hold := (sequence_of_popping (h.places t) ht).2
    have hmod : A.taken.length % s.queue.capacity = p % s.queue.capacity := by
      rw [← hp, h.capacity, Nat.add_mod_right]
    rw [cellAt_congr hmod] at hseq
    omega
  · omega

omit [DecidableEq T] in
/-- A push has no bearing on the places of the others. -/
theorem Place.enqueue {A' : BoundedFifo.State (Taker T) α} {pc : Pc α} {v : α}
    (hplace : Place q A pc) (hlog : A'.log = A.log ++ [v]) (htaken : A'.taken = A.taken) :
    Place q A' pc := by
  have hlen : A'.log.length = A.log.length + 1 := by rw [hlog, List.length_append]; rfl
  have hget : ∀ {p : ℕ} {w : α}, A.log[p]? = some w → A'.log[p]? = some w := by
    intro p w hp
    rw [hlog, List.getElem?_append_left (List.getElem?_eq_some_iff.mp hp).1, hp]
  have hkept : ∀ {p : ℕ}, p < A.taken.length → A'.log[p]? = A.log[p]? := by
    intro p hp
    have hlt : p < A.log.length := by
      rw [length_log]
      omega
    rw [hlog, List.getElem?_append_left hlt]
  cases pc with
  | checkEnqueue msg p => exact hplace.trans (by omega)
  | claimEnqueue msg p =>
      obtain ⟨hle, -⟩ := hplace
      exact ⟨by omega, fun hp => absurd hp (by omega)⟩
  | store msg p =>
      obtain ⟨hle, hmsg, hseq⟩ := hplace
      exact ⟨htaken ▸ hle, hget hmsg, hseq⟩
  | publish p =>
      obtain ⟨hle, w, hw, hcell⟩ := hplace
      exact ⟨htaken ▸ hle, w, hget hw, hcell⟩
  | take pending p =>
      obtain ⟨hlt, w, hw, hcell⟩ := hplace
      exact ⟨htaken ▸ hlt, w, hget hw, hcell⟩
  | reset pending p out =>
      obtain ⟨hlt, hout, hseq⟩ := hplace
      exact ⟨htaken ▸ hlt, (hkept hlt).trans hout, hseq⟩
  | release pending p out =>
      obtain ⟨hlt, hout, hseq⟩ := hplace
      exact ⟨htaken ▸ hlt, (hkept hlt).trans hout, hseq⟩
  | checkDequeue pending p =>
      unfold Place at hplace ⊢
      rwa [htaken]
  | claimDequeue pending p =>
      unfold Place at hplace ⊢
      rwa [htaken]
  | _ => trivial

omit [DecidableEq T] in
/-- Nor has a pop, whose cell holds an element. -/
theorem Place.dequeue {A' : BoundedFifo.State (Taker T) α} {pc : Pc α} {x : Taker T × α}
    (hplace : Place q A pc) (hlog : A'.log = A.log) (htaken : A'.taken = A.taken ++ [x])
    (hseq : (cellAt q A.taken.length).sequence = A.taken.length + 1) : Place q A' pc := by
  have hlen : A'.taken.length = A.taken.length + 1 := by rw [htaken, List.length_append]; rfl
  have hnot : ∀ {p : ℕ}, A.taken.length ≤ p → (cellAt q p).sequence = p → A'.taken.length ≤ p := by
    intro p hle hp
    have hne : p ≠ A.taken.length := by
      rintro rfl
      rw [hseq] at hp
      omega
    omega
  cases pc with
  | checkEnqueue msg p =>
      unfold Place at hplace ⊢
      rwa [hlog]
  | claimEnqueue msg p =>
      unfold Place at hplace ⊢
      rwa [hlog]
  | store msg p =>
      obtain ⟨hle, hmsg, hp⟩ := hplace
      exact ⟨hnot hle hp, hlog ▸ hmsg, hp⟩
  | publish p =>
      obtain ⟨hle, w, hw, hcell⟩ := hplace
      exact ⟨hnot hle (by rw [hcell]), w, hlog ▸ hw, hcell⟩
  | checkDequeue pending p => exact hplace.trans (by omega)
  | claimDequeue pending p =>
      obtain ⟨hle, -⟩ := hplace
      exact ⟨by omega, fun hp => absurd hp (by omega)⟩
  | take pending p =>
      obtain ⟨hlt, w, hw, hcell⟩ := hplace
      exact ⟨by omega, w, hlog ▸ hw, hcell⟩
  | reset pending p out =>
      obtain ⟨hlt, hout, hp⟩ := hplace
      exact ⟨by omega, hlog ▸ hout, hp⟩
  | release pending p out =>
      obtain ⟨hlt, hout, hp⟩ := hplace
      exact ⟨by omega, hlog ▸ hout, hp⟩
  | _ => trivial

omit [DecidableEq T] in
theorem owed_append {A' : BoundedFifo.State (Taker T) α} {pc : Pc α} {l : List α}
    (hplace : Place q A pc) (hlog : A'.log = A.log ++ l) (b : Bool) : pc.owed A' b = pc.owed A b := by
  have hkept : ∀ {p : ℕ}, p < A.taken.length → A'.log[p]? = A.log[p]? := by
    intro p hp
    have hlt : p < A.log.length := by
      rw [length_log]
      omega
    rw [hlog, List.getElem?_append_left hlt]
  cases pc with
  | take pending p => simp only [Pc.owed, hkept hplace.1]
  | reset pending p out => simp only [Pc.owed, hkept hplace.1]
  | release pending p out => simp only [Pc.owed, hkept hplace.1]
  | _ => rfl

variable {t : T} {msg : α} {pending : Option α} {pos : ℕ}

/-- A push claims the next position. -/
theorem inv_claimEnqueue (h : Inv c s A) (hcap : 2 ≤ c) (hpc : s.threads t = .claimEnqueue msg pos)
    (hpos : s.queue.enqueuePos = pos) (hbound : pos + 1 < 2 ^ 64) :
    ∃ A', (BoundedFifo.machine (Taker T) α c).step A (.enqueue msg) = some A' ∧
      Inv c (s.after t { s.queue with enqueuePos := sizeT (pos + 1) } (.store msg pos) s.returned) A' := by
  have hplace := h.places t
  rw [hpc] at hplace
  obtain rfl : pos = A.log.length := by rw [← hpos, h.enqueuePos]
  have hseq := hplace.2 rfl
  have hroom := room_of_sequence h hcap hseq
  obtain ⟨A', hstep, hlog, htaken⟩ := exists_enqueue msg hroom
  have hlen : A'.log.length = A.log.length + 1 := by rw [hlog, List.length_append]; rfl
  have hlt : A.taken.length ≤ A.log.length := by
    rw [length_log]
    exact Nat.le_add_right _ _
  have hnew : A'.log[A.log.length]? = some msg := by rw [hlog, List.getElem?_concat_length]
  have hpush : (s.threads t).pushing = none := by rw [hpc]; rfl
  have hpop : (s.threads t).popping = none := by rw [hpc]; rfl
  refine ⟨A', hstep, ?_⟩
  constructor
  case capacity => exact h.capacity
  case enqueuePos =>
    rw [hlen]
    exact sizeT_of_lt hbound
  case dequeuePos => exact h.dequeuePos.trans (by rw [htaken])
  case fits => rw [hlen, htaken]; exact hroom
  case sequences => exact fun p => (h.sequences p).trans (by omega)
  case stored =>
    intro p v hle hv
    rw [htaken] at hle
    by_cases hp : p = A.log.length
    · subst hp
      exact Or.inl ⟨t, by rw [after_self]; rfl⟩
    · have hpl : p < A.log.length := by
        have := (List.getElem?_eq_some_iff.mp hv).1
        omega
      rw [hlog, List.getElem?_append_left hpl] at hv
      rcases h.stored p v hle hv with ⟨t', ht'⟩ | hcell
      · exact Or.inl ⟨t', by rw [after_of_ne (ne_of_none hpush ht'), ht']⟩
      · exact Or.inr hcell
  case free =>
    intro p hle hlt'
    rw [htaken] at hlt'
    rcases h.free p (by omega) hlt' with ⟨t', p', ht', hp'⟩ | hcell
    · exact Or.inl ⟨t', p', by rw [after_of_ne (ne_of_none hpop ht'), ht'], hp'⟩
    · exact Or.inr hcell
  case pushers =>
    refine h.pushers.claim rfl fun t' hp => ?_
    exact Nat.lt_irrefl _ (sequence_of_pushing (h.places t') hp).2.1
  case poppers =>
    exact h.poppers.keep fun p hp => by cases hp
  case places =>
    intro t'
    by_cases heq : t' = t
    · subst heq
      rw [after_self]
      exact ⟨by rw [htaken]; exact hlt, hnew, hseq⟩
    · rw [after_of_ne heq]
      exact Place.enqueue (h.places t') hlog htaken
  case returned =>
    intro k
    have hgiven : A'.given k = A.given k := by
      unfold BoundedFifo.State.given
      rw [htaken]
    rw [hgiven, h.returned k]
    by_cases hk : k.1 = t
    · rw [hk, after_self, hpc]
      rfl
    · rw [after_of_ne hk, owed_append (h.places k.1) hlog]
      rfl

/-- A pop claims the oldest element. -/
theorem inv_claimDequeue (h : Inv c s A) (hcap : 2 ≤ c)
    (hpc : s.threads t = .claimDequeue pending pos) (hpos : s.queue.dequeuePos = pos)
    (hbound : A.log.length < 2 ^ 64) :
    ∃ A', (BoundedFifo.machine (Taker T) α c).step A (.dequeue (t, pending.isSome)) = some A' ∧
      Inv c (s.after t { s.queue with dequeuePos := sizeT (pos + 1) } (.take pending pos) s.returned)
        A' := by
  have hplace := h.places t
  rw [hpc] at hplace
  obtain rfl : pos = A.taken.length := by rw [← hpos, h.dequeuePos]
  have hseq := hplace.2 rfl
  have hsome := some_of_sequence h hcap hseq
  obtain ⟨A', v, hstep, hv, hlog, htaken⟩ := exists_dequeue (t, pending.isSome) hsome
  have hlen : A'.taken.length = A.taken.length + 1 := by rw [htaken, List.length_append]; rfl
  have hpush : (s.threads t).pushing = none := by rw [hpc]; rfl
  have hpop : (s.threads t).popping = none := by rw [hpc]; rfl
  -- the cell holds the element, since its number is not that of a push
  have hcell : cellAt s.queue A.taken.length = ⟨A.taken.length + 1, some v⟩ := by
    rcases h.stored A.taken.length v le_rfl hv with ⟨t', ht'⟩ | hcell
    · have hold := (sequence_of_pushing (h.places t') ht').2.2
      omega
    · exact hcell
  refine ⟨A', hstep, ?_⟩
  constructor
  case capacity => exact h.capacity
  case enqueuePos => exact h.enqueuePos.trans (by rw [hlog])
  case dequeuePos =>
    rw [hlen]
    exact sizeT_of_lt (by omega)
  case fits =>
    have := h.fits
    rw [hlog, hlen]
    omega
  case sequences => rw [hlog]; exact h.sequences
  case stored =>
    intro p v' hle hv'
    rw [hlog] at hv'
    rcases h.stored p v' (by omega) hv' with ⟨t', ht'⟩ | hcell
    · exact Or.inl ⟨t', by rw [after_of_ne (ne_of_none hpush ht'), ht']⟩
    · exact Or.inr hcell
  case free =>
    intro p hle hlt
    rw [hlog] at hle
    by_cases hp : p = A.taken.length + c
    · exact Or.inl ⟨t, A.taken.length, by rw [after_self]; rfl, hp.symm⟩
    · rcases h.free p hle (by omega) with ⟨t', p', ht', hp'⟩ | hcell
      · exact Or.inl ⟨t', p', by rw [after_of_ne (ne_of_none hpop ht'), ht'], hp'⟩
      · exact Or.inr hcell
  case pushers =>
    exact h.pushers.keep fun p hp => by cases hp
  case poppers =>
    refine h.poppers.claim rfl fun t' hp => ?_
    exact Nat.lt_irrefl _ (sequence_of_popping (h.places t') hp).1
  case places =>
    intro t'
    by_cases heq : t' = t
    · subst heq
      rw [after_self]
      exact ⟨by omega, v, hlog ▸ hv, hcell⟩
    · rw [after_of_ne heq]
      exact Place.dequeue (h.places t') hlog htaken hseq
  case returned =>
    intro k
    rw [given_append htaken, h.returned k]
    by_cases hk : k.1 = t
    · rw [hk, after_self, hpc]
      have hkey : (t, pending.isSome) = k ↔ pending.isSome = k.2 := by
        rw [← hk]
        exact ⟨fun heq => congrArg Prod.snd heq, fun heq => Prod.ext rfl heq⟩
      simp only [Pc.owed, List.append_nil, hkey, hlog, hv]
      rfl
    · have hne : (t, pending.isSome) ≠ k := fun heq => hk (congrArg Prod.fst heq).symm
      have howed := owed_append (h.places k.1) (hlog.trans (List.append_nil _).symm) k.2
      rw [after_of_ne hk, if_neg hne, List.append_nil, howed]
      rfl

/-! ## The accesses -/

section

variable {spurious : Bool} {out : Option α}

theorem inv_store (h : Inv c s A) (hcap : 2 ≤ c) (hpc : s.threads t = .store msg pos) :
    Inv c (s.after t (s.queue.setCell pos ⟨(cellAt s.queue pos).sequence, some msg⟩) (.publish pos)
      s.returned) A := by
  have hplace := h.places t
  have hmine : (s.threads t).pushing = some pos := by rw [hpc]; rfl
  have howned := owned_of_pushing h hcap hmine
  rw [hpc] at hplace
  obtain ⟨hle, hmsg, hseq⟩ := hplace
  refine inv_setCell h howned (h.sequences pos) ⟨hle, msg, hmsg, ?_⟩ ?_ ?_ ?_ ?_ ?_ ?_
  · rw [cellAt_setCell _ rfl, hseq]
  · rw [hpc]
    rintro p (hp | hp)
    · exact (Option.some.inj hp).symm
    · cases hp
  · exact fun p hp => by rw [hpc]; exact hp
  · exact fun p hp => by cases hp
  · exact fun v _ _ => Or.inl rfl
  · exact fun hpop => by rw [hpc] at hpop; cases hpop
  · exact returned_of_owed h fun b => by rw [hpc]; rfl

theorem inv_publish (h : Inv c s A) (hcap : 2 ≤ c) (hpc : s.threads t = .publish pos)
    (hbound : A.log.length < 2 ^ 64) :
    Inv c (s.after t (s.queue.setCell pos ⟨sizeT (pos + 1), (cellAt s.queue pos).data⟩) .idle
      s.returned) A := by
  have hplace := h.places t
  have hmine : (s.threads t).pushing = some pos := by rw [hpc]; rfl
  have howned := owned_of_pushing h hcap hmine
  rw [hpc] at hplace
  obtain ⟨hle, v, hv, hcell⟩ := hplace
  have hlt := (List.getElem?_eq_some_iff.mp hv).1
  have hsize : sizeT (pos + 1) = pos + 1 := sizeT_of_lt (by omega)
  refine inv_setCell h howned ?_ trivial ?_ ?_ ?_ ?_ ?_ ?_
  · change sizeT (pos + 1) ≤ _
    omega
  · rw [hpc]
    rintro p (hp | hp)
    · exact (Option.some.inj hp).symm
    · cases hp
  · exact fun p hp => by cases hp
  · exact fun p hp => by cases hp
  · intro v' _ hv'
    refine Or.inr ?_
    rw [hv] at hv'
    rw [hsize, hcell, Option.some.inj hv']
  · exact fun hpop => by rw [hpc] at hpop; cases hpop
  · exact returned_of_owed h fun b => by rw [hpc]; rfl

theorem inv_take (h : Inv c s A) (hcap : 2 ≤ c) (hpc : s.threads t = .take pending pos) :
    Inv c (s.after t (s.queue.setCell pos ⟨(cellAt s.queue pos).sequence, none⟩)
      (.reset pending pos (cellAt s.queue pos).data) s.returned) A := by
  have hplace := h.places t
  have hmine : (s.threads t).popping = some pos := by rw [hpc]; rfl
  have howned := owned_of_popping h hcap hmine
  rw [hpc] at hplace
  obtain ⟨hlt, v, hv, hcell⟩ := hplace
  refine inv_setCell h howned (h.sequences pos) ⟨hlt, ?_, ?_⟩ ?_ ?_ ?_ ?_ ?_ ?_
  · rw [hcell, hv]
  · rw [cellAt_setCell _ rfl, hcell]
  · rw [hpc]
    rintro p (hp | hp)
    · cases hp
    · exact (Option.some.inj hp).symm
  · exact fun p hp => by cases hp
  · exact fun p hp => by rw [hpc]; exact hp
  · exact fun v _ _ => by rw [hpc] at *; contradiction
  · exact fun _ => Or.inl rfl
  · exact returned_of_owed h fun b => by rw [hpc]; rfl

theorem inv_reset (h : Inv c s A) (hcap : 2 ≤ c) (hpc : s.threads t = .reset pending pos out) :
    Inv c (s.after t (s.queue.setCell pos ⟨(cellAt s.queue pos).sequence, none⟩)
      (.release pending pos out) s.returned) A := by
  have hplace := h.places t
  have hmine : (s.threads t).popping = some pos := by rw [hpc]; rfl
  have howned := owned_of_popping h hcap hmine
  rw [hpc] at hplace
  obtain ⟨hlt, hout, hseq⟩ := hplace
  refine inv_setCell h howned (h.sequences pos) ⟨hlt, hout, ?_⟩ ?_ ?_ ?_ ?_ ?_ ?_
  · rw [cellAt_setCell _ rfl, hseq]
  · rw [hpc]
    rintro p (hp | hp)
    · cases hp
    · exact (Option.some.inj hp).symm
  · exact fun p hp => by cases hp
  · exact fun p hp => by rw [hpc]; exact hp
  · exact fun v hpush _ => by rw [hpc] at hpush; cases hpush
  · exact fun _ => Or.inl rfl
  · exact returned_of_owed h fun b => by rw [hpc]; rfl

/-- The pop hands its cell to the push of the next lap and returns. -/
theorem inv_release (h : Inv c s A) (hcap : 2 ≤ c) (hpc : s.threads t = .release pending pos out)
    (hbound : A.log.length + c < 2 ^ 64) :
    Inv c (s.after t (s.queue.setCell pos ⟨sizeT (pos + s.queue.capacity), (cellAt s.queue pos).data⟩)
      (.resume pending) (s.record t)) A := by
  have hplace := h.places t
  have hmine : (s.threads t).popping = some pos := by rw [hpc]; rfl
  have howned := owned_of_popping h hcap hmine
  rw [hpc] at hplace
  obtain ⟨hlt, hout, hseq⟩ := hplace
  have hlog : A.taken.length ≤ A.log.length := by
    rw [length_log]
    exact Nat.le_add_right _ _
  have hsize : sizeT (pos + s.queue.capacity) = pos + c := by
    rw [h.capacity]
    exact sizeT_of_lt (by omega)
  have hidle : (Pc.resume pending).pushing = none ∧ (Pc.resume pending).popping = none := by
    cases pending <;> exact ⟨rfl, rfl⟩
  refine inv_setCell h howned ?_ ?_ ?_ ?_ ?_ ?_ ?_ ?_
  · change sizeT (pos + s.queue.capacity) ≤ _
    omega
  · cases pending <;> trivial
  · rw [hpc]
    rintro p (hp | hp)
    · cases hp
    · exact (Option.some.inj hp).symm
  · exact fun p hp => by rw [hidle.1] at hp; cases hp
  · exact fun p hp => by rw [hidle.2] at hp; cases hp
  · exact fun v hpush _ => by rw [hpc] at hpush; cases hpush
  · exact fun _ => Or.inr hsize
  · intro k
    have hnone : ∀ b, (Pc.resume pending).owed A b = [] := by
      cases pending <;> exact fun _ => rfl
    have hrecord : s.record t = Function.update s.returned (t, pending.isSome)
        (s.returned (t, pending.isSome) ++ out.toList) := by
      unfold State.record
      rw [hpc]
    rw [h.returned k, hrecord]
    by_cases hk : k.1 = t
    · rw [hk, after_self, hnone, hpc, List.append_nil]
      by_cases hb : pending.isSome = k.2
      · obtain rfl : k = (t, pending.isSome) := Prod.ext hk hb.symm
        simp only [Function.update_self, Pc.owed, hout, if_true]
      · have hne : k ≠ (t, pending.isSome) := fun heq => hb (congrArg Prod.snd heq).symm
        simp only [Function.update_of_ne hne, Pc.owed, if_neg hb, List.append_nil]
    · have hne : k ≠ (t, pending.isSome) := fun heq => hk (congrArg Prod.fst heq)
      rw [after_of_ne hk, Function.update_of_ne hne]

/-- An access that claims no position keeps the invariant. -/
theorem inv_access (h : Inv c s A) (hcap : 2 ≤ c) (hbound : A.log.length + c < 2 ^ 64)
    {o : CircularQueue α × Pc α} (hstep : accessStep s.queue spurious (s.threads t) = some o)
    (hevent : event s (.access t spurious) = none) :
    Inv c (s.after t o.1 o.2 (s.record t)) A := by
  have hplace := h.places t
  have hpos : A.taken.length ≤ A.log.length := by
    rw [length_log]
    exact Nat.le_add_right _ _
  cases hpc : s.threads t with
  | idle =>
      rw [hpc] at hstep
      cases hstep
  | loadEnqueue msg =>
      have hlook : (s.threads t).looking := by rw [hpc]; rfl
      rw [hpc] at hstep
      cases hstep
      exact inv_look h hlook rfl h.enqueuePos.le
  | checkEnqueue msg pos =>
      have hlook : (s.threads t).looking := by rw [hpc]; rfl
      rw [hpc] at hstep hplace
      have hle : pos ≤ A.log.length := hplace
      have hseq := h.sequences pos
      simp only [accessStep] at hstep
      split at hstep
      · next hdiff =>
          cases hstep
          exact inv_look h hlook rfl ⟨hle, fun _ => eq_of_intptrDiff (by omega) (by omega) hdiff⟩
      · split at hstep
        · cases hstep
          exact inv_look h hlook rfl trivial
        · cases hstep
          exact inv_look h hlook rfl trivial
  | claimEnqueue msg pos =>
      have hlook : (s.threads t).looking := by rw [hpc]; rfl
      rw [hpc] at hstep
      simp only [accessStep] at hstep
      split at hstep
      · next hcas =>
          rw [Bool.and_eq_true, Bool.not_eq_true', decide_eq_true_eq] at hcas
          obtain ⟨rfl, heq⟩ := hcas
          simp [event, hpc, heq] at hevent
      · cases hstep
        exact inv_look h hlook rfl h.enqueuePos.le
  | store msg pos =>
      rw [hpc] at hstep
      cases hstep
      rw [record_of_ne (by simp [hpc])]
      exact inv_store h hcap hpc
  | publish pos =>
      rw [hpc] at hstep
      cases hstep
      rw [record_of_ne (by simp [hpc])]
      exact inv_publish h hcap hpc (by omega)
  | loadDequeue pending =>
      have hlook : (s.threads t).looking := by rw [hpc]; rfl
      rw [hpc] at hstep
      cases hstep
      exact inv_look h hlook rfl h.dequeuePos.le
  | checkDequeue pending pos =>
      have hlook : (s.threads t).looking := by rw [hpc]; rfl
      rw [hpc] at hstep hplace
      have hle : pos ≤ A.taken.length := hplace
      have hseq := h.sequences pos
      have hsize : sizeT (pos + 1) = pos + 1 := sizeT_of_lt (by omega)
      simp only [accessStep, hsize] at hstep
      split at hstep
      · next hdiff =>
          cases hstep
          exact inv_look h hlook rfl ⟨hle, fun _ => eq_of_intptrDiff (by omega) (by omega) hdiff⟩
      · split at hstep
        · cases hstep
          cases pending with
          | none => exact inv_look h hlook rfl trivial
          | some msg => exact inv_look h hlook rfl trivial
        · cases hstep
          exact inv_look h hlook rfl trivial
  | claimDequeue pending pos =>
      have hlook : (s.threads t).looking := by rw [hpc]; rfl
      rw [hpc] at hstep
      simp only [accessStep] at hstep
      split at hstep
      · next hcas =>
          rw [Bool.and_eq_true, Bool.not_eq_true', decide_eq_true_eq] at hcas
          obtain ⟨rfl, heq⟩ := hcas
          simp [event, hpc, heq] at hevent
      · cases hstep
        exact inv_look h hlook rfl h.dequeuePos.le
  | take pending pos =>
      rw [hpc] at hstep
      cases hstep
      rw [record_of_ne (by simp [hpc])]
      exact inv_take h hcap hpc
  | reset pending pos out =>
      rw [hpc] at hstep
      cases hstep
      rw [record_of_ne (by simp [hpc])]
      exact inv_reset h hcap hpc
  | release pending pos out =>
      rw [hpc] at hstep
      cases hstep
      exact inv_release h hcap hpc hbound

end

end

end DzIpc.Common.QueueRaces
