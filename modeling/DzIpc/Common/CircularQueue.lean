import Mathlib.Algebra.Order.Ring.Int
import Mathlib.Data.Nat.ModEq
import Mathlib.Logic.Function.Basic

/-!
# `CircularQueue`, one call after another

The bounded queue between the receiving threads and the user (`circularqueue.h`): an array of
cells with sequence numbers, and two positions that only grow.  A cell whose number is a
position waits for the push of that position; a cell whose number is one more holds what that
push stored.  With a single cell the two cases meet: the cell that holds the element of
position `n` has the number of a cell that waits for position `n + 1`.

The calls run on fuel, since their loops have no bound of their own; a call that never comes
back runs out of it whatever its amount.

* `Represents` ties the cells to the list of the elements that are queued.
* `tryEnqueue_spec`, `tryDequeue_spec` and `pushOwned_spec` are the specs of the operations.
* `call_spec` and `runCalls_spec` are the step and the run.
* `behavesLikeFifo_iff` says that the queue is a drop-oldest FIFO from capacity 2 on, and
  `not_behavesLikeFifo_one` that it is none at capacity 1.
-/

namespace DzIpc.Common

/-! ## The queue -/

/-- The value of a `size_t`. -/
def sizeT (n : ℕ) : ℕ := n % 2 ^ 64

/-- `static_cast<intptr_t>(seq) - static_cast<intptr_t>(pos)`. -/
def intptrDiff (seq pos : ℕ) : ℤ := Int.bmod ((seq : ℤ) - pos) (2 ^ 64)

/-- `Cell`; a pointer that was moved from or reset is `none`. -/
structure Cell (α : Type) where
  sequence : ℕ
  data : Option α

/-- `CircularQueue`. -/
structure CircularQueue (α : Type) where
  capacity : ℕ
  cells : ℕ → Cell α
  enqueuePos : ℕ
  dequeuePos : ℕ

/-- What a call answers. -/
inductive Answer (α : Type) where
  | pushed
  | got (out : Option α)
  | empty
  deriving DecidableEq

/-- A call of the queue; `forever` is a `pop` without a time-out. -/
inductive Call (α : Type) where
  | push (msg : α)
  | tryPop
  | pop (forever : Bool)
  deriving DecidableEq

namespace CircularQueue

variable {α : Type}

/-- `sizeof(Cell)`: a word and a shared pointer. -/
def cellSize : ℕ := 24

/-- The constructor; `new Cell[capacity_]` throws where the array is larger than any object. -/
def new (capacity : ℕ) : Option (CircularQueue α) :=
  let capacity := if capacity = 0 then 1 else capacity
  if capacity * cellSize < 2 ^ 63 then
    some { capacity := capacity, cells := fun i => ⟨i, none⟩, enqueuePos := 0, dequeuePos := 0 }
  else none

/-- Store a cell. -/
def setCell (q : CircularQueue α) (pos : ℕ) (c : Cell α) : CircularQueue α :=
  { q with cells := Function.update q.cells (pos % q.capacity) c }

/-- `try_enqueue`. -/
def tryEnqueue (msg : α) : ℕ → CircularQueue α → Option (Bool × CircularQueue α)
  | 0, _ => none
  | fuel + 1, q =>
      let pos := q.enqueuePos
      let cell := q.cells (pos % q.capacity)
      if intptrDiff cell.sequence pos = 0 then
        some (true, { q.setCell pos ⟨sizeT (pos + 1), some msg⟩ with enqueuePos := sizeT (pos + 1) })
      else if intptrDiff cell.sequence pos < 0 then some (false, q)
      -- the position is loaded again
      else tryEnqueue msg fuel q

/-- `try_dequeue`. -/
def tryDequeue : ℕ → CircularQueue α → Option (Answer α × CircularQueue α)
  | 0, _ => none
  | fuel + 1, q =>
      let pos := q.dequeuePos
      let cell := q.cells (pos % q.capacity)
      if intptrDiff cell.sequence (sizeT (pos + 1)) = 0 then
        some (.got cell.data,
          { q.setCell pos ⟨sizeT (pos + q.capacity), none⟩ with dequeuePos := sizeT (pos + 1) })
      else if intptrDiff cell.sequence (sizeT (pos + 1)) < 0 then some (.empty, q)
      else tryDequeue fuel q

/-- `push_owned`: while there is no room, an element is dropped. -/
def pushOwned (msg : α) : ℕ → CircularQueue α → Option (CircularQueue α)
  | 0, _ => none
  | fuel + 1, q => do
      let (done, q) ← tryEnqueue msg (fuel + 1) q
      if done then return q
      else
        let (_, q) ← tryDequeue (fuel + 1) q
        pushOwned msg fuel q

/-- `empty`. -/
def isEmpty (q : CircularQueue α) : Bool := q.enqueuePos = q.dequeuePos

/-- `pop`, with nobody else at the queue: a wait without a time-out goes on for ever, one with
a time-out ends with it. -/
def pop (forever : Bool) : ℕ → CircularQueue α → Option (Answer α × CircularQueue α)
  | 0, _ => none
  | fuel + 1, q => do
      match ← tryDequeue (fuel + 1) q with
      | (.empty, q) =>
          if q.isEmpty && !forever then return (.empty, q) else pop forever fuel q
      | res => return res

/-- `size`. -/
def size (q : CircularQueue α) : ℕ :=
  let used := sizeT (q.enqueuePos + 2 ^ 64 - q.dequeuePos)
  if used > q.capacity then q.capacity else used

/-- One call. -/
def call (fuel : ℕ) (q : CircularQueue α) : Call α → Option (Answer α × CircularQueue α)
  | .push msg => (pushOwned msg fuel q).map fun q => (.pushed, q)
  | .tryPop => tryDequeue fuel q
  | .pop forever => pop forever fuel q

/-- The answers of a sequence of calls. -/
def runCalls (fuel : ℕ) : CircularQueue α → List (Call α) → Option (List (Answer α) × CircularQueue α)
  | q, [] => some ([], q)
  | q, c :: calls => do
      let (answer, q) ← q.call fuel c
      let (answers, q) ← runCalls fuel q calls
      return (answer :: answers, q)

end CircularQueue

/-! ## The purpose: a bounded list -/

namespace Fifo

variable {α : Type}

/-- Append; when full, drop the oldest element. -/
def push (capacity : ℕ) (xs : List α) (msg : α) : List α :=
  if xs.length < capacity then xs ++ [msg] else xs.tail ++ [msg]

/-- The oldest element. -/
def take : List α → Answer α × List α
  | [] => (.empty, [])
  | x :: xs => (.got (some x), xs)

/-- One call; a `pop` without a time-out waits for ever at an empty list. -/
def call (capacity : ℕ) (xs : List α) : Call α → Option (Answer α × List α)
  | .push msg => some (.pushed, push capacity xs msg)
  | .tryPop | .pop false => some (take xs)
  | .pop true => if xs = [] then none else some (take xs)

/-- The answers of a sequence of calls. -/
def runCalls (capacity : ℕ) : List α → List (Call α) → Option (List (Answer α) × List α)
  | xs, [] => some ([], xs)
  | xs, c :: calls => do
      let (answer, xs) ← call capacity xs c
      let (answers, xs) ← runCalls capacity xs calls
      return (answer :: answers, xs)

end Fifo

/-! ## Cells and positions -/

namespace CircularQueue

variable {α : Type} {q : CircularQueue α} {xs : List α}

/-- The queue holds the elements of the list: the cells from the dequeue position on hold
them in order, and the others wait for the positions behind them. -/
structure Represents (q : CircularQueue α) (xs : List α) : Prop where
  fits : xs.length ≤ q.capacity
  enqueue : q.enqueuePos = q.dequeuePos + xs.length
  full : ∀ i x, xs[i]? = some x →
    q.cells ((q.dequeuePos + i) % q.capacity) = ⟨q.dequeuePos + i + 1, some x⟩
  free : ∀ i, xs.length ≤ i → i < q.capacity →
    (q.cells ((q.dequeuePos + i) % q.capacity)).sequence = q.dequeuePos + i

/-- No position comes near the signed range's end. -/
def Early (q : CircularQueue α) : Prop := q.enqueuePos + q.capacity < 2 ^ 63

theorem intptrDiff_eq {seq pos : ℕ} (hseq : seq < 2 ^ 63) (hpos : pos < 2 ^ 63) :
    intptrDiff seq pos = (seq : ℤ) - pos := by
  unfold intptrDiff
  rw [Int.bmod_eq_of_le] <;> omega

theorem sizeT_of_lt {n : ℕ} (hn : n < 2 ^ 63) : sizeT n = n :=
  Nat.mod_eq_of_lt (by omega)

/-- Positions less than a lap apart are in different cells. -/
theorem index_ne {capacity start i j : ℕ} (hi : i < capacity) (hj : j < capacity) (hij : i ≠ j) :
    (start + i) % capacity ≠ (start + j) % capacity := by
  intro h
  have hmod : i % capacity = j % capacity := Nat.ModEq.add_left_cancel' start h
  rw [Nat.mod_eq_of_lt hi, Nat.mod_eq_of_lt hj] at hmod
  exact hij hmod

theorem setCell_self (q : CircularQueue α) (pos : ℕ) (c : Cell α) :
    (q.setCell pos c).cells (pos % q.capacity) = c := by
  simp [setCell]

theorem setCell_of_ne (q : CircularQueue α) {pos pos' : ℕ} (c : Cell α)
    (hne : pos' % q.capacity ≠ pos % q.capacity) :
    (q.setCell pos c).cells (pos' % q.capacity) = q.cells (pos' % q.capacity) := by
  simp [setCell, hne]

/-! ## The operations -/

/-- With room, an element is stored behind the others. -/
theorem tryEnqueue_spec (h : Represents q xs) (hearly : q.Early) (hroom : xs.length < q.capacity)
    (msg : α) (fuel : ℕ) :
    ∃ q', q.tryEnqueue msg (fuel + 1) = some (true, q') ∧ Represents q' (xs ++ [msg]) ∧
      q'.capacity = q.capacity ∧ q'.enqueuePos = q.enqueuePos + 1 := by
  have hpos := h.enqueue
  have hseq := h.free xs.length (Nat.le_refl _) hroom
  rw [← hpos] at hseq
  have hdiff : intptrDiff (q.cells (q.enqueuePos % q.capacity)).sequence q.enqueuePos = 0 := by
    unfold Early at hearly
    rw [hseq, intptrDiff_eq (by omega) (by omega)]
    omega
  have hnext : sizeT (q.enqueuePos + 1) = q.enqueuePos + 1 := by
    unfold Early at hearly
    exact sizeT_of_lt (by omega)
  refine ⟨_, if_pos hdiff, ?_, rfl, hnext⟩
  rw [hnext]
  constructor
  case fits =>
    rw [List.length_append]
    exact hroom
  case enqueue =>
    change q.enqueuePos + 1 = q.dequeuePos + (xs ++ [msg]).length
    rw [hpos, List.length_append, List.length_singleton, Nat.add_assoc]
  case full =>
    intro i x hx
    by_cases hi : i < xs.length
    · rw [List.getElem?_append_left hi] at hx
      have hne : (q.dequeuePos + i) % q.capacity ≠ q.enqueuePos % q.capacity := by
        rw [hpos]
        exact index_ne (by omega) hroom (by omega)
      exact (q.setCell_of_ne _ hne).trans (h.full i x hx)
    · rw [List.getElem?_append_right (by omega)] at hx
      obtain ⟨hlen, hval⟩ := List.getElem?_eq_some_iff.mp hx
      rw [List.length_singleton] at hlen
      obtain rfl : i = xs.length := by omega
      simp only [List.getElem_singleton] at hval
      subst hval
      change (q.setCell q.enqueuePos _).cells ((q.dequeuePos + xs.length) % q.capacity)
        = ⟨q.dequeuePos + xs.length + 1, some msg⟩
      rw [← hpos, setCell_self]
  case free =>
    intro i hlen hi
    rw [List.length_append, List.length_singleton] at hlen
    have hne : (q.dequeuePos + i) % q.capacity ≠ q.enqueuePos % q.capacity := by
      rw [hpos]
      exact index_ne hi hroom (by omega)
    exact (congrArg Cell.sequence (q.setCell_of_ne _ hne)).trans (h.free i (by omega) hi)

/-- Without room the cell at the enqueue position still holds the oldest element; from
capacity 2 on its number tells so. -/
theorem tryEnqueue_full (h : Represents q xs) (hearly : q.Early) (hcap : 2 ≤ q.capacity)
    (hfull : xs.length = q.capacity) (msg : α) (fuel : ℕ) :
    q.tryEnqueue msg (fuel + 1) = some (false, q) := by
  have hpos := h.enqueue
  obtain ⟨x, hx⟩ : ∃ x, xs[0]? = some x := ⟨_, List.getElem?_eq_getElem (by omega)⟩
  have hcell := h.full 0 x hx
  have hindex : (q.dequeuePos + 0) % q.capacity = q.enqueuePos % q.capacity := by
    rw [hpos, hfull, Nat.add_mod_right, Nat.add_zero]
  rw [hindex] at hcell
  have hdiff : intptrDiff (q.cells (q.enqueuePos % q.capacity)).sequence q.enqueuePos
      = 1 - (q.capacity : ℤ) := by
    unfold Early at hearly
    rw [hcell]
    dsimp only
    rw [intptrDiff_eq (by omega) (by omega)]
    omega
  unfold tryEnqueue
  dsimp only
  rw [hdiff, if_neg (by omega), if_pos (by omega)]

theorem tryDequeue_empty (h : Represents q ([] : List α)) (hearly : q.Early)
    (hcap : 0 < q.capacity) (fuel : ℕ) : q.tryDequeue (fuel + 1) = some (.empty, q) := by
  have hpos := h.enqueue
  have hseq := h.free 0 (Nat.le_refl _) hcap
  unfold Early at hearly
  rw [List.length_nil] at hpos
  rw [Nat.add_zero] at hseq
  have hdiff : intptrDiff (q.cells (q.dequeuePos % q.capacity)).sequence (sizeT (q.dequeuePos + 1))
      = -1 := by
    rw [hseq, sizeT_of_lt (by omega), intptrDiff_eq (by omega) (by omega)]
    omega
  unfold tryDequeue
  dsimp only
  rw [hdiff, if_neg (by decide), if_pos (by decide)]

/-- The oldest element is taken out. -/
theorem tryDequeue_spec {x : α} (h : Represents q (x :: xs)) (hearly : q.Early) (fuel : ℕ) :
    ∃ q', q.tryDequeue (fuel + 1) = some (.got (some x), q') ∧ Represents q' xs ∧
      q'.capacity = q.capacity ∧ q'.enqueuePos = q.enqueuePos := by
  have hpos := h.enqueue
  have hfits := h.fits
  have hcell := h.full 0 x rfl
  unfold Early at hearly
  rw [List.length_cons] at hpos hfits
  rw [Nat.add_zero] at hcell
  have hnext : sizeT (q.dequeuePos + 1) = q.dequeuePos + 1 := sizeT_of_lt (by omega)
  have hlap : sizeT (q.dequeuePos + q.capacity) = q.dequeuePos + q.capacity :=
    sizeT_of_lt (by omega)
  have hdiff : intptrDiff (q.cells (q.dequeuePos % q.capacity)).sequence
      (sizeT (q.dequeuePos + 1)) = 0 := by
    rw [hcell, hnext]
    dsimp only
    rw [intptrDiff_eq (by omega) (by omega)]
    omega
  have hstep : q.tryDequeue (fuel + 1) = some (.got (q.cells (q.dequeuePos % q.capacity)).data,
      { q.setCell q.dequeuePos ⟨sizeT (q.dequeuePos + q.capacity), none⟩ with
        dequeuePos := sizeT (q.dequeuePos + 1) }) := if_pos hdiff
  rw [hcell] at hstep
  refine ⟨_, hstep, ?_, rfl, rfl⟩
  rw [hnext, hlap]
  constructor
  case fits => exact Nat.le_of_succ_le hfits
  case enqueue =>
    change q.enqueuePos = q.dequeuePos + 1 + xs.length
    omega
  case full =>
    intro i y hy
    have hlen : i < xs.length := (List.getElem?_eq_some_iff.mp hy).1
    have hold := h.full (i + 1) y hy
    have hne : (q.dequeuePos + (i + 1)) % q.capacity ≠ (q.dequeuePos + 0) % q.capacity :=
      index_ne (by omega) (by omega) (by omega)
    change (q.setCell q.dequeuePos _).cells ((q.dequeuePos + 1 + i) % q.capacity)
      = ⟨q.dequeuePos + 1 + i + 1, some y⟩
    rw [Nat.add_assoc q.dequeuePos 1 i, Nat.add_comm 1 i]
    exact (q.setCell_of_ne _ hne).trans hold
  case free =>
    intro i hlen (hi : i < q.capacity)
    change ((q.setCell q.dequeuePos _).cells ((q.dequeuePos + 1 + i) % q.capacity)).sequence
      = q.dequeuePos + 1 + i
    by_cases hlast : i + 1 = q.capacity
    · have hindex : (q.dequeuePos + 1 + i) % q.capacity = q.dequeuePos % q.capacity := by
        rw [Nat.add_assoc, Nat.add_comm 1 i, hlast, Nat.add_mod_right]
      rw [hindex, setCell_self]
      dsimp only
      omega
    · have hold := h.free (i + 1) (by rw [List.length_cons]; omega) (by omega)
      have hne : (q.dequeuePos + (i + 1)) % q.capacity ≠ (q.dequeuePos + 0) % q.capacity :=
        index_ne (by omega) (by omega) (by omega)
      rw [Nat.add_assoc q.dequeuePos 1 i, Nat.add_comm 1 i]
      exact (congrArg Cell.sequence (q.setCell_of_ne _ hne)).trans hold

/-- A push drops the oldest element if it must. -/
theorem pushOwned_spec (h : Represents q xs) (hearly : q.Early) (hcap : 2 ≤ q.capacity) (msg : α)
    (fuel : ℕ) :
    ∃ q', q.pushOwned msg (fuel + 2) = some q' ∧
      Represents q' (Fifo.push q.capacity xs msg) ∧ q'.capacity = q.capacity ∧
        q'.enqueuePos = q.enqueuePos + 1 := by
  unfold pushOwned
  by_cases hroom : xs.length < q.capacity
  · obtain ⟨q', hstep, hrep, hcapacity, hpos⟩ := tryEnqueue_spec h hearly hroom msg (fuel + 1)
    refine ⟨q', ?_, ?_, hcapacity, hpos⟩
    · rw [hstep]
      rfl
    · rwa [Fifo.push, if_pos hroom]
  · have hfull : xs.length = q.capacity := Nat.le_antisymm h.fits (Nat.not_lt.mp hroom)
    obtain ⟨x, rest, rfl⟩ : ∃ x rest, xs = x :: rest :=
      List.exists_cons_of_length_pos (by omega)
    rw [List.length_cons] at hfull
    obtain ⟨q₁, hpop, hrep₁, hcapacity₁, hpos₁⟩ := tryDequeue_spec h hearly (fuel + 1)
    have hearly₁ : q₁.Early := by
      unfold Early at hearly ⊢
      rw [hcapacity₁, hpos₁]
      exact hearly
    obtain ⟨q₂, hstep, hrep₂, hcapacity₂, hpos₂⟩ :=
      tryEnqueue_spec hrep₁ hearly₁ (by omega) msg fuel
    refine ⟨q₂, ?_, ?_, hcapacity₂.trans hcapacity₁, hpos₂.trans (by rw [hpos₁])⟩
    · rw [tryEnqueue_full h hearly hcap hfull msg (fuel + 1)]
      simp only [bind, Option.bind, Bool.false_eq_true, if_false, hpop]
      unfold pushOwned
      rw [hstep]
      rfl
    · rwa [Fifo.push, if_neg hroom]

/-- The step: a call answers what the list answers, and the queue goes on as the list. -/
theorem call_spec (h : Represents q xs) (hearly : q.Early) (hcap : 2 ≤ q.capacity) {c : Call α}
    {answer : Answer α} {xs' : List α} (hcall : Fifo.call q.capacity xs c = some (answer, xs'))
    (fuel : ℕ) :
    ∃ q', q.call (fuel + 2) c = some (answer, q') ∧ Represents q' xs' ∧
      q'.capacity = q.capacity ∧ q'.enqueuePos ≤ q.enqueuePos + 1 := by
  have htake : ∀ {answer xs'}, Fifo.take xs = (answer, xs') →
      ∃ q', q.tryDequeue (fuel + 2) = some (answer, q') ∧ Represents q' xs' ∧
        q'.capacity = q.capacity ∧ q'.enqueuePos ≤ q.enqueuePos + 1 := by
    intro answer xs' htake
    cases xs with
    | nil =>
        cases htake
        exact ⟨q, tryDequeue_empty h hearly (by omega) _, h, rfl, Nat.le_succ _⟩
    | cons x rest =>
        cases htake
        obtain ⟨q', hstep, hrep, hcapacity, hpos⟩ := tryDequeue_spec h hearly (fuel + 1)
        exact ⟨q', hstep, hrep, hcapacity, by omega⟩
  cases c with
  | push msg =>
      cases hcall
      obtain ⟨q', hstep, hrep, hcapacity, hpos⟩ := pushOwned_spec h hearly hcap msg fuel
      exact ⟨q', by rw [CircularQueue.call, hstep]; rfl, hrep, hcapacity, Nat.le_of_eq hpos⟩
  | tryPop => exact htake (Option.some.inj hcall)
  | pop forever =>
      have htaken : Fifo.take xs = (answer, xs') := by
        cases forever with
        | false => exact Option.some.inj hcall
        | true =>
            rw [Fifo.call] at hcall
            split at hcall
            · cases hcall
            · exact Option.some.inj hcall
      obtain ⟨q', hstep, hrep, hcapacity, hpos⟩ := htake htaken
      refine ⟨q', ?_, hrep, hcapacity, hpos⟩
      rw [CircularQueue.call, pop]
      simp only [bind, Option.bind, hstep]
      cases xs with
      | cons x rest =>
          cases htaken
          rfl
      | nil =>
          cases htaken
          cases forever with
          | true => cases hcall
          | false =>
              have hempty : q'.isEmpty = true := by
                have henqueue := hrep.enqueue
                simpa [isEmpty] using henqueue
              simp [hempty]

/-- The run. -/
theorem runCalls_spec (calls : List (Call α)) (fuel : ℕ) :
    ∀ {q : CircularQueue α} {xs xs' : List α} {answers : List (Answer α)}, Represents q xs →
      q.enqueuePos + calls.length + q.capacity < 2 ^ 63 → 2 ≤ q.capacity →
      Fifo.runCalls q.capacity xs calls = some (answers, xs') →
      ∃ q', q.runCalls (fuel + 2) calls = some (answers, q') ∧ Represents q' xs' ∧
        q'.Early := by
  induction calls with
  | nil =>
      intro q xs xs' answers h hearly _ hrun
      cases hrun
      exact ⟨q, rfl, h, by unfold Early; simpa using hearly⟩
  | cons c calls ih =>
      intro q xs xs' answers h hearly hcap hrun
      rw [List.length_cons] at hearly
      cases hcall : Fifo.call q.capacity xs c with
      | none =>
          rw [Fifo.runCalls, hcall] at hrun
          cases hrun
      | some res =>
          obtain ⟨answer, xs₁⟩ := res
          obtain ⟨q₁, hstep, hrep₁, hcapacity, hpos⟩ :=
            call_spec h (by unfold Early; omega) hcap hcall fuel
          rw [Fifo.runCalls, hcall] at hrun
          cases hrest : Fifo.runCalls q.capacity xs₁ calls with
          | none =>
              simp only [bind, Option.bind, hrest] at hrun
              cases hrun
          | some res =>
              obtain ⟨rest, xs₂⟩ := res
              simp only [bind, Option.bind, hrest] at hrun
              cases hrun
              obtain ⟨q', hrun', hrep', hearly'⟩ :=
                ih hrep₁ (by omega) (by omega) (by rw [hcapacity]; exact hrest)
              refine ⟨q', ?_, hrep', hearly'⟩
              rw [CircularQueue.runCalls]
              simp only [bind, Option.bind, hstep, hrun']
              rfl

theorem size_eq (h : Represents q xs) (hearly : q.Early) : q.size = xs.length := by
  have hpos := h.enqueue
  have hfits := h.fits
  unfold Early at hearly
  unfold size sizeT
  dsimp only
  rw [hpos, show q.dequeuePos + xs.length + 2 ^ 64 - q.dequeuePos = xs.length + 2 ^ 64 by omega,
    Nat.add_mod_right, Nat.mod_eq_of_lt (by omega), if_neg (by omega)]

/-- The constructed queue is empty. -/
theorem represents_new {capacity : ℕ} {q : CircularQueue α} (hnew : new capacity = some q) :
    Represents q [] ∧ q.enqueuePos = 0 ∧ q.capacity = (if capacity = 0 then 1 else capacity) ∧
      q.capacity < 2 ^ 62 := by
  unfold new at hnew
  dsimp only at hnew
  generalize (if capacity = 0 then 1 else capacity) = cap at hnew ⊢
  split at hnew
  case isTrue hroom =>
    cases hnew
    refine ⟨?_, rfl, rfl, by unfold cellSize at hroom; dsimp only; omega⟩
    constructor
    case fits => exact Nat.zero_le _
    case enqueue => rfl
    case full => exact fun i x hx => by simp at hx
    case free =>
      intro i _ hi
      change (0 + i) % cap = 0 + i
      rw [Nat.zero_add]
      exact Nat.mod_eq_of_lt hi
  case isFalse => cases hnew

/-! ## The result -/

/-- From the constructed queue on, every sequence of calls comes back with the answers of the
bounded list, and `size()` is the length of the list; as long as no position reaches the end
of the signed range, where the differences of the sequence numbers overflow. -/
def BehavesLikeFifo (α : Type) (capacity : ℕ) : Prop :=
  ∀ (q : CircularQueue α) (calls : List (Call α)) (answers : List (Answer α)) (xs : List α),
    new capacity = some q → calls.length + q.capacity < 2 ^ 63 →
    Fifo.runCalls q.capacity [] calls = some (answers, xs) →
    ∃ fuel q', q.runCalls fuel calls = some (answers, q') ∧ q'.size = xs.length

theorem pushOwned_of_tryEnqueue {q' : CircularQueue α} {msg : α} {fuel : ℕ}
    (hstep : q.tryEnqueue msg (fuel + 1) = some (true, q')) :
    q.pushOwned msg (fuel + 1) = some q' := by
  rw [pushOwned, hstep]
  rfl

/-- With one cell, every push finds the cell waiting, whether or not it holds an element. -/
theorem pushOwned_one (msg : α) (fuel : ℕ) {n : ℕ} (hcap : q.capacity = 1)
    (hpos : q.enqueuePos = n) (hseq : (q.cells 0).sequence = n) (hn : n + 1 < 2 ^ 63) :
    ∃ q', q.pushOwned msg (fuel + 1) = some q' ∧ q'.capacity = 1 ∧ q'.enqueuePos = n + 1 ∧
      (q'.cells 0).sequence = n + 1 ∧ q'.dequeuePos = q.dequeuePos := by
  have hindex : q.enqueuePos % q.capacity = 0 := by
    rw [hcap, Nat.mod_one]
  have hdiff : intptrDiff (q.cells (q.enqueuePos % q.capacity)).sequence q.enqueuePos = 0 := by
    rw [hindex, hseq, hpos, intptrDiff_eq (by omega) (by omega), Int.sub_self]
  have hnext : sizeT (q.enqueuePos + 1) = n + 1 := by
    rw [hpos]
    exact sizeT_of_lt hn
  have hstep : q.tryEnqueue msg (fuel + 1) = some (true, { q.setCell q.enqueuePos
      ⟨sizeT (q.enqueuePos + 1), some msg⟩ with enqueuePos := sizeT (q.enqueuePos + 1) }) :=
    if_pos hdiff
  refine ⟨_, pushOwned_of_tryEnqueue hstep, hcap, hnext, ?_, rfl⟩
  have hcell := q.setCell_self q.enqueuePos ⟨sizeT (q.enqueuePos + 1), some msg⟩
  rw [hindex] at hcell
  exact (congrArg Cell.sequence hcell).trans hnext

/-- A cell whose number is ahead of what the pop waits for is looked at for ever. -/
theorem tryDequeue_ahead
    (hdiff : 0 < intptrDiff (q.cells (q.dequeuePos % q.capacity)).sequence
      (sizeT (q.dequeuePos + 1))) (fuel : ℕ) : q.tryDequeue fuel = none := by
  induction fuel with
  | zero => rfl
  | succ fuel ih =>
      unfold tryDequeue
      dsimp only
      rw [if_neg (by omega), if_neg (by omega)]
      exact ih

/-- With one cell, the second push overwrites the element of the first, and leaves a number
that no pop waits for. -/
theorem runCalls_one (a : α) (hcap : q.capacity = 1) (henqueue : q.enqueuePos = 0)
    (hdequeue : q.dequeuePos = 0) (hseq : (q.cells 0).sequence = 0) (fuel : ℕ) :
    q.runCalls fuel [.push a, .push a, .tryPop] = none := by
  cases fuel with
  | zero => rfl
  | succ fuel =>
      obtain ⟨q₁, hpush₁, hcap₁, hpos₁, hseq₁, hdeq₁⟩ :=
        pushOwned_one a fuel hcap henqueue hseq (by decide)
      obtain ⟨q₂, hpush₂, hcap₂, hpos₂, hseq₂, hdeq₂⟩ :=
        pushOwned_one a fuel hcap₁ hpos₁ hseq₁ (by decide)
      have hzero : q₂.dequeuePos = 0 := hdeq₂.trans (hdeq₁.trans hdequeue)
      have hpop : q₂.tryDequeue (fuel + 1) = none := by
        apply tryDequeue_ahead
        rw [hcap₂, Nat.mod_one, hseq₂, hzero]
        decide
      rw [runCalls, call, hpush₁]
      simp only [bind, Option.bind, Option.map_some]
      rw [runCalls, call, hpush₂]
      simp only [bind, Option.bind, Option.map_some]
      rw [runCalls, call, hpop]
      rfl

/-- One element is too few. -/
theorem not_behavesLikeFifo [Nonempty α] {capacity : ℕ} (hcap : ¬ 2 ≤ capacity) :
    ¬ BehavesLikeFifo α capacity := by
  intro hfifo
  obtain ⟨a⟩ := ‹Nonempty α›
  have hone : (if capacity = 0 then 1 else capacity) = 1 := by
    split <;> omega
  have hnew : new capacity = some (⟨1, fun i => ⟨i, none⟩, 0, 0⟩ : CircularQueue α) := by
    rw [new, hone]
    rfl
  obtain ⟨fuel, q', hrun, -⟩ := hfifo _ [.push a, .push a, .tryPop] _ _ hnew
    (show 3 + 1 < 2 ^ 63 by decide) rfl
  rw [runCalls_one a rfl rfl rfl rfl fuel] at hrun
  cases hrun

/-- **The queue is a drop-oldest FIFO exactly from capacity 2 on.** -/
theorem behavesLikeFifo_iff {α : Type} [Nonempty α] (capacity : ℕ) :
    BehavesLikeFifo α capacity ↔ 2 ≤ capacity := by
  constructor
  · intro hfifo
    by_contra hcap
    exact not_behavesLikeFifo hcap hfifo
  · intro hcap q calls answers xs hnew hshort hrun
    obtain ⟨hrep, hpos, hcapacity, _⟩ := represents_new hnew
    rw [if_neg (by omega)] at hcapacity
    obtain ⟨q', hrun', hrep', hearly'⟩ :=
      runCalls_spec calls 0 hrep (by omega) (by omega) hrun
    exact ⟨2, q', hrun', size_eq hrep' hearly'⟩

/-- A queue of two elements is one. -/
theorem behavesLikeFifo_two : BehavesLikeFifo ℕ 2 := (behavesLikeFifo_iff 2).mpr (by decide)

/-- A queue of one element is none: the pop after two pushes never comes back. -/
theorem not_behavesLikeFifo_one : ¬ BehavesLikeFifo ℕ 1 := not_behavesLikeFifo (by decide)

end CircularQueue

end DzIpc.Common
