import DzIpc.Library.BoundedFifo
import DzIpc.Library.Refinement
import DzIpc.Library.Threads
import DzIpc.LibIpc.MultiRing
import DzIpc.LibIpc.UnicastRing
import Mathlib.Algebra.Group.Nat.Defs

/-!
# The unicast ring of many producers and consumers

`push` and `pop` of the multi-producer, multi-consumer unicast policy of `prod_cons.h`, for any
number of threads in any order.  Every load, every store, every exchange and the copy of every byte
is a step of its own; the weak compare-and-swaps may fail for no reason.

A producer claims a position in `ct_`, writes the slot and marks it with `~cur_ct`; whoever finds
the mark of the position that `wt_` stands at clears it and advances `wt_`, be it the producer,
another one, or a consumer that finds the ring empty.  A consumer copies the slot at `rd_` first and
claims it afterwards.

* `Inv` ties the ring and the threads to the bounded FIFO queue of 255 values.
* `committed_inj` is the fact about marks, and `slot_inj` the one about positions: within a lap they
  have different slots.
* `inv_look`, `inv_setSlot`, `inv_storeWt`, `inv_claim` and `inv_take` say what each kind of access
  does to it.
-/

namespace DzIpc.LibIpc.UnicastMany

open BoundedFifo Cells Threads
open MultiRing (committed)
open UnicastRing (Data)

variable {T : Type} {n : ℕ}

/-! ## The ring and the threads -/

/-- `index_of`. -/
abbrev indexOf (c : ℕ) : Fin 256 := MultiRing.indexOf c

/-- `u2_t` arithmetic. -/
def u2 (c : ℕ) : ℕ := c % 2 ^ 32

/-- `elem_t`. -/
structure Elem (n : ℕ) where
  data : Data n
  /-- `f_ct_`. -/
  flag : ℕ

/-- The counters of the policy and its slots. -/
structure Ring (n : ℕ) where
  rd : ℕ
  wt : ℕ
  ct : ℕ
  elems : Fin 256 → Elem n

/-- Who advances the write index: a producer after its `push`, or a consumer. -/
inductive Helper
  | producer
  | consumer
  deriving DecidableEq

/-- Where a thread is in `push` or in `pop`. -/
inductive Pc (n : ℕ) where
  | idle
  /-- About to load `ct_`. -/
  | loadCt (v : Data n)
  /-- About to load `rd_` and compare. -/
  | loadRd (v : Data n) (cur : ℕ)
  /-- About to advance `ct_`. -/
  | casCt (v : Data n) (cur : ℕ)
  /-- Some bytes are still to be written. -/
  | write (v : Data n) (cur : ℕ) (left : List (Fin n))
  /-- About to mark the slot. -/
  | mark (cur : ℕ)
  /-- About to load the mark of a slot that may be next. -/
  | loadMark (cur : ℕ)
  /-- About to load `wt_` and compare. -/
  | loadWt (cur : ℕ) (cac : ℕ)
  /-- About to clear the mark. -/
  | casMark (who : Helper) (cur : ℕ) (cac : ℕ)
  /-- About to store `wt_`. -/
  | storeWt (who : Helper) (cur : ℕ)
  /-- In `pop`, about to load `rd_`. -/
  | popRd
  /-- About to load `wt_` and compare. -/
  | popWt (curRd : ℕ)
  /-- About to load the mark of the slot at `wt_`. -/
  | popMark (curWt : ℕ)
  /-- Some bytes are still to be read. -/
  | copy (curRd : ℕ) (left : List (Fin n)) (out : Data n)
  /-- About to advance `rd_`. -/
  | casRd (curRd : ℕ) (out : Data n)
  deriving DecidableEq

/-- The ring, the threads, and what the calls of `pop` gave to each of them, the oldest first. -/
structure State (T : Type) (n : ℕ) where
  ring : Ring n
  threads : T → Pc n
  popped : T → List (Data n)

inductive Action (T : Type) (n : ℕ) where
  | push (t : T) (v : Data n)
  | pop (t : T)
  /-- The next access of a thread; these are the bytes written or read next, and a weak
  compare-and-swap may be `spurious`. -/
  | access (t : T) (cells : List (Fin n)) (spurious : Bool)

section

variable (r : Ring n)

/-- The slot of a position. -/
def slotAt (p : ℕ) : Elem n := r.elems (indexOf p)

/-- Write a slot. -/
def setSlot (p : ℕ) (e : Elem n) : Ring n :=
  { r with elems := Function.update r.elems (indexOf p) e }

/-- The next access of a thread. -/
def accessStep (cells : List (Fin n)) (spurious : Bool) : Pc n → Option (Ring n × Pc n)
  | .idle => none
  | .loadCt v => some (r, .loadRd v r.ct)
  | .loadRd v cur =>
      -- full
      if indexOf (u2 (cur + 1)) = indexOf r.rd then some (r, .idle) else some (r, .casCt v cur)
  | .casCt v cur =>
      if !spurious && r.ct = cur then
        some ({ r with ct := u2 (cur + 1) }, .write v cur (List.finRange n))
      else some (r, .loadCt v)
  | .write v cur left =>
      if left = [] then some (r, .mark cur)
      else
        some (setSlot r cur ⟨copyCells cells v (slotAt r cur).data, (slotAt r cur).flag⟩,
          .write v cur (left.filter fun c => !cells.contains c))
  | .mark cur => some (setSlot r cur ⟨(slotAt r cur).data, committed cur⟩, .loadMark cur)
  | .loadMark cur => some (r, .loadWt cur (slotAt r cur).flag)
  | .loadWt cur cac =>
      if cur ≠ r.wt ∨ cac ≠ committed cur then some (r, .idle)
      else some (r, .casMark .producer cur cac)
  | .casMark who cur cac =>
      -- a producer's exchange is a strong one
      if (who = .producer ∨ !spurious) ∧ (slotAt r cur).flag = cac then
        some (setSlot r cur ⟨(slotAt r cur).data, 0⟩, .storeWt who cur)
      else
        match who with
        | .producer => some (r, .idle)
        | .consumer => some (r, .popRd)
  | .storeWt who cur =>
      match who with
      | .producer => some ({ r with wt := u2 (cur + 1) }, .loadMark (u2 (cur + 1)))
      | .consumer => some ({ r with wt := u2 (cur + 1) }, .popRd)
  | .popRd => some (r, .popWt r.rd)
  | .popWt curRd =>
      if indexOf curRd = indexOf r.wt then some (r, .popMark r.wt)
      else some (r, .copy curRd (List.finRange n) fun _ => 0)
  | .popMark curWt =>
      -- empty
      if (slotAt r curWt).flag ≠ committed curWt then some (r, .idle)
      else some (r, .casMark .consumer curWt (slotAt r curWt).flag)
  | .copy curRd left out =>
      if left = [] then some (r, .casRd curRd out)
      else
        some (r, .copy curRd (left.filter fun c => !cells.contains c)
          (copyCells cells (slotAt r curRd).data out))
  | .casRd curRd _ =>
      if !spurious && r.rd = curRd then some ({ r with rd := u2 (curRd + 1) }, .idle)
      else some (r, .popRd)

end

variable [DecidableEq T]

/-- What the calls of `pop` have given once a thread has made its next access. -/
def State.record (s : State T n) (t : T) (spurious : Bool) : T → List (Data n) :=
  match s.threads t with
  | .casRd curRd out =>
      if !spurious && s.ring.rd = curRd then Function.update s.popped t (s.popped t ++ [out])
      else s.popped
  | _ => s.popped

/-- The state after a step of a thread. -/
def State.after (s : State T n) (t : T) (r : Ring n) (pc : Pc n) (popped : T → List (Data n)) :
    State T n :=
  { ring := r, threads := Function.update s.threads t pc, popped := popped }

def step (s : State T n) : Action T n → Option (State T n)
  | .push t v =>
      match s.threads t with
      | .idle => some (s.after t s.ring (.loadCt v) s.popped)
      | _ => none
  | .pop t =>
      match s.threads t with
      | .idle => some (s.after t s.ring .popRd s.popped)
      | _ => none
  | .access t cells spurious =>
      (accessStep s.ring cells spurious (s.threads t)).map fun out =>
        s.after t out.1 out.2 (s.record t spurious)

/-- A new ring that any number of threads use. -/
def machine (T : Type) [DecidableEq T] (n : ℕ) : Machine (State T n) (Action T n) :=
  { init :=
      { ring := { rd := 0, wt := 0, ct := 0, elems := fun _ => ⟨fun _ => 0, 0⟩ }
        threads := fun _ => .idle
        popped := fun _ => [] }
    step := step }

/-! ## The purpose -/

/-- The claims of positions: a push that advances `ct_`, and a pop that advances `rd_`. -/
def event (s : State T n) : Action T n → Option (Event T (Data n))
  | .access t _ false =>
      match s.threads t with
      | .casCt v cur => if s.ring.ct = cur then some (.enqueue v) else none
      | .casRd curRd _ => if s.ring.rd = curRd then some (.dequeue t) else none
      | _ => none
  | _ => none

/-! ## The invariant -/

/-- The position whose slot a thread writes. -/
def Pc.writing : Pc n → Option ℕ
  | .write _ cur _ | .mark cur => some cur
  | _ => none

/-- The position that a thread is about to advance `wt_` past. -/
def Pc.advancing : Pc n → Option ℕ
  | .storeWt _ cur => some cur
  | _ => none

/-- A thread that writes no slot and passes no position only looks at the ring. -/
def Pc.looking : Pc n → Bool
  | .write _ _ _ | .mark _ | .storeWt _ _ => false
  | _ => true

/-- What holds of the place of one thread. -/
def Place (r : Ring n) (A : BoundedFifo.State T (Data n)) : Pc n → Prop
  | .loadRd _ cur => cur ≤ A.log.length
  | .casCt _ cur => cur ≤ A.log.length ∧ (cur = A.log.length → cur < A.taken.length + 255)
  | .write v cur left =>
      r.wt ≤ cur ∧ (slotAt r cur).flag ≠ committed cur ∧ A.log[cur]? = some v ∧
        AgreeOff left (slotAt r cur).data v
  | .mark cur =>
      r.wt ≤ cur ∧ (slotAt r cur).flag ≠ committed cur ∧ A.log[cur]? = some (slotAt r cur).data
  | .casMark _ cur cac => cur ≤ r.wt ∧ cac = committed cur
  | .storeWt _ cur => cur = r.wt ∧ cur < A.log.length ∧ (slotAt r cur).flag ≠ committed cur
  | .popWt curRd => curRd ≤ A.taken.length
  | .popMark curWt => curWt ≤ r.wt
  | .copy curRd left out =>
      curRd ≤ A.taken.length ∧ (curRd = A.taken.length → curRd < r.wt ∧
        ∃ v, A.log[curRd]? = some v ∧ AgreeOff left out v)
  | .casRd curRd out =>
      curRd ≤ A.taken.length ∧
        (curRd = A.taken.length → curRd < r.wt ∧ A.log[curRd]? = some out)
  | _ => True

/-- The ring, its threads and what they were given are those of a bounded FIFO queue. -/
structure Inv (s : State T n) (A : BoundedFifo.State T (Data n)) : Prop where
  rd : s.ring.rd = A.taken.length
  ct : s.ring.ct = A.log.length
  read : A.taken.length ≤ s.ring.wt
  written : s.ring.wt ≤ A.log.length
  fits : A.log.length ≤ A.taken.length + 255
  early : A.log.length < 2 ^ 32
  /-- A mark is that of a position which `wt_` has not passed. -/
  marks : ∀ i, (s.ring.elems i).flag = 0 ∨
    ∃ p, indexOf p = i ∧ s.ring.wt ≤ p ∧ p < A.log.length ∧ (s.ring.elems i).flag = committed p
  stored : ∀ p v, A.taken.length ≤ p → A.log[p]? = some v →
    (∃ t, (s.threads t).writing = some p) ∨ (slotAt s.ring p).data = v
  /-- A position that `wt_` has not passed is being written, or marked, or being passed. -/
  pending : ∀ p, s.ring.wt ≤ p → p < A.log.length →
    (∃ t, (s.threads t).writing = some p) ∨ (slotAt s.ring p).flag = committed p ∨
      ∃ t, (s.threads t).advancing = some p
  writers : Exclusive Pc.writing s.threads
  advancers : Exclusive Pc.advancing s.threads
  apart : Apart Pc.advancing Pc.writing s.threads
  places : ∀ t, Place s.ring A (s.threads t)
  popped : ∀ t, A.given t = s.popped t

section

variable {s : State T n} {A : BoundedFifo.State T (Data n)} {r : Ring n} {pc : Pc n} {p : ℕ}

/-! ## Positions, slots and marks -/

/-- Positions within a lap have different slots. -/
theorem slot_inj {q : ℕ} (hpq : p < q + 256) (hqp : q < p + 256) (h : indexOf p = indexOf q) :
    p = q := by
  have hmod : p % 256 = q % 256 := congrArg Fin.val h
  omega

theorem indexOf_u2 (c : ℕ) : indexOf (u2 c) = indexOf c := by
  apply Fin.ext
  change c % 2 ^ 32 % 256 = c % 256
  exact Nat.mod_mod_of_dvd c (by decide)

theorem u2_of_lt {c : ℕ} (hc : c < 2 ^ 32) : u2 c = c :=
  Nat.mod_eq_of_lt hc

/-- Positions have different marks. -/
theorem committed_inj {q : ℕ} (hp : p < 2 ^ 32) (hq : q < 2 ^ 32)
    (h : committed p = committed q) : p = q := by
  unfold committed at h
  omega

theorem slotAt_setSlot (e : Elem n) : slotAt (setSlot r p e) p = e :=
  Function.update_self _ _ _

theorem slotAt_setSlot_ne {q : ℕ} (e : Elem n) (h : indexOf q ≠ indexOf p) :
    slotAt (setSlot r p e) q = slotAt r q :=
  Function.update_of_ne h _ _

omit [DecidableEq T] in
theorem taken_le (A : BoundedFifo.State T (Data n)) : A.taken.length ≤ A.log.length := by
  rw [length_log]
  exact Nat.le_add_right _ _

omit [DecidableEq T] in
theorem writing_spec (hplace : Place r A pc) (hpc : pc.writing = some p) :
    r.wt ≤ p ∧ p < A.log.length ∧ (slotAt r p).flag ≠ committed p := by
  cases pc with
  | write v cur left =>
      obtain ⟨hle, hflag, hv, -⟩ := hplace
      cases hpc
      exact ⟨hle, (List.getElem?_eq_some_iff.mp hv).1, hflag⟩
  | mark cur =>
      obtain ⟨hle, hflag, hv⟩ := hplace
      cases hpc
      exact ⟨hle, (List.getElem?_eq_some_iff.mp hv).1, hflag⟩
  | _ => cases hpc

omit [DecidableEq T] in
theorem advancing_spec (hplace : Place r A pc) (hpc : pc.advancing = some p) :
    p = r.wt ∧ p < A.log.length ∧ (slotAt r p).flag ≠ committed p := by
  cases pc with
  | storeWt who cur =>
      cases hpc
      exact hplace
  | _ => cases hpc

theorem mark_spec (h : Inv s A) (hp : p < 2 ^ 32)
    (hmark : (slotAt s.ring p).flag = committed p) : s.ring.wt ≤ p ∧ p < A.log.length := by
  have hearly := h.early
  rcases h.marks (indexOf p) with hzero | ⟨q, -, hle, hlt, hflag⟩
  · have hnone : committed p = 0 := hmark.symm.trans hzero
    unfold committed at hnone
    omega
  · obtain rfl : p = q := committed_inj hp (by omega) (hmark.symm.trans hflag)
    exact ⟨hle, hlt⟩

theorem commit_ne_zero (hp : p < 2 ^ 32) : committed p ≠ 0 := by
  unfold committed
  omega

/-! ## Writing a slot -/

section

variable {t : T} {popped : T → List (Data n)}

@[simp] theorem after_ring : (s.after t r pc popped).ring = r := rfl

@[simp] theorem after_popped : (s.after t r pc popped).popped = popped := rfl

@[simp] theorem after_self : (s.after t r pc popped).threads t = pc :=
  Function.update_self _ _ _

theorem after_of_ne {t' : T} (hne : t' ≠ t) : (s.after t r pc popped).threads t' = s.threads t' :=
  Function.update_of_ne hne _ _

omit [DecidableEq T] in
/-- A place says nothing about the slots that its thread has no claim on. -/
theorem Place.congr {r' : Ring n} (hplace : Place r A pc) (hwt : r'.wt = r.wt)
    (hmine : ∀ q, pc.writing = some q ∨ pc.advancing = some q → slotAt r' q = slotAt r q) :
    Place r' A pc := by
  cases pc with
  | write v cur left => simpa only [Place, hwt, hmine cur (Or.inl rfl)] using hplace
  | mark cur => simpa only [Place, hwt, hmine cur (Or.inl rfl)] using hplace
  | storeWt who cur => simpa only [Place, hwt, hmine cur (Or.inr rfl)] using hplace
  | casMark who cur cac => simpa only [Place, hwt] using hplace
  | popMark curWt => simpa only [Place, hwt] using hplace
  | copy curRd left out => simpa only [Place, hwt] using hplace
  | casRd curRd out => simpa only [Place, hwt] using hplace
  | _ => exact hplace

/-- A thread writes the slot of a position that `wt_` has not passed, and that no other thread
writes or passes. -/
theorem inv_setSlot (h : Inv s A) {e : Elem n} (hlow : s.ring.wt ≤ p) (hhigh : p < A.log.length)
    (hothers : ∀ t', t' ≠ t →
      (s.threads t').writing ≠ some p ∧ (s.threads t').advancing ≠ some p)
    (hmine : ∀ q, (s.threads t).writing = some q → q = p)
    (hfree : (s.threads t).advancing = none)
    (hmark : e.flag = 0 ∨ e.flag = committed p)
    (hplace : Place (setSlot s.ring p e) A pc)
    (hwriting : ∀ q, pc.writing = some q → (s.threads t).writing = some q)
    (hadvancing : ∀ q, pc.advancing = some q → q = p ∧ pc.writing = none)
    (hstored : ∀ v, A.log[p]? = some v → pc.writing = some p ∨ e.data = v)
    (hpending : pc.writing = some p ∨ e.flag = committed p ∨ pc.advancing = some p) :
    Inv (s.after t (setSlot s.ring p e) pc s.popped) A := by
  have hread := h.read
  have hfits := h.fits
  -- the other positions within a lap have their own slots
  have hother : ∀ {q}, A.taken.length ≤ q → q < A.log.length → q ≠ p →
      slotAt (setSlot s.ring p e) q = slotAt s.ring q := by
    intro q hq hq' hne
    exact slotAt_setSlot_ne e fun heq => hne (slot_inj (by omega) (by omega) heq)
  constructor
  case rd => exact h.rd
  case ct => exact h.ct
  case read => exact h.read
  case written => exact h.written
  case fits => exact h.fits
  case early => exact h.early
  case popped => exact h.popped
  case writers => exact h.writers.keep hwriting
  case advancers =>
    intro t₁ t₂ q h₁ h₂
    by_cases hne₁ : t₁ = t <;> by_cases hne₂ : t₂ = t
    · rw [hne₁, hne₂]
    · rw [hne₁, after_self] at h₁
      rw [after_of_ne hne₂, (hadvancing q h₁).1] at h₂
      exact absurd h₂ (hothers t₂ hne₂).2
    · rw [hne₂, after_self] at h₂
      rw [after_of_ne hne₁, (hadvancing q h₂).1] at h₁
      exact absurd h₁ (hothers t₁ hne₁).2
    · rw [after_of_ne hne₁] at h₁
      rw [after_of_ne hne₂] at h₂
      exact h.advancers h₁ h₂
  case marks =>
    intro i
    by_cases hi : i = indexOf p
    · have hnew : ((s.after t (setSlot s.ring p e) pc s.popped).ring.elems i) = e := by
        rw [hi]
        exact slotAt_setSlot e
      rw [hnew]
      rcases hmark with hmark | hmark
      · exact Or.inl hmark
      · exact Or.inr ⟨p, hi.symm, hlow, hhigh, hmark⟩
    · have hold : ((s.after t (setSlot s.ring p e) pc s.popped).ring.elems i) = s.ring.elems i :=
        Function.update_of_ne hi _ _
      rw [hold]
      exact h.marks i
  case stored =>
    intro q v hle hv
    have hlt := (List.getElem?_eq_some_iff.mp hv).1
    rw [after_ring]
    by_cases hq : q = p
    · subst hq
      rw [slotAt_setSlot]
      rcases hstored v hv with hpc | hdata
      · exact Or.inl ⟨t, by rw [after_self, hpc]⟩
      · exact Or.inr hdata
    · rw [hother hle hlt hq]
      rcases h.stored q v hle hv with ⟨t', ht'⟩ | hdata
      · have hne : t' ≠ t := by
          rintro rfl
          exact hq (hmine q ht')
        exact Or.inl ⟨t', by rw [after_of_ne hne, ht']⟩
      · exact Or.inr hdata
  case pending =>
    intro q hle hlt
    rw [after_ring]
    change s.ring.wt ≤ q at hle
    by_cases hq : q = p
    · subst hq
      rw [slotAt_setSlot]
      rcases hpending with hpc | hflag | hpc
      · exact Or.inl ⟨t, by rw [after_self, hpc]⟩
      · exact Or.inr (Or.inl hflag)
      · exact Or.inr (Or.inr ⟨t, by rw [after_self, hpc]⟩)
    · rw [hother (by omega) hlt hq]
      rcases h.pending q hle hlt with ⟨t', ht'⟩ | hflag | hadv
      · have hne : t' ≠ t := by
          rintro rfl
          exact hq (hmine q ht')
        exact Or.inl ⟨t', by rw [after_of_ne hne, ht']⟩
      · exact Or.inr (Or.inl hflag)
      · exact Or.inr (Or.inr (exists_update hfree hadv))
  case apart =>
    intro t₁ t₂ q h₁ h₂
    by_cases hne₁ : t₁ = t
    · rw [hne₁, after_self] at h₁
      obtain ⟨rfl, hnone⟩ := hadvancing q h₁
      by_cases hne₂ : t₂ = t
      · rw [hne₂, after_self, hnone] at h₂
        cases h₂
      · rw [after_of_ne hne₂] at h₂
        exact (hothers t₂ hne₂).1 h₂
    · rw [after_of_ne hne₁] at h₁
      by_cases hne₂ : t₂ = t
      · rw [hne₂, after_self] at h₂
        exact h.apart h₁ (hwriting q h₂)
      · rw [after_of_ne hne₂] at h₂
        exact h.apart h₁ h₂
  case places =>
    refine forall_update hplace fun t' hne => (h.places t').congr rfl fun q hq => ?_
    rcases hq with hq | hq
    · obtain ⟨hle, hlt, -⟩ := writing_spec (h.places t') hq
      refine hother (by omega) hlt ?_
      rintro rfl
      exact (hothers t' hne).1 hq
    · obtain ⟨rfl, hlt, -⟩ := advancing_spec (h.places t') hq
      refine hother hread hlt ?_
      rintro rfl
      exact (hothers t' hne).2 hq

/-! ## The other steps -/

omit [DecidableEq T] in
theorem looking_spec (hpc : pc.looking) : pc.writing = none ∧ pc.advancing = none := by
  cases pc with
  | write v cur left => cases hpc
  | mark cur => cases hpc
  | storeWt who cur => cases hpc
  | _ => exact ⟨rfl, rfl⟩

/-- A thread looks at the ring. -/
theorem inv_look (h : Inv s A) (hold : (s.threads t).looking) (hnew : pc.looking)
    (hplace : Place s.ring A pc) : Inv (s.after t s.ring pc s.popped) A := by
  obtain ⟨hwrite, hadv⟩ := looking_spec hold
  obtain ⟨hwrite', hadv'⟩ := looking_spec hnew
  constructor
  case rd => exact h.rd
  case ct => exact h.ct
  case read => exact h.read
  case written => exact h.written
  case fits => exact h.fits
  case early => exact h.early
  case popped => exact h.popped
  case marks => exact h.marks
  case writers => exact h.writers.keep fun q hq => by rw [hwrite'] at hq; cases hq
  case advancers => exact h.advancers.keep fun q hq => by rw [hadv'] at hq; cases hq
  case stored => exact fun q v hle hv => (h.stored q v hle hv).imp_left (exists_update hwrite)
  case pending =>
    exact fun q hle hlt =>
      (h.pending q hle hlt).imp (exists_update hwrite) (Or.imp_right (exists_update hadv))
  case apart =>
    exact h.apart.keep (fun q hq => by rw [hadv'] at hq; cases hq)
      fun q hq => by rw [hwrite'] at hq; cases hq
  case places => exact forall_update hplace fun t' _ => h.places t'

/-- A thread passes a position, whose mark it has cleared. -/
theorem inv_storeWt (h : Inv s A) {cur : ℕ} (hold : (s.threads t).advancing = some cur)
    (hwrite : (s.threads t).writing = none) (hnew : pc.looking) (hplace : ∀ r, Place r A pc) :
    Inv (s.after t { s.ring with wt := u2 (cur + 1) } pc s.popped) A := by
  obtain ⟨hwrite', hadv'⟩ := looking_spec hnew
  obtain ⟨rfl, hlt, hflag⟩ := advancing_spec (h.places t) hold
  have hearly := h.early
  have hu2 : u2 (s.ring.wt + 1) = s.ring.wt + 1 := u2_of_lt (by omega)
  rw [hu2]
  constructor
  case rd => exact h.rd
  case ct => exact h.ct
  case read => exact h.read.trans (Nat.le_succ _)
  case written => exact hlt
  case fits => exact h.fits
  case early => exact h.early
  case popped => exact h.popped
  case marks =>
    intro i
    rcases h.marks i with hzero | ⟨q, hi, hle, hq, hmark⟩
    · exact Or.inl hzero
    · refine Or.inr ⟨q, hi, Nat.lt_of_le_of_ne hle ?_, hq, hmark⟩
      rintro rfl
      rw [← hi] at hmark
      exact hflag hmark
  case writers => exact h.writers.keep fun q hq => by rw [hwrite'] at hq; cases hq
  case advancers => exact h.advancers.keep fun q hq => by rw [hadv'] at hq; cases hq
  case stored => exact fun q v hle hv => (h.stored q v hle hv).imp_left (exists_update hwrite)
  case pending =>
    intro q hle hq
    change s.ring.wt + 1 ≤ q at hle
    rcases h.pending q (by omega) hq with hw | hmark | ⟨t', ht'⟩
    · exact Or.inl (exists_update hwrite hw)
    · exact Or.inr (Or.inl hmark)
    · have heq := (advancing_spec (h.places t') ht').1
      omega
  case apart =>
    exact h.apart.keep (fun q hq => by rw [hadv'] at hq; cases hq)
      fun q hq => by rw [hwrite'] at hq; cases hq
  case places =>
    refine forall_update (hplace _) fun t' hne => ?_
    have hp := h.places t'
    -- nobody else writes or passes the position
    have hw : (s.threads t').writing ≠ some s.ring.wt := h.apart hold
    have ha : (s.threads t').advancing ≠ some s.ring.wt := fun heq => hne (h.advancers heq hold)
    cases hpc : s.threads t' with
    | write v cur left =>
        rw [hpc] at hp hw
        refine ⟨Nat.lt_of_le_of_ne hp.1 ?_, hp.2⟩
        rintro rfl
        exact hw rfl
    | mark cur =>
        rw [hpc] at hp hw
        refine ⟨Nat.lt_of_le_of_ne hp.1 ?_, hp.2⟩
        rintro rfl
        exact hw rfl
    | storeWt who cur =>
        rw [hpc] at hp ha
        exact absurd (congrArg some hp.1) ha
    | casMark who cur cac =>
        rw [hpc] at hp
        exact ⟨hp.1.trans (Nat.le_succ _), hp.2⟩
    | popMark curWt =>
        rw [hpc] at hp
        exact hp.trans (Nat.le_succ _)
    | copy curRd left out =>
        rw [hpc] at hp
        exact ⟨hp.1, fun heq => ⟨(hp.2 heq).1.trans (Nat.lt_succ_self _), (hp.2 heq).2⟩⟩
    | casRd curRd out =>
        rw [hpc] at hp
        exact ⟨hp.1, fun heq => ⟨(hp.2 heq).1.trans (Nat.lt_succ_self _), (hp.2 heq).2⟩⟩
    | _ =>
        rw [hpc] at hp
        exact hp

/-! ## Claiming a position -/

omit [DecidableEq T] in
/-- A push has no bearing on the places of the others. -/
theorem Place.enqueue {A' : BoundedFifo.State T (Data n)} {v : Data n} {ct : ℕ}
    (hplace : Place r A pc) (hlog : A'.log = A.log ++ [v]) (htaken : A'.taken = A.taken) :
    Place { r with ct := ct } A' pc := by
  have hlen : A'.log.length = A.log.length + 1 := by rw [hlog, List.length_append]; rfl
  have hget : ∀ {q : ℕ} {w : Data n}, A.log[q]? = some w → A'.log[q]? = some w := by
    intro q w hq
    rw [hlog, List.getElem?_append_left (List.getElem?_eq_some_iff.mp hq).1, hq]
  cases pc with
  | loadRd w cur => exact hplace.trans (by omega)
  | casCt w cur =>
      obtain ⟨hle, -⟩ := hplace
      exact ⟨by omega, fun heq => absurd heq (by omega)⟩
  | write w cur left =>
      obtain ⟨hle, hflag, hw, hagree⟩ := hplace
      exact ⟨hle, hflag, hget hw, hagree⟩
  | mark cur =>
      obtain ⟨hle, hflag, hw⟩ := hplace
      exact ⟨hle, hflag, hget hw⟩
  | storeWt who cur =>
      obtain ⟨heq, hlt, hflag⟩ := hplace
      exact ⟨heq, by omega, hflag⟩
  | popWt curRd =>
      unfold Place at hplace ⊢
      rwa [htaken]
  | copy curRd left out =>
      obtain ⟨hle, hnext⟩ := hplace
      refine ⟨htaken ▸ hle, fun heq => ?_⟩
      obtain ⟨hlt, w, hw, hagree⟩ := hnext (htaken ▸ heq)
      exact ⟨hlt, w, hget hw, hagree⟩
  | casRd curRd out =>
      obtain ⟨hle, hnext⟩ := hplace
      refine ⟨htaken ▸ hle, fun heq => ?_⟩
      obtain ⟨hlt, hw⟩ := hnext (htaken ▸ heq)
      exact ⟨hlt, hget hw⟩
  | _ => exact hplace

omit [DecidableEq T] in
/-- Nor has a pop. -/
theorem Place.dequeue {A' : BoundedFifo.State T (Data n)} {x : T × Data n} {rd : ℕ}
    (hplace : Place r A pc) (hlog : A'.log = A.log) (htaken : A'.taken = A.taken ++ [x]) :
    Place { r with rd := rd } A' pc := by
  have hlen : A'.taken.length = A.taken.length + 1 := by rw [htaken, List.length_append]; rfl
  cases pc with
  | loadRd w cur =>
      unfold Place at hplace ⊢
      rwa [hlog]
  | casCt w cur =>
      obtain ⟨hle, hroom⟩ := hplace
      rw [← hlog] at hle hroom
      exact ⟨hle, fun heq => (hroom heq).trans (by omega)⟩
  | write w cur left =>
      obtain ⟨hle, hflag, hw, hagree⟩ := hplace
      exact ⟨hle, hflag, hlog ▸ hw, hagree⟩
  | mark cur =>
      obtain ⟨hle, hflag, hw⟩ := hplace
      exact ⟨hle, hflag, hlog ▸ hw⟩
  | storeWt who cur =>
      obtain ⟨heq, hlt, hflag⟩ := hplace
      exact ⟨heq, hlog ▸ hlt, hflag⟩
  | popWt curRd => exact hplace.trans (by omega)
  | copy curRd left out =>
      obtain ⟨hle, -⟩ := hplace
      exact ⟨by omega, fun heq => absurd heq (by omega)⟩
  | casRd curRd out =>
      obtain ⟨hle, -⟩ := hplace
      exact ⟨by omega, fun heq => absurd heq (by omega)⟩
  | _ => exact hplace

/-- A push claims the next position. -/
theorem inv_claim (h : Inv s A) {v : Data n} {cur : ℕ} (hpc : s.threads t = .casCt v cur)
    (hct : s.ring.ct = cur) (hearly : cur + 1 < 2 ^ 32) :
    ∃ A', (BoundedFifo.machine T (Data n) 255).step A (.enqueue v) = some A' ∧
      Inv (s.after t { s.ring with ct := u2 (cur + 1) } (.write v cur (List.finRange n)) s.popped)
        A' := by
  have hplace := h.places t
  rw [hpc] at hplace
  obtain rfl : cur = A.log.length := by rw [← hct, h.ct]
  have hroom := hplace.2 rfl
  obtain ⟨A', hstep, hlog, htaken⟩ := exists_enqueue v hroom
  have hlen : A'.log.length = A.log.length + 1 := by rw [hlog, List.length_append]; rfl
  have hread := h.read
  have hwritten := h.written
  have hwrite : (s.threads t).writing = none := by rw [hpc]; rfl
  have hadv : (s.threads t).advancing = none := by rw [hpc]; rfl
  -- the marks are those of positions that were claimed before
  have hunmarked : (slotAt s.ring A.log.length).flag ≠ committed A.log.length := by
    intro hmark
    exact Nat.lt_irrefl _ (mark_spec h (by omega) hmark).2
  have hnew : A'.log[A.log.length]? = some v := by rw [hlog, List.getElem?_concat_length]
  refine ⟨A', hstep, ?_⟩
  constructor
  case rd => exact h.rd.trans (by rw [htaken])
  case ct => exact (u2_of_lt hearly).trans hlen.symm
  case read => exact htaken ▸ h.read
  case written => exact h.written.trans (by omega)
  case fits =>
    rw [hlen, htaken]
    exact hroom
  case early =>
    rw [hlen]
    exact hearly
  case popped =>
    intro t'
    unfold BoundedFifo.State.given
    rw [htaken]
    exact h.popped t'
  case marks =>
    intro i
    rcases h.marks i with hzero | ⟨q, hi, hle, hq, hmark⟩
    · exact Or.inl hzero
    · exact Or.inr ⟨q, hi, hle, by omega, hmark⟩
  case stored =>
    intro q w hle hw
    rw [htaken] at hle
    by_cases hq : q = A.log.length
    · exact Or.inl ⟨t, by rw [after_self, hq]; rfl⟩
    · have hlt : q < A.log.length := by
        have := (List.getElem?_eq_some_iff.mp hw).1
        omega
      rw [hlog, List.getElem?_append_left hlt] at hw
      exact (h.stored q w hle hw).imp_left (exists_update hwrite)
  case pending =>
    intro q hle hlt
    by_cases hq : q = A.log.length
    · exact Or.inl ⟨t, by rw [after_self, hq]; rfl⟩
    · exact (h.pending q hle (by omega)).imp (exists_update hwrite) (Or.imp_right (exists_update hadv))
  case writers =>
    refine h.writers.claim rfl fun t' hq => ?_
    exact Nat.lt_irrefl _ (writing_spec (h.places t') hq).2.1
  case advancers => exact h.advancers.keep fun q hq => by cases hq
  case apart =>
    intro t₁ t₂ q h₁ h₂
    have h₁' : (s.threads t₁).advancing = some q :=
      owned_before (f := Pc.advancing) (fun q hq => by cases hq) h₁
    by_cases hne : t₂ = t
    · rw [hne, after_self] at h₂
      cases h₂
      exact Nat.lt_irrefl _ (advancing_spec (h.places t₁) h₁').2.1
    · rw [after_of_ne hne] at h₂
      exact h.apart h₁' h₂
  case places =>
    refine forall_update ?_ fun t' _ => (h.places t').enqueue hlog htaken
    exact ⟨hwritten, hunmarked, hnew, agreeOff_of_all List.mem_finRange _ _⟩

/-- A pop takes the oldest value. -/
theorem inv_take (h : Inv s A) {out : Data n} {curRd : ℕ} (hpc : s.threads t = .casRd curRd out)
    (hrd : s.ring.rd = curRd) :
    ∃ A', (BoundedFifo.machine T (Data n) 255).step A (.dequeue t) = some A' ∧
      Inv (s.after t { s.ring with rd := u2 (curRd + 1) } .idle
        (Function.update s.popped t (s.popped t ++ [out]))) A' := by
  have hplace := h.places t
  rw [hpc] at hplace
  obtain rfl : curRd = A.taken.length := by rw [← hrd, h.rd]
  obtain ⟨hlt, hout⟩ := hplace.2 rfl
  have hwritten := h.written
  have hearly := h.early
  obtain ⟨A', v, hstep, hv, hlog, htaken⟩ := @exists_dequeue _ _ 255 A t (hlt.trans_le hwritten)
  obtain rfl : out = v := Option.some.inj (hout.symm.trans hv)
  have hlen : A'.taken.length = A.taken.length + 1 := by rw [htaken, List.length_append]; rfl
  have hwrite : (s.threads t).writing = none := by rw [hpc]; rfl
  have hadv : (s.threads t).advancing = none := by rw [hpc]; rfl
  refine ⟨A', hstep, ?_⟩
  constructor
  case rd =>
    rw [hlen]
    exact u2_of_lt (by omega)
  case ct => exact h.ct.trans (by rw [hlog])
  case read =>
    rw [hlen]
    exact hlt
  case written => exact hlog ▸ h.written
  case fits =>
    have := h.fits
    rw [hlog, hlen]
    omega
  case early => exact hlog ▸ h.early
  case popped =>
    intro t'
    rw [given_append htaken, h.popped t', after_popped]
    by_cases hne : t' = t
    · rw [hne, if_pos rfl, Function.update_self]
    · rw [if_neg (Ne.symm hne), List.append_nil, Function.update_of_ne hne]
  case marks => exact hlog ▸ h.marks
  case stored =>
    intro q w hle hw
    rw [hlog] at hw
    exact (h.stored q w (by omega) hw).imp_left (exists_update hwrite)
  case pending =>
    intro q hle hq
    rw [hlog] at hq
    exact (h.pending q hle hq).imp (exists_update hwrite) (Or.imp_right (exists_update hadv))
  case writers => exact h.writers.keep fun q hq => by cases hq
  case advancers => exact h.advancers.keep fun q hq => by cases hq
  case apart => exact h.apart.keep (fun q hq => by cases hq) fun q hq => by cases hq
  case places => exact forall_update trivial fun t' _ => (h.places t').dequeue hlog htaken

end

end

end DzIpc.LibIpc.UnicastMany
