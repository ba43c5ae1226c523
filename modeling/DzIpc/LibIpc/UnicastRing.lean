import DzIpc.Library.Cells
import DzIpc.Library.Machine
import DzIpc.LibIpc.Ring
import Mathlib.Data.List.FinRange

/-!
# The unicast ring

`push` and `pop` of the single-producer, single-consumer unicast policy.  Every load, every
`fetch_add` and the copy of every part of the data is a step of its own, and the producer and the
consumer take theirs in any order.  The counters are 32-bit words that wrap; the values pushed
and popped are history variables.

* `Inv` ties the counters, the slots and the places of both parties to the two histories.
* `exactFifo` is the result for all runs: a FIFO of 255 values.
-/

namespace DzIpc.LibIpc.UnicastRing

open Cells

/-! ## The ring and its parties -/

/-- `data_`, of `DataSize` bytes. -/
abbrev Data (n : ℕ) := Fin n → UInt8

/-- The bytes of `data_` are written and read one by one. -/
instance (n : ℕ) : Celled (Data n) (Fin n) UInt8 where
  get c r := r c
  put c src dst := Function.update dst c (src c)
  get_put_self c src dst := Function.update_self c (src c) dst
  get_put_ne _ _ _ _ hne := Function.update_of_ne hne _ _
  ext _ _ h := funext h

variable {n : ℕ}

/-- Where the producer is in `push`. -/
inductive ProducerPc (n : ℕ) where
  | idle
  | loadWt (v : Data n)
  | loadRd (v : Data n) (curWt : Fin 256)
  /-- Some bytes are still to be written. -/
  | write (v : Data n) (curWt : Fin 256) (left : List (Fin n))
  | advance (v : Data n) (curWt : Fin 256)
  | returned (success : Bool)

/-- Where the consumer is in `pop`. -/
inductive ConsumerPc (n : ℕ) where
  | idle
  | loadRd
  | loadWt (curRd : Fin 256)
  /-- Some bytes are still to be read. -/
  | copy (curRd : Fin 256) (left : List (Fin n)) (out : Data n)
  | advance (out : Data n)
  | returned (success : Bool)

structure State (n : ℕ) where
  rd : U2
  wt : U2
  elems : Fin 256 → Data n
  producer : ProducerPc n
  consumer : ConsumerPc n
  /-- The values of the calls of `push` that advanced `wt_`. -/
  pushed : List (Data n)
  /-- What the calls of `pop` that advanced `rd_` read. -/
  popped : List (Data n)

inductive Action (n : ℕ) where
  | push (v : Data n)
  /-- The next access within `push`; these are the bytes written next. -/
  | producer (cells : List (Fin n))
  | pop
  /-- The next access within `pop`; these are the bytes read next. -/
  | consumer (cells : List (Fin n))

def producerStep (s : State n) (cells : List (Fin n)) : Option (State n) :=
  match s.producer with
  | .idle | .returned _ => none
  | .loadWt v => some { s with producer := .loadRd v (indexOf s.wt) }
  | .loadRd v curWt =>
      if curWt = indexOf (s.rd - 1#32) then some { s with producer := .returned false }
      else some { s with producer := .write v curWt (List.finRange n) }
  | .write v curWt left =>
      if left = [] then some { s with producer := .advance v curWt }
      else
        some { s with
          elems := Function.update s.elems curWt (copyCells cells v (s.elems curWt))
          producer := .write v curWt (left.filter fun c => c ∉ cells) }
  | .advance v _ =>
      some { s with
        wt := s.wt + 1#32
        producer := .returned true
        pushed := s.pushed ++ [v] }

def consumerStep (s : State n) (cells : List (Fin n)) : Option (State n) :=
  match s.consumer with
  | .idle | .returned _ => none
  | .loadRd => some { s with consumer := .loadWt (indexOf s.rd) }
  | .loadWt curRd =>
      if curRd = indexOf s.wt then some { s with consumer := .returned false }
      else some { s with consumer := .copy curRd (List.finRange n) fun _ => 0 }
  | .copy curRd left out =>
      if left = [] then some { s with consumer := .advance out }
      else
        some { s with
          consumer := .copy curRd (left.filter fun c => c ∉ cells)
            (copyCells cells (s.elems curRd) out) }
  | .advance out =>
      some { s with
        rd := s.rd + 1#32
        consumer := .returned true
        popped := s.popped ++ [out] }

def step (s : State n) : Action n → Option (State n)
  | .push v =>
      match s.producer with
      | .idle | .returned _ => some { s with producer := .loadWt v }
      | _ => none
  | .producer cells => producerStep s cells
  | .pop =>
      match s.consumer with
      | .idle | .returned _ => some { s with consumer := .loadRd }
      | _ => none
  | .consumer cells => consumerStep s cells

def machine : Machine (State n) (Action n) :=
  { init := ⟨0#32, 0#32, fun _ _ => 0, .idle, .idle, [], []⟩, step := step }

/-! ## A FIFO of 255 values -/

/-- How many values are pushed and not yet popped. -/
def State.unread (s : State n) : ℕ := s.pushed.length - s.popped.length

/-- The slots that the consumer has not released. -/
def State.Holds (s : State n) (i : Fin 256) : Prop :=
  ∃ k, s.popped.length ≤ k ∧ k < s.pushed.length ∧ i.val = k % 256

/-- The slot that the producer writes. -/
def ProducerPc.slot : ProducerPc n → Option (Fin 256)
  | .write _ curWt _ => some curWt
  | _ => none

/-- Values come out in the order in which they went in, `push` fails exactly where 255 are unread,
`pop` exactly where none is, and no unread slot is written. -/
structure ExactFifo (s : State n) : Prop where
  inOrder : s.popped <+: s.pushed
  pushFails : ∀ v curWt cells t, s.producer = .loadRd v curWt → producerStep s cells = some t →
    (t.producer = .returned false ↔ s.unread = 255)
  popFails : ∀ curRd cells t, s.consumer = .loadWt curRd → consumerStep s cells = some t →
    (t.consumer = .returned false ↔ s.unread = 0)
  notWritten : ∀ i, s.producer.slot = some i → ¬ s.Holds i

/-! ## The invariant -/

/-- The producer at its place: it has the slot after the last one, which is free. -/
def ProducerOk (s : State n) : ProducerPc n → Prop
  | .loadRd _ curWt => curWt.val = s.pushed.length % 256
  | .write v curWt left =>
      curWt.val = s.pushed.length % 256 ∧ s.pushed.length < s.popped.length + 255 ∧
        AgreeOff left (s.elems curWt) v
  | .advance v curWt =>
      curWt.val = s.pushed.length % 256 ∧ s.pushed.length < s.popped.length + 255 ∧
        s.elems curWt = v
  | .idle | .loadWt _ | .returned _ => True

/-- The consumer at its place: it reads the first unread value. -/
def ConsumerOk (s : State n) : ConsumerPc n → Prop
  | .loadWt curRd => curRd.val = s.popped.length % 256
  | .copy curRd left out =>
      curRd.val = s.popped.length % 256 ∧
        ∃ v, s.pushed[s.popped.length]? = some v ∧ AgreeOff left out v
  | .advance out => s.pushed[s.popped.length]? = some out
  | .idle | .loadRd | .returned _ => True

structure Inv (s : State n) : Prop where
  wt : s.wt = BitVec.ofNat 32 s.pushed.length
  rd : s.rd = BitVec.ofNat 32 s.popped.length
  inOrder : s.popped <+: s.pushed
  bounded : s.pushed.length ≤ s.popped.length + 255
  /-- Unread values are in their slots. -/
  slots : ∀ k v, s.popped.length ≤ k → s.pushed[k]? = some v →
    ∀ i : Fin 256, i.val = k % 256 → s.elems i = v
  producer : ProducerOk s s.producer
  consumer : ConsumerOk s s.consumer

section

variable {s t : State n} {cells : List (Fin n)}

theorem indexOf_ofNat (k : ℕ) : (indexOf (BitVec.ofNat 32 k)).val = k % 256 := by
  have hmod : k % 2 ^ 32 % 256 = k % 256 := Nat.mod_mod_of_dvd k (by decide)
  rw [← hmod, ← BitVec.toNat_ofNat]
  rfl

/-- The slot before the one to be popped. -/
theorem indexOf_ofNat_sub_one (k : ℕ) :
    (indexOf (BitVec.ofNat 32 k - 1#32)).val = (k + 255) % 256 := by
  have hsub : BitVec.ofNat 32 k - 1#32 = BitVec.ofNat 32 (k + (2 ^ 32 - 1)) := by
    rw [← BitVec.toNat_inj]
    bv_omega
  rw [hsub, indexOf_ofNat]
  omega

/-- The ring is full exactly where the two loads say so. -/
theorem Inv.full_iff (h : Inv s) {curWt : Fin 256} (hcur : curWt.val = s.pushed.length % 256) :
    curWt = indexOf (s.rd - 1#32) ↔ s.unread = 255 := by
  have hle := h.inOrder.length_le
  have hbounded := h.bounded
  rw [Fin.ext_iff, h.rd, indexOf_ofNat_sub_one, hcur, State.unread]
  omega

/-- The ring is empty exactly where the two loads say so. -/
theorem Inv.empty_iff (h : Inv s) {curRd : Fin 256} (hcur : curRd.val = s.popped.length % 256) :
    curRd = indexOf s.wt ↔ s.unread = 0 := by
  have hle := h.inOrder.length_le
  have hbounded := h.bounded
  rw [Fin.ext_iff, h.wt, indexOf_ofNat, hcur, State.unread]
  omega

theorem inv_init : Inv (machine (n := n)).init where
  wt := rfl
  rd := rfl
  inOrder := List.prefix_rfl
  bounded := Nat.zero_le _
  slots := fun _ _ _ h => nomatch h
  producer := trivial
  consumer := trivial

/-- The slot after the last one holds nothing unread. -/
theorem not_holds (hroom : s.pushed.length < s.popped.length + 255) {curWt : Fin 256}
    (hcur : curWt.val = s.pushed.length % 256) : ¬ s.Holds curWt := by
  rintro ⟨k, hle, hlt, hk⟩
  omega

/-- Only the place of the producer changes. -/
theorem Inv.setProducer (h : Inv s) {pc : ProducerPc n} (hpc : ProducerOk s pc) :
    Inv { s with producer := pc } :=
  ⟨h.wt, h.rd, h.inOrder, h.bounded, h.slots, hpc, h.consumer⟩

/-- Only the place of the consumer changes. -/
theorem Inv.setConsumer (h : Inv s) {pc : ConsumerPc n} (hpc : ConsumerOk s pc) :
    Inv { s with consumer := pc } :=
  ⟨h.wt, h.rd, h.inOrder, h.bounded, h.slots, h.producer, hpc⟩

/-- The producer writes bytes of a slot that holds nothing unread. -/
theorem Inv.write (h : Inv s) {v : Data n} {curWt : Fin 256} {left : List (Fin n)}
    (hpc : s.producer = .write v curWt left) (cells : List (Fin n)) :
    Inv { s with
      elems := Function.update s.elems curWt (copyCells cells v (s.elems curWt))
      producer := .write v curWt (left.filter fun c => c ∉ cells) } := by
  have hproducer := h.producer
  rw [hpc] at hproducer
  obtain ⟨hcur, hroom, hagree⟩ := hproducer
  refine ⟨h.wt, h.rd, h.inOrder, h.bounded, fun k w hk hw i hi => ?_, ⟨hcur, hroom, ?_⟩, h.consumer⟩
  · have hlt : k < s.pushed.length := (List.getElem?_eq_some_iff.mp hw).1
    have hne : i ≠ curWt := by
      rintro rfl
      exact not_holds hroom hcur ⟨k, hk, hlt, hi⟩
    change Function.update s.elems curWt _ i = w
    rw [Function.update_of_ne hne]
    exact h.slots k w hk hw i hi
  · change AgreeOff _ (Function.update s.elems curWt _ curWt) v
    rw [Function.update_self]
    exact hagree.copyCells cells

/-- The producer publishes what it has written. -/
theorem Inv.advanceWt (h : Inv s) {v : Data n} {curWt : Fin 256}
    (hpc : s.producer = .advance v curWt) :
    Inv { s with
      wt := s.wt + 1#32
      producer := .returned true
      pushed := s.pushed ++ [v] } := by
  have hproducer := h.producer
  rw [hpc] at hproducer
  obtain ⟨hcur, hroom, hslot⟩ := hproducer
  have hlen : (s.pushed ++ [v]).length = s.pushed.length + 1 := List.length_append
  refine ⟨?_, h.rd, h.inOrder.trans (List.prefix_append _ _), ?_, fun k w hk hw i hi => ?_, trivial,
    ?_⟩
  · change s.wt + 1#32 = BitVec.ofNat 32 (s.pushed ++ [v]).length
    rw [h.wt, hlen, BitVec.ofNat_add]
  · change (s.pushed ++ [v]).length ≤ _
    rw [hlen]
    exact hroom
  · change s.elems i = w
    change (s.pushed ++ [v])[k]? = some w at hw
    by_cases hlt : k < s.pushed.length
    · rw [List.getElem?_append_left hlt] at hw
      exact h.slots k w hk hw i hi
    · -- the new value is the last one, in the slot just written
      have hk' : k = s.pushed.length := by
        have hlast := (List.getElem?_eq_some_iff.mp hw).1
        omega
      rw [hk', List.getElem?_concat_length, Option.some.injEq] at hw
      have hi' : i = curWt := Fin.ext (by rw [hi, hcur, hk'])
      rw [hi', hslot, hw]
  · have hconsumer := h.consumer
    have hkeep : ∀ {k : ℕ} {w : Data n}, s.pushed[k]? = some w → (s.pushed ++ [v])[k]? = some w :=
      fun hw => by rw [List.getElem?_append_left (List.getElem?_eq_some_iff.mp hw).1, hw]
    cases hc : s.consumer with
    | idle => trivial
    | loadRd => trivial
    | returned success => trivial
    | loadWt curRd =>
        rw [hc] at hconsumer
        exact hconsumer
    | copy curRd left out =>
        rw [hc] at hconsumer
        obtain ⟨hcurRd, w, hw, hagree⟩ := hconsumer
        exact ⟨hcurRd, w, hkeep hw, hagree⟩
    | advance out =>
        rw [hc] at hconsumer
        exact hkeep hconsumer

/-- The consumer reads bytes of the first unread value. -/
theorem Inv.copy (h : Inv s) {curRd : Fin 256} {left : List (Fin n)} {out : Data n}
    (hpc : s.consumer = .copy curRd left out) (cells : List (Fin n)) :
    Inv { s with
      consumer := .copy curRd (left.filter fun c => c ∉ cells)
        (copyCells cells (s.elems curRd) out) } := by
  have hconsumer := h.consumer
  rw [hpc] at hconsumer
  obtain ⟨hcur, v, hv, hagree⟩ := hconsumer
  rw [h.slots _ v (Nat.le_refl _) hv curRd hcur]
  exact h.setConsumer ⟨hcur, v, hv, hagree.copyCells cells⟩

/-- The consumer releases the slot that it has read. -/
theorem Inv.advanceRd (h : Inv s) {out : Data n} (hpc : s.consumer = .advance out) :
    Inv { s with
      rd := s.rd + 1#32
      consumer := .returned true
      popped := s.popped ++ [out] } := by
  have hread : s.pushed[s.popped.length]? = some out := by
    have hconsumer := h.consumer
    rw [hpc] at hconsumer
    exact hconsumer
  have hlen : (s.popped ++ [out]).length = s.popped.length + 1 := List.length_append
  have hbounded := h.bounded
  refine ⟨h.wt, ?_, ?_, ?_, fun k w hk hw i hi => h.slots k w ?_ hw i hi, ?_, trivial⟩
  · change s.rd + 1#32 = BitVec.ofNat 32 (s.popped ++ [out]).length
    rw [h.rd, hlen, BitVec.ofNat_add]
  · change s.popped ++ [out] <+: s.pushed
    obtain ⟨rest, hrest⟩ := h.inOrder
    rw [← hrest, List.getElem?_append_right (Nat.le_refl _), Nat.sub_self,
      ← List.head?_eq_getElem?] at hread
    obtain ⟨rest', rfl⟩ := List.head?_eq_some_iff.mp hread
    exact ⟨rest', by rw [List.append_assoc, List.singleton_append, hrest]⟩
  · change s.pushed.length ≤ (s.popped ++ [out]).length + 255
    omega
  · change (s.popped ++ [out]).length ≤ k at hk
    omega
  · have hproducer := h.producer
    cases hp : s.producer with
    | idle => trivial
    | loadWt v => trivial
    | returned success => trivial
    | loadRd v curWt =>
        rw [hp] at hproducer
        exact hproducer
    | write v curWt left =>
        rw [hp] at hproducer
        obtain ⟨hcur, hroom, hagree⟩ := hproducer
        refine ⟨hcur, ?_, hagree⟩
        change s.pushed.length < (s.popped ++ [out]).length + 255
        omega
    | advance v curWt =>
        rw [hp] at hproducer
        obtain ⟨hcur, hroom, hslot⟩ := hproducer
        refine ⟨hcur, ?_, hslot⟩
        change s.pushed.length < (s.popped ++ [out]).length + 255
        omega

theorem inv_producerStep (h : Inv s) (hstep : producerStep s cells = some t) : Inv t := by
  have hproducer := h.producer
  unfold producerStep at hstep
  split at hstep
  · cases hstep
  · cases hstep
  · -- `wt_` is loaded
    cases hstep
    refine h.setProducer ?_
    change (indexOf s.wt).val = _
    rw [h.wt, indexOf_ofNat]
  · -- `rd_` is loaded
    rename_i v curWt hpc
    rw [hpc] at hproducer
    split at hstep
    · cases hstep
      exact h.setProducer trivial
    · rename_i hroom
      cases hstep
      rw [h.full_iff hproducer, State.unread] at hroom
      have hbounded := h.bounded
      have hle := h.inOrder.length_le
      exact h.setProducer ⟨hproducer, by omega, agreeOff_of_all List.mem_finRange _ _⟩
  · rename_i v curWt left hpc
    split at hstep
    · rename_i hdone
      cases hstep
      rw [hpc, hdone] at hproducer
      obtain ⟨hcur, hroom, hagree⟩ := hproducer
      exact h.setProducer ⟨hcur, hroom, hagree.eq⟩
    · cases hstep
      exact h.write hpc cells
  · rename_i v curWt hpc
    cases hstep
    exact h.advanceWt hpc

theorem inv_consumerStep (h : Inv s) (hstep : consumerStep s cells = some t) : Inv t := by
  have hconsumer := h.consumer
  unfold consumerStep at hstep
  split at hstep
  · cases hstep
  · cases hstep
  · -- `rd_` is loaded
    cases hstep
    refine h.setConsumer ?_
    change (indexOf s.rd).val = _
    rw [h.rd, indexOf_ofNat]
  · -- `wt_` is loaded
    rename_i curRd hpc
    rw [hpc] at hconsumer
    split at hstep
    · cases hstep
      exact h.setConsumer trivial
    · rename_i hsome
      cases hstep
      rw [h.empty_iff hconsumer, State.unread] at hsome
      have hlt : s.popped.length < s.pushed.length := by omega
      exact h.setConsumer ⟨hconsumer, _, List.getElem?_eq_getElem hlt,
        agreeOff_of_all List.mem_finRange _ _⟩
  · rename_i curRd left out hpc
    split at hstep
    · rename_i hdone
      cases hstep
      rw [hpc, hdone] at hconsumer
      obtain ⟨hcur, v, hv, hagree⟩ := hconsumer
      refine h.setConsumer ?_
      rw [hagree.eq]
      exact hv
    · cases hstep
      exact h.copy hpc cells
  · rename_i out hpc
    cases hstep
    exact h.advanceRd hpc

theorem inv_step {a : Action n} (h : Inv s) (hstep : step s a = some t) : Inv t := by
  cases a with
  | push v =>
      simp only [step] at hstep
      split at hstep <;> cases hstep <;> exact h.setProducer trivial
  | producer cells => exact inv_producerStep h hstep
  | pop =>
      simp only [step] at hstep
      split at hstep <;> cases hstep <;> exact h.setConsumer trivial
  | consumer cells => exact inv_consumerStep h hstep

theorem Inv.fifo (h : Inv s) : ExactFifo s where
  inOrder := h.inOrder
  pushFails := by
    intro v curWt cells t hpc hstep
    have hproducer := h.producer
    rw [hpc] at hproducer
    rw [← h.full_iff hproducer]
    simp only [producerStep, hpc] at hstep
    split at hstep
    · rename_i hfull
      cases hstep
      exact iff_of_true rfl hfull
    · rename_i hfull
      cases hstep
      exact iff_of_false nofun hfull
  popFails := by
    intro curRd cells t hpc hstep
    have hconsumer := h.consumer
    rw [hpc] at hconsumer
    rw [← h.empty_iff hconsumer]
    simp only [consumerStep, hpc] at hstep
    split at hstep
    · rename_i hempty
      cases hstep
      exact iff_of_true rfl hempty
    · rename_i hempty
      cases hstep
      exact iff_of_false nofun hempty
  notWritten := by
    intro i hslot
    have hproducer := h.producer
    cases hp : s.producer with
    | write v curWt left =>
        rw [hp] at hproducer hslot
        obtain rfl := Option.some.inj hslot
        exact not_holds hproducer.2.1 hproducer.1
    | _ =>
        rw [hp] at hslot
        cases hslot

end

/-- **An exact FIFO.**  In every state that a run reaches the ring is a FIFO of 255 values. -/
theorem exactFifo {actions : List (Action n)} {s : State n} (hrun : machine.run actions = some s) :
    ExactFifo s :=
  have hinv : Inv s := Machine.invariant (M := machine) inv_init (fun _ _ _ => inv_step) hrun
  hinv.fifo

/-- A value of one byte goes through the ring; the first `pop` finds none, since it is not yet
published. -/
private def oneByte : List (Action 1) :=
  [.push fun _ => 7, .producer [], .producer [], .producer [Fin.last 0], .pop, .consumer [],
    .consumer [], .producer [], .producer [], .pop, .consumer [], .consumer [],
    .consumer [Fin.last 0], .consumer [], .consumer []]

theorem exactFifo_oneByte :
    ∃ s, machine.run oneByte = some s ∧ s.popped.map (· 0) = [7] ∧ ExactFifo s :=
  ⟨_, rfl, rfl, exactFifo (show machine.run oneByte = some _ from rfl)⟩

end DzIpc.LibIpc.UnicastRing
