import DzIpc.Library.Machine
import DzIpc.LibIpc.Ring

/-!
# Who owns which bit of the connections

A receiver keeps the bit it was given in its own `connected_`, and the channel keeps the word
of all bits given out.  Receivers connect and disconnect, a receiver's process may be gone at
any time, and the publisher clears the bits of receivers it takes to be gone
(`disconnect_receivers`).  A receiver whose bit was cleared is not told.

* `Inv` links the words the receivers keep with the word of the channel: what a live receiver
  keeps is nothing, or a single bit of the channel, and no two of them keep the same.
* `ownBits_of_guarded` is the result for publishers that only clear bits of the dead, and
  `shared_bit` a run in which one bit ends up with two receivers.
-/

namespace DzIpc.LibIpc

/-- `detail_impl::disconnect_receivers`. -/
def Ring.disconnectReceivers {D : Type*} (q : Ring D) (ccIds : Cc) : Ring D :=
  if ccIds = 0#32 then q else { q with cc := q.cc &&& ~~~ccIds }

namespace Connections

variable {D : Type*}

/-! ## The channel and its receivers -/

/-- A receiver's queue, and whether its process is still there. -/
structure Receiver where
  queue : Queue
  alive : Bool
  deriving DecidableEq

/-- The ring and every receiver that ever opened it. -/
structure State (D : Type*) where
  ring : Ring D
  receivers : List Receiver

inductive Action where
  | openQueue
  | connect (i : ℕ)
  | disconnect (i : ℕ)
  /-- The process of a receiver ends without a disconnect. -/
  | crash (i : ℕ)
  | disconnectReceivers (ccIds : Cc)

/-- An operation of one live receiver on the ring. -/
def State.act (s : State D) (i : ℕ) (op : Ring D → Queue → Ring D × Queue) : Option (State D) :=
  match s.receivers[i]? with
  | some ⟨r, true⟩ =>
      some ⟨(op s.ring r).1, s.receivers.set i ⟨(op s.ring r).2, true⟩⟩
  | _ => none

def step (s : State D) : Action → Option (State D)
  | .openQueue => some { s with receivers := s.receivers ++ [⟨⟨0#32, 0#32⟩, true⟩] }
  | .connect i => s.act i Ring.connect
  | .disconnect i => s.act i Ring.disconnect
  | .crash i =>
      match s.receivers[i]? with
      | some ⟨r, true⟩ => some { s with receivers := s.receivers.set i ⟨r, false⟩ }
      | _ => none
  | .disconnectReceivers ccIds => some { s with ring := s.ring.disconnectReceivers ccIds }

/-- A channel without receivers. -/
def machine (blank : D) : Machine (State D) Action :=
  { init := ⟨Ring.zeroed blank, []⟩, step := step }

/-! ## The claim and the condition -/

/-- A pop or a disconnect of the one receiver leaves every bit of the other alone. -/
structure Apart (q : Ring D) (a b : Queue) : Prop where
  ne : a.connected ≠ b.connected
  single : Mask.Single a.connected
  disconnect : (q.disconnect a).1.cc &&& b.connected = q.cc &&& b.connected
  pop : ∀ slot, ((q.pop a).2.1.elems slot).rem &&& b.connected
    = (q.elems slot).rem &&& b.connected

/-- Any two live receivers that are connected have bits of their own. -/
def OwnBits (s : State D) : Prop :=
  ∀ (i j : ℕ) (a b : Queue), s.receivers[i]? = some ⟨a, true⟩ →
    s.receivers[j]? = some ⟨b, true⟩ → i ≠ j → s.ring.isConnected a = true →
    s.ring.isConnected b = true → Apart s.ring a b

/-- Only bits of readers known to be gone are cleared. -/
def OnlyDead (s : State D) : Action → Prop
  | .disconnectReceivers ccIds =>
      ∀ r ∈ s.receivers, r.alive = true → r.queue.connected &&& ccIds = 0#32
  | _ => True

instance : ∀ (s : State D) (a : Action), Decidable (OnlyDead s a)
  | s, .disconnectReceivers ccIds =>
      inferInstanceAs (Decidable (∀ r ∈ s.receivers, r.alive = true →
        r.queue.connected &&& ccIds = 0#32))
  | _, .openQueue | _, .connect _ | _, .disconnect _ | _, .crash _ =>
      inferInstanceAs (Decidable True)

/-- What a live receiver keeps is nothing, or a single bit that the channel has given out. -/
def Held (cc my : Cc) : Prop := my = 0#32 ∨ Mask.Single my ∧ Mask.Within my cc

/-- The invariant of channels whose publisher only clears bits of the dead. -/
structure Inv (s : State D) : Prop where
  held : ∀ {i : ℕ} {r : Queue}, s.receivers[i]? = some ⟨r, true⟩ → Held s.ring.cc r.connected
  apart : ∀ {i j : ℕ} {a b : Queue}, s.receivers[i]? = some ⟨a, true⟩ →
    s.receivers[j]? = some ⟨b, true⟩ → i ≠ j → a.connected &&& b.connected = 0#32

/-! ## What one operation does to a word that another receiver keeps -/

theorem Held.mono {cc cc' my : Cc} (h : Held cc my) (hcc : Mask.Within my cc → Mask.Within my cc') :
    Held cc' my := by
  rcases h with hnone | ⟨hsingle, hwithin⟩
  · exact .inl hnone
  · exact .inr ⟨hsingle, hcc hwithin⟩

/-- A live receiver that keeps a bit is connected, and the other way round. -/
theorem Held.isConnected_iff {q : Ring D} {r : Queue} (h : Held q.cc r.connected) :
    q.isConnected r = true ↔ r.connected ≠ 0#32 := by
  rw [Ring.isConnected_iff]
  rcases h with hnone | ⟨hsingle, hwithin⟩
  · simp [hnone]
  · refine ⟨fun _ => hsingle.ne_zero, fun _ hzero => hsingle.ne_zero ?_⟩
    rw [BitVec.and_comm] at hzero
    have hself : Mask.Within r.connected (r.connected &&& q.cc) :=
      Mask.within_and.mpr ⟨Mask.Within.refl _, hwithin⟩
    rw [hzero] at hself
    exact hself.eq_zero

/-- An operation gives its receiver nothing or a bit of the channel, and keeps the words that
had nothing in common with what the receiver kept. -/
structure Respects (q : Ring D) (r : Queue) (next : Ring D × Queue) : Prop where
  held : Held next.1.cc next.2.connected
  others : ∀ my, Mask.Within my q.cc → r.connected &&& my = 0#32 →
    Mask.Within my next.1.cc ∧ next.2.connected &&& my = 0#32

theorem connect_respects {q : Ring D} {r : Queue} (h : Held q.cc r.connected) :
    Respects q r (q.connect r) := by
  rcases q.connect_cases r with ⟨-, heq⟩ | ⟨-, heq⟩ | ⟨id, -, hsingle, hfree, heq⟩
  case inl =>
    rw [heq]
    exact ⟨h, fun my hmy hapart => ⟨hmy, hapart⟩⟩
  case inr.inl =>
    rw [heq]
    exact ⟨.inl rfl, fun my hmy _ => ⟨hmy, BitVec.zero_and⟩⟩
  case inr.inr =>
    rw [heq]
    have hleft : ∀ m : Cc, Mask.Within m q.cc → Mask.Within m (q.cc ||| id) := by
      intro m hm
      rw [Mask.within_iff] at hm ⊢
      intro i hi
      simp [hm i hi]
    refine ⟨.inr ⟨hsingle, ?_⟩, fun my hmy _ => ⟨hleft my hmy, ?_⟩⟩
    · rw [Mask.within_iff]
      intro i hi
      simp [hi]
    · rw [BitVec.and_comm]
      exact hmy.disjoint_mono hfree

theorem disconnect_respects {q : Ring D} {r : Queue} (h : Held q.cc r.connected) :
    Respects q r (q.disconnect r) := by
  unfold Ring.disconnect
  split
  · refine ⟨.inl rfl, fun my hmy hapart => ⟨?_, BitVec.zero_and⟩⟩
    rw [Mask.within_and, Mask.within_not, BitVec.and_comm]
    exact ⟨hmy, hapart⟩
  · exact ⟨h, fun my hmy hapart => ⟨hmy, hapart⟩⟩

/-! ## The invariant -/

section

variable {s t : State D}

/-- What stands at one place of the receivers after an operation of a live receiver. -/
private theorem getElem?_act {i j : ℕ} {r a : Queue} {alive : Bool}
    (h : (s.receivers.set i ⟨r, alive⟩)[j]? = some ⟨a, true⟩) :
    j = i ∧ a = r ∧ alive = true ∨ j ≠ i ∧ s.receivers[j]? = some ⟨a, true⟩ := by
  rw [List.getElem?_set] at h
  by_cases hij : i = j
  · rw [if_pos hij] at h
    split at h
    · simp only [Option.some.injEq, Receiver.mk.injEq] at h
      exact .inl ⟨hij.symm, h.1.symm, h.2⟩
    · cases h
  · rw [if_neg hij] at h
    exact .inr ⟨fun hji => hij hji.symm, h⟩

theorem Inv.act (h : Inv s) {i : ℕ} {op : Ring D → Queue → Ring D × Queue}
    (hop : ∀ r, Held s.ring.cc r.connected → Respects s.ring r (op s.ring r))
    (hstep : s.act i op = some t) : Inv t := by
  unfold State.act at hstep
  split at hstep
  · rename_i r hr
    cases hstep
    have hnext := hop r (h.held hr)
    -- what another receiver keeps is left alone, unless it is nothing anyway
    have hother : ∀ {j : ℕ} {a : Queue}, j ≠ i → s.receivers[j]? = some ⟨a, true⟩ →
        Held (op s.ring r).1.cc a.connected ∧ (op s.ring r).2.connected &&& a.connected = 0#32 := by
      intro j a hj ha
      have hapart := h.apart hr ha (Ne.symm hj)
      rcases h.held ha with hnone | ⟨hsingle, hwithin⟩
      · exact ⟨.inl hnone, by rw [hnone, BitVec.and_zero]⟩
      · obtain ⟨hkept, hdisjoint⟩ := hnext.others a.connected hwithin hapart
        exact ⟨.inr ⟨hsingle, hkept⟩, hdisjoint⟩
    constructor
    case held =>
      intro j a ha
      rcases getElem?_act ha with ⟨-, rfl, -⟩ | ⟨hj, ha⟩
      · exact hnext.held
      · exact (hother hj ha).1
    case apart =>
      intro j k a b ha hb hjk
      rcases getElem?_act ha with ⟨rfl, rfl, -⟩ | ⟨hj, hold⟩
      · rcases getElem?_act hb with ⟨rfl, -, -⟩ | ⟨hk, hold⟩
        · exact absurd rfl hjk
        · exact (hother hk hold).2
      · rcases getElem?_act hb with ⟨rfl, rfl, -⟩ | ⟨hk, hold'⟩
        · rw [BitVec.and_comm]
          exact (hother hj hold).2
        · exact h.apart hold hold' hjk
  · cases hstep

/-- The dead keep nothing that counts. -/
theorem Inv.crash (h : Inv s) {i : ℕ} {r : Queue} :
    Inv { s with receivers := s.receivers.set i ⟨r, false⟩ } := by
  have hlive : ∀ {j : ℕ} {a : Queue}, (s.receivers.set i ⟨r, false⟩)[j]? = some ⟨a, true⟩ →
      s.receivers[j]? = some ⟨a, true⟩ := by
    intro j a ha
    rcases getElem?_act ha with ⟨-, -, hfalse⟩ | ⟨-, ha⟩
    · cases hfalse
    · exact ha
  exact ⟨fun ha => h.held (hlive ha), fun ha hb => h.apart (hlive ha) (hlive hb)⟩

theorem Inv.openQueue (h : Inv s) :
    Inv { s with receivers := s.receivers ++ [⟨⟨0#32, 0#32⟩, true⟩] } := by
  have hplace : ∀ {j : ℕ} {a : Queue},
      (s.receivers ++ [(⟨⟨0#32, 0#32⟩, true⟩ : Receiver)])[j]? = some ⟨a, true⟩ →
      s.receivers[j]? = some ⟨a, true⟩ ∨ j = s.receivers.length ∧ a.connected = 0#32 := by
    intro j a ha
    rw [List.getElem?_append] at ha
    split at ha
    · exact .inl ha
    · rename_i hj
      rw [List.getElem?_singleton] at ha
      split at ha
      · simp only [Option.some.injEq, Receiver.mk.injEq] at ha
        exact .inr ⟨by omega, by rw [← ha.1]⟩
      · cases ha
  constructor
  case held =>
    intro j a ha
    rcases hplace ha with hold | ⟨-, hnone⟩
    · exact h.held hold
    · exact .inl hnone
  case apart =>
    intro j k a b ha hb hjk
    rcases hplace ha with hold | ⟨hj, hnone⟩
    · rcases hplace hb with hold' | ⟨-, hnone⟩
      · exact h.apart hold hold' hjk
      · rw [hnone, BitVec.and_zero]
    · rw [hnone, BitVec.zero_and]

/-- Clearing bits that no live receiver keeps. -/
theorem Inv.disconnectReceivers (h : Inv s) {ccIds : Cc}
    (hdead : OnlyDead s (.disconnectReceivers ccIds)) :
    Inv { s with ring := s.ring.disconnectReceivers ccIds } := by
  have hheld : ∀ {i : ℕ} {r : Queue}, s.receivers[i]? = some ⟨r, true⟩ →
      Held (s.ring.cc &&& ~~~ccIds) r.connected := fun hr =>
    (h.held hr).mono fun hwithin => Mask.within_and.mpr
      ⟨hwithin, Mask.within_not.mpr (hdead _ (List.mem_of_getElem? hr) rfl)⟩
  refine ⟨fun hr => ?_, h.apart⟩
  unfold Ring.disconnectReceivers
  split
  · exact h.held hr
  · exact hheld hr

theorem Inv.step (h : Inv s) {a : Action} (hdead : OnlyDead s a) (hstep : step s a = some t) :
    Inv t := by
  cases a with
  | openQueue =>
      cases hstep
      exact h.openQueue
  | connect i => exact h.act (fun _ => connect_respects) hstep
  | disconnect i => exact h.act (fun _ => disconnect_respects) hstep
  | crash i =>
      simp only [Connections.step] at hstep
      split at hstep
      · cases hstep
        exact h.crash
      · cases hstep
  | disconnectReceivers ccIds =>
      cases hstep
      exact h.disconnectReceivers hdead

/-- Clearing the one word does not touch a word disjoint from it. -/
private theorem and_not_and {a b : Cc} (word : Cc) (h : a &&& b = 0#32) :
    (word &&& ~~~a) &&& b = word &&& b := by
  rw [BitVec.and_assoc]
  congr 1
  have hwithin : Mask.Within b (~~~a) := by
    rw [Mask.within_not, BitVec.and_comm]
    exact h
  apply BitVec.eq_of_getLsbD_eq
  intro i _
  rw [BitVec.getLsbD_and]
  cases hb : b.getLsbD i with
  | false => simp
  | true => simp [(Mask.within_iff b _).mp hwithin i hb]

theorem Inv.ownBits (h : Inv s) : OwnBits s := by
  intro i j a b ha hb hij hconna hconnb
  have hapart := h.apart ha hb hij
  have hsingle : Mask.Single a.connected := by
    rcases h.held ha with hnone | ⟨hsingle, -⟩
    · exact absurd hnone ((h.held ha).isConnected_iff.mp hconna)
    · exact hsingle
  constructor
  case ne =>
    intro heq
    rw [heq, BitVec.and_self] at hapart
    exact (h.held hb).isConnected_iff.mp hconnb hapart
  case single => exact hsingle
  case disconnect =>
    rw [Ring.disconnect, if_pos hconna]
    exact and_not_and _ hapart
  case pop =>
    intro slot
    rcases hpop : s.ring.pop a with ⟨_ | ⟨d, writable⟩, q', r'⟩
    · rw [(Ring.pop_none hpop).1]
    · obtain ⟨k, cur, -, -, -, rfl, -⟩ := Ring.pop_some hsingle.ne_zero hpop
      by_cases hslot : slot = k
      · rw [hslot, Ring.clear_elems_self]
        exact and_not_and _ hapart
      · rw [Ring.clear_elems_of_ne _ _ hslot]

end

/-! ## The result -/

/-- **Connected receivers own distinct bits.**  In every state of a run whose evictions name
only bits of the dead, two connected receivers have different bits, and no pop or disconnect
of the one touches the other's. -/
theorem ownBits_of_guarded (blank : D) {actions : List Action} {s : State D}
    (hguarded : (machine blank).Guarded OnlyDead actions)
    (hrun : (machine blank).run actions = some s) : OwnBits s := by
  have hinit : Inv (machine blank).init := ⟨nofun, nofun⟩
  have hinv : Inv s := Machine.invariant_of_guarded hinit
    (fun _ _ _ hs hdead hstep => hs.step hdead hstep) hguarded hrun
  exact hinv.ownBits

/-- A receiver dies, its bit is cleared, and two others connect; one of them leaves. -/
def properEviction : List Action :=
  [.openQueue, .connect 0, .crash 0, .disconnectReceivers 1#32, .openQueue, .openQueue,
    .connect 1, .connect 2]

theorem ownBits_properEviction :
    ∃ s, (machine ()).run properEviction = some s ∧ OwnBits s ∧ s.ring.cc = 3#32 := by
  obtain ⟨s, hrun, hcc⟩ := Machine.exists_of_any (M := machine ())
    (P := fun s => s.ring.cc = 3#32) (show ((machine ()).run properEviction).any _ = true by decide)
  have hguarded : (machine ()).Guarded OnlyDead properEviction := by decide
  exact ⟨s, hrun, ownBits_of_guarded () hguarded hrun, hcc⟩

/-- A receiver that only missed its heartbeats is evicted, and another one connects. -/
def falseEviction : List Action :=
  [.openQueue, .connect 0, .disconnectReceivers 1#32, .openQueue, .connect 1]

/-- Two live receivers are connected with one bit, and the one's disconnect cuts off the
other. -/
theorem shared_bit : ∃ s : State Unit, (machine ()).run falseEviction = some s ∧ ¬ OwnBits s := by
  obtain ⟨s, hrun, hshared⟩ := Machine.exists_of_any (M := machine ())
    (P := fun s => s.receivers = [⟨⟨1#32, 0#32⟩, true⟩, ⟨⟨1#32, 0#32⟩, true⟩] ∧ s.ring.cc = 1#32)
    (show ((machine ()).run falseEviction).any _ = true by decide)
  refine ⟨s, hrun, fun hown => ?_⟩
  have hconn : s.ring.isConnected ⟨1#32, 0#32⟩ = true := by
    rw [Ring.isConnected_iff, hshared.2]
    decide
  exact (hown 0 1 _ _ (by rw [hshared.1]; rfl) (by rw [hshared.1]; rfl) (by decide) hconn
    hconn).ne rfl

end Connections

end DzIpc.LibIpc
