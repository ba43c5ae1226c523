import DzIpc.Control.TopicControl
import DzIpc.Library.Machine

/-!
# The peer slots of a topic

Subscribers take a slot of the control segment, refresh its heartbeat and give it back; the
publisher reaps the slots with old heartbeats and, when it rebuilds, clears all of them.  A
subscriber knows its slot by the index alone.  Every load and store of a slot's field is a step;
a subscriber may rest anywhere for any time and go on, or die.

The owner of a slot, the owner's last heartbeat, the stores that hit a slot of somebody else and
the slots reaped too early are history variables.

* `Inv` holds while nobody's slot is taken away: a subscriber that lives and has an index is
  the owner of that slot.
* `slotsSafe_of_guarded` is the result, and `slot_given_twice` a run in which a subscriber rests
  too long.
-/

namespace DzIpc.Control.PeerSlots

abbrev Slot := Fin maxPeerSlots

/-! ## The parties -/

/-- The fields of a slot in the order in which they are cleared. -/
inductive Field where
  | ccId
  | heartbeat
  | pid
  | generation
  | inUse
  deriving DecidableEq, Repr

def Field.next : Field → Option Field
  | .ccId => some .heartbeat
  | .heartbeat => some .pid
  | .pid => some .generation
  | .generation => some .inUse
  | .inUse => none

theorem Field.exists_next {f : Field} (hf : f ≠ .inUse) : ∃ f', f.next = some f' := by
  cases f
  case inUse => exact absurd rfl hf
  all_goals exact ⟨_, rfl⟩

/-- Store zero in a field. -/
def clearField (p : PeerSlot) : Field → PeerSlot
  | .ccId => { p with ccId := 0#32 }
  | .heartbeat => { p with heartbeatNs := 0 }
  | .pid => { p with pid := 0 }
  | .generation => { p with generation := 0#32 }
  | .inUse => { p with inUse := false }

/-- Where a subscriber is; `k` is the index it goes by. -/
inductive SubPc where
  | idle
  -- `acquire_peer_slot`
  | cas (k : Slot) (generation ccId : BitVec 32)
  | storeCcId (k : Slot) (generation ccId : BitVec 32)
  | storePid (k : Slot) (generation : BitVec 32)
  | storeGeneration (k : Slot) (generation : BitVec 32)
  /-- The end of `acquire_peer_slot`, or `peer_heartbeat`. -/
  | readClock (k : Slot)
  | storeHeartbeat (k : Slot) (now : ℤ)
  | holding (k : Slot)
  /-- `release_peer_slot` -/
  | releasing (k : Slot) (f : Field)
  deriving DecidableEq, Repr

/-- The index a subscriber holds. -/
def SubPc.slot : SubPc → Option Slot
  | .idle | .cas _ _ _ => none
  | .storeCcId k _ _ | .storePid k _ | .storeGeneration k _ | .readClock k | .storeHeartbeat k _
  | .holding k | .releasing k _ => some k

structure Sub where
  pid : ℤ
  alive : Bool
  pc : SubPc
  deriving DecidableEq, Repr

/-- Where the publisher is; `now` is the time at which it began to collect. -/
inductive PubPc where
  | idle
  -- `collect_stale_peers`
  | loadInUse (k : Slot) (now : ℤ)
  | loadCcId (k : Slot) (now : ℤ)
  | loadHeartbeat (k : Slot) (now : ℤ) (ccId : BitVec 32)
  | reap (k : Slot) (now : ℤ) (f : Field)
  /-- `clear_all_peer_slots` -/
  | wipe (k : Slot) (f : Field)
  deriving DecidableEq, Repr

structure State where
  peers : Slot → PeerSlot
  time : ℤ
  subs : List Sub
  pub : PubPc
  /-- What `collect_stale_peers` has gathered. -/
  stale : BitVec 32
  /-- To whom a slot was last given. -/
  owner : Slot → Option ℕ
  /-- The owner's last heartbeat. -/
  beat : Slot → Option ℤ
  /-- Stores of a subscriber in a slot that belonged to another. -/
  intrusions : List (ℕ × Slot)
  /-- Slots reaped while the owner's last heartbeat was young. -/
  early : List Slot

inductive Action where
  | join (pid : ℤ)
  | acquire (i : ℕ) (generation ccId : BitVec 32)
  | heartbeat (i : ℕ)
  | release (i : ℕ)
  | crash (i : ℕ)
  /-- The next access of a subscriber. -/
  | access (i : ℕ)
  | collect
  | clearAll
  /-- The next access of the publisher. -/
  | publisher
  | tick (now : ℤ)

/-- The slot after this one. -/
def Slot.succ? (k : Slot) : Option Slot :=
  if h : k.val + 1 < maxPeerSlots then some ⟨k.val + 1, h⟩ else none

def firstSlot : Slot := ⟨0, by decide⟩

def State.setPeer (s : State) (k : Slot) (p : PeerSlot) : State :=
  { s with peers := Function.update s.peers k p }

def State.setSub (s : State) (i : ℕ) (v : Sub) (pc : SubPc) : State :=
  { s with subs := s.subs.set i { v with pc := pc } }

/-- Note whether a store of a subscriber hits the slot of another. -/
def State.noteStore (s : State) (i : ℕ) (k : Slot) : State :=
  if s.owner k = none ∨ s.owner k = some i then s
  else { s with intrusions := (i, k) :: s.intrusions }

/-- Note whether a slot is reaped while its owner's last heartbeat is young. -/
def State.noteReap (s : State) (timeout : ℤ) (k : Slot) (now : ℤ) : State :=
  match s.owner k, s.beat k with
  | some _, some beat => if now - beat < timeout then { s with early := k :: s.early } else s
  | _, _ => s

/-- Clear one field of a slot; without `in_use` it belongs to nobody. -/
def State.clear (s : State) (k : Slot) (f : Field) : State :=
  let s := s.setPeer k (clearField (s.peers k) f)
  if f = .inUse then { s with owner := Function.update s.owner k none } else s

/-- The next access of a subscriber. -/
def subAccess (s : State) (i : ℕ) (v : Sub) : Option State :=
  match v.pc with
  | .idle | .holding _ => none
  | .cas k generation ccId =>
      if (s.peers k).inUse then
        match Slot.succ? k with
        | some k => some (s.setSub i v (.cas k generation ccId))
        | none => some (s.setSub i v .idle)
      else
        some { (s.setPeer k { s.peers k with inUse := true }).setSub i v
            (.storeCcId k generation ccId) with
          owner := Function.update s.owner k (some i)
          beat := Function.update s.beat k none }
  | .storeCcId k generation ccId =>
      some ((s.setPeer k { s.peers k with ccId := ccId }).setSub i v (.storePid k generation))
  | .storePid k generation =>
      some ((s.setPeer k { s.peers k with pid := v.pid }).setSub i v
        (.storeGeneration k generation))
  | .storeGeneration k generation =>
      some ((s.setPeer k { s.peers k with generation := generation }).setSub i v (.readClock k))
  | .readClock k => some (s.setSub i v (.storeHeartbeat k s.time))
  | .storeHeartbeat k now =>
      let s := s.noteStore i k
      some { (s.setPeer k { s.peers k with heartbeatNs := now }).setSub i v (.holding k) with
        beat := if s.owner k = some i then Function.update s.beat k (some now) else s.beat }
  | .releasing k f =>
      let s := (s.noteStore i k).clear k f
      match f.next with
      | some f => some (s.setSub i v (.releasing k f))
      | none => some (s.setSub i v .idle)

/-- Go on to the next slot, or end. -/
def State.nextSlot (s : State) (k : Slot) (pc : Slot → PubPc) : State :=
  { s with pub := (Slot.succ? k).elim .idle pc }

/-- The next access of the publisher. -/
def pubAccess (timeout : ℤ) (s : State) : Option State :=
  match s.pub with
  | .idle => none
  | .loadInUse k now =>
      if (s.peers k).inUse then some { s with pub := .loadCcId k now }
      else some (s.nextSlot k fun k => .loadInUse k now)
  | .loadCcId k now => some { s with pub := .loadHeartbeat k now (s.peers k).ccId }
  | .loadHeartbeat k now ccId =>
      let hb := (s.peers k).heartbeatNs
      if ccId = 0#32 ∨ hb = 0 ∨ now - hb < timeout then
        some (s.nextSlot k fun k => .loadInUse k now)
      else
        some { s.noteReap timeout k now with stale := s.stale ||| ccId, pub := .reap k now .ccId }
  | .reap k now f =>
      let s := (s.noteReap timeout k now).clear k f
      match f.next with
      | some f => some { s with pub := .reap k now f }
      | none => some (s.nextSlot k fun k => .loadInUse k now)
  | .wipe k f =>
      let s := s.clear k f
      match f.next with
      | some f => some { s with pub := .wipe k f }
      | none => some (s.nextSlot k fun k => .wipe k .ccId)

/-- The subscriber at an index, if it lives. -/
def State.sub (s : State) (i : ℕ) : Option Sub :=
  match s.subs[i]? with
  | some v => if v.alive then some v else none
  | none => none

def step (timeout : ℤ) (s : State) : Action → Option State
  | .join pid => some { s with subs := s.subs ++ [⟨pid, true, .idle⟩] }
  | .acquire i generation ccId =>
      match s.sub i with
      | some v =>
          if v.pc = .idle ∧ ccId ≠ 0#32 then some (s.setSub i v (.cas firstSlot generation ccId))
          else none
      | none => none
  | .heartbeat i =>
      match s.sub i with
      | some v =>
          match v.pc with
          | .holding k => some (s.setSub i v (.readClock k))
          | _ => none
      | none => none
  | .release i =>
      match s.sub i with
      | some v =>
          match v.pc with
          | .holding k => some (s.setSub i v (.releasing k .ccId))
          | _ => none
      | none => none
  | .crash i =>
      match s.sub i with
      | some v => some { s with subs := s.subs.set i { v with alive := false } }
      | none => none
  | .access i =>
      match s.sub i with
      | some v => subAccess s i v
      | none => none
  | .collect =>
      if s.pub = .idle ∧ 0 < timeout then
        some { s with pub := .loadInUse firstSlot s.time, stale := 0#32 }
      else none
  | .clearAll => if s.pub = .idle then some { s with pub := .wipe firstSlot .ccId } else none
  | .publisher => pubAccess timeout s
  | .tick now => if s.time ≤ now then some { s with time := now } else none

/-- A fresh control segment, nobody subscribed. -/
def machine (timeout : ℤ) : Machine State Action :=
  { init := ⟨fun _ => .free, 0, [], .idle, 0#32, fun _ => none, fun _ => none, [], []⟩
    step := step timeout }

/-! ## The claim and the condition -/

/-- Subscribers change their own slots only, no slot is reaped while its owner's heartbeat is
young, and no two living subscribers hold one index. -/
structure SlotsSafe (s : State) : Prop where
  own : s.intrusions = []
  old : s.early = []
  distinct : ∀ i j v w k, s.sub i = some v → s.sub j = some w → v.pc.slot = some k →
    w.pc.slot = some k → i = j

/-- No living subscriber holds the index. -/
def State.Vacant (s : State) (k : Slot) : Prop :=
  ∀ v ∈ s.subs, v.alive = true → v.pc.slot ≠ some k

instance (s : State) (k : Slot) : Decidable (s.Vacant k) :=
  inferInstanceAs (Decidable (∀ v ∈ s.subs, v.alive = true → v.pc.slot ≠ some k))

/-- The publisher finds a heartbeat too old only in a slot that the dead left in use, and clears
a slot when it rebuilds only where no living subscriber holds the index. -/
def MayTake (timeout : ℤ) (s : State) : PubPc → Prop
  | .loadHeartbeat k now _ =>
      (s.peers k).heartbeatNs = 0 ∨ now - (s.peers k).heartbeatNs < timeout ∨
        (s.peers k).inUse = true ∧ s.Vacant k
  | .wipe k _ => s.Vacant k
  | _ => True

instance (timeout : ℤ) (s : State) : ∀ pc : PubPc, Decidable (MayTake timeout s pc)
  | .loadHeartbeat k now _ => inferInstanceAs (Decidable
      ((s.peers k).heartbeatNs = 0 ∨ now - (s.peers k).heartbeatNs < timeout ∨
        (s.peers k).inUse = true ∧ s.Vacant k))
  | .wipe k _ => inferInstanceAs (Decidable (s.Vacant k))
  | .idle | .loadInUse _ _ | .loadCcId _ _ | .reap _ _ _ => inferInstanceAs (Decidable True)

def OnlyVacant (timeout : ℤ) (s : State) : Action → Prop
  | .publisher => MayTake timeout s s.pub
  | _ => True

instance (timeout : ℤ) : ∀ (s : State) (a : Action), Decidable (OnlyVacant timeout s a)
  | s, .publisher => inferInstanceAs (Decidable (MayTake timeout s s.pub))
  | _, .join _ | _, .acquire _ _ _ | _, .heartbeat _ | _, .release _ | _, .crash _
  | _, .access _ | _, .collect | _, .clearAll | _, .tick _ => inferInstanceAs (Decidable True)

/-! ## The invariant -/

/-- What the publisher has established about the slot it is reaping. -/
def Reaping (timeout : ℤ) (s : State) : Prop :=
  match s.pub with
  | .reap k now _ => (s.peers k).inUse = true ∧ s.Vacant k ∧
      ∀ beat, s.beat k = some beat → timeout ≤ now - beat
  | _ => True

structure Inv (timeout : ℤ) (s : State) : Prop where
  owns : ∀ {i v k}, s.sub i = some v → v.pc.slot = some k → s.owner k = some i
  used : ∀ {i k}, s.owner k = some i → (s.peers k).inUse = true
  beats : ∀ {k beat}, s.beat k = some beat →
    (s.peers k).heartbeatNs = beat ∨ (s.peers k).heartbeatNs = 0
  reaping : Reaping timeout s
  own : s.intrusions = []
  old : s.early = []

section

variable {s t : State} {timeout : ℤ} {i j : ℕ} {v w : Sub} {k : Slot}

theorem sub_eq_some (h : s.sub i = some v) : s.subs[i]? = some v ∧ v.alive = true := by
  unfold State.sub at h
  split at h
  · rename_i w hw
    split at h
    · obtain rfl := Option.some.inj h
      exact ⟨hw, ‹_›⟩
    · cases h
  · cases h

theorem sub_of_getElem? (hv : s.subs[i]? = some v) (halive : v.alive = true) :
    s.sub i = some v := by
  rw [State.sub, hv]
  exact if_pos halive

theorem sub_setSub (hi : s.sub i = some v) (pc : SubPc) (j : ℕ) :
    (s.setSub i v pc).sub j = if j = i then some { v with pc := pc } else s.sub j := by
  obtain ⟨hv, halive⟩ := sub_eq_some hi
  obtain ⟨hlt, -⟩ := List.getElem?_eq_some_iff.mp hv
  unfold State.sub State.setSub
  dsimp only
  by_cases hji : j = i
  · rw [hji, List.getElem?_set_self hlt, if_pos rfl]
    exact if_pos halive
  · rw [List.getElem?_set_ne (Ne.symm hji), if_neg hji]

/-- Nobody comes to hold an index by a step that gives none out. -/
theorem vacant_setSub (hi : s.sub i = some v) {pc : SubPc}
    (hslot : pc.slot = none ∨ pc.slot = v.pc.slot) (h : s.Vacant k) :
    (s.setSub i v pc).Vacant k := by
  obtain ⟨hv, halive⟩ := sub_eq_some hi
  intro w hw hlive
  rcases List.mem_or_eq_of_mem_set hw with hold | rfl
  · exact h w hold hlive
  · rcases hslot with hnone | hsame
    · rw [hnone]
      exact (Option.some_ne_none k).symm
    · rw [hsame]
      exact h v (List.mem_of_getElem? hv) halive

/-- A vacant index is held by no living subscriber. -/
theorem Vacant.absurd (h : s.Vacant k) (hi : s.sub i = some v) (hslot : v.pc.slot = some k) :
    False := by
  obtain ⟨hv, halive⟩ := sub_eq_some hi
  exact h v (List.mem_of_getElem? hv) halive hslot

/-- An index whose only holder gives it up is vacant. -/
theorem Inv.vacant_of_owner (h : Inv timeout s) (hi : s.sub i = some v) (howner : s.owner k = some i)
    {pc : SubPc} (hnone : pc.slot = none) : (s.setSub i v pc).Vacant k := by
  intro w hw hlive hslot
  obtain ⟨j, hj⟩ := List.mem_iff_getElem?.mp hw
  have hsub := sub_of_getElem? (s := s.setSub i v pc) hj hlive
  rw [sub_setSub hi] at hsub
  split at hsub
  · obtain rfl := Option.some.inj hsub
    rw [hnone] at hslot
    cases hslot
  · rename_i hji
    have hown := h.owns hsub hslot
    rw [howner] at hown
    exact hji (Option.some.inj hown).symm

theorem noteStore_eq (h : s.owner k = some i) : s.noteStore i k = s := by
  rw [State.noteStore, if_pos (.inr h)]

theorem noteReap_eq {now : ℤ} (h : ∀ beat, s.beat k = some beat → timeout ≤ now - beat) :
    s.noteReap timeout k now = s := by
  unfold State.noteReap
  split
  · rename_i beat _ hbeat
    exact if_neg (not_lt.mpr (h beat hbeat))
  · rfl

/-- What is established about the slot that is reaped stays so after a step of somebody else. -/
theorem Inv.keepReaping (h : Inv timeout s) (hpub : t.pub = s.pub)
    (hkeep : ∀ k now f, s.pub = .reap k now f → (s.peers k).inUse = true → s.Vacant k →
      (t.peers k).inUse = true ∧ t.Vacant k ∧ t.beat k = s.beat k) : Reaping timeout t := by
  have hold := h.reaping
  unfold Reaping at hold ⊢
  rw [hpub]
  cases hreap : s.pub
  case reap k now f =>
    rw [hreap] at hold
    obtain ⟨hused, hvacant, hbeat⟩ := hkeep k now f hreap hold.1 hold.2.1
    exact ⟨hused, hvacant, hbeat.symm ▸ hold.2.2⟩
  all_goals trivial

/-- A step of a subscriber that leaves the words the invariant reads alone. -/
theorem Inv.move (h : Inv timeout s) (hi : s.sub i = some v) {pc : SubPc}
    (hslot : pc.slot = none ∨ pc.slot = v.pc.slot) {peers : Slot → PeerSlot}
    (hpeers : ∀ k, (peers k).inUse = (s.peers k).inUse ∧
      (peers k).heartbeatNs = (s.peers k).heartbeatNs) :
    Inv timeout { s.setSub i v pc with peers := peers } := by
  constructor
  case owns =>
    intro j w k hj hk
    change (s.setSub i v pc).sub j = some w at hj
    rw [sub_setSub hi] at hj
    split at hj
    · rename_i hji
      obtain rfl := Option.some.inj hj
      rw [hji]
      rcases hslot with hnone | hsame
      · rw [hnone] at hk
        cases hk
      · exact h.owns hi (hsame ▸ hk)
    · exact h.owns hj hk
  case used =>
    intro j k hk
    exact (hpeers k).1.trans (h.used hk)
  case beats =>
    intro k beat hk
    change (peers k).heartbeatNs = beat ∨ (peers k).heartbeatNs = 0
    rw [(hpeers k).2]
    exact h.beats hk
  case reaping =>
    refine h.keepReaping (by rfl) ?_
    intro k now f _ hused hvacant
    exact ⟨(hpeers k).1.trans hused, vacant_setSub hi hslot hvacant, rfl⟩
  case own => exact h.own
  case old => exact h.old

/-- The heartbeat of an owner. -/
theorem Inv.beat (h : Inv timeout s) (hi : s.sub i = some v) (hslot : v.pc.slot = some k) (now : ℤ) :
    Inv timeout { (s.setPeer k { s.peers k with heartbeatNs := now }).setSub i v (.holding k) with
      beat := Function.update s.beat k (some now) } := by
  have howner := h.owns hi hslot
  have hpeers : ∀ k', ((Function.update s.peers k { s.peers k with heartbeatNs := now }) k').inUse =
      (s.peers k').inUse := by
    intro k'
    rw [Function.update_apply]
    split
    · rename_i hk
      rw [hk]
    · rfl
  constructor
  case owns =>
    intro j w k' hj hk
    change (s.setSub i v (.holding k)).sub j = some w at hj
    rw [sub_setSub hi] at hj
    split at hj
    · rename_i hji
      obtain rfl := Option.some.inj hj
      obtain rfl : k = k' := Option.some.inj hk
      rw [hji]
      exact howner
    · exact h.owns hj hk
  case used =>
    intro j k' hk
    exact (hpeers k').trans (h.used hk)
  case beats =>
    intro k' b hk
    let q : PeerSlot := { s.peers k with heartbeatNs := now }
    change Function.update s.beat k (some now) k' = some b at hk
    change (Function.update s.peers k q k').heartbeatNs = b ∨
      (Function.update s.peers k q k').heartbeatNs = 0
    rw [Function.update_apply] at hk ⊢
    split at hk
    · rw [if_pos ‹_›]
      exact .inl (Option.some.inj hk)
    · rw [if_neg ‹_›]
      exact h.beats hk
  case reaping =>
    refine h.keepReaping (by rfl) ?_
    intro k' now' f _ hused hvacant
    have hne : k' ≠ k := by
      rintro rfl
      exact Vacant.absurd hvacant hi hslot
    exact ⟨(hpeers k').trans hused, vacant_setSub hi (.inr hslot.symm) hvacant,
      Function.update_of_ne hne _ _⟩
  case own => exact h.own
  case old => exact h.old

/-- A slot that was free is given to a subscriber. -/
theorem Inv.take (h : Inv timeout s) (hi : s.sub i = some v) (hfree : (s.peers k).inUse = false)
    (generation ccId : BitVec 32) :
    Inv timeout { (s.setPeer k { s.peers k with inUse := true }).setSub i v
        (.storeCcId k generation ccId) with
      owner := Function.update s.owner k (some i)
      beat := Function.update s.beat k none } := by
  have hnobody : ∀ j, s.owner k ≠ some j := by
    intro j hj
    rw [h.used hj] at hfree
    cases hfree
  constructor
  case owns =>
    intro j w k' hj hk
    change (s.setSub i v (.storeCcId k generation ccId)).sub j = some w at hj
    change Function.update s.owner k (some i) k' = some j
    rw [sub_setSub hi] at hj
    split at hj
    · rename_i hji
      obtain rfl := Option.some.inj hj
      obtain rfl : k = k' := Option.some.inj hk
      rw [Function.update_self, hji]
    · have hown := h.owns hj hk
      have hne : k' ≠ k := by
        rintro rfl
        exact hnobody j hown
      rw [Function.update_of_ne hne]
      exact hown
  case used =>
    intro j k' hk
    change Function.update s.owner k (some i) k' = some j at hk
    change ((Function.update s.peers k _) k').inUse = true
    rw [Function.update_apply] at hk ⊢
    split at hk
    · rw [if_pos ‹_›]
    · rw [if_neg ‹_›]
      exact h.used hk
  case beats =>
    intro k' b hk
    let q : PeerSlot := { s.peers k with inUse := true }
    change Function.update s.beat k none k' = some b at hk
    change (Function.update s.peers k q k').heartbeatNs = b ∨
      (Function.update s.peers k q k').heartbeatNs = 0
    rw [Function.update_apply] at hk ⊢
    split at hk
    · cases hk
    · rw [if_neg ‹_›]
      exact h.beats hk
  case reaping =>
    refine h.keepReaping (by rfl) ?_
    intro k' now' f _ hused hvacant
    have hne : k' ≠ k := by
      rintro rfl
      rw [hused] at hfree
      cases hfree
    refine ⟨?_, ?_, Function.update_of_ne hne _ _⟩
    · change (Function.update s.peers k _ k').inUse = true
      rw [Function.update_of_ne hne]
      exact hused
    · intro w hw hlive
      rcases List.mem_or_eq_of_mem_set hw with hold' | rfl
      · exact hvacant w hold' hlive
      · exact fun hk => hne (Option.some.inj hk).symm
  case own => exact h.own
  case old => exact h.old

/-- Clearing a field of a slot; `in_use` only where no living subscriber holds the index. -/
theorem Inv.clear (h : Inv timeout s) {f : Field} (hvacant : f = .inUse → s.Vacant k)
    (hreaping : f = .inUse → Reaping timeout (s.clear k f)) : Inv timeout (s.clear k f) := by
  by_cases hf : f = .inUse
  · subst hf
    have hclear : s.clear k .inUse = { s with
        peers := Function.update s.peers k { s.peers k with inUse := false }
        owner := Function.update s.owner k none } := rfl
    have hreaping := hreaping rfl
    rw [hclear] at hreaping ⊢
    constructor
    case owns =>
      intro j w k' hj hk
      have hne : k' ≠ k := by
        rintro rfl
        exact Vacant.absurd (hvacant rfl) hj hk
      change Function.update s.owner k none k' = some j
      rw [Function.update_of_ne hne]
      exact h.owns hj hk
    case used =>
      intro j k' hk
      dsimp only at hk ⊢
      rw [Function.update_apply] at hk ⊢
      split at hk
      · cases hk
      · rw [if_neg ‹_›]
        exact h.used hk
    case beats =>
      intro k' b hk
      have hold := h.beats hk
      dsimp only
      rw [Function.update_apply]
      split
      · rename_i hkk
        rw [hkk] at hold
        exact hold
      · exact hold
    case reaping => exact hreaping
    case own => exact h.own
    case old => exact h.old
  · have hclear : s.clear k f =
        { s with peers := Function.update s.peers k (clearField (s.peers k) f) } := by
      unfold State.clear
      rw [if_neg hf]
      rfl
    have hused : (clearField (s.peers k) f).inUse = (s.peers k).inUse := by
      cases f
      case inUse => exact absurd rfl hf
      all_goals rfl
    have hbeat : (clearField (s.peers k) f).heartbeatNs = (s.peers k).heartbeatNs ∨
        (clearField (s.peers k) f).heartbeatNs = 0 := by
      cases f
      case heartbeat => exact .inr rfl
      all_goals exact .inl rfl
    have hpeers : ∀ k', (Function.update s.peers k (clearField (s.peers k) f) k').inUse =
        (s.peers k').inUse := by
      intro k'
      rw [Function.update_apply]
      split
      · rename_i hk
        rw [hk]
        exact hused
      · rfl
    rw [hclear]
    constructor
    case owns => exact h.owns
    case used => exact fun hk => (hpeers _).trans (h.used hk)
    case beats =>
      intro k' b hk
      have hold := h.beats hk
      dsimp only
      rw [Function.update_apply]
      split
      · rename_i hkk
        rw [hkk] at hold
        rcases hbeat with hsame | hzero
        · rw [hsame]
          exact hold
        · exact .inr hzero
      · exact hold
    case reaping =>
      refine h.keepReaping (by rfl) ?_
      intro k' now f' _ hused hvacant
      exact ⟨(hpeers k').trans hused, hvacant, rfl⟩
    case own => exact h.own
    case old => exact h.old

/-- The publisher moves on. -/
theorem Inv.publish (h : Inv timeout s) {pub : PubPc} {stale : BitVec 32}
    (hreaping : Reaping timeout { s with pub := pub, stale := stale }) :
    Inv timeout { s with pub := pub, stale := stale } :=
  ⟨h.owns, h.used, h.beats, hreaping, h.own, h.old⟩

theorem reaping_nextSlot (s : State) (k : Slot) (pc : Slot → PubPc)
    (hpc : ∀ k, ∀ t : State, t.pub = pc k → Reaping timeout t) :
    Reaping timeout (s.nextSlot k pc) := by
  unfold State.nextSlot
  cases Slot.succ? k with
  | none => trivial
  | some k => exact hpc k _ rfl

@[simp] theorem clear_sub (s : State) (k : Slot) (f : Field) (i : ℕ) :
    (s.clear k f).sub i = s.sub i := by
  unfold State.clear
  split <;> rfl

@[simp] theorem clear_pub (s : State) (k : Slot) (f : Field) : (s.clear k f).pub = s.pub := by
  unfold State.clear
  split <;> rfl

/-- A slot given back is not the one that is being reaped. -/
theorem Inv.reaping_clear (h : Inv timeout s) (hother : ∀ now f, s.pub = .reap k now f → False) :
    Reaping timeout (s.clear k .inUse) := by
  refine h.keepReaping (by rfl) ?_
  intro k' now f hpub hused hvacant
  have hne : k' ≠ k := by
    rintro rfl
    exact hother now f hpub
  refine ⟨?_, hvacant, rfl⟩
  change (Function.update s.peers k { s.peers k with inUse := false } k').inUse = true
  rw [Function.update_of_ne hne]
  exact hused

theorem Inv.subAccess (h : Inv timeout s) (hi : s.sub i = some v)
    (hstep : subAccess s i v = some t) : Inv timeout t := by
  unfold PeerSlots.subAccess at hstep
  cases hpc : v.pc
  all_goals simp only [hpc] at hstep
  case idle | holding => cases hstep
  case cas k generation ccId =>
    split at hstep
    · split at hstep
      all_goals
        cases hstep
        exact h.move hi (.inl rfl) fun _ => ⟨rfl, rfl⟩
    · rename_i hfree
      cases hstep
      exact h.take hi (by simpa using hfree) generation ccId
  case readClock k =>
    cases hstep
    exact h.move hi (.inr (by rw [hpc]; rfl)) fun _ => ⟨rfl, rfl⟩
  case storeHeartbeat k now =>
    have hslot : v.pc.slot = some k := by rw [hpc]; rfl
    have howner := h.owns hi hslot
    rw [noteStore_eq howner, if_pos howner] at hstep
    cases hstep
    exact h.beat hi hslot now
  case releasing k f =>
    have hslot : v.pc.slot = some k := by rw [hpc]; rfl
    have howner := h.owns hi hslot
    rw [noteStore_eq howner] at hstep
    by_cases hf : f = .inUse
    · subst hf
      cases hstep
      -- the subscriber lets go of the index before the word says so
      have hidle : Inv timeout (s.setSub i v .idle) := h.move hi (.inl rfl) fun _ => ⟨rfl, rfl⟩
      have hclear : Inv timeout ((s.setSub i v .idle).clear k .inUse) := by
        refine hidle.clear (fun _ => h.vacant_of_owner hi howner rfl) fun _ => ?_
        refine hidle.reaping_clear fun now f hpub => ?_
        have hold := h.reaping
        rw [Reaping, show s.pub = _ from hpub] at hold
        exact Vacant.absurd hold.2.1 hi hslot
      exact hclear
    · have hclear : Inv timeout (s.clear k f) := h.clear (fun heq => absurd heq hf)
        fun heq => absurd heq hf
      have hsub : (s.clear k f).sub i = some v := by
        rw [clear_sub]
        exact hi
      obtain ⟨f', hf'⟩ := Field.exists_next hf
      simp only [hf'] at hstep
      cases hstep
      exact hclear.move hsub (.inr (by rw [hpc]; rfl)) fun _ => ⟨rfl, rfl⟩
  all_goals
    cases hstep
    refine h.move hi (.inr (by rw [hpc]; rfl)) fun k' => ?_
    rw [State.setPeer]
    dsimp only
    rw [Function.update_apply]
    split
    · rename_i hk
      rw [hk]
      exact ⟨rfl, rfl⟩
    · exact ⟨rfl, rfl⟩

/-- A heartbeat that is too old is the last one its owner gave. -/
theorem Inv.old_of_stale (h : Inv timeout s) {now : ℤ} (hset : (s.peers k).heartbeatNs ≠ 0)
    (hold : ¬ now - (s.peers k).heartbeatNs < timeout) (beat : ℤ) (hbeat : s.beat k = some beat) :
    timeout ≤ now - beat := by
  rcases h.beats hbeat with hsame | hzero
  · rw [← hsame]
    exact not_lt.mp hold
  · exact absurd hzero hset

theorem Inv.pubAccess (h : Inv timeout s) (hmay : MayTake timeout s s.pub)
    (hstep : pubAccess timeout s = some t) : Inv timeout t := by
  have hreaping := h.reaping
  unfold PeerSlots.pubAccess at hstep
  unfold Reaping at hreaping
  cases hpub : s.pub
  all_goals simp only [hpub] at hstep hmay hreaping
  case idle => cases hstep
  case loadInUse k now =>
    split at hstep
    · cases hstep
      exact h.publish trivial
    · cases hstep
      exact h.publish (reaping_nextSlot s k _ fun k t ht => by rw [Reaping, ht]; trivial)
  case loadCcId k now =>
    cases hstep
    exact h.publish trivial
  case loadHeartbeat k now ccId =>
    split at hstep
    · cases hstep
      exact h.publish (reaping_nextSlot s k _ fun k t ht => by rw [Reaping, ht]; trivial)
    · rename_i hstale
      simp only [not_or] at hstale
      obtain ⟨-, hset, hlate⟩ := hstale
      obtain ⟨hused, hvacant⟩ := (hmay.resolve_left hset).resolve_left hlate
      have hbeat := h.old_of_stale hset hlate
      rw [noteReap_eq hbeat] at hstep
      cases hstep
      exact h.publish ⟨hused, hvacant, hbeat⟩
  case reap k now f =>
    obtain ⟨hused, hvacant, hbeat⟩ := hreaping
    rw [noteReap_eq hbeat] at hstep
    by_cases hf : f = .inUse
    · subst hf
      cases hstep
      have hnext : Inv timeout (s.nextSlot k fun k => .loadInUse k now) :=
        h.publish (reaping_nextSlot s k _ fun k t ht => by rw [Reaping, ht]; trivial)
      refine hnext.clear (f := .inUse) (fun _ => hvacant) fun _ => ?_
      refine hnext.reaping_clear fun now' f' hreap => ?_
      unfold State.nextSlot at hreap
      cases hsucc : Slot.succ? k with
      | none => simp [hsucc] at hreap
      | some k' => simp [hsucc] at hreap
    · have hclear : Inv timeout (s.clear k f) := h.clear (fun heq => absurd heq hf)
        fun heq => absurd heq hf
      obtain ⟨f', hf'⟩ := Field.exists_next hf
      simp only [hf'] at hstep
      cases hstep
      have hold := hclear.reaping
      rw [Reaping, clear_pub, hpub] at hold
      exact hclear.publish hold
  case wipe k f =>
    by_cases hf : f = .inUse
    · subst hf
      cases hstep
      have hnext : Inv timeout (s.nextSlot k fun k => .wipe k .ccId) :=
        h.publish (reaping_nextSlot s k _ fun k t ht => by rw [Reaping, ht]; trivial)
      refine hnext.clear (f := .inUse) (fun _ => hmay) fun _ => ?_
      refine hnext.reaping_clear fun now' f' hreap => ?_
      unfold State.nextSlot at hreap
      cases hsucc : Slot.succ? k with
      | none => simp [hsucc] at hreap
      | some k' => simp [hsucc] at hreap
    · have hclear : Inv timeout (s.clear k f) := h.clear (fun heq => absurd heq hf)
        fun heq => absurd heq hf
      obtain ⟨f', hf'⟩ := Field.exists_next hf
      simp only [hf'] at hstep
      cases hstep
      exact hclear.publish trivial

/-- A state with no more living subscribers, and everything else as it was. -/
theorem Inv.fewer (h : Inv timeout s) {subs : List Sub}
    (hsub : ∀ {i v}, State.sub { s with subs := subs } i = some v →
      s.sub i = some v ∨ v.pc.slot = none) : Inv timeout { s with subs := subs } := by
  refine ⟨fun hi hslot => ?_, h.used, h.beats, ?_, h.own, h.old⟩
  · rcases hsub hi with hold | hnone
    · exact h.owns hold hslot
    · rw [hnone] at hslot
      cases hslot
  · refine h.keepReaping (by rfl) ?_
    intro k now f _ hused hvacant
    refine ⟨hused, fun w hw hlive hslot => ?_, rfl⟩
    obtain ⟨j, hj⟩ := List.mem_iff_getElem?.mp hw
    rcases hsub (sub_of_getElem? (s := { s with subs := subs }) hj hlive) with hbefore | hnone
    · exact Vacant.absurd hvacant hbefore hslot
    · rw [hnone] at hslot
      cases hslot

theorem Inv.step (h : Inv timeout s) {a : Action} (hmay : OnlyVacant timeout s a)
    (hstep : step timeout s a = some t) : Inv timeout t := by
  cases a with
  | join pid =>
      cases hstep
      refine h.fewer fun {i v} hi => ?_
      obtain ⟨hget, halive⟩ := sub_eq_some hi
      dsimp only at hget
      rw [List.getElem?_append] at hget
      split at hget
      · exact .inl (sub_of_getElem? hget halive)
      · rw [List.getElem?_singleton] at hget
        split at hget
        · obtain rfl := Option.some.inj hget
          exact .inr rfl
        · cases hget
  | crash i =>
      simp only [PeerSlots.step] at hstep
      split at hstep
      · rename_i v hi
        cases hstep
        refine h.fewer fun {j w} hj => ?_
        obtain ⟨hget, halive⟩ := sub_eq_some hj
        dsimp only at hget
        rw [List.getElem?_set] at hget
        split at hget
        · split at hget
          · obtain rfl := Option.some.inj hget
            cases halive
          · cases hget
        · exact .inl (sub_of_getElem? hget halive)
      · cases hstep
  | acquire i generation ccId =>
      simp only [PeerSlots.step] at hstep
      split at hstep
      · rename_i v hi
        split at hstep
        · cases hstep
          exact h.move hi (.inl rfl) fun _ => ⟨rfl, rfl⟩
        · cases hstep
      · cases hstep
  | heartbeat i =>
      simp only [PeerSlots.step] at hstep
      split at hstep
      · rename_i v hi
        split at hstep
        · rename_i k hpc
          cases hstep
          exact h.move hi (.inr (by rw [hpc]; rfl)) fun _ => ⟨rfl, rfl⟩
        · cases hstep
      · cases hstep
  | release i =>
      simp only [PeerSlots.step] at hstep
      split at hstep
      · rename_i v hi
        split at hstep
        · rename_i k hpc
          cases hstep
          exact h.move hi (.inr (by rw [hpc]; rfl)) fun _ => ⟨rfl, rfl⟩
        · cases hstep
      · cases hstep
  | access i =>
      simp only [PeerSlots.step] at hstep
      split at hstep
      · rename_i v hi
        exact h.subAccess hi hstep
      · cases hstep
  | collect =>
      simp only [PeerSlots.step] at hstep
      split at hstep
      · cases hstep
        exact h.publish trivial
      · cases hstep
  | clearAll =>
      simp only [PeerSlots.step] at hstep
      split at hstep
      · cases hstep
        exact h.publish trivial
      · cases hstep
  | publisher => exact h.pubAccess hmay hstep
  | tick now =>
      simp only [PeerSlots.step] at hstep
      split at hstep
      · cases hstep
        exact ⟨h.owns, h.used, h.beats, h.reaping, h.own, h.old⟩
      · cases hstep

theorem Inv.slotsSafe (h : Inv timeout s) : SlotsSafe s where
  own := h.own
  old := h.old
  distinct := fun i j v w k hi hj hv hw => by
    have hown := h.owns hi hv
    rw [h.owns hj hw] at hown
    exact (Option.some.inj hown).symm

end

/-! ## The result -/

/-- **Peer slots.**  In every state of a run in which the publisher takes away only the slots of
the dead, subscribers have changed their own slots only, no slot was reaped while its owner's
heartbeat was young, and no two living subscribers hold one index. -/
theorem slotsSafe_of_guarded (timeout : ℤ) {actions : List Action} {s : State}
    (hguarded : (machine timeout).Guarded (OnlyVacant timeout) actions)
    (hrun : (machine timeout).run actions = some s) : SlotsSafe s := by
  have hinit : Inv timeout (machine timeout).init :=
    ⟨nofun, nofun, nofun, trivial, rfl, rfl⟩
  have hinv : Inv timeout s := Machine.invariant_of_guarded hinit
    (fun _ _ _ hs hmay hstep => hs.step hmay hstep) hguarded hrun
  exact hinv.slotsSafe

/-- `kPeerDeadTimeoutNs`. -/
def peerDeadTimeoutNs : ℤ := 2000000000

/-- A subscriber takes the first slot. -/
def takes (i : ℕ) (ccId : BitVec 32) : List Action :=
  .acquire i 1#32 ccId :: List.replicate 6 (.access i)

/-- The publisher collects up to the end of the first slot. -/
def reapsFirst : List Action := .collect :: List.replicate 8 .publisher

/-- A subscriber dies, its slot is reaped, and another one takes it and gives it back. -/
def properReaping : List Action :=
  [.join 100, .join 200, .tick 1] ++ takes 0 1#32 ++ [.crash 0, .tick 3000000000] ++ reapsFirst ++
    takes 1 2#32 ++ [.heartbeat 1, .access 1, .access 1]

theorem slotsSafe_properReaping : ∃ s, (machine peerDeadTimeoutNs).run properReaping = some s ∧
    SlotsSafe s ∧ s.stale = 1#32 ∧ s.owner firstSlot = some 1 := by
  obtain ⟨s, hrun, hend⟩ := Machine.exists_of_any (M := machine peerDeadTimeoutNs)
    (P := fun s => s.stale = 1#32 ∧ s.owner firstSlot = some 1)
    (show ((machine peerDeadTimeoutNs).run properReaping).any _ = true by decide +kernel)
  have hguarded : (machine peerDeadTimeoutNs).Guarded (OnlyVacant peerDeadTimeoutNs)
      properReaping := by decide +kernel
  exact ⟨s, hrun, slotsSafe_of_guarded _ hguarded hrun, hend⟩

/-- The subscriber whose slot was reaped only rested; it goes on with its heartbeat. -/
def restedTooLong : List Action :=
  [.join 100, .join 200, .tick 1] ++ takes 0 1#32 ++ [.tick 3000000000] ++ reapsFirst ++
    takes 1 2#32 ++ [.heartbeat 0, .access 0, .access 0]

/-- Two living subscribers hold one index, and the first one's heartbeat is stored in the
second one's slot. -/
theorem slot_given_twice :
    ∃ s, (machine peerDeadTimeoutNs).run restedTooLong = some s ∧ ¬ SlotsSafe s := by
  obtain ⟨s, hrun, hintrusions⟩ := Machine.exists_of_any (M := machine peerDeadTimeoutNs)
    (P := fun s => s.intrusions = [(0, firstSlot)])
    (show ((machine peerDeadTimeoutNs).run restedTooLong).any _ = true by decide +kernel)
  refine ⟨s, hrun, fun hsafe => ?_⟩
  have hown := hsafe.own
  rw [hintrusions] at hown
  cases hown

end DzIpc.Control.PeerSlots
