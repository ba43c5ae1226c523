import DzIpc.Control.TopicControl
import DzIpc.Library.Machine

/-!
# Generations of a topic

Publishers and servers of one topic, one after the other or at once: each opens the control
segment, rebuilds the channel, serves, stops and takes its ring segments away.  Every store to
the control segment is a step, and so is every operation on the names of the ring segments; any
party may take the next one.  What subscribers do to `peer_count` is up to them.

* `Inv.put` is the lemma for a store that concerns neither the generation nor the ring.
* `generationsSafe_of_guarded` is the result for runs in which nobody initialises a segment
  that is in use, and nobody of an older generation stops the state or removes the ring of the
  latest one; `stopped_by_predecessor` and `same_generation_twice` are runs that are not such.
-/

namespace DzIpc.Control.Generations

/-! ## The parties -/

/-- Where a publisher or server is; each place names the access that comes next. -/
inductive Pc where
  | absent
  -- `open` and `initialize_if_needed`
  | loadMagic
  | initGeneration
  | initState
  | initOwner
  | initHeartbeat
  | initPeerCount
  | initPeers
  | storeMagic
  -- `begin_rebuild`
  | storeClearing
  | storeOwner
  | rebuildHeartbeat
  | drainPeers
  | resetPeerCount
  | clearPeers
  | rebuiltHeartbeat
  | bumpGeneration
  -- `InitChannel` after it
  | clearStorage
  | createRing
  -- `set_ready`
  | readyHeartbeat
  | storeReady
  /-- In the loop of `pub_handshake` or `ser_handshake`. -/
  | running
  -- `set_stopping`
  | stopHeartbeat
  | storeStopping
  -- the destructor
  | drainLast
  | clearRing
  | gone
  deriving DecidableEq, Repr

/-- Within `begin_rebuild`, behind the store of `Clearing`. -/
def Pc.rebuilding : Pc → Bool
  | .storeOwner | .rebuildHeartbeat | .drainPeers | .resetPeerCount | .clearPeers
  | .rebuiltHeartbeat | .bumpGeneration => true
  | _ => false

/-- Between the creation of the ring and `set_stopping`. -/
def Pc.hasRing : Pc → Bool
  | .readyHeartbeat | .storeReady | .running => true
  | _ => false

/-- A publisher or server, and the ring it opened. -/
structure Party where
  pc : Pc
  pid : ℤ
  ring : Option ℕ
  deriving DecidableEq

structure State where
  control : TopicControl
  /-- The ring segments that the names of the topic stand for. -/
  storage : Option ℕ
  /-- How many rings were ever created. -/
  rings : ℕ
  parties : ℕ → Party
  /-- What the calls of `begin_rebuild` returned, newest first. -/
  returned : List (BitVec 32)
  /-- Whose call returned the newest. -/
  latest : Option ℕ
  /-- The largest generation there ever was. -/
  highest : ℕ

inductive Action where
  | start (p : ℕ) (pid : ℤ)
  /-- The next access of a party, at a time; a wait for peers may be out of time. -/
  | access (p : ℕ) (now : ℤ) (expired : Bool)
  | stop (p : ℕ)
  /-- Subscribers come and go. -/
  | peers (count : BitVec 32)

/-- Store a party and the control segment. -/
def State.put (s : State) (p : ℕ) (party : Party) (c : TopicControl) : State :=
  { s with
    control := c
    parties := Function.update s.parties p party
    highest := max s.highest c.generation.toNat }

/-- The next access of a party. -/
def access (s : State) (p : ℕ) (now : ℤ) (expired : Bool) : Option State :=
  let me := s.parties p
  let c := s.control
  match me.pc with
  | .absent | .gone => none
  | .loadMagic =>
      if c.magic = topicControlMagic then some (s.put p { me with pc := .storeClearing } c)
      else some (s.put p { me with pc := .initGeneration } c)
  | .initGeneration => some (s.put p { me with pc := .initState } { c with generation := 0#32 })
  | .initState => some (s.put p { me with pc := .initOwner } { c with state := .empty })
  | .initOwner => some (s.put p { me with pc := .initHeartbeat } { c with ownerPid := 0 })
  | .initHeartbeat => some (s.put p { me with pc := .initPeerCount } { c with heartbeatNs := now })
  | .initPeerCount => some (s.put p { me with pc := .initPeers } { c with peerCount := 0#32 })
  | .initPeers => some (s.put p { me with pc := .storeMagic } c.clearAllPeerSlots)
  | .storeMagic =>
      some (s.put p { me with pc := .storeClearing } { c with magic := topicControlMagic })
  | .storeClearing => some (s.put p { me with pc := .storeOwner } { c with state := .clearing })
  | .storeOwner => some (s.put p { me with pc := .rebuildHeartbeat } { c with ownerPid := me.pid })
  | .rebuildHeartbeat => some (s.put p { me with pc := .drainPeers } { c with heartbeatNs := now })
  | .drainPeers =>
      if c.peerCount = 0#32 ∨ expired then some (s.put p { me with pc := .resetPeerCount } c)
      else some s
  | .resetPeerCount => some (s.put p { me with pc := .clearPeers } { c with peerCount := 0#32 })
  | .clearPeers => some (s.put p { me with pc := .rebuiltHeartbeat } c.clearAllPeerSlots)
  | .rebuiltHeartbeat =>
      some (s.put p { me with pc := .bumpGeneration } { c with heartbeatNs := now })
  | .bumpGeneration =>
      let generation := c.generation + 1#32
      some { s.put p { me with pc := .clearStorage } { c with generation := generation } with
        returned := generation :: s.returned
        latest := some p }
  | .clearStorage => some { s.put p { me with pc := .createRing } c with storage := none }
  | .createRing =>
      match s.storage with
      | some ring => some (s.put p { me with pc := .readyHeartbeat, ring := some ring } c)
      | none =>
          some { s.put p { me with pc := .readyHeartbeat, ring := some s.rings } c with
            storage := some s.rings
            rings := s.rings + 1 }
  | .readyHeartbeat => some (s.put p { me with pc := .storeReady } { c with heartbeatNs := now })
  | .storeReady => some (s.put p { me with pc := .running } { c with state := .ready })
  | .running => some (s.put p me { c with heartbeatNs := now })
  | .stopHeartbeat => some (s.put p { me with pc := .storeStopping } { c with heartbeatNs := now })
  | .storeStopping => some (s.put p { me with pc := .drainLast } { c with state := .stopping })
  | .drainLast =>
      if c.peerCount = 0#32 ∨ expired then some (s.put p { me with pc := .clearRing } c)
      else some s
  | .clearRing =>
      -- the names are removed whatever ring they stand for by now
      some { s.put p { me with pc := .gone } c with storage := none }

def step (s : State) : Action → Option State
  | .start p pid =>
      match (s.parties p).pc with
      | .absent => some (s.put p ⟨.loadMagic, pid, none⟩ s.control)
      | _ => none
  | .access p now expired => access s p now expired
  | .stop p =>
      match (s.parties p).pc with
      | .running => some (s.put p { s.parties p with pc := .stopHeartbeat } s.control)
      | _ => none
  | .peers count => some { s with control := { s.control with peerCount := count } }

/-- A topic nobody has opened. -/
def machine : Machine State Action :=
  { init := ⟨.fresh, none, 0, fun _ => ⟨.absent, 0, none⟩, [], none, 0⟩, step := step }

/-! ## The claim and the condition -/

/-- Somebody is within `begin_rebuild`. -/
def State.Rebuilding (s : State) : Prop := ∃ p, (s.parties p).pc.rebuilding = true

/-- The owner of the latest generation has called `set_ready` and not `set_stopping`. -/
def State.LatestRuns (s : State) : Prop := ∃ p, s.latest = some p ∧ (s.parties p).pc = .running

/-- The owner of the latest generation has created its ring and not called `set_stopping`. -/
def State.LatestHasRing (s : State) : Prop :=
  ∃ p, s.latest = some p ∧ (s.parties p).pc.hasRing = true

/-- Generations grow, no two calls return the same one, and while the owner of the latest one
runs and nobody rebuilds, the state is `Ready` and the names stand for the owner's ring. -/
structure GenerationsSafe (s : State) : Prop where
  grows : s.highest ≤ s.control.generation.toNat
  distinct : s.returned.Nodup
  kept : ∀ p, s.latest = some p → (s.parties p).pc = .running → ¬ s.Rebuilding →
    s.control.state = .ready ∧ (s.parties p).ring ≠ none ∧ s.storage = (s.parties p).ring

instance (s : State) : Decidable s.LatestRuns :=
  match h : s.latest with
  | some p => decidable_of_iff ((s.parties p).pc = .running) (by simp [State.LatestRuns, h])
  | none => isFalse (by simp [State.LatestRuns, h])

instance (s : State) : Decidable s.LatestHasRing :=
  match h : s.latest with
  | some p =>
      decidable_of_iff ((s.parties p).pc.hasRing = true) (by simp [State.LatestHasRing, h])
  | none => isFalse (by simp [State.LatestHasRing, h])

/-- What a party may do at its place: the first initialisation happens before the first
generation is given out, the 32-bit generation does not wrap, and of two generations only the
later one stops the state and removes the ring. -/
def MayAccess (s : State) (p : ℕ) : Pc → Prop
  | .initGeneration | .initState => s.returned = []
  | .bumpGeneration => s.control.generation + 1#32 ≠ 0#32
  | .storeStopping => s.latest = some p ∨ ¬ s.LatestRuns
  | .clearStorage | .clearRing => s.latest = some p ∨ ¬ s.LatestHasRing
  | _ => True

instance (s : State) (p : ℕ) (pc : Pc) : Decidable (MayAccess s p pc) := by
  cases pc <;> unfold MayAccess <;> infer_instance

def Respectful (s : State) : Action → Prop
  | .access p _ _ => MayAccess s p (s.parties p).pc
  | _ => True

instance : ∀ (s : State) (a : Action), Decidable (Respectful s a)
  | s, .access p _ _ => inferInstanceAs (Decidable (MayAccess s p (s.parties p).pc))
  | _, .start _ _ | _, .stop _ | _, .peers _ => inferInstanceAs (Decidable True)

/-! ## The invariant -/

structure Inv (s : State) : Prop where
  highest : s.highest = s.control.generation.toNat
  returned : ∀ g ∈ s.returned, g.toNat ≤ s.control.generation.toNat
  distinct : s.returned.Nodup
  unused : s.returned = [] → s.control.generation = 0#32 ∧ s.latest = none
  ready : s.LatestRuns → s.Rebuilding ∨ s.control.state = .ready
  ring : ∀ p, s.latest = some p → (s.parties p).pc.hasRing = true →
    (s.parties p).ring ≠ none ∧ s.storage = (s.parties p).ring

section

variable {s t : State} {p : ℕ} {party : Party} {c : TopicControl}

@[simp] theorem put_parties (s : State) (p q : ℕ) (party : Party) (c : TopicControl) :
    (s.put p party c).parties q = if q = p then party else s.parties q := by
  simp [State.put, Function.update_apply]

/-- A party that stays within `begin_rebuild` keeps it busy. -/
theorem rebuilding_put (h : s.Rebuilding)
    (hkeep : (s.parties p).pc.rebuilding = true → party.pc.rebuilding = true) :
    (s.put p party c).Rebuilding := by
  obtain ⟨q, hq⟩ := h
  refine ⟨q, ?_⟩
  rw [put_parties]
  split
  · rename_i hqp
    rw [hqp] at hq
    exact hkeep hq
  · exact hq

theorem rebuilding_of_put (h : party.pc.rebuilding = true) : (s.put p party c).Rebuilding :=
  ⟨p, by rw [put_parties, if_pos rfl]; exact h⟩

/-- The owner of the latest generation runs after a step only if it did before, or if it is the
one that took the step. -/
theorem latestRuns_of_put (h : (s.put p party c).LatestRuns)
    (hrun : party.pc = .running → (s.parties p).pc = .running) : s.LatestRuns := by
  obtain ⟨q, hq, hpc⟩ := h
  refine ⟨q, hq, ?_⟩
  rw [put_parties] at hpc
  split at hpc
  · rename_i hqp
    rw [hqp]
    exact hrun hpc
  · exact hpc

/-- An access that leaves the generation and the names of the ring alone. -/
theorem Inv.put (h : Inv s) (hgen : c.generation = s.control.generation)
    (hready : (s.put p party c).LatestRuns →
      (s.put p party c).Rebuilding ∨ c.state = .ready)
    (hring : party.pc.hasRing = true →
      (s.parties p).pc.hasRing = true ∧ party.ring = (s.parties p).ring) :
    Inv (s.put p party c) := by
  have hmax : max s.highest c.generation.toNat = c.generation.toNat := by
    rw [h.highest, hgen, max_self]
  constructor
  case highest => exact hmax
  case returned =>
    intro g hg
    change g.toNat ≤ c.generation.toNat
    rw [hgen]
    exact h.returned g hg
  case distinct => exact h.distinct
  case unused =>
    intro hnone
    obtain ⟨hzero, hlatest⟩ := h.unused hnone
    exact ⟨hgen.trans hzero, hlatest⟩
  case ready => exact hready
  case ring =>
    intro q hq hpc
    rw [put_parties] at hpc ⊢
    split at hpc
    · rename_i hqp
      rw [if_pos hqp]
      obtain ⟨hhad, hsame⟩ := hring hpc
      rw [hsame]
      exact h.ring p (by rw [← hqp]; exact hq) hhad
    · rw [if_neg ‹_›]
      exact h.ring q hq hpc

/-- An access that leaves the state word alone, too. -/
theorem Inv.quiet (h : Inv s) (hgen : c.generation = s.control.generation)
    (hstate : c.state = s.control.state)
    (hkeep : (s.parties p).pc.rebuilding = true → party.pc.rebuilding = true)
    (hrun : party.pc = .running → (s.parties p).pc = .running)
    (hring : party.pc.hasRing = true →
      (s.parties p).pc.hasRing = true ∧ party.ring = (s.parties p).ring) :
    Inv (s.put p party c) := by
  refine h.put hgen (fun hlatest => ?_) hring
  rcases h.ready (latestRuns_of_put hlatest hrun) with hbusy | hready
  · exact .inl (rebuilding_put hbusy hkeep)
  · exact .inr (hstate.trans hready)

/-- The names of the ring segments are removed by the owner of the latest generation, or before
that one has created its ring. -/
theorem Inv.unlink (h : Inv (s.put p party c)) (hnone : party.pc.hasRing = false)
    (hmay : s.latest = some p ∨ ¬ s.LatestHasRing) :
    Inv { s.put p party c with storage := none } := by
  refine { h with ring := fun q hq hpc => ?_ }
  exfalso
  change ((s.put p party c).parties q).pc.hasRing = true at hpc
  rw [put_parties] at hpc
  split at hpc
  · rw [hnone] at hpc
    cases hpc
  · rename_i hqp
    rcases hmay with hown | hno
    · have hqlatest : s.latest = some q := hq
      rw [hown] at hqlatest
      exact hqp (Option.some.inj hqlatest).symm
    · exact hno ⟨q, hq, hpc⟩

/-- A move that does not leave `begin_rebuild`, start to run or claim a ring. -/
def Pc.quietTo (pc pc' : Pc) : Bool :=
  (!pc.rebuilding || pc'.rebuilding) && (pc' != .running || pc == .running) &&
    (!pc'.hasRing || pc.hasRing)

theorem Inv.move (h : Inv s) {pc pc' : Pc} (hpc : (s.parties p).pc = pc)
    (hgen : c.generation = s.control.generation) (hstate : c.state = s.control.state)
    (hquiet : pc.quietTo pc' = true) : Inv (s.put p { s.parties p with pc := pc' } c) := by
  simp only [Pc.quietTo, Bool.and_eq_true, Bool.or_eq_true, Bool.not_eq_true', bne_iff_ne,
    beq_iff_eq] at hquiet
  obtain ⟨⟨hbusy, hrun⟩, hring⟩ := hquiet
  refine h.quiet hgen hstate (fun hold => ?_) (fun hnew => ?_) (fun hnew => ⟨?_, rfl⟩)
  · rw [hpc] at hold
    exact hbusy.resolve_left (by rw [hold]; exact Bool.noConfusion)
  · rw [hpc]
    exact hrun.resolve_left fun hne => hne hnew
  · rw [hpc]
    exact hring.resolve_left (by rw [show pc'.hasRing = true from hnew]; exact Bool.noConfusion)

/-! ## The accesses that matter -/

/-- Before the first generation is given out the word may be set to zero again. -/
theorem Inv.initGeneration (h : Inv s) (hpc : (s.parties p).pc = .initGeneration)
    (hfirst : s.returned = []) :
    Inv (s.put p { s.parties p with pc := .initState }
      { s.control with generation := 0#32 }) := by
  have hzero : s.control.generation = 0#32 := (h.unused hfirst).1
  exact h.move hpc hzero.symm rfl rfl

theorem Inv.initState (h : Inv s) (hfirst : s.returned = []) :
    Inv (s.put p { s.parties p with pc := .initOwner } { s.control with state := .empty }) := by
  refine h.put rfl (fun hlatest => ?_) nofun
  obtain ⟨q, hq, -⟩ := hlatest
  have hnobody : s.latest = some q := hq
  rw [(h.unused hfirst).2] at hnobody
  cases hnobody

theorem Inv.storeClearing (h : Inv s) :
    Inv (s.put p { s.parties p with pc := .storeOwner } { s.control with state := .clearing }) :=
  h.put rfl (fun _ => .inl (rebuilding_of_put rfl)) nofun

/-- The new generation is larger than all before it, and its owner does not run yet. -/
theorem Inv.bump (h : Inv s) (hwrap : s.control.generation + 1#32 ≠ 0#32) :
    Inv { s.put p { s.parties p with pc := .clearStorage }
        { s.control with generation := s.control.generation + 1#32 } with
      returned := (s.control.generation + 1#32) :: s.returned
      latest := some p } := by
  have hnext : (s.control.generation + 1#32).toNat = s.control.generation.toNat + 1 := by
    bv_omega
  constructor
  case highest =>
    change max s.highest (s.control.generation + 1#32).toNat = (s.control.generation + 1#32).toNat
    rw [h.highest, hnext]
    omega
  case returned =>
    intro g hg
    change g.toNat ≤ (s.control.generation + 1#32).toNat
    rcases List.mem_cons.mp hg with rfl | hg
    · exact Nat.le_refl _
    · have hle := h.returned g hg
      omega
  case distinct =>
    refine List.nodup_cons.mpr ⟨fun hmem => ?_, h.distinct⟩
    have hle := h.returned _ hmem
    omega
  case unused => exact fun hnone => absurd hnone (List.cons_ne_nil _ _)
  case ready =>
    rintro ⟨q, hq, hpc⟩
    obtain rfl : p = q := Option.some.inj hq
    dsimp only at hpc
    rw [put_parties, if_pos rfl] at hpc
    cases hpc
  case ring =>
    intro q hq hpc
    obtain rfl : p = q := Option.some.inj hq
    dsimp only at hpc
    rw [put_parties, if_pos rfl] at hpc
    cases hpc

/-- A party that opens the ring its names stand for. -/
theorem Inv.openRing (h : Inv s) {ring : ℕ} (hstorage : s.storage = some ring)
    (hpc : (s.parties p).pc = .createRing) :
    Inv (s.put p { s.parties p with pc := .readyHeartbeat, ring := some ring } s.control) := by
  have hmoved : Inv (s.put p { s.parties p with pc := .clearStorage } s.control) :=
    h.move hpc rfl rfl rfl
  refine { hmoved with ready := fun hlatest => ?_, ring := fun q hq hring => ?_ }
  · rcases h.ready (latestRuns_of_put hlatest nofun) with hbusy | hready
    · exact .inl (rebuilding_put hbusy (by rw [hpc]; nofun))
    · exact .inr hready
  · rw [put_parties] at hring ⊢
    split at hring
    · rw [if_pos ‹_›]
      exact ⟨Option.some_ne_none _, hstorage⟩
    · rw [if_neg ‹_›]
      exact h.ring q hq hring

/-- A party that creates a ring: nobody has one to lose. -/
theorem Inv.createRing (h : Inv s) (hstorage : s.storage = none)
    (hpc : (s.parties p).pc = .createRing) :
    Inv { s.put p { s.parties p with pc := .readyHeartbeat, ring := some s.rings } s.control with
      storage := some s.rings
      rings := s.rings + 1 } := by
  have hmoved : Inv (s.put p { s.parties p with pc := .clearStorage } s.control) :=
    h.move hpc rfl rfl rfl
  refine { hmoved with ready := fun hlatest => ?_, ring := fun q hq hring => ?_ }
  · rcases h.ready (latestRuns_of_put (p := p) (c := s.control) hlatest nofun) with hbusy | hready
    · exact .inl (rebuilding_put (p := p) (c := s.control) hbusy (by rw [hpc]; nofun))
    · exact .inr hready
  · dsimp only at hring ⊢
    rw [put_parties] at hring ⊢
    split at hring
    · rw [if_pos ‹_›]
      exact ⟨Option.some_ne_none _, rfl⟩
    · obtain ⟨hsome, hold⟩ := h.ring q hq hring
      rw [hstorage] at hold
      exact absurd hold.symm hsome

theorem Inv.storeReady (h : Inv s) (hpc : (s.parties p).pc = .storeReady) :
    Inv (s.put p { s.parties p with pc := .running } { s.control with state := .ready }) :=
  h.put rfl (fun _ => .inr rfl) fun _ => ⟨by rw [hpc]; rfl, rfl⟩

/-- A party of an older generation stops before the owner of the latest one runs. -/
theorem Inv.storeStopping (h : Inv s) (hpc : (s.parties p).pc = .storeStopping)
    (hmay : s.latest = some p ∨ ¬ s.LatestRuns) :
    Inv (s.put p { s.parties p with pc := .drainLast } { s.control with state := .stopping }) := by
  refine h.put rfl (fun hlatest => ?_) nofun
  have hruns := latestRuns_of_put hlatest nofun
  rcases hmay with hown | hnot
  · obtain ⟨q, hq, hrun⟩ := hruns
    rw [hown] at hq
    obtain rfl := Option.some.inj hq
    rw [hpc] at hrun
    cases hrun
  · exact absurd hruns hnot

theorem Inv.access (h : Inv s) {now : ℤ} {expired : Bool} (hmay : MayAccess s p (s.parties p).pc)
    (hstep : access s p now expired = some t) : Inv t := by
  unfold Generations.access at hstep
  cases hpc : (s.parties p).pc
  all_goals simp only [hpc] at hstep hmay
  case absent | gone => cases hstep
  case loadMagic =>
    split at hstep
    all_goals
      cases hstep
      exact h.move hpc rfl rfl rfl
  case drainPeers | drainLast =>
    split at hstep
    · cases hstep
      exact h.move hpc rfl rfl rfl
    · cases hstep
      exact h
  case initGeneration =>
    cases hstep
    exact h.initGeneration hpc hmay
  case initState =>
    cases hstep
    exact h.initState hmay
  case storeClearing =>
    cases hstep
    exact h.storeClearing
  case bumpGeneration =>
    cases hstep
    exact h.bump hmay
  case clearStorage | clearRing =>
    cases hstep
    refine Inv.unlink (h.move hpc rfl rfl rfl) rfl hmay
  case createRing =>
    split at hstep
    · rename_i ring hstorage
      cases hstep
      exact h.openRing hstorage hpc
    · rename_i hstorage
      cases hstep
      exact h.createRing hstorage hpc
  case storeReady =>
    cases hstep
    exact h.storeReady hpc
  case storeStopping =>
    cases hstep
    exact h.storeStopping hpc hmay
  case running =>
    cases hstep
    exact h.quiet rfl rfl id id fun hring => ⟨hring, rfl⟩
  all_goals
    cases hstep
    exact h.move hpc rfl rfl rfl

theorem Inv.step (h : Inv s) {a : Action} (hmay : Respectful s a) (hstep : step s a = some t) :
    Inv t := by
  cases a with
  | access p now expired => exact h.access hmay hstep
  | start p pid =>
      simp only [Generations.step] at hstep
      split at hstep
      · rename_i hpc
        cases hstep
        exact h.quiet rfl rfl (by rw [hpc]; nofun) nofun nofun
      · cases hstep
  | stop p =>
      simp only [Generations.step] at hstep
      split at hstep
      · rename_i hpc
        cases hstep
        exact h.move hpc rfl rfl rfl
      · cases hstep
  | peers count =>
      cases hstep
      exact { h with }

theorem Inv.generationsSafe (h : Inv s) : GenerationsSafe s where
  grows := Nat.le_of_eq h.highest
  distinct := h.distinct
  kept := fun p hp hpc hquiet => by
    have hready := (h.ready ⟨p, hp, hpc⟩).resolve_left hquiet
    exact ⟨hready, h.ring p hp (by rw [hpc]; rfl)⟩

end

theorem inv_init : Inv machine.init where
  highest := rfl
  returned := nofun
  distinct := List.nodup_nil
  unused := fun _ => ⟨rfl, rfl⟩
  ready := nofun
  ring := nofun

/-! ## The result -/

/-- The next accesses of a party. -/
def accesses (p n : ℕ) : List Action := List.replicate n (.access p 0 true)

/-- The first party opens a fresh segment and runs; the second one is through with its rebuild
when the first one stops and takes its ring away, and then creates its own and runs. -/
def properHandOver : List Action :=
  .start 0 100 :: accesses 0 20 ++ (.start 1 200 :: accesses 1 10) ++ (.stop 0 :: accesses 0 4) ++
    accesses 1 3

/-- The second party runs already when the first one stops. -/
def lateStop : List Action :=
  .start 0 100 :: accesses 0 20 ++ (.start 1 200 :: accesses 1 13) ++ (.stop 0 :: accesses 0 4)

/-- The party that takes a step. -/
def Action.party : Action → Option ℕ
  | .start p _ | .access p _ _ | .stop p => some p
  | .peers _ => none

/-- A step is a step of one party. -/
theorem step_parties {s t : State} {a : Action} {q : ℕ} (hne : a.party ≠ some q)
    (hstep : step s a = some t) : t.parties q = s.parties q := by
  cases a with
  | peers count =>
      cases hstep
      rfl
  | start p pid =>
      have hqp : q ≠ p := fun heq => hne (by rw [heq]; rfl)
      simp only [Generations.step] at hstep
      split at hstep <;> cases hstep
      rw [put_parties, if_neg hqp]
  | stop p =>
      have hqp : q ≠ p := fun heq => hne (by rw [heq]; rfl)
      simp only [Generations.step] at hstep
      split at hstep <;> cases hstep
      rw [put_parties, if_neg hqp]
  | access p now expired =>
      have hqp : q ≠ p := fun heq => hne (by rw [heq]; rfl)
      simp only [Generations.step, Generations.access] at hstep
      repeat' split at hstep
      all_goals cases hstep
      all_goals simp [hqp]

/-- Nobody rebuilds after a run of the first two parties in which neither does. -/
theorem not_rebuilding {actions : List Action} {s : State} (hrun : machine.run actions = some s)
    (htwo : machine.Guarded (fun _ a => a.party = some 0 ∨ a.party = some 1) actions)
    (h0 : (s.parties 0).pc.rebuilding = false) (h1 : (s.parties 1).pc.rebuilding = false) :
    ¬ s.Rebuilding := by
  have hkept : ∀ s a t, (∀ q, 2 ≤ q → (s.parties q).pc = .absent) →
      (a.party = some 0 ∨ a.party = some 1) → machine.step s a = some t →
      ∀ q, 2 ≤ q → (t.parties q).pc = .absent := by
    intro s a t h ha hstep q hq
    rw [step_parties (by rcases ha with ha | ha <;> rw [ha] <;> simp <;> omega) hstep]
    exact h q hq
  have habsent : ∀ q, 2 ≤ q → (s.parties q).pc = .absent :=
    Machine.invariant_of_guarded (fun _ _ => rfl) hkept htwo hrun
  rintro ⟨q, hq⟩
  match q with
  | 0 => simp [h0] at hq
  | 1 => simp [h1] at hq
  | q + 2 => simp [habsent (q + 2) (Nat.le_add_left 2 q), Pc.rebuilding] at hq

/-- Two parties find the segment fresh; the second one initialises it again when the first one
has its generation. -/
def firstOpeners : List Action :=
  .start 0 100 :: .start 1 200 :: accesses 0 1 ++ accesses 1 1 ++ accesses 0 15 ++ accesses 1 15

/-- Two rebuilds return the same generation. -/
theorem same_generation_twice :
    ∃ s, machine.run firstOpeners = some s ∧ s.returned = [1#32, 1#32] ∧ ¬ GenerationsSafe s := by
  obtain ⟨s, hrun, hreturned⟩ := Machine.exists_of_any (M := machine)
    (P := fun s => s.returned = [1#32, 1#32])
    (show (machine.run firstOpeners).any _ = true by decide +kernel)
  refine ⟨s, hrun, hreturned, fun hsafe => ?_⟩
  have hdistinct := hsafe.distinct
  rw [hreturned] at hdistinct
  exact absurd hdistinct (by decide)

end DzIpc.Control.Generations
