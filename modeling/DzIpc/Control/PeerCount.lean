import DzIpc.Control.TopicControl
import DzIpc.Library.Machine
import DzIpc.Library.Parties

/-!
# The peer count of a topic

`add_peer` checks the generation and the state and then increments `peer_count`; `remove_peer`
checks the generation and then decrements it by compare-and-swap; `begin_rebuild` sets it to
zero, some time before it raises the generation; `collect_stale_peers` clears the slot of a peer
and leaves the count alone.  Every load, store and exchange is a step, the owner and any number
of peers take theirs in any order, and a peer may crash anywhere.

* `Inv` says that the count is the number of the attached peers and of those about to leave.
* `counts_of_guarded` is the result for runs in which nobody crashes on the way out, nobody is
  reaped and no rebuild comes between a peer's check and its change; `reaped_still_counted` is
  a run in which somebody is reaped.
-/

namespace DzIpc.Control.PeerCount

/-! ## The parties -/

/-- Where the owner is in `begin_rebuild`, `set_ready` and `set_stopping`. -/
inductive OwnerPc where
  | idle
  | storeClearing
  | storeOwner
  | rebuildHeartbeat
  | drainPeers
  | resetPeerCount
  | clearPeers
  | rebuiltHeartbeat
  | bumpGeneration
  | storeReady
  | storeStopping
  deriving DecidableEq, Repr

/-- The count is set to zero and the generation not yet raised. -/
def OwnerPc.reset : OwnerPc → Bool
  | .clearPeers | .rebuiltHeartbeat | .bumpGeneration => true
  | _ => false

/-- Where a peer is; `generation` is the argument of the call. -/
inductive PeerPc where
  | idle
  -- `add_peer`
  | addGeneration (generation : BitVec 32)
  | addState (generation : BitVec 32)
  | addCount (generation : BitVec 32)
  -- `remove_peer`
  | removeGeneration (generation : BitVec 32)
  | removeLoad (generation : BitVec 32)
  | removeCas (generation current : BitVec 32)
  deriving DecidableEq, Repr

/-- The generation for which a peer is within `remove_peer`. -/
def PeerPc.leaving : PeerPc → Option (BitVec 32)
  | .removeGeneration g | .removeLoad g | .removeCas g _ => some g
  | _ => none

structure Peer where
  pc : PeerPc
  alive : Bool
  /-- The generation for which `add_peer` returned `true` and `remove_peer` was not called. -/
  attached : Option (BitVec 32)
  /-- Its slot was cleared by `collect_stale_peers` since. -/
  reaped : Bool
  deriving DecidableEq, Repr

structure State where
  control : TopicControl
  ownerPid : ℤ
  owner : OwnerPc
  peers : List Peer

inductive Action where
  | rebuild
  | setReady
  | setStopping
  /-- The owner's next access, at a time; the wait for peers may be out of time. -/
  | owner (now : ℤ) (expired : Bool)
  | join
  | add (i : ℕ) (generation : BitVec 32)
  | remove (i : ℕ)
  /-- A peer's next access; a compare-and-swap may fail for no reason. -/
  | access (i : ℕ) (spurious : Bool)
  | crash (i : ℕ)
  /-- `collect_stale_peers` clears the slot of a peer. -/
  | reap (i : ℕ)

def State.setPeer (s : State) (i : ℕ) (p : Peer) : State := { s with peers := s.peers.set i p }

/-- The next access of the owner. -/
def ownerStep (s : State) (now : ℤ) (expired : Bool) : Option State :=
  let c := s.control
  match s.owner with
  | .idle => none
  | .storeClearing => some { s with control := { c with state := .clearing }, owner := .storeOwner }
  | .storeOwner =>
      some { s with control := { c with ownerPid := s.ownerPid }, owner := .rebuildHeartbeat }
  | .rebuildHeartbeat =>
      some { s with control := { c with heartbeatNs := now }, owner := .drainPeers }
  | .drainPeers =>
      if c.peerCount = 0#32 ∨ expired then some { s with owner := .resetPeerCount } else some s
  | .resetPeerCount => some { s with control := { c with peerCount := 0#32 }, owner := .clearPeers }
  | .clearPeers => some { s with control := c.clearAllPeerSlots, owner := .rebuiltHeartbeat }
  | .rebuiltHeartbeat =>
      some { s with control := { c with heartbeatNs := now }, owner := .bumpGeneration }
  | .bumpGeneration =>
      some { s with control := { c with generation := c.generation + 1#32 }, owner := .idle }
  | .storeReady => some { s with control := { c with state := .ready }, owner := .idle }
  | .storeStopping => some { s with control := { c with state := .stopping }, owner := .idle }

/-- The next access of a peer. -/
def peerStep (s : State) (i : ℕ) (p : Peer) (spurious : Bool) : Option State :=
  let c := s.control
  match p.pc with
  | .idle => none
  | .addGeneration g =>
      if g = 0#32 ∨ g ≠ c.generation then some (s.setPeer i { p with pc := .idle })
      else some (s.setPeer i { p with pc := .addState g })
  | .addState g =>
      if c.state = .ready then some (s.setPeer i { p with pc := .addCount g })
      else some (s.setPeer i { p with pc := .idle })
  | .addCount g =>
      some { s.setPeer i { p with pc := .idle, attached := some g, reaped := false } with
        control := { c with peerCount := c.peerCount + 1#32 } }
  | .removeGeneration g =>
      if g = 0#32 ∨ g ≠ c.generation then some (s.setPeer i { p with pc := .idle })
      else some (s.setPeer i { p with pc := .removeLoad g })
  | .removeLoad g =>
      if c.peerCount = 0#32 then some (s.setPeer i { p with pc := .idle })
      else some (s.setPeer i { p with pc := .removeCas g c.peerCount })
  | .removeCas g current =>
      if spurious = false ∧ c.peerCount = current then
        some { s.setPeer i { p with pc := .idle } with
          control := { c with peerCount := current - 1#32 } }
      else if c.peerCount = 0#32 then some (s.setPeer i { p with pc := .idle })
      else some (s.setPeer i { p with pc := .removeCas g c.peerCount })

/-- The owner starts a call. -/
def State.call (s : State) (owner : OwnerPc) : Option State :=
  if s.owner = .idle then some { s with owner := owner } else none

/-- A living peer that is in no call starts one. -/
def State.peerCall (s : State) (i : ℕ) (call : Peer → Option Peer) : Option State :=
  match s.peers[i]? with
  | some p => if p.alive ∧ p.pc = .idle then (call p).map (s.setPeer i) else none
  | none => none

def step (s : State) : Action → Option State
  | .rebuild => s.call .storeClearing
  | .setReady => s.call .storeReady
  | .setStopping => s.call .storeStopping
  | .owner now expired => ownerStep s now expired
  | .join => some { s with peers := s.peers ++ [⟨.idle, true, none, false⟩] }
  | .add i g =>
      s.peerCall i fun p =>
        if p.attached = none then some { p with pc := .addGeneration g } else none
  | .remove i =>
      s.peerCall i fun p =>
        p.attached.map fun g => { p with pc := .removeGeneration g, attached := none }
  | .access i spurious =>
      match s.peers[i]? with
      | some p => if p.alive then peerStep s i p spurious else none
      | none => none
  | .crash i =>
      match s.peers[i]? with
      | some p => some (s.setPeer i { p with alive := false })
      | none => none
  | .reap i =>
      match s.peers[i]? with
      | some p => if p.attached ≠ none then some (s.setPeer i { p with reaped := true }) else none
      | none => none

/-- A fresh control segment. -/
def machine (ownerPid : ℤ) : Machine State Action :=
  { init := ⟨.fresh, ownerPid, .idle, []⟩, step := step }

/-! ## The claim and the condition -/

/-- Attached for the generation and not reaped. -/
def Peer.counts (generation : BitVec 32) (p : Peer) : Bool :=
  p.attached = some generation && !p.reaped

/-- No operation is in progress. -/
def State.Quiet (s : State) : Prop :=
  s.owner = .idle ∧ ∀ p ∈ s.peers, p.alive = true → p.pc = .idle

/-- `has_subscribed` and `handshake_completed` store whether there is a peer. -/
def State.hasPeer (s : State) : Bool := 0#32 < s.control.peerCount

/-- When nothing is in progress the count is the number of attached peers, and `hasPeer` tells
whether there is one. -/
def Counts (s : State) : Prop :=
  s.Quiet → s.control.peerCount.toNat = s.peers.countP (Peer.counts s.control.generation) ∧
    (s.hasPeer = true ↔ ∃ p ∈ s.peers, p.counts s.control.generation = true)

/-- What a peer may do at its place: it increments and decrements the count of the generation it
checked, an increment does not come between the reset and the new generation, and the count does
not wrap. -/
def MayAccess (s : State) : PeerPc → Prop
  | .addCount g => g = s.control.generation ∧ s.owner.reset = false ∧
      s.control.peerCount + 1#32 ≠ 0#32
  | .removeCas g _ => g = s.control.generation
  | _ => True

instance (s : State) : ∀ pc : PeerPc, Decidable (MayAccess s pc)
  | .addCount g => inferInstanceAs (Decidable (g = s.control.generation ∧ s.owner.reset = false ∧
      s.control.peerCount + 1#32 ≠ 0#32))
  | .removeCas g _ => inferInstanceAs (Decidable (g = s.control.generation))
  | .idle | .addGeneration _ | .addState _ | .removeGeneration _ | .removeLoad _ =>
      inferInstanceAs (Decidable True)

/-- Besides, no peer crashes within `remove_peer`, none that is attached for the generation is
reaped, and the generation does not wrap. -/
def Tidy (s : State) : Action → Prop
  | .access i _ => ∀ p ∈ s.peers[i]?, MayAccess s p.pc
  | .crash i => ∀ p ∈ s.peers[i]?, p.pc.leaving = none
  | .reap i => ∀ p ∈ s.peers[i]?, p.attached ≠ some s.control.generation
  | .owner _ _ => s.owner = .bumpGeneration → s.control.generation + 1#32 ≠ 0#32
  | _ => True

instance : ∀ (s : State) (a : Action), Decidable (Tidy s a)
  | s, .access i _ => inferInstanceAs (Decidable (∀ p ∈ s.peers[i]?, MayAccess s p.pc))
  | s, .crash i => inferInstanceAs (Decidable (∀ p ∈ s.peers[i]?, p.pc.leaving = none))
  | s, .reap i =>
      inferInstanceAs (Decidable (∀ p ∈ s.peers[i]?, p.attached ≠ some s.control.generation))
  | s, .owner _ _ => inferInstanceAs (Decidable
      (s.owner = .bumpGeneration → s.control.generation + 1#32 ≠ 0#32))
  | _, .rebuild | _, .setReady | _, .setStopping | _, .join | _, .add _ _ | _, .remove _ =>
      inferInstanceAs (Decidable True)

/-! ## The invariant -/

/-- Attached, or on the way out with the decrement still to come. -/
def Peer.charged (generation : BitVec 32) (p : Peer) : Bool :=
  p.counts generation || p.pc.leaving = some generation

/-- What holds of every peer: it goes by a generation that there was, not zero, a dead one is
not on its way out, one within a call is not attached, one that is to exchange has read a
positive count, and one that was reaped is attached for an older generation. -/
structure Sane (generation : BitVec 32) (p : Peer) : Prop where
  attached : ∀ g, p.attached = some g → g ≠ 0#32 ∧ g.toNat ≤ generation.toNat
  leaving : ∀ g, p.pc.leaving = some g → g ≠ 0#32 ∧ g.toNat ≤ generation.toNat
  adding : ∀ g, p.pc = .addState g ∨ p.pc = .addCount g → g ≠ 0#32
  dead : p.alive = false → p.pc.leaving = none
  busy : p.pc ≠ .idle → p.attached = none
  positive : ∀ g, p.pc ≠ .removeCas g 0#32
  reaped : p.reaped = true → ∀ g, p.attached = some g → g.toNat < generation.toNat

structure Inv (s : State) : Prop where
  sane : ∀ p ∈ s.peers, Sane s.control.generation p
  counted : s.owner.reset = false →
    s.control.peerCount.toNat = s.peers.countP (Peer.charged s.control.generation)
  reset : s.owner.reset = true → s.control.peerCount = 0#32

section

variable {s t : State} {i : ℕ} {p p' : Peer}

theorem Sane.mono {g g' : BitVec 32} (h : Sane g p) (hle : g.toNat ≤ g'.toNat) : Sane g' p :=
  ⟨fun g'' hg => ⟨(h.attached g'' hg).1, (h.attached g'' hg).2.trans hle⟩,
    fun g'' hg => ⟨(h.leaving g'' hg).1, (h.leaving g'' hg).2.trans hle⟩, h.adding, h.dead, h.busy,
    h.positive, fun hreaped g'' hg => (h.reaped hreaped g'' hg).trans_le hle⟩

/-- A peer that is in no call any more. -/
theorem Sane.idle {g : BitVec 32} (h : Sane g p) : Sane g { p with pc := .idle } :=
  ⟨h.attached, nofun, fun _ hadd => hadd.elim nofun nofun, fun _ => rfl,
    fun hbusy => absurd rfl hbusy, nofun, h.reaped⟩

/-- A peer that goes on with `add_peer`. -/
theorem Sane.goOn {g g' : BitVec 32} (h : Sane g p) (hnone : p.attached = none) {pc : PeerPc}
    (hpc : pc = .addGeneration g' ∨ (pc = .addState g' ∨ pc = .addCount g') ∧ g' ≠ 0#32) :
    Sane g { p with pc := pc } := by
  have hleaving : pc.leaving = none := by
    rcases hpc with rfl | ⟨rfl | rfl, -⟩
    all_goals rfl
  refine ⟨h.attached, fun g hg => ?_, fun g hadd => ?_, fun _ => hleaving, fun _ => hnone,
    fun g hcas => ?_, h.reaped⟩
  · rw [show pc.leaving = some g from hg] at hleaving
    cases hleaving
  · rcases hpc with rfl | ⟨rfl | rfl, hne⟩
    all_goals rcases hadd with hadd | hadd
    all_goals cases hadd
    all_goals exact hne
  · rw [show pc = .removeCas g 0#32 from hcas] at hleaving
    cases hleaving

/-- A peer that goes on with `remove_peer`. -/
theorem Sane.leave {g g' : BitVec 32} (h : Sane g p) (halive : p.alive = true)
    (hnone : p.attached = none) (hg' : g' ≠ 0#32 ∧ g'.toNat ≤ g.toNat) {pc : PeerPc}
    (hpc : pc.leaving = some g') (hpos : ∀ g, pc ≠ .removeCas g 0#32) :
    Sane g { p with pc := pc } := by
  refine ⟨h.attached, fun g hg => ?_, fun g hadd => ?_, fun hdead => ?_, fun _ => hnone, hpos,
    h.reaped⟩
  · rw [show pc.leaving = some g from hg] at hpc
    obtain rfl := Option.some.inj hpc
    exact hg'
  · rcases hadd with hadd | hadd
    all_goals
      rw [show pc = _ from hadd] at hpc
      cases hpc
  · rw [show p.alive = false from hdead] at halive
    cases halive

/-- Storing one peer changes the number of charged ones by that peer's share. -/
theorem countP_setPeer (p' : Peer) (hp : s.peers[i]? = some p) (P : Peer → Bool) :
    (s.setPeer i p').peers.countP P + (P p).toNat = s.peers.countP P + (P p').toNat :=
  Parties.countP_set p' hp P

theorem mem_setPeer (hp' : Sane s.control.generation p')
    (h : ∀ p ∈ s.peers, Sane s.control.generation p) :
    ∀ p ∈ (s.setPeer i p').peers, Sane s.control.generation p :=
  Parties.forall_mem_set hp' h

/-- A peer's step that leaves the count and its own share alone. -/
theorem Inv.move (h : Inv s) (hp : s.peers[i]? = some p) (hsane : Sane s.control.generation p')
    (hsame : s.owner.reset = false →
      p'.charged s.control.generation = p.charged s.control.generation) :
    Inv (s.setPeer i p') := by
  refine ⟨mem_setPeer hsane h.sane, fun hreset => ?_, h.reset⟩
  have hcount := countP_setPeer p' hp (Peer.charged s.control.generation)
  have hcounted := h.counted hreset
  rw [hsame hreset] at hcount
  change s.control.peerCount.toNat =
    (s.setPeer i p').peers.countP (Peer.charged s.control.generation)
  omega

/-- `add_peer` increments the count of the generation it checked. -/
theorem Inv.add (h : Inv s) (hp : s.peers[i]? = some p) {g : BitVec 32} (hpc : p.pc = .addCount g)
    (hmay : MayAccess s (.addCount g)) :
    Inv { s.setPeer i { p with pc := .idle, attached := some g, reaped := false } with
      control := { s.control with peerCount := s.control.peerCount + 1#32 } } := by
  obtain ⟨rfl, hreset, hwrap⟩ := hmay
  have hold := h.sane p (List.mem_of_getElem? hp)
  have hnone : p.attached = none := hold.busy (by rw [hpc]; exact PeerPc.noConfusion)
  have hsane : Sane s.control.generation
      { p with pc := .idle, attached := some s.control.generation, reaped := false } := by
    refine ⟨fun g hg => ?_, nofun, fun _ hadd => hadd.elim nofun nofun,
      fun _ => rfl, fun hbusy => absurd rfl hbusy, nofun, nofun⟩
    rw [← Option.some.inj hg]
    exact ⟨hold.adding _ (.inr hpc), Nat.le_refl _⟩
  refine ⟨mem_setPeer hsane h.sane, fun _ => ?_, fun hyes => ?_⟩
  · have hcount := countP_setPeer { p with
      pc := .idle, attached := some s.control.generation, reaped := false } hp
      (Peer.charged s.control.generation)
    have hbefore : p.charged s.control.generation = false := by
      simp [Peer.charged, Peer.counts, hnone, hpc, PeerPc.leaving]
    have hafter : Peer.charged s.control.generation
        { p with pc := .idle, attached := some s.control.generation, reaped := false } = true := by
      simp [Peer.charged, Peer.counts]
    rw [hbefore, hafter] at hcount
    have hcounted := h.counted hreset
    have hnext : (s.control.peerCount + 1#32).toNat = s.control.peerCount.toNat + 1 := by bv_omega
    change (s.control.peerCount + 1#32).toNat = List.countP _ (s.setPeer i _).peers
    rw [hnext, hcounted]
    exact hcount.symm
  · change s.owner.reset = true at hyes
    rw [hreset] at hyes
    cases hyes

/-- `remove_peer` decrements the count of the generation it checked. -/
theorem Inv.remove (h : Inv s) (hp : s.peers[i]? = some p) {g current : BitVec 32}
    (hpc : p.pc = .removeCas g current) (hgen : g = s.control.generation)
    (hread : s.control.peerCount = current) :
    Inv { s.setPeer i { p with pc := .idle } with
      control := { s.control with peerCount := current - 1#32 } } := by
  have hold := h.sane p (List.mem_of_getElem? hp)
  have hnone : p.attached = none := hold.busy (by rw [hpc]; exact PeerPc.noConfusion)
  have hpos : current ≠ 0#32 := by
    rintro rfl
    exact hold.positive g hpc
  refine ⟨mem_setPeer hold.idle h.sane, fun hreset => ?_, fun hyes => ?_⟩
  · have hcount := countP_setPeer { p with pc := .idle } hp
      (Peer.charged s.control.generation)
    have hbefore : p.charged s.control.generation = true := by
      simp [Peer.charged, hpc, PeerPc.leaving, hgen]
    have hafter : Peer.charged s.control.generation { p with pc := .idle } = false := by
      simp [Peer.charged, Peer.counts, hnone, PeerPc.leaving]
    rw [hbefore, hafter] at hcount
    have hcounted := h.counted hreset
    rw [hread] at hcounted
    have hprev : (current - 1#32).toNat + 1 = current.toNat := by bv_omega
    change (current - 1#32).toNat =
      (s.setPeer i { p with pc := .idle }).peers.countP (Peer.charged s.control.generation)
    simp only [Bool.toNat_true, Bool.toNat_false] at hcount
    omega
  · exact absurd (hread.symm.trans (h.reset hyes)) hpos

/-- Where the count is zero nobody is charged, unless the owner has just reset it. -/
theorem Inv.not_charged (h : Inv s) (hreset : s.owner.reset = false)
    (hzero : s.control.peerCount = 0#32) (hp : s.peers[i]? = some p) :
    p.charged s.control.generation = false := by
  by_contra hcharged
  have hpos : 0 < s.peers.countP (Peer.charged s.control.generation) :=
    List.countP_pos_iff.mpr ⟨p, List.mem_of_getElem? hp, by simpa using hcharged⟩
  rw [← h.counted hreset, hzero] at hpos
  exact absurd hpos (Nat.lt_irrefl 0)

theorem Inv.peerStep (h : Inv s) (hp : s.peers[i]? = some p) (halive : p.alive = true)
    (hmay : MayAccess s p.pc) {spurious : Bool} (hstep : peerStep s i p spurious = some t) :
    Inv t := by
  have hold := h.sane p (List.mem_of_getElem? hp)
  -- a peer that gives up `remove_peer` was not charged any more
  have hgiveUp : p.attached = none → (s.owner.reset = false → p.charged s.control.generation = false)
      → Inv (s.setPeer i { p with pc := .idle }) := fun hnone hfree =>
    h.move hp hold.idle fun hreset => by
      rw [hfree hreset]
      simp [Peer.charged, Peer.counts, hnone, PeerPc.leaving]
  unfold PeerCount.peerStep at hstep
  cases hpc : p.pc
  case idle =>
    simp only [hpc] at hstep
    cases hstep
  all_goals
    have hnone : p.attached = none := hold.busy (by rw [hpc]; exact PeerPc.noConfusion)
    simp only [hpc] at hstep hmay
  case addGeneration g =>
    split at hstep
    · cases hstep
      exact h.move hp hold.idle fun _ => by simp [Peer.charged, Peer.counts, hpc, PeerPc.leaving]
    · rename_i hmatch
      cases hstep
      refine h.move hp (hold.goOn hnone (.inr ⟨.inl rfl, fun hg => hmatch (.inl hg)⟩)) fun _ => ?_
      simp [Peer.charged, Peer.counts, hpc, PeerPc.leaving]
  case addState g =>
    split at hstep
    · cases hstep
      refine h.move hp (hold.goOn hnone (.inr ⟨.inr rfl, hold.adding g (.inl hpc)⟩)) fun _ => ?_
      simp [Peer.charged, Peer.counts, hpc, PeerPc.leaving]
    · cases hstep
      exact h.move hp hold.idle fun _ => by simp [Peer.charged, Peer.counts, hpc, PeerPc.leaving]
  case addCount g =>
    cases hstep
    exact h.add hp hpc hmay
  case removeGeneration g =>
    have hg := hold.leaving g (by rw [hpc]; rfl)
    split at hstep
    · rename_i hmiss
      cases hstep
      refine hgiveUp hnone fun _ => ?_
      have hne : g ≠ s.control.generation := hmiss.resolve_left hg.1
      simp [Peer.charged, Peer.counts, hnone, hpc, PeerPc.leaving, hne]
    · cases hstep
      refine h.move hp (hold.leave halive hnone hg rfl nofun) fun _ => ?_
      simp [Peer.charged, Peer.counts, hpc, PeerPc.leaving]
  case removeLoad g =>
    have hg := hold.leaving g (by rw [hpc]; rfl)
    split at hstep
    · rename_i hzero
      cases hstep
      exact hgiveUp hnone fun hreset => h.not_charged hreset hzero hp
    · rename_i hpos
      cases hstep
      refine h.move hp (hold.leave halive hnone hg rfl fun g' hcas => ?_) fun _ => ?_
      · injection hcas with hgen hcur
        exact hpos hcur
      · simp [Peer.charged, Peer.counts, hpc, PeerPc.leaving]
  case removeCas g current =>
    have hg := hold.leaving g (by rw [hpc]; rfl)
    split at hstep
    · rename_i hwins
      cases hstep
      exact h.remove hp hpc hmay hwins.2
    · split at hstep
      · rename_i hzero
        cases hstep
        exact hgiveUp hnone fun hreset => h.not_charged hreset hzero hp
      · rename_i hpos
        cases hstep
        refine h.move hp (hold.leave halive hnone hg rfl fun g' hcas => ?_) fun _ => ?_
        · injection hcas with hgen hcur
          exact hpos hcur
        · simp [Peer.charged, Peer.counts, hpc, PeerPc.leaving]

/-! ## The owner -/

/-- A step of the owner that changes neither the count nor the generation, and is not the reset. -/
theorem Inv.ownerMove (h : Inv s) {c : TopicControl} {owner : OwnerPc}
    (hgen : c.generation = s.control.generation) (hcount : c.peerCount = s.control.peerCount)
    (hreset : owner.reset = s.owner.reset) : Inv { s with control := c, owner := owner } := by
  refine ⟨fun p hp => ?_, fun hno => ?_, fun hyes => ?_⟩
  · rw [show State.control { s with control := c, owner := owner } = c from rfl, hgen]
    exact h.sane p hp
  · dsimp only at hno ⊢
    rw [hgen, hcount]
    exact h.counted (hreset.symm.trans hno)
  · exact hcount.trans (h.reset (hreset.symm.trans hyes))

/-- Nobody is charged for a generation there was not. -/
theorem Inv.bump (h : Inv s) (hbusy : s.owner.reset = true)
    (hwrap : s.control.generation + 1#32 ≠ 0#32) :
    Inv { s with
      control := { s.control with generation := s.control.generation + 1#32 }
      owner := .idle } := by
  have hnext : (s.control.generation + 1#32).toNat = s.control.generation.toNat + 1 := by bv_omega
  refine ⟨fun p hp => (h.sane p hp).mono (by dsimp only; omega), fun _ => ?_, nofun⟩
  dsimp only
  rw [h.reset hbusy]
  refine (List.countP_eq_zero.mpr fun p hp hcharged => ?_).symm
  have hold := h.sane p hp
  simp only [Peer.charged, Peer.counts, Bool.or_eq_true, Bool.and_eq_true, decide_eq_true_eq]
    at hcharged
  rcases hcharged with ⟨hattached, -⟩ | hleaving
  · have hle := (hold.attached _ hattached).2
    omega
  · have hle := (hold.leaving _ hleaving).2
    omega

theorem Inv.ownerStep (h : Inv s) {now : ℤ} {expired : Bool}
    (hmay : Tidy s (.owner now expired)) (hstep : ownerStep s now expired = some t) : Inv t := by
  unfold PeerCount.ownerStep at hstep
  cases hpc : s.owner
  all_goals simp only [hpc] at hstep
  case idle => cases hstep
  case drainPeers =>
    split at hstep
    · cases hstep
      exact h.ownerMove rfl rfl (by rw [hpc]; rfl)
    · cases hstep
      exact h
  case resetPeerCount =>
    cases hstep
    exact ⟨h.sane, nofun, fun _ => rfl⟩
  case bumpGeneration =>
    cases hstep
    exact h.bump (by rw [hpc]; rfl) (hmay hpc)
  all_goals
    cases hstep
    exact h.ownerMove rfl rfl (by rw [hpc]; rfl)

/-! ## All steps -/

theorem Inv.call (h : Inv s) {owner : OwnerPc} (hreset : owner.reset = false)
    (hstep : s.call owner = some t) : Inv t := by
  unfold State.call at hstep
  split at hstep
  · rename_i hidle
    cases hstep
    refine h.ownerMove rfl rfl ?_
    rw [hreset, hidle]
    rfl
  · cases hstep

theorem Inv.peerCall (h : Inv s) {call : Peer → Option Peer} (hstep : s.peerCall i call = some t)
    (hcall : ∀ p p', s.peers[i]? = some p → p.alive = true → p.pc = .idle → call p = some p' →
      Sane s.control.generation p' ∧
        p'.charged s.control.generation = p.charged s.control.generation) : Inv t := by
  unfold State.peerCall at hstep
  split at hstep
  · rename_i p hp
    split at hstep
    · rename_i hfree
      obtain ⟨p', hp', rfl⟩ := Option.map_eq_some_iff.mp hstep
      obtain ⟨hsane, hsame⟩ := hcall p p' hp hfree.1 hfree.2 hp'
      exact h.move hp hsane fun _ => hsame
    · cases hstep
  · cases hstep

theorem Inv.step (h : Inv s) {a : Action} (hmay : Tidy s a) (hstep : step s a = some t) :
    Inv t := by
  cases a with
  | rebuild => exact h.call rfl hstep
  | setReady => exact h.call rfl hstep
  | setStopping => exact h.call rfl hstep
  | owner now expired => exact h.ownerStep hmay hstep
  | join =>
      cases hstep
      have hnew : Sane s.control.generation ⟨.idle, true, none, false⟩ :=
        ⟨nofun, nofun, fun _ hadd => hadd.elim nofun nofun, nofun, fun hbusy => absurd rfl hbusy,
          nofun, nofun⟩
      refine ⟨fun p hp => ?_, fun hreset => ?_, h.reset⟩
      · rcases List.mem_append.mp hp with hold | hp
        · exact h.sane p hold
        · obtain rfl := List.mem_singleton.mp hp
          exact hnew
      · dsimp only
        rw [List.countP_append, h.counted hreset]
        rfl
  | add i g =>
      refine h.peerCall hstep fun p p' hp halive hpc hcall => ?_
      split at hcall
      · rename_i hnone
        obtain rfl := Option.some.inj hcall
        refine ⟨(h.sane p (List.mem_of_getElem? hp)).goOn hnone (.inl rfl), ?_⟩
        simp [Peer.charged, Peer.counts, hnone, hpc, PeerPc.leaving]
      · cases hcall
  | remove i =>
      refine h.peerCall hstep fun p p' hp halive hpc hcall => ?_
      have hold := h.sane p (List.mem_of_getElem? hp)
      obtain ⟨g, hg, rfl⟩ := Option.map_eq_some_iff.mp hcall
      have hdetached : Sane s.control.generation { p with attached := none } :=
        ⟨nofun, hold.leaving, hold.adding, hold.dead, fun _ => rfl, hold.positive, nofun⟩
      refine ⟨hdetached.leave halive rfl (hold.attached g hg) rfl nofun, ?_⟩
      by_cases hgen : g = s.control.generation
      · have hkept : p.reaped = false := by
          by_contra hreaped
          have hlt := hold.reaped (by simpa using hreaped) g hg
          rw [hgen] at hlt
          exact absurd hlt (Nat.lt_irrefl _)
        simp [Peer.charged, Peer.counts, hg, hgen, hkept, PeerPc.leaving]
      · simp [Peer.charged, Peer.counts, hg, hgen, hpc, PeerPc.leaving]
  | access i spurious =>
      simp only [PeerCount.step] at hstep
      split at hstep
      · rename_i p hp
        split at hstep
        · rename_i halive
          exact h.peerStep hp halive (hmay p hp) hstep
        · cases hstep
      · cases hstep
  | crash i =>
      simp only [PeerCount.step] at hstep
      split at hstep
      · rename_i p hp
        have hold := h.sane p (List.mem_of_getElem? hp)
        cases hstep
        exact h.move hp ⟨hold.attached, hold.leaving, hold.adding, fun _ => hmay p hp, hold.busy,
          hold.positive, hold.reaped⟩ fun _ => rfl
      · cases hstep
  | reap i =>
      simp only [PeerCount.step] at hstep
      split at hstep
      · rename_i p hp
        split at hstep
        · have hold := h.sane p (List.mem_of_getElem? hp)
          have holder : p.attached ≠ some s.control.generation := hmay p hp
          cases hstep
          refine h.move hp ⟨hold.attached, hold.leaving, hold.adding, hold.dead, hold.busy,
            hold.positive, fun _ g hg => ?_⟩ fun _ => ?_
          · refine Nat.lt_of_le_of_ne (hold.attached g hg).2 fun heq => holder ?_
            exact (show p.attached = some g from hg).trans (by rw [BitVec.eq_of_toNat_eq heq])
          · simp [Peer.charged, Peer.counts, holder]
        · cases hstep
      · cases hstep

theorem Inv.counts (h : Inv s) : Counts s := by
  rintro ⟨hidle, hcalls⟩
  have hreset : s.owner.reset = false := by
    rw [hidle]
    rfl
  have hshare : ∀ p ∈ s.peers,
      (p.charged s.control.generation = true ↔ p.counts s.control.generation = true) := by
    intro p hp
    have hleaving : p.pc.leaving = none := by
      cases halive : p.alive with
      | false => exact (h.sane p hp).dead halive
      | true =>
          rw [hcalls p hp halive]
          rfl
    simp [Peer.charged, hleaving]
  have hcount : s.control.peerCount.toNat = s.peers.countP (Peer.counts s.control.generation) :=
    (h.counted hreset).trans (List.countP_congr hshare)
  refine ⟨hcount, ?_⟩
  have hpos : s.hasPeer = true ↔ 0 < s.control.peerCount.toNat := by
    simp [State.hasPeer, BitVec.lt_def]
  rw [hpos, hcount, List.countP_pos_iff]

end

/-! ## The result -/

/-- **The peer count.**  In every state of a tidy run in which no operation is in progress,
`peer_count` is the number of the peers that are attached for the generation and not reaped. -/
theorem counts_of_guarded (ownerPid : ℤ) {actions : List Action} {s : State}
    (hguarded : (machine ownerPid).Guarded Tidy actions)
    (hrun : (machine ownerPid).run actions = some s) : Counts s := by
  have hinit : Inv (machine ownerPid).init := ⟨nofun, fun _ => rfl, nofun⟩
  have hinv : Inv s := Machine.invariant_of_guarded hinit
    (fun _ _ _ hs hmay hstep => hs.step hmay hstep) hguarded hrun
  exact hinv.counts

/-- The owner rebuilds and sets ready. -/
def establishes : List Action :=
  .rebuild :: List.replicate 8 (.owner 0 true) ++ [.setReady, .owner 0 true]

/-- A peer attaches for a generation. -/
def attaches (i : ℕ) (g : BitVec 32) : List Action :=
  .add i g :: List.replicate 3 (.access i false)

/-- Two peers attach and one of them leaves. -/
def comeAndGo : List Action :=
  .join :: .join :: establishes ++ attaches 0 1#32 ++ attaches 1 1#32 ++
    (.remove 0 :: List.replicate 3 (.access 0 false))

theorem counts_comeAndGo : ∃ s, (machine 100).run comeAndGo = some s ∧ Counts s ∧
    s.control.peerCount = 1#32 := by
  obtain ⟨s, hrun, hcount⟩ := Machine.exists_of_any (M := machine 100)
    (P := fun s => s.control.peerCount = 1#32)
    (show ((machine 100).run comeAndGo).any _ = true by decide +kernel)
  have hguarded : (machine 100).Guarded Tidy comeAndGo := by decide +kernel
  exact ⟨s, hrun, counts_of_guarded 100 hguarded hrun, hcount⟩

/-- The only peer crashes and is reaped. -/
def crashAndReap : List Action := .join :: establishes ++ attaches 0 1#32 ++ [.crash 0, .reap 0]

/-- The count stays at one with nobody left to leave. -/
theorem reaped_still_counted : ∃ s, (machine 100).run crashAndReap = some s ∧ ¬ Counts s := by
  obtain ⟨s, hrun, howner, hpeers, hcount, hgen⟩ := Machine.exists_of_any (M := machine 100)
    (P := fun s => s.owner = .idle ∧ s.peers = [⟨.idle, false, some 1#32, true⟩] ∧
      s.control.peerCount = 1#32 ∧ s.control.generation = 1#32)
    (show ((machine 100).run crashAndReap).any _ = true by decide +kernel)
  refine ⟨s, hrun, fun hcounts => ?_⟩
  have hquiet : s.Quiet := by
    refine ⟨howner, fun p hp halive => ?_⟩
    rw [hpeers] at hp
    obtain rfl := List.mem_singleton.mp hp
    cases halive
  have hnumber := (hcounts hquiet).1
  rw [hcount, hpeers, hgen] at hnumber
  exact absurd hnumber (by decide)

end DzIpc.Control.PeerCount
