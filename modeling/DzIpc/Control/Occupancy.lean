import DzIpc.Control.TopicControl
import DzIpc.Library.Machine

/-!
# The occupancy guard of the auto servers

Before an `auto_ser_ipc` builds the shared-memory leg of its service it asks whether somebody
else has: the info pool, which knows topics by their names, and the control segment, which the
names derive.  The answer is acted on later, and nothing is locked in between.  The servers here
all derive the same segments, from one topic or from names that differ in `/` and `_`; each
access to the pool and to the control segment is a step, servers and processes come and go, and a
process may die anywhere.

* `Place` says what a server at its place relies on, and `Inv.advance` is the step lemma.
* `noHarm_of_guarded` is the result for servers that take turns from the check to the end of the
  build, one server a process; `both_found_free` is a run in which two checks overlap.
-/

namespace DzIpc.Control.Occupancy

/-! ## Names -/

/-- `minimal_segment_sanitize`. -/
def minimalSegmentSanitize (name : List Char) : List Char :=
  name.map fun ch => if ch = '/' then '_' else ch

/-- `shm_service_prefix`, which every segment of a service starts with. -/
def shmServicePrefix (topic : List Char) (domain : ℕ) : List Char :=
  "dz_ipc_d".toList ++ (toString domain).toList ++ ['_'] ++ minimalSegmentSanitize topic

/-! ## The servers -/

/-- Where an auto server is between two connections and in `supervise`. -/
inductive Pc where
  | idle
  /-- `shm_channel_occupied`: about to read the info pool. -/
  | poll
  -- `occupied_by_other`
  | probe
  | probeMagic
  | probeOwner
  | probeState (owner : ℤ)
  | judge (owner : ℤ) (state : TopicState)
  -- `shm_ser_ipc::InitChannel`
  | openControl
  | storeClearing
  | storeOwner
  | bumpGeneration
  | clearStorage
  | createRings
  | storeReady
  | enroll
  | serving
  -- the destructor of the leg
  | storeStopping
  | close
  deriving DecidableEq, Repr

/-- From the check to the end of the build. -/
def Pc.inSection : Pc → Bool
  | .poll | .probe | .probeMagic | .probeOwner | .probeState _ | .judge _ _ | .openControl
  | .storeClearing | .storeOwner | .bumpGeneration | .clearStorage | .createRings => true
  | _ => false

/-- The channel is built and not stopped. -/
def Pc.built : Pc → Bool
  | .storeReady | .enroll | .serving => true
  | _ => false

structure Server where
  topic : List Char
  pid : ℤ
  pc : Pc
  deriving DecidableEq, Repr

/-- An entry of the info pool for this domain, of kind `ShmServer` or `ShmClient`. -/
structure PoolEntry where
  topic : List Char
  pid : ℤ
  deriving DecidableEq, Repr

structure State where
  /-- The control segment has its name. -/
  present : Bool
  control : TopicControl
  /-- The servers that have it mapped; the dead do not let go of it. -/
  mapped : List ℕ
  pool : List PoolEntry
  /-- The processes that are gone. -/
  dead : List ℤ
  servers : List Server
  /-- Who rebuilt or cleared a channel while it was whose. -/
  harmed : List (ℕ × ℕ)

inductive Action where
  /-- A process starts an auto server. -/
  | join (topic : List Char) (pid : ℤ)
  /-- A server has evidence of a peer and decides. -/
  | decide (p : ℕ)
  /-- A server's next access; reading the pool may fail. -/
  | access (p : ℕ) (fails : Bool)
  /-- A server withdraws to its socket leg, or is destroyed. -/
  | stop (p : ℕ)
  | die (pid : ℤ)
  /-- Others enter themselves into the pool, and leave it. -/
  | enter (e : PoolEntry)
  | leave (e : PoolEntry)

/-- `pid_alive`. -/
def State.pidAlive (s : State) (pid : ℤ) : Bool := 0 < pid && pid ∉ s.dead

/-- The server at a place, if its process is still there. -/
def State.server (s : State) (p : ℕ) : Option Server :=
  match s.servers[p]? with
  | some v => if v.pid ∈ s.dead then none else some v
  | none => none

/-- A running server has built the channel and not yet stopped it. -/
def State.holds (s : State) (p : ℕ) : Bool := (s.server p).any fun v => v.pc.built

/-- The others whose channel a rebuild or a clearing would hit. -/
def State.victims (s : State) (p : ℕ) : List ℕ :=
  (List.range s.servers.length).filter fun q => q != p && s.holds q

def State.put (s : State) (p : ℕ) (v : Server) (pc : Pc) : State :=
  { s with servers := s.servers.set p { v with pc := pc } }

/-- Note whom a rebuild or a clearing hits. -/
def State.note (s : State) (p : ℕ) : State :=
  { s with harmed := s.harmed ++ (s.victims p).map fun q => (p, q) }

/-- The answer of `occupied_by_other` to what it has read. -/
def free (s : State) (self : ℤ) (owner : ℤ) (state : TopicState) : Bool :=
  state = .empty || owner = self || !s.pidAlive owner

def access (s : State) (p : ℕ) (v : Server) (fails : Bool) : Option State :=
  let c := s.control
  match v.pc with
  | .idle | .serving => none
  | .poll =>
      -- an entry of the same topic in another process, alive
      if fails || s.pool.any (fun e => e.topic = v.topic && e.pid != v.pid && s.pidAlive e.pid) then
        some (s.put p v .idle)
      else some (s.put p v .probe)
  | .probe =>
      if s.present then some { s.put p v .probeMagic with mapped := p :: s.mapped }
      else some (s.put p v .openControl)
  | .probeMagic =>
      if c.magic = topicControlMagic then some (s.put p v .probeOwner)
      else some { s.put p v .idle with mapped := s.mapped.erase p }
  | .probeOwner => some (s.put p v (.probeState c.ownerPid))
  | .probeState owner => some (s.put p v (.judge owner c.state))
  | .judge owner state =>
      -- `release_no_unlink`
      let s := { s with mapped := s.mapped.erase p }
      if free s v.pid owner state then some (s.put p v .openControl) else some (s.put p v .idle)
  | .openControl =>
      let c := if s.present then c else .fresh
      let c := if c.magic = topicControlMagic then c
        else { TopicControl.fresh with magic := topicControlMagic }
      some { s.put p v .storeClearing with
        present := true, control := c, mapped := p :: s.mapped }
  | .storeClearing =>
      some { (s.note p).put p v .storeOwner with control := { c with state := .clearing } }
  | .storeOwner => some { s.put p v .bumpGeneration with control := { c with ownerPid := v.pid } }
  | .bumpGeneration =>
      some { s.put p v .clearStorage with
        control := { c.clearAllPeerSlots with
          peerCount := 0#32, generation := c.generation + 1#32 } }
  | .clearStorage => some ((s.note p).put p v .createRings)
  | .createRings => some (s.put p v .storeReady)
  | .storeReady => some { s.put p v .enroll with control := { c with state := .ready } }
  | .enroll => some { s.put p v .serving with pool := ⟨v.topic, v.pid⟩ :: s.pool }
  | .storeStopping =>
      some { s.put p v .close with
        control := { c with state := .stopping }, pool := s.pool.erase ⟨v.topic, v.pid⟩ }
  | .close =>
      -- the last one that lets go removes the name
      let mapped := s.mapped.erase p
      some { s.put p v .idle with mapped := mapped, present := s.present && !mapped.isEmpty }

def step (segment : List Char) (domain : ℕ) (s : State) : Action → Option State
  | .join topic pid =>
      if shmServicePrefix topic domain = segment ∧ s.pidAlive pid then
        some { s with servers := s.servers ++ [⟨topic, pid, .idle⟩] }
      else none
  | .decide p =>
      match s.server p with
      | some v => if v.pc = .idle then some (s.put p v .poll) else none
      | none => none
  | .access p fails =>
      match s.server p with
      | some v => access s p v fails
      | none => none
  | .stop p =>
      match s.server p with
      | some v => if v.pc = .serving then some (s.put p v .storeStopping) else none
      | none => none
  | .die pid => some { s with dead := pid :: s.dead }
  | .enter e => some { s with pool := e :: s.pool }
  | .leave e => some { s with pool := s.pool.erase e }

/-- The servers whose topics derive one segment name. -/
def machine (segment : List Char) (domain : ℕ) : Machine State Action :=
  { init := ⟨false, .fresh, [], [], [], [], []⟩, step := step segment domain }

/-! ## The claim and the condition -/

/-- Nobody rebuilt or cleared a channel that another running server had built. -/
def NoHarm (s : State) : Prop := s.harmed = []

/-- A server begins its check while no other running server is between its check and the end of
its build, and no other running server of its own process has the channel. -/
def TakesTurn (s : State) : Action → Prop
  | .decide p => ∀ q < s.servers.length, q ≠ p →
      (s.server q).all (fun w => !w.pc.inSection) = true ∧
        (s.holds q = true → (s.server q).map Server.pid ≠ (s.server p).map Server.pid)
  | _ => True

instance : ∀ (s : State) (a : Action), Decidable (TakesTurn s a)
  | s, .decide p => inferInstanceAs (Decidable (∀ q < s.servers.length, q ≠ p →
      (s.server q).all (fun w => !w.pc.inSection) = true ∧
        (s.holds q = true → (s.server q).map Server.pid ≠ (s.server p).map Server.pid)))
  | _, .join _ _ | _, .access _ _ | _, .stop _ | _, .die _ | _, .enter _ | _, .leave _ =>
      inferInstanceAs (Decidable True)

/-! ## The invariant -/

/-- A running server of a process has the channel. -/
def Holder (s : State) (q : ℕ) (pid : ℤ) : Prop :=
  ∃ v, s.server q = some v ∧ v.pid = pid ∧ v.pc.built = true

/-- The server has the control segment open. -/
structure Mapped (s : State) (p : ℕ) : Prop where
  present : s.present = true
  magic : s.control.magic = topicControlMagic
  mapped : p ∈ s.mapped

/-- What a server at its place relies on. -/
def Place (s : State) (p : ℕ) (v : Server) : Prop :=
  match v.pc with
  | .probeState owner => ∀ q pid, q ≠ p → Holder s q pid → owner = pid
  | .judge owner state => ∀ q pid, q ≠ p → Holder s q pid → owner = pid ∧ state ≠ .empty
  | .openControl => ∀ q pid, ¬ Holder s q pid
  | .storeClearing => (∀ q pid, ¬ Holder s q pid) ∧ Mapped s p
  | .storeOwner => (∀ q pid, ¬ Holder s q pid) ∧ Mapped s p ∧ s.control.state ≠ .empty
  | .bumpGeneration | .clearStorage | .createRings =>
      (∀ q pid, ¬ Holder s q pid) ∧ Mapped s p ∧ s.control.state ≠ .empty ∧
        s.control.ownerPid = v.pid
  | .storeReady | .enroll | .serving =>
      Mapped s p ∧ s.control.state ≠ .empty ∧ s.control.ownerPid = v.pid
  | _ => True

structure Inv (s : State) : Prop where
  place : ∀ {p v}, s.server p = some v → Place s p v
  single : ∀ {p q v w}, s.server p = some v → s.server q = some w → v.pc.inSection = true →
    w.pc.inSection = true → p = q
  foreign : ∀ {p q v pid}, s.server p = some v → v.pc.inSection = true → q ≠ p → Holder s q pid →
    v.pid ≠ pid
  positive : ∀ {p v}, s.server p = some v → 0 < v.pid
  noHarm : NoHarm s

section

variable {s t : State} {p q : ℕ} {v w : Server} {pc : Pc}

theorem server_eq_some (h : s.server p = some v) : s.servers[p]? = some v ∧ v.pid ∉ s.dead := by
  unfold State.server at h
  split at h
  · split at h
    · cases h
    · rename_i hv hdead
      obtain rfl := Option.some.inj h
      exact ⟨hv, hdead⟩
  · cases h

theorem server_put (hp : s.server p = some v) (pc : Pc) (q : ℕ) :
    (s.put p v pc).server q = if q = p then some { v with pc := pc } else s.server q := by
  obtain ⟨hv, hdead⟩ := server_eq_some hp
  obtain ⟨hlt, -⟩ := List.getElem?_eq_some_iff.mp hv
  unfold State.server State.put
  dsimp only
  by_cases hqp : q = p
  · rw [hqp, List.getElem?_set_self hlt, if_pos rfl]
    exact if_neg hdead
  · rw [List.getElem?_set_ne (Ne.symm hqp), if_neg hqp]

theorem holder_of_holds (h : s.holds q = true) : ∃ pid, Holder s q pid := by
  unfold State.holds at h
  rw [Option.any_eq_true] at h
  obtain ⟨v, hv, hbuilt⟩ := h
  exact ⟨v.pid, v, hv, rfl, hbuilt⟩

theorem holds_of_holder {pid : ℤ} (h : Holder s q pid) : s.holds q = true := by
  obtain ⟨v, hv, -, hbuilt⟩ := h
  rw [State.holds, hv]
  exact hbuilt

/-- Where nobody has the channel, a rebuild hits nobody. -/
theorem note_harmed (hnone : ∀ q pid, ¬ Holder s q pid) (p : ℕ) : (s.note p).harmed = s.harmed := by
  have hvictims : s.victims p = [] := by
    refine List.filter_eq_nil_iff.mpr fun q _ hq => ?_
    rw [Bool.and_eq_true] at hq
    obtain ⟨pid, hholder⟩ := holder_of_holds hq.2
    exact hnone q pid hholder
  rw [State.note, hvictims]
  exact List.append_nil _

theorem Place.of_idle (hsection : w.pc.inSection = false) (hbuilt : w.pc.built = false) :
    Place t q w := by
  unfold Place
  cases hpc : w.pc
  all_goals rw [hpc] at hsection hbuilt
  all_goals trivial

theorem Place.of_built (h : Place s q w) (hbuilt : w.pc.built = true) :
    Mapped s q ∧ s.control.state ≠ .empty ∧ s.control.ownerPid = w.pid := by
  unfold Place at h
  cases hpc : w.pc
  all_goals rw [hpc] at hbuilt
  case storeReady | enroll | serving =>
    simp only [hpc] at h
    exact h
  all_goals cases hbuilt

/-- A server's place survives what others do: none of them gets the channel, the segment stays
open and is not put back to `Empty`, and its owner stays. -/
theorem Place.mono (h : Place s q w) (hholder : ∀ r pid, Holder t r pid → Holder s r pid)
    (hmapped : Mapped s q → Mapped t q)
    (hstate : s.control.state ≠ .empty → t.control.state ≠ .empty)
    (howner : t.control.ownerPid = s.control.ownerPid) : Place t q w := by
  unfold Place at h ⊢
  split
  all_goals rename_i hpc
  all_goals simp only [hpc] at h
  · exact fun r pid hr hhas => h r pid hr (hholder r pid hhas)
  · exact fun r pid hr hhas => h r pid hr (hholder r pid hhas)
  · exact fun r pid hhas => h r pid (hholder r pid hhas)
  · exact ⟨fun r pid hhas => h.1 r pid (hholder r pid hhas), hmapped h.2⟩
  · exact ⟨fun r pid hhas => h.1 r pid (hholder r pid hhas), hmapped h.2.1, hstate h.2.2⟩
  case h_6 | h_7 | h_8 =>
    exact ⟨fun r pid hhas => h.1 r pid (hholder r pid hhas), hmapped h.2.1, hstate h.2.2.1,
      howner.trans h.2.2.2⟩
  case h_9 | h_10 | h_11 => exact ⟨hmapped h.1, hstate h.2.1, howner.trans h.2.2⟩
  case h_12 => trivial

/-- A server that moves gets the channel only if it had it, or if it says so. -/
theorem holder_of_move (hserver : ∀ q, t.server q = if q = p then some { v with pc := pc }
      else s.server q) (hp : s.server p = some v) (hbuilt : pc.built = true → v.pc.built = true)
    (r : ℕ) (pid : ℤ) (h : Holder t r pid) : Holder s r pid := by
  obtain ⟨w, hw, hpid, hhas⟩ := h
  rw [hserver] at hw
  split at hw
  · rename_i hrp
    obtain rfl := Option.some.inj hw
    rw [hrp]
    exact ⟨v, hp, hpid, hbuilt hhas⟩
  · exact ⟨w, hw, hpid, hhas⟩

/-- A server is alone between its check and the end of its build. -/
def Alone (s : State) (p : ℕ) (v : Server) : Prop :=
  (∀ q w, q ≠ p → s.server q = some w → w.pc.inSection = false) ∧
    ∀ q pid, q ≠ p → Holder s q pid → v.pid ≠ pid

theorem Inv.alone (h : Inv s) (hp : s.server p = some v) (hsection : v.pc.inSection = true) :
    Alone s p v := by
  refine ⟨fun q w hqp hq => ?_, fun q pid hqp hq => h.foreign hp hsection hqp hq⟩
  by_contra hnot
  exact hqp (h.single hq hp (by simpa using hnot) hsection)

/-- One server moves on. -/
theorem Inv.advance (h : Inv s) (hp : s.server p = some v)
    (hserver : ∀ q, t.server q = if q = p then some { v with pc := pc } else s.server q)
    (hnoHarm : NoHarm t) (hsection : pc.inSection = true → Alone s p v)
    (hbuilt : pc.built = true → v.pc.built = true ∨ Alone s p v)
    (hplace : Place t p { v with pc := pc })
    (hothers : ∀ q w, q ≠ p → s.server q = some w → Place t q w) : Inv t := by
  have hcases : ∀ {q w}, t.server q = some w →
      q = p ∧ w = { v with pc := pc } ∨ q ≠ p ∧ s.server q = some w := by
    intro q w hw
    rw [hserver] at hw
    split at hw
    · exact .inl ⟨‹_›, (Option.some.inj hw).symm⟩
    · exact .inr ⟨‹_›, hw⟩
  have hholder : ∀ {q pid}, Holder t q pid →
      q = p ∧ pc.built = true ∧ v.pid = pid ∨ q ≠ p ∧ Holder s q pid := by
    rintro q pid ⟨w, hw, hpid, hhas⟩
    rcases hcases hw with ⟨hqp, rfl⟩ | ⟨hqp, hq⟩
    · exact .inl ⟨hqp, hhas, hpid⟩
    · exact .inr ⟨hqp, w, hq, hpid, hhas⟩
  constructor
  case place =>
    intro q w hw
    rcases hcases hw with ⟨rfl, rfl⟩ | ⟨hqp, hq⟩
    · exact hplace
    · exact hothers q w hqp hq
  case single =>
    intro q r w x hw hx hwin hxin
    rcases hcases hw with ⟨rfl, rfl⟩ | ⟨hqp, hq⟩
    · rcases hcases hx with ⟨hrq, -⟩ | ⟨hrq, hr⟩
      · exact hrq.symm
      · rw [(hsection hwin).1 r x hrq hr] at hxin
        cases hxin
    · rcases hcases hx with ⟨rfl, rfl⟩ | ⟨hrp, hr⟩
      · rw [(hsection hxin).1 q w hqp hq] at hwin
        cases hwin
      · exact h.single hq hr hwin hxin
  case foreign =>
    intro q r w pid hw hwin hrq hhas
    rcases hcases hw with ⟨rfl, rfl⟩ | ⟨hqp, hq⟩
    · rcases hholder hhas with ⟨hrp, -, -⟩ | ⟨hrp, hr⟩
      · exact absurd hrp hrq
      · exact (hsection hwin).2 r pid hrp hr
    · rcases hholder hhas with ⟨rfl, hpc, rfl⟩ | ⟨-, hr⟩
      · rcases hbuilt hpc with hold | halone
        · exact h.foreign hq hwin hrq ⟨v, hp, rfl, hold⟩
        · rw [halone.1 q w hqp hq] at hwin
          cases hwin
      · exact h.foreign hq hwin hrq hr
  case positive =>
    intro q w hw
    rcases hcases hw with ⟨rfl, rfl⟩ | ⟨-, hq⟩
    · show 0 < v.pid
      exact h.positive hp
    · exact h.positive hq
  case noHarm => exact hnoHarm

/-! ## The steps -/

/-- A step of the check, of a refusal or of a stop: the owner stays, the segment is not put back
to `Empty`, and nobody else loses it. -/
theorem Inv.turn (h : Inv s) (hp : s.server p = some v)
    (hserver : ∀ q, t.server q = if q = p then some { v with pc := pc } else s.server q)
    (hharmed : t.harmed = s.harmed) (hsection : pc.inSection = true → v.pc.inSection = true)
    (hbuilt : pc.built = true → v.pc.built = true)
    (hmapped : ∀ q, q ≠ p → Mapped s q → Mapped t q)
    (hstate : s.control.state ≠ .empty → t.control.state ≠ .empty)
    (howner : t.control.ownerPid = s.control.ownerPid)
    (hplace : Place t p { v with pc := pc }) : Inv t :=
  h.advance hp hserver (hharmed.trans h.noHarm) (fun hin => h.alone hp (hsection hin))
    (fun hpc => .inl (hbuilt hpc)) hplace fun q _ hqp hq =>
      (h.place hq).mono (holder_of_move hserver hp hbuilt) (hmapped q hqp) hstate howner

/-- A step of the build: nobody else has the channel or is about to. -/
theorem Inv.build (h : Inv s) (hp : s.server p = some v) (hin : v.pc.inSection = true)
    (hnone : ∀ q pid, ¬ Holder s q pid)
    (hserver : ∀ q, t.server q = if q = p then some { v with pc := pc } else s.server q)
    (hharmed : t.harmed = s.harmed) (hplace : Place t p { v with pc := pc }) : Inv t := by
  have halone := h.alone hp hin
  refine h.advance hp hserver (hharmed.trans h.noHarm) (fun _ => halone) (fun _ => .inr halone)
    hplace fun q w hqp hq => Place.of_idle (halone.1 q w hqp hq) ?_
  by_contra hnot
  exact hnone q w.pid ⟨w, hq, rfl, by simpa using hnot⟩

/-- Nobody has the channel after a step of the build that does not end it. -/
theorem none_of_build (hp : s.server p = some v) (hnone : ∀ q pid, ¬ Holder s q pid)
    (hserver : ∀ q, t.server q = if q = p then some { v with pc := pc } else s.server q)
    (hbuilt : pc.built = false) (q : ℕ) (pid : ℤ) : ¬ Holder t q pid := fun hhas =>
  hnone q pid (holder_of_move hserver hp (fun hpc => by rw [hbuilt] at hpc; cases hpc) q pid hhas)

/-- The check may let a server pass: nobody has the channel. -/
theorem none_of_free (h : Inv s) (hp : s.server p = some v) {owner : ℤ} {state : TopicState}
    (hpc : v.pc = .judge owner state) (hfree : free s v.pid owner state = true) (q : ℕ) (pid : ℤ) :
    ¬ Holder s q pid := by
  intro hhas
  have hqp : q ≠ p := by
    rintro rfl
    obtain ⟨w, hw, -, hbuilt⟩ := hhas
    rw [hp] at hw
    obtain rfl := Option.some.inj hw
    rw [hpc] at hbuilt
    cases hbuilt
  have hplace := h.place hp
  simp only [Place, hpc] at hplace
  obtain ⟨rfl, hstate⟩ := hplace q pid hqp hhas
  have hforeign := h.foreign hp (by rw [hpc]; rfl) hqp hhas
  obtain ⟨w, hw, rfl, -⟩ := hhas
  have halive : s.pidAlive w.pid = true := by
    simp [State.pidAlive, h.positive hw, (server_eq_some hw).2]
  simp only [free, halive, Bool.not_true, Bool.or_false, Bool.or_eq_true, decide_eq_true_eq]
    at hfree
  rcases hfree with hempty | hself
  · exact hstate hempty
  · exact hforeign hself.symm

/-- While there is no segment nobody has the channel. -/
theorem none_of_absent (h : Inv s) (habsent : s.present = false) (q : ℕ) (pid : ℤ) :
    ¬ Holder s q pid := by
  rintro ⟨w, hw, -, hbuilt⟩
  rw [((h.place hw).of_built hbuilt).1.present] at habsent
  cases habsent

theorem Inv.access (h : Inv s) (hp : s.server p = some v) {fails : Bool}
    (hstep : access s p v fails = some t) : Inv t := by
  have hplace := h.place hp
  -- one's own mapping is nobody else's
  have hcons : ∀ q, Mapped s q → q ∈ p :: s.mapped := fun q hm => List.mem_cons_of_mem p hm.mapped
  have herase : ∀ q, q ≠ p → Mapped s q → q ∈ s.mapped.erase p := fun q hqp hm =>
    (List.mem_erase_of_ne hqp).mpr hm.mapped
  unfold Occupancy.access at hstep
  unfold Place at hplace
  cases hpc : v.pc
  all_goals simp only [hpc] at hstep hplace
  case idle | serving => cases hstep
  case poll =>
    split at hstep
    all_goals
      cases hstep
      exact h.turn hp (server_put hp _) rfl (by rw [hpc]; exact fun _ => rfl) nofun
        (fun _ _ hm => ⟨hm.present, hm.magic, hm.mapped⟩) id rfl trivial
  case probe =>
    split at hstep
    · cases hstep
      exact h.turn hp (server_put hp _) rfl (by rw [hpc]; exact fun _ => rfl) nofun
        (fun q _ hm => ⟨hm.present, hm.magic, hcons q hm⟩) id rfl trivial
    · rename_i habsent
      have hnone := none_of_absent h (by simpa using habsent)
      cases hstep
      exact h.build hp (by rw [hpc]; rfl) hnone (server_put hp _) rfl
        (none_of_build hp hnone (server_put hp _) rfl)
  case probeMagic =>
    split at hstep
    · cases hstep
      exact h.turn hp (server_put hp _) rfl (by rw [hpc]; exact fun _ => rfl) nofun
        (fun _ _ hm => ⟨hm.present, hm.magic, hm.mapped⟩) id rfl trivial
    · cases hstep
      exact h.turn hp (server_put hp _) rfl nofun nofun
        (fun q hqp hm => ⟨hm.present, hm.magic, herase q hqp hm⟩) id rfl trivial
  case probeOwner =>
    cases hstep
    refine h.turn hp (server_put hp _) rfl (by rw [hpc]; exact fun _ => rfl) nofun
      (fun _ _ hm => ⟨hm.present, hm.magic, hm.mapped⟩) id rfl ?_
    rintro q pid hqp hhas
    obtain ⟨w, hw, rfl, hbuilt⟩ :=
      holder_of_move (server_put hp (.probeState s.control.ownerPid)) hp nofun q pid hhas
    exact ((h.place hw).of_built hbuilt).2.2
  case probeState owner =>
    cases hstep
    refine h.turn hp (server_put hp _) rfl (by rw [hpc]; exact fun _ => rfl) nofun
      (fun _ _ hm => ⟨hm.present, hm.magic, hm.mapped⟩) id rfl ?_
    rintro q pid hqp hhas
    have hold := holder_of_move (server_put hp (.judge owner s.control.state)) hp nofun q pid hhas
    obtain ⟨w, hw, -, hbuilt⟩ := id hold
    exact ⟨hplace q pid hqp hold, ((h.place hw).of_built hbuilt).2.1⟩
  case judge owner state =>
    split at hstep
    · rename_i hfree
      have hnone := none_of_free h hp hpc hfree
      cases hstep
      exact h.build hp (by rw [hpc]; rfl) hnone (server_put hp _) rfl
        (none_of_build hp hnone (server_put hp _) rfl)
    · cases hstep
      exact h.turn hp (server_put hp _) rfl nofun nofun
        (fun q hqp hm => ⟨hm.present, hm.magic, herase q hqp hm⟩) id rfl trivial
  case openControl =>
    cases hstep
    refine h.build hp (by rw [hpc]; rfl) hplace (server_put hp _) rfl
      ⟨none_of_build hp hplace (server_put hp _) rfl, rfl, ?_, List.mem_cons_self⟩
    dsimp only
    split_ifs <;> first | assumption | rfl
  case storeClearing =>
    cases hstep
    refine h.build hp (by rw [hpc]; rfl) hplace.1 (server_put hp _) (note_harmed hplace.1 p)
      ⟨none_of_build hp hplace.1 (server_put hp _) rfl, ?_, TopicState.noConfusion⟩
    exact ⟨hplace.2.present, hplace.2.magic, hplace.2.mapped⟩
  case storeOwner =>
    cases hstep
    obtain ⟨hnone, hmapped, hstate⟩ := hplace
    exact h.build hp (by rw [hpc]; rfl) hnone (server_put hp _) rfl
      ⟨none_of_build hp hnone (server_put hp _) rfl, ⟨hmapped.present, hmapped.magic, hmapped.mapped⟩,
        hstate, rfl⟩
  case bumpGeneration =>
    cases hstep
    obtain ⟨hnone, hmapped, hstate, howner⟩ := hplace
    exact h.build hp (by rw [hpc]; rfl) hnone (server_put hp _) rfl
      ⟨none_of_build hp hnone (server_put hp _) rfl, ⟨hmapped.present, hmapped.magic, hmapped.mapped⟩,
        hstate, howner⟩
  case clearStorage =>
    cases hstep
    obtain ⟨hnone, hmapped, hstate, howner⟩ := hplace
    exact h.build hp (by rw [hpc]; rfl) hnone (server_put hp _) (note_harmed hnone p)
      ⟨none_of_build hp hnone (server_put hp _) rfl, ⟨hmapped.present, hmapped.magic, hmapped.mapped⟩,
        hstate, howner⟩
  case createRings =>
    cases hstep
    obtain ⟨hnone, hmapped, hstate, howner⟩ := hplace
    exact h.build hp (by rw [hpc]; rfl) hnone (server_put hp _) rfl
      ⟨⟨hmapped.present, hmapped.magic, hmapped.mapped⟩, hstate, howner⟩
  case storeReady =>
    cases hstep
    obtain ⟨hmapped, -, howner⟩ := hplace
    exact h.turn hp (server_put hp _) rfl nofun (fun _ => by rw [hpc]; rfl)
      (fun _ _ hm => ⟨hm.present, hm.magic, hm.mapped⟩) (fun _ => TopicState.noConfusion) rfl
      ⟨⟨hmapped.present, hmapped.magic, hmapped.mapped⟩, TopicState.noConfusion, howner⟩
  case enroll =>
    cases hstep
    obtain ⟨hmapped, hstate, howner⟩ := hplace
    exact h.turn hp (server_put hp _) rfl nofun (fun _ => by rw [hpc]; rfl)
      (fun _ _ hm => ⟨hm.present, hm.magic, hm.mapped⟩) id rfl
      ⟨⟨hmapped.present, hmapped.magic, hmapped.mapped⟩, hstate, howner⟩
  case storeStopping =>
    cases hstep
    exact h.turn hp (server_put hp _) rfl nofun nofun
      (fun _ _ hm => ⟨hm.present, hm.magic, hm.mapped⟩) (fun _ => TopicState.noConfusion) rfl trivial
  case close =>
    cases hstep
    refine h.turn hp (server_put hp _) rfl nofun nofun (fun q hqp hm => ?_) id rfl trivial
    have hmem := herase q hqp hm
    refine ⟨?_, hm.magic, hmem⟩
    have hne : (s.mapped.erase p).isEmpty = false := by
      rw [List.isEmpty_eq_false_iff]
      exact List.ne_nil_of_mem hmem
    simp [hm.present, hne]

/-- A server begins its check in its turn. -/
theorem Inv.decide (h : Inv s) (hp : s.server p = some v)
    (hturn : TakesTurn s (.decide p)) : Inv (s.put p v .poll) := by
  have hlt : ∀ {q w}, s.server q = some w → q < s.servers.length := fun hq =>
    (List.getElem?_eq_some_iff.mp (server_eq_some hq).1).1
  have halone : Alone s p v := by
    refine ⟨fun q w hqp hq => ?_, fun q pid hqp hhas => ?_⟩
    · have hout := (hturn q (hlt hq) hqp).1
      rw [hq] at hout
      simpa using hout
    · have hholds := holds_of_holder hhas
      obtain ⟨w, hw, rfl, -⟩ := hhas
      have hne := (hturn q (hlt hw) hqp).2 hholds
      rw [hw, hp] at hne
      exact fun heq => hne (by rw [Option.map_some, Option.map_some, heq])
  refine h.advance hp (server_put hp _) h.noHarm (fun _ => halone) nofun trivial
    fun q w hqp hq => (h.place hq).mono (holder_of_move (server_put hp .poll) hp nofun)
      (fun hm => ⟨hm.present, hm.magic, hm.mapped⟩) id rfl

/-- A state in which there are no servers but those there were, and each as it was. -/
theorem Inv.fewer (h : Inv s) (hserver : ∀ {q w}, t.server q = some w → s.server q = some w)
    (hcontrol : t.control = s.control) (hpresent : t.present = s.present)
    (hmapped : t.mapped = s.mapped) (hharmed : t.harmed = s.harmed) : Inv t := by
  have hholder : ∀ r pid, Holder t r pid → Holder s r pid := fun r pid ⟨w, hw, hpid, hbuilt⟩ =>
    ⟨w, hserver hw, hpid, hbuilt⟩
  constructor
  case place =>
    intro q w hq
    refine (h.place (hserver hq)).mono hholder (fun hm => ⟨?_, ?_, ?_⟩) (fun hs => ?_) ?_
    · exact hpresent.trans hm.present
    · rw [hcontrol]
      exact hm.magic
    · rw [hmapped]
      exact hm.mapped
    · rw [hcontrol]
      exact hs
    · rw [hcontrol]
  case single =>
    intro q r w x hq hr
    exact h.single (hserver hq) (hserver hr)
  case foreign =>
    intro q r w pid hq hin hrq hhas
    exact h.foreign (hserver hq) hin hrq (hholder r pid hhas)
  case positive =>
    intro q w hq
    exact h.positive (hserver hq)
  case noHarm => exact hharmed.trans h.noHarm

/-- A new server has not decided anything. -/
theorem Inv.join (h : Inv s) {topic : List Char} {pid : ℤ} (halive : s.pidAlive pid = true) :
    Inv { s with servers := s.servers ++ [⟨topic, pid, .idle⟩] } := by
  have hcases : ∀ {q w}, State.server { s with servers := s.servers ++ [⟨topic, pid, .idle⟩] } q
      = some w → s.server q = some w ∨ w = ⟨topic, pid, .idle⟩ := by
    intro q w hq
    obtain ⟨hget, hdead⟩ := server_eq_some hq
    dsimp only at hget hdead
    rw [List.getElem?_append] at hget
    split at hget
    · left
      rw [State.server, hget]
      exact if_neg hdead
    · right
      rw [List.getElem?_singleton] at hget
      split at hget
      · exact (Option.some.inj hget).symm
      · cases hget
  have hholder : ∀ r pid', Holder { s with servers := s.servers ++ [⟨topic, pid, .idle⟩] } r pid' →
      Holder s r pid' := by
    rintro r pid' ⟨w, hw, hpid, hbuilt⟩
    rcases hcases hw with hold | rfl
    · exact ⟨w, hold, hpid, hbuilt⟩
    · cases hbuilt
  constructor
  case place =>
    intro q w hq
    rcases hcases hq with hold | rfl
    · exact (h.place hold).mono hholder (fun hm => ⟨hm.present, hm.magic, hm.mapped⟩) id rfl
    · trivial
  case single =>
    intro q r w x hq hr hwin hxin
    rcases hcases hq with hold | rfl
    · rcases hcases hr with hold' | rfl
      · exact h.single hold hold' hwin hxin
      · cases hxin
    · cases hwin
  case foreign =>
    intro q r w pid' hq hin hrq hhas
    rcases hcases hq with hold | rfl
    · exact h.foreign hold hin hrq (hholder r pid' hhas)
    · cases hin
  case positive =>
    intro q w hq
    rcases hcases hq with hold | rfl
    · exact h.positive hold
    · simp only [State.pidAlive, Bool.and_eq_true, decide_eq_true_eq] at halive
      exact halive.1
  case noHarm => exact h.noHarm

theorem Inv.step (h : Inv s) {segment : List Char} {domain : ℕ} {a : Action}
    (hturn : TakesTurn s a) (hstep : step segment domain s a = some t) : Inv t := by
  cases a with
  | join topic pid =>
      simp only [Occupancy.step] at hstep
      split at hstep
      · rename_i hjoins
        cases hstep
        exact h.join hjoins.2
      · cases hstep
  | decide p =>
      simp only [Occupancy.step] at hstep
      split at hstep
      · rename_i v hp
        split at hstep
        · cases hstep
          exact h.decide hp hturn
        · cases hstep
      · cases hstep
  | access p fails =>
      simp only [Occupancy.step] at hstep
      split at hstep
      · rename_i v hp
        exact h.access hp hstep
      · cases hstep
  | stop p =>
      simp only [Occupancy.step] at hstep
      split at hstep
      · rename_i v hp
        split at hstep
        · rename_i hpc
          cases hstep
          exact h.turn hp (server_put hp _) rfl nofun nofun
            (fun _ _ hm => ⟨hm.present, hm.magic, hm.mapped⟩) id rfl trivial
        · cases hstep
      · cases hstep
  | die pid =>
      cases hstep
      refine h.fewer (fun {q w} hq => ?_) rfl rfl rfl rfl
      obtain ⟨hget, hdead⟩ := server_eq_some hq
      rw [State.server, show s.servers[q]? = some w from hget]
      exact if_neg fun hmem => hdead (List.mem_cons_of_mem pid hmem)
  | enter e =>
      cases hstep
      exact h.fewer (fun hq => hq) rfl rfl rfl rfl
  | leave e =>
      cases hstep
      exact h.fewer (fun hq => hq) rfl rfl rfl rfl

end

/-! ## The result -/

/-- **The occupancy guard.**  In every state of a run in which the servers take turns, no server
has rebuilt or cleared a channel that another running server had built. -/
theorem noHarm_of_guarded (segment : List Char) (domain : ℕ) {actions : List Action} {s : State}
    (hguarded : (machine segment domain).Guarded TakesTurn actions)
    (hrun : (machine segment domain).run actions = some s) : NoHarm s := by
  have hinit : Inv (machine segment domain).init :=
    { place := nofun, single := nofun, foreign := nofun, positive := nofun, noHarm := rfl }
  have hinv : Inv s := Machine.invariant_of_guarded hinit
    (fun _ _ _ hs hturn hstep => hs.step hturn hstep) hguarded hrun
  exact hinv.noHarm

/-- The next accesses of a server. -/
def accesses (p n : ℕ) : List Action := List.replicate n (.access p false)

/-- The segment of the topics `x/y` and `x_y` of domain 3. -/
def sampleSegment : List Char := shmServicePrefix ['x', '_', 'y'] 3

/-- Two servers with names for one segment: the second one finds the channel occupied, and later
free. -/
def inTurns : List Action :=
  [.join ['x', '_', 'y'] 100, .join ['x', '/', 'y'] 200] ++
    (.decide 0 :: accesses 0 10) ++ (.decide 1 :: accesses 1 6) ++ (.stop 0 :: accesses 0 2) ++
    (.decide 1 :: accesses 1 10)

theorem noHarm_inTurns : ∃ s, (machine sampleSegment 3).run inTurns = some s ∧ NoHarm s ∧
    s.servers.map Server.pc = [.idle, .serving] := by
  obtain ⟨s, hrun, hservers⟩ := Machine.exists_of_any (M := machine sampleSegment 3)
    (P := fun s => s.servers.map Server.pc = [.idle, .serving])
    (show ((machine sampleSegment 3).run inTurns).any _ = true by decide +kernel)
  have hguarded : (machine sampleSegment 3).Guarded TakesTurn inTurns := by decide +kernel
  exact ⟨s, hrun, noHarm_of_guarded _ _ hguarded hrun, hservers⟩

/-- Both servers ask before either builds. -/
def overlapping : List Action :=
  [.join ['x', '_', 'y'] 100, .join ['x', '/', 'y'] 200] ++
    (.decide 0 :: accesses 0 2) ++ (.decide 1 :: accesses 1 2) ++ accesses 0 8 ++ accesses 1 2

/-- The second server rebuilds the channel that the first one serves. -/
theorem both_found_free :
    ∃ s, (machine sampleSegment 3).run overlapping = some s ∧ ¬ NoHarm s := by
  obtain ⟨s, hrun, hharmed⟩ := Machine.exists_of_any (M := machine sampleSegment 3)
    (P := fun s => s.harmed = [(1, 0)])
    (show ((machine sampleSegment 3).run overlapping).any _ = true by decide +kernel)
  refine ⟨s, hrun, fun hsafe => ?_⟩
  rw [NoHarm, hharmed] at hsafe
  cases hsafe

end DzIpc.Control.Occupancy
