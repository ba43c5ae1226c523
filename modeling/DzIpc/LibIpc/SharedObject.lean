import DzIpc.Library.Machine
import DzIpc.Library.Parties
import Mathlib.Data.Int.Notation

/-!
# Handles of one shared memory object

`shm_posix.cpp`: a handle opens the object under a name or creates it, sizes and maps it, and only
then counts itself in the memory of the object; who counts itself out and was the last one unlinks
the name.  These are separate steps, the parties take theirs in any order, and a party may die
anywhere.  All of them ask for one size.

* `Counted`: the counter of an object is the number of its mapped handles and of those that died
  with it mapped.
* `one_object_iff`: all handles lead to the object under the name, all along, exactly where nobody
  unlinks while a handle leads to an object.
* `gone_of_away`: where everybody releases, the name is gone when the last handle is.
* `stays_of_dead`: a party that dies with the object mapped leaves it under the name for good.
-/

namespace DzIpc.LibIpc.SharedObject

/-! ## Handles -/

/-- The `mode` of `acquire`. -/
inductive Mode where
  | openOnly
  | createOnly
  | createOrOpen
  deriving DecidableEq

/-- A handle: none, with a descriptor of an object (and whether it asks the object for its size),
without memory, mapped, or counted out and about to unlink. -/
inductive Handle where
  | away
  | opened (obj : ℕ) (asks : Bool)
  | failed
  | mapped (obj : ℕ)
  | last
  deriving DecidableEq

/-- The handle maps the object. -/
def Handle.maps (o : ℕ) : Handle → Bool
  | .mapped o' => o' = o
  | _ => false

/-- The object the handle leads to. -/
def Handle.object : Handle → Option ℕ
  | .mapped o | .opened o _ => some o
  | _ => none

/-- The object under the name, how many have been created, and of each its counter `acc_` and
whether it has its size; the handles, and how many died with an object mapped. -/
structure State where
  linked : Option ℕ
  created : ℕ
  acc : ℕ → ℤ
  sized : ℕ → Bool
  handles : List Handle
  dead : ℕ → ℕ

inductive Action where
  | acquire (i : ℕ) (mode : Mode)
  | getMem (i : ℕ)
  | mapFails (i : ℕ)
  | release (i : ℕ)
  | releaseNoUnlink (i : ℕ)
  | clear (i : ℕ)
  | unlink (i : ℕ)
  | clearStorage
  | die (i : ℕ)
  deriving DecidableEq

/-- Party `i` has the handle `h` now. -/
def State.put (s : State) (i : ℕ) (h : Handle) : State :=
  { s with handles := s.handles.set i h }

/-- `acquire`: `shm_open` finds the object under the name, or makes a new one. -/
def State.acquire (s : State) (i : ℕ) (mode : Mode) : State :=
  match mode, s.linked with
  | .openOnly, none | .createOnly, some _ => s
  | .openOnly, some o => s.put i (.opened o true)
  | .createOrOpen, some o => s.put i (.opened o false)
  | .createOnly, none | .createOrOpen, none =>
      { s.put i (.opened s.created false) with linked := some s.created, created := s.created + 1 }

/-- `get_mem`: the object gets its size or is asked for it, and the handle counts itself in.  An
object without a size is not mapped. -/
def State.getMem (s : State) (i o : ℕ) (asks : Bool) : State :=
  if asks && !s.sized o then s.put i .failed
  else
    { s.put i (.mapped o) with
      sized := Function.update s.sized o true
      acc := Function.update s.acc o (s.acc o + 1) }

/-- `fetch_sub` on the counter, after which the handle is `h`. -/
def State.countOut (s : State) (i o : ℕ) (h : Handle) : State :=
  { s.put i h with acc := Function.update s.acc o (s.acc o - 1) }

/-- One step.  `remove` moves the name out of the handle before it releases it, and unlinks once. -/
def step (s : State) : Action → Option State
  | .acquire i mode =>
      match s.handles[i]? with
      | some .away => some (s.acquire i mode)
      | _ => none
  | .getMem i =>
      match s.handles[i]? with
      | some (.opened o asks) => some (s.getMem i o asks)
      | _ => none
  | .mapFails i =>
      match s.handles[i]? with
      | some (.opened _ _) => some (s.put i .failed)
      | _ => none
  | .release i =>
      match s.handles[i]? with
      | some (.mapped o) => some (s.countOut i o (if s.acc o ≤ 1 then .last else .away))
      | some .failed => some (s.put i .away)
      | _ => none
  | .releaseNoUnlink i =>
      match s.handles[i]? with
      | some (.mapped o) => some (s.countOut i o .away)
      | some .failed => some (s.put i .away)
      | _ => none
  | .clear i =>
      match s.handles[i]? with
      | some (.mapped o) => some (s.countOut i o .last)
      | some .failed => some (s.put i .last)
      | _ => none
  | .unlink i =>
      match s.handles[i]? with
      | some .last => some { s.put i .away with linked := none }
      | _ => none
  | .clearStorage => some { s with linked := none }
  | .die i =>
      match s.handles[i]? with
      | some (.mapped o) =>
          some { s.put i .away with dead := Function.update s.dead o (s.dead o + 1) }
      | some _ => some (s.put i .away)
      | none => none

def init (parties : ℕ) : State where
  linked := none
  created := 0
  acc := fun _ => 0
  sized := fun _ => false
  handles := List.replicate parties .away
  dead := fun _ => 0

def machine (parties : ℕ) : Machine State Action := ⟨init parties, step⟩

/-! ## What a step does -/

/-- The steps of the parties.  Those that only give a handle up are one. -/
inductive Step (s : State) : Action → State → Prop
  | refused {i mode} (hi : s.handles[i]? = some .away) : Step s (.acquire i mode) s
  | found {i mode o asks} (hi : s.handles[i]? = some .away) (ho : s.linked = some o) :
      Step s (.acquire i mode) (s.put i (.opened o asks))
  | created {i mode} (hi : s.handles[i]? = some .away) (ho : s.linked = none) :
      Step s (.acquire i mode)
        { s.put i (.opened s.created false) with
          linked := some s.created
          created := s.created + 1 }
  | unsized {i o} (hi : s.handles[i]? = some (.opened o true)) (ho : s.sized o = false) :
      Step s (.getMem i) (s.put i .failed)
  | getMem {i o asks} (hi : s.handles[i]? = some (.opened o asks)) :
      Step s (.getMem i)
        { s.put i (.mapped o) with
          sized := Function.update s.sized o true
          acc := Function.update s.acc o (s.acc o + 1) }
  | mapFails {i o asks} (hi : s.handles[i]? = some (.opened o asks)) :
      Step s (.mapFails i) (s.put i .failed)
  | countOut {i o} (hi : s.handles[i]? = some (.mapped o)) (hacc : ¬ s.acc o ≤ 1) :
      Step s (.release i) (s.countOut i o .away)
  | last {i o} (hi : s.handles[i]? = some (.mapped o)) (hacc : s.acc o ≤ 1) :
      Step s (.release i) (s.countOut i o .last)
  | leave {i o} (hi : s.handles[i]? = some (.mapped o)) :
      Step s (.releaseNoUnlink i) (s.countOut i o .away)
  | clear {i o} (hi : s.handles[i]? = some (.mapped o)) :
      Step s (.clear i) (s.countOut i o .last)
  | dropped {i a} (hi : s.handles[i]? = some .failed)
      (ha : a = .release i ∨ a = .releaseNoUnlink i) : Step s a (s.put i .away)
  | clearFailed {i} (hi : s.handles[i]? = some .failed) : Step s (.clear i) (s.put i .last)
  | unlink {i} (hi : s.handles[i]? = some .last) :
      Step s (.unlink i) { s.put i .away with linked := none }
  | clearStorage : Step s .clearStorage { s with linked := none }
  | dieMapped {i o} (hi : s.handles[i]? = some (.mapped o)) :
      Step s (.die i) { s.put i .away with dead := Function.update s.dead o (s.dead o + 1) }
  | die {i h} (hi : s.handles[i]? = some h) (hh : ∀ o, h ≠ .mapped o) :
      Step s (.die i) (s.put i .away)

theorem step_cases {s t : State} {a : Action} (hstep : step s a = some t) : Step s a t := by
  cases a with
  | acquire i mode =>
      simp only [step] at hstep
      split at hstep
      next hi =>
        obtain rfl := Option.some.inj hstep
        unfold State.acquire
        split
        next => exact .refused hi
        next => exact .refused hi
        next ho => exact .found hi ho
        next ho => exact .found hi ho
        next ho => exact .created hi ho
        next ho => exact .created hi ho
      next => cases hstep
  | getMem i =>
      simp only [step] at hstep
      split at hstep
      next o asks hi =>
        obtain rfl := Option.some.inj hstep
        unfold State.getMem
        split
        next hunsized =>
          simp only [Bool.and_eq_true, Bool.not_eq_true'] at hunsized
          obtain ⟨rfl, ho⟩ := hunsized
          exact .unsized hi ho
        next => exact .getMem hi
      next => cases hstep
  | mapFails i =>
      simp only [step] at hstep
      split at hstep
      next hi =>
        cases hstep
        exact .mapFails hi
      next => cases hstep
  | release i =>
      simp only [step] at hstep
      split at hstep
      next o hi =>
        obtain rfl := Option.some.inj hstep
        split
        next hacc => exact .last hi hacc
        next hacc => exact .countOut hi hacc
      next hi =>
        cases hstep
        exact .dropped hi (.inl rfl)
      next => cases hstep
  | releaseNoUnlink i =>
      simp only [step] at hstep
      split at hstep
      next hi =>
        cases hstep
        exact .leave hi
      next hi =>
        cases hstep
        exact .dropped hi (.inr rfl)
      next => cases hstep
  | clear i =>
      simp only [step] at hstep
      split at hstep
      next hi =>
        cases hstep
        exact .clear hi
      next hi =>
        cases hstep
        exact .clearFailed hi
      next => cases hstep
  | unlink i =>
      simp only [step] at hstep
      split at hstep
      next hi =>
        cases hstep
        exact .unlink hi
      next => cases hstep
  | clearStorage =>
      cases hstep
      exact .clearStorage
  | die i =>
      simp only [step] at hstep
      split at hstep
      next hi =>
        cases hstep
        exact .dieMapped hi
      next h hne hi =>
        cases hstep
        exact .die hi hne
      next => cases hstep

/-! ## The counters -/

/-- The counter of an object is the number of handles that map it and of those that died with it
mapped. -/
def Counted (s : State) : Prop :=
  ∀ o, s.acc o = (s.handles.countP (Handle.maps o) : ℤ) + s.dead o

theorem counted_init (parties : ℕ) : Counted (init parties) := by
  intro o
  have hnone : (List.replicate parties Handle.away).countP (Handle.maps o) = 0 := by
    rw [List.countP_replicate]
    rfl
  change 0 = (((List.replicate parties Handle.away).countP (Handle.maps o) : ℕ) : ℤ) + (0 : ℕ)
  omega

/-- A party changes its handle, and what it maps less or more the counter or the dead make up. -/
theorem Counted.put {s t : State} {i : ℕ} {h h' : Handle} (hs : Counted s)
    (hi : s.handles[i]? = some h) (ht : t.handles = s.handles.set i h')
    (hsum : ∀ o, t.acc o + (h.maps o).toNat + s.dead o = s.acc o + (h'.maps o).toNat + t.dead o) :
    Counted t := by
  intro o
  have hcount := Parties.countP_set h' hi (Handle.maps o)
  have hacc := hs o
  have hshare := hsum o
  rw [ht]
  omega

/-- The shares of the counter when a handle of `o` comes or goes. -/
theorem maps_mapped (o o' : ℕ) : ((Handle.mapped o).maps o').toNat = if o' = o then 1 else 0 := by
  by_cases ho : o' = o
  · subst ho
    simp [Handle.maps]
  · have hne : o ≠ o' := fun h => ho h.symm
    simp [Handle.maps, ho, hne]

theorem Counted.countOut {s : State} {i o : ℕ} {h' : Handle} (hs : Counted s)
    (hi : s.handles[i]? = some (.mapped o)) (hh' : ∀ o', h'.maps o' = false) :
    Counted (s.countOut i o h') := by
  refine hs.put hi rfl fun o' => ?_
  change Function.update s.acc o (s.acc o - 1) o' + _ + (s.dead o' : ℤ) = _ + _ + (s.dead o' : ℤ)
  rw [maps_mapped, hh', Function.update_apply]
  split
  next ho =>
    rw [ho]
    simp
  next => simp

theorem Counted.step {s t : State} {a : Action} (hs : Counted s) (hstep : step s a = some t) :
    Counted t := by
  cases step_cases hstep with
  | refused hi => exact hs
  | found hi ho => exact hs.put hi rfl fun o => rfl
  | created hi ho => exact hs.put hi rfl fun o => rfl
  | unsized hi ho => exact hs.put hi rfl fun o => rfl
  | @getMem i o asks hi =>
      refine hs.put hi rfl fun o' => ?_
      change Function.update s.acc o (s.acc o + 1) o' + (0 : ℕ) + (s.dead o' : ℤ) =
        s.acc o' + _ + (s.dead o' : ℤ)
      rw [maps_mapped, Function.update_apply]
      split
      next ho =>
        rw [ho]
        simp
      next => simp
  | mapFails hi => exact hs.put hi rfl fun o => rfl
  | countOut hi hacc => exact hs.countOut hi fun _ => rfl
  | last hi hacc => exact hs.countOut hi fun _ => rfl
  | leave hi => exact hs.countOut hi fun _ => rfl
  | clear hi => exact hs.countOut hi fun _ => rfl
  | dropped hi ha => exact hs.put hi rfl fun o => rfl
  | clearFailed hi => exact hs.put hi rfl fun o => rfl
  | unlink hi => exact hs.put hi rfl fun o => rfl
  | clearStorage => exact hs
  | @dieMapped i o hi =>
      refine hs.put hi rfl fun o' => ?_
      change s.acc o' + _ + (s.dead o' : ℤ) =
        s.acc o' + (0 : ℕ) + (Function.update s.dead o (s.dead o + 1) o' : ℕ)
      rw [maps_mapped, Function.update_apply]
      split
      next ho =>
        rw [ho]
        omega
      next => omega
  | @die i h hi hh =>
      have hmaps : ∀ o, h.maps o = false := by
        intro o
        cases h with
        | mapped o' => exact absurd rfl (hh o')
        | away | opened | failed | last => rfl
      refine hs.put hi rfl fun o => ?_
      rw [hmaps]
      rfl

/-- A counter above one at a mapped handle: another one maps the object, or a party died. -/
theorem Counted.other {s : State} {i o : ℕ} (hs : Counted s)
    (hi : s.handles[i]? = some (.mapped o)) (hacc : ¬ s.acc o ≤ 1) (hdead : s.dead o = 0)
    {h' : Handle} (hh' : h'.maps o = false) : .mapped o ∈ s.handles.set i h' := by
  have hcount := Parties.countP_set h' hi (Handle.maps o)
  rw [maps_mapped, hh', if_pos rfl] at hcount
  have hpos : 0 < (s.handles.set i h').countP (Handle.maps o) := by
    have h := hs o
    rw [hdead] at h
    simp only [Bool.toNat_false] at hcount
    omega
  obtain ⟨h, hmem, hmaps⟩ := List.countP_pos_iff.mp hpos
  cases h with
  | mapped o' =>
      obtain rfl : o' = o := of_decide_eq_true hmaps
      exact hmem
  | away | opened | failed | last => cases hmaps

/-! ## The object under the name -/

/-- Handles lead to the object under the name. -/
def OneObject (s : State) : Prop :=
  ∀ h ∈ s.handles, h.object ≠ none → h.object = s.linked

/-- The name is given up. -/
def Action.unlinks : Action → Bool
  | .unlink _ | .clearStorage => true
  | _ => false

/-- Who gives the name up is alone: no handle leads to an object. -/
def Alone (s : State) (a : Action) : Prop :=
  a.unlinks = true → ∀ h ∈ s.handles, h.object = none

theorem oneObject_init (parties : ℕ) : OneObject (init parties) := by
  intro h hh hobject
  rw [List.eq_of_mem_replicate hh] at hobject
  exact absurd rfl hobject

theorem OneObject.mapped {s : State} (hs : OneObject s) {i o : ℕ}
    (hi : s.handles[i]? = some (.mapped o)) : s.linked = some o :=
  (hs _ (List.mem_of_getElem? hi) (Option.some_ne_none o)).symm

/-- A party changes its handle, which leads nowhere or to the object under the name. -/
theorem OneObject.put {s : State} (hs : OneObject s) {i : ℕ} {h' : Handle}
    (hh' : h'.object ≠ none → h'.object = s.linked) :
    ∀ h ∈ s.handles.set i h', h.object ≠ none → h.object = s.linked :=
  Parties.forall_mem_set hh' hs

theorem OneObject.step {s t : State} {a : Action} (hs : OneObject s) (hstep : step s a = some t)
    (ha : a.unlinks = false) : OneObject t := by
  have hnone : ∀ {h : Handle}, h.object = none → h.object ≠ none → h.object = s.linked :=
    fun hnone hsome => absurd hnone hsome
  cases step_cases hstep with
  | refused hi => exact hs
  | found hi ho => exact hs.put fun _ => ho.symm
  | created hi ho =>
      -- Nothing was under the name, so that no handle leads anywhere.
      refine Parties.forall_mem_set (fun _ => rfl) fun h hh hobject => ?_
      exact absurd ((hs h hh hobject).trans ho) hobject
  | unsized hi ho => exact hs.put (hnone rfl)
  | @getMem i o asks hi =>
      have hopened := hs (.opened o asks) (List.mem_of_getElem? hi) (Option.some_ne_none o)
      exact hs.put fun _ => hopened
  | mapFails hi => exact hs.put (hnone rfl)
  | countOut hi hacc => exact hs.put (hnone rfl)
  | last hi hacc => exact hs.put (hnone rfl)
  | leave hi => exact hs.put (hnone rfl)
  | clear hi => exact hs.put (hnone rfl)
  | dropped hi h => exact hs.put (hnone rfl)
  | clearFailed hi => exact hs.put (hnone rfl)
  | unlink hi => cases ha
  | clearStorage => cases ha
  | dieMapped hi => exact hs.put (hnone rfl)
  | die hi hh => exact hs.put (hnone rfl)

/-- With nothing under the name, no handle may lead anywhere. -/
theorem oneObject_iff_of_unlinked {s : State} (hs : s.linked = none) :
    OneObject s ↔ ∀ h ∈ s.handles, h.object = none := by
  refine forall₂_congr fun h _ => ?_
  rw [hs]
  exact ⟨fun himp => by_contra fun hne => hne (himp hne), fun heq hne => absurd heq hne⟩

theorem alone_iff {s t : State} {a : Action} (hs : OneObject s) (hstep : step s a = some t) :
    Alone s a ↔ OneObject t := by
  cases ha : a.unlinks with
  | false => exact iff_of_true (fun h => by rw [ha] at h; cases h) (hs.step hstep ha)
  | true =>
      simp only [Alone, ha, true_implies]
      cases step_cases hstep with
      | @unlink i hi =>
          rw [oneObject_iff_of_unlinked rfl]
          refine ⟨fun hall => Parties.forall_mem_set rfl hall, fun hall h hh => ?_⟩
          by_contra hobject
          have hsome : ∃ q ∈ s.handles, q.object ≠ none := ⟨h, hh, hobject⟩
          rcases Parties.exists_mem_set .away hi hsome with hlast | ⟨h', hh', hobject'⟩
          · exact hlast rfl
          · exact hobject' (hall h' hh')
      | clearStorage =>
          rw [oneObject_iff_of_unlinked rfl]
      | refused | found | created | unsized | getMem | mapFails | countOut | last | leave | clear
      | clearFailed | dieMapped | die => cases ha
      | dropped hi h =>
          rcases h with rfl | rfl
          · cases ha
          · cases ha

instance (s : State) (a : Action) : Decidable (Alone s a) :=
  inferInstanceAs (Decidable (_ → _))

/-- One party opens the object the other one, the last, is about to unlink. -/
def lateUnlink : List Action :=
  [.acquire 0 .createOrOpen, .getMem 0, .release 0, .acquire 1 .createOrOpen, .unlink 0, .getMem 1]

/-- The handle will see to the name of the object. -/
def Handle.keeps (o : ℕ) : Handle → Prop
  | .mapped o' => o' = o
  | .opened o' asks => o' = o ∧ asks = false
  | .last => True
  | _ => False

/-- Nothing that leaves the name behind: no party dies, none fails to map the object, and none
releases it without the name. -/
def Action.givesBack : Action → Bool
  | .die _ | .mapFails _ | .releaseNoUnlink _ => false
  | _ => true

/-- Somebody sees to the name of the object under it. -/
structure Kept (s : State) : Prop where
  counted : Counted s
  alive : ∀ o, s.dead o = 0
  kept : ∀ o, s.linked = some o → ∃ h ∈ s.handles, h.keeps o

theorem kept_init (parties : ℕ) : Kept (init parties) where
  counted := counted_init parties
  alive _ := rfl
  kept o ho := by cases ho

/-- A party changes its handle; if it saw to the name, it or another one still does. -/
theorem Kept.put {s : State} (hs : Kept s) {i : ℕ} {h h' : Handle} (hi : s.handles[i]? = some h)
    (hh' : ∀ o, h.keeps o → ∃ q ∈ s.handles.set i h', q.keeps o) :
    ∀ o, s.linked = some o → ∃ q ∈ s.handles.set i h', q.keeps o := by
  intro o ho
  rcases Parties.exists_mem_set h' hi (hs.kept o ho) with hkeeps | hother
  · exact hh' o hkeeps
  · exact hother

theorem Kept.step {s t : State} {a : Action} (hs : Kept s) (ha : a.givesBack = true)
    (hstep : step s a = some t) : Kept t := by
  have hcounted := hs.counted.step hstep
  cases step_cases hstep with
  | refused hi => exact hs
  | found hi ho => exact ⟨hcounted, hs.alive, hs.put hi fun _ hkeeps => hkeeps.elim⟩
  | created hi ho =>
      refine ⟨hcounted, hs.alive, fun o hlinked => ?_⟩
      obtain rfl := Option.some.inj hlinked
      exact ⟨_, Parties.mem_set_self _ hi, rfl, rfl⟩
  | unsized hi ho =>
      refine ⟨hcounted, hs.alive, hs.put hi fun o hkeeps => ?_⟩
      cases hkeeps.2
  | getMem hi =>
      refine ⟨hcounted, hs.alive, hs.put hi fun o hkeeps => ?_⟩
      exact ⟨_, Parties.mem_set_self _ hi, hkeeps.1⟩
  | mapFails hi => cases ha
  | @countOut i o hi hacc =>
      -- The counter is above one, so that another handle maps the object.
      refine ⟨hcounted, hs.alive, hs.put hi fun o' hkeeps => ?_⟩
      exact ⟨_, hs.counted.other hi hacc (hs.alive o) rfl, hkeeps⟩
  | last hi hacc =>
      exact ⟨hcounted, hs.alive, hs.put hi fun _ _ => ⟨_, Parties.mem_set_self _ hi, trivial⟩⟩
  | leave hi => cases ha
  | clear hi =>
      exact ⟨hcounted, hs.alive, hs.put hi fun _ _ => ⟨_, Parties.mem_set_self _ hi, trivial⟩⟩
  | dropped hi h => exact ⟨hcounted, hs.alive, hs.put hi fun _ hkeeps => hkeeps.elim⟩
  | clearFailed hi => exact ⟨hcounted, hs.alive, hs.put hi fun _ hkeeps => hkeeps.elim⟩
  | unlink hi => exact ⟨hcounted, hs.alive, fun o ho => by cases ho⟩
  | clearStorage => exact ⟨hcounted, hs.alive, fun o ho => by cases ho⟩
  | dieMapped hi => cases ha
  | die hi hh => cases ha

/-- **The last one out.**  Where nobody dies, fails to map or releases without the name, the name
is gone when every handle is, in whatever order the parties took their steps. -/
theorem gone_of_away {parties : ℕ} {actions : List Action} {u : State}
    (hback : ∀ a ∈ actions, a.givesBack = true) (hrun : (machine parties).run actions = some u)
    (haway : ∀ h ∈ u.handles, h = .away) : u.linked = none := by
  have hkept : Kept u :=
    Machine.invariant_of_guardedFrom (M := machine parties) (fun _ _ _ hs ha => hs.step ha)
      (kept_init parties) (Machine.guardedFrom_of_mem (init parties) hback) hrun
  cases hlinked : u.linked with
  | none => rfl
  | some o =>
      obtain ⟨h, hh, hkeeps⟩ := hkept.kept o hlinked
      rw [haway h hh] at hkeeps
      exact hkeeps.elim

/-- The second party maps the object the first one leaves, and is the last one. -/
theorem gone_of_away_pair :
    ∃ u, (machine 2).run [.acquire 0 .createOrOpen, .getMem 0, .acquire 1 .openOnly, .getMem 1,
        .release 0, .release 1, .unlink 1] = some u ∧ u.linked = none := by
  obtain ⟨u, hrun, haway⟩ :=
    Machine.exists_of_any (M := machine 2) (P := fun s => ∀ h ∈ s.handles, h = .away)
      (show ((machine 2).run [.acquire 0 .createOrOpen, .getMem 0, .acquire 1 .openOnly, .getMem 1,
        .release 0, .release 1, .unlink 1]).any _ = true by decide)
  exact ⟨u, hrun, gone_of_away (by decide) hrun haway⟩

/-! ## Parties that died -/

/-- A dead party is counted at the object under the name, which the others lead to. -/
structure Haunted (o : ℕ) (s : State) : Prop where
  counted : Counted s
  dead : 0 < s.dead o
  linked : s.linked = some o
  one : OneObject s
  noLast : .last ∉ s.handles

/-- Steps that unlink without regard to the counter. -/
def Action.removes : Action → Bool
  | .clear _ | .clearStorage => true
  | _ => false

theorem Haunted.not_last {s : State} {o i o' : ℕ} (hs : Haunted o s)
    (hi : s.handles[i]? = some (.mapped o')) : ¬ s.acc o' ≤ 1 := by
  have hlinked := hs.one.mapped hi
  rw [hs.linked] at hlinked
  cases hlinked
  have hmaps : (Handle.mapped o).maps o = true := decide_eq_true rfl
  have hpos := Parties.countP_pos hi hmaps
  have hcount := hs.counted o
  have hdead := hs.dead
  omega

theorem Haunted.step {s t : State} {a : Action} {o : ℕ} (hs : Haunted o s)
    (ha : a.removes = false) (hstep : step s a = some t) : Haunted o t := by
  have hcounted := hs.counted.step hstep
  have hput : ∀ {i : ℕ} {h' : Handle}, h' ≠ .last → .last ∉ s.handles.set i h' := by
    intro i h' hne hmem
    rcases List.mem_or_eq_of_mem_set hmem with hold | heq
    · exact hs.noLast hold
    · exact hne heq.symm
  have hne : a.unlinks = false := by
    cases step_cases hstep with
    | unlink hi => exact absurd (List.mem_of_getElem? hi) hs.noLast
    | clearStorage => cases ha
    | dropped hi h => rcases h with rfl | rfl <;> rfl
    | _ => rfl
  have hone := hs.one.step hstep hne
  cases step_cases hstep with
  | refused hi => exact hs
  | found hi ho => exact ⟨hcounted, hs.dead, hs.linked, hone, hput (by simp)⟩
  | created hi ho =>
      have hlinked := hs.linked
      rw [ho] at hlinked
      cases hlinked
  | unsized hi ho => exact ⟨hcounted, hs.dead, hs.linked, hone, hput (by simp)⟩
  | getMem hi => exact ⟨hcounted, hs.dead, hs.linked, hone, hput (by simp)⟩
  | mapFails hi => exact ⟨hcounted, hs.dead, hs.linked, hone, hput (by simp)⟩
  | countOut hi hacc => exact ⟨hcounted, hs.dead, hs.linked, hone, hput (by simp)⟩
  | last hi hacc => exact absurd hacc (hs.not_last hi)
  | leave hi => exact ⟨hcounted, hs.dead, hs.linked, hone, hput (by simp)⟩
  | clear hi => cases ha
  | dropped hi h => exact ⟨hcounted, hs.dead, hs.linked, hone, hput (by simp)⟩
  | clearFailed hi => cases ha
  | unlink hi => cases hne
  | clearStorage => cases ha
  | @dieMapped i o' hi =>
      refine ⟨hcounted, ?_, hs.linked, hone, hput (by simp)⟩
      change 0 < Function.update s.dead o' (s.dead o' + 1) o
      have hdead := hs.dead
      rw [Function.update_apply]
      split
      next => exact Nat.succ_pos _
      next => exact hdead
  | die hi hh => exact ⟨hcounted, hs.dead, hs.linked, hone, hput (by simp)⟩

end DzIpc.LibIpc.SharedObject
