import DzIpc.Library.Machine
import DzIpc.PubSub.LocalRegistry
import Mathlib.Data.Finset.Card

/-!
# The fast path within a process

With the nodelet switch on, `publish_best_effort` compares two numbers: the queues registered for
its message id in its own process, and the receivers connected to the ring (`shm_pub_ipc`), or the
subscribers alive in the info pool (`socket_pub_ipc`).  When they have agreed three times in a
row it pushes the message into the registered queues and sends nothing.

The machine has one publisher with any number of publishing threads, and subscribers in its own
and in other processes that register, change their message id, connect, lose their connection and
go, each at any time.  Each critical section and each push is a step.

* `Reading.Balanced` compares the registered queues without a connection and the connected
  subscribers of other message ids; `served_iff_balanced` says that a fast publish reaches all it
  should exactly when they balance.
* `nobodyLeftOut_of_guarded` is the result for runs; `registered_unconnected` is a run in which
  two subscribers are one each and not the same one.
-/

namespace DzIpc.PubSub.FastPath

open LocalRegistry

/-! ## The two counts -/

/-- A publisher, its process, and who its subscribers are.  Those of `shm_pub_ipc` are the
receivers of one ring, whose name is made from the topic; it may be the ring of other topics, whose
names differ in characters that the name does not keep. -/
structure Setting where
  /-- `shmPubSub` for `shm_pub_ipc`, `socketPubSub` for `socket_pub_ipc`. -/
  kind : ChannelKind
  topicName : List Char
  domainId : ℕ
  process : ℕ
  topicOf : ℕ → List Char
  processOf : ℕ → ℕ

def Setting.pubKey (P : Setting) (msgId : ℕ) : ChannelKey :=
  { topicName := P.topicName, domainId := P.domainId, msgId, kind := P.kind }

def Setting.subKey (P : Setting) (i msgId : ℕ) : ChannelKey :=
  { topicName := P.topicOf i, domainId := P.domainId, msgId, kind := P.kind }

/-- The bits of the ring's connection mask, and the entries of the info pool. -/
def Setting.capacity (P : Setting) : ℕ :=
  match P.kind with
  | .shmPubSub | .shmService => 32
  | .socketPubSub => 512

/-- The test of the two counts, `shm_pub_ipc` and `socket_pub_ipc`. -/
def Setting.allLocal (P : Setting) (local' total : ℕ) : Bool :=
  match P.kind with
  | .shmPubSub | .shmService => local' != 0 && total == local'
  | .socketPubSub => local' != 0 && 0 < total && total == local'

def kFastPathConfirm : ℕ := 3

/-- `last_fp_key_`, `last_fp_snapshot_size_`, `last_fp_recv_count_` (or `last_fp_total_subs_`) and
`fp_consecutive_`. -/
structure Fp where
  key : ChannelKey
  snapshotSize : ℕ
  total : ℕ
  consecutive : ℕ
  deriving DecidableEq, Repr

/-- The section of `fast_path_mtx_`: whether to take the fast path, and what is kept. -/
def Setting.confirm (P : Setting) (fp : Fp) (key : ChannelKey) (local' total : ℕ) : Bool × Fp :=
  let fp :=
    if key ≠ fp.key ∨ local' ≠ fp.snapshotSize ∨ total ≠ fp.total then
      { key, snapshotSize := local', total, consecutive := 0 }
    else fp
  if P.allLocal local' total then
    (kFastPathConfirm ≤ fp.consecutive + 1, { fp with consecutive := fp.consecutive + 1 })
  else (false, { fp with consecutive := 0 })

/-! ## Subscribers and publishes -/

structure Sub where
  /-- `msg_id_`. -/
  msgId : ℕ
  localRegistered : Bool := false
  /-- `reset_message` is between its two calls to the registry, with the mutex held. -/
  resetting : Option ℕ := none
  running : Bool := true
  /-- Its queue has an owner. -/
  queueLive : Bool := true
  deriving DecidableEq, Repr

/-- What one publish has found: its number, its key, the queues of the snapshot, and, when the
second count was read, who was counted and which of these had its message id. -/
structure Reading where
  call : ℕ
  key : ChannelKey
  snapshot : List ℕ
  counted : Finset ℕ
  due : Finset ℕ
  deriving DecidableEq

/-- Where a publishing thread is. -/
inductive Pc where
  | idle
  | snapped (call : ℕ) (key : ChannelKey) (snapshot : List ℕ)
  | compare (r : Reading)
  | fanout (r : Reading) (left : List ℕ)
  /-- The publish has returned from the fast path. -/
  | fast (r : Reading)
  deriving DecidableEq

/-- The number of the publish a thread is in, or last was in. -/
def Pc.call : Pc → Option ℕ
  | .idle => none
  | .snapped call _ _ => some call
  | .compare r | .fanout r _ | .fast r => some r.call

structure State where
  sub : ℕ → Sub
  /-- One registry a process. -/
  registry : ℕ → LocalRegistry
  /-- The receivers with a bit of the ring's mask, or those alive in the info pool. -/
  connected : Finset ℕ
  /-- Per subscriber, the publishes whose message was pushed into its queue. -/
  pushed : ℕ → List ℕ
  nodelet : Bool
  fp : Fp
  thread : ℕ → Pc
  /-- The publishes begun. -/
  calls : ℕ

inductive Action where
  -- a subscriber
  | initChannel (i : ℕ)
  | resetMessage (i msgId : ℕ)
  | resetRegister (i : ℕ)
  | destroy (i : ℕ)
  | free (i : ℕ)
  | connect (i : ℕ)
  | disconnect (i : ℕ)
  -- the publisher
  | clearConnections
  | enableNodelet (on : Bool)
  | pubResetMessage
  | publish (t msgId : ℕ)
  /-- A publishing thread's next step. -/
  | goOn (t : ℕ)
  deriving DecidableEq, Repr

def State.setSub (s : State) (i : ℕ) (v : Sub) : State :=
  { s with sub := Function.update s.sub i v }

def State.setThread (s : State) (t : ℕ) (pc : Pc) : State :=
  { s with thread := Function.update s.thread t pc }

def State.setRegistry (s : State) (p : ℕ) (reg : LocalRegistry) : State :=
  { s with registry := Function.update s.registry p reg }

def State.live (s : State) (i : ℕ) : Bool := (s.sub i).queueLive

/-- A subscriber's call to `register_subscriber` of its process. -/
def State.register (P : Setting) (s : State) (i msgId : ℕ) : State :=
  let p := P.processOf i
  s.setRegistry p (registerSubscriber s.live (s.registry p) (P.subKey i msgId) i)

/-- A subscriber's call to `unregister_subscriber` of its process. -/
def State.unregister (P : Setting) (s : State) (i msgId : ℕ) : State :=
  let p := P.processOf i
  s.setRegistry p (unregisterSubscriber s.live (s.registry p) (P.subKey i msgId) i)

/-- The last section of `InitChannel`, with `topic_msg_mtx_` held. -/
def initChannel (P : Setting) (s : State) (i : ℕ) : Option State :=
  let v := s.sub i
  if v.running && v.resetting.isNone then
    if v.localRegistered then some s
    else some ((s.register P i v.msgId).setSub i { v with localRegistered := true })
  else none

/-- `reset_message`, to the end of its first call to the registry. -/
def resetMessage (P : Setting) (s : State) (i msgId : ℕ) : Option State :=
  let v := s.sub i
  if v.running && v.resetting.isNone then
    if v.localRegistered && v.msgId != msgId then
      some ((s.unregister P i v.msgId).setSub i { v with resetting := some msgId })
    else some (s.setSub i { v with msgId })
  else none

/-- `reset_message`, from its second call to the registry. -/
def resetRegister (P : Setting) (s : State) (i : ℕ) : Option State :=
  let v := s.sub i
  match v.resetting with
  | some msgId => some ((s.register P i msgId).setSub i { v with resetting := none, msgId })
  | none => none

/-- The destructor, to where it stops its threads. -/
def destroy (P : Setting) (s : State) (i : ℕ) : Option State :=
  let v := s.sub i
  if v.running && v.resetting.isNone then
    if v.localRegistered then
      some ((s.unregister P i v.msgId).setSub i { v with localRegistered := false, running := false })
    else some (s.setSub i { v with running := false })
  else none

/-- One step of a thread in `publish_best_effort`. -/
def goOn (P : Setting) (s : State) (t : ℕ) : Option State :=
  match s.thread t with
  | .idle | .fast _ => none
  | .snapped call key snapshot =>
      some (s.setThread t (.compare
        { call, key, snapshot, counted := s.connected
          due := s.connected.filter fun i => (s.sub i).msgId = key.msgId }))
  | .compare r =>
      let (fast, fp) := P.confirm s.fp r.key r.snapshot.length r.counted.card
      some ({ s with fp }.setThread t (if fast then .fanout r r.snapshot else .idle))
  | .fanout r [] => some (s.setThread t (.fast r))
  | .fanout r (q :: left) =>
      some ({ s with pushed := Function.update s.pushed q (r.call :: s.pushed q) }.setThread t
        (.fanout r left))

/-- `publish_best_effort`, to the end of the snapshot. -/
def publish (P : Setting) (s : State) (t msgId : ℕ) : Option State :=
  match s.thread t with
  | .idle | .fast _ =>
      if s.nodelet then
        let key := P.pubKey msgId
        let reg := s.registry P.process
        some ({ s.setRegistry P.process (cleanupExpired s.live reg key) with
          calls := s.calls + 1 }.setThread t
            (.snapped s.calls key (subscriberSnapshot s.live reg key)))
      else some (s.setThread t .idle)
  | _ => none

def step (P : Setting) (s : State) : Action → Option State
  | .initChannel i => initChannel P s i
  | .resetMessage i msgId => resetMessage P s i msgId
  | .resetRegister i => resetRegister P s i
  | .destroy i => destroy P s i
  | .free i =>
      if (s.sub i).running then none else some (s.setSub i { s.sub i with queueLive := false })
  | .connect i =>
      if (s.sub i).queueLive && s.connected.card < P.capacity then
        some { s with connected := insert i s.connected }
      else none
  -- left, reaped, or its process died
  | .disconnect i => some { s with connected := s.connected.erase i }
  -- `InitChannel` of a publisher clears the ring
  | .clearConnections => some { s with connected := ∅ }
  | .enableNodelet on => some { s with nodelet := on }
  | .pubResetMessage => some { s with fp := { s.fp with consecutive := 0 } }
  | .publish t msgId => publish P s t msgId
  | .goOn t => goOn P s t

/-- At first nobody is registered or connected; each subscriber has the message id of its own
template. -/
def machine (P : Setting) (msgId : ℕ → ℕ) : Machine State Action where
  init :=
    { sub := fun i => { msgId := msgId i }
      registry := fun _ _ => []
      connected := ∅
      pushed := fun _ => []
      nodelet := false
      fp := { key := { topicName := [], domainId := 0, msgId := 0 }, snapshotSize := 0, total := 0
              consecutive := 0 }
      thread := fun _ => .idle
      calls := 0 }
  step := step P

/-! ## The property -/

/-- **Nobody is left out.**  When a publish returns from the fast path, its message was pushed into
the queue of every subscriber of its message id that was connected when the counts were read. -/
def NobodyLeftOut (s : State) : Prop :=
  ∀ t r, s.thread t = .fast r → ∀ i ∈ r.due, r.call ∈ s.pushed i

/-- The queues of the snapshot whose subscriber was not connected are no more than the connected
subscribers of other message ids that are not in the snapshot. -/
def Reading.Balanced (r : Reading) : Prop :=
  (r.snapshot.toFinset \ r.counted).card ≤ ((r.counted \ r.due) \ r.snapshot.toFinset).card

instance (r : Reading) : Decidable r.Balanced := inferInstanceAs (Decidable (_ ≤ _))

/-- **The condition.**  A publish that finds its two numbers equal often enough has a balanced
reading. -/
def Tidy (P : Setting) (s : State) : Action → Prop
  | .goOn t =>
      match s.thread t with
      | .compare r =>
          (P.confirm s.fp r.key r.snapshot.length r.counted.card).1 = true → r.Balanced
      | _ => True
  | _ => True

instance (P : Setting) (s : State) (a : Action) : Decidable (Tidy P s a) := by
  unfold Tidy
  repeat' split
  all_goals infer_instance

/-! ## Equal counts -/

/-- Of two sets of one size, the second one's part `due` is in the first exactly when what the
first has over is made up by what the second has over outside of `due`. -/
theorem subset_iff_card_sdiff {α : Type*} [DecidableEq α] {first second due : Finset α}
    (hdue : due ⊆ second) (hcard : first.card = second.card) :
    due ⊆ first ↔ (first \ second).card ≤ ((second \ due) \ first).card := by
  have hsub : (second \ due) \ first ⊆ second \ first :=
    Finset.sdiff_subset_sdiff Finset.sdiff_subset (Finset.Subset.refl first)
  rw [Finset.card_sdiff_comm hcard]
  constructor
  · intro h
    apply Finset.card_le_card
    intro x hx
    obtain ⟨hsecond, hfirst⟩ := Finset.mem_sdiff.mp hx
    have hout : x ∉ due := fun hmem => hfirst (h hmem)
    exact Finset.mem_sdiff.mpr ⟨Finset.mem_sdiff.mpr ⟨hsecond, hout⟩, hfirst⟩
  · intro h x hx
    have heq := Finset.eq_of_subset_of_card_le hsub h
    by_contra hfirst
    have hmem : x ∈ (second \ due) \ first := by
      rw [heq]
      exact Finset.mem_sdiff.mpr ⟨hdue hx, hfirst⟩
    exact (Finset.mem_sdiff.mp (Finset.mem_sdiff.mp hmem).1).2 hx

/-- The snapshot lists each queue once, and who is due was counted. -/
structure Reading.Proper (r : Reading) : Prop where
  nodup : r.snapshot.Nodup
  due : r.due ⊆ r.counted

theorem Reading.due_subset_iff {r : Reading} (h : r.Proper)
    (hcard : r.snapshot.length = r.counted.card) :
    (∀ i ∈ r.due, i ∈ r.snapshot) ↔ r.Balanced := by
  have hlength : r.snapshot.toFinset.card = r.counted.card := by
    rw [List.toFinset_card_of_nodup h.nodup, hcard]
  unfold Reading.Balanced
  rw [← subset_iff_card_sdiff h.due hlength]
  constructor
  · intro hall i hi
    exact List.mem_toFinset.mpr (hall i hi)
  · intro hsub i hi
    exact List.mem_toFinset.mp (hsub hi)

/-- The fast path is taken on equal counts only. -/
theorem length_eq_of_confirm {P : Setting} {fp : Fp} {key : ChannelKey} {local' total : ℕ}
    (h : (P.confirm fp key local' total).1 = true) : local' = total := by
  have hall : P.allLocal local' total = true := by
    by_contra hnot
    unfold Setting.confirm at h
    simp [hnot] at h
  unfold Setting.allLocal at hall
  split at hall <;> simp_all

/-! ## The invariant -/

/-- What a thread's place says of the readings and the queues. -/
def Pc.Fits (pushed : ℕ → List ℕ) : Pc → Prop
  | .idle => True
  | .snapped call _ snapshot => snapshot.Nodup ∧ ∀ i, call ∉ pushed i
  | .compare r => r.Proper ∧ ∀ i, r.call ∉ pushed i
  | .fanout r left =>
      r.Proper ∧ r.snapshot.length = r.counted.card ∧
        ∃ fed, r.snapshot = fed ++ left ∧ ∀ i, r.call ∈ pushed i ↔ i ∈ fed
  | .fast r =>
      r.Proper ∧ r.snapshot.length = r.counted.card ∧ ∀ i, r.call ∈ pushed i ↔ i ∈ r.snapshot

structure Inv (s : State) : Prop where
  registry : ∀ p, (s.registry p).Distinct
  /-- Nothing has yet the number of a publish to come. -/
  pushed_lt : ∀ i, ∀ c ∈ s.pushed i, c < s.calls
  call_lt : ∀ t, ∀ c ∈ (s.thread t).call, c < s.calls
  /-- Two threads are not in one publish. -/
  call_inj : ∀ t t', ∀ c ∈ (s.thread t).call, c ∈ (s.thread t').call → t = t'
  fits : ∀ t, (s.thread t).Fits s.pushed

variable {P : Setting} {s : State}

/-- The publishes are left alone, and the registries in order. -/
structure Frame (s u : State) : Prop where
  registry : (∀ p, (s.registry p).Distinct) → ∀ p, (u.registry p).Distinct
  pushed : u.pushed = s.pushed
  thread : u.thread = s.thread
  calls : u.calls = s.calls

theorem Frame.of_registry {u : State} (hregistry : u.registry = s.registry)
    (hpushed : u.pushed = s.pushed) (hthread : u.thread = s.thread) (hcalls : u.calls = s.calls) :
    Frame s u :=
  ⟨fun h => by rwa [hregistry], hpushed, hthread, hcalls⟩

theorem distinct_update {registry : ℕ → LocalRegistry} (h : ∀ p, (registry p).Distinct) {p : ℕ}
    {reg : LocalRegistry} (hreg : reg.Distinct) (p' : ℕ) :
    (Function.update registry p reg p').Distinct := by
  by_cases hp : p' = p
  · subst hp
    rwa [Function.update_self]
  · rw [Function.update_of_ne hp]
    exact h p'

theorem Frame.register (i msgId : ℕ) (v : Sub) : Frame s ((s.register P i msgId).setSub i v) :=
  ⟨fun h => distinct_update h (h _).registerSubscriber, rfl, rfl, rfl⟩

theorem Frame.unregister (i msgId : ℕ) (v : Sub) :
    Frame s ((s.unregister P i msgId).setSub i v) :=
  ⟨fun h => distinct_update h (h _).unregisterSubscriber, rfl, rfl, rfl⟩

theorem Frame.setSub (i : ℕ) (v : Sub) : Frame s (s.setSub i v) :=
  Frame.of_registry rfl rfl rfl rfl

/-- What a step can do: a publish begins, a publishing thread goes on, or the publishes are left
alone. -/
theorem step_cases {a : Action} {u : State} (hstep : step P s a = some u) :
    Frame s u ∨ (∃ t msgId, a = .publish t msgId ∧ publish P s t msgId = some u) ∨
      ∃ t, a = .goOn t ∧ goOn P s t = some u := by
  cases a with
  | initChannel i =>
      left
      simp only [step, initChannel] at hstep
      split at hstep
      · split at hstep
        · exact Option.some.inj hstep ▸ Frame.of_registry rfl rfl rfl rfl
        · exact Option.some.inj hstep ▸ Frame.register i _ _
      · cases hstep
  | resetMessage i msgId =>
      left
      simp only [step, resetMessage] at hstep
      split at hstep
      · split at hstep
        · exact Option.some.inj hstep ▸ Frame.unregister i _ _
        · exact Option.some.inj hstep ▸ Frame.setSub i _
      · cases hstep
  | resetRegister i =>
      left
      simp only [step, resetRegister] at hstep
      split at hstep
      · exact Option.some.inj hstep ▸ Frame.register i _ _
      · cases hstep
  | destroy i =>
      left
      simp only [step, destroy] at hstep
      split at hstep
      · split at hstep
        · exact Option.some.inj hstep ▸ Frame.unregister i _ _
        · exact Option.some.inj hstep ▸ Frame.setSub i _
      · cases hstep
  | free i =>
      left
      simp only [step] at hstep
      split at hstep
      · cases hstep
      · exact Option.some.inj hstep ▸ Frame.setSub i _
  | connect i =>
      left
      simp only [step] at hstep
      split at hstep
      · exact Option.some.inj hstep ▸ Frame.of_registry rfl rfl rfl rfl
      · cases hstep
  | disconnect i => exact .inl (Option.some.inj hstep ▸ Frame.of_registry rfl rfl rfl rfl)
  | clearConnections => exact .inl (Option.some.inj hstep ▸ Frame.of_registry rfl rfl rfl rfl)
  | enableNodelet on => exact .inl (Option.some.inj hstep ▸ Frame.of_registry rfl rfl rfl rfl)
  | pubResetMessage => exact .inl (Option.some.inj hstep ▸ Frame.of_registry rfl rfl rfl rfl)
  | publish t msgId => exact .inr (.inl ⟨t, msgId, rfl, hstep⟩)
  | goOn t => exact .inr (.inr ⟨t, rfl, hstep⟩)

theorem Inv.frame {u : State} (h : Inv s) (hframe : Frame s u) : Inv u where
  registry := hframe.registry h.registry
  pushed_lt := by rw [hframe.pushed, hframe.calls]; exact h.pushed_lt
  call_lt := by rw [hframe.thread, hframe.calls]; exact h.call_lt
  call_inj := by rw [hframe.thread]; exact h.call_inj
  fits := by rw [hframe.thread, hframe.pushed]; exact h.fits

/-- A thread takes a step: its publish is the one it was in, or a new one. -/
theorem Inv.turn (h : Inv s) {u : State} {t : ℕ} {pc : Pc}
    (hthread : u.thread = Function.update s.thread t pc)
    (hregistry : ∀ p, (u.registry p).Distinct) (hcalls : s.calls ≤ u.calls)
    (hpushed : ∀ i, ∀ c ∈ u.pushed i, c < u.calls) (hlt : ∀ c ∈ pc.call, c < u.calls)
    (hcall : ∀ c ∈ pc.call, c ∈ (s.thread t).call ∨ s.calls ≤ c) (hfits : pc.Fits u.pushed)
    (hothers : ∀ t', t' ≠ t → (s.thread t').Fits u.pushed) : Inv u := by
  have hself : u.thread t = pc := by rw [hthread, Function.update_self]
  have hother : ∀ t', t' ≠ t → u.thread t' = s.thread t' := by
    intro t' ht'
    rw [hthread, Function.update_of_ne ht']
  -- the number of a thread's publish is no other thread's
  have hown : ∀ t', t' ≠ t → ∀ c ∈ pc.call, c ∉ (s.thread t').call := by
    intro t' ht' c hc hmem
    rcases hcall c hc with hsame | hnew
    · exact ht' (h.call_inj t' t c hmem hsame)
    · exact Nat.not_lt.mpr hnew (h.call_lt t' c hmem)
  refine
    { registry := hregistry
      pushed_lt := hpushed
      call_lt := ?_
      call_inj := ?_
      fits := ?_ }
  · intro t' c hc
    by_cases ht' : t' = t
    · rw [ht', hself] at hc
      exact hlt c hc
    · rw [hother t' ht'] at hc
      exact Nat.lt_of_lt_of_le (h.call_lt t' c hc) hcalls
  · intro t' t'' c hc hc'
    by_cases ht' : t' = t <;> by_cases ht'' : t'' = t
    · rw [ht', ht'']
    · rw [ht', hself] at hc
      rw [hother t'' ht''] at hc'
      exact absurd hc' (hown t'' ht'' c hc)
    · rw [hother t' ht'] at hc
      rw [ht'', hself] at hc'
      exact absurd hc (hown t' ht' c hc')
    · rw [hother t' ht'] at hc
      rw [hother t'' ht''] at hc'
      exact h.call_inj t' t'' c hc hc'
  · intro t'
    by_cases ht' : t' = t
    · rw [ht', hself]
      exact hfits
    · rw [hother t' ht']
      exact hothers t' ht'

/-- A thread goes on within its publish. -/
theorem Inv.setThread (h : Inv s) {t : ℕ} {pc : Pc} (fp : Fp)
    (hcall : ∀ c ∈ pc.call, c ∈ (s.thread t).call) (hfits : pc.Fits s.pushed) :
    Inv ({ s with fp }.setThread t pc) :=
  h.turn rfl h.registry (Nat.le_refl _) h.pushed_lt (fun c hc => h.call_lt t c (hcall c hc))
    (fun c hc => .inl (hcall c hc)) hfits (fun t' _ => h.fits t')

/-- A publish begins, under a number of its own. -/
theorem Inv.begin (h : Inv s) {t : ℕ} {key : ChannelKey} {snapshot : List ℕ}
    (hsnapshot : snapshot.Nodup) :
    Inv ({ s with calls := s.calls + 1 }.setThread t (.snapped s.calls key snapshot)) := by
  have hnew : ∀ c ∈ (Pc.snapped s.calls key snapshot).call, c = s.calls :=
    fun c hc => (Option.mem_some_iff.mp hc).symm
  refine h.turn rfl h.registry (Nat.le_succ _) ?_ ?_ ?_ ?_ (fun t' _ => h.fits t')
  · exact fun i c hc => Nat.lt_succ_of_lt (h.pushed_lt i c hc)
  · intro c hc
    rw [hnew c hc]
    exact Nat.lt_succ_self s.calls
  · exact fun c hc => .inr (hnew c hc).ge
  · exact ⟨hsnapshot, fun i hmem => (h.pushed_lt i _ hmem).false⟩

theorem mem_update_cons {pushed : ℕ → List ℕ} {q i call c : ℕ} :
    c ∈ Function.update pushed q (call :: pushed q) i ↔ (i = q ∧ c = call) ∨ c ∈ pushed i := by
  by_cases hi : i = q
  · subst hi
    simp
  · simp [hi]

/-- A push of one publish is nothing to a thread in another. -/
theorem Pc.Fits.push {pushed : ℕ → List ℕ} {pc : Pc} {q call : ℕ} (h : pc.Fits pushed)
    (hcall : call ∉ pc.call) : pc.Fits (Function.update pushed q (call :: pushed q)) := by
  have hkeep : ∀ c ∈ pc.call, ∀ i,
      c ∈ Function.update pushed q (call :: pushed q) i ↔ c ∈ pushed i := by
    intro c hc i
    have hne : c ≠ call := fun heq => hcall (heq ▸ hc)
    rw [mem_update_cons]
    simp [hne]
  cases pc with
  | idle => trivial
  | snapped c key snapshot => exact ⟨h.1, fun i hmem => h.2 i ((hkeep c rfl i).mp hmem)⟩
  | compare r => exact ⟨h.1, fun i hmem => h.2 i ((hkeep r.call rfl i).mp hmem)⟩
  | fanout r left =>
      obtain ⟨hproper, hlength, fed, hfed, hpushed⟩ := h
      exact ⟨hproper, hlength, fed, hfed, fun i => (hkeep r.call rfl i).trans (hpushed i)⟩
  | fast r => exact ⟨h.1, h.2.1, fun i => (hkeep r.call rfl i).trans (h.2.2 i)⟩

/-- A thread pushes into the next queue of its snapshot. -/
theorem Inv.push (h : Inv s) {t : ℕ} {r : Reading} {q : ℕ} {left : List ℕ}
    (ht : s.thread t = .fanout r (q :: left)) :
    Inv ({ s with pushed := Function.update s.pushed q (r.call :: s.pushed q) }.setThread t
      (.fanout r left)) := by
  have hin : r.call ∈ (s.thread t).call := by
    rw [ht]
    rfl
  have hcall : ∀ c ∈ (Pc.fanout r left).call, c ∈ (s.thread t).call := by
    intro c hc
    rw [ht]
    exact hc
  have hfits := h.fits t
  rw [ht] at hfits
  obtain ⟨hproper, hlength, fed, hfed, hpushed⟩ := hfits
  refine h.turn rfl h.registry (Nat.le_refl _) ?_ (fun c hc => h.call_lt t c (hcall c hc))
    (fun c hc => .inl (hcall c hc)) ?_ ?_
  · intro i c hc
    rcases mem_update_cons.mp hc with ⟨_, rfl⟩ | hold
    · exact h.call_lt t r.call hin
    · exact h.pushed_lt i c hold
  · refine ⟨hproper, hlength, fed ++ [q], by simp [hfed], ?_⟩
    intro i
    change r.call ∈ Function.update s.pushed q (r.call :: s.pushed q) i ↔ _
    rw [mem_update_cons, hpushed i]
    simp [or_comm]
  · intro t' ht'
    apply (h.fits t').push
    intro hmem
    exact ht' (h.call_inj t' t r.call hmem hin)

/-- What the beginning of a publish can do. -/
theorem publish_cases {t msgId : ℕ} {u : State} (hstep : publish P s t msgId = some u) :
    u = s.setThread t .idle ∨
      u = { s.setRegistry P.process (cleanupExpired s.live (s.registry P.process)
          (P.pubKey msgId)) with calls := s.calls + 1 }.setThread t
            (.snapped s.calls (P.pubKey msgId)
              (subscriberSnapshot s.live (s.registry P.process) (P.pubKey msgId))) := by
  unfold publish at hstep
  cases hnodelet : s.nodelet with
  | false =>
      left
      simp only [hnodelet] at hstep
      split at hstep <;> cases hstep <;> rfl
  | true =>
      right
      simp only [hnodelet] at hstep
      split at hstep <;> cases hstep <;> rfl

theorem Inv.publish (h : Inv s) {t msgId : ℕ} {u : State} (hstep : publish P s t msgId = some u) :
    Inv u := by
  rcases publish_cases hstep with rfl | rfl
  · exact h.setThread s.fp (fun c hc => nomatch hc) trivial
  · have hclean : Inv (s.setRegistry P.process (cleanupExpired s.live (s.registry P.process)
        (P.pubKey msgId))) :=
      h.frame ⟨fun h => distinct_update h (h _).cleanupExpired, rfl, rfl, rfl⟩
    exact hclean.begin (h.registry _).subscriberSnapshot

theorem Inv.goOn (h : Inv s) {t : ℕ} {u : State} (hstep : goOn P s t = some u) : Inv u := by
  have hfits := h.fits t
  unfold FastPath.goOn at hstep
  cases ht : s.thread t with
  | idle => simp [ht] at hstep
  | fast r => simp [ht] at hstep
  | snapped call key snapshot =>
      simp only [ht, Option.some.injEq] at hstep hfits
      subst hstep
      exact h.setThread s.fp (fun c hc => by rw [ht]; exact hc)
        ⟨⟨hfits.1, Finset.filter_subset _ _⟩, hfits.2⟩
  | compare r =>
      simp only [ht, Option.some.injEq] at hstep hfits
      subst hstep
      cases hfast : (P.confirm s.fp r.key r.snapshot.length r.counted.card).1 with
      | false => exact h.setThread _ (fun c hc => nomatch hc) trivial
      | true =>
          refine h.setThread _ (fun c hc => by rw [ht]; exact hc) ?_
          exact ⟨hfits.1, length_eq_of_confirm hfast, [], rfl, fun i => by simp [hfits.2 i]⟩
  | fanout r left =>
      cases left with
      | nil =>
          simp only [ht, Option.some.injEq] at hstep hfits
          subst hstep
          obtain ⟨hproper, hlength, fed, hfed, hpushed⟩ := hfits
          refine h.setThread s.fp (fun c hc => by rw [ht]; exact hc) ⟨hproper, hlength, ?_⟩
          rw [List.append_nil] at hfed
          rw [hfed]
          exact hpushed
      | cons q left =>
          simp only [ht, Option.some.injEq] at hstep
          subst hstep
          exact h.push ht

/-- The step lemma. -/
theorem Inv.step (h : Inv s) {a : Action} {u : State} (hstep : step P s a = some u) : Inv u := by
  rcases step_cases hstep with hframe | ⟨t, msgId, -, hpublish⟩ | ⟨t, -, hgoOn⟩
  · exact h.frame hframe
  · exact h.publish hpublish
  · exact h.goOn hgoOn

theorem Inv.init (P : Setting) (msgId : ℕ → ℕ) : Inv (machine P msgId).init where
  registry := fun _ _ => List.nodup_nil
  pushed_lt := fun _ _ hc => nomatch hc
  call_lt := fun _ _ hc => nomatch hc
  call_inj := fun _ _ _ hc => nomatch hc
  fits := fun _ => trivial

/-- **Exactly when nobody is left out.**  In every run, a publish from the fast path has reached
all it should if and only if its reading was balanced. -/
theorem served_iff_balanced {msgId : ℕ → ℕ} {actions : List Action}
    (hrun : (machine P msgId).run actions = some s) {t : ℕ} {r : Reading}
    (ht : s.thread t = .fast r) : (∀ i ∈ r.due, r.call ∈ s.pushed i) ↔ r.Balanced := by
  have hinv : Inv s := Machine.invariant (Inv.init P msgId) (fun _ _ _ h => h.step) hrun
  have hfits := hinv.fits t
  rw [ht] at hfits
  obtain ⟨hproper, hlength, hpushed⟩ := hfits
  rw [← Reading.due_subset_iff hproper hlength]
  constructor
  · intro h i hi
    exact (hpushed i).mp (h i hi)
  · intro h i hi
    exact (hpushed i).mpr (h i hi)

/-! ## Guarded runs -/

/-- A publish on the fast path had a balanced reading. -/
def Pc.Committed : Pc → Prop
  | .fanout r _ | .fast r => r.Balanced
  | _ => True

/-- So had every publish that took it. -/
def State.Committed (s : State) : Prop := ∀ t, (s.thread t).Committed

theorem committed_setThread {u : State} (h : s.Committed) {t : ℕ} (pc : Pc)
    (hpc : pc.Committed) (hu : u.thread = Function.update s.thread t pc) : u.Committed := by
  intro t'
  rw [hu]
  by_cases ht : t' = t
  · subst ht
    rwa [Function.update_self]
  · rw [Function.update_of_ne ht]
    exact h t'

theorem committed_goOn (h : s.Committed) {t : ℕ} {u : State}
    (htidy : Tidy P s (.goOn t)) (hstep : goOn P s t = some u) : u.Committed := by
  have hpc := h t
  unfold goOn at hstep
  unfold Tidy at htidy
  cases ht : s.thread t with
  | idle => simp [ht] at hstep
  | fast r => simp [ht] at hstep
  | snapped call key snapshot =>
      simp only [ht, Option.some.injEq] at hstep
      subst hstep
      exact committed_setThread h (.compare _) trivial rfl
  | compare r =>
      simp only [ht, Option.some.injEq] at hstep htidy
      subst hstep
      refine committed_setThread h _ ?_ rfl
      split
      · rename_i hfast
        exact htidy hfast
      · trivial
  | fanout r left =>
      rw [ht] at hpc
      cases left with
      | nil =>
          simp only [ht, Option.some.injEq] at hstep
          subst hstep
          exact committed_setThread h (.fast r) hpc rfl
      | cons q left =>
          simp only [ht, Option.some.injEq] at hstep
          subst hstep
          exact committed_setThread h (.fanout r left) hpc rfl

theorem committed_step (h : s.Committed) {a : Action} {u : State}
    (htidy : Tidy P s a) (hstep : step P s a = some u) : u.Committed := by
  rcases step_cases hstep with hframe | ⟨t, msgId, -, hpublish⟩ | ⟨t, rfl, hgoOn⟩
  · unfold State.Committed
    rw [hframe.thread]
    exact h
  · rcases publish_cases hpublish with rfl | rfl
    · exact committed_setThread h .idle trivial rfl
    · exact committed_setThread h (.snapped ..) trivial rfl
  · exact committed_goOn h htidy hgoOn

/-- **The fast path leaves nobody out** in a run of any subscribers and publishes, if each publish
that finds its two numbers equal often enough has a balanced reading. -/
theorem nobodyLeftOut_of_guarded (P : Setting) (msgId : ℕ → ℕ) {actions : List Action} {s : State}
    (hguarded : (machine P msgId).Guarded (Tidy P) actions)
    (hrun : (machine P msgId).run actions = some s) : NobodyLeftOut s := by
  have hinit : (machine P msgId).init.Committed := fun _ => trivial
  have hcommitted : s.Committed :=
    Machine.invariant_of_guarded hinit
      (fun _ _ _ h htidy hstep => committed_step h htidy hstep) hguarded hrun
  intro t r ht
  have hbalanced := hcommitted t
  rw [ht] at hbalanced
  exact (served_iff_balanced hrun ht).mpr hbalanced

/-- A publisher in process 0, with the even subscribers there and the odd ones in process 1. -/
def nearAndFar (kind : ChannelKind) : Setting where
  kind := kind
  topicName := ['t']
  domainId := 0
  process := 0
  topicOf := fun _ => ['t']
  processOf := fun i => i % 2

/-- A publish of message id 7 that does not take the fast path, and one that pushes into `n`
queues. -/
def publishSlow : List Action := .publish 0 7 :: List.replicate 2 (.goOn 0)
def publishFast (n : ℕ) : List Action := .publish 0 7 :: List.replicate (n + 3) (.goOn 0)

/-- Two local subscribers, of which one changes its message id, and a remote one that goes before
the second publish. -/
def remoteLeaves : List Action :=
  [.enableNodelet true, .initChannel 0, .connect 0, .initChannel 2, .connect 2, .resetMessage 2 7,
    .resetRegister 2, .connect 1] ++ publishSlow ++ [.disconnect 1] ++ publishSlow ++ publishSlow ++
    publishFast 2

/-- Who should have had the last message of a thread that has returned from the fast path. -/
def State.lastDue (s : State) (t : ℕ) : Finset ℕ :=
  match s.thread t with
  | .fast r => r.due
  | _ => ∅

/-- The fourth publish takes the fast path, to both local subscribers. -/
theorem nobodyLeftOut_remoteLeaves :
    ∃ s, (machine (nearAndFar .shmPubSub) fun i => 7 + i / 2).run remoteLeaves = some s ∧
      NobodyLeftOut s ∧ s.lastDue 0 = {0, 2} := by
  have hrun : ∃ s, (machine (nearAndFar .shmPubSub) fun i => 7 + i / 2).run remoteLeaves = some s ∧
      s.lastDue 0 = {0, 2} :=
    Machine.exists_of_any (M := machine (nearAndFar .shmPubSub) fun i => 7 + i / 2)
      (P := fun s => s.lastDue 0 = {0, 2}) (show (Machine.run _ _).any _ = true by decide +kernel)
  obtain ⟨s, hrun, hdue⟩ := hrun
  have hguarded : (machine (nearAndFar .shmPubSub) fun i => 7 + i / 2).Guarded
      (Tidy (nearAndFar .shmPubSub)) remoteLeaves := by decide +kernel
  exact ⟨s, hrun, nobodyLeftOut_of_guarded _ _ hguarded hrun, hdue⟩

/-- A local subscriber is registered and not connected yet, a remote one is connected. -/
def oneEach : List Action :=
  [.enableNodelet true, .initChannel 0, .connect 1] ++ publishSlow ++ publishSlow ++ publishFast 1

/-- A thread has returned from the fast path, and the message is not with a subscriber who was
due. -/
def State.leftOut (s : State) (t i : ℕ) : Bool :=
  match s.thread t with
  | .fast r => i ∈ r.due && r.call ∉ s.pushed i
  | _ => false

theorem not_nobodyLeftOut {t i : ℕ} (h : s.leftOut t i = true) : ¬ NobodyLeftOut s := by
  intro hall
  unfold State.leftOut at h
  split at h
  · rename_i r ht
    simp only [Bool.and_eq_true, decide_eq_true_eq] at h
    exact h.2 (hall t r ht i h.1)
  · cases h

/-- One queue and one connection, three times: the third message is pushed to the subscriber that
is not connected, and the connected one gets nothing. -/
theorem registered_unconnected :
    (∃ s, (machine (nearAndFar .shmPubSub) fun _ => 7).run oneEach = some s ∧ ¬ NobodyLeftOut s) ∧
      ∃ s, (machine (nearAndFar .socketPubSub) fun _ => 7).run oneEach = some s ∧
        ¬ NobodyLeftOut s := by
  constructor
  · obtain ⟨s, hrun, hleft⟩ : ∃ s, (machine (nearAndFar .shmPubSub) fun _ => 7).run oneEach = some s ∧
        s.leftOut 0 1 = true :=
      Machine.exists_of_any (M := machine (nearAndFar .shmPubSub) fun _ => 7)
        (P := fun s => s.leftOut 0 1 = true) (show (Machine.run _ _).any _ = true by decide +kernel)
    exact ⟨s, hrun, not_nobodyLeftOut hleft⟩
  · obtain ⟨s, hrun, hleft⟩ : ∃ s,
        (machine (nearAndFar .socketPubSub) fun _ => 7).run oneEach = some s ∧
          s.leftOut 0 1 = true :=
      Machine.exists_of_any (M := machine (nearAndFar .socketPubSub) fun _ => 7)
        (P := fun s => s.leftOut 0 1 = true) (show (Machine.run _ _).any _ = true by decide +kernel)
    exact ⟨s, hrun, not_nobodyLeftOut hleft⟩

end DzIpc.PubSub.FastPath
