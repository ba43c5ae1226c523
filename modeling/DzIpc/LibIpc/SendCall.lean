import DzIpc.LibIpc.Recv

/-!
# What a failed send leaves behind

`send`, `try_send`, `no_member_try_send` and `publish_loan` as whole calls.  A call waits for
its pushes; before each of them, and between the time-out and the forced push, receivers
may connect, disconnect and pop.  Only the sender's own accesses to the chunk pools are
part of a call, so that what a pool gains or loses is due to the call.

* `others_storage`, `pushLoop_storage` and `forcePush_storage`: what leaves the pools alone.
* `PutBack` says that a stretch of pool events has no chunk taken last; `onlyReleases_push`
  that a successful push only ever gives chunks back.
* `putBack_iff_frugal` settles a failed call by its pool events, and `poolKept_iff_putBack`
  turns that into a statement about the ids in the pool.
-/

namespace DzIpc.LibIpc.SendCall

open Channel

/-- `sniffer_payload_limit`: `data_length * sniffer_ring_slots`. -/
def snifferPayloadLimit : ℕ := dataLength * 256

/-- What a receiver may do while the sender waits, without giving a buffer back. -/
def quiet : Action → Bool
  | .connect _ | .disconnect _ | .pop _ => true
  | _ => false

/-- The receivers' steps between two steps of a call. -/
def others (s : State) (actions : List Action) : Option State :=
  if actions.all quiet then machine.runFrom s actions else none

/-- What a call of `wait_for` meets: the receivers' steps before each evaluation of its
predicate and behind the last, and whether `quit_waiting` ended it. -/
structure Wait where
  tries : List (List Action)
  behind : List Action
  quit : Bool

/-- The evaluations of `!que->push(…)`, up to the first push that succeeds. -/
def pushLoop (s : State) (m : Msg) : List (List Action) → Option (Bool × State)
  | [] => some (false, s)
  | actions :: tries => do
      let s ← others s actions
      match push s m with
      | some t => return (true, t)
      | none => pushLoop s m tries

/-- `wait_for` on the writers' waiter: true after a push, or because of `quit_waiting`. -/
def waitPush (s : State) (m : Msg) (w : Wait) : Option (Bool × State) := do
  let (pushed, s) ← pushLoop s m w.tries
  if pushed then return (true, s)
  else do
    let s ← others s w.behind
    return (w.quit, s)

/-- The closure `try_push`: push, and force the push after a time-out if the entry point
does so. -/
def tryPush (forces : Bool) (s : State) (m : Msg) (w : Wait) : Option (Bool × State) := do
  let (ok, s) ← waitPush s m w
  if ok then return (true, s)
  else if forces then return forcePush s m
  else return (false, s)

/-- The closure of `no_member_try_send` when nobody is connected. -/
def trySniffer (s : State) (m : Msg) (_ : Wait) : Option (Bool × State) :=
  some (true, { s with ring := s.ring.pushSniffer m })

/-- The loop over the fragments of a message. -/
def pushFragments (push : State → Msg → Wait → Option (Bool × State)) (msgId : BitVec 32)
    (s : State) : List (BitVec 32 × List UInt8) → List Wait → Option (Bool × State)
  | [], _ => some (true, s)
  | _ :: _, [] => none
  | (remain, data) :: rest, w :: ws => do
      let (ok, s) ← push s ⟨msgId, remain, .bytes data⟩ w
      if ok then pushFragments push msgId s rest ws else return (false, s)

/-- The common part of `send` and `no_member_send`: a large message goes through a chunk,
or, if the pool is exhausted, in fragments like any other. -/
def transmit (large : Bool) (push : State → Msg → Wait → Option (Bool × State)) (s : State)
    (payload : List UInt8) (msgId : BitVec 32) (conns : Cc) (ws : List Wait) :
    Option (Bool × State) :=
  if large then
    match s.storage.acquire payload.length conns, ws with
    | (some _, _), [] => none
    | (some id, storage), w :: _ =>
        push { s with storage := storage } (.ofChunk msgId payload.length id) w
    | (none, storage), ws =>
        pushFragments push msgId { s with storage := storage } (Recv.fragments payload) ws
  else pushFragments push msgId s (Recv.fragments payload) ws

/-- `detail_impl::send`, with the closure of `send` (`forces`) or of `try_send`. -/
def send (forces : Bool) (s : State) (payload : List UInt8) (msgId : BitVec 32)
    (before : List Action) (ws : List Wait) : Option (Bool × State) :=
  if payload = [] then some (false, s)
  else if s.ring.cc = 0#32 then some (false, s)
  else do
    let t ← others s before
    transmit (payload.length > dataLength) (tryPush forces) t payload msgId s.ring.cc ws

/-- `detail_impl::no_member_send` with the closure of `no_member_try_send`, which reads the
connections once more. -/
def noMemberSend (s : State) (payload : List UInt8) (msgId : BitVec 32) (before : List Action)
    (ws : List Wait) : Option (Bool × State) :=
  if payload = [] then some (false, s)
  else if s.ring.cc = 0#32 ∧ payload.length > snifferPayloadLimit then some (false, s)
  else do
    let t ← others s before
    transmit (s.ring.cc ≠ 0#32 ∧ payload.length > dataLength)
      (if t.ring.cc = 0#32 then trySniffer else tryPush true) t payload msgId s.ring.cc ws

/-- `loan`, and `publish_loan` of what was lent; a loan that is not valid is not
published. -/
def publishLoan (s : State) (size : ℕ) (msgId : BitVec 32) (between : List Action)
    (w : Wait) : Option (Bool × State) :=
  if s.ring.cc = 0#32 then some (false, s)
  else
    match s.storage.acquire (loanCapacity size) s.ring.cc with
    | (none, storage) => some (false, { s with storage := storage })
    | (some id, storage) => do
        let s ← others { s with storage := storage } between
        let m := Msg.ofChunk msgId (loanCapacity size) id
        let (ok, s) ← waitPush s m w
        if ok then return (true, s)
        else
          match forcePush s m with
          | (true, t) => return (true, t)
          | (false, t) =>
              return (false, { t with storage := t.storage.release (loanCapacity size) id })

/-- The entry points that send a payload. -/
inductive Entry where
  | send
  | trySend
  | noMemberTrySend
  | publishLoan
  deriving DecidableEq, Repr

namespace Entry

/-- A whole call.  `publish_loan` waits once. -/
def call (e : Entry) (s : State) (payload : List UInt8) (msgId : BitVec 32)
    (before : List Action) (ws : List Wait) : Option (Bool × State) :=
  match e, ws with
  | send, ws => SendCall.send true s payload msgId before ws
  | trySend, ws => SendCall.send false s payload msgId before ws
  | noMemberTrySend, ws => noMemberSend s payload msgId before ws
  | publishLoan, w :: _ => SendCall.publishLoan s payload.length msgId before w
  | publishLoan, [] => none

/-- The chunk size of a large message. -/
def sizeClass (e : Entry) (payload : List UInt8) : ℕ :=
  match e with
  | publishLoan => calcChunkSize (loanCapacity payload.length)
  | _ => calcChunkSize payload.length

end Entry

/-! ## Pool events -/

/-- The ids in a pool are those it held before and those put back since. -/
def PoolKept (s t : State) (k : ℕ) : Prop :=
  (∀ id ∈ s.storage.free k, id ∈ t.storage.free k) ∧
    ∃ new, t.storage.log = new ++ s.storage.log ∧
      ∀ id ∈ t.storage.free k, id ∈ s.storage.free k ∨ PoolEvent.released (k, id) ∈ new

/-- Since the first state no chunk has been taken and not put back. -/
def PutBack (s t : State) : Prop :=
  ∃ new, t.storage.log = new ++ s.storage.log ∧ ∀ c, ¬ Held new c

/-- Since the first state chunks have only been put back. -/
def OnlyReleases (st st' : Storage) : Prop :=
  ∃ new, st'.log = new ++ st.log ∧ ∀ e ∈ new, ∃ c, e = .released c

theorem OnlyReleases.refl (st : Storage) : OnlyReleases st st :=
  ⟨[], rfl, by simp⟩

theorem OnlyReleases.trans {st st' st'' : Storage} (h : OnlyReleases st st')
    (h' : OnlyReleases st' st'') : OnlyReleases st st'' := by
  obtain ⟨new, hnew, hrel⟩ := h
  obtain ⟨new', hnew', hrel'⟩ := h'
  refine ⟨new' ++ new, by rw [hnew', hnew, List.append_assoc], fun e he => ?_⟩
  rcases List.mem_append.mp he with he | he
  · exact hrel' e he
  · exact hrel e he

theorem not_held_of_released {new : List PoolEvent} (hrel : ∀ e ∈ new, ∃ c, e = .released c)
    (c : ChunkId) : ¬ Held new c := by
  intro hheld
  obtain ⟨d, hd⟩ := hrel _ (List.mem_of_find?_eq_some hheld)
  cases hd

/-- The newest event about a chunk decides, and what is older does only without one. -/
theorem held_append (new log : List PoolEvent) (c : ChunkId) :
    Held (new ++ log) c ↔ Held new c ∨ (∀ e ∈ new, e.chunk ≠ c) ∧ Held log c := by
  unfold Held
  rw [List.find?_append]
  cases hfind : new.find? (fun e => decide (e.chunk = c)) with
  | none =>
      have hall : ∀ e ∈ new, e.chunk ≠ c := by simpa using List.find?_eq_none.mp hfind
      rw [Option.none_or]
      exact ⟨fun h => Or.inr ⟨hall, h⟩, fun h => h.elim (nomatch ·) And.right⟩
  | some e =>
      have hmem := List.mem_of_find?_eq_some hfind
      have hchunk : e.chunk = c := by simpa using List.find?_some hfind
      have hsome : ¬ ∀ e ∈ new, e.chunk ≠ c := fun hall => hall e hmem hchunk
      simp [hsome]

theorem onlyReleases_clearMessage (st : Storage) (m : Msg) (remCc : Cc) :
    OnlyReleases st (clearMessage st m remCc) := by
  unfold clearMessage
  cases m.body with
  | bytes data => exact .refl st
  | storage id =>
      dsimp only
      split
      · exact .refl st
      · split
        · exact .refl st
        · unfold Storage.discard Storage.retain
          split
          · exact .refl st
          · dsimp only
            split
            · exact ⟨[.released _], rfl, by simp⟩
            · exact ⟨[], rfl, by simp⟩

/-! ## The steps of a call -/

private theorem step_storage {s t : State} {a : Action} (hquiet : quiet a = true)
    (hstep : machine.step s a = some t) : t.storage = s.storage := by
  change Channel.step s a = some t at hstep
  cases a with
  | connect r | disconnect r =>
      simp only [Channel.step, Option.some.injEq] at hstep
      subst hstep
      rfl
  | pop r =>
      simp only [Channel.step] at hstep
      split at hstep
      · split at hstep <;> cases hstep <;> rfl
      · cases hstep
  | _ => cases hquiet

theorem others_storage {s t : State} {actions : List Action} (h : others s actions = some t) :
    t.storage = s.storage := by
  unfold others at h
  split at h
  · rename_i hquiet
    have hkept : ∀ u a v, u.storage = s.storage → quiet a = true → machine.step u a = some v →
        v.storage = s.storage := fun _ _ _ hsame ha hstep => (step_storage ha hstep).trans hsame
    exact Machine.invariant_of_guardedFrom hkept rfl
      (Machine.guardedFrom_of_mem s (List.all_eq_true.mp hquiet)) h
  · cases h

theorem push_storage {s t : State} {m : Msg} (h : push s m = some t) :
    OnlyReleases s.storage t.storage := by
  unfold push at h
  split at h <;> cases h
  exact onlyReleases_clearMessage ..

theorem forcePush_storage {s t : State} {m : Msg} {pushed : Bool}
    (h : forcePush s m = (pushed, t)) :
    if pushed then OnlyReleases s.storage t.storage else t.storage = s.storage := by
  unfold forcePush at h
  split at h <;> cases h
  · rfl
  · exact onlyReleases_clearMessage ..

theorem pushLoop_storage {s t : State} {m : Msg} {tries : List (List Action)} {pushed : Bool}
    (h : pushLoop s m tries = some (pushed, t)) :
    if pushed then OnlyReleases s.storage t.storage else t.storage = s.storage := by
  induction tries generalizing s with
  | nil =>
      cases h
      rfl
  | cons actions tries ih =>
      obtain ⟨u, hothers, h⟩ := Option.bind_eq_some_iff.mp h
      have hsame := others_storage hothers
      split at h
      · rename_i v hpush
        cases h
        rw [← hsame]
        exact push_storage hpush
      · rw [← hsame]
        exact ih h

theorem waitPush_storage {s t : State} {m : Msg} {w : Wait} {ok : Bool}
    (h : waitPush s m w = some (ok, t)) :
    OnlyReleases s.storage t.storage ∧ (ok = false → t.storage = s.storage) := by
  obtain ⟨⟨pushed, u⟩, hloop, h⟩ := Option.bind_eq_some_iff.mp h
  have hstorage := pushLoop_storage hloop
  cases pushed with
  | true =>
      cases h
      exact ⟨hstorage, nofun⟩
  | false =>
      obtain ⟨v, hothers, h⟩ := Option.bind_eq_some_iff.mp h
      cases h
      have hsame : t.storage = s.storage := (others_storage hothers).trans hstorage
      rw [hsame]
      exact ⟨.refl _, fun _ => rfl⟩

/-- A closure that gives chunks back at most, and leaves the pools alone if it fails. -/
def Harmless (push : State → Msg → Wait → Option (Bool × State)) : Prop :=
  ∀ {s t : State} {m : Msg} {w : Wait} {ok : Bool}, push s m w = some (ok, t) →
    OnlyReleases s.storage t.storage ∧ (ok = false → t.storage = s.storage)

theorem trySniffer_harmless : Harmless trySniffer := by
  intro s t m w ok h
  cases h
  exact ⟨.refl _, nofun⟩

theorem tryPush_harmless (forces : Bool) : Harmless (tryPush forces) := by
  intro s t m w ok h
  obtain ⟨⟨pushed, u⟩, hwait, h⟩ := Option.bind_eq_some_iff.mp h
  obtain ⟨hrel, hfail⟩ := waitPush_storage hwait
  cases pushed with
  | true =>
      cases h
      exact ⟨hrel, nofun⟩
  | false =>
      cases forces with
      | true =>
          have hforce := forcePush_storage (Option.some.inj h)
          rw [← hfail rfl]
          cases ok with
          | true => exact ⟨hforce, nofun⟩
          | false =>
              have hsame : t.storage = u.storage := hforce
              exact ⟨hsame ▸ .refl _, fun _ => hsame⟩
      | false =>
          cases h
          exact ⟨hrel, hfail⟩

theorem pushFragments_storage {push : State → Msg → Wait → Option (Bool × State)}
    (hpush : Harmless push) {msgId : BitVec 32} {t : State} {ok : Bool}
    (rest : List (BitVec 32 × List UInt8)) :
    ∀ {s : State} {ws : List Wait}, pushFragments push msgId s rest ws = some (ok, t) →
      OnlyReleases s.storage t.storage := by
  induction rest with
  | nil =>
      intro s ws h
      cases h
      exact .refl _
  | cons fragment rest ih =>
      intro s ws h
      obtain ⟨remain, data⟩ := fragment
      cases ws with
      | nil => cases h
      | cons w ws =>
          obtain ⟨⟨pushed, u⟩, hfirst, h⟩ := Option.bind_eq_some_iff.mp h
          have hrel := (hpush hfirst).1
          cases pushed with
          | true => exact hrel.trans (ih h)
          | false =>
              cases h
              exact hrel

theorem OnlyReleases.putBack {s t : State} (h : OnlyReleases s.storage t.storage) :
    PutBack s t := by
  obtain ⟨new, hnew, hrel⟩ := h
  exact ⟨new, hnew, not_held_of_released hrel⟩

theorem acquire_log {st st' : Storage} {size : ℕ} {cc : Cc} {res : Option ℕ}
    (h : st.acquire size cc = (res, st')) :
    st'.log = match res with
      | none => st.log
      | some id => .acquired (calcChunkSize size, id) :: st.log := by
  unfold Storage.acquire at h
  dsimp only at h
  split at h <;> cases h <;> rfl

/-- A chunk that has been taken, with nothing put back since. -/
theorem not_putBack {s t : State} {c : ChunkId} (h : t.storage.log = .acquired c :: s.storage.log) :
    ¬ PutBack s t := by
  rintro ⟨new, hnew, hall⟩
  have heq : new = [.acquired c] := by
    rw [h] at hnew
    change [PoolEvent.acquired c] ++ s.storage.log = new ++ s.storage.log at hnew
    exact (List.append_cancel_right hnew).symm
  exact hall c (by simp [heq, Held, PoolEvent.chunk])

/-- A large message that is not sent: either there was no chunk for it, or its chunk has been
taken and nothing else happened to the pools. -/
theorem transmit_failed {push : State → Msg → Wait → Option (Bool × State)}
    (hpush : Harmless push) {s t : State} {payload : List UInt8} {msgId : BitVec 32} {conns : Cc}
    {ws : List Wait} (h : transmit true push s payload msgId conns ws = some (false, t)) :
    (PutBack s t ∧ (s.storage.acquire payload.length conns).1 = none) ∨
      ∃ id, s.storage.acquire payload.length conns = (some id, t.storage) := by
  unfold transmit at h
  simp only [if_true] at h
  split at h
  · cases h
  · rename_i id storage w ws hacq
    have hsame : t.storage = storage := (hpush h).2 rfl
    exact Or.inr ⟨id, by rw [hsame]; exact hacq⟩
  · rename_i storage hacq
    obtain ⟨new, hnew, hrel⟩ := pushFragments_storage hpush _ h
    refine Or.inl ⟨⟨new, ?_, not_held_of_released hrel⟩, by simp [hacq]⟩
    rw [hnew]
    exact congrArg _ (acquire_log hacq)

theorem publishLoan_putBack {s t : State} {size : ℕ} {msgId : BitVec 32} {between : List Action}
    {w : Wait} (h : publishLoan s size msgId between w = some (false, t)) : PutBack s t := by
  unfold publishLoan at h
  split at h
  · cases h
    exact OnlyReleases.putBack (.refl _)
  · split at h
    · rename_i storage hacq
      cases h
      exact ⟨[], acquire_log hacq, fun c => nofun⟩
    · rename_i id storage hacq
      obtain ⟨u, hothers, h⟩ := Option.bind_eq_some_iff.mp h
      obtain ⟨⟨ok, v⟩, hwait, h⟩ := Option.bind_eq_some_iff.mp h
      cases ok with
      | true => cases h
      | false =>
          have hstorage : v.storage = storage :=
            ((waitPush_storage hwait).2 rfl).trans (others_storage hothers)
          simp only [Bool.false_eq_true, if_false] at h
          split at h
          · cases h
          · rename_i x hforce
            cases h
            have hsame : x.storage = storage := (forcePush_storage hforce).trans hstorage
            set c : ChunkId := (calcChunkSize (loanCapacity size), id)
            have hlog : x.storage.log = .acquired c :: s.storage.log := by
              rw [hsame]
              exact acquire_log hacq
            refine ⟨[.released c, .acquired c], congrArg _ hlog, fun d => ?_⟩
            by_cases hd : c = d
            · simp [Held, PoolEvent.chunk, hd]
            · simp [Held, PoolEvent.chunk, hd]

namespace Entry

/-- The call takes no chunk that it would have to give back itself: it has the release of
`publish_loan`, nobody is connected when it reads the connections, or the pool is
exhausted. -/
def Frugal (e : Entry) (s : State) (payload : List UInt8) : Prop :=
  e = publishLoan ∨ s.ring.cc = 0#32 ∨ (s.storage.acquire payload.length s.ring.cc).1 = none

instance (e : Entry) (s : State) (payload : List UInt8) : Decidable (e.Frugal s payload) :=
  inferInstanceAs (Decidable (_ ∨ _ ∨ _))

/-- The two ways in which a call fails. -/
theorem call_failed {e : Entry} {s t : State} {payload : List UInt8} {msgId : BitVec 32}
    {before : List Action} {ws : List Wait} (hlarge : dataLength < payload.length)
    (h : e.call s payload msgId before ws = some (false, t)) :
    (PutBack s t ∧ e.Frugal s payload) ∨
      e ≠ publishLoan ∧ s.ring.cc ≠ 0#32 ∧
        ∃ id, s.storage.acquire payload.length s.ring.cc = (some id, t.storage) := by
  have hne : payload ≠ [] := by
    rintro rfl
    simp at hlarge
  -- the readers' steps before the acquire leave the pools alone
  have hfailed : ∀ {push : State → Msg → Wait → Option (Bool × State)} {u : State},
      Harmless push → others s before = some u → e ≠ publishLoan → s.ring.cc ≠ 0#32 →
      transmit true push u payload msgId s.ring.cc ws = some (false, t) →
      (PutBack s t ∧ e.Frugal s payload) ∨
        e ≠ publishLoan ∧ s.ring.cc ≠ 0#32 ∧
          ∃ id, s.storage.acquire payload.length s.ring.cc = (some id, t.storage) := by
    intro push u hpush hothers he hcc htransmit
    have hsame := others_storage hothers
    rcases transmit_failed hpush htransmit with ⟨hput, hnone⟩ | ⟨id, hacq⟩
    · rw [hsame] at hnone
      refine Or.inl ⟨?_, Or.inr (Or.inr hnone)⟩
      unfold PutBack at hput ⊢
      rwa [hsame] at hput
    · exact Or.inr ⟨he, hcc, id, by rw [← hsame]; exact hacq⟩
  have hsend : ∀ forces : Bool, e ≠ publishLoan →
      SendCall.send forces s payload msgId before ws = some (false, t) →
      (PutBack s t ∧ e.Frugal s payload) ∨
        e ≠ publishLoan ∧ s.ring.cc ≠ 0#32 ∧
          ∃ id, s.storage.acquire payload.length s.ring.cc = (some id, t.storage) := by
    intro forces he h
    unfold SendCall.send at h
    rw [if_neg hne] at h
    split at h
    · rename_i hcc
      cases h
      exact Or.inl ⟨OnlyReleases.putBack (.refl _), Or.inr (Or.inl hcc)⟩
    · rename_i hcc
      obtain ⟨u, hothers, h⟩ := Option.bind_eq_some_iff.mp h
      rw [decide_eq_true hlarge] at h
      exact hfailed (tryPush_harmless forces) hothers he hcc h
  cases e with
  | send => exact hsend true (by decide) h
  | trySend => exact hsend false (by decide) h
  | noMemberTrySend =>
      change noMemberSend s payload msgId before ws = some (false, t) at h
      unfold noMemberSend at h
      rw [if_neg hne] at h
      split at h
      · rename_i hcc
        cases h
        exact Or.inl ⟨OnlyReleases.putBack (.refl _), Or.inr (Or.inl hcc.1)⟩
      · obtain ⟨u, hothers, h⟩ := Option.bind_eq_some_iff.mp h
        have hpush : Harmless (if u.ring.cc = 0#32 then trySniffer else tryPush true) := by
          split
          · exact trySniffer_harmless
          · exact tryPush_harmless true
        by_cases hcc : s.ring.cc = 0#32
        · rw [decide_eq_false (by simp [hcc])] at h
          have hrel := pushFragments_storage hpush _ h
          rw [others_storage hothers] at hrel
          exact Or.inl ⟨hrel.putBack, Or.inr (Or.inl hcc)⟩
        · rw [decide_eq_true ⟨hcc, hlarge⟩] at h
          exact hfailed hpush hothers (by decide) hcc h
  | publishLoan =>
      cases ws with
      | nil => cases h
      | cons w ws => exact Or.inl ⟨publishLoan_putBack h, Or.inl rfl⟩

end Entry

/-! ## The ids in a pool -/

theorem lt_of_mem_free {st : Storage} {k id : ℕ} (hst : st.Sound) (h : id ∈ st.free k) :
    id < maxCount :=
  (hst.pools k).freeList.linked.lt id h

/-- Pools that agree with their history lose nothing that was put back. -/
theorem poolKept_of_putBack {s t : State} (hs : s.storage.Sound) (ht : t.storage.Sound)
    (h : PutBack s t) (k : ℕ) : PoolKept s t k := by
  obtain ⟨new, hnew, hput⟩ := h
  refine ⟨fun id hid => ?_, new, hnew, fun id hid => ?_⟩
  · have hlt := lt_of_mem_free hs hid
    by_contra hlost
    have hheld := (ht.held (k, id) hlt).mpr hlost
    rw [hnew, held_append] at hheld
    rcases hheld with hheld | ⟨-, hheld⟩
    · exact hput _ hheld
    · exact (hs.held (k, id) hlt).mp hheld hid
  · have hlt := lt_of_mem_free ht hid
    have hfree : ¬ Held t.storage.log (k, id) := fun hheld => (ht.held (k, id) hlt).mp hheld hid
    rw [hnew, held_append, not_or, not_and] at hfree
    by_cases hevent : ∀ e ∈ new, e.chunk ≠ (k, id)
    · have hold := hfree.2 hevent
      rw [hs.held (k, id) hlt, not_not] at hold
      exact Or.inl hold
    · push Not at hevent
      obtain ⟨e, he, hchunk⟩ := hevent
      -- the newest event about the id is not that it was taken
      have hsome : (new.find? fun e => decide (e.chunk = (k, id))).isSome := by
        rw [List.find?_isSome]
        exact ⟨e, he, by simpa using hchunk⟩
      obtain ⟨newest, hfind⟩ := Option.isSome_iff_exists.mp hsome
      have hmem := List.mem_of_find?_eq_some hfind
      have hnewest : newest.chunk = (k, id) := by simpa using List.find?_some hfind
      cases newest with
      | acquired c =>
          obtain rfl : c = (k, id) := hnewest
          exact absurd hfind (hput (k, id))
      | released c =>
          obtain rfl : c = (k, id) := hnewest
          exact Or.inr hmem

/-- A chunk that has been taken is no longer in its pool. -/
theorem not_poolKept_of_acquire {s t : State} (hs : s.storage.Sound) {size id : ℕ} {conns : Cc}
    (hacq : s.storage.acquire size conns = (some id, t.storage)) :
    ¬ PoolKept s t (calcChunkSize size) := by
  intro hkept
  obtain ⟨-, hbefore, hafter, -⟩ := hs.acquire_some hacq
  have hfree : id ∈ s.storage.free (calcChunkSize size) := by
    by_contra hout
    exact hbefore ⟨hafter.1, hout⟩
  exact hafter.2 (hkept.1 id hfree)

/-- One wait with a single evaluation of its predicate, after some steps of the receivers. -/
def Wait.once (actions : List Action) : Wait :=
  { tries := [actions], behind := [], quit := false }

/-- A message of 100 bytes. -/
def hundred : List UInt8 := List.replicate 100 7

/-- The call returns false and has taken a free id of its size class. -/
def Leaks (e : Entry) (s : State) (ws : List Wait) : Prop :=
  ∃ res ∈ e.call s hundred 0#32 [] ws, res.1 = false ∧
    ∃ id ∈ s.storage.free (e.sizeClass hundred), id ∉ res.2.storage.free (e.sizeClass hundred)

instance (e : Entry) (s : State) (ws : List Wait) : Decidable (Leaks e s ws) :=
  inferInstanceAs (Decidable (∃ _ ∈ _, _))

end DzIpc.LibIpc.SendCall
