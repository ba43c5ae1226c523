import DzIpc.Library.Machine
import DzIpc.LibIpc.Chunks

/-!
# The broadcast channel

One channel of `ipc.cpp` with a single producer and any number of receivers, as a machine
whose steps are the operations: receivers connect, disconnect, pop and drop the buffers they
were given; the sender acquires a chunk or takes a loan, and later pushes it, pushes it by
force, gives up or discards it.  Between any two of these steps any other may happen.

Small messages and fragments carry their bytes in the slot, large ones the id of a chunk.
The record a receiver keeps with a large message (`recycle_t`) holds the connections it read
when it popped the message.
-/

namespace DzIpc.LibIpc

/-- The payload area of `msg_t`: up to `data_length` bytes, or the id of a chunk. -/
inductive Body
  | bytes (data : List UInt8)
  | storage (id : ℕ)
  deriving DecidableEq

/-- `msg_t`, without the connection id of its sender. -/
structure Msg where
  id : BitVec 32
  remain : BitVec 32
  body : Body
  deriving DecidableEq

namespace Msg

/-- The default-constructed slot contents. -/
def blank : Msg := ⟨0#32, 0#32, .bytes []⟩

/-- `r_size`: the remaining length with this slot's share, a 32-bit signed number. -/
def rSize (m : Msg) : ℤ := (BitVec.ofNat 32 dataLength + m.remain).toInt

/-- The chunk a message refers to, as `recv` and `clear_message` find it. -/
def chunk (m : Msg) : Option ChunkId :=
  match m.body with
  | .bytes _ => none
  | .storage id => if m.rSize ≤ 0 then none else some (calcChunkSize m.rSize.toNat, id)

/-- The message that carries a chunk of a given size: `remain` is `size - data_length`. -/
def ofChunk (msgId : BitVec 32) (size id : ℕ) : Msg :=
  ⟨msgId, BitVec.ofNat 32 size - BitVec.ofNat 32 dataLength, .storage id⟩

end Msg

/-- `clear_message`: return the chunk of an overwritten message that readers will not
come for. -/
def clearMessage (st : Storage) (m : Msg) (remCc : Cc) : Storage :=
  match m.body with
  | .bytes _ => st
  | .storage id =>
      if remCc = 0#32 then st
      else if m.rSize ≤ 0 then st
      else st.discard m.rSize.toNat id remCc

/-- `recycle_t`, kept with a `buff_t` of a large message. -/
structure Buff where
  storageId : ℕ
  size : ℕ
  currConns : Cc
  connId : Cc
  deriving DecidableEq

/-- A chunk the sender has acquired and not yet handed over. -/
structure Pending where
  id : ℕ
  size : ℕ
  /-- Taken by `loan` rather than by `send`. -/
  loaned : Bool
  deriving DecidableEq

namespace Buff

/-- The chunk a buffer lies in. -/
def chunk (b : Buff) : ChunkId := (calcChunkSize b.size, b.storageId)

end Buff

namespace Pending

/-- The chunk the sender holds. -/
def chunk (p : Pending) : ChunkId := (calcChunkSize p.size, p.id)

end Pending

namespace Channel

/-- The state of a channel. -/
structure State where
  ring : Ring Msg
  queues : ℕ → Queue
  storage : Storage
  /-- The live `buff_t` values of large messages, of all receivers. -/
  buffs : List Buff
  pending : List Pending

/-- The operations of the receivers and of the sender. -/
inductive Action
  | connect (r : ℕ)
  | disconnect (r : ℕ)
  /-- `recv`, up to the construction of the `buff_t`. -/
  | pop (r : ℕ)
  /-- The destructor of a `buff_t`. -/
  | drop (i : ℕ)
  /-- `send` reads the connections and acquires a chunk. -/
  | acquire (size : ℕ)
  /-- `loan`. -/
  | loan (size : ℕ)
  /-- A successful `push` of a chunk, by `send` or `publish_loan`. -/
  | push (i : ℕ) (msgId : BitVec 32)
  /-- The `force_push` after a push that timed out. -/
  | forcePush (i : ℕ) (msgId : BitVec 32)
  /-- `try_send` returns false after its push timed out. -/
  | giveUp (i : ℕ)
  /-- `discard_loan`. -/
  | discard (i : ℕ)
  /-- A successful `push` of a small message or a fragment. -/
  | pushInline (msgId remain : BitVec 32) (data : List UInt8)
  /-- `force_push` of a small message or a fragment. -/
  | forcePushInline (msgId remain : BitVec 32) (data : List UInt8)
  /-- `push_sniffer`. -/
  | pushSniffer (msgId remain : BitVec 32) (data : List UInt8)
  deriving DecidableEq

/-- The zeroed segments, nobody connected. -/
def init : State :=
  { ring := Ring.zeroed Msg.blank
    queues := fun _ => ⟨0#32, 0#32⟩
    storage := Storage.zeroed
    buffs := []
    pending := [] }

/-- The end of `recv` after a pop: a message in a chunk becomes a `buff_t` with a snapshot
of the connections. -/
def receive (s : State) (m : Msg) (connId : Cc) : List Buff :=
  match m.body with
  | .bytes _ => s.buffs
  | .storage id =>
      if m.rSize ≤ 0 then s.buffs else ⟨id, m.rSize.toNat, s.ring.cc, connId⟩ :: s.buffs

/-- `send` or `loan` acquires a chunk of a given size for the readers of the moment. -/
def acquire (s : State) (size : ℕ) (loaned : Bool) : State :=
  match s.storage.acquire size s.ring.cc with
  | (none, storage) => { s with storage := storage }
  | (some id, storage) => { s with storage := storage, pending := ⟨id, size, loaned⟩ :: s.pending }

/-- The capacity `loan` asks for. -/
def loanCapacity (size : ℕ) : ℕ :=
  loanSizeClass (if size ≤ dataLength then dataLength + 1 else size)

/-- `push` with the callback that clears the overwritten message. -/
def push (s : State) (m : Msg) : Option State :=
  match s.ring.push m with
  | none => none
  | some (old, ring) =>
      some { s with ring := ring, storage := clearMessage s.storage old.data old.rem }

/-- `force_push` with the same callback; the flag is its result. -/
def forcePush (s : State) (m : Msg) : Bool × State :=
  match s.ring.forcePush m with
  | (none, ring) => (false, { s with ring := ring })
  | (some old, ring) =>
      (true, { s with ring := ring, storage := clearMessage s.storage old.data old.rem })

/-- One operation. -/
def step (s : State) : Action → Option State
  | .connect r =>
      let (ring, q) := s.ring.connect (s.queues r)
      some { s with ring := ring, queues := Function.update s.queues r q }
  | .disconnect r =>
      let (ring, q) := s.ring.disconnect (s.queues r)
      some { s with ring := ring, queues := Function.update s.queues r q }
  | .pop r =>
      -- `recv` returns at once when the queue is not connected
      if s.ring.isConnected (s.queues r) then
        match s.ring.pop (s.queues r) with
        | (none, ring, q) => some { s with ring := ring, queues := Function.update s.queues r q }
        | (some (m, _), ring, q) =>
            some { s with
              ring := ring
              queues := Function.update s.queues r q
              buffs := receive s m q.connected }
      else none
  | .drop i =>
      match s.buffs[i]? with
      | none => none
      | some b => some { s with
          buffs := s.buffs.eraseIdx i
          storage := s.storage.recycle b.size b.storageId b.currConns b.connId }
  | .acquire size =>
      if s.ring.cc = 0#32 ∨ size ≤ dataLength then none else some (acquire s size false)
  | .loan size =>
      if s.ring.cc = 0#32 then none else some (acquire s (loanCapacity size) true)
  | .push i msgId =>
      match s.pending[i]? with
      | none => none
      | some p => push { s with pending := s.pending.eraseIdx i } (.ofChunk msgId p.size p.id)
  | .forcePush i msgId =>
      match s.pending[i]? with
      | none => none
      | some p =>
          match forcePush { s with pending := s.pending.eraseIdx i }
              (.ofChunk msgId p.size p.id) with
          | (true, t) => some t
          -- only `publish_loan` gives the chunk back when the push fails
          | (false, t) =>
              some (if p.loaned then { t with storage := t.storage.release p.size p.id } else t)
  | .giveUp i =>
      match s.pending[i]? with
      | none => none
      | some p => if p.loaned then none else some { s with pending := s.pending.eraseIdx i }
  | .discard i =>
      match s.pending[i]? with
      | none => none
      | some p =>
          if p.loaned then some { s with
            pending := s.pending.eraseIdx i
            storage := s.storage.release p.size p.id }
          else none
  | .pushInline msgId remain data => push s ⟨msgId, remain, .bytes data⟩
  | .forcePushInline msgId remain data => some (forcePush s ⟨msgId, remain, .bytes data⟩).2
  | .pushSniffer msgId remain data =>
      some { s with ring := s.ring.pushSniffer ⟨msgId, remain, .bytes data⟩ }

/-- The channel as a machine. -/
def machine : Machine State Action := ⟨init, step⟩

/-! ## What the operations do to the slots -/

/-- A message was written at the write index and nowhere else. -/
def Wrote (q q' : Ring Msg) (m : Msg) : Prop :=
  (q'.elems (indexOf q.wt)).data = m ∧ ∀ i, i ≠ indexOf q.wt → q'.elems i = q.elems i

theorem push_spec {s t : State} {m : Msg} (h : push s m = some t) :
    Wrote s.ring t.ring m ∧ t.pending = s.pending := by
  unfold push at h
  split at h
  · cases h
  · rename_i old ring hring
    obtain ⟨-, -, -, rfl⟩ := Ring.push_eq_some hring
    cases h
    exact ⟨⟨by simp [Ring.overwrite], fun i hi => Ring.overwrite_elems_of_ne _ _ hi⟩, rfl⟩

theorem forcePush_spec {s t : State} {m : Msg} {pushed : Bool} (h : forcePush s m = (pushed, t)) :
    t.pending = s.pending ∧
      if s.ring.cc = 0#32 then pushed = false ∧ t.ring.elems = s.ring.elems
      else pushed = true ∧ Wrote s.ring t.ring m := by
  unfold forcePush Ring.forcePush at h
  split
  · rename_i hcc
    simp only [hcc, if_true, Prod.mk.injEq] at h
    obtain ⟨rfl, rfl⟩ := h
    exact ⟨rfl, rfl, rfl⟩
  · rename_i hcc
    simp only [hcc, if_false, Prod.mk.injEq] at h
    obtain ⟨rfl, rfl⟩ := h
    exact ⟨rfl, rfl, by simp [Ring.overwrite], fun i hi => Ring.overwrite_elems_of_ne _ _ hi⟩

/-- Connecting, disconnecting and dropping a buffer touch neither the slots nor what the
sender holds. -/
theorem step_quiet {s t : State} {a : Action}
    (ha : (∃ r, a = .connect r) ∨ (∃ r, a = .disconnect r) ∨ ∃ i, a = .drop i)
    (h : step s a = some t) : t.ring.elems = s.ring.elems ∧ t.pending = s.pending := by
  rcases ha with ⟨r, rfl⟩ | ⟨r, rfl⟩ | ⟨i, rfl⟩
  · simp only [step, Option.some.injEq] at h
    subst h
    rcases s.ring.connect_cases (s.queues r) with ⟨-, heq⟩ | ⟨-, heq⟩ | ⟨id, -, -, -, heq⟩ <;>
      rw [heq] <;> exact ⟨rfl, rfl⟩
  · simp only [step, Option.some.injEq, Ring.disconnect] at h
    subst h
    split <;> exact ⟨rfl, rfl⟩
  · simp only [step] at h
    split at h <;> cases h
    exact ⟨rfl, rfl⟩

/-- The sender acquires a chunk or finds none. -/
theorem acquire_spec (s : State) (size : ℕ) (loaned : Bool) :
    (acquire s size loaned).ring = s.ring ∧
      ((acquire s size loaned).pending = s.pending ∨
        ∃ id, (acquire s size loaned).pending = ⟨id, size, loaned⟩ :: s.pending) := by
  unfold acquire
  split
  · exact ⟨rfl, Or.inl rfl⟩
  · exact ⟨rfl, Or.inr ⟨_, rfl⟩⟩

end Channel

end DzIpc.LibIpc
