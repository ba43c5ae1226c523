import DzIpc.LibIpc.ChannelSafety

/-!
# Sending and receiving payloads

`detail_impl::send` and `detail_impl::recv` over the channel: a payload is sent inline, as
64-byte fragments, or as the id of a chunk its bytes were copied into, and a receiver puts
fragments together in a cache keyed by message id.  Every access to the ring or to the chunk
storage is the step of the channel that makes it (`baseStep`), so that a run of this machine
is a run of the channel.

The uninitialised bytes of a fresh buffer are `none`.  History variables record the payloads
passed to `send`, the send and the fragment number each slot was written for, and the buffers
`recv` returned.
-/

namespace DzIpc.LibIpc.Recv

/-- The payload area of a slot: what was copied into it, then zeros. -/
def slotBytes (data : List UInt8) : List UInt8 :=
  data ++ List.replicate (dataLength - data.length) 0

/-- `make_cache`: a buffer of a given size that starts with the bytes of a slot. -/
def makeCache (data : List UInt8) (size : ℕ) : List (Option UInt8) :=
  ((slotBytes data).take size).map some ++ List.replicate (size - dataLength) none

/-- `cache_t`, with the send it belongs to and how many of its fragments it holds. -/
structure Cache where
  fill : ℕ
  buff : List (Option UInt8)
  part : ℕ × ℕ
  deriving DecidableEq

/-- `cache_t::append`. -/
def Cache.append (c : Cache) (data : List UInt8) (size : ℕ) : Cache :=
  if c.fill ≥ c.buff.length ∨ size = 0 then c
  else
    let newFill := min (c.fill + size) c.buff.length
    { c with
      fill := newFill
      buff := c.buff.take c.fill ++ ((slotBytes data).take (newFill - c.fill)).map some ++
        c.buff.drop newFill }

/-- `recv_cache()`: the unfinished messages of one receiver, by message id. -/
abbrev Caches := List (BitVec 32 × Cache)

/-- The clean-up of `recv` when more than 1024 messages are unfinished. -/
def gc (id : BitVec 32) (caches : Caches) : Caches :=
  if caches.length > 1024 then
    caches.filter fun e => max id.toNat e.1.toNat - min id.toNat e.1.toNat ≤ 8192
  else caches

/-- Remove a message from the cache. -/
def erase (id : BitVec 32) (caches : Caches) : Caches := caches.filter fun e => e.1 ≠ id

/-- The body of the loop of `recv` after a pop: the buffer it returns, if any, and the cache
after it.  The last argument tells where the slot came from. -/
def recvMsg (contents : ChunkId → ℕ → UInt8) (caches : Caches) (m : Msg) (origin : ℕ × ℕ) :
    Option (List (Option UInt8)) × Caches :=
  if m.rSize ≤ 0 then (none, caches)
  else
    let msgSize := m.rSize.toNat
    match m.body with
    | .storage id =>
        let c : ChunkId := (calcChunkSize msgSize, id)
        (some ((List.range msgSize).map fun n => some (contents c n)), caches)
    | .bytes data =>
        match caches.lookup m.id with
        | none =>
            if msgSize ≤ dataLength then (some (makeCache data msgSize), caches)
            else
              -- cache the first message fragment
              (none, (m.id, ⟨dataLength, makeCache data msgSize, (origin.1, origin.2 + 1)⟩) ::
                gc m.id caches)
        | some cac =>
            if m.remain.toInt ≤ 0 then
              (some (cac.append data msgSize).buff, erase m.id caches)
            else
              (none, (m.id, { cac.append data dataLength with part := (origin.1, origin.2 + 1) }) ::
                erase m.id caches)

/-- The fragments of `send`: the remaining length and the bytes of each. -/
def fragments (payload : List UInt8) : List (BitVec 32 × List UInt8) :=
  let size := payload.length
  let fragment (i : ℕ) : BitVec 32 × List UInt8 :=
    (BitVec.ofNat 32 size - BitVec.ofNat 32 (dataLength * i) - BitVec.ofNat 32 dataLength,
      (payload.drop (dataLength * i)).take dataLength)
  let whole := size / dataLength
  (List.range whole).map fragment ++ if size - dataLength * whole > 0 then [fragment whole] else []

/-- Where the sender is in `send`. -/
inductive Sending
  | idle
  /-- About to push the chunk it copied the payload into. -/
  | chunk (msgId : BitVec 32) (serial : ℕ)
  /-- About to push the fragments that are left. -/
  | fragments (msgId : BitVec 32) (serial next : ℕ) (rest : List (BitVec 32 × List UInt8))
  deriving DecidableEq

/-- The channel, the bytes in the chunks, the sender and the caches of the receivers. -/
structure State where
  base : Channel.State
  contents : ChunkId → ℕ → UInt8
  /-- The message id of the next send. -/
  acc : BitVec 32
  sending : Sending
  caches : ℕ → Caches
  origin : Fin 256 → Option (ℕ × ℕ)
  sent : List (List UInt8)
  returned : List (List (Option UInt8))

/-- The steps of the sender and of the receivers. -/
inductive Action
  | connect (r : ℕ)
  | disconnect (r : ℕ)
  | drop (i : ℕ)
  /-- `send` up to the first push. -/
  | send (payload : List UInt8)
  /-- The next push of `send` succeeds. -/
  | push
  /-- The next push timed out and is forced. -/
  | forcePush
  /-- The next push timed out in `try_send`, which returns false. -/
  | giveUp
  /-- One pop of `recv` and what follows it. -/
  | recv (r : ℕ)
  deriving DecidableEq

/-- Nothing sent yet. -/
def init : State :=
  { base := Channel.init
    contents := fun _ _ => 0
    acc := 0#32
    sending := .idle
    caches := fun _ => []
    origin := fun _ => none
    sent := []
    returned := [] }

/-- The access to the channel a step makes. -/
def baseAction (s : State) : Action → Option Channel.Action
  | .connect r => some (.connect r)
  | .disconnect r => some (.disconnect r)
  | .drop i => some (.drop i)
  | .send payload => if payload.length > dataLength then some (.acquire payload.length) else none
  | .push =>
      match s.sending with
      | .chunk msgId _ => some (.push 0 msgId)
      | .fragments msgId _ _ ((remain, data) :: _) => some (.pushInline msgId remain data)
      | _ => none
  | .forcePush =>
      match s.sending with
      | .chunk msgId _ => some (.forcePush 0 msgId)
      | .fragments msgId _ _ ((remain, data) :: _) => some (.forcePushInline msgId remain data)
      | _ => none
  | .giveUp =>
      match s.sending with
      | .chunk _ _ => some (.giveUp 0)
      | _ => none
  | .recv r => some (.pop r)

/-- The channel after a step. -/
def baseStep (s : State) (a : Action) : Option Channel.State :=
  match baseAction s a with
  | none => some s.base
  | some b => Channel.step s.base b

/-- The sender after a push that succeeded, and the send and fragment the slot is for. -/
def pushed : Sending → Option (Sending × (ℕ × ℕ))
  | .idle => none
  | .chunk _ serial => some (.idle, (serial, 0))
  | .fragments _ _ _ [] => none
  | .fragments _ serial next [_] => some (.idle, (serial, next))
  | .fragments msgId serial next (_ :: rest) =>
      some (.fragments msgId serial (next + 1) rest, (serial, next))

/-- `memcpy` of a payload to the start of a chunk. -/
def copyTo (contents : ChunkId → ℕ → UInt8) (c : ChunkId) (payload : List UInt8) :
    ChunkId → ℕ → UInt8 :=
  Function.update contents c fun n => payload.getD n (contents c n)

/-- One step. -/
def step (s : State) (a : Action) : Option State :=
  match baseStep s a with
  | none => none
  | some base =>
      match a with
      | .connect _ | .drop _ => some { s with base := base }
      | .disconnect r =>
          -- the cache is cleared with the connection
          some { s with
            base := base
            caches :=
              if s.base.ring.isConnected (s.base.queues r) then Function.update s.caches r []
              else s.caches }
      | .send payload =>
          match s.sending with
          | .idle =>
              if payload = [] ∨ s.base.ring.cc = 0#32 then none
              else
                let serial := s.sent.length
                let s' := { s with base := base, acc := s.acc + 1#32, sent := s.sent ++ [payload] }
                match base.pending with
                | p :: _ =>
                    some { s' with
                      contents := copyTo s.contents p.chunk payload
                      sending := .chunk s.acc serial }
                | [] => some { s' with sending := .fragments s.acc serial 0 (fragments payload) }
          | _ => none
      | .push =>
          match pushed s.sending with
          | none => none
          | some (sending, origin) =>
              some { s with
                base := base
                sending := sending
                origin := Function.update s.origin (indexOf s.base.ring.wt) (some origin) }
      | .forcePush =>
          match pushed s.sending with
          | none => none
          | some (sending, origin) =>
              -- without a reader the push fails, and `send` with it
              if s.base.ring.cc = 0#32 then some { s with base := base, sending := .idle }
              else
                some { s with
                  base := base
                  sending := sending
                  origin := Function.update s.origin (indexOf s.base.ring.wt) (some origin) }
      | .giveUp =>
          match s.sending with
          | .idle => none
          | _ => some { s with base := base, sending := .idle }
      | .recv r =>
          match (s.base.ring.nextSlot (s.base.queues r)).2 with
          | none => some { s with base := base }
          | some i =>
              let (buff, caches) := recvMsg s.contents (s.caches r) (s.base.ring.elems i).data
                ((s.origin i).getD (0, 0))
              some { s with
                base := base
                caches := Function.update s.caches r caches
                returned := buff.toList ++ s.returned }

/-- Sending and receiving as a machine. -/
def machine : Machine State Action := ⟨init, step⟩

/-- Every step is a step of the channel, or leaves it alone. -/
theorem step_base {s t : State} {a : Action} (h : step s a = some t) :
    baseStep s a = some t.base := by
  unfold step at h
  split at h
  · cases h
  · rename_i base hbase
    rw [hbase]
    cases a with
    | connect r | drop i | disconnect r => cases h; rfl
    | send payload =>
        simp only at h
        split at h
        · split at h
          · cases h
          · split at h <;> cases h <;> rfl
        · cases h
    | push | giveUp =>
        simp only at h
        split at h <;> cases h
        rfl
    | forcePush =>
        simp only at h
        split at h
        · cases h
        · split at h <;> cases h <;> rfl
    | recv r =>
        simp only at h
        split at h <;> cases h <;> rfl

end DzIpc.LibIpc.Recv
