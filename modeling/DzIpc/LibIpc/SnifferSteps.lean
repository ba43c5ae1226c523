import DzIpc.Library.Blocks
import DzIpc.Library.Cells
import DzIpc.LibIpc.Recv

/-!
# The sniffer, one access at a time

A sniffer copies the slots of a ring without being one of its readers: it knows the write index
only, and the writer does not know it (`sniffer.cpp`, `push_sniffer`, `no_member_send`).  One
writer publishes messages, as a slot, as fragments or as the id of a chunk; it writes a slot
cell by cell, in any order, before it advances the write index, and any push may fail.  The
sniffer copies a slot cell by cell, in any order, and is opened, closed and moved ahead at any
time.

What `fetch_storage` finds in the chunk storage and whether `mem::alloc` succeeds is part of
the action.  History variables record the slots pushed and where they come from, the messages
published as a whole, the number of the slot the sniffer is at, the slot it started at, and
whether a copy was still going on when the writer had begun to overwrite its slot.
-/

namespace DzIpc.LibIpc.SnifferSteps

open Cells

/-! ## Slots -/

/-- `msg_t`, as it lies in the ring. -/
structure Slot where
  ccId : BitVec 32
  id : BitVec 32
  remain : BitVec 32
  storage : Bool
  data : List UInt8
  size : data.length = dataLength
  deriving DecidableEq

/-- The parts of a slot that are written and copied one at a time. -/
inductive Cell
  | ccId
  | id
  | remain
  | storage
  | byte (k : Fin dataLength)
  deriving DecidableEq

/-- All cells of a slot. -/
def allCells : List Cell :=
  [.ccId, .id, .remain, .storage] ++ (List.finRange dataLength).map .byte

theorem mem_allCells (c : Cell) : c ∈ allCells := by
  cases c with
  | byte k => exact List.mem_append_right _ (List.mem_map.mpr ⟨k, List.mem_finRange k, rfl⟩)
  | _ => simp [allCells]

namespace Slot

/-- The area of the payload with its first bytes given. -/
def area (bytes : List UInt8) : List UInt8 :=
  (Recv.slotBytes bytes).take dataLength

theorem length_area (bytes : List UInt8) : (area bytes).length = dataLength := by
  rw [area, Recv.slotBytes, List.length_take, List.length_append, List.length_replicate]
  omega

/-- The zeroed slot. -/
def blank : Slot := ⟨0#32, 0#32, 0#32, false, area [], length_area []⟩

/-- `msg_t(cc_id, id, remain, data, size)` for bytes. -/
def ofBytes (ccId id remain : BitVec 32) (bytes : List UInt8) : Slot :=
  ⟨ccId, id, remain, false, area bytes, length_area bytes⟩

/-- `msg_t(cc_id, id, remain, &storage_id, 0)`. -/
def ofStorage (ccId id remain : BitVec 32) (storageId : ℕ) : Slot :=
  let bytes := (List.range 4).map fun k => UInt8.ofNat (storageId / 256 ^ k)
  ⟨ccId, id, remain, true, area bytes, length_area bytes⟩

/-- What a cell holds. -/
def get (s : Slot) : Cell → ℕ
  | .ccId => s.ccId.toNat
  | .id => s.id.toNat
  | .remain => s.remain.toNat
  | .storage => s.storage.toNat
  | .byte k => (s.data.getD k 0).toNat

/-- One cell copied. -/
def put (src dst : Slot) : Cell → Slot
  | .ccId => { dst with ccId := src.ccId }
  | .id => { dst with id := src.id }
  | .remain => { dst with remain := src.remain }
  | .storage => { dst with storage := src.storage }
  | .byte k =>
      { dst with
        data := dst.data.set k (src.data.getD k 0)
        size := by rw [List.length_set, dst.size] }

theorem ext_get {s t : Slot} (h : ∀ c, s.get c = t.get c) : s = t := by
  obtain ⟨ccId, id, remain, storage, data, size⟩ := s
  obtain ⟨ccId', id', remain', storage', data', size'⟩ := t
  obtain rfl : ccId = ccId' := BitVec.eq_of_toNat_eq (h .ccId)
  obtain rfl : id = id' := BitVec.eq_of_toNat_eq (h .id)
  obtain rfl : remain = remain' := BitVec.eq_of_toNat_eq (h .remain)
  obtain rfl : storage = storage' := by
    have hflag : storage.toNat = storage'.toNat := h .storage
    cases storage <;> cases storage' <;> first | rfl | cases hflag
  obtain rfl : data = data' := by
    refine List.ext_getElem (size.trans size'.symm) fun k hk hk' => ?_
    have hbyte : (data.getD k 0).toNat = (data'.getD k 0).toNat := h (.byte ⟨k, size ▸ hk⟩)
    rw [List.getD_eq_getElem _ _ hk, List.getD_eq_getElem _ _ hk'] at hbyte
    exact UInt8.toNat_inj.mp hbyte
  rfl

theorem get_put_self (src dst : Slot) (c : Cell) : (put src dst c).get c = src.get c := by
  cases c with
  | byte k =>
      have hk : k.val < dst.data.length := by
        rw [dst.size]
        exact k.isLt
      simp only [put, get, List.getD_eq_getElem?_getD, List.getElem?_set_self hk, Option.getD_some]
  | _ => rfl

theorem get_put_ne (src dst : Slot) {c c' : Cell} (hne : c' ≠ c) :
    (put src dst c).get c' = dst.get c' := by
  cases c with
  | byte k =>
      cases c' with
      | byte k' =>
          have hk : k.val ≠ k'.val := fun h => hne (congrArg Cell.byte (Fin.ext h.symm))
          simp only [put, get, List.getD_eq_getElem?_getD, List.getElem?_set_ne hk]
      | _ => rfl
  | _ =>
      cases c' with
      | byte k => rfl
      | _ => first | rfl | exact absurd rfl hne

end Slot

instance : Celled Slot Cell ℕ where
  get c s := s.get c
  put c src dst := Slot.put src dst c
  get_put_self _ src dst := Slot.get_put_self src dst _
  get_put_ne _ _ src dst h := Slot.get_put_ne src dst h
  ext _ _ h := Slot.ext_get h

/-! ## The writer -/

/-- The slots of a message that is sent inline or in fragments. -/
def slotsOf (ccId id : BitVec 32) (payload : List UInt8) : List Slot :=
  (Recv.fragments payload).map fun fragment => .ofBytes ccId id fragment.1 fragment.2

/-- Where the writer is in `no_member_send`: the payload if it is not in a chunk, how many of
its slots are pushed, and the slots that are left. -/
inductive WriterPc
  | idle
  /-- About to push. -/
  | sending (payload : Option (List UInt8)) (next : ℕ) (rest : List Slot)
  /-- Constructing a slot in place. -/
  | writing (payload : Option (List UInt8)) (next : ℕ) (slot : Slot) (rest : List Slot)
  deriving DecidableEq

/-- A slot that was pushed, its payload if it is not in a chunk, and the number of the
fragment. -/
structure Pushed where
  slot : Slot
  payload : Option (List UInt8)
  part : ℕ
  deriving DecidableEq

/-! ## The sniffer -/

/-- `cache_entry`. -/
structure Entry where
  fill : ℕ
  buf : List UInt8
  deriving DecidableEq

/-- `frags_`. -/
abbrev Frags := BitVec 32 → Option Entry

/-- A buffer that was returned, with its `meta` and whether it was in a chunk. -/
structure Buff where
  bytes : List UInt8
  ccId : BitVec 32
  msgId : BitVec 32
  dropped : ℕ
  storage : Bool
  deriving DecidableEq

/-- How the body of the loop of `try_recv_one` goes on. -/
inductive Outcome
  | next
  /-- Returns a buffer. -/
  | ret (bytes : List UInt8)
  /-- Returns nothing. -/
  | fail
  deriving DecidableEq

/-- Appends a fragment to a message under way. -/
def Entry.append (ce : Entry) (msg : Slot) (msgSize : ℕ) : Entry :=
  let take := if msg.remain.toInt ≤ 0 then msgSize else dataLength
  let take := if ce.fill + take > ce.buf.length then ce.buf.length - ce.fill else take
  { fill := ce.fill + take
    buf := Blocks.overwrite ce.buf ce.fill (msg.data.take take) }

/-- The body of the loop of `try_recv_one` after the copy was found good. -/
def takeSlot (frags : Frags) (msg : Slot) (allocated : Bool) (fetched : Option (List UInt8)) :
    Outcome × Frags :=
  let rSize := (BitVec.ofNat 32 dataLength + msg.remain).toInt
  if rSize ≤ 0 then (.next, frags)
  else
    let msgSize := rSize.toNat
    if msg.storage then
      match fetched with
      | some bytes => (.ret bytes, frags)
      | none => (.next, frags)
    else
      match frags msg.id with
      | none =>
          if msgSize ≤ dataLength then
            (if allocated then .ret (msg.data.take msgSize) else .next, frags)
          else
            (.next, Function.update frags msg.id
              (some ⟨dataLength, msg.data ++ List.replicate (msgSize - dataLength) 0⟩))
      | some ce =>
          let ce := ce.append msg msgSize
          if msg.remain.toInt ≤ 0 ∨ ce.fill ≥ ce.buf.length then
            (if allocated then .ret ce.buf else .fail, Function.update frags msg.id none)
          else (.next, Function.update frags msg.id (some ce))

/-- Where the sniffer is in `try_recv_one`. -/
inductive SnifferPc
  | idle
  /-- About to compare its cursor with the write index. -/
  | loop
  /-- Copying slot `thisIdx`: what it has, the cells that are left, and whether it has read
  one after the writer began to overwrite the slot. -/
  | copying (thisIdx : U2) (msg : Slot) (left : List Cell) (late : Bool)
  deriving DecidableEq

/-- `sniffer::impl_t`, without the names and the handles. -/
structure Sniffer where
  opened : Bool
  cur : U2
  primed : Bool
  dropped : ℕ
  frags : Frags
  pc : SnifferPc
  returned : List Buff
  /-- The number of the slot at the cursor. -/
  pos : ℕ
  /-- The number of the slot at which it started, or went on after it dropped something. -/
  since : ℕ

/-! ## Steps -/

/-- The ring, the writer and the sniffer. -/
structure State where
  ring : Fin 256 → Slot
  wt : U2
  /-- The message id of the next send. -/
  acc : BitVec 32
  writer : WriterPc
  log : List Pushed
  published : List (List UInt8)
  sniffer : Sniffer

/-- The steps of the writer. -/
inductive WriterAction
  /-- `no_member_send` of a message, inline or in fragments, up to the first push. -/
  | send (ccId : BitVec 32) (payload : List UInt8)
  /-- The same with a chunk. -/
  | sendChunk (ccId : BitVec 32) (size storageId : ℕ)
  /-- Begins to construct the next slot. -/
  | begin
  /-- `data_{}`, for some of the bytes. -/
  | zero (bytes : List (Fin dataLength))
  /-- Stores some cells. -/
  | store (cells : List Cell)
  /-- `wt_.fetch_add(1)`, when the slot is complete. -/
  | advance
  /-- A push fails, and `no_member_send` with it. -/
  | abandon
  deriving DecidableEq

/-- The steps of the sniffer. -/
inductive SnifferAction
  | openRing
  | closeRing
  | skipToLatest
  /-- Enters `try_recv_one`, up to the loop. -/
  | tryRecv
  /-- The condition of the loop. -/
  | loop
  /-- Copies some of the cells that are left. -/
  | load (cells : List Cell)
  /-- The rest of the body, from the second look at the write index on. -/
  | take (allocated : Bool) (fetched : Option (List UInt8))
  deriving DecidableEq

/-- A step of either. -/
inductive Action
  | writer (a : WriterAction)
  | sniffer (a : SnifferAction)
  deriving DecidableEq

/-- Nobody has done anything. -/
def init : State :=
  { ring := fun _ => .blank
    wt := 0#32
    acc := 0#32
    writer := .idle
    log := []
    published := []
    sniffer :=
      { opened := false
        cur := 0#32
        primed := false
        dropped := 0
        frags := fun _ => none
        pc := .idle
        returned := []
        pos := 0
        since := 0 } }

/-- Stores cells of a slot at the write index. -/
def State.write (s : State) (cells : List Cell) (src : Slot) : State :=
  { s with
    ring := Function.update s.ring (indexOf s.wt) (copyCells cells src (s.ring (indexOf s.wt))) }

/-- The next step of the writer. -/
def writerStep (s : State) : WriterAction → Option State
  | .send ccId payload =>
      match s.writer with
      | .idle =>
          if payload = [] then none
          else
            some { s with
              acc := s.acc + 1#32
              writer := .sending (some payload) 0 (slotsOf ccId s.acc payload) }
      | _ => none
  | .sendChunk ccId size storageId =>
      match s.writer with
      | .idle =>
          if size ≤ dataLength then none
          else
            some { s with
              acc := s.acc + 1#32
              writer := .sending none 0
                [.ofStorage ccId s.acc (BitVec.ofNat 32 size - BitVec.ofNat 32 dataLength)
                  storageId] }
      | _ => none
  | .begin =>
      match s.writer with
      | .sending payload next (slot :: rest) =>
          some { s with writer := .writing payload next slot rest }
      | _ => none
  | .zero bytes =>
      match s.writer with
      | .writing .. => some (s.write (bytes.map .byte) .blank)
      | _ => none
  | .store cells =>
      match s.writer with
      | .writing _ _ slot _ => some (s.write cells slot)
      | _ => none
  | .advance =>
      match s.writer with
      | .writing payload next slot rest =>
          if s.ring (indexOf s.wt) = slot then
            some { s with
              wt := s.wt + 1#32
              log := s.log ++ [⟨slot, payload, next⟩]
              writer := if rest = [] then .idle else .sending payload (next + 1) rest
              published := if rest = [] then s.published ++ payload.toList else s.published }
          else none
      | _ => none
  | .abandon =>
      match s.writer with
      | .sending .. => some { s with writer := .idle }
      | _ => none

/-- The writer has begun to overwrite slot `n`, or has done so. -/
def State.begun (s : State) (n : ℕ) : Bool :=
  match s.writer with
  | .writing .. => n + ringSlots ≤ s.log.length
  | _ => n + ringSlots < s.log.length

/-- The next step of the sniffer. -/
def snifferStep (s : State) (a : SnifferAction) : Option Sniffer :=
  let sn := s.sniffer
  match a with
  | .openRing =>
      if sn.pc = .idle then
        some { sn with
          opened := true, primed := false, cur := 0#32, dropped := 0, frags := fun _ => none }
      else none
  | .closeRing =>
      if sn.pc = .idle then
        some { sn with opened := false, primed := false, dropped := 0, frags := fun _ => none }
      else none
  | .skipToLatest =>
      if sn.pc = .idle then some { sn with primed := false, frags := fun _ => none } else none
  | .tryRecv =>
      if sn.pc ≠ .idle then none
      else if ¬ sn.opened then some sn
      else if ¬ sn.primed then
        -- returns nothing
        some { sn with cur := s.wt, primed := true, pos := s.log.length, since := s.log.length }
      else
        let lag := s.wt - sn.cur
        if lag.toNat > ringSlots then
          some { sn with
            dropped := sn.dropped + lag.toNat
            cur := s.wt
            frags := fun _ => none
            pc := .loop
            pos := s.log.length
            since := s.log.length }
        else some { sn with pc := .loop }
  | .loop =>
      match sn.pc with
      | .loop =>
          if sn.cur = s.wt then some { sn with pc := .idle }
          else some { sn with pc := .copying sn.cur .blank allCells false }
      | _ => none
  | .load cells =>
      match sn.pc with
      | .copying thisIdx msg left late =>
          if ∀ c ∈ cells, c ∈ left then
            some { sn with
              pc := .copying thisIdx (copyCells cells (s.ring (indexOf thisIdx)) msg)
                (left.filter fun c => c ∉ cells) (late || s.begun sn.pos) }
          else none
      | _ => none
  | .take allocated fetched =>
      match sn.pc with
      | .copying thisIdx msg [] _ =>
          let sn := { sn with cur := thisIdx + 1#32, pos := sn.pos + 1 }
          if (s.wt - thisIdx).toNat > ringSlots then
            some { sn with
              dropped := sn.dropped + 1
              frags := fun _ => none
              pc := .loop
              since := sn.pos }
          else
            match takeSlot sn.frags msg allocated fetched with
            | (.next, frags) => some { sn with frags := frags, pc := .loop }
            | (.fail, frags) => some { sn with frags := frags, pc := .idle }
            | (.ret bytes, frags) =>
                some { sn with
                  frags := frags
                  pc := .idle
                  returned := ⟨bytes, msg.ccId, msg.id, sn.dropped, msg.storage⟩ :: sn.returned }
      | _ => none

/-- One step. -/
def step (s : State) : Action → Option State
  | .writer a => writerStep s a
  | .sniffer a => (snifferStep s a).map fun sniffer => { s with sniffer := sniffer }

/-- A writer and a sniffer as a machine. -/
def machine : Machine State Action := ⟨init, step⟩

end DzIpc.LibIpc.SnifferSteps
