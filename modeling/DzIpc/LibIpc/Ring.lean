import DzIpc.Library.Mask

/-!
# The broadcast ring

`conn_head` (`circ/elem_def.h`), `queue_conn` (`queue.h`) and the single-producer,
multi-consumer broadcast policy of `prod_cons.h`, with every call taken as one step.  The
policy's 64-bit word `rc_` is kept as its two halves: the bits of the readers that have
not yet popped the slot, and the epoch it was written in.

* `Ring.connect_spec`: a successful connect gains exactly one bit that was free.
* `Ring.pop_some`: the slot a reader pops still carries the reader's bit, and the pop
  clears that bit in that slot and changes nothing else.
* `Ring.popLoop_eq` unfolds the recursion on the remaining distance into the loop of the
  source, which runs until the cursor meets the write index.
-/

namespace DzIpc.LibIpc

/-- `cc_t`: one bit for each connected reader. -/
abbrev Cc := BitVec 32

/-- `u2_t`: the counters of the ring. -/
abbrev U2 := BitVec 32

/-- `kRingSlots`, the length of the ring. -/
def ringSlots : ℕ := 256

/-- `index_of`: the low byte of a counter. -/
def indexOf (c : U2) : Fin 256 := ⟨c.toNat % 256, Nat.mod_lt _ (by decide)⟩

/-- `elem_t`, with `rc_` split into its two halves. -/
structure Elem (D : Type*) where
  /-- `rc_ & ep_mask`: the readers that have not popped the slot. -/
  rem : Cc
  /-- `rc_ >> 32`: the epoch of the last write. -/
  epoch : BitVec 32
  data : D

/-- `elem_array`: the connections, the policy head and the slots. -/
structure Ring (D : Type*) where
  cc : Cc
  wt : U2
  epoch : BitVec 32
  elems : Fin 256 → Elem D

/-- The reader's side of `queue_base`. -/
structure Queue where
  connected : Cc
  cursor : U2
  deriving DecidableEq

namespace Ring

variable {D : Type*}

/-- The zeroed ring. -/
def zeroed (blank : D) : Ring D := ⟨0#32, 0#32, 0#32, fun _ => ⟨0#32, 0#32, blank⟩⟩

/-! ## Connections -/

/-- `conn_head::connect`: set the first clear bit and return it, or `0` when all are set. -/
def connHeadConnect (cc : Cc) : Cc × Cc :=
  let next := cc ||| (cc + 1#32)
  if next = cc then (0#32, cc) else (next ^^^ cc, next)

/-- `queue_conn::connected`. -/
def isConnected (q : Ring D) (r : Queue) : Bool := q.cc &&& r.connected ≠ 0#32

/-- `queue_base::connect`. -/
def connect (q : Ring D) (r : Queue) : Ring D × Queue :=
  if q.isConnected r then (q, r)
  else
    let (id, cc) := connHeadConnect q.cc
    let q := { q with cc := cc }
    let r := { r with connected := id }
    (q, if q.isConnected r then { r with cursor := q.wt } else r)

/-- `queue_conn::disconnect`. -/
def disconnect (q : Ring D) (r : Queue) : Ring D × Queue :=
  if q.isConnected r then
    ({ q with cc := q.cc &&& ~~~r.connected }, { r with connected := 0#32 })
  else (q, r)

/-! ## Writing -/

/-- The slot at the write index. -/
def head (q : Ring D) : Elem D := q.elems (indexOf q.wt)

/-- The common end of `push` and `force_push`: `rc_` is set to the present readers in the
present epoch, the data is written and the write index advances. -/
def overwrite (q : Ring D) (d : D) : Ring D :=
  { q with
    wt := q.wt + 1#32
    elems := Function.update q.elems (indexOf q.wt) ⟨q.cc, q.epoch, d⟩ }

/-- `push` refuses a slot that a connected reader still holds in the present epoch. -/
def full (q : Ring D) : Bool := q.cc &&& q.head.rem ≠ 0#32 ∧ q.head.epoch = q.epoch

/-- `push`: the overwritten slot and the ring after it, or `none` for `false`. -/
def push (q : Ring D) (d : D) : Option (Elem D × Ring D) :=
  if q.cc = 0#32 then none
  else if q.full then none
  else some (q.head, q.overwrite d)

/-- `force_push`: the epoch rises even when there is no reader. -/
def forcePush (q : Ring D) (d : D) : Option (Elem D) × Ring D :=
  let q := { q with epoch := q.epoch + 1#32 }
  if q.cc = 0#32 then (none, q) else (some q.head, q.overwrite d)

/-- `push_sniffer`: write a slot for no reader, in a new epoch. -/
def pushSniffer (q : Ring D) (d : D) : Ring D :=
  let q := { q with epoch := q.epoch + 1#32 }
  { q with
    wt := q.wt + 1#32
    elems := Function.update q.elems (indexOf q.wt) ⟨0#32, q.epoch, d⟩ }

/-! ## Reading -/

/-- The lap check at the start of `pop`. -/
def resync (q : Ring D) (cur : U2) : U2 :=
  if (q.wt - cur).toNat > ringSlots then q.wt - BitVec.ofNat 32 ringSlots else cur

/-- The loop of `pop`, by the distance to the write index: skip the slots that do not carry
the reader's bit.  The result is the cursor after the loop and the slot to deliver. -/
def popLoop (q : Ring D) (my : Cc) : ℕ → U2 → U2 × Option (Fin 256)
  | 0, cur => (cur, none)
  | n + 1, cur =>
      if my ≠ 0#32 ∧ (q.elems (indexOf cur)).rem &&& my = 0#32 then popLoop q my n (cur + 1#32)
      else (cur + 1#32, some (indexOf cur))

/-- The slot `pop` delivers from, with the cursor it leaves. -/
def nextSlot (q : Ring D) (r : Queue) : U2 × Option (Fin 256) :=
  let cur := q.resync r.cursor
  q.popLoop r.connected (q.wt - cur).toNat cur

/-- Clear a reader's bit in a slot. -/
def clear (q : Ring D) (i : Fin 256) (my : Cc) : Ring D :=
  { q with
    elems := Function.update q.elems i { q.elems i with rem := (q.elems i).rem &&& ~~~my } }

/-- `pop` without interference: the delivered data, whether the slot became writable, and
the ring and reader after it. -/
def pop (q : Ring D) (r : Queue) : Option (D × Bool) × Ring D × Queue :=
  match q.nextSlot r with
  | (cur, none) => (none, q, { r with cursor := cur })
  | (cur, some i) =>
      let q' := q.clear i r.connected
      (some ((q.elems i).data, decide ((q'.elems i).rem = 0#32)), q', { r with cursor := cur })

/-! ## What the operations do -/

theorem isConnected_iff (q : Ring D) (r : Queue) :
    q.isConnected r = true ↔ q.cc &&& r.connected ≠ 0#32 := by
  simp [isConnected]

theorem full_iff (q : Ring D) :
    q.full = true ↔ q.cc &&& q.head.rem ≠ 0#32 ∧ q.head.epoch = q.epoch := by
  simp [full]

/-- What `conn_head::connect` returns is `0`, with nothing changed, or a single bit that
was free before and is set after. -/
theorem connHeadConnect_spec (cc : Cc) :
    connHeadConnect cc = (0#32, cc) ∨
      ∃ id, connHeadConnect cc = (id, cc ||| id) ∧ Mask.Single id ∧ cc &&& id = 0#32 := by
  unfold connHeadConnect
  by_cases h : cc ||| (cc + 1#32) = cc
  · exact Or.inl (by simp [h])
  · obtain ⟨hsingle, hfree, hor⟩ := Mask.lowestZero_spec cc h
    refine Or.inr ⟨_, ?_, hsingle, hfree⟩
    simp only [h, if_false]
    rw [← hor]

/-- What `connect` can do: nothing, or give up because all bits are taken, or gain a free
bit with the cursor at the write index. -/
theorem connect_cases (q : Ring D) (r : Queue) :
    (q.isConnected r = true ∧ q.connect r = (q, r)) ∨
      (q.isConnected r = false ∧ q.connect r = (q, { r with connected := 0#32 })) ∨
      ∃ id, q.isConnected r = false ∧ Mask.Single id ∧ q.cc &&& id = 0#32 ∧
        q.connect r = ({ q with cc := q.cc ||| id }, ⟨id, q.wt⟩) := by
  cases hconn : q.isConnected r with
  | true => exact Or.inl ⟨rfl, by simp [connect, hconn]⟩
  | false =>
      right
      rcases connHeadConnect_spec q.cc with hnone | ⟨id, hid, hsingle, hfree⟩
      · left
        refine ⟨rfl, ?_⟩
        rw [connect, hconn]
        simp [hnone, isConnected]
      · right
        have hnow : (q.cc ||| id) &&& id ≠ 0#32 := by
          have hself : Mask.Within id (q.cc ||| id) := by
            rw [Mask.within_iff]
            intro i hi
            simp [hi]
          intro hzero
          rw [BitVec.and_comm] at hzero
          have hid0 : Mask.Within id (0#32) := by
            rw [← hzero]
            exact Mask.within_and.mpr ⟨Mask.Within.refl id, hself⟩
          exact hsingle.ne_zero hid0.eq_zero
        refine ⟨id, rfl, hsingle, hfree, ?_⟩
        rw [connect, hconn]
        simp [hid, isConnected, hnow]

theorem push_eq_some {q q' : Ring D} {d : D} {old : Elem D} (h : q.push d = some (old, q')) :
    q.cc ≠ 0#32 ∧ q.full = false ∧ old = q.head ∧ q' = q.overwrite d := by
  unfold push at h
  split at h
  · cases h
  · split at h
    · cases h
    · rename_i hcc hfull
      simp only [Option.some.injEq, Prod.mk.injEq] at h
      exact ⟨hcc, by simpa using hfull, h.1.symm, h.2.symm⟩

@[simp] theorem overwrite_cc (q : Ring D) (d : D) : (q.overwrite d).cc = q.cc := rfl

@[simp] theorem clear_cc (q : Ring D) (i : Fin 256) (my : Cc) : (q.clear i my).cc = q.cc := rfl

@[simp] theorem clear_wt (q : Ring D) (i : Fin 256) (my : Cc) : (q.clear i my).wt = q.wt := rfl

theorem overwrite_elems_self (q : Ring D) (d : D) :
    (q.overwrite d).elems (indexOf q.wt) = ⟨q.cc, q.epoch, d⟩ := by
  simp [overwrite]

theorem overwrite_elems_of_ne (q : Ring D) (d : D) {i : Fin 256} (h : i ≠ indexOf q.wt) :
    (q.overwrite d).elems i = q.elems i := by
  simp [overwrite, h]

theorem clear_elems_self (q : Ring D) (i : Fin 256) (my : Cc) :
    (q.clear i my).elems i = { q.elems i with rem := (q.elems i).rem &&& ~~~my } := by
  simp [clear]

theorem clear_elems_of_ne (q : Ring D) (my : Cc) {i j : Fin 256} (h : j ≠ i) :
    (q.clear i my).elems j = q.elems j := by
  simp [clear, h]

theorem popLoop_delivers {q : Ring D} {my : Cc} (hmy : my ≠ 0#32) {i : Fin 256} :
    ∀ {n : ℕ} {cur cur' : U2}, q.popLoop my n cur = (cur', some i) →
      (q.elems i).rem &&& my ≠ 0#32 := by
  intro n
  induction n with
  | zero =>
      intro cur cur' h
      simp [popLoop] at h
  | succ n ih =>
      intro cur cur' h
      unfold popLoop at h
      split at h
      · exact ih h
      · rename_i hbit
        simp only [Prod.mk.injEq, Option.some.injEq] at h
        obtain ⟨-, rfl⟩ := h
        exact fun hzero => hbit ⟨hmy, hzero⟩

/-- The loop as the source writes it: stop where the cursor meets the write index. -/
theorem popLoop_eq (q : Ring D) (my : Cc) (cur : U2) :
    q.popLoop my (q.wt - cur).toNat cur =
      if cur = q.wt then (cur, none)
      else if my ≠ 0#32 ∧ (q.elems (indexOf cur)).rem &&& my = 0#32 then
        q.popLoop my (q.wt - (cur + 1#32)).toNat (cur + 1#32)
      else (cur + 1#32, some (indexOf cur)) := by
  by_cases hcur : cur = q.wt
  · subst hcur
    simp [popLoop]
  · have hne : (q.wt - cur).toNat = (q.wt - (cur + 1#32)).toNat + 1 := by
      have hdist : q.wt.toNat ≠ cur.toNat := fun h => hcur (BitVec.eq_of_toNat_eq h.symm)
      bv_omega
    rw [hne, popLoop, if_neg hcur]

/-- A pop that delivers: the slot carried the reader's bit, and that bit is all that changes
in the ring. -/
theorem pop_some {q q' : Ring D} {r r' : Queue} {d : D} {writable : Bool}
    (hconn : r.connected ≠ 0#32) (h : q.pop r = (some (d, writable), q', r')) :
    ∃ i cur, q.nextSlot r = (cur, some i) ∧ d = (q.elems i).data ∧
      (q.elems i).rem &&& r.connected ≠ 0#32 ∧ q' = q.clear i r.connected ∧
      r' = { r with cursor := cur } := by
  unfold pop at h
  split at h
  · simp at h
  · rename_i cur i hslot
    simp only [Prod.mk.injEq, Option.some.injEq] at h
    obtain ⟨⟨rfl, -⟩, rfl, rfl⟩ := h
    exact ⟨i, cur, hslot, rfl, popLoop_delivers hconn hslot, rfl, rfl⟩

/-- A pop that delivers nothing leaves the ring alone. -/
theorem pop_none {q q' : Ring D} {r r' : Queue} (h : q.pop r = (none, q', r')) :
    q' = q ∧ r'.connected = r.connected := by
  unfold pop at h
  split at h
  · simp only [Prod.mk.injEq, true_and] at h
    obtain ⟨rfl, rfl⟩ := h
    exact ⟨rfl, rfl⟩
  · simp at h

end Ring

end DzIpc.LibIpc
