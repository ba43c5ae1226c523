import DzIpc.Library.Machine
import DzIpc.LibIpc.Ring

/-!
# The broadcast ring of many writers

`push`, `force_push` and `pop` of the multi-producer broadcast policy of `prod_cons.h`, with
`connect` and `disconnect` of `queue.h`, for any number of writers and readers in any order.
Every atomic access is a step of its own, and so is every copy of one word of the data: a slot
has `w` words.  A compare-and-swap may fail for no reason.

`rc_` is kept as its three fields.  `log` is a history variable: the values of the pushes in the
order in which they advanced the commit index.
-/

namespace DzIpc.LibIpc.MultiRing

variable {w nw nr : ℕ} {B : Type}

/-- The data of a slot. -/
abbrev Value (w : ℕ) (B : Type) : Type := Fin w → B

/-- `rc_`: the readers that have not popped the slot (`rc_mask`), the count of its changes
(`ic_incr`) and the epoch of the last write (`~ep_mask`). -/
structure Rc where
  rem : Cc
  ic : BitVec 24
  epoch : BitVec 8
  deriving DecidableEq

/-- `elem_t`. -/
structure Elem (w : ℕ) (B : Type) where
  rc : Rc
  /-- `f_ct_`. -/
  flag : ℕ
  data : Value w B

/-- `elem_array`: the connections, the policy head and the slots. -/
structure ElemArray (w : ℕ) (B : Type) where
  cc : Cc
  ct : ℕ
  epoch : BitVec 8
  elems : Fin 256 → Elem w B

theorem index_lt (c : ℕ) : c % 256 < 256 := Nat.mod_lt c (by decide)

/-- `index_of`. -/
def indexOf (c : ℕ) : Fin 256 := ⟨c % 256, index_lt c⟩

/-- `~static_cast<flag_t>(cur_ct)`, which marks the slot as committed. -/
def committed (c : ℕ) : ℕ := 2 ^ 64 - 1 - c

/-- `cur + N - 1`, which marks the slot as free; `cur` is 32 bits wide and has been advanced. -/
def freed (cur : ℕ) : ℕ := cur + 255

/-- The function a writer is in; `fallback` is the call of `push` in `force_push`. -/
inductive Call
  | push
  | force
  | fallback
  deriving DecidableEq

/-- Where a writer is, and its variables. -/
inductive WriterPc (w : ℕ) (B : Type)
  | idle
  /-- About to load the epoch, or to raise it in `force_push`. -/
  | enter (call : Call) (v : Value w B)
  /-- About to load the connections. -/
  | readCc (call : Call) (v : Value w B) (epoch : BitVec 8)
  /-- About to load the commit index. -/
  | loadCt (call : Call) (v : Value w B) (epoch : BitVec 8) (cc : Cc)
  /-- About to load `rc_` of the slot. -/
  | loadRc (call : Call) (v : Value w B) (epoch : BitVec 8) (cc : Cc) (curCt : ℕ)
  /-- About to load the commit flag of the slot. -/
  | loadFlag (call : Call) (v : Value w B) (epoch : BitVec 8) (cc : Cc) (curCt : ℕ) (rc : Rc)
  /-- About to exchange `rc_`. -/
  | cas (call : Call) (v : Value w B) (epoch : BitVec 8) (cc : Cc) (curCt : ℕ) (rc : Rc)
  /-- About to compare the epoch again. -/
  | check (call : Call) (v : Value w B) (epoch : BitVec 8) (curCt : ℕ)
  /-- About to advance the commit index. -/
  | storeCt (v : Value w B) (curCt : ℕ)
  /-- About to write word `j`, or the commit flag behind the last word. -/
  | write (v : Value w B) (curCt : ℕ) (j : ℕ)

/-- Where a reader is, and its variables; `idx` is the commit index of the slot it pops. -/
inductive ReaderPc (w : ℕ) (B : Type)
  | idle
  /-- Connected, about to take the commit index as its cursor. -/
  | connecting
  /-- About to copy word `j`. -/
  | copy (idx : ℕ) (j : ℕ) (buf : Value w B)
  /-- About to load `rc_`. -/
  | loadRc (idx : ℕ) (buf : Value w B)
  /-- No reader is left; about to store the flag and to return. -/
  | free (idx : ℕ) (buf : Value w B)
  /-- The last reader; about to store the flag before the exchange. -/
  | lastFlag (idx : ℕ) (buf : Value w B) (rc : Rc)
  /-- About to exchange `rc_`. -/
  | cas (idx : ℕ) (buf : Value w B) (rc : Rc)

/-- A reader: `connected_` and `cursor_`, its place in the code, and what `pop` gave it. -/
structure Reader (w : ℕ) (B : Type) where
  connected : Cc
  cursor : ℕ
  pc : ReaderPc w B
  received : List (Value w B)

/-- The shared ring and the parties. -/
structure State (w nw nr : ℕ) (B : Type) where
  ring : ElemArray w B
  writers : Fin nw → WriterPc w B
  readers : Fin nr → Reader w B
  log : List (Value w B)

/-- A step of one of the parties; the flag lets a compare-and-swap fail. -/
inductive Action (w nw nr : ℕ) (B : Type)
  | push (i : Fin nw) (v : Value w B)
  | forcePush (i : Fin nw) (v : Value w B)
  | writer (i : Fin nw) (spurious : Bool)
  | connect (r : Fin nr)
  | disconnect (r : Fin nr)
  | pop (r : Fin nr)
  | reader (r : Fin nr) (spurious : Bool)

/-- The zeroed ring, everybody idle. -/
def init [Inhabited B] : State w nw nr B :=
  { ring :=
      { cc := 0#32, ct := 0, epoch := 0#8
        elems := fun _ => ⟨⟨0#32, 0#24, 0#8⟩, 0, fun _ => default⟩ }
    writers := fun _ => .idle
    readers := fun _ => ⟨0#32, 0, .idle, []⟩
    log := [] }

namespace ElemArray

variable (q : ElemArray w B) (c : ℕ)

/-- The slot of a commit index. -/
def slot : Elem w B := q.elems (indexOf c)

def setRc (rc : Rc) : ElemArray w B :=
  { q with elems := Function.update q.elems (indexOf c) { q.slot c with rc } }

def setFlag (flag : ℕ) : ElemArray w B :=
  { q with elems := Function.update q.elems (indexOf c) { q.slot c with flag } }

def setWord (j : Fin w) (b : B) : ElemArray w B :=
  { q with
    elems := Function.update q.elems (indexOf c)
      { q.slot c with data := Function.update (q.slot c).data j b } }

/-- `connected`. -/
def isConnected (connected : Cc) : Bool := q.cc &&& connected ≠ 0#32

end ElemArray

/-- `return false`: `force_push` then tries again. -/
def WriterPc.failed (call : Call) (v : Value w B) : WriterPc w B :=
  if call = .fallback then .enter .force v else .idle

/-- The next step of a writer: the ring and the writer after it. -/
def writerStep (q : ElemArray w B) (spurious : Bool) :
    WriterPc w B → Option (ElemArray w B × WriterPc w B)
  | .idle => none
  | .enter .force v => some ({ q with epoch := q.epoch + 1#8 }, .readCc .force v (q.epoch + 1#8))
  | .enter call v => some (q, .readCc call v q.epoch)
  | .readCc call v epoch =>
      if q.cc = 0#32 then some (q, .failed call v) else some (q, .loadCt call v epoch q.cc)
  | .loadCt call v epoch cc => some (q, .loadRc call v epoch cc q.ct)
  | .loadRc call v epoch cc curCt =>
      let rc := (q.slot curCt).rc
      -- `force_push` takes the slot as it is
      if call = .force then some (q, .cas call v epoch cc curCt rc)
      else if cc &&& rc.rem ≠ 0#32 ∧ rc.epoch = epoch then some (q, .failed call v)
      else if rc.rem = 0#32 then some (q, .loadFlag call v epoch cc curCt rc)
      else some (q, .cas call v epoch cc curCt rc)
  | .loadFlag call v epoch cc curCt rc =>
      let flag := (q.slot curCt).flag
      if flag ≠ curCt ∧ flag ≠ 0 then some (q, .failed call v)
      else some (q, .cas call v epoch cc curCt rc)
  | .cas call v epoch cc curCt rc =>
      if spurious = false ∧ (q.slot curCt).rc = rc then
        some (q.setRc curCt ⟨cc, rc.ic + 1#24, epoch⟩, .check call v epoch curCt)
      else some (q, .readCc call v epoch)
  | .check .force v epoch curCt =>
      if q.epoch = epoch then some (q, .storeCt v curCt) else some (q, .enter .fallback v)
  | .check call v epoch curCt =>
      if spurious = false ∧ q.epoch = epoch then some (q, .storeCt v curCt)
      else some (q, .readCc call v q.epoch)
  | .storeCt v curCt => some ({ q with ct := (curCt + 1) % 2 ^ 32 }, .write v curCt 0)
  | .write v curCt j =>
      if h : j < w then some (q.setWord curCt ⟨j, h⟩ (v ⟨j, h⟩), .write v curCt (j + 1))
      else some (q.setFlag curCt (committed curCt), .idle)

/-- What a writer adds to the log: its value, when it advances the commit index. -/
def logged : WriterPc w B → List (Value w B)
  | .storeCt v _ => [v]
  | _ => []

/-- `pop` returns true with what it copied. -/
def Reader.deliver (rd : Reader w B) (buf : Value w B) : Reader w B :=
  { rd with pc := .idle, received := rd.received ++ [buf] }

/-- The next step of a reader: the ring and the reader after it. -/
def readerStep (q : ElemArray w B) (rd : Reader w B) (spurious : Bool) :
    Option (ElemArray w B × Reader w B) :=
  match rd.pc with
  | .idle => none
  | .connecting => some (q, { rd with cursor := q.ct, pc := .idle })
  | .copy idx j buf =>
      if h : j < w then
        some (q, { rd with
          pc := .copy idx (j + 1) (Function.update buf ⟨j, h⟩ ((q.slot idx).data ⟨j, h⟩)) })
      else some (q, { rd with pc := .loadRc idx buf })
  | .loadRc idx buf =>
      let rc := (q.slot idx).rc
      if rc.rem = 0#32 then some (q, { rd with pc := .free idx buf })
      else if rc.rem &&& ~~~rd.connected = 0#32 then some (q, { rd with pc := .lastFlag idx buf rc })
      else some (q, { rd with pc := .cas idx buf rc })
  | .free idx buf => some (q.setFlag idx (freed rd.cursor), rd.deliver buf)
  | .lastFlag idx buf rc =>
      some (q.setFlag idx (freed rd.cursor), { rd with pc := .cas idx buf rc })
  | .cas idx buf rc =>
      if spurious = false ∧ (q.slot idx).rc = rc then
        some (q.setRc idx ⟨rc.rem &&& ~~~rd.connected, rc.ic + 1#24, rc.epoch⟩, rd.deliver buf)
      else some (q, { rd with pc := .loadRc idx buf })

/-- The start of `pop`: compare the commit flag of the slot at the cursor. -/
def popStart [Inhabited B] (q : ElemArray w B) (rd : Reader w B) : Reader w B :=
  if (q.slot rd.cursor).flag = committed rd.cursor then
    { rd with
      cursor := (rd.cursor + 1) % 2 ^ 32
      pc := .copy rd.cursor 0 fun _ => default }
  else rd

/-- `connect`, up to the bit. -/
def connectStart (q : ElemArray w B) (rd : Reader w B) : ElemArray w B × Reader w B :=
  if q.isConnected rd.connected then (q, rd)
  else
    let (id, cc) := Ring.connHeadConnect q.cc
    let q := { q with cc := cc }
    -- the cursor is taken only when a bit was gained
    (q, { rd with connected := id, pc := if q.isConnected id then .connecting else .idle })

/-- `disconnect`. -/
def disconnect (q : ElemArray w B) (rd : Reader w B) : ElemArray w B × Reader w B :=
  if q.isConnected rd.connected then
    ({ q with cc := q.cc &&& ~~~rd.connected }, { rd with connected := 0#32 })
  else (q, rd)

/-- The reader is in none of its functions. -/
def Reader.atRest (rd : Reader w B) : Bool :=
  match rd.pc with
  | .idle => true
  | _ => false

/-- The writer is in none of its functions. -/
def WriterPc.atRest : WriterPc w B → Bool
  | .idle => true
  | _ => false

namespace State

/-- The state after a step of writer `i`. -/
def withWriter (s : State w nw nr B) (i : Fin nw) (out : ElemArray w B × WriterPc w B) :
    State w nw nr B :=
  { s with
    ring := out.1
    writers := Function.update s.writers i out.2
    log := s.log ++ logged (s.writers i) }

/-- The state after a step of reader `r`. -/
def withReader (s : State w nw nr B) (r : Fin nr) (out : ElemArray w B × Reader w B) :
    State w nw nr B :=
  { s with ring := out.1, readers := Function.update s.readers r out.2 }

end State

/-- One step. -/
def step [Inhabited B] (s : State w nw nr B) : Action w nw nr B → Option (State w nw nr B)
  | .push i v =>
      if (s.writers i).atRest then some (s.withWriter i (s.ring, .enter .push v)) else none
  | .forcePush i v =>
      if (s.writers i).atRest then some (s.withWriter i (s.ring, .enter .force v)) else none
  | .writer i spurious => (writerStep s.ring spurious (s.writers i)).map (s.withWriter i)
  | .connect r =>
      if (s.readers r).atRest then some (s.withReader r (connectStart s.ring (s.readers r)))
      else none
  | .disconnect r =>
      if (s.readers r).atRest then some (s.withReader r (disconnect s.ring (s.readers r)))
      else none
  | .pop r =>
      if (s.readers r).atRest ∧ s.ring.isConnected (s.readers r).connected then
        some (s.withReader r (s.ring, popStart s.ring (s.readers r)))
      else none
  | .reader r spurious => (readerStep s.ring (s.readers r) spurious).map (s.withReader r)

/-- The ring as a machine. -/
def machine (w nw nr : ℕ) (B : Type) [Inhabited B] :
    Machine (State w nw nr B) (Action w nw nr B) :=
  ⟨init, step⟩

/-! ## What is promised -/

/-- A `pop` of reader `r`, run without interference, returns true. -/
def PopReturns [Inhabited B] (s : State w nw nr B) (r : Fin nr) : Prop :=
  ∃ n t v, (machine w nw nr B).runFrom s (.pop r :: List.replicate n (.reader r false)) = some t ∧
    (t.readers r).received = (s.readers r).received ++ [v]

/-- What each reader got is a subsequence of the pushes in commit order; and when no push is in
progress, a connected reader whose cursor is not at the commit index can pop. -/
def NeitherTearsNorWedges [Inhabited B] (s : State w nw nr B) : Prop :=
  (∀ r, List.Sublist (s.readers r).received s.log) ∧
    ((∀ i, (s.writers i).atRest) → ∀ r, (s.readers r).atRest →
      s.ring.isConnected (s.readers r).connected → (s.readers r).cursor ≠ s.ring.ct →
        PopReturns s r)

end DzIpc.LibIpc.MultiRing
