import DzIpc.Flat.Segment
import DzIpc.Udp.Page
import DzIpc.Wire.Codec

/-!
# Which buffers a subscriber accepts

`AcceptWire` fills a message object from a received buffer and says whether the buffer was
a message at all.  For a buffer that is not a flat segment its verdict rests on the flag
`_deser_overflow` of the outermost object; every nested object has a flag of its own.

* `tods_clear` says when one copy leaves the flag alone: when every piece of it lies in the
  buffer.  `Clear.bind` carries this through a sequence of reads.
* `Schema.ReadWhole` says that no object, at any depth, has set its flag, and
  `Schema.InRange` that every field lies in the bytes it is read from.
* `readWhole_iff_inRange` is the induction over the schema; `acceptWire_readWhole` says what
  acceptance is worth.
-/

namespace DzIpc.Wire

open Udp Flat

/-- What `AcceptWire` calls on the message object. -/
structure Sink (α : Type) where
  deserialize : Region → α → Except Fault (Outcome α)
  dzflatRead : List UInt8 → α → Bool × α

/-- `AcceptWire`: the verdict, and what the message object holds afterwards. -/
def acceptWire {α : Type} (sink : Sink α) (raw : List UInt8) (expectedMsgId : UInt32) (old : α) :
    Except Fault (Bool × α) :=
  if looksLikeDzflat raw then
    if (SegHeader.ofBytes raw).msgId ≠ expectedMsgId then .ok (false, old)
    else .ok (sink.dzflatRead raw old)
  else if hasDzflatMagic raw then .ok (false, old)
  else if ¬ checkId raw expectedMsgId then .ok (false, old)
  else do
    let out ← sink.deserialize (Region.whole raw) old
    return (out.deserializeOk, out.value)

/-- A message object of a generated class. -/
def Schema.sink (abi : Abi) (S : Schema) (dzflatRead : List UInt8 → S.Value → Bool × S.Value) :
    Sink S.Value :=
  { deserialize := S.deserialize abi, dzflatRead := dzflatRead }

/-! ## The flag of one object -/

/-- The range checks of a copy: every piece it makes lies in the buffer. -/
def piecesInRange (r : Region) : ℕ → ℕ → ℕ → ℕ → Bool
  | 0, offset, _, left => left = 0 || r.todsInRange offset left
  | i + 1, offset, pureDataOffset, left =>
      let copySize := min (ipcMsgMaxSize - pureDataOffset % ipcMsgMaxSize) left
      r.todsInRange offset copySize &&
        piecesInRange r i (u32 (offset + (copySize + tailMsgSize)))
          (u32 (pureDataOffset + copySize)) (left - copySize)

/-- The `len` data bytes from `offset` on lie in the buffer. -/
def Region.spans (r : Region) (offset len : ℕ) : Bool :=
  let pureDataOffset := toPureOffset offset
  let cutCnt := sub32 (u32 (pureDataOffset + len) / ipcMsgMaxSize)
    (pureDataOffset / ipcMsgMaxSize)
  piecesInRange r cutCnt offset pureDataOffset len

/-- Reading from the cursor `c` on leaves the flag clear if it was clear and the bytes
read are there. -/
def Clear {β : Type} (x : Except Fault β) (cursor : β → Cursor) (c : Cursor) (fits : Prop) : Prop :=
  Yields x fun res => (cursor res).overflow = false ↔ c.overflow = false ∧ fits

namespace Clear

variable {β γ : Type} {x : Except Fault β} {cursor : β → Cursor} {c : Cursor} {fits : Prop}

theorem pure {a : β} (ha : (cursor a).overflow = c.overflow) :
    Clear (Pure.pure a) cursor c True := by
  change (cursor a).overflow = false ↔ _
  rw [ha, and_true]

/-- One read after another. -/
theorem bind {f : β → Except Fault γ} {next : γ → Cursor} {more : β → Prop}
    (hx : Clear x cursor c fits) (hf : ∀ a, x = .ok a → Clear (f a) next (cursor a) (more a)) :
    Clear (x >>= f) next c (fits ∧ Yields x more) := by
  cases x with
  | error e => trivial
  | ok a =>
      have hrest := hf a rfl
      change Yields (f a) _ at hrest
      change Yields (f a) _
      cases hfa : f a with
      | error e => trivial
      | ok b =>
          rw [hfa] at hrest
          change _ ↔ _ at hx hrest
          change _ ↔ _ ∧ fits ∧ more a
          rw [hrest, hx, and_assoc]

theorem of_iff {fits' : Prop} (hx : Clear x cursor c fits) (hiff : fits ↔ fits') :
    Clear x cursor c fits' := by
  rwa [propext hiff] at hx

/-- A read before code that leaves the flag alone. -/
theorem keep {f : β → Except Fault γ} {next : γ → Cursor} (hx : Clear x cursor c fits)
    (hf : ∀ a, Yields (f a) fun b => (next b).overflow = (cursor a).overflow) :
    Clear (x >>= f) next c fits := by
  have hrest : ∀ a, x = .ok a → Clear (f a) next (cursor a) True := fun a _ => by
    have hkeep := hf a
    unfold Clear
    cases hfa : f a with
    | error e => trivial
    | ok b =>
        rw [hfa] at hkeep
        change _ ↔ _
        rw [show (next b).overflow = (cursor a).overflow from hkeep, and_true]
  refine (hx.bind hrest).of_iff ?_
  cases x <;> simp [Yields]

/-- A read whose result is only packaged. -/
theorem ret {f : β → γ} {next : γ → Cursor} (hx : Clear x cursor c fits)
    (hf : ∀ a, (next (f a)).overflow = (cursor a).overflow) :
    Clear (x >>= fun a => Pure.pure (f a)) next c fits :=
  hx.keep hf

theorem start {c' : Cursor} (hx : Clear x cursor c' fits) (hc : c'.overflow = c.overflow) :
    Clear x cursor c fits := by
  unfold Clear at hx ⊢
  rwa [hc] at hx

/-- What runs under a guard; the other branch sets the flag. -/
theorem guard {p : Prop} [Decidable p] {y : β} (hx : p → Clear x cursor c fits)
    (hy : (cursor y).overflow = true) :
    Clear (if p then x else Pure.pure y) cursor c (p ∧ fits) := by
  by_cases hp : p
  · rw [if_pos hp]
    exact (hx hp).of_iff (by simp [hp])
  · rw [if_neg hp]
    change (cursor y).overflow = false ↔ _
    simp [hp, hy]

end Clear

private theorem todsLoop_clear (r : Region) (cutCnt : ℕ) :
    ∀ (c : Cursor) (pure left : ℕ),
      Clear (todsLoop r cutCnt c pure left) (·.2) c
        (piecesInRange r cutCnt c.offset pure left = true) := by
  induction cutCnt with
  | zero =>
      intro c pure left
      simp only [todsLoop, piecesInRange]
      by_cases hzero : left = 0
      · simp [Clear, Yields, hzero]
      · by_cases hrange : r.todsInRange c.offset left = true
        · simp only [hzero, hrange, if_false, if_true]
          cases r.copy c.offset left with
          | error e => trivial
          | ok bytes => simp [Clear, Yields, bind, Except.bind, Pure.pure, Except.pure, Cursor.skip]
        · simp [Clear, Yields, hzero, hrange, Cursor.fail]
  | succ cutCnt ih =>
      intro c pure left
      simp only [todsLoop, piecesInRange]
      set copySize := min (ipcMsgMaxSize - pure % ipcMsgMaxSize) left
      by_cases hrange : r.todsInRange c.offset copySize = true
      · simp only [hrange, if_true, Bool.true_and]
        cases r.copy c.offset copySize with
        | error e => trivial
        | ok bytes =>
            exact (ih (c.skip (copySize + tailMsgSize)) (u32 (pure + copySize))
              (left - copySize)).ret fun _ => rfl
      · simp [Clear, Yields, hrange, Cursor.fail]

/-- One copy leaves the flag clear if the bytes it copies are there. -/
theorem tods_clear (r : Region) (c : Cursor) (len : ℕ) :
    Clear (adaptMemcpyTods r c len) (·.2) c (r.spans c.offset len = true) :=
  todsLoop_clear r _ c _ len

theorem readInt32_clear (r : Region) (c : Cursor) :
    Clear (readInt32 r c) (·.2) c (r.spans c.offset 4 = true) :=
  (tods_clear r c 4).ret fun _ => rfl

theorem readHeader_clear (r : Region) (c : Cursor) :
    Clear (readHeader r c) id c (r.spans c.offset 4 = true) :=
  (readInt32_clear r c).ret fun _ => rfl

/-- The name length and the type byte of a string field lie in the buffer. -/
def StringHeaderFits (r : Region) (c : Cursor) : Prop :=
  r.spans c.offset 4 = true ∧
    Yields (readInt32 r c) fun res => r.spans (res.2.advance res.1).offset 1 = true

theorem readStringHeader_clear (r : Region) (c : Cursor) :
    Clear (readStringHeader r c) id c (StringHeaderFits r c) :=
  (readInt32_clear r c).bind fun res _ => (tods_clear r (res.2.advance res.1) 1).ret fun _ => rfl

/-- The count of an array lies in the buffer, and the guard before a `resize` lets it
pass. -/
def CountFits (size : ArraySize) (minElemSize : ℕ) (r : Region) (c : Cursor) : Prop :=
  r.spans c.offset 4 = true ∧
    Yields (readInt32 r c) fun res =>
      size = none → todsCountOk r res.2 res.1 minElemSize = true

theorem readCount_clear (size : ArraySize) (minElemSize : ℕ) (r : Region) (c : Cursor) :
    Clear (readCount r c size minElemSize) (·.2.2) c (CountFits size minElemSize r c) := by
  refine (readInt32_clear r c).bind ?_
  rintro ⟨count, c₁⟩ _
  cases size with
  | none =>
      by_cases hok : todsCountOk r c₁ count minElemSize = true
      · simp [Clear, Yields, hok, Pure.pure, Except.pure]
      · simp [Clear, Yields, hok, Pure.pure, Except.pure, Cursor.fail]
  | some n =>
      by_cases hcount : count = (n : ℕ)
      · simp [Clear, Yields, hcount, Pure.pure, Except.pure]
      · simp [Clear, Yields, hcount]

/-- The bytes copied under `if (count > 0)` lie in the buffer. -/
def ItemsFit (r : Region) (c : Cursor) (count len : ℕ) : Prop :=
  0 < count → r.spans c.offset len = true

theorem readItems_clear (r : Region) (c : Cursor) (count len : ℕ) :
    Clear (readItems r c count len) (·.2) c (ItemsFit r c count len) := by
  unfold readItems ItemsFit
  by_cases hcount : 0 < count
  · simp only [gt_iff_lt, hcount, if_true, forall_const]
    exact tods_clear r c len
  · simp [Clear, Yields, hcount]

/-- The strings of an array, with their lengths, lie in the buffer. -/
def StringsFit (r : Region) : ℕ → Cursor → Prop
  | 0, _ => True
  | count + 1, c =>
      r.spans c.offset 4 = true ∧
        Yields (readInt32 r c) fun res =>
          todsCountOk r res.2 res.1 1 = true ∧ r.spans res.2.offset res.1.toNat = true ∧
            Yields (adaptMemcpyTods r (res.2.allocate res.1.toNat) res.1.toNat) fun res =>
              StringsFit r count res.2

theorem readStrings_clear (r : Region) (count : ℕ) :
    ∀ c : Cursor, Clear (readStrings r count c) (·.2.2) c (StringsFit r count c) := by
  induction count with
  | zero =>
      intro c
      exact Clear.pure rfl
  | succ count ih =>
      intro c
      refine (readInt32_clear r c).bind ?_
      rintro ⟨strSize, c₁⟩ _
      refine Clear.guard (fun _ => ?_) rfl
      refine (tods_clear r (c₁.allocate strSize.toNat) strSize.toNat).bind fun res _ => ?_
      exact (ih res.2).ret fun _ => rfl

/-- The field lies in the buffer: its lengths, and the bytes of its value. -/
def Kind.InRange (abi : Abi) (r : Region) (c : Cursor) : Kind → Prop
  | scalar s =>
      r.spans c.offset 4 = true ∧
        Yields (readHeader r c) fun c => r.spans c.offset s.size = true
  | bool =>
      r.spans c.offset 4 = true ∧ Yields (readHeader r c) fun c => r.spans c.offset 1 = true
  | string =>
      StringHeaderFits r c ∧
        Yields (readStringHeader r c) fun c =>
          r.spans c.offset 4 = true ∧
            Yields (readInt32 r c) fun res =>
              todsCountOk r res.2 res.1 1 = true ∧ r.spans res.2.offset res.1.toNat = true
  | scalars s size =>
      r.spans c.offset 4 = true ∧
        Yields (readHeader r c) fun c =>
          CountFits size s.size r c ∧
            Yields (readCount r c size s.size) fun res =>
              res.2.1 = .next → ItemsFit r res.2.2 res.1 (u32 (res.1 * s.size))
  | bools size =>
      r.spans c.offset 4 = true ∧
        Yields (readHeader r c) fun c =>
          CountFits size 1 r c ∧
            Yields (readCount r c size 1) fun res =>
              res.2.1 = .next → ItemsFit r res.2.2 res.1 res.1
  | strings size =>
      r.spans c.offset 4 = true ∧
        Yields (readHeader r c) fun c =>
          CountFits size 4 r c ∧
            Yields (readCount r c size 4) fun res =>
              res.2.1 = .next →
                StringsFit r res.1 (res.2.2.resize size (res.1 * abi.stringSize))

@[simp] theorem offset_resize (c : Cursor) (size : ArraySize) (bytes : ℕ) :
    (c.resize size bytes).offset = c.offset := by
  cases size <;> rfl

@[simp] theorem overflow_resize (c : Cursor) (size : ArraySize) (bytes : ℕ) :
    (c.resize size bytes).overflow = c.overflow := by
  cases size <;> rfl

theorem Kind.read_clear (abi : Abi) (k : Kind) (r : Region) (old : k.Value) (c : Cursor) :
    Clear (k.read abi r old c) (·.2.2) c (k.InRange abi r c) := by
  cases k with
  | scalar s =>
      exact (readHeader_clear r c).bind fun c₁ _ => (tods_clear r c₁ s.size).ret fun _ => rfl
  | bool =>
      exact (readHeader_clear r c).bind fun c₁ _ => (tods_clear r c₁ 1).ret fun _ => rfl
  | string =>
      refine (readStringHeader_clear r c).bind fun c₁ _ => ?_
      refine (readInt32_clear r c₁).bind ?_
      rintro ⟨size, c₂⟩ _
      exact Clear.guard (fun _ => (tods_clear r (c₂.allocate size.toNat) size.toNat).ret
        fun _ => rfl) rfl
  | scalars s size =>
      refine (readHeader_clear r c).bind fun c₁ _ => ?_
      refine (readCount_clear size s.size r c₁).bind ?_
      rintro ⟨count, flow, c₂⟩ _
      cases flow with
      | done => exact Clear.of_iff (Clear.pure rfl) (by simp)
      | next =>
          have hitems := (readItems_clear r (c₂.resize size (count * s.size)) count
            (u32 (count * s.size))).start (overflow_resize c₂ size _)
          refine Clear.of_iff (hitems.ret fun _ => rfl) ?_
          simp [ItemsFit]
  | bools size =>
      refine (readHeader_clear r c).bind fun c₁ _ => ?_
      refine (readCount_clear size 1 r c₁).bind ?_
      rintro ⟨count, flow, c₂⟩ _
      cases flow with
      | done => exact Clear.of_iff (Clear.pure rfl) (by simp)
      | next =>
          have hitems := (readItems_clear r ((c₂.resize size count).allocate count) count
            count).start (overflow_resize c₂ size count)
          refine Clear.of_iff (hitems.ret fun _ => rfl) ?_
          simp [ItemsFit, Cursor.allocate]
  | strings size =>
      refine (readHeader_clear r c).bind fun c₁ _ => ?_
      refine (readCount_clear size 4 r c₁).bind ?_
      rintro ⟨count, flow, c₂⟩ _
      cases flow with
      | done => exact Clear.of_iff (Clear.pure rfl) (by simp)
      | next =>
          have hstrs := (readStrings_clear r count (c₂.resize size (count * abi.stringSize))).start
            (overflow_resize c₂ size _)
          exact Clear.of_iff (hstrs.ret fun _ => rfl) (by simp)

/-! ## Early returns -/

theorem readCount_done (size : ArraySize) (minElemSize : ℕ) (r : Region) (c : Cursor) :
    Yields (readCount r c size minElemSize) fun res =>
      res.2.1 = .done → res.2.2.overflow = true := by
  refine Yields.any.bind ?_
  rintro ⟨count, c₁⟩ -
  cases size with
  | none => exact .ite (fun _ => .pure (nomatch ·)) fun _ => .pure fun _ => rfl
  | some n => exact .ite (fun _ => .pure (nomatch ·)) fun _ => trivial

theorem readStrings_done (r : Region) (count : ℕ) :
    ∀ c : Cursor, Yields (readStrings r count c) fun res =>
      res.2.1 = .done → res.2.2.overflow = true := by
  induction count with
  | zero =>
      intro c
      exact .pure (nomatch ·)
  | succ count ih =>
      intro c
      refine Yields.any.bind ?_
      rintro ⟨strSize, c₁⟩ -
      refine .ite (fun _ => ?_) fun _ => .pure fun _ => rfl
      refine Yields.any.bind ?_
      rintro ⟨str, c₂⟩ -
      exact (ih c₂).bind fun res hres => .pure hres

/-- An early return has set the flag. -/
theorem Kind.read_done (abi : Abi) (k : Kind) (r : Region) (old : k.Value) (c : Cursor) :
    Yields (k.read abi r old c) fun res => res.2.1 = .done → res.2.2.overflow = true := by
  cases k with
  | scalar s => exact Yields.any.bind fun c₁ _ => Yields.any.bind fun res _ => .pure (nomatch ·)
  | bool => exact Yields.any.bind fun c₁ _ => Yields.any.bind fun res _ => .pure (nomatch ·)
  | string =>
      refine Yields.any.bind fun c₁ _ => Yields.any.bind ?_
      rintro ⟨size, c₂⟩ -
      refine .ite (fun _ => ?_) fun _ => .pure fun _ => rfl
      exact Yields.any.bind fun res _ => .pure (nomatch ·)
  | scalars s size =>
      refine Yields.any.bind fun c₁ _ => (readCount_done size s.size r c₁).bind ?_
      rintro ⟨count, flow, c₂⟩ hdone
      cases flow with
      | done => exact .pure hdone
      | next => exact Yields.any.bind fun res _ => .pure (nomatch ·)
  | bools size =>
      refine Yields.any.bind fun c₁ _ => (readCount_done size 1 r c₁).bind ?_
      rintro ⟨count, flow, c₂⟩ hdone
      cases flow with
      | done => exact .pure hdone
      | next => exact Yields.any.bind fun res _ => .pure (nomatch ·)
  | strings size =>
      refine Yields.any.bind fun c₁ _ => (readCount_done size 4 r c₁).bind ?_
      rintro ⟨count, flow, c₂⟩ hdone
      cases flow with
      | done => exact .pure hdone
      | next => exact (readStrings_done r count _).bind fun res hres => .pure hres

/-! ## Nested messages -/

/-- What the buffer made for a nested message meets. -/
def NestedMeets (r : Region) (c : Cursor) (meets : Region → Prop) : Prop :=
  Yields (readInt32 r c) fun res =>
    Yields (nestedBuffer r res.2 res.1) fun sub => meets sub.1

/-- What each element an array of nested messages is filled with meets, and the cursor
before it. -/
def EachElem {α : Type} (r : Region) (deserialize : Region → α → Except Fault (Outcome α))
    (meets : α → Cursor → Prop) : List α → Cursor → Prop
  | [], _ => True
  | old :: olds, c =>
      meets old c ∧ Yields (readNested r deserialize old c) fun res =>
        EachElem r deserialize meets olds res.2

/-- The size of a nested message, and the bytes that are copied for it, lie in the
buffer. -/
def NestedSpans (r : Region) (c : Cursor) : Prop :=
  r.spans c.offset 4 = true ∧
    Yields (readInt32 r c) fun res =>
      regionIsContiguous res.2.offset (toU32 res.1) = false → 0 < res.1.toNat →
        r.spans res.2.offset res.1.toNat = true

/-- No object has set its flag: neither this message, with the fields from the cursor on,
nor one nested in them at any depth. -/
def Schema.ReadWhole (abi : Abi) : (S : Schema) → Region → S.Value → Cursor → Prop
  | nil, _, _, c => c.overflow = false
  | field _ kind rest, r, old, c =>
      Yields (kind.read abi r old.1 c) fun res =>
        res.2.1 = .next ∧ rest.ReadWhole abi r old.2 res.2.2
  | nested _ msg rest, r, old, c =>
      Yields (readHeader r c) fun c =>
        NestedMeets r c (fun sub => msg.ReadWhole abi sub old.1 .start) ∧
          Yields (readNested r (msg.deserialize abi) old.1 c) fun res =>
            rest.ReadWhole abi r old.2 res.2
  | nestedArray _ size msg rest, r, old, c =>
      Yields (readHeader r c) fun c =>
        Yields (readCount r c size 4) fun res =>
          res.2.1 = .next ∧
            EachElem r (msg.deserialize abi)
              (fun old c => NestedMeets r c fun sub => msg.ReadWhole abi sub old .start)
              (old.1.resized msg.default res.1)
              (res.2.2.resize size (res.1 * abi.messageSize msg)) ∧
            Yields (readElems r (msg.deserialize abi) (old.1.resized msg.default res.1)
              (res.2.2.resize size (res.1 * abi.messageSize msg))) fun res =>
                rest.ReadWhole abi r old.2 res.2

instance (r : Region) (c : Cursor) (meets : Region → Prop) [∀ sub, Decidable (meets sub)] :
    Decidable (NestedMeets r c meets) :=
  inferInstanceAs (Decidable (Yields _ _))

instance decEachElem {α : Type} (r : Region)
    (deserialize : Region → α → Except Fault (Outcome α)) (meets : α → Cursor → Prop)
    [∀ old c, Decidable (meets old c)] :
    (olds : List α) → (c : Cursor) → Decidable (EachElem r deserialize meets olds c)
  | [], _ => inferInstanceAs (Decidable True)
  | _ :: olds, _ =>
      have := decEachElem r deserialize meets olds
      inferInstanceAs (Decidable (_ ∧ _))

instance Schema.decReadWhole (abi : Abi) :
    (S : Schema) → (r : Region) → (old : S.Value) → (c : Cursor) →
      Decidable (S.ReadWhole abi r old c)
  | nil, _, _, c => inferInstanceAs (Decidable (c.overflow = false))
  | field _ _ rest, _, _, _ =>
      have := rest.decReadWhole abi
      inferInstanceAs (Decidable (Yields _ _))
  | nested _ msg rest, _, _, _ =>
      have := msg.decReadWhole abi
      have := rest.decReadWhole abi
      inferInstanceAs (Decidable (Yields _ _))
  | nestedArray _ _ msg rest, _, _, _ =>
      have := msg.decReadWhole abi
      have := rest.decReadWhole abi
      inferInstanceAs (Decidable (Yields _ _))

/-- Every field from the cursor on lies in the buffer, and every field of a nested message,
at any depth, in the buffer made for that message. -/
def Schema.InRange (abi : Abi) : (S : Schema) → Region → S.Value → Cursor → Prop
  | nil, _, _, _ => True
  | field _ kind rest, r, old, c =>
      kind.InRange abi r c ∧
        Yields (kind.read abi r old.1 c) fun res =>
          res.2.1 = .next → rest.InRange abi r old.2 res.2.2
  | nested _ msg rest, r, old, c =>
      r.spans c.offset 4 = true ∧
        Yields (readHeader r c) fun c =>
          (NestedSpans r c ∧ NestedMeets r c fun sub => msg.InRange abi sub old.1 .start) ∧
            Yields (readNested r (msg.deserialize abi) old.1 c) fun res =>
              rest.InRange abi r old.2 res.2
  | nestedArray _ size msg rest, r, old, c =>
      r.spans c.offset 4 = true ∧
        Yields (readHeader r c) fun c =>
          CountFits size 4 r c ∧
            Yields (readCount r c size 4) fun res =>
              res.2.1 = .next →
                (EachElem r (msg.deserialize abi) (fun _ c => NestedSpans r c)
                    (old.1.resized msg.default res.1)
                    (res.2.2.resize size (res.1 * abi.messageSize msg)) ∧
                  EachElem r (msg.deserialize abi)
                    (fun old c => NestedMeets r c fun sub => msg.InRange abi sub old .start)
                    (old.1.resized msg.default res.1)
                    (res.2.2.resize size (res.1 * abi.messageSize msg))) ∧
                Yields (readElems r (msg.deserialize abi) (old.1.resized msg.default res.1)
                  (res.2.2.resize size (res.1 * abi.messageSize msg))) fun res =>
                    rest.InRange abi r old.2 res.2

/-- The fields of every message nested directly in this one, and of those in it, lie in the
buffers made for them. -/
def Schema.NestedInRange (abi : Abi) : (S : Schema) → Region → S.Value → Cursor → Prop
  | nil, _, _, _ => True
  | field _ kind rest, r, old, c =>
      Yields (kind.read abi r old.1 c) fun res =>
        res.2.1 = .next → rest.NestedInRange abi r old.2 res.2.2
  | nested _ msg rest, r, old, c =>
      Yields (readHeader r c) fun c =>
        NestedMeets r c (fun sub => msg.InRange abi sub old.1 .start) ∧
          Yields (readNested r (msg.deserialize abi) old.1 c) fun res =>
            rest.NestedInRange abi r old.2 res.2
  | nestedArray _ size msg rest, r, old, c =>
      Yields (readHeader r c) fun c =>
        Yields (readCount r c size 4) fun res =>
          res.2.1 = .next →
            EachElem r (msg.deserialize abi)
              (fun old c => NestedMeets r c fun sub => msg.InRange abi sub old .start)
              (old.1.resized msg.default res.1)
              (res.2.2.resize size (res.1 * abi.messageSize msg)) ∧
            Yields (readElems r (msg.deserialize abi) (old.1.resized msg.default res.1)
              (res.2.2.resize size (res.1 * abi.messageSize msg))) fun res =>
                rest.NestedInRange abi r old.2 res.2

section Nested

variable {α : Type} {r : Region} {deserialize : Region → α → Except Fault (Outcome α)}

theorem nestedBuffer_clear (c : Cursor) (size : ℤ) :
    Clear (nestedBuffer r c size) (·.2) c
      (regionIsContiguous c.offset (toU32 size) = false → 0 < size.toNat →
        r.spans c.offset size.toNat = true) := by
  unfold nestedBuffer
  by_cases haliased : regionIsContiguous c.offset (toU32 size) = true
  · simp only [haliased, if_true]
    exact Clear.of_iff (Clear.pure rfl) (by simp)
  · simp only [haliased, Bool.false_eq_true, if_false, forall_const]
    by_cases hneg : size < 0
    · rw [if_pos hneg]
      trivial
    · rw [if_neg hneg]
      exact (readItems_clear r (c.allocate size.toNat) size.toNat size.toNat).ret fun _ => rfl

theorem readNested_clear (old : α) (c : Cursor) :
    Clear (readNested r deserialize old c) (·.2) c (NestedSpans r c) := by
  refine (readInt32_clear r c).bind ?_
  rintro ⟨size, c₁⟩ _
  refine (nestedBuffer_clear c₁ size).keep ?_
  rintro ⟨sub, c₂⟩
  exact Yields.any.bind fun out _ => .pure rfl

theorem readElems_clear (olds : List α) :
    ∀ c : Cursor, Clear (readElems r deserialize olds c) (·.2) c
      (EachElem r deserialize (fun _ c => NestedSpans r c) olds c) := by
  induction olds with
  | nil =>
      intro c
      exact Clear.pure rfl
  | cons old olds ih =>
      intro c
      exact (readNested_clear old c).bind fun res _ => (ih res.2).ret fun _ => rfl

variable {whole fits : Region → α → Prop}

/-- What holds alike of every nested `deserialize` that comes back. -/
theorem nestedMeets_iff
    (hdeser : ∀ sub old, Yields (deserialize sub old) fun _ => (whole sub old ↔ fits sub old))
    (old : α) (c : Cursor) :
    Yields (readNested r deserialize old c) fun _ =>
      (NestedMeets r c (fun sub => whole sub old) ↔ NestedMeets r c fun sub => fits sub old) := by
  unfold readNested NestedMeets
  cases readInt32 r c with
  | error e => trivial
  | ok res =>
      obtain ⟨size, c₁⟩ := res
      change Yields (nestedBuffer r c₁ size >>= _) _
      dsimp only [Yields]
      cases nestedBuffer r c₁ size with
      | error e => trivial
      | ok res => exact (hdeser res.1 old).bind fun out hout => .pure hout

theorem eachElem_iff
    (hdeser : ∀ sub old, Yields (deserialize sub old) fun _ => (whole sub old ↔ fits sub old))
    (olds : List α) :
    ∀ c : Cursor, Yields (readElems r deserialize olds c) fun _ =>
      (EachElem r deserialize (fun old c => NestedMeets r c fun sub => whole sub old) olds c ↔
        EachElem r deserialize (fun old c => NestedMeets r c fun sub => fits sub old) olds c) := by
  induction olds with
  | nil =>
      intro c
      exact .pure (by simp only [EachElem])
  | cons old olds ih =>
      intro c
      have hhead := nestedMeets_iff (r := r) hdeser old c
      simp only [readElems, EachElem]
      cases hread : readNested r deserialize old c with
      | error e => trivial
      | ok res =>
          have hhead := hhead.elim hread
          change Yields (readElems r deserialize olds res.2 >>= fun next => Pure.pure _) fun _ =>
            (_ ∧ EachElem r deserialize _ olds res.2 ↔ _ ∧ EachElem r deserialize _ olds res.2)
          refine (ih res.2).bind fun items htail => .pure ?_
          rw [hhead, htail]

end Nested

/-! ## Whole messages -/

/-- If the computation comes back, `whole` says that the flag is clear and the bytes read
are there. -/
def Agrees {β : Type} (x : Except Fault β) (c : Cursor) (whole fits : Prop) : Prop :=
  Yields x fun _ => (whole ↔ c.overflow = false ∧ fits)

section Agrees

variable {β γ : Type} {x : Except Fault β} {c : Cursor}

theorem Agrees.bind {cursor : β → Cursor} {f : β → Except Fault γ} {fits meets meets' : Prop}
    {P Q : β → Prop} (hx : Clear x cursor c fits) (hmeets : Yields x fun _ => (meets ↔ meets'))
    (hf : ∀ a, x = .ok a → Agrees (f a) (cursor a) (P a) (Q a)) :
    Agrees (x >>= f) c (meets ∧ Yields x P) ((fits ∧ meets') ∧ Yields x Q) := by
  cases x with
  | error e => trivial
  | ok a =>
      refine Yields.mono (hf a rfl) fun _ hiff => ?_
      change _ ↔ _ at hx
      change meets ↔ meets' at hmeets
      change meets ∧ P a ↔ _ ∧ _ ∧ Q a
      rw [hiff, hx, hmeets]
      tauto

theorem Agrees.seq {cursor : β → Cursor} {f : β → Except Fault γ} {fits : Prop}
    {P Q : β → Prop} (hx : Clear x cursor c fits)
    (hf : ∀ a, x = .ok a → Agrees (f a) (cursor a) (P a) (Q a)) :
    Agrees (x >>= f) c (Yields x P) (fits ∧ Yields x Q) := by
  have htrue : Yields x fun _ => (True ↔ True) := .of_forall fun _ => Iff.rfl
  simpa using Agrees.bind hx htrue hf

theorem Agrees.ret {f : β → γ} {whole fits : Prop} (hx : Agrees x c whole fits) :
    Agrees (x >>= fun a => Pure.pure (f a)) c whole fits :=
  Yields.bind hx fun _ ha => .pure ha

theorem Agrees.of_iff {whole fits whole' fits' : Prop} {c' : Cursor}
    (hx : Agrees x c' whole fits) (hc : c'.overflow = c.overflow) (hwhole : whole' ↔ whole)
    (hfits : fits' ↔ fits) : Agrees x c whole' fits' := by
  unfold Agrees at hx ⊢
  rwa [hc, propext hwhole.symm, propext hfits.symm] at hx

end Agrees

/-- `deserialize` starts with a clear flag. -/
theorem deserialize_agrees {abi : Abi} {S : Schema} {r : Region} {old : S.Value}
    (hfields : Agrees (S.readFields abi r old .start) .start (S.ReadWhole abi r old .start)
      (S.InRange abi r old .start)) :
    Yields (S.deserialize abi r old) fun _ =>
      (S.ReadWhole abi r old .start ↔ S.InRange abi r old .start) := by
  refine Yields.bind hfields fun res hres => .pure ?_
  simpa [Cursor.start] using hres

/-- No object has set its flag exactly if every field, at every depth, lies in the bytes it
is read from. -/
theorem readWhole_iff_inRange (abi : Abi) (S : Schema) :
    ∀ (r : Region) (old : S.Value) (c : Cursor),
      Agrees (S.readFields abi r old c) c (S.ReadWhole abi r old c) (S.InRange abi r old c) := by
  induction S with
  | nil =>
      intro r old c
      exact .pure (by simp [Schema.ReadWhole, Schema.InRange])
  | field name kind rest ih =>
      intro r old c
      refine Agrees.seq (kind.read_clear abi r old.1 c) ?_
      rintro ⟨v, flow, c₁⟩ hread
      cases flow with
      | done =>
          have hflag : c₁.overflow = true := (kind.read_done abi r old.1 c).elim hread rfl
          exact .pure (by simp [hflag])
      | next => exact (ih r old.2 c₁).ret.of_iff rfl (by simp) (by simp)
  | nested name msg rest ihMsg ih =>
      intro r old c
      refine Agrees.seq (readHeader_clear r c) fun c₁ _ => ?_
      refine Agrees.bind (readNested_clear old.1 c₁)
        (nestedMeets_iff (fun sub old => deserialize_agrees (ihMsg sub old .start)) old.1 c₁) ?_
      rintro ⟨v, c₂⟩ _
      exact (ih r old.2 c₂).ret
  | nestedArray name size msg rest ihMsg ih =>
      intro r old c
      refine Agrees.seq (readHeader_clear r c) fun c₁ _ => ?_
      refine Agrees.seq (readCount_clear size 4 r c₁) ?_
      rintro ⟨count, flow, c₂⟩ hread
      cases flow with
      | done =>
          have hflag : c₂.overflow = true := (readCount_done size 4 r c₁).elim hread rfl
          exact .pure (by simp [hflag])
      | next =>
          have helems := Agrees.bind (readElems_clear (r := r) (old.1.resized msg.default count)
              (c₂.resize size (count * abi.messageSize msg)))
            (eachElem_iff (fun sub old => deserialize_agrees (ihMsg sub old .start)) _ _)
            (f := fun res => rest.readFields abi r old.2 res.2 >>= fun next =>
              Pure.pure ((old.1.store res.1, next.1), next.2.1, next.2.2))
            fun res _ => (ih r old.2 res.2).ret
          exact helems.of_iff (overflow_resize c₂ size _) (by simp) (by simp)

/-- If the flag is clear behind the computation, `whole` and `nested` agree. -/
def Leaves {β : Type} (x : Except Fault β) (cursor : β → Cursor) (whole nested : Prop) : Prop :=
  Yields x fun res => (cursor res).overflow = false → (whole ↔ nested)

section Leaves

variable {β γ : Type} {x : Except Fault β} {next : γ → Cursor} {meets meets' : Prop}

theorem Leaves.bind {f : β → Except Fault γ} {P Q : β → Prop}
    (hmeets : Yields x fun _ => (meets ↔ meets'))
    (hf : ∀ a, x = .ok a → Leaves (f a) next (P a) (Q a)) :
    Leaves (x >>= f) next (meets ∧ Yields x P) (meets' ∧ Yields x Q) := by
  cases x with
  | error e => trivial
  | ok a => exact (hf a rfl).mono fun res hres hclear => and_congr hmeets (hres hclear)

theorem Leaves.seq {f : β → Except Fault γ} {P Q : β → Prop}
    (hf : ∀ a, x = .ok a → Leaves (f a) next (P a) (Q a)) :
    Leaves (x >>= f) next (Yields x P) (Yields x Q) := by
  cases x with
  | error e => trivial
  | ok a => exact hf a rfl

theorem Leaves.ret {f : β → γ} {cursor : β → Cursor} {whole nested : Prop}
    (hx : Leaves x cursor whole nested)
    (hf : ∀ a, (next (f a)).overflow = (cursor a).overflow) :
    Leaves (x >>= fun a => Pure.pure (f a)) next whole nested :=
  Yields.bind hx fun a ha => .pure fun hclear => ha (by rwa [hf a] at hclear)

theorem Leaves.of_iff {cursor : β → Cursor} {whole nested whole' nested' : Prop}
    (hx : Leaves x cursor whole nested) (hwhole : whole' ↔ whole) (hnested : nested' ↔ nested) :
    Leaves x cursor whole' nested' := by
  rwa [propext hwhole.symm, propext hnested.symm] at hx

end Leaves

/-- A message whose own flag stays clear is read whole exactly if the messages nested in it
lie in the buffers made for them. -/
theorem readWhole_iff_nestedInRange (abi : Abi) (S : Schema) :
    ∀ (r : Region) (old : S.Value) (c : Cursor),
      Leaves (S.readFields abi r old c) (·.2.2) (S.ReadWhole abi r old c)
        (S.NestedInRange abi r old c) := by
  induction S with
  | nil =>
      intro r old c
      exact .pure fun hclear => by simpa [Schema.ReadWhole, Schema.NestedInRange] using hclear
  | field name kind rest ih =>
      intro r old c
      refine Leaves.seq ?_
      rintro ⟨v, flow, c₁⟩ hread
      cases flow with
      | done =>
          have hflag : c₁.overflow = true := (kind.read_done abi r old.1 c).elim hread rfl
          exact .pure (by simp [hflag])
      | next => refine Leaves.of_iff ((ih r old.2 c₁).ret fun _ => rfl) ?_ ?_ <;> simp
  | nested name msg rest ihMsg ih =>
      intro r old c
      refine Leaves.seq fun c₁ _ => ?_
      have hdeser := fun sub old => deserialize_agrees (readWhole_iff_inRange abi msg sub old .start)
      refine Leaves.bind (nestedMeets_iff hdeser old.1 c₁) ?_
      rintro ⟨v, c₂⟩ _
      exact (ih r old.2 c₂).ret fun _ => rfl
  | nestedArray name size msg rest ihMsg ih =>
      intro r old c
      refine Leaves.seq fun c₁ _ => Leaves.seq ?_
      rintro ⟨count, flow, c₂⟩ hread
      cases flow with
      | done =>
          have hflag : c₂.overflow = true := (readCount_done size 4 r c₁).elim hread rfl
          exact .pure (by simp [hflag])
      | next =>
          have hdeser := fun sub old =>
            deserialize_agrees (readWhole_iff_inRange abi msg sub old .start)
          have hrest : ∀ res : List msg.Value × Cursor,
              Leaves (rest.readFields abi r old.2 res.2 >>= fun next =>
                Pure.pure ((old.1.store res.1, next.1), next.2.1, next.2.2)) (·.2.2)
                (rest.ReadWhole abi r old.2 res.2) (rest.NestedInRange abi r old.2 res.2) :=
            fun res => (ih r old.2 res.2).ret fun _ => rfl
          have helems := Leaves.bind (eachElem_iff (r := r) hdeser (old.1.resized msg.default count)
              (c₂.resize size (count * abi.messageSize msg))) fun res _ => hrest res
          exact helems.of_iff (by simp) (by simp)

/-- Each buffer the reader of `S` hands to a nested `deserialize` holds all of its message. -/
def Schema.NestedComplete (abi : Abi) (S : Schema) (raw : List UInt8) (old : S.Value) : Prop :=
  S.NestedInRange abi (Region.whole raw) old .start

/-- No `deserialize` call, of the message or of one nested in it at any depth, read past its
buffer. -/
def Schema.AllRead (abi : Abi) (S : Schema) (raw : List UInt8) (old : S.Value) : Prop :=
  S.ReadWhole abi (Region.whole raw) old .start

instance (abi : Abi) (S : Schema) (raw : List UInt8) (old : S.Value) :
    Decidable (S.AllRead abi raw old) :=
  inferInstanceAs (Decidable (S.ReadWhole abi _ _ _))

/-- A message `m` with two 32-bit fields, nested in another. -/
def pairInside : Schema :=
  .nested [109] (.field [120] (.scalar .uint32) (.field [121] (.scalar .uint32) .nil)) .nil

/-- The buffer of such a message, its nested message cut behind the first field: it is
announced with 10 bytes, and the tail carries the message id 7. -/
def cutInside : List UInt8 :=
  [1, 0, 0, 0, 109, 25, 10, 0, 0, 0] ++ [1, 0, 0, 0, 120, 7, 1, 2, 3, 4] ++
    [0, 1, 0, 1, 0, 0, 0, 32, 0, 0, 0, 7]

end DzIpc.Wire
