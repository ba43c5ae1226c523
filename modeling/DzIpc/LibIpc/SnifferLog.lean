import DzIpc.LibIpc.RingOrder
import DzIpc.LibIpc.SnifferFragments

/-!
# The ring of a sniffer and its log

The log has every slot that was pushed, with the message it belongs to.  The slots of a message
follow each other in the log, unless the message was abandoned, and the ring holds the last 256
of them, but for the one that is being overwritten.

* `RingOk` is the invariant of the ring, its log and the writer.
* `writerStep_cases` says what a step of the writer can do; `RingOk.moved`, `RingOk.write` and
  `RingOk.advance` are what keeps the invariant.
-/

namespace DzIpc.LibIpc.SnifferSteps

open Cells
open RingSteps (slotOf slotOf_ne)

variable {s t : State}

/-- The length of a payload fits `int32_t`. -/
def WriterAction.Fits : WriterAction → Prop
  | .send _ payload => payload.length < 2 ^ 31
  | _ => True

instance (a : WriterAction) : Decidable a.Fits := by
  cases a <;> unfold WriterAction.Fits <;> infer_instance

/-! ## The ring and its log -/

/-- The slot that is pushed next. -/
def WriterPc.current : WriterPc → Option Pushed
  | .idle => none
  | .sending payload next rest => rest.head?.map fun slot => ⟨slot, payload, next⟩
  | .writing payload next slot _ => some ⟨slot, payload, next⟩

/-- The slots that are left of the message under way. -/
def WriterPc.left : WriterPc → Option (Option (List UInt8) × ℕ × List Slot)
  | .idle => none
  | .sending payload next rest => some (payload, next, rest)
  | .writing payload next slot rest => some (payload, next, slot :: rest)

/-- The slots that were pushed, and the one that is pushed next. -/
def State.stream (s : State) : List Pushed :=
  s.log ++ s.writer.current.toList

/-- Where a slot comes from. -/
def Pushed.Ok (e : Pushed) : Prop :=
  match e.payload with
  | some payload =>
      payload.length < 2 ^ 31 ∧ dataLength * e.part < payload.length ∧
        ∃ ccId, e.slot = fragmentSlot ccId e.slot.id payload e.part
  | none => e.slot.storage = true ∧ e.part = 0

/-- A slot that is not the first of its message comes behind the slot before. -/
def Pushed.Behind (e e' : Pushed) : Prop :=
  0 < e'.part → e'.payload = e.payload ∧ e'.part = e.part + 1 ∧ e'.slot.id = e.slot.id

/-- What is left of the message under way. -/
def LeftOk (payload : Option (List UInt8)) (next : ℕ) (slots : List Slot) : Prop :=
  match payload with
  | some bytes =>
      bytes.length < 2 ^ 31 ∧ ∃ ccId id, slots = (slotsOf ccId id bytes).drop next
  | none => next = 0 ∧ ∃ slot, slots = [slot] ∧ slot.storage = true

/-- What the ring holds, and what the log says. -/
structure RingOk (s : State) : Prop where
  wt : s.wt = BitVec.ofNat 32 s.log.length
  left : ∀ x ∈ s.writer.left, LeftOk x.1 x.2.1 x.2.2
  logged : ∀ e ∈ s.stream, e.Ok
  chain : s.stream.IsChain Pushed.Behind
  published : ∀ e ∈ s.log, ∀ payload, e.payload = some payload →
    payload.length ≤ dataLength * (e.part + 1) → payload ∈ s.published
  ring : ∀ n e, s.log[n]? = some e → s.begun n = false → s.ring (slotOf n) = e.slot

/-- Slots before the end of the log are in the stream. -/
theorem stream_of_log {n : ℕ} {e : Pushed} (h : s.log[n]? = some e) : s.stream[n]? = some e := by
  have hlt : n < s.log.length := (List.getElem?_eq_some_iff.mp h).1
  rw [State.stream, List.getElem?_append_left hlt, h]

theorem RingOk.behind (h : RingOk s) {n : ℕ} {e e' : Pushed} (he : s.stream[n]? = some e)
    (he' : s.stream[n + 1]? = some e') : e.Behind e' := by
  obtain ⟨hn, rfl⟩ := List.getElem?_eq_some_iff.mp he
  obtain ⟨hn', rfl⟩ := List.getElem?_eq_some_iff.mp he'
  exact List.isChain_iff_getElem.mp h.chain n hn'

theorem indexOf_ofNat (n : ℕ) : indexOf (BitVec.ofNat 32 n) = slotOf n := by
  apply Fin.ext
  change (BitVec.ofNat 32 n).toNat % 256 = n % 256
  rw [BitVec.toNat_ofNat]
  omega

theorem ringOk_init : RingOk init where
  wt := rfl
  left := nofun
  logged := nofun
  chain := .nil
  published := nofun
  ring := by
    intro n e he
    cases he

/-- The slot that is pushed next is the next one of its message. -/
theorem LeftOk.ok {payload : Option (List UInt8)} {next : ℕ} {slot : Slot} {rest : List Slot}
    (h : LeftOk payload next (slot :: rest)) : Pushed.Ok ⟨slot, payload, next⟩ := by
  cases payload with
  | none =>
      obtain ⟨hnext, slot', hslots, hstorage⟩ := h
      obtain ⟨rfl, -⟩ := List.cons.inj hslots
      exact ⟨hstorage, hnext⟩
  | some bytes =>
      obtain ⟨hlen, ccId, id, hslots⟩ := h
      have hget : (slotsOf ccId id bytes)[next]? = some slot := by
        rw [← List.head?_drop, ← hslots, List.head?_cons]
      obtain ⟨hnext, rfl⟩ := getElem?_slotsOf hget
      exact ⟨hlen, hnext, ccId, rfl⟩

/-- After a push the rest is left, and it comes behind. -/
theorem LeftOk.rest {payload : Option (List UInt8)} {next : ℕ} {slot slot' : Slot}
    {rest : List Slot} (h : LeftOk payload next (slot :: slot' :: rest)) :
    LeftOk payload (next + 1) (slot' :: rest) ∧ slot'.id = slot.id := by
  cases payload with
  | none =>
      obtain ⟨-, _, hslots, -⟩ := h
      cases hslots
  | some bytes =>
      obtain ⟨hlen, ccId, id, hslots⟩ := h
      have hrest : slot' :: rest = (slotsOf ccId id bytes).drop (next + 1) := by
        rw [← List.drop_drop, ← hslots]
        rfl
      have hget : (slotsOf ccId id bytes)[next]? = some slot := by
        rw [← List.head?_drop, ← hslots, List.head?_cons]
      have hget' : (slotsOf ccId id bytes)[next + 1]? = some slot' := by
        rw [← List.head?_drop, ← hrest, List.head?_cons]
      refine ⟨⟨hlen, ccId, id, hrest⟩, ?_⟩
      rw [(getElem?_slotsOf hget).2, (getElem?_slotsOf hget').2]
      rfl

/-- A first slot may follow any slot. -/
theorem behind_of_first {e e' : Pushed} (h : e'.part = 0) : e.Behind e' := by
  intro hpos
  omega

/-- A step of the writer between two slots. -/
theorem RingOk.moved (h : RingOk s) {writer : WriterPc} {acc : BitVec 32}
    (hleft : ∀ x ∈ writer.left, LeftOk x.1 x.2.1 x.2.2)
    (hcurrent : ∀ e ∈ writer.current, e.part = 0 ∧ e.Ok ∨ e ∈ s.writer.current)
    (hbegun : ∀ n, State.begun { s with acc := acc, writer := writer } n = false →
      s.begun n = false) :
    RingOk { s with acc := acc, writer := writer } where
  wt := h.wt
  left := hleft
  logged := by
    intro e he
    rcases List.mem_append.mp he with hlog | hnew
    · exact h.logged e (List.mem_append_left _ hlog)
    · rcases hcurrent e (Option.mem_toList.mp hnew) with ⟨-, hok⟩ | hold
      · exact hok
      · exact h.logged e (List.mem_append_right _ (Option.mem_toList.mpr hold))
  chain := by
    obtain ⟨hlog, -, hjoin⟩ := List.isChain_append.mp h.chain
    refine List.isChain_append.mpr ⟨hlog, ?_, ?_⟩
    · cases writer.current with
      | none => exact .nil
      | some e => exact .singleton e
    · intro e he e' he'
      have hcur : e' ∈ writer.current := by simpa [Option.head?_toList] using he'
      rcases hcurrent e' hcur with ⟨hfirst, -⟩ | hold
      · exact behind_of_first hfirst
      · exact hjoin e he e' (by simpa [Option.head?_toList] using hold)
  published := h.published
  ring := fun n e he hn => h.ring n e he (hbegun n hn)

/-- The slot at the write index is written. -/
theorem RingOk.write (h : RingOk s) {payload : Option (List UInt8)} {next : ℕ} {slot : Slot}
    {rest : List Slot} (hwriter : s.writer = .writing payload next slot rest) (cells : List Cell)
    (src : Slot) : RingOk (s.write cells src) where
  wt := h.wt
  left := h.left
  logged := h.logged
  chain := h.chain
  published := h.published
  ring := by
    intro n e he hn
    have hlt : n < s.log.length := (List.getElem?_eq_some_iff.mp he).1
    have hbegun : s.begun n = false := hn
    have hroom : ¬ n + ringSlots ≤ s.log.length := by
      rw [State.begun, hwriter] at hbegun
      exact of_decide_eq_false hbegun
    have hne : slotOf n ≠ indexOf s.wt := by
      rw [h.wt, indexOf_ofNat]
      exact slotOf_ne hlt (by simpa [ringSlots] using Nat.not_le.mp hroom)
    change Function.update s.ring _ _ (slotOf n) = e.slot
    rw [Function.update_of_ne hne]
    exact h.ring n e he hbegun

/-- The writer after a push. -/
def afterPush (payload : Option (List UInt8)) (next : ℕ) (rest : List Slot) : WriterPc :=
  if rest = [] then .idle else .sending payload (next + 1) rest

theorem afterPush_ok {payload : Option (List UInt8)} {next : ℕ} {slot : Slot} {rest : List Slot}
    (h : LeftOk payload next (slot :: rest)) :
    (∀ x ∈ (afterPush payload next rest).left, LeftOk x.1 x.2.1 x.2.2) ∧
      ∀ e ∈ (afterPush payload next rest).current,
        e.Ok ∧ Pushed.Behind ⟨slot, payload, next⟩ e := by
  cases rest with
  | nil => exact ⟨nofun, nofun⟩
  | cons slot' rest =>
      obtain ⟨hrest, hid⟩ := h.rest
      refine ⟨fun x hx => ?_, fun e he => ?_⟩
      · obtain rfl := Option.some.inj hx
        exact hrest
      · obtain rfl := Option.some.inj he
        exact ⟨hrest.ok, fun _ => ⟨rfl, rfl, hid⟩⟩

theorem begun_afterPush {payload : Option (List UInt8)} {next : ℕ} {rest : List Slot} (n : ℕ)
    (hwriter : t.writer = afterPush payload next rest) :
    t.begun n = decide (n + ringSlots < t.log.length) := by
  rw [State.begun, hwriter]
  cases rest with
  | nil => rfl
  | cons slot rest => rfl

/-- The slot is pushed. -/
theorem RingOk.advance (h : RingOk s) {payload : Option (List UInt8)} {next : ℕ} {slot : Slot}
    {rest : List Slot} (hwriter : s.writer = .writing payload next slot rest)
    (hslot : s.ring (indexOf s.wt) = slot) :
    RingOk { s with
      wt := s.wt + 1#32
      log := s.log ++ [⟨slot, payload, next⟩]
      writer := afterPush payload next rest
      published := if rest = [] then s.published ++ payload.toList else s.published } := by
  have hleft : LeftOk payload next (slot :: rest) := h.left ⟨payload, next, slot :: rest⟩ (by
    rw [hwriter]
    rfl)
  have hstream : s.stream = s.log ++ [⟨slot, payload, next⟩] := by
    rw [State.stream, hwriter]
    rfl
  obtain ⟨hrest, hbehind⟩ := afterPush_ok hleft
  refine ⟨?_, hrest, ?_, ?_, ?_, ?_⟩
  · change s.wt + 1#32 = BitVec.ofNat 32 (s.log ++ [_]).length
    rw [h.wt, List.length_append, List.length_singleton, BitVec.ofNat_add]
  · intro e he
    rcases List.mem_append.mp he with hold | hnew
    · rw [← hstream] at hold
      exact h.logged e hold
    · exact (hbehind e (Option.mem_toList.mp hnew)).1
  · have hchain := h.chain
    rw [hstream] at hchain
    refine List.isChain_append.mpr ⟨hchain, ?_, ?_⟩
    · cases (afterPush payload next rest).current with
      | none => exact .nil
      | some e => exact .singleton e
    · intro e he e' he'
      rw [List.getLast?_concat] at he
      obtain rfl := Option.some.inj he
      exact (hbehind e' (by simpa [Option.head?_toList] using he')).2
  · intro e he bytes hbytes hend
    change bytes ∈ if rest = [] then s.published ++ payload.toList else s.published
    rcases List.mem_append.mp he with hold | hnew
    · have hpub := h.published e hold bytes hbytes hend
      split
      · exact List.mem_append_left _ hpub
      · exact hpub
    · obtain rfl := List.mem_singleton.mp hnew
      obtain rfl : payload = some bytes := hbytes
      have hlast : rest = [] := by
        cases rest with
        | nil => rfl
        | cons slot' rest =>
            obtain ⟨-, hmore, -⟩ := hleft.rest.1.ok
            exact absurd hend (Nat.not_le.mpr hmore)
      rw [if_pos hlast]
      exact List.mem_append_right _ (List.mem_singleton_self bytes)
  · intro n e he hn
    change s.ring (slotOf n) = e.slot
    have hafter : ¬ n + ringSlots < s.log.length + 1 := by
      rw [begun_afterPush _ rfl, List.length_append, List.length_singleton] at hn
      exact of_decide_eq_false hn
    rw [List.getElem?_append] at he
    split at he
    · refine h.ring n e he ?_
      rw [State.begun, hwriter]
      exact decide_eq_false fun hle => hafter (Nat.lt_succ_of_le hle)
    · rename_i hge
      have hn' : n = s.log.length := by
        have := (List.getElem?_eq_some_iff.mp he).1
        rw [List.length_singleton] at this
        omega
      rw [hn', Nat.sub_self, List.getElem?_cons_zero, Option.some.injEq] at he
      rw [hn', ← indexOf_ofNat, ← h.wt, hslot, ← he]

/-- What a step of the writer does. -/
theorem writerStep_cases {a : WriterAction} (h : writerStep s a = some t) :
    (∃ slots payload acc, s.writer = .idle ∧ (a.Fits → LeftOk payload 0 slots) ∧
        t = { s with acc := acc, writer := .sending payload 0 slots }) ∨
      (∃ payload next slot rest, s.writer = .sending payload next (slot :: rest) ∧
        t = { s with acc := s.acc, writer := .writing payload next slot rest }) ∨
      (∃ payload next slot rest cells src, s.writer = .writing payload next slot rest ∧
        t = s.write cells src) ∨
      (∃ payload next slot rest, s.writer = .writing payload next slot rest ∧
        s.ring (indexOf s.wt) = slot ∧
        t = { s with
          wt := s.wt + 1#32
          log := s.log ++ [⟨slot, payload, next⟩]
          writer := afterPush payload next rest
          published := if rest = [] then s.published ++ payload.toList else s.published }) ∨
      (∃ payload next rest, s.writer = .sending payload next rest ∧
        t = { s with acc := s.acc, writer := .idle }) := by
  unfold writerStep at h
  cases a with
  | send ccId payload =>
      left
      dsimp only at h
      split at h
      · rename_i hidle
        split_ifs at h
        obtain rfl := Option.some.inj h
        exact ⟨slotsOf ccId s.acc payload, some payload, _, hidle,
          fun hlen => ⟨hlen, ccId, s.acc, rfl⟩, rfl⟩
      · cases h
  | sendChunk ccId size storageId =>
      left
      dsimp only at h
      split at h
      · rename_i hidle
        split_ifs at h
        obtain rfl := Option.some.inj h
        exact ⟨[_], none, _, hidle, fun _ => ⟨rfl, _, rfl, rfl⟩, rfl⟩
      · cases h
  | begin =>
      right; left
      dsimp only at h
      split at h
      · rename_i hsending
        obtain rfl := Option.some.inj h
        exact ⟨_, _, _, _, hsending, rfl⟩
      · cases h
  | zero bytes =>
      right; right; left
      dsimp only at h
      split at h
      · rename_i hwriting
        obtain rfl := Option.some.inj h
        exact ⟨_, _, _, _, _, _, hwriting, rfl⟩
      · cases h
  | store cells =>
      right; right; left
      dsimp only at h
      split at h
      · rename_i hwriting
        obtain rfl := Option.some.inj h
        exact ⟨_, _, _, _, _, _, hwriting, rfl⟩
      · cases h
  | advance =>
      right; right; right; left
      dsimp only at h
      split at h
      · rename_i hwriting
        split at h
        · rename_i hslot
          obtain rfl := Option.some.inj h
          exact ⟨_, _, _, _, hwriting, hslot, rfl⟩
        · cases h
      · cases h
  | abandon =>
      right; right; right; right
      dsimp only at h
      split at h
      · rename_i hsending
        obtain rfl := Option.some.inj h
        exact ⟨_, _, _, hsending, rfl⟩
      · cases h

end DzIpc.LibIpc.SnifferSteps
