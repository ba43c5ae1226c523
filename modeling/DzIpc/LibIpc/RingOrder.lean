import DzIpc.LibIpc.RingSteps

/-!
# The broadcast ring delivers in order

A reader compares its cursor with the write index once, before it walks the ring, and the
write index advances only after a slot has been rewritten.  As long as the slot at the
reader's cursor has not been claimed for the next lap when the reader first loads its `rc_`,
every `pop` delivers the push with the number of the cursor: until the reader clears its bit,
a later write to the slot raises the epoch, and the reader sees that.

* `Inv` ties the slots to the pushes and each reader's place to the slot it looks at.
* `Evolves` is what a step of somebody else may do to the slot a reader looks at, and
  `ReaderOk.evolve` is the frame rule it gives.
* `delivered_of_guarded` is the result for runs, and `run_lapped` is a reader exactly one
  lap behind that receives push 256 before push 1.
-/

namespace DzIpc.LibIpc.RingSteps

open Mask

variable {V : Type}

/-- The number of pushes that have taken their slot: `wt_`, and one more between the
exchange of `rc_` and the advance of `wt_`. -/
def claimed (s : State V) : ℕ :=
  s.ring.wt.toNat +
    match s.writer with
    | .write _ | .advance => 1
    | _ => 0

/-- What each reader got is a list of pushes in strictly increasing order, with the values
they wrote. -/
def Delivered (s : State V) : Prop :=
  ∀ r, ∃ l : List (ℕ × V), (s.readers r).received = l.map some ∧
    l.Pairwise (fun a b => b.1 < a.1) ∧ ∀ x ∈ l, s.pushed[x.1]? = some x.2

/-- The next call of `push` or `force_push` is not the `2 ^ 32`-th. -/
def Bounded (s : State V) : Action V → Prop
  | .push _ | .forcePush _ => s.started + 1 < 2 ^ 32
  | _ => True

/-- The slot at the cursor of a reader that is about to load `rc_` for the first time has
not been claimed for a later lap. -/
def NotLapped (s : State V) (rd : Reader V) : Prop :=
  match rd.pc with
  | .loadRc0 => claimed s ≤ rd.queue.cursor.toNat + ringSlots
  | _ => True

/-- The condition on a step. -/
def Unlapped (s : State V) : Action V → Prop
  | .reader r _ => NotLapped s (s.readers r)
  | _ => True

instance (s : State V) (rd : Reader V) : Decidable (NotLapped s rd) := by
  unfold NotLapped
  cases rd.pc <;> infer_instance

instance (s : State V) (a : Action V) : Decidable (Unlapped s a) := by
  cases a with
  | reader r spurious => exact inferInstanceAs (Decidable (NotLapped s (s.readers r)))
  | _ => exact isTrue trivial

/-- The slot of a push. -/
def slotOf (n : ℕ) : Fin 256 := ⟨n % 256, Nat.mod_lt _ (by decide)⟩

theorem indexOf_eq (c : U2) : indexOf c = slotOf c.toNat := rfl

theorem slotOf_ne {n m : ℕ} (hlt : n < m) (hlap : m < n + 256) : slotOf n ≠ slotOf m := by
  intro h
  have hmod : n % 256 = m % 256 := congrArg Fin.val h
  omega

theorem slotOf_lap (n : ℕ) : slotOf (n + 256) = slotOf n := by
  simp [slotOf]

/-- The slot a reader looks at still belongs to push `c`, in the epoch the reader read, and
the reader has not cleared its bit. -/
structure Live (s : State V) (my : Cc) (c : ℕ) (i : Fin 256) (epoch : BitVec 32) : Prop where
  owner : my ≠ 0#32
  index : i = slotOf c
  claimed : claimed s ≤ c + 256
  epoch : (s.ring.elems i).epoch = epoch
  bit : Within my (s.ring.elems i).rem

/-- The slot has been rewritten since in a later epoch. -/
def Overtaken (s : State V) (i : Fin 256) (epoch : BitVec 32) : Prop :=
  epoch.toNat < (s.ring.elems i).epoch.toNat

/-- What a reader holds is push `c`. -/
def Copied (s : State V) (c : ℕ) (data : Data V) : Prop :=
  ∃ v, data = some (c, v) ∧ s.pushed[c]? = some v

/-- A list of deliveries, all of pushes before `n`. -/
def Before (s : State V) (n : ℕ) (received : List (Data V)) : Prop :=
  ∃ l : List (ℕ × V), received = l.map some ∧ l.Pairwise (fun a b => b.1 < a.1) ∧
    ∀ x ∈ l, s.pushed[x.1]? = some x.2 ∧ x.1 < n

/-- What is known of a reader at its place in the code. -/
def Place (s : State V) (rd : Reader V) : Prop :=
  let c := rd.queue.cursor.toNat - 1
  match rd.pc with
  | .resync =>
      rd.queue.cursor.toNat + ringSlots < s.ring.wt.toNat ∧
        Before s rd.queue.cursor.toNat rd.received
  | .loadRc0 =>
      rd.queue.cursor.toNat < s.ring.wt.toNat ∧ Before s rd.queue.cursor.toNat rd.received
  | .copy i epoch =>
      0 < rd.queue.cursor.toNat ∧ Before s c rd.received ∧
        (Live s rd.queue.connected c i epoch ∨ Overtaken s i epoch)
  | .loadRc1 i epoch data | .loadRc i epoch data | .cas i epoch data _ =>
      0 < rd.queue.cursor.toNat ∧ Before s c rd.received ∧
        (Live s rd.queue.connected c i epoch ∧ Copied s c data ∨ Overtaken s i epoch)
  | _ => Before s rd.queue.cursor.toNat rd.received

/-- What holds of each reader. -/
structure ReaderOk (s : State V) (rd : Reader V) : Prop where
  single : rd.queue.connected = 0#32 ∨ Single rd.queue.connected
  busy : rd.pc ≠ .idle → rd.queue.connected ≠ 0#32
  within : Within rd.queue.connected s.ring.cc
  cursor : rd.queue.cursor.toNat ≤ s.ring.wt.toNat
  place : Place s rd

/-- What holds of the writer: a forced write is in a new epoch, the connections it loaded
contain every reader a slot is for, and a plain write does not overwrite a slot of the
present epoch that one of them holds. -/
def WriterOk (s : State V) : Prop :=
  match s.writer with
  | .readCc force _ => force = true → ∀ i, (s.ring.elems i).epoch.toNat < s.ring.epoch.toNat
  | .loadRc force _ cc =>
      (force = true → ∀ i, (s.ring.elems i).epoch.toNat < s.ring.epoch.toNat) ∧
        Within cc s.ring.cc ∧ ∀ i, Within (s.ring.elems i).rem cc
  | .cas force _ cc rem epoch =>
      (force = true → ∀ i, (s.ring.elems i).epoch.toNat < s.ring.epoch.toNat) ∧
        Within cc s.ring.cc ∧ (∀ i, Within (s.ring.elems i).rem cc) ∧
        (force = false → cc &&& rem ≠ 0#32 → epoch ≠ s.ring.epoch)
  | _ => True

/-- The number of pushes that have begun to take a slot or have taken one. -/
def reserved (s : State V) : ℕ :=
  s.ring.wt.toNat +
    match s.writer with
    | .idle => 0
    | _ => 1

/-- The number of pushes whose data is in a slot. -/
def written (s : State V) : ℕ :=
  s.ring.wt.toNat +
    match s.writer with
    | .advance => 1
    | _ => 0

/-- **The invariant.** -/
structure Inv (s : State V) : Prop where
  started : s.started < 2 ^ 32
  reserved : reserved s ≤ s.started
  epoch : s.ring.epoch.toNat ≤ s.started
  length : s.pushed.length = written s
  epochs : ∀ i, (s.ring.elems i).epoch.toNat ≤ s.ring.epoch.toNat
  bits : ∀ i, Within (s.ring.elems i).rem s.ring.cc
  data : ∀ n, n < s.pushed.length → s.pushed.length ≤ n + 256 →
    Copied s n (s.ring.elems (slotOf n)).data
  apart : ∀ r r', r ≠ r' →
    (s.readers r).queue.connected &&& (s.readers r').queue.connected = 0#32
  writer : WriterOk s
  readers : ∀ r, ReaderOk s (s.readers r)

theorem written_le_claimed (s : State V) : written s ≤ claimed s := by
  unfold written claimed
  cases s.writer <;> simp

theorem Copied.mono {s t : State V} {c : ℕ} {data : Data V} (h : Copied s c data)
    (hpushed : s.pushed <+: t.pushed) : Copied t c data := by
  obtain ⟨v, hdata, hv⟩ := h
  obtain ⟨hlt, -⟩ := List.getElem?_eq_some_iff.mp hv
  refine ⟨v, hdata, ?_⟩
  obtain ⟨rest, hrest⟩ := hpushed
  rw [← hrest, List.getElem?_append_left hlt]
  exact hv

theorem Before.mono {s t : State V} {n m : ℕ} {received : List (Data V)}
    (h : Before s n received) (hpushed : s.pushed <+: t.pushed) (hle : n ≤ m) :
    Before t m received := by
  obtain ⟨l, hl, hsorted, hmem⟩ := h
  refine ⟨l, hl, hsorted, fun x hx => ?_⟩
  obtain ⟨hx1, hx2⟩ := hmem x hx
  obtain ⟨v, hv, hvt⟩ := Copied.mono (c := x.1) ⟨x.2, rfl, hx1⟩ hpushed
  obtain ⟨-, rfl⟩ := Prod.mk.inj (Option.some.inj hv)
  exact ⟨hvt, by omega⟩

/-! ## Steps of the others -/

/-- What a step of somebody else may do to the slot a reader looks at: it stays, or it is
rewritten in a later epoch. -/
structure Evolves (s t : State V) (my : Cc) : Prop where
  wt : s.ring.wt.toNat ≤ t.ring.wt.toNat
  cc : Within s.ring.cc t.ring.cc
  pushed : s.pushed <+: t.pushed
  epochs : ∀ i, (s.ring.elems i).epoch.toNat ≤ (t.ring.elems i).epoch.toNat
  live : ∀ c i epoch, c < s.ring.wt.toNat → Live s my c i epoch →
    Live t my c i epoch ∨ Overtaken t i epoch

theorem Overtaken.evolve {s t : State V} {my : Cc} {i : Fin 256} {epoch : BitVec 32}
    (h : Overtaken s i epoch) (hst : Evolves s t my) : Overtaken t i epoch :=
  Nat.lt_of_lt_of_le h (hst.epochs i)

/-- The frame rule: a step of somebody else keeps what is known of a reader. -/
theorem ReaderOk.evolve {s t : State V} {rd : Reader V} (h : ReaderOk s rd)
    (hst : Evolves s t rd.queue.connected) : ReaderOk t rd := by
  refine ⟨h.single, h.busy, h.within.trans hst.cc, h.cursor.trans hst.wt, ?_⟩
  have hplace := h.place
  have hcursor := h.cursor
  unfold Place at hplace ⊢
  cases hpc : rd.pc with
  | idle | connecting | lap | check =>
      simp only [hpc] at hplace ⊢
      exact hplace.mono hst.pushed le_rfl
  | resync | loadRc0 =>
      simp only [hpc] at hplace ⊢
      exact ⟨hplace.1.trans_le hst.wt, hplace.2.mono hst.pushed le_rfl⟩
  | copy i epoch =>
      simp only [hpc] at hplace ⊢
      obtain ⟨hpos, hbefore, hslot⟩ := hplace
      refine ⟨hpos, hbefore.mono hst.pushed le_rfl, ?_⟩
      rcases hslot with hlive | hover
      · exact hst.live _ i epoch (by omega) hlive
      · exact Or.inr (hover.evolve hst)
  | loadRc1 i epoch data | loadRc i epoch data | cas i epoch data rem =>
      simp only [hpc] at hplace ⊢
      obtain ⟨hpos, hbefore, hslot⟩ := hplace
      refine ⟨hpos, hbefore.mono hst.pushed le_rfl, ?_⟩
      rcases hslot with ⟨hlive, hcopied⟩ | hover
      · rcases hst.live _ i epoch (by omega) hlive with hlive | hover
        · exact Or.inl ⟨hlive, hcopied.mono hst.pushed⟩
        · exact Or.inr hover
      · exact Or.inr (hover.evolve hst)

/-! ## The writer -/

@[simp] theorem setElem_wt (q : Ring (Data V)) (i : Fin 256) (e : Elem (Data V)) :
    (setElem q i e).wt = q.wt := rfl

@[simp] theorem setElem_cc (q : Ring (Data V)) (i : Fin 256) (e : Elem (Data V)) :
    (setElem q i e).cc = q.cc := rfl

@[simp] theorem setElem_epoch (q : Ring (Data V)) (i : Fin 256) (e : Elem (Data V)) :
    (setElem q i e).epoch = q.epoch := rfl

@[simp] theorem setElem_self (q : Ring (Data V)) (i : Fin 256) (e : Elem (Data V)) :
    (setElem q i e).elems i = e := by
  simp [setElem]

theorem setElem_of_ne (q : Ring (Data V)) {i j : Fin 256} (e : Elem (Data V)) (h : j ≠ i) :
    (setElem q i e).elems j = q.elems j := by
  simp [setElem, h]

/-- The writer moves on without touching a slot or the write index. -/
theorem Inv.turn {s t : State V} (h : Inv s) (helems : t.ring.elems = s.ring.elems)
    (hcc : t.ring.cc = s.ring.cc) (hwt : t.ring.wt = s.ring.wt)
    (hepoch : s.ring.epoch.toNat ≤ t.ring.epoch.toNat) (hreaders : t.readers = s.readers)
    (hpushed : t.pushed = s.pushed) (hclaimed : claimed t = claimed s)
    (hwritten : written t = written s) (hlt : t.started < 2 ^ 32)
    (hreserved : RingSteps.reserved t ≤ t.started) (hbound : t.ring.epoch.toNat ≤ t.started)
    (hwriter : WriterOk t) : Inv t where
  started := hlt
  reserved := hreserved
  epoch := hbound
  length := by rw [hpushed, hwritten, h.length]
  epochs := fun i => by
    rw [helems]
    exact (h.epochs i).trans hepoch
  bits := fun i => by
    rw [helems, hcc]
    exact h.bits i
  data := by
    rw [hpushed, helems]
    intro n hn hlap
    exact (h.data n hn hlap).mono (by rw [hpushed])
  apart := by
    rw [hreaders]
    exact h.apart
  writer := hwriter
  readers := by
    rw [hreaders]
    intro r
    refine (h.readers r).evolve ⟨by rw [hwt], by rw [hcc]; exact Within.refl _, by rw [hpushed],
      fun i => by rw [helems], ?_⟩
    intro c i epoch _ hlive
    refine Or.inl ⟨hlive.owner, hlive.index, by rw [hclaimed]; exact hlive.claimed, ?_, ?_⟩
    · rw [helems]
      exact hlive.epoch
    · rw [helems]
      exact hlive.bit

/-- The exchange that claims a slot.  A reader that still holds the slot from a lap ago is
among the connections the writer loaded, so the slot was in an older epoch. -/
theorem Inv.claim {s : State V} (h : Inv s) {force : Bool} {v : V} {cc : Cc}
    (hpc : s.writer = .cas force v cc s.ring.head.rem s.ring.head.epoch) :
    Inv { s with
      ring := setElem s.ring (indexOf s.ring.wt) ⟨cc, s.ring.epoch, s.ring.head.data⟩
      writer := .write v } := by
  obtain ⟨hforce, hcc, hrem, hplain⟩ : (force = true → ∀ i,
      (s.ring.elems i).epoch.toNat < s.ring.epoch.toNat) ∧ Within cc s.ring.cc ∧
      (∀ i, Within (s.ring.elems i).rem cc) ∧
      (force = false → cc &&& s.ring.head.rem ≠ 0#32 → s.ring.head.epoch ≠ s.ring.epoch) := by
    have hw := h.writer
    simpa only [WriterOk, hpc] using hw
  set t : State V := { s with
    ring := setElem s.ring (indexOf s.ring.wt) ⟨cc, s.ring.epoch, s.ring.head.data⟩
    writer := .write v } with ht
  have hclaimed : claimed t = claimed s + 1 ∧ claimed s = s.ring.wt.toNat := by
    simp [claimed, ht, hpc]
  have hself : t.ring.elems (indexOf s.ring.wt) = ⟨cc, s.ring.epoch, s.ring.head.data⟩ := by
    simp [ht]
  have hother : ∀ i, i ≠ indexOf s.ring.wt → t.ring.elems i = s.ring.elems i := by
    intro i hi
    exact setElem_of_ne _ _ hi
  refine
    { started := h.started, reserved := ?_, epoch := h.epoch, length := ?_, epochs := ?_
      bits := ?_, data := ?_, apart := h.apart, writer := trivial, readers := ?_ }
  · have hr := h.reserved
    simpa only [RingSteps.reserved, hpc, ht, setElem_wt] using hr
  · have hl := h.length
    simpa only [written, hpc, ht, setElem_wt] using hl
  · intro i
    by_cases hi : i = indexOf s.ring.wt
    · rw [hi, hself]
      exact le_rfl
    · rw [hother i hi]
      exact h.epochs i
  · intro i
    by_cases hi : i = indexOf s.ring.wt
    · rw [hi, hself]
      exact hcc
    · rw [hother i hi]
      exact h.bits i
  · intro n hn hlap
    have hd := h.data n hn hlap
    by_cases hi : slotOf n = indexOf s.ring.wt
    · rw [hi, hself]
      rw [hi] at hd
      exact hd
    · rw [hother _ hi]
      exact hd
  · intro r
    refine (h.readers r).evolve ⟨le_rfl, Within.refl _, List.prefix_rfl, ?_, ?_⟩
    · intro i
      by_cases hi : i = indexOf s.ring.wt
      · rw [hi, hself]
        exact h.epochs _
      · rw [hother i hi]
    · intro c i epoch hc hlive
      by_cases hlap : s.ring.wt.toNat = c + 256
      · -- the reader looks at the slot that is claimed
        right
        have hi : i = indexOf s.ring.wt := by
          rw [hlive.index, indexOf_eq, hlap, slotOf_lap]
        rw [Overtaken, hi, hself]
        show epoch.toNat < s.ring.epoch.toNat
        have hepoch := hlive.epoch
        rw [hi] at hepoch
        cases force with
        | true =>
            have hlt := hforce rfl (indexOf s.ring.wt)
            rwa [hepoch] at hlt
        | false =>
            have hbit := hlive.bit
            rw [hi] at hbit
            have hmeets : cc &&& s.ring.head.rem ≠ 0#32 := by
              intro hzero
              have hboth : Within (s.readers r).queue.connected (cc &&& s.ring.head.rem) :=
                within_and.mpr ⟨hbit.trans (hrem _), hbit⟩
              rw [hzero] at hboth
              exact hlive.owner hboth.eq_zero
            have hne := hplain rfl hmeets
            have hle := h.epochs (indexOf s.ring.wt)
            have hneq : (s.ring.elems (indexOf s.ring.wt)).epoch.toNat ≠ s.ring.epoch.toNat :=
              fun heq => hne (BitVec.eq_of_toNat_eq heq)
            rw [hepoch] at hle hneq
            omega
      · left
        have hlt := hlive.claimed
        have hi : i ≠ indexOf s.ring.wt := by
          rw [hlive.index, indexOf_eq]
          exact slotOf_ne hc (by omega)
        refine ⟨hlive.owner, hlive.index, by omega, ?_, ?_⟩
        · rw [hother i hi]
          exact hlive.epoch
        · rw [hother i hi]
          exact hlive.bit

/-- The data is written into the claimed slot, which no reader counts on. -/
theorem Inv.write {s : State V} (h : Inv s) {v : V} (hpc : s.writer = .write v) :
    Inv { s with
      ring := setElem s.ring (indexOf s.ring.wt)
        { s.ring.head with data := some (s.pushed.length, v) }
      pushed := s.pushed ++ [v]
      writer := .advance } := by
  have hlength : s.pushed.length = s.ring.wt.toNat := by
    have hl := h.length
    simpa only [written, hpc, Nat.add_zero] using hl
  set t : State V := { s with
    ring := setElem s.ring (indexOf s.ring.wt)
      { s.ring.head with data := some (s.pushed.length, v) }
    pushed := s.pushed ++ [v]
    writer := .advance } with ht
  have hother : ∀ i, i ≠ indexOf s.ring.wt → t.ring.elems i = s.ring.elems i := by
    intro i hi
    exact setElem_of_ne _ _ hi
  -- only the data of a slot changes
  have hrc : ∀ i, (t.ring.elems i).rem = (s.ring.elems i).rem ∧
      (t.ring.elems i).epoch = (s.ring.elems i).epoch := by
    intro i
    by_cases hi : i = indexOf s.ring.wt
    · rw [hi]
      simp [ht, Ring.head]
    · rw [hother i hi]
      exact ⟨rfl, rfl⟩
  have hpushed : s.pushed <+: t.pushed := List.prefix_append _ _
  refine
    { started := h.started, reserved := ?_, epoch := h.epoch, length := ?_, epochs := ?_
      bits := ?_, data := ?_, apart := h.apart, writer := trivial, readers := ?_ }
  · have hr := h.reserved
    simpa only [RingSteps.reserved, hpc, ht, setElem_wt] using hr
  · simp [written, ht, hlength]
  · intro i
    rw [(hrc i).2]
    exact h.epochs i
  · intro i
    rw [(hrc i).1]
    exact h.bits i
  · intro n hn hlap
    simp only [ht, List.length_append, List.length_singleton] at hn hlap
    by_cases hnew : n = s.pushed.length
    · subst hnew
      refine ⟨v, ?_, by simp [ht]⟩
      rw [hlength, ← indexOf_eq]
      simp [ht, hlength]
    · have hne : slotOf n ≠ indexOf s.ring.wt := by
        rw [indexOf_eq]
        exact slotOf_ne (by omega) (by omega)
      rw [hother _ hne]
      exact (h.data n (by omega) (by omega)).mono hpushed
  · intro r
    refine (h.readers r).evolve ⟨le_rfl, Within.refl _, hpushed, fun i => by rw [(hrc i).2], ?_⟩
    intro c i epoch _ hlive
    refine Or.inl ⟨hlive.owner, hlive.index, ?_, ?_, ?_⟩
    · have hc := hlive.claimed
      simpa only [claimed, hpc, ht, setElem_wt] using hc
    · rw [(hrc i).2]
      exact hlive.epoch
    · rw [(hrc i).1]
      exact hlive.bit

/-- The write index advances over the slot that was claimed. -/
theorem Inv.advance {s : State V} (h : Inv s) (hpc : s.writer = .advance) :
    Inv { s with ring := { s.ring with wt := s.ring.wt + 1#32 }, writer := .idle } := by
  have hstarted := h.started
  have hreserved : s.ring.wt.toNat + 1 ≤ s.started := by
    have hr := h.reserved
    simpa only [RingSteps.reserved, hpc] using hr
  have hwt : (s.ring.wt + 1#32).toNat = s.ring.wt.toNat + 1 := by
    rw [BitVec.toNat_add]
    exact Nat.mod_eq_of_lt (by simpa using by omega)
  refine
    { started := h.started, reserved := ?_, epoch := h.epoch, length := ?_, epochs := h.epochs
      bits := h.bits, data := h.data, apart := h.apart, writer := trivial, readers := ?_ }
  · simpa only [RingSteps.reserved, hwt, Nat.add_zero] using hreserved
  · have hl := h.length
    simpa only [written, hpc, hwt, Nat.add_zero] using hl
  · intro r
    refine (h.readers r).evolve ⟨?_, Within.refl _, List.prefix_rfl, fun i => le_rfl, ?_⟩
    · show s.ring.wt.toNat ≤ (s.ring.wt + 1#32).toNat
      omega
    · intro c i epoch _ hlive
      refine Or.inl ⟨hlive.owner, hlive.index, ?_, hlive.epoch, hlive.bit⟩
      have hc := hlive.claimed
      simpa only [claimed, hpc, hwt, Nat.add_zero] using hc

/-- A step of the writer. -/
theorem inv_writerStep {s t : State V} (h : Inv s) {spurious : Bool}
    (hstep : writerStep s spurious = some t) : Inv t := by
  have hreserved := h.reserved
  have hw := h.writer
  unfold writerStep at hstep
  cases hpc : s.writer with
  | idle => simp [hpc] at hstep
  | readCc force v =>
      simp only [hpc] at hstep
      simp only [WriterOk, hpc] at hw
      simp only [RingSteps.reserved, hpc] at hreserved
      split at hstep <;> cases hstep
      · exact h.turn rfl rfl rfl le_rfl rfl rfl (by simp [claimed, hpc]) (by simp [written, hpc])
          h.started (by simp only [RingSteps.reserved]; omega) h.epoch trivial
      · exact h.turn rfl rfl rfl le_rfl rfl rfl (by simp [claimed, hpc]) (by simp [written, hpc])
          h.started hreserved h.epoch ⟨hw, Within.refl _, h.bits⟩
  | loadRc force v cc =>
      simp only [hpc] at hstep
      simp only [WriterOk, hpc] at hw
      simp only [RingSteps.reserved, hpc] at hreserved
      split at hstep <;> cases hstep
      · exact h.turn rfl rfl rfl le_rfl rfl rfl (by simp [claimed, hpc]) (by simp [written, hpc])
          h.started (by simp only [RingSteps.reserved]; omega) h.epoch trivial
      · rename_i hfree
        refine h.turn rfl rfl rfl le_rfl rfl rfl (by simp [claimed, hpc]) (by simp [written, hpc])
          h.started hreserved h.epoch ⟨hw.1, hw.2.1, hw.2.2, ?_⟩
        exact fun hforce hmeets hepoch => hfree ⟨hforce, hmeets, hepoch⟩
  | cas force v cc rem epoch =>
      simp only [hpc] at hstep
      split at hstep <;> cases hstep
      · rename_i hsame
        obtain ⟨-, rfl, rfl⟩ := hsame
        exact h.claim hpc
      · simp only [WriterOk, hpc] at hw
        simp only [RingSteps.reserved, hpc] at hreserved
        exact h.turn rfl rfl rfl le_rfl rfl rfl (by simp [claimed, hpc]) (by simp [written, hpc])
          h.started hreserved h.epoch hw.1
  | write v =>
      simp only [hpc] at hstep
      cases hstep
      exact h.write hpc
  | advance =>
      simp only [hpc] at hstep
      cases hstep
      exact h.advance hpc

/-- A call of `push` or `force_push` begins. -/
theorem inv_start {s t : State V} (h : Inv s) {a : Action V} (hbounded : Bounded s a)
    (hstart : (∃ v, a = .push v) ∨ ∃ v, a = .forcePush v) (hstep : step s a = some t) :
    Inv t := by
  have hreserved := h.reserved
  have hepoch := h.epoch
  rcases hstart with ⟨v, rfl⟩ | ⟨v, rfl⟩
  · simp only [Bounded] at hbounded
    simp only [step] at hstep
    split at hstep
    · rename_i hpc
      cases hstep
      simp only [RingSteps.reserved, hpc] at hreserved
      exact h.turn rfl rfl rfl le_rfl rfl rfl (by simp [claimed, hpc]) (by simp [written, hpc])
        hbounded (by simp only [RingSteps.reserved]; omega) (by simp only; omega) (by simp [WriterOk])
    · cases hstep
  · simp only [Bounded] at hbounded
    simp only [step] at hstep
    split at hstep
    · rename_i hpc
      cases hstep
      simp only [RingSteps.reserved, hpc] at hreserved
      have hnext : (s.ring.epoch + 1#32).toNat = s.ring.epoch.toNat + 1 := by
        rw [BitVec.toNat_add]
        exact Nat.mod_eq_of_lt (by simpa using by omega)
      refine h.turn rfl rfl rfl (by simp only [hnext]; omega) rfl rfl (by simp [claimed, hpc])
        (by simp [written, hpc]) hbounded (by simp only [RingSteps.reserved]; omega)
        (by simp only [hnext]; omega) ?_
      -- the epoch has just risen above that of every slot
      intro _ i
      have hi := h.epochs i
      simp only [hnext]
      omega
    · cases hstep

/-! ## The readers -/

/-- A reader moves on; nothing shared changes. -/
theorem Inv.setReader {s : State V} (h : Inv s) {r : ℕ} {rd : Reader V}
    (hconnected : rd.queue.connected = (s.readers r).queue.connected) (hok : ReaderOk s rd) :
    Inv { s with readers := Function.update s.readers r rd } := by
  have hsame : ∀ j, (Function.update s.readers r rd j).queue.connected =
      (s.readers j).queue.connected := by
    intro j
    by_cases hj : j = r
    · rw [hj, Function.update_self, hconnected]
    · rw [Function.update_of_ne hj]
  have hframe : ∀ {rd' : Reader V}, ReaderOk s rd' →
      ReaderOk { s with readers := Function.update s.readers r rd } rd' := by
    intro rd' hrd'
    refine hrd'.evolve ⟨le_rfl, Within.refl _, List.prefix_rfl, fun i => le_rfl, ?_⟩
    intro c i epoch _ hlive
    exact Or.inl ⟨hlive.owner, hlive.index, hlive.claimed, hlive.epoch, hlive.bit⟩
  refine
    { started := h.started, reserved := h.reserved, epoch := h.epoch, length := h.length
      epochs := h.epochs, bits := h.bits, data := h.data, apart := ?_, writer := h.writer
      readers := ?_ }
  · intro j k hjk
    simp only [hsame]
    exact h.apart j k hjk
  · intro j
    by_cases hj : j = r
    · simp only [hj, Function.update_self]
      exact hframe hok
    · simp only [Function.update_of_ne hj]
      exact hframe (h.readers j)

/-- A reader clears its bit in a slot; the other readers' bits stay. -/
theorem Inv.clearBit {s : State V} (h : Inv s) {r : ℕ} {rd : Reader V} {i : Fin 256}
    (hconnected : rd.queue.connected = (s.readers r).queue.connected)
    (hok : ReaderOk s rd) (hidle : rd.pc = .idle) :
    Inv { s with
      ring := setElem s.ring i { s.ring.elems i with
        rem := (s.ring.elems i).rem &&& ~~~(s.readers r).queue.connected }
      readers := Function.update s.readers r rd } := by
  set my := (s.readers r).queue.connected with hmy
  set ring := setElem s.ring i
    { s.ring.elems i with rem := (s.ring.elems i).rem &&& ~~~my } with hring
  have hother : ∀ j, j ≠ i → ring.elems j = s.ring.elems j := fun j hj => setElem_of_ne _ _ hj
  have hepoch : ∀ j, (ring.elems j).epoch = (s.ring.elems j).epoch := by
    intro j
    by_cases hj : j = i
    · rw [hj]
      simp [hring]
    · rw [hother j hj]
  have hdata : ∀ j, (ring.elems j).data = (s.ring.elems j).data := by
    intro j
    by_cases hj : j = i
    · rw [hj]
      simp [hring]
    · rw [hother j hj]
  have hrem : ∀ j, Within (ring.elems j).rem (s.ring.elems j).rem := by
    intro j
    by_cases hj : j = i
    · rw [hj]
      simp only [hring, setElem_self]
      exact and_within_left _ _
    · rw [hother j hj]
      exact Within.refl _
  have hmoved := h.setReader hconnected hok
  set t : State V := { s with ring := ring, readers := Function.update s.readers r rd } with ht
  have hevolves : ∀ my', my' &&& my = 0#32 → Evolves s t my' := by
    intro my' hdisj
    refine ⟨le_rfl, Within.refl _, List.prefix_rfl, fun j => (by rw [hepoch j]), ?_⟩
    intro c j epoch _ hlive
    refine Or.inl ⟨hlive.owner, hlive.index, hlive.claimed, ?_, ?_⟩
    · show (ring.elems j).epoch = epoch
      rw [hepoch j]
      exact hlive.epoch
    · show Within my' (ring.elems j).rem
      by_cases hj : j = i
      · have hbit := hlive.bit
        rw [hj] at hbit ⊢
        simp only [hring, setElem_self]
        exact within_and.mpr ⟨hbit, within_not.mpr hdisj⟩
      · rw [hother j hj]
        exact hlive.bit
  refine
    { started := h.started, reserved := h.reserved, epoch := h.epoch, length := h.length
      epochs := fun j => ?_, bits := fun j => (hrem j).trans (h.bits j), data := ?_
      apart := hmoved.apart, writer := ?_, readers := fun j => ?_ }
  · show (ring.elems j).epoch.toNat ≤ _
    rw [hepoch j]
    exact h.epochs j
  · intro n hn hlap
    show Copied s n (ring.elems _).data
    rw [hdata]
    exact h.data n hn hlap
  · have hw := h.writer
    unfold WriterOk at hw ⊢
    show (match s.writer with
      | .readCc force _ => _
      | .loadRc force _ cc => _
      | .cas force _ cc rem epoch => _
      | _ => _)
    split
    · rename_i hpc
      simp only [hpc] at hw
      exact fun hforce j => by
        show (ring.elems j).epoch.toNat < _
        rw [hepoch j]
        exact hw hforce j
    · rename_i hpc
      simp only [hpc] at hw
      refine ⟨fun hforce j => ?_, hw.2.1, fun j => (hrem j).trans (hw.2.2 j)⟩
      show (ring.elems j).epoch.toNat < _
      rw [hepoch j]
      exact hw.1 hforce j
    · rename_i hpc
      simp only [hpc] at hw
      refine ⟨fun hforce j => ?_, hw.2.1, fun j => (hrem j).trans (hw.2.2.1 j), hw.2.2.2⟩
      show (ring.elems j).epoch.toNat < _
      rw [hepoch j]
      exact hw.1 hforce j
    · trivial
  · by_cases hj : j = r
    · have hplace := hok.place
      have hrd : t.readers j = rd := by
        rw [hj, ht]
        exact Function.update_self ..
      rw [hrd]
      refine ⟨hok.single, hok.busy, hok.within, hok.cursor, ?_⟩
      unfold Place at hplace ⊢
      simp only [hidle] at hplace ⊢
      exact hplace
    · have hrd : t.readers j = s.readers j := by
        rw [ht]
        exact Function.update_of_ne hj ..
      rw [hrd]
      exact (h.readers j).evolve (hevolves _ (h.apart j r hj))

/-- The distance of a cursor to the write index. -/
private theorem toNat_sub_cursor {wt cur : U2} (hle : cur.toNat ≤ wt.toNat) :
    (wt - cur).toNat = wt.toNat - cur.toNat := by
  bv_omega

/-- A delivery of push `c` after deliveries of earlier pushes. -/
theorem Before.deliver {s : State V} {c : ℕ} {received : List (Data V)} {data : Data V}
    (h : Before s c received) (hdata : Copied s c data) : Before s (c + 1) (data :: received) := by
  obtain ⟨l, hl, hsorted, hmem⟩ := h
  obtain ⟨v, rfl, hv⟩ := hdata
  refine ⟨(c, v) :: l, by simp [hl], ?_, ?_⟩
  · exact List.pairwise_cons.mpr ⟨fun x hx => (hmem x hx).2, hsorted⟩
  · intro x hx
    rcases List.mem_cons.mp hx with rfl | hx
    · exact ⟨hv, by simp⟩
    · exact ⟨(hmem x hx).1, (hmem x hx).2.trans (Nat.lt_succ_self c)⟩

/-- The slot at the cursor of a reader that still carries its bit belongs to the push with
the number of the cursor. -/
private theorem live_of_notLapped {s : State V} {my : Cc} {cur : U2}
    (hsingle : Single my) (hbit : ¬ (my ≠ 0#32 ∧ (s.ring.elems (indexOf cur)).rem &&& my = 0#32))
    (hlap : claimed s ≤ cur.toNat + ringSlots) :
    Live s my cur.toNat (indexOf cur) (s.ring.elems (indexOf cur)).epoch := by
  refine ⟨hsingle.ne_zero, indexOf_eq cur, hlap, rfl, hsingle.within_of_meets ?_⟩
  exact fun hzero => hbit ⟨hsingle.ne_zero, hzero⟩

/-- The data in a slot that still belongs to push `c` is what push `c` wrote. -/
private theorem copied_of_live {s : State V} (h : Inv s) {my : Cc} {c : ℕ} {i : Fin 256}
    {epoch : BitVec 32} (hlive : Live s my c i epoch) (hc : c < s.ring.wt.toNat) :
    Copied s c (s.ring.elems i).data := by
  have hlength := h.length
  have hle := written_le_claimed s
  have hlap := hlive.claimed
  have hwt : s.ring.wt.toNat ≤ written s := Nat.le_add_right _ _
  rw [hlive.index]
  exact h.data c (by omega) (by omega)

/-- A step of a reader that meets the condition. -/
theorem inv_readerStep {s : State V} (h : Inv s) {r : ℕ} {spurious : Bool}
    (hlap : NotLapped s (s.readers r)) {ring : Ring (Data V)} {rd : Reader V}
    (hstep : readerStep s.ring (s.readers r) spurious = some (ring, rd)) :
    Inv { s with ring := ring, readers := Function.update s.readers r rd } := by
  have hok := h.readers r
  have hcursor := hok.cursor
  have hplace := hok.place
  have hbusy := hok.busy
  have hwt := s.ring.wt.isLt
  unfold readerStep at hstep
  cases hpc : (s.readers r).pc with
  | idle => simp [hpc] at hstep
  | connecting =>
      simp only [hpc, Option.some.injEq, Prod.mk.injEq] at hstep
      obtain ⟨rfl, rfl⟩ := hstep
      simp only [Place, hpc] at hplace
      refine h.setReader rfl ⟨hok.single, fun hne => absurd rfl hne, hok.within, le_rfl, ?_⟩
      exact hplace.mono List.prefix_rfl hcursor
  | lap =>
      simp only [hpc] at hstep
      simp only [Place, hpc] at hplace
      have hmy := hbusy (by simp [hpc])
      split at hstep <;> cases hstep
      · rename_i hfar
        rw [toNat_sub_cursor hcursor] at hfar
        have hlap' : (s.readers r).queue.cursor.toNat + ringSlots < s.ring.wt.toNat := by omega
        exact h.setReader rfl ⟨hok.single, fun _ => hmy, hok.within, hcursor, hlap', hplace⟩
      · exact h.setReader rfl ⟨hok.single, fun _ => hmy, hok.within, hcursor, hplace⟩
  | resync =>
      simp only [hpc, Option.some.injEq, Prod.mk.injEq] at hstep
      obtain ⟨rfl, rfl⟩ := hstep
      simp only [Place, hpc] at hplace
      obtain ⟨hfar, hbefore⟩ := hplace
      have hmy := hbusy (by simp [hpc])
      have hback : (s.ring.wt - BitVec.ofNat 32 ringSlots).toNat = s.ring.wt.toNat - ringSlots := by
        unfold ringSlots at hfar ⊢
        bv_omega
      refine h.setReader rfl ⟨hok.single, fun _ => hmy, hok.within, ?_, ?_⟩
      · simp only [hback]
        exact Nat.sub_le _ _
      · simp only [Place, hback]
        exact hbefore.mono List.prefix_rfl (by omega)
  | check =>
      simp only [hpc] at hstep
      simp only [Place, hpc] at hplace
      have hmy := hbusy (by simp [hpc])
      split at hstep <;> cases hstep
      · exact h.setReader rfl ⟨hok.single, fun hne => absurd rfl hne, hok.within, hcursor, hplace⟩
      · rename_i hne
        refine h.setReader rfl ⟨hok.single, fun _ => hmy, hok.within, hcursor, ?_, hplace⟩
        exact lt_of_le_of_ne hcursor fun heq => hne (BitVec.eq_of_toNat_eq heq)
  | loadRc0 =>
      simp only [hpc] at hstep
      simp only [Place, hpc] at hplace
      simp only [NotLapped, hpc] at hlap
      obtain ⟨hlt, hbefore⟩ := hplace
      have hmy := hbusy (by simp [hpc])
      have hnext : ((s.readers r).queue.cursor + 1#32).toNat =
          (s.readers r).queue.cursor.toNat + 1 := by
        bv_omega
      split at hstep <;> cases hstep
      · refine h.setReader rfl ⟨hok.single, fun _ => hmy, hok.within, by simp only [hnext]; omega, ?_⟩
        simp only [Place, hnext]
        exact hbefore.mono List.prefix_rfl (Nat.le_succ _)
      · rename_i hbit
        refine h.setReader rfl ⟨hok.single, fun _ => hmy, hok.within, by simp only [hnext]; omega, ?_⟩
        simp only [Place, hnext, Nat.add_sub_cancel]
        exact ⟨Nat.succ_pos _, hbefore,
          Or.inl (live_of_notLapped (hok.single.resolve_left hmy) hbit hlap)⟩
  | copy i epoch =>
      simp only [hpc, Option.some.injEq, Prod.mk.injEq] at hstep
      obtain ⟨rfl, rfl⟩ := hstep
      simp only [Place, hpc] at hplace
      obtain ⟨hpos, hbefore, hslot⟩ := hplace
      have hmy := hbusy (by simp [hpc])
      have hlt : (s.readers r).queue.cursor.toNat - 1 < s.ring.wt.toNat := by omega
      refine h.setReader rfl ⟨hok.single, fun _ => hmy, hok.within, hcursor, hpos, hbefore, ?_⟩
      rcases hslot with hlive | hover
      · exact Or.inl ⟨hlive, copied_of_live h hlive hlt⟩
      · exact Or.inr hover
  | loadRc1 i epoch data =>
      simp only [hpc] at hstep
      simp only [Place, hpc] at hplace
      obtain ⟨hpos, hbefore, hslot⟩ := hplace
      have hmy := hbusy (by simp [hpc])
      split at hstep <;> cases hstep
      · exact h.setReader rfl ⟨hok.single, fun _ => hmy, hok.within, hcursor,
          hbefore.mono List.prefix_rfl (Nat.sub_le _ _)⟩
      · exact h.setReader rfl ⟨hok.single, fun _ => hmy, hok.within, hcursor, hpos, hbefore, hslot⟩
  | loadRc i epoch data =>
      simp only [hpc] at hstep
      simp only [Place, hpc] at hplace
      obtain ⟨hpos, hbefore, hslot⟩ := hplace
      have hmy := hbusy (by simp [hpc])
      split at hstep
      · cases hstep
        exact h.setReader rfl ⟨hok.single, fun _ => hmy, hok.within, hcursor,
          hbefore.mono List.prefix_rfl (Nat.sub_le _ _)⟩
      · rename_i hepoch
        split at hstep
        · -- nobody holds the slot, not even this reader: impossible while it is the reader's
          rename_i hzero
          rcases hslot with ⟨hlive, -⟩ | hover
          · have hbit := hlive.bit
            rw [hzero] at hbit
            exact absurd hbit.eq_zero hmy
          · unfold Overtaken at hover
            rw [not_not.mp hepoch] at hover
            exact absurd hover (lt_irrefl _)
        · cases hstep
          exact h.setReader rfl
            ⟨hok.single, fun _ => hmy, hok.within, hcursor, hpos, hbefore, hslot⟩
  | cas i epoch data rem =>
      simp only [hpc] at hstep
      simp only [Place, hpc] at hplace
      obtain ⟨hpos, hbefore, hslot⟩ := hplace
      have hmy := hbusy (by simp [hpc])
      split at hstep
      · rename_i hsame
        obtain ⟨-, rfl, hepoch⟩ := hsame
        cases hstep
        refine h.clearBit rfl ⟨hok.single, fun hne => absurd rfl hne, hok.within, hcursor, ?_⟩ rfl
        rcases hslot with ⟨-, hcopied⟩ | hover
        · have hd := hbefore.deliver hcopied
          rw [Nat.sub_add_cancel hpos] at hd
          exact hd
        · -- the epoch is still the one first read
          unfold Overtaken at hover
          rw [hepoch] at hover
          exact absurd hover (lt_irrefl _)
      · cases hstep
        exact h.setReader rfl
          ⟨hok.single, fun _ => hmy, hok.within, hcursor, hpos, hbefore, hslot⟩

/-- A reader gains a bit that was free, or gives up. -/
theorem Inv.join {s : State V} (h : Inv s) {r : ℕ} {rd : Reader V} {cc : Cc}
    (hgrow : Within s.ring.cc cc)
    (hapart : ∀ j, j ≠ r → (s.readers j).queue.connected &&& rd.queue.connected = 0#32)
    (hok : ReaderOk { s with ring := { s.ring with cc := cc } } rd) :
    Inv { s with
      ring := { s.ring with cc := cc }
      readers := Function.update s.readers r rd } := by
  have hevolves : ∀ my, Evolves s { s with
      ring := { s.ring with cc := cc }
      readers := Function.update s.readers r rd } my := by
    intro my
    refine ⟨le_rfl, hgrow, List.prefix_rfl, fun i => le_rfl, ?_⟩
    intro c i epoch _ hlive
    exact Or.inl ⟨hlive.owner, hlive.index, hlive.claimed, hlive.epoch, hlive.bit⟩
  refine
    { started := h.started, reserved := h.reserved, epoch := h.epoch, length := h.length
      epochs := h.epochs, bits := fun i => (h.bits i).trans hgrow, data := h.data, apart := ?_
      writer := ?_, readers := ?_ }
  · intro j k hjk
    by_cases hj : j = r
    · have hk : k ≠ r := fun hk => hjk (hj.trans hk.symm)
      simp only [hj, Function.update_self, Function.update_of_ne hk]
      rw [BitVec.and_comm]
      exact hapart k hk
    · by_cases hk : k = r
      · simp only [hk, Function.update_self, Function.update_of_ne hj]
        exact hapart j hj
      · simp only [Function.update_of_ne hj, Function.update_of_ne hk]
        exact h.apart j k hjk
  · have hw := h.writer
    unfold WriterOk at hw ⊢
    cases hpc : s.writer with
    | loadRc force v cc' =>
        simp only [hpc] at hw ⊢
        exact ⟨hw.1, hw.2.1.trans hgrow, hw.2.2⟩
    | cas force v cc' rem epoch =>
        simp only [hpc] at hw ⊢
        exact ⟨hw.1, hw.2.1.trans hgrow, hw.2.2⟩
    | readCc force v =>
        simp only [hpc] at hw ⊢
        exact hw
    | idle | write _ | advance => trivial
  · intro j
    by_cases hj : j = r
    · simp only [hj, Function.update_self]
      refine hok.evolve ⟨le_rfl, Within.refl _, List.prefix_rfl, fun i => le_rfl, ?_⟩
      intro c i epoch _ hlive
      exact Or.inl ⟨hlive.owner, hlive.index, hlive.claimed, hlive.epoch, hlive.bit⟩
    · simp only [Function.update_of_ne hj]
      exact (h.readers j).evolve (hevolves _)

/-- `connect`. -/
theorem inv_connect {s t : State V} (h : Inv s) {r : ℕ} (hstep : step s (.connect r) = some t) :
    Inv t := by
  have hok := h.readers r
  have hplace := hok.place
  simp only [step] at hstep
  split at hstep
  · rename_i hpc
    simp only [Place, hpc] at hplace
    split at hstep
    · cases hstep
      exact h
    · rcases Ring.connHeadConnect_spec s.ring.cc with hfull | ⟨id, hid, hsingle, hfree⟩
      · rw [hfull] at hstep
        simp only [Ring.isConnected, BitVec.and_zero, ne_eq, not_true_eq_false, decide_false,
          Bool.false_eq_true, if_false] at hstep
        cases hstep
        refine h.join (Within.refl _) (fun j _ => BitVec.and_zero) ?_
        exact ⟨Or.inl rfl, fun hne => absurd rfl hne, zero_within _, hok.cursor, hplace⟩
      · rw [hid] at hstep
        have hgrow : Within s.ring.cc (s.ring.cc ||| id) := by
          rw [within_iff]
          intro i hi
          simp [hi]
        have hmine : Within id (s.ring.cc ||| id) := by
          rw [within_iff]
          intro i hi
          simp [hi]
        cases hstep
        refine h.join hgrow ?_ ⟨Or.inr hsingle, fun _ => hsingle.ne_zero, hmine, hok.cursor, ?_⟩
        · exact fun j _ => (h.readers j).within.disjoint_mono hfree
        · unfold Place
          dsimp only
          split <;> first | exact hplace | (rename_i hbad; split at hbad <;> cases hbad)
  · cases hstep

theorem inv_init : Inv (init : State V) where
  started := Nat.two_pow_pos 32
  reserved := by simp [RingSteps.reserved, init, Ring.zeroed]
  epoch := by simp [init, Ring.zeroed]
  length := by simp [written, init, Ring.zeroed]
  epochs := by simp [init, Ring.zeroed]
  bits := fun _ => Within.refl _
  data := by simp [init]
  apart := by simp [init]
  writer := trivial
  readers := fun _ =>
    ⟨Or.inl rfl, fun hne => absurd rfl hne, Within.refl _, le_rfl, [], rfl, List.Pairwise.nil,
      by simp⟩

/-- **One step.**  Every step that meets the condition keeps the invariant. -/
theorem inv_step (s : State V) (a : Action V) (t : State V) (h : Inv s)
    (hguard : Bounded s a ∧ Unlapped s a) (hstep : step s a = some t) : Inv t := by
  cases a with
  | push v => exact inv_start h hguard.1 (Or.inl ⟨v, rfl⟩) hstep
  | forcePush v => exact inv_start h hguard.1 (Or.inr ⟨v, rfl⟩) hstep
  | writer spurious => exact inv_writerStep h hstep
  | connect r => exact inv_connect h hstep
  | pop r =>
      have hok := h.readers r
      have hplace := hok.place
      simp only [step] at hstep
      split at hstep
      · rename_i hpc
        simp only [Place, hpc] at hplace
        split at hstep
        · rename_i hconn
          cases hstep
          refine h.setReader rfl ⟨hok.single, fun _ hzero => ?_, hok.within, hok.cursor, hplace⟩
          rw [Ring.isConnected_iff] at hconn
          rw [hzero] at hconn
          exact hconn BitVec.and_zero
        · cases hstep
      · cases hstep
  | reader r spurious =>
      simp only [step] at hstep
      split at hstep
      · cases hstep
      · rename_i ring rd hreader
        cases hstep
        exact inv_readerStep h hguard.2 hreader

theorem Inv.delivered {s : State V} (h : Inv s) : Delivered s := by
  intro r
  have hplace := (h.readers r).place
  have hbefore : ∃ n, Before s n (s.readers r).received := by
    unfold Place at hplace
    split at hplace
    · exact ⟨_, hplace.2⟩
    · exact ⟨_, hplace.2⟩
    · exact ⟨_, hplace.2.1⟩
    · exact ⟨_, hplace.2.1⟩
    · exact ⟨_, hplace.2.1⟩
    · exact ⟨_, hplace.2.1⟩
    · exact ⟨_, hplace⟩
  obtain ⟨n, l, hl, hsorted, hmem⟩ := hbefore
  exact ⟨l, hl, hsorted, fun x hx => (hmem x hx).1⟩

private theorem started_writerStep {s t : State V} {spurious : Bool}
    (h : writerStep s spurious = some t) : t.started = s.started := by
  unfold writerStep at h
  cases hpc : s.writer <;> simp only [hpc] at h
  case idle => cases h
  case write | advance => cases h; rfl
  all_goals split at h <;> cases h <;> rfl

/-- Only the start of a call is counted. -/
theorem started_step {s t : State V} {a : Action V} (h : step s a = some t) :
    t.started = s.started + if a.begins then 1 else 0 := by
  cases a with
  | push v | forcePush v =>
      simp only [step] at h
      split at h <;> cases h
      rfl
  | writer spurious => exact started_writerStep h
  | connect r =>
      simp only [step] at h
      split at h
      · split at h <;> cases h <;> rfl
      · cases h
  | pop r =>
      simp only [step] at h
      split at h
      · split at h <;> cases h
        rfl
      · cases h
  | reader r spurious =>
      simp only [step] at h
      split at h <;> cases h
      rfl

/-- In a run with fewer than `2 ^ 32` calls no call is the `2 ^ 32`-th. -/
theorem bounded_of_count {actions : List (Action V)} :
    ∀ {s : State V}, s.started + actions.countP Action.begins < 2 ^ 32 →
      (machine V).GuardedFrom Bounded s actions := by
  induction actions with
  | nil => exact fun _ => trivial
  | cons a rest ih =>
      intro s hcount
      rw [List.countP_cons] at hcount
      refine ⟨?_, ?_⟩
      · cases a <;> simp only [Bounded, Action.begins, if_true] at hcount ⊢
        · omega
        · omega
      · cases hstep : (machine V).step s a with
        | none => trivial
        | some t =>
            have hstarted := started_step hstep
            exact ih (by omega)

/-- **Ordered delivery.**  In every run with fewer than `2 ^ 32` pushes in which no reader
starts to read a slot that has been claimed for a later lap, every reader gets pushes in
strictly increasing order, each with the value it wrote. -/
theorem delivered_of_guarded {actions : List (Action V)} {s : State V}
    (hcount : actions.countP Action.begins < 2 ^ 32)
    (hguard : (machine V).Guarded Unlapped actions)
    (hrun : (machine V).run actions = some s) : Delivered s := by
  have hbounded : (machine V).Guarded Bounded actions :=
    bounded_of_count (by simpa [machine, init] using hcount)
  exact (Machine.invariant_of_guarded (M := machine V) inv_init inv_step (hbounded.and hguard)
    hrun).delivered

/-- A reader connects and pops one value that was pushed. -/
def orderlyRun : List (Action ℕ) :=
  [.connect 0, .reader 0 false] ++ pushSteps 7 ++
    [.pop 0, .reader 0 false, .reader 0 false, .reader 0 false, .reader 0 false, .reader 0 false,
      .reader 0 false, .reader 0 true, .reader 0 false, .reader 0 false]

theorem delivered_orderlyRun : ∃ s, (machine ℕ).run orderlyRun = some s ∧ Delivered s := by
  have hsome : ((machine ℕ).run orderlyRun).isSome = true := by decide +kernel
  obtain ⟨s, hs⟩ := Option.isSome_iff_exists.mp hsome
  exact ⟨s, hs, delivered_of_guarded (by decide) (by decide +kernel) hs⟩

/-! ## A reader one lap behind -/

/-- One reader is connected and `n` values, at most a lap, have been pushed. -/
def filled (n : ℕ) : State ℕ :=
  { ring :=
      { cc := 1#32, wt := BitVec.ofNat 32 n, epoch := 0#32
        elems := fun i => if i.val < n then ⟨1#32, 0#32, some (i.val, i.val)⟩ else ⟨0#32, 0#32, none⟩ }
    writer := .idle
    readers := Function.update (fun _ => ⟨⟨0#32, 0#32⟩, .idle, []⟩) 0 ⟨⟨1#32, 0#32⟩, .idle, []⟩
    pushed := List.range n
    started := n }

theorem push_filled {n : ℕ} (hn : n < 256) :
    (filled n).ring.push (some (n, n)) = some (⟨0#32, 0#32, none⟩, (filled (n + 1)).ring) := by
  have hindex : indexOf (BitVec.ofNat 32 n) = ⟨n, hn⟩ := by
    apply Fin.ext
    simp only [indexOf, BitVec.toNat_ofNat]
    omega
  have hhead : (filled n).ring.head = ⟨0#32, 0#32, none⟩ := by
    simp [Ring.head, filled, hindex]
  have hfull : (filled n).ring.full = false := by
    simp [Ring.full, hhead]
  have hover : (filled n).ring.overwrite (some (n, n)) = (filled (n + 1)).ring := by
    simp only [Ring.overwrite, filled, hindex]
    congr 1
    · simp [BitVec.ofNat_add]
    · funext i
      by_cases hi : i = ⟨n, hn⟩
      · subst hi
        simp
      · have hne : i.val ≠ n := fun h => hi (Fin.ext h)
        have hiff : i.val < n + 1 ↔ i.val < n := by omega
        simp [hi, hiff]
  rw [Ring.push, hhead, hfull, hover]
  rfl

/-- Pushing the numbers below `n`. -/
def fillSteps (n : ℕ) : List (Action ℕ) := (List.range n).flatMap pushSteps

theorem run_fillSteps {n : ℕ} (hn : n ≤ 256) :
    (machine ℕ).runFrom (filled 0) (fillSteps n) = some (filled n) := by
  induction n with
  | zero => rfl
  | succ n ih =>
      rw [fillSteps, List.range_succ, List.flatMap_append, Machine.runFrom_append]
      refine ⟨filled n, ih (by omega), ?_⟩
      have hlength : (filled n).pushed.length = n := List.length_range
      rw [List.flatMap_singleton, run_pushSteps rfl (by simpa [hlength] using push_filled (by omega))]
      simp [filled, List.range_succ]

/-- The steps of one `pop` that delivers at the first attempt. -/
def popSteps (r : ℕ) : List (Action ℕ) :=
  .pop r :: List.replicate 7 (.reader r false)

/-- The ring is full; the writer forces push 256 and has not yet advanced the write index.
The reader, at cursor 0, passes the lap check and pops twice. -/
def lapSteps : List (Action ℕ) :=
  [.forcePush 256, .writer false, .writer false, .writer false, .writer false] ++
    popSteps 0 ++ popSteps 0

/-- Not every run delivers in order: push 256 arrives before push 1. -/
theorem run_lapped : ¬ ∀ (actions : List (Action ℕ)) (s : State ℕ),
    actions.countP Action.begins < 2 ^ 32 → (machine ℕ).run actions = some s → Delivered s := by
  intro hall
  have hconnect : (machine ℕ).run [.connect 0, .reader 0 false] = some (filled 0) := by
    simp [Machine.run, Machine.runFrom, machine, step, readerStep, init, filled, Ring.zeroed,
      Ring.isConnected, Ring.connHeadConnect]
  have hlapped : ((machine ℕ).runFrom (filled 256) lapSteps).map (fun s => (s.readers 0).received) =
      some [some (1, 1), some (256, 256)] := by
    decide +kernel
  obtain ⟨s, hs, hreceived⟩ := Option.map_eq_some_iff.mp hlapped
  have hrun : (machine ℕ).run ([.connect 0, .reader 0 false] ++ fillSteps 256 ++ lapSteps) =
      some s := by
    rw [Machine.run, Machine.runFrom_append]
    refine ⟨filled 256, ?_, hs⟩
    rw [Machine.runFrom_append]
    exact ⟨filled 0, hconnect, run_fillSteps le_rfl⟩
  obtain ⟨l, hl, hsorted, -⟩ := hall _ s (by decide +kernel) hrun 0
  rw [hreceived] at hl
  have hlist : l = [(1, 1), (256, 256)] :=
    List.map_injective_iff.mpr (Option.some_injective _) hl.symm
  rw [hlist] at hsorted
  simp at hsorted

end DzIpc.LibIpc.RingSteps
