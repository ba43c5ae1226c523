import DzIpc.LibIpc.Connections
import DzIpc.LibIpc.RingOrder

/-!
# Why the broadcast ring is full

One writer pushes and forces pushes, and any number of readers connect, pop and disconnect; a
call is one step.  `push` refuses when the slot at the write index still carries the bit of a
connected reader in the present epoch.

* `Inv` says what such a bit means: the message in the slot was published after its reader
  connected, and the reader has neither popped nor skipped it.
* `fullOfUnread_of_guarded` is the result for runs in which no reader is given a bit that a slot
  remembers from an earlier one, and `refused_for_nothing` a run in which one is.
-/

namespace DzIpc.LibIpc.RingFull

open Connections (Respects connect_respects disconnect_respects)
open RingSteps (slotOf slotOf_lap slotOf_ne)

variable {D : Type*}

/-! ## The ring, its writer and its readers -/

/-- A reader with its place in the sequence of messages. -/
structure Reader where
  queue : Queue
  /-- How many messages had been published when it connected. -/
  joined : ℕ
  /-- The messages before this one were popped or skipped. -/
  seen : ℕ

/-- The ring, the number of messages published on it and the readers. -/
structure State (D : Type*) where
  ring : Ring D
  published : ℕ
  readers : ℕ → Reader

inductive Action (D : Type*) where
  | connect (r : ℕ)
  | disconnect (r : ℕ)
  | push (d : D)
  | forcePush (d : D)
  | pop (r : ℕ)

/-- Store a ring and a reader. -/
def State.set (s : State D) (q : Ring D) (r : ℕ) (rd : Reader) : State D :=
  { s with ring := q, readers := Function.update s.readers r rd }

/-- `queue_base::connect`; a reader that gains a bit starts behind the last message. -/
def State.connect (s : State D) (r : ℕ) : State D :=
  let rd := s.readers r
  let next := s.ring.connect rd.queue
  if s.ring.isConnected rd.queue then s
  else s.set next.1 r ⟨next.2, s.published, s.published⟩

def State.disconnect (s : State D) (r : ℕ) : State D :=
  let rd := s.readers r
  let next := s.ring.disconnect rd.queue
  s.set next.1 r { rd with queue := next.2 }

/-- `pop`; what lies behind the cursor it leaves was popped or skipped. -/
def State.pop (s : State D) (r : ℕ) : State D :=
  let rd := s.readers r
  let next := (s.ring.pop rd.queue).2
  s.set next.1 r { rd with
    queue := next.2
    seen := s.published - (s.ring.wt - next.2.cursor).toNat }

def step (s : State D) : Action D → Option (State D)
  | .connect r => some (s.connect r)
  | .disconnect r => some (s.disconnect r)
  | .push d =>
      match s.ring.push d with
      | some (_, q) => some { s with ring := q, published := s.published + 1 }
      | none => some s
  | .forcePush d =>
      match s.ring.forcePush d with
      | (some _, q) => some { s with ring := q, published := s.published + 1 }
      | (none, q) => some { s with ring := q }
  | .pop r => some (s.pop r)

/-- The zeroed ring, nobody connected. -/
def machine (blank : D) : Machine (State D) (Action D) :=
  { init := ⟨Ring.zeroed blank, 0, fun _ => ⟨⟨0#32, 0#32⟩, 0, 0⟩⟩, step := step }

/-! ## The claim and the condition -/

/-- Message `n` was published after the reader connected, and the reader has neither popped
nor skipped it. -/
structure Unread (published : ℕ) (rd : Reader) (n : ℕ) : Prop where
  published : n < published
  joined : rd.joined ≤ n
  seen : rd.seen ≤ n

/-- If `push` refuses with a reader connected, some connected reader has an unread message. -/
def FullOfUnread (s : State D) : Prop :=
  s.ring.cc ≠ 0#32 → ∀ d, s.ring.push d = none →
    ∃ r n, s.ring.isConnected (s.readers r).queue = true ∧ Unread s.published (s.readers r) n

/-- The bit a reader gains is in no slot of the present epoch, a forced push does not come back
to the epoch of a slot that is still held, and no reader pops `2 ^ 32` messages late. -/
def Fresh (s : State D) : Action D → Prop
  | .connect r => s.ring.isConnected (s.readers r).queue = true ∨
      ∀ i, (s.ring.elems i).epoch = s.ring.epoch →
        (s.ring.elems i).rem &&& (s.ring.connect (s.readers r).queue).2.connected = 0#32
  | .forcePush _ => ∀ i, (s.ring.elems i).epoch = s.ring.epoch + 1#32 →
      s.ring.cc &&& (s.ring.elems i).rem = 0#32
  | .pop r => s.published < (s.readers r).seen + 2 ^ 32
  | _ => True

/-- The bits of the readers: each is a bit of the connections, no two readers have the same,
and every bit of the connections has its reader. -/
structure Owned (cc : Cc) (my : ℕ → Cc) : Prop where
  held : ∀ r, Connections.Held cc (my r)
  apart : ∀ {r r'}, r ≠ r' → my r &&& my r' = 0#32
  owner : ∀ k, cc.getLsbD k = true → ∃ r, (my r).getLsbD k = true

/-- The word a reader keeps. -/
def State.my (s : State D) (r : ℕ) : Cc := (s.readers r).queue.connected

/-- A connected reader's cursor stands behind what it has seen. -/
structure OnTrack (published : ℕ) (rd : Reader) : Prop where
  cursor : rd.queue.cursor = BitVec.ofNat 32 rd.seen
  joined : rd.joined ≤ rd.seen
  seen : rd.seen ≤ published

/-- A slot that carries a reader's bit holds a message the reader has not seen. -/
def Awaits (published seen : ℕ) (i : Fin 256) : Prop :=
  ∃ n, i = slotOf n ∧ n < published ∧ published ≤ n + 256 ∧ seen ≤ n

structure Inv (s : State D) : Prop where
  wt : s.ring.wt = BitVec.ofNat 32 s.published
  owned : Owned s.ring.cc s.my
  track : ∀ r, s.my r ≠ 0#32 → OnTrack s.published (s.readers r)
  awaits : ∀ r i, (s.ring.elems i).epoch = s.ring.epoch →
    (s.ring.elems i).rem &&& s.my r ≠ 0#32 → Awaits s.published (s.readers r).seen i

/-! ## Counters and slots -/

theorem indexOf_ofNat (n : ℕ) : indexOf (BitVec.ofNat 32 n) = slotOf n := by
  apply Fin.ext
  simp only [indexOf, slotOf, BitVec.toNat_ofNat]
  omega

theorem ofNat_succ (n : ℕ) : BitVec.ofNat 32 (n + 1) = BitVec.ofNat 32 n + 1#32 :=
  BitVec.ofNat_add n 1

/-- The distance of two counters less than a round apart. -/
theorem toNat_ofNat_sub {n m : ℕ} (hle : n ≤ m) (hlt : m < n + 2 ^ 32) :
    (BitVec.ofNat 32 m - BitVec.ofNat 32 n).toNat = m - n := by
  obtain ⟨k, rfl⟩ : ∃ k, m = n + k := ⟨m - n, by omega⟩
  rw [BitVec.ofNat_add, BitVec.add_comm, BitVec.add_sub_cancel, BitVec.toNat_ofNat]
  omega

/-- The loop of `pop` from message `p`: it stops behind some message `p'`, and every slot it
passed over did not carry the reader's bit. -/
theorem popLoop_passed {q : Ring D} {my : Cc} :
    ∀ {left p : ℕ} {cur : U2} {slot : Option (Fin 256)},
      q.popLoop my left (BitVec.ofNat 32 p) = (cur, slot) →
      ∃ p', cur = BitVec.ofNat 32 p' ∧ p ≤ p' ∧ p' ≤ p + left ∧
        ∀ m, p ≤ m → m < p' → slot ≠ some (slotOf m) → (q.elems (slotOf m)).rem &&& my = 0#32 := by
  intro left
  induction left with
  | zero =>
      intro p cur slot h
      simp only [Ring.popLoop, Prod.mk.injEq] at h
      exact ⟨p, h.1.symm, Nat.le_refl p, Nat.le_refl p, fun m hp hm => by omega⟩
  | succ left ih =>
      intro p cur slot h
      rw [Ring.popLoop, ← ofNat_succ, indexOf_ofNat] at h
      split at h
      · rename_i hskip
        obtain ⟨p', hcur, hle, hbound, hpassed⟩ := ih h
        refine ⟨p', hcur, by omega, by omega, fun m hp hm hslot => ?_⟩
        rcases Nat.eq_or_lt_of_le hp with rfl | hlt
        · exact hskip.2
        · exact hpassed m hlt hm hslot
      · simp only [Prod.mk.injEq] at h
        obtain ⟨hcur, hslot⟩ := h
        refine ⟨p + 1, hcur.symm, by omega, by omega, fun m hp hm hne => ?_⟩
        obtain rfl : m = p := by omega
        exact absurd hslot.symm hne

/-! ## The bits -/

section Owned

variable {cc : Cc} {my : ℕ → Cc}

/-- An operation of one reader on its own bit. -/
theorem Owned.act (h : Owned cc my) {q : Ring D} {r : ℕ} {rd : Queue} {next : Ring D × Queue}
    (hcc : q.cc = cc) (hrd : rd.connected = my r) (hnext : Respects q rd next)
    (howner : ∀ k, next.1.cc.getLsbD k = true →
      next.2.connected.getLsbD k = true ∨ cc.getLsbD k = true ∧ (my r).getLsbD k = false) :
    Owned next.1.cc (Function.update my r next.2.connected) := by
  have hother : ∀ {r'}, r' ≠ r →
      Connections.Held next.1.cc (my r') ∧ next.2.connected &&& my r' = 0#32 := by
    intro r' hne
    rcases h.held r' with hnone | ⟨hsingle, hwithin⟩
    · exact ⟨.inl hnone, by rw [hnone, BitVec.and_zero]⟩
    · obtain ⟨hkept, hdisjoint⟩ := hnext.others (my r') (by rw [hcc]; exact hwithin)
        (by rw [hrd]; exact h.apart (Ne.symm hne))
      exact ⟨.inr ⟨hsingle, hkept⟩, hdisjoint⟩
  constructor
  case held =>
    intro r'
    by_cases hr : r' = r
    · rw [hr, Function.update_self]
      exact hnext.held
    · rw [Function.update_of_ne hr]
      exact (hother hr).1
  case apart =>
    intro r' r'' hne
    by_cases hr : r' = r
    · subst hr
      rw [Function.update_self, Function.update_of_ne (Ne.symm hne)]
      exact (hother (Ne.symm hne)).2
    · rw [Function.update_of_ne hr]
      by_cases hr' : r'' = r
      · rw [hr', Function.update_self, BitVec.and_comm]
        exact (hother hr).2
      · rw [Function.update_of_ne hr']
        exact h.apart hne
  case owner =>
    intro k hk
    rcases howner k hk with hnew | ⟨hold, hnot⟩
    · exact ⟨r, by rw [Function.update_self]; exact hnew⟩
    · obtain ⟨r', hr'⟩ := h.owner k hold
      have hne : r' ≠ r := by
        rintro rfl
        rw [hr'] at hnot
        cases hnot
      exact ⟨r', by rw [Function.update_of_ne hne]; exact hr'⟩

end Owned

theorem connect_owner {q : Ring D} {r : Queue} (h : Connections.Held q.cc r.connected)
    (hnot : q.isConnected r = false) (k : ℕ) (hk : (q.connect r).1.cc.getLsbD k = true) :
    (q.connect r).2.connected.getLsbD k = true ∨
      q.cc.getLsbD k = true ∧ r.connected.getLsbD k = false := by
  have hnone : r.connected = 0#32 := by
    by_contra hne
    rw [h.isConnected_iff.mpr hne] at hnot
    cases hnot
  rcases q.connect_cases r with ⟨hconn, -⟩ | ⟨-, heq⟩ | ⟨id, -, -, -, heq⟩
  · rw [hconn] at hnot
    cases hnot
  · rw [heq] at hk
    exact .inr ⟨hk, by rw [hnone, BitVec.getLsbD_zero]⟩
  · rw [heq] at hk ⊢
    rw [BitVec.getLsbD_or, Bool.or_eq_true] at hk
    rcases hk with hold | hnew
    · exact .inr ⟨hold, by rw [hnone, BitVec.getLsbD_zero]⟩
    · exact .inl hnew

theorem disconnect_owner {q : Ring D} {r : Queue} (h : Connections.Held q.cc r.connected) (k : ℕ)
    (hk : (q.disconnect r).1.cc.getLsbD k = true) :
    (q.disconnect r).2.connected.getLsbD k = true ∨
      q.cc.getLsbD k = true ∧ r.connected.getLsbD k = false := by
  unfold Ring.disconnect at hk ⊢
  split at hk
  · right
    simp only [BitVec.getLsbD_and, BitVec.getLsbD_not, Bool.and_eq_true, Bool.not_eq_true'] at hk
    exact ⟨hk.1, hk.2.2⟩
  · rename_i hnot
    right
    have hnone : r.connected = 0#32 := by
      by_contra hne
      exact hnot (h.isConnected_iff.mpr hne)
    exact ⟨hk, by rw [hnone, BitVec.getLsbD_zero]⟩

/-! ## The steps -/

section Steps

variable {s t : State D}

@[simp] theorem set_readers (s : State D) (q : Ring D) (r r' : ℕ) (rd : Reader) :
    (s.set q r rd).readers r' = if r' = r then rd else s.readers r' := by
  simp [State.set, Function.update_apply]

theorem set_my (s : State D) (q : Ring D) (r : ℕ) (rd : Reader) :
    (s.set q r rd).my = Function.update s.my r rd.queue.connected := by
  funext r'
  rw [State.my, set_readers, Function.update_apply]
  split <;> rfl

/-- A step of one reader that may clear bits in the slots. -/
theorem Inv.set (h : Inv s) {q : Ring D} {r : ℕ} {rd : Reader} (hwt : q.wt = s.ring.wt)
    (hepoch : q.epoch = s.ring.epoch)
    (helem : ∀ i, (q.elems i).epoch = (s.ring.elems i).epoch ∧
      ∀ my, (q.elems i).rem &&& my ≠ 0#32 → (s.ring.elems i).rem &&& my ≠ 0#32)
    (howned : Owned q.cc (Function.update s.my r rd.queue.connected))
    (htrack : rd.queue.connected ≠ 0#32 → OnTrack s.published rd)
    (hawaits : ∀ i, (q.elems i).epoch = q.epoch → (q.elems i).rem &&& rd.queue.connected ≠ 0#32 →
      Awaits s.published rd.seen i) : Inv (s.set q r rd) := by
  constructor
  case wt => exact hwt.trans h.wt
  case owned =>
    rw [set_my]
    exact howned
  case track =>
    intro r' hmy
    rw [State.my, set_readers] at hmy
    rw [set_readers]
    split at hmy
    · rw [if_pos ‹_›]
      exact htrack hmy
    · rw [if_neg ‹_›]
      exact h.track r' hmy
  case awaits =>
    intro r' i hi hmy
    rw [State.my, set_readers] at hmy
    rw [set_readers]
    split at hmy
    · rw [if_pos ‹_›]
      exact hawaits i hi hmy
    · rw [if_neg ‹_›]
      have hold : (s.ring.elems i).epoch = s.ring.epoch := by
        rw [← (helem i).1, ← hepoch]
        exact hi
      exact h.awaits r' i hold ((helem i).2 _ hmy)

/-- What `connect` leaves alone, and where it starts a reader that gained a bit. -/
theorem connect_keeps (q : Ring D) (r : Queue) (hnot : q.isConnected r = false) :
    (q.connect r).1.wt = q.wt ∧ (q.connect r).1.epoch = q.epoch ∧
      (q.connect r).1.elems = q.elems ∧
      ((q.connect r).2.connected ≠ 0#32 → (q.connect r).2.cursor = q.wt) := by
  rcases q.connect_cases r with ⟨hconn, -⟩ | ⟨-, heq⟩ | ⟨id, -, -, -, heq⟩
  · rw [hconn] at hnot
    cases hnot
  · rw [heq]
    exact ⟨rfl, rfl, rfl, fun hne => absurd rfl hne⟩
  · rw [heq]
    exact ⟨rfl, rfl, rfl, fun _ => rfl⟩

theorem Inv.connect (h : Inv s) {r : ℕ} (hfresh : Fresh s (.connect r)) : Inv (s.connect r) := by
  unfold State.connect
  cases hconn : s.ring.isConnected (s.readers r).queue with
  | true =>
      simp only [hconn, if_true]
      exact h
  | false =>
      simp only [hconn, Bool.false_eq_true, if_false]
      have hheld : Connections.Held s.ring.cc (s.readers r).queue.connected := h.owned.held r
      obtain ⟨hwt, hepoch, helems, hcursor⟩ := connect_keeps s.ring _ hconn
      refine h.set hwt hepoch (fun i => ?_) ?_ (fun hne => ?_) (fun i hi hmy => ?_)
      · rw [helems]
        exact ⟨rfl, fun _ => id⟩
      · exact h.owned.act rfl rfl (connect_respects hheld) (connect_owner hheld hconn)
      · exact ⟨(hcursor hne).trans h.wt, Nat.le_refl _, Nat.le_refl _⟩
      · rw [helems] at hi hmy
        rw [hepoch] at hi
        rcases hfresh with hbefore | hclean
        · rw [hconn] at hbefore
          cases hbefore
        · exact absurd (hclean i hi) hmy

/-- After a `disconnect` the reader has no bit, and the slots are as they were. -/
theorem disconnect_keeps {q : Ring D} {r : Queue} (h : Connections.Held q.cc r.connected) :
    (q.disconnect r).1.wt = q.wt ∧ (q.disconnect r).1.epoch = q.epoch ∧
      (q.disconnect r).1.elems = q.elems ∧ (q.disconnect r).2.connected = 0#32 := by
  unfold Ring.disconnect
  split
  · exact ⟨rfl, rfl, rfl, rfl⟩
  · rename_i hnot
    refine ⟨rfl, rfl, rfl, ?_⟩
    by_contra hne
    exact hnot (h.isConnected_iff.mpr hne)

theorem Inv.disconnect (h : Inv s) (r : ℕ) : Inv (s.disconnect r) := by
  have hheld : Connections.Held s.ring.cc (s.readers r).queue.connected := h.owned.held r
  obtain ⟨hwt, hepoch, helems, hnone⟩ := disconnect_keeps hheld
  refine h.set hwt hepoch (fun i => ?_) ?_ (fun hne => absurd hnone hne) (fun i _ hmy => ?_)
  · rw [helems]
    exact ⟨rfl, fun _ => id⟩
  · exact h.owned.act rfl rfl (disconnect_respects hheld) (disconnect_owner hheld)
  · dsimp only at hmy
    rw [hnone, BitVec.and_zero] at hmy
    exact absurd rfl hmy

/-- The new message stands in the slot for every reader that is connected. -/
theorem Inv.overwrite (h : Inv s) (d : D) :
    Inv { s with ring := s.ring.overwrite d, published := s.published + 1 } := by
  constructor
  case wt =>
    rw [ofNat_succ, ← h.wt]
    rfl
  case owned => exact h.owned
  case track =>
    intro r hmy
    have htrack := h.track r hmy
    exact ⟨htrack.cursor, htrack.joined, Nat.le_succ_of_le htrack.seen⟩
  case awaits =>
    intro r i hi hmy
    have hne : s.my r ≠ 0#32 := by
      intro hzero
      apply hmy
      change _ &&& s.my r = 0#32
      rw [hzero, BitVec.and_zero]
    have hslot : indexOf s.ring.wt = slotOf s.published := by
      rw [h.wt, indexOf_ofNat]
    by_cases hhead : i = indexOf s.ring.wt
    · have hlap : s.published + 1 ≤ s.published + 256 := by omega
      exact ⟨s.published, hhead.trans hslot, Nat.lt_succ_self _, hlap, (h.track r hne).seen⟩
    · change ((s.ring.overwrite d).elems i).epoch = s.ring.epoch at hi
      change ((s.ring.overwrite d).elems i).rem &&& s.my r ≠ 0#32 at hmy
      rw [Ring.overwrite_elems_of_ne _ _ hhead] at hi hmy
      obtain ⟨n, hn, hlt, hlap, hseen⟩ := h.awaits r i hi hmy
      have hne : s.published ≠ n + 256 := by
        intro heq
        rw [hslot, heq, slotOf_lap] at hhead
        exact hhead hn
      have hlast : s.published + 1 ≤ n + 256 := by omega
      exact ⟨n, hn, Nat.lt_succ_of_lt hlt, hlast, hseen⟩

/-- A new epoch, in which no slot is held. -/
theorem Inv.raise (h : Inv s) {d : D} (hfresh : Fresh s (.forcePush d)) :
    Inv { s with ring := { s.ring with epoch := s.ring.epoch + 1#32 } } := by
  refine ⟨h.wt, h.owned, h.track, fun r i hi hmy => ?_⟩
  have hclear := hfresh i hi
  refine absurd ?_ hmy
  rcases h.owned.held r with hnone | ⟨-, hwithin⟩
  · change _ &&& s.my r = 0#32
    rw [hnone, BitVec.and_zero]
  · change (s.ring.elems i).rem &&& s.my r = 0#32
    rw [BitVec.and_comm]
    exact hwithin.disjoint_mono hclear

/-- The two results of `pop` from the slot it stopped at. -/
theorem pop_eq {q : Ring D} {r : Queue} {cur : U2} {slot : Option (Fin 256)}
    (h : q.nextSlot r = (cur, slot)) :
    (q.pop r).2 = (slot.elim q (fun i => q.clear i r.connected), { r with cursor := cur }) := by
  unfold Ring.pop
  rw [h]
  cases slot with
  | none => rfl
  | some i => rfl

/-- The slots after a pop: one of them may have lost the reader's bit. -/
theorem cleared_elems (q : Ring D) (slot : Option (Fin 256)) (my : Cc) (i : Fin 256) :
    ((slot.elim q (fun j => q.clear j my)).elems i).epoch = (q.elems i).epoch ∧
      ∀ other, ((slot.elim q (fun j => q.clear j my)).elems i).rem &&& other ≠ 0#32 →
        (q.elems i).rem &&& other ≠ 0#32 := by
  cases slot with
  | none => exact ⟨rfl, fun _ => id⟩
  | some j =>
      by_cases hij : i = j
      · subst hij
        rw [Option.elim_some, Ring.clear_elems_self]
        refine ⟨rfl, fun other h hzero => h ?_⟩
        exact (Mask.and_within_left _ _).disjoint_mono hzero
      · rw [Option.elim_some, Ring.clear_elems_of_ne _ _ hij]
        exact ⟨rfl, fun _ => id⟩

/-- A slot a pop delivered from does not carry the reader's bit any more. -/
theorem cleared_self (q : Ring D) (my : Cc) (i : Fin 256) :
    ((q.clear i my).elems i).rem &&& my = 0#32 := by
  rw [Ring.clear_elems_self]
  exact Mask.within_not.mp (by rw [BitVec.and_comm]; exact Mask.and_within_left _ _)

/-- Where the lap check of `pop` puts the cursor. -/
theorem resync_eq {q : Ring D} {published seen : ℕ} (hwt : q.wt = BitVec.ofNat 32 published)
    (hseen : seen ≤ published) (hlate : published < seen + 2 ^ 32) :
    q.resync (BitVec.ofNat 32 seen) = BitVec.ofNat 32 (max seen (published - 256)) := by
  unfold Ring.resync
  rw [hwt, toNat_ofNat_sub hseen hlate]
  split
  · rename_i hlap
    have hlap : 256 < published - seen := hlap
    obtain ⟨k, rfl⟩ : ∃ k, published = k + 256 := ⟨published - 256, by omega⟩
    have hmax : max seen (k + 256 - 256) = k := by omega
    rw [hmax, BitVec.ofNat_add]
    exact BitVec.add_sub_cancel _ _
  · rename_i hlap
    have hlap : ¬ 256 < published - seen := hlap
    have hmax : max seen (published - 256) = seen := by omega
    rw [hmax]

/-- A pop of a connected reader: the messages up to its new cursor are behind it, and a slot
that still carries its bit holds a later one. -/
theorem Inv.pop_track (h : Inv s) {r : ℕ} (hfresh : Fresh s (.pop r)) (hmy : s.my r ≠ 0#32)
    {cur : U2} {slot : Option (Fin 256)} (hnext : s.ring.nextSlot (s.readers r).queue = (cur, slot)) :
    ∃ p, cur = BitVec.ofNat 32 p ∧ (s.readers r).seen ≤ p ∧ p ≤ s.published ∧
      s.published - (s.ring.wt - cur).toNat = p ∧
      ∀ n, (s.readers r).seen ≤ n → s.published ≤ n + 256 → n < p → slot ≠ some (slotOf n) →
        (s.ring.elems (slotOf n)).rem &&& s.my r = 0#32 := by
  have htrack := h.track r hmy
  unfold Ring.nextSlot at hnext
  dsimp only at hnext
  have hseen := htrack.seen
  have hlate : s.published < (s.readers r).seen + 2 ^ 32 := hfresh
  rw [htrack.cursor, resync_eq h.wt hseen hlate, h.wt, toNat_ofNat_sub (by omega) (by omega)]
    at hnext
  obtain ⟨p, hcur, hle, hbound, hpassed⟩ := popLoop_passed hnext
  have hpub : p ≤ s.published := by omega
  refine ⟨p, hcur, by omega, hpub, ?_, fun n hn hlap hlt => hpassed n (by omega) hlt⟩
  rw [hcur, h.wt, toNat_ofNat_sub hpub (by omega)]
  omega

theorem Inv.pop (h : Inv s) {r : ℕ} (hfresh : Fresh s (.pop r)) : Inv (s.pop r) := by
  rcases hnext : s.ring.nextSlot (s.readers r).queue with ⟨cur, slot⟩
  have hpop := pop_eq hnext
  unfold State.pop
  dsimp only
  rw [hpop]
  have hwt : (slot.elim s.ring fun i => s.ring.clear i (s.my r)).wt = s.ring.wt := by
    cases slot <;> rfl
  have hepoch : (slot.elim s.ring fun i => s.ring.clear i (s.my r)).epoch = s.ring.epoch := by
    cases slot <;> rfl
  have hcc : (slot.elim s.ring fun i => s.ring.clear i (s.my r)).cc = s.ring.cc := by
    cases slot <;> rfl
  have hsame : Function.update s.my r (s.my r) = s.my := Function.update_eq_self r s.my
  refine h.set hwt hepoch (fun i => cleared_elems _ _ _ i) ?_ (fun hmy => ?_) (fun i hi hbit => ?_)
  · change Owned (slot.elim s.ring fun i => s.ring.clear i (s.my r)).cc
      (Function.update s.my r (s.my r))
    rw [hsame, hcc]
    exact h.owned
  · obtain ⟨p, hcur, hle, hpub, hseen, -⟩ := h.pop_track hfresh hmy hnext
    exact ⟨by rw [hseen]; exact hcur, by rw [hseen]; exact (h.track r hmy).joined.trans hle,
      by rw [hseen]; exact hpub⟩
  · have hold := (cleared_elems s.ring slot (s.my r) i).2 _ hbit
    have hmy : s.my r ≠ 0#32 := by
      intro hzero
      apply hold
      change _ &&& s.my r = 0#32
      rw [hzero, BitVec.and_zero]
    obtain ⟨p, -, -, -, hseen, hpassed⟩ := h.pop_track hfresh hmy hnext
    have hiold : (s.ring.elems i).epoch = s.ring.epoch := by
      rw [← (cleared_elems s.ring slot (s.my r) i).1, ← hepoch]
      exact hi
    obtain ⟨n, hn, hlt, hlap, hle⟩ := h.awaits r i hiold hold
    have hbehind : ¬ n < p := by
      intro hlt
      rw [hn] at hold hbit
      by_cases hslot : slot = some (slotOf n)
      · rw [hslot] at hbit
        exact hbit (cleared_self s.ring (s.my r) (slotOf n))
      · exact hold (hpassed n hle hlap hlt hslot)
    rw [hseen]
    exact ⟨n, hn, hlt, hlap, Nat.not_lt.mp hbehind⟩

theorem Inv.step (h : Inv s) {a : Action D} (hfresh : Fresh s a) (hstep : step s a = some t) :
    Inv t := by
  cases a with
  | connect r =>
      cases hstep
      exact h.connect hfresh
  | disconnect r =>
      cases hstep
      exact h.disconnect r
  | pop r =>
      cases hstep
      exact h.pop hfresh
  | push d =>
      simp only [RingFull.step] at hstep
      split at hstep
      · rename_i old q hpush
        cases hstep
        obtain ⟨-, -, -, rfl⟩ := Ring.push_eq_some hpush
        exact h.overwrite d
      · cases hstep
        exact h
  | forcePush d =>
      have hraised := h.raise hfresh
      simp only [RingFull.step, Ring.forcePush] at hstep
      split at hstep
      · rename_i old q hpush
        cases hstep
        split at hpush
        · cases hpush
        · cases hpush
          exact hraised.overwrite d
      · rename_i q hpush
        cases hstep
        split at hpush
        · cases hpush
          exact hraised
        · cases hpush

/-- What `push` refuses for. -/
theorem full_of_push_eq_none {q : Ring D} {d : D} (hcc : q.cc ≠ 0#32) (h : q.push d = none) :
    q.cc &&& q.head.rem ≠ 0#32 ∧ q.head.epoch = q.epoch := by
  rw [Ring.push, if_neg hcc] at h
  split at h
  · rename_i hfull
    exact q.full_iff.mp hfull
  · cases h

theorem Inv.fullOfUnread (h : Inv s) : FullOfUnread s := by
  intro hcc d hpush
  obtain ⟨hmeets, hepoch⟩ := full_of_push_eq_none hcc hpush
  obtain ⟨k, hk⟩ := (Mask.ne_zero_iff _).mp hmeets
  rw [BitVec.getLsbD_and, Bool.and_eq_true] at hk
  obtain ⟨r, hr⟩ := h.owned.owner k hk.1
  -- the reader that has the bit is connected, and the slot waits for it
  have hmy : s.my r ≠ 0#32 := (Mask.ne_zero_iff _).mpr ⟨k, hr⟩
  have hbit : s.ring.head.rem &&& s.my r ≠ 0#32 :=
    (Mask.ne_zero_iff _).mpr ⟨k, by rw [BitVec.getLsbD_and, hk.2, hr]; rfl⟩
  obtain ⟨n, -, hlt, -, hseen⟩ := h.awaits r _ hepoch hbit
  have hheld : Connections.Held s.ring.cc (s.readers r).queue.connected := h.owned.held r
  exact ⟨r, n, hheld.isConnected_iff.mpr hmy, hlt, (h.track r hmy).joined.trans hseen, hseen⟩

end Steps

theorem inv_init (blank : D) : Inv (machine blank).init := by
  have hnone : ∀ r, (machine blank).init.my r = 0#32 := fun _ => rfl
  refine ⟨rfl, ⟨fun r => .inl (hnone r), fun _ => ?_, fun k hk => ?_⟩, fun r hr => ?_, fun r i _ hr => ?_⟩
  · rw [hnone, BitVec.zero_and]
  · have hcc : (machine blank).init.ring.cc = 0#32 := rfl
    rw [hcc, BitVec.getLsbD_zero] at hk
    cases hk
  · exact absurd (hnone r) hr
  · rw [hnone, BitVec.and_zero] at hr
    exact absurd rfl hr

/-! ## The result -/

/-- **Full of unread messages.**  In every state of a run in which no reader is given a bit that
a slot remembers, `push` refuses only for a connected reader with a message it has neither
popped nor skipped. -/
theorem fullOfUnread_of_guarded (blank : D) {actions : List (Action D)} {s : State D}
    (hguarded : (machine blank).Guarded Fresh actions)
    (hrun : (machine blank).run actions = some s) : FullOfUnread s := by
  have hinv : Inv s := Machine.invariant_of_guarded (inv_init blank)
    (fun _ _ _ hs hfresh hstep => hs.step hfresh hstep) hguarded hrun
  exact hinv.fullOfUnread

/-! ## A full ring -/

section Lap

open RingSteps (Data filled push_filled)

/-- Nobody but the first reader, which connected before the first message. -/
def joinedFirst : ℕ → Reader :=
  Function.update (fun _ => ⟨⟨0#32, 0#32⟩, 0, 0⟩) 0 ⟨⟨1#32, 0#32⟩, 0, 0⟩

/-- The first reader has connected and `n` messages, at most a lap, were published. -/
def lap (n : ℕ) : State (Data ℕ) := ⟨(filled n).ring, n, joinedFirst⟩

/-- Publishing `n` messages. -/
def publish (n : ℕ) : List (Action (Data ℕ)) := (List.range n).map fun k => .push (some (k, k))

theorem run_publish {n : ℕ} (hn : n ≤ 256) :
    (machine none).runFrom (lap 0) (publish n) = some (lap n) := by
  induction n with
  | zero => rfl
  | succ n ih =>
      rw [publish, List.range_succ, List.map_append, Machine.runFrom_append]
      refine ⟨lap n, ih (by omega), ?_⟩
      have hpush : (lap n).ring.push (some (n, n)) = _ := push_filled (by omega)
      simp only [List.map_cons, List.map_nil, Machine.runFrom, machine, step, hpush]
      rfl

theorem run_connect : (machine none).run [.connect 0] = some (lap 0) := by
  simp [Machine.run, Machine.runFrom, machine, step, State.connect, State.set, Ring.connect,
    lap, filled, joinedFirst, Ring.zeroed, Ring.isConnected, Ring.connHeadConnect]

/-- A reader connects and a lap of messages is published. -/
theorem run_lap : (machine none).run ([.connect 0] ++ publish 256) = some (lap 256) := by
  rw [Machine.run, Machine.runFrom_append]
  exact ⟨lap 0, run_connect, run_publish (Nat.le_refl 256)⟩

theorem guarded_publish (n : ℕ) (s : State (Data ℕ)) :
    (machine none).GuardedFrom Fresh s (publish n) := by
  unfold publish
  induction List.range n generalizing s with
  | nil => trivial
  | cons k rest ih =>
      refine ⟨trivial, ?_⟩
      cases (machine none).step s (.push (some (k, k))) with
      | none => trivial
      | some t => exact ih t

/-- After a lap the reader is what `push` refuses for. -/
theorem fullOfUnread_lap :
    (lap 256).ring.push none = none ∧ FullOfUnread (lap 256) := by
  refine ⟨by decide +kernel, fullOfUnread_of_guarded none ?_ run_lap⟩
  refine ⟨Or.inr fun i _ => BitVec.zero_and, ?_⟩
  exact guarded_publish 256 _

/-- The second reader has taken the place of the first one. -/
def rejoined : State (Data ℕ) :=
  ⟨(filled 256).ring, 256,
    Function.update (Function.update joinedFirst 0 ⟨⟨0#32, 0#32⟩, 0, 0⟩) 1
      ⟨⟨1#32, 256#32⟩, 256, 256⟩⟩

/-- The first reader leaves without reading, and a second one connects and is given its bit. -/
theorem run_rejoined :
    (machine none).runFrom (lap 256) [.disconnect 0, .connect 1] = some rejoined := rfl

/-- `push` refuses though the only reader has nothing to read. -/
theorem refused_for_nothing :
    ∃ (actions : List (Action (Data ℕ))) (s : State (Data ℕ)),
      (machine none).run actions = some s ∧ ¬ FullOfUnread s := by
  refine ⟨([.connect 0] ++ publish 256) ++ [.disconnect 0, .connect 1], rejoined, ?_, ?_⟩
  · rw [Machine.run, Machine.runFrom_append]
    exact ⟨lap 256, run_lap, run_rejoined⟩
  · intro hfull
    obtain ⟨r, n, hconn, hunread⟩ := hfull (by decide) none (by decide +kernel)
    have hlt := hunread.published
    have hjoined := hunread.joined
    dsimp only [rejoined] at hlt hjoined hconn
    rw [Function.update_apply] at hjoined hconn
    split at hjoined
    · rename_i hr
      dsimp only at hjoined
      omega
    · rename_i hr
      rw [if_neg hr, Function.update_apply] at hconn
      split at hconn
      · cases hconn
      · rename_i hr0
        rw [joinedFirst, Function.update_of_ne hr0] at hconn
        cases hconn

end Lap

end DzIpc.LibIpc.RingFull
