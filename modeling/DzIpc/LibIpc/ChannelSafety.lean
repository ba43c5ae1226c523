import DzIpc.LibIpc.Channel
import Mathlib.Data.List.Perm.Basic

/-!
# Chunks are released once and never while held

The owners of a chunk are kept in three places: the `conns` word of the chunk, the bits of
the slot that announces it, and the snapshot in each `recycle_t`.  The three agree as long
as the sender pushes to no reader that joined after the chunk was acquired, and a receiver
that pops a message finds its other owners still connected; `Careful` states these two
conditions of a step.

* `Ledger` is the invariant: what the three places say about each chunk.
* `Ledger.shrink`, `Ledger.retain`, `Ledger.release`, `Ledger.acquire` and `Ledger.fill` are
  the ways in which the operations change it, and `ledger_step` composes them.
* `chunkSafe_of_guarded` is the safety of every careful run.
-/

namespace DzIpc.LibIpc.Channel

open Mask

/-- A chunk the sender, a live buffer or an unread slot of a connected receiver refers to. -/
def InUse (s : State) (c : ChunkId) : Prop :=
  (∃ b ∈ s.buffs, b.chunk = c) ∨
    (∃ r i, s.ring.isConnected (s.queues r) = true ∧
      (s.ring.elems i).rem &&& (s.queues r).connected ≠ 0#32 ∧
      (s.ring.elems i).data.chunk = some c) ∨
    ∃ p ∈ s.pending, p.chunk = c

/-- The safety of the pools in one state. -/
structure ChunkSafe (s : State) : Prop where
  /-- No chunk in use is in a free list. -/
  held : ∀ c, InUse s c → c.2 ∉ s.storage.free c.1
  /-- Every release has an acquire of its own, and every acquire takes a released id. -/
  once : Alternating s.storage.log
  /-- What `acquire` would hand out is not in use. -/
  fresh : ∀ k id pool, (s.storage.info k).pool.prepare.acquire = (some id, pool) →
    ¬ InUse s (k, id)

/-- The condition on a step: a size fits `int32_t`; a chunk is pushed only to readers it was
acquired for; and the owners of a message that is popped are still connected. -/
def Careful (s : State) : Action → Prop
  | .acquire size => size < 2 ^ 31
  | .loan size => loanCapacity size < 2 ^ 31
  | .push i _ | .forcePush i _ =>
      ∀ p ∈ s.pending[i]?, Within s.ring.cc (s.storage.conns p.chunk)
  | .pop r =>
      ∀ i ∈ (s.ring.nextSlot (s.queues r)).2, ∀ c ∈ (s.ring.elems i).data.chunk,
        Within (s.ring.elems i).rem s.ring.cc ∧
          ∀ b ∈ s.buffs, b.chunk = c → Within b.connId s.ring.cc
  | _ => True

instance (s : State) (a : Action) : Decidable (Careful s a) := by
  cases a <;> unfold Careful <;> infer_instance

/-- An unread slot announces a chunk. -/
def Queued (q : Ring Msg) (i : Fin 256) (c : ChunkId) : Prop :=
  (q.elems i).rem ≠ 0#32 ∧ (q.elems i).data.chunk = some c

/-- Two buffers in one chunk have different owners, each known to the other. -/
def Apart (b b' : Buff) : Prop :=
  b.chunk = b'.chunk →
    b.connId &&& b'.connId = 0#32 ∧ Within b.connId b'.currConns ∧ Within b'.connId b.currConns

/-- **The invariant.**  A chunk the sender holds has no other reference.  Otherwise its
references are at most one unread slot and some buffers, with owners that are disjoint bits
of its `conns` word and that every buffer knows of. -/
structure Ledger (s : State) : Prop where
  sound : s.storage.Sound
  single : ∀ r, (s.queues r).connected = 0#32 ∨ Single (s.queues r).connected
  pendingMsg : ∀ p ∈ s.pending, ∀ msgId, (Msg.ofChunk msgId p.size p.id).chunk = some p.chunk
  pendingOut : ∀ p ∈ s.pending, s.storage.Out p.chunk
  pendingApart : s.pending.Pairwise fun p p' => p.chunk ≠ p'.chunk
  pendingBuff : ∀ p ∈ s.pending, ∀ b ∈ s.buffs, b.chunk ≠ p.chunk
  pendingSlot : ∀ p ∈ s.pending, ∀ i, ¬ Queued s.ring i p.chunk
  slotOut : ∀ i c, Queued s.ring i c → s.storage.Out c
  slotWithin : ∀ i c, Queued s.ring i c → Within (s.ring.elems i).rem (s.storage.conns c)
  slotOnce : ∀ i j c, Queued s.ring i c → Queued s.ring j c → i = j
  buffOut : ∀ b ∈ s.buffs, s.storage.Out b.chunk
  buffSingle : ∀ b ∈ s.buffs, Single b.connId
  buffWithin : ∀ b ∈ s.buffs, Within b.connId (s.storage.conns b.chunk)
  buffSlot : ∀ b ∈ s.buffs, ∀ i, Queued s.ring i b.chunk →
    (s.ring.elems i).rem &&& b.connId = 0#32 ∧ Within (s.ring.elems i).rem b.currConns
  buffApart : s.buffs.Pairwise Apart

/-! ## Lists -/

private theorem perm_eraseIdx {α : Type*} {l : List α} {i : ℕ} {a : α} (h : l[i]? = some a) :
    (a :: l.eraseIdx i).Perm l := by
  obtain ⟨hi, rfl⟩ := List.getElem?_eq_some_iff.mp h
  exact List.getElem_cons_eraseIdx_perm hi

/-- The entries left beside one that is taken out are related to it. -/
private theorem rel_of_mem_eraseIdx {α : Type*} {R : α → α → Prop} {l : List α} {i : ℕ} {a : α}
    (hsymm : ∀ {x y}, R x y → R y x) (hl : l.Pairwise R) (h : l[i]? = some a) :
    ∀ b ∈ l.eraseIdx i, R a b := by
  have hcons : (a :: l.eraseIdx i).Pairwise R := ((perm_eraseIdx h).pairwise_iff hsymm).mpr hl
  exact (List.pairwise_cons.mp hcons).1

private theorem Apart.symm {b b' : Buff} (h : Apart b b') : Apart b' b := by
  intro heq
  obtain ⟨hdisj, hleft, hright⟩ := h heq.symm
  exact ⟨by rw [BitVec.and_comm]; exact hdisj, hright, hleft⟩

/-! ## How the ledger changes -/

/-- References disappear: the lists get shorter and slots lose bits. -/
theorem Ledger.shrink {s : State} (h : Ledger s) (ring : Ring Msg) {queues : ℕ → Queue}
    {buffs : List Buff} {pending : List Pending}
    (hqueues : ∀ r, (queues r).connected = 0#32 ∨ Single (queues r).connected)
    (hbuffs : buffs.Sublist s.buffs) (hpending : pending.Sublist s.pending)
    (hring : ∀ i c, Queued ring i c →
      Queued s.ring i c ∧ Within (ring.elems i).rem (s.ring.elems i).rem) :
    Ledger { s with ring := ring, queues := queues, buffs := buffs, pending := pending } where
  sound := h.sound
  single := hqueues
  pendingMsg := fun p hp => h.pendingMsg p (hpending.subset hp)
  pendingOut := fun p hp => h.pendingOut p (hpending.subset hp)
  pendingApart := h.pendingApart.sublist hpending
  pendingBuff := fun p hp b hb => h.pendingBuff p (hpending.subset hp) b (hbuffs.subset hb)
  pendingSlot := fun p hp i hi => h.pendingSlot p (hpending.subset hp) i (hring i _ hi).1
  slotOut := fun i c hi => h.slotOut i c (hring i c hi).1
  slotWithin := fun i c hi => (hring i c hi).2.trans (h.slotWithin i c (hring i c hi).1)
  slotOnce := fun i j c hi hj => h.slotOnce i j c (hring i c hi).1 (hring j c hj).1
  buffOut := fun b hb => h.buffOut b (hbuffs.subset hb)
  buffSingle := fun b hb => h.buffSingle b (hbuffs.subset hb)
  buffWithin := fun b hb => h.buffWithin b (hbuffs.subset hb)
  buffSlot := fun b hb i hi => by
    obtain ⟨hqueued, hwithin⟩ := hring i _ hi
    obtain ⟨hdisj, hcurr⟩ := h.buffSlot b (hbuffs.subset hb) i hqueued
    exact ⟨hwithin.disjoint_mono hdisj, hwithin.trans hcurr⟩
  buffApart := h.buffApart.sublist hbuffs

/-- Bits that no remaining owner of a chunk holds are cleared in its `conns` word, and the
chunk is put back when that was the last. -/
theorem Ledger.retain {s : State} (h : Ledger s) {c : ChunkId} (hc : s.storage.Out c) {mask : Cc}
    (hpending : ∀ p ∈ s.pending, p.chunk ≠ c)
    (hslot : ∀ i, Queued s.ring i c → Within (s.ring.elems i).rem mask)
    (hbuff : ∀ b ∈ s.buffs, b.chunk = c → Within b.connId mask) :
    Ledger { s with storage := s.storage.retain c mask } := by
  obtain ⟨hsound, hself, hout, hother⟩ := h.sound.retain hc mask
  -- a bit of the masked word keeps the chunk out
  have hkeep : ∀ a : Cc, a ≠ 0#32 → Within a (s.storage.conns c) → Within a mask →
      (s.storage.retain c mask).Out c := by
    intro a ha hw hm
    refine hout fun hzero => ha ?_
    have hboth : Within a (s.storage.conns c &&& mask) := within_and.mpr ⟨hw, hm⟩
    rw [hzero] at hboth
    exact hboth.eq_zero
  refine
    { sound := hsound, single := h.single, pendingMsg := h.pendingMsg, pendingOut := ?_
      pendingApart := h.pendingApart, pendingBuff := h.pendingBuff
      pendingSlot := h.pendingSlot, slotOut := ?_, slotWithin := ?_, slotOnce := h.slotOnce
      buffOut := ?_, buffSingle := h.buffSingle, buffWithin := ?_, buffSlot := h.buffSlot
      buffApart := h.buffApart }
  · intro p hp
    exact (hother _ (hpending p hp)).1.mpr (h.pendingOut p hp)
  · intro i d hi
    by_cases hd : d = c
    · subst hd
      exact hkeep _ hi.1 (h.slotWithin i d hi) (hslot i hi)
    · exact (hother d hd).1.mpr (h.slotOut i d hi)
  · intro i d hi
    by_cases hd : d = c
    · subst hd
      rw [hself]
      exact within_and.mpr ⟨h.slotWithin i d hi, hslot i hi⟩
    · rw [(hother d hd).2]
      exact h.slotWithin i d hi
  · intro b hb
    by_cases hd : b.chunk = c
    · have hw := h.buffWithin b hb
      rw [hd] at hw ⊢
      exact hkeep _ (h.buffSingle b hb).ne_zero hw (hbuff b hb hd)
    · exact (hother _ hd).1.mpr (h.buffOut b hb)
  · intro b hb
    by_cases hd : b.chunk = c
    · have hw := h.buffWithin b hb
      rw [hd] at hw ⊢
      rw [hself]
      exact within_and.mpr ⟨hw, hbuff b hb hd⟩
    · rw [(hother _ hd).2]
      exact h.buffWithin b hb

/-- A chunk without references is put back. -/
theorem Ledger.release {s : State} (h : Ledger s) {c : ChunkId} (hc : s.storage.Out c)
    (hpending : ∀ p ∈ s.pending, p.chunk ≠ c) (hslot : ∀ i, ¬ Queued s.ring i c)
    (hbuff : ∀ b ∈ s.buffs, b.chunk ≠ c) :
    Ledger { s with storage := s.storage.releaseChunk c } := by
  obtain ⟨hsound, -, hother, hconns⟩ := h.sound.releaseChunk hc
  have hne : ∀ i d, Queued s.ring i d → d ≠ c := fun i d hi hd => hslot i (hd ▸ hi)
  exact
    { sound := hsound, single := h.single, pendingMsg := h.pendingMsg
      pendingOut := fun p hp => (hother _ (hpending p hp)).mpr (h.pendingOut p hp)
      pendingApart := h.pendingApart, pendingBuff := h.pendingBuff
      pendingSlot := h.pendingSlot
      slotOut := fun i d hi => (hother d (hne i d hi)).mpr (h.slotOut i d hi)
      slotWithin := fun i d hi => by
        rw [hconns]
        exact h.slotWithin i d hi
      slotOnce := h.slotOnce
      buffOut := fun b hb => (hother _ (hbuff b hb)).mpr (h.buffOut b hb)
      buffSingle := h.buffSingle
      buffWithin := fun b hb => by
        rw [hconns]
        exact h.buffWithin b hb
      buffSlot := h.buffSlot, buffApart := h.buffApart }

/-- The length `recv` reads off a large message is the size it was sent with. -/
theorem rSize_ofChunk (msgId : BitVec 32) {size : ℕ} (id : ℕ) (hsize : size < 2 ^ 31) :
    (Msg.ofChunk msgId size id).rSize = size := by
  have hword : BitVec.ofNat 32 dataLength + (BitVec.ofNat 32 size - BitVec.ofNat 32 dataLength) =
      BitVec.ofNat 32 size := by
    rw [BitVec.add_comm, BitVec.sub_add_cancel]
  have hnat : (BitVec.ofNat 32 size).toNat = size := Nat.mod_eq_of_lt (by omega)
  rw [Msg.rSize, Msg.ofChunk, hword, BitVec.toInt_eq_toNat_cond, hnat]
  split <;> omega

theorem chunk_ofChunk (msgId : BitVec 32) {size : ℕ} (id : ℕ) (hpos : 0 < size)
    (hsize : size < 2 ^ 31) :
    (Msg.ofChunk msgId size id).chunk = some (calcChunkSize size, id) := by
  have hr := rSize_ofChunk msgId id hsize
  have hbody : (Msg.ofChunk msgId size id).body = .storage id := rfl
  simp only [Msg.chunk, hbody, hr]
  rw [if_neg (by omega), Int.toNat_natCast]

/-- The sender takes a chunk. -/
theorem Ledger.acquire {s : State} (h : Ledger s) {size : ℕ} (hpos : 0 < size)
    (hsize : size < 2 ^ 31) (loaned : Bool) : Ledger (Channel.acquire s size loaned) := by
  unfold Channel.acquire
  cases hacq : s.storage.acquire size s.ring.cc with
  | mk res storage =>
      cases res with
      | none =>
          obtain ⟨hsound, hsame⟩ := h.sound.acquire_none hacq
          exact
            { h with
              sound := hsound
              pendingOut := fun p hp => (hsame _).1.mpr (h.pendingOut p hp)
              slotOut := fun i c hi => (hsame c).1.mpr (h.slotOut i c hi)
              slotWithin := fun i c hi => by
                rw [(hsame c).2]
                exact h.slotWithin i c hi
              buffOut := fun b hb => (hsame _).1.mpr (h.buffOut b hb)
              buffWithin := fun b hb => by
                rw [(hsame _).2]
                exact h.buffWithin b hb }
      | some id =>
          obtain ⟨hsound, hfree, hout, -, hother⟩ := h.sound.acquire_some hacq
          set p : Pending := ⟨id, size, loaned⟩ with hp
          have hchunk : p.chunk = (calcChunkSize size, id) := rfl
          rw [← hchunk] at hfree hout hother
          -- every chunk referred to before was out, so it is not the one taken
          have hne : ∀ c, s.storage.Out c → c ≠ p.chunk := fun c hc heq => hfree (heq ▸ hc)
          have hpend : ∀ p' ∈ s.pending, p'.chunk ≠ p.chunk :=
            fun p' hp' => hne _ (h.pendingOut p' hp')
          have hslot : ∀ i c, Queued s.ring i c → c ≠ p.chunk :=
            fun i c hi => hne c (h.slotOut i c hi)
          have hbuff : ∀ b ∈ s.buffs, b.chunk ≠ p.chunk :=
            fun b hb => hne _ (h.buffOut b hb)
          exact
            { sound := hsound, single := h.single
              pendingMsg := fun p' hp' => by
                rcases List.mem_cons.mp hp' with rfl | hp'
                · exact fun msgId => chunk_ofChunk msgId id hpos hsize
                · exact h.pendingMsg p' hp'
              pendingOut := fun p' hp' => by
                rcases List.mem_cons.mp hp' with rfl | hp'
                · exact hout
                · exact (hother _ (hpend p' hp')).1.mpr (h.pendingOut p' hp')
              pendingApart :=
                List.pairwise_cons.mpr ⟨fun p' hp' heq => hpend p' hp' heq.symm, h.pendingApart⟩
              pendingBuff := fun p' hp' => by
                rcases List.mem_cons.mp hp' with rfl | hp'
                · exact hbuff
                · exact h.pendingBuff p' hp'
              pendingSlot := fun p' hp' => by
                rcases List.mem_cons.mp hp' with rfl | hp'
                · exact fun i hi => hslot i _ hi rfl
                · exact h.pendingSlot p' hp'
              slotOut := fun i c hi => (hother c (hslot i c hi)).1.mpr (h.slotOut i c hi)
              slotWithin := fun i c hi => by
                rw [(hother c (hslot i c hi)).2]
                exact h.slotWithin i c hi
              slotOnce := h.slotOnce
              buffOut := fun b hb => (hother _ (hbuff b hb)).1.mpr (h.buffOut b hb)
              buffSingle := h.buffSingle
              buffWithin := fun b hb => by
                rw [(hother _ (hbuff b hb)).2]
                exact h.buffWithin b hb
              buffSlot := h.buffSlot, buffApart := h.buffApart }

/-- A slot that nobody waits for is written: what it announces must be a chunk that is out,
has no other reference and belongs to the readers the slot is for. -/
theorem Ledger.fill {s : State} (h : Ledger s) {ring : Ring Msg} {i : Fin 256}
    (hother : ∀ j, j ≠ i → ring.elems j = s.ring.elems j)
    (hnew : ∀ c, Queued ring i c →
      s.storage.Out c ∧ Within (ring.elems i).rem (s.storage.conns c) ∧
        (∀ p ∈ s.pending, p.chunk ≠ c) ∧ (∀ b ∈ s.buffs, b.chunk ≠ c) ∧
        ∀ j, j ≠ i → ¬ Queued s.ring j c) :
    Ledger { s with ring := ring } := by
  have hold : ∀ j c, j ≠ i → Queued ring j c → Queued s.ring j c := by
    intro j c hj hq
    unfold Queued at hq ⊢
    rwa [hother j hj] at hq
  refine
    { sound := h.sound, single := h.single, pendingMsg := h.pendingMsg
      pendingOut := h.pendingOut, pendingApart := h.pendingApart
      pendingBuff := h.pendingBuff, pendingSlot := ?_, slotOut := ?_, slotWithin := ?_
      slotOnce := ?_, buffOut := h.buffOut, buffSingle := h.buffSingle
      buffWithin := h.buffWithin, buffSlot := ?_, buffApart := h.buffApart }
  · intro p hp j hq
    by_cases hj : j = i
    · subst hj
      exact (hnew _ hq).2.2.1 p hp rfl
    · exact h.pendingSlot p hp j (hold j _ hj hq)
  · intro j c hq
    by_cases hj : j = i
    · subst hj
      exact (hnew c hq).1
    · exact h.slotOut j c (hold j c hj hq)
  · intro j c hq
    by_cases hj : j = i
    · subst hj
      exact (hnew c hq).2.1
    · have hw := h.slotWithin j c (hold j c hj hq)
      rwa [← hother j hj] at hw
  · intro j k c hqj hqk
    by_cases hj : j = i
    · by_cases hk : k = i
      · rw [hj, hk]
      · rw [hj] at hqj
        exact absurd (hold k c hk hqk) ((hnew c hqj).2.2.2.2 k hk)
    · by_cases hk : k = i
      · rw [hk] at hqk
        exact absurd (hold j c hj hqj) ((hnew c hqk).2.2.2.2 j hj)
      · exact h.slotOnce j k c (hold j c hj hqj) (hold k c hk hqk)
  · intro b hb j hq
    by_cases hj : j = i
    · subst hj
      exact absurd rfl ((hnew _ hq).2.2.2.1 b hb)
    · have hs := h.buffSlot b hb j (hold j _ hj hq)
      rwa [← hother j hj] at hs

/-! ## The operations keep the ledger -/

theorem ledger_init : Ledger init where
  sound := Storage.sound_zeroed
  single := fun _ => Or.inl rfl
  pendingMsg := by simp [init]
  pendingOut := by simp [init]
  pendingApart := List.Pairwise.nil
  pendingBuff := by simp [init]
  pendingSlot := by simp [init]
  slotOut := by simp [Queued, init, Ring.zeroed]
  slotWithin := by simp [Queued, init, Ring.zeroed]
  slotOnce := by simp [Queued, init, Ring.zeroed]
  buffOut := by simp [init]
  buffSingle := by simp [init]
  buffWithin := by simp [init]
  buffSlot := by simp [init]
  buffApart := List.Pairwise.nil

/-- `clear_message` keeps, of the chunk's `conns`, the bits the slot no longer carries. -/
theorem clearMessage_eq (st : Storage) (m : Msg) (rem : Cc) :
    clearMessage st m rem =
      match m.chunk with
      | none => st
      | some c => if rem = 0#32 then st else st.retain c (~~~rem) := by
  unfold clearMessage Msg.chunk
  cases m.body with
  | bytes data => rfl
  | storage id =>
      by_cases hr : m.rSize ≤ 0
      · simp [hr]
      · simp only [hr, if_false]
        split
        · rfl
        · rename_i hrem
          rw [Storage.discard, if_neg hrem]

/-- Emptying a slot and returning its chunk to the owners that remain. -/
theorem Ledger.vacate {s : State} (h : Ledger s) (i : Fin 256) :
    Ledger { s with
      ring := s.ring.clear i (s.ring.elems i).rem
      storage := clearMessage s.storage (s.ring.elems i).data (s.ring.elems i).rem } := by
  set rem := (s.ring.elems i).rem with hrem
  have hempty : ∀ c, ¬ Queued (s.ring.clear i rem) i c := by
    intro c hq
    apply hq.1
    rw [Ring.clear_elems_self, ← hrem]
    exact BitVec.and_not_self rem
  have hqueued : ∀ j c, Queued (s.ring.clear i rem) j c → j ≠ i ∧ Queued s.ring j c ∧
      (s.ring.clear i rem).elems j = s.ring.elems j := by
    intro j c hq
    have hj : j ≠ i := by
      rintro rfl
      exact hempty c hq
    have hsame := s.ring.clear_elems_of_ne rem hj
    unfold Queued at hq
    rw [hsame] at hq
    exact ⟨hj, hq, hsame⟩
  have hcleared : Ledger { s with ring := s.ring.clear i rem } := by
    refine h.shrink _ h.single (List.Sublist.refl _) (List.Sublist.refl _) ?_
    intro j c hq
    obtain ⟨-, hold, hsame⟩ := hqueued j c hq
    rw [hsame]
    exact ⟨hold, Within.refl _⟩
  rw [clearMessage_eq]
  cases hchunk : (s.ring.elems i).data.chunk with
  | none => exact hcleared
  | some c =>
      by_cases hzero : rem = 0#32
      · simpa only [hzero, if_true] using hcleared
      · simp only [hzero, if_false]
        have hslot : Queued s.ring i c := ⟨by rwa [← hrem], hchunk⟩
        refine hcleared.retain (h.slotOut i c hslot) ?_ ?_ ?_
        · exact fun p hp heq => h.pendingSlot p hp i (heq ▸ hslot)
        · intro j hq
          obtain ⟨hj, hold, -⟩ := hqueued j c hq
          exact absurd (h.slotOnce j i c hold hslot) hj
        · intro b hb heq
          rw [within_not, BitVec.and_comm]
          exact (h.buffSlot b hb i (heq ▸ hslot)).1

/-- A slot is emptied and written again, with the chunk of an overwritten message returned. -/
theorem Ledger.overwrite {s : State} (h : Ledger s) {m : Msg} {ring : Ring Msg}
    {pending : List Pending} {bits : Cc} {epoch : BitVec 32} {i : Fin 256}
    (hpending : pending.Sublist s.pending)
    (hself : ring.elems i = ⟨bits, epoch, m⟩)
    (hother : ∀ j, j ≠ i → ring.elems j = s.ring.elems j)
    (hnew : ∀ c, bits ≠ 0#32 → m.chunk = some c →
      Within bits (s.storage.conns c) ∧
        ∃ p ∈ s.pending, p.chunk = c ∧ ∀ p' ∈ pending, p'.chunk ≠ c) :
    Ledger { s with
      ring := ring
      storage := clearMessage s.storage (s.ring.elems i).data (s.ring.elems i).rem
      pending := pending } := by
  have hvacant := h.vacate i
  -- the chunk the sender holds survives the return of the overwritten one
  have hkept : ∀ p ∈ s.pending, (clearMessage s.storage (s.ring.elems i).data
      (s.ring.elems i).rem).conns p.chunk = s.storage.conns p.chunk := by
    intro p hp
    rw [clearMessage_eq]
    cases hchunk : (s.ring.elems i).data.chunk with
    | none => rfl
    | some c =>
        by_cases hzero : (s.ring.elems i).rem = 0#32
        · simp only [hzero, if_true]
        · simp only [hzero, if_false]
          have hslot : Queued s.ring i c := ⟨hzero, hchunk⟩
          have hne : p.chunk ≠ c := fun heq => h.pendingSlot p hp i (heq ▸ hslot)
          exact ((h.sound.retain (h.slotOut i c hslot) _).2.2.2 _ hne).2
  have hshorter := hvacant.shrink (s.ring.clear i (s.ring.elems i).rem)
    hvacant.single (List.Sublist.refl _) hpending (fun j c hq => ⟨hq, Within.refl _⟩)
  refine hshorter.fill (i := i) ?_ ?_
  · intro j hj
    rw [hother j hj]
    exact (s.ring.clear_elems_of_ne _ hj).symm
  · intro c hq
    unfold Queued at hq
    rw [hself] at hq
    obtain ⟨hwithin, p, hp, rfl, hrest⟩ := hnew c hq.1 hq.2
    rw [hself]
    refine ⟨hvacant.pendingOut p hp, ?_, hrest, hvacant.pendingBuff p hp, ?_⟩
    · show Within bits (Storage.conns (clearMessage _ _ _) p.chunk)
      rw [hkept p hp]
      exact hwithin
    · exact fun j _ => hvacant.pendingSlot p hp j

/-- A receiver takes a message out of a slot and, when it lies in a chunk, becomes one of the
holders of that chunk. -/
theorem Ledger.pop {s : State} (h : Ledger s) {queues : ℕ → Queue}
    (hqueues : ∀ r, (queues r).connected = 0#32 ∨ Single (queues r).connected)
    {i : Fin 256} {my : Cc} (hmy : Single my) (hbit : (s.ring.elems i).rem &&& my ≠ 0#32)
    (hcareful : ∀ c, (s.ring.elems i).data.chunk = some c →
      Within (s.ring.elems i).rem s.ring.cc ∧
        ∀ b ∈ s.buffs, b.chunk = c → Within b.connId s.ring.cc) :
    Ledger { s with
      ring := s.ring.clear i my
      queues := queues
      buffs := receive s (s.ring.elems i).data my } := by
  have hmeets : Within my (s.ring.elems i).rem := hmy.within_of_meets hbit
  have hne : (s.ring.elems i).rem ≠ 0#32 := by
    intro hzero
    rw [hzero] at hbit
    exact hbit (BitVec.zero_and)
  -- the slot loses the reader's bit, the other slots stay
  have hqueued : ∀ j c, Queued (s.ring.clear i my) j c →
      Queued s.ring j c ∧ Within ((s.ring.clear i my).elems j).rem (s.ring.elems j).rem ∧
        (j = i → Within ((s.ring.clear i my).elems j).rem (~~~my)) := by
    intro j c hq
    by_cases hj : j = i
    · subst hj
      unfold Queued at hq
      rw [Ring.clear_elems_self] at hq ⊢
      refine ⟨⟨hne, hq.2⟩, and_within_left _ _, fun _ => ?_⟩
      rw [BitVec.and_comm]
      exact and_within_left _ _
    · unfold Queued at hq
      rw [s.ring.clear_elems_of_ne my hj] at hq ⊢
      exact ⟨hq, Within.refl _, fun heq => absurd heq hj⟩
  have hcleared : Ledger { s with ring := s.ring.clear i my, queues := queues } :=
    h.shrink _ hqueues (List.Sublist.refl _) (List.Sublist.refl _)
      fun j c hq => ⟨(hqueued j c hq).1, (hqueued j c hq).2.1⟩
  cases hchunk : (s.ring.elems i).data.chunk with
  | none =>
      have hsame : receive s (s.ring.elems i).data my = s.buffs := by
        unfold Msg.chunk at hchunk
        unfold receive
        split at hchunk
        · rfl
        · split at hchunk
          · rename_i hr
            simp [hr]
          · cases hchunk
      rw [hsame]
      exact hcleared
  | some c =>
      obtain ⟨b, hb, hbchunk, hbcurr, hbid⟩ : ∃ b : Buff,
          receive s (s.ring.elems i).data my = b :: s.buffs ∧ b.chunk = c ∧
            b.currConns = s.ring.cc ∧ b.connId = my := by
        unfold Msg.chunk at hchunk
        unfold receive
        split at hchunk
        · cases hchunk
        · split at hchunk
          · cases hchunk
          · rename_i hr
            simp only [hr, if_false]
            exact ⟨_, rfl, Option.some.inj hchunk, rfl, rfl⟩
      have hslot : Queued s.ring i c := ⟨hne, hchunk⟩
      obtain ⟨hremcc, hbuffcc⟩ := hcareful c hchunk
      rw [hb]
      exact
        { hcleared with
          pendingBuff := fun p hp b' hb' => by
            rcases List.mem_cons.mp hb' with rfl | hb'
            · exact fun heq => h.pendingSlot p hp i (by rw [← heq, hbchunk]; exact hslot)
            · exact h.pendingBuff p hp b' hb'
          buffOut := fun b' hb' => by
            rcases List.mem_cons.mp hb' with rfl | hb'
            · rw [hbchunk]
              exact h.slotOut i c hslot
            · exact h.buffOut b' hb'
          buffSingle := fun b' hb' => by
            rcases List.mem_cons.mp hb' with rfl | hb'
            · rw [hbid]
              exact hmy
            · exact h.buffSingle b' hb'
          buffWithin := fun b' hb' => by
            rcases List.mem_cons.mp hb' with rfl | hb'
            · rw [hbchunk, hbid]
              exact hmeets.trans (h.slotWithin i c hslot)
            · exact h.buffWithin b' hb'
          buffSlot := fun b' hb' j hq => by
            rcases List.mem_cons.mp hb' with rfl | hb'
            · rw [hbchunk] at hq
              obtain ⟨hold, hsub, hoff⟩ := hqueued j c hq
              obtain rfl := h.slotOnce j i c hold hslot
              rw [hbid, hbcurr]
              exact ⟨within_not.mp (hoff rfl), hsub.trans hremcc⟩
            · exact hcleared.buffSlot b' hb' j hq
          buffApart := by
            refine List.pairwise_cons.mpr ⟨fun b' hb' heq => ?_, h.buffApart⟩
            rw [hbchunk] at heq
            have hs := h.buffSlot b' hb' i (heq ▸ hslot)
            rw [hbid, hbcurr]
            exact ⟨hmeets.disjoint_mono hs.1, hmeets.trans hs.2, hbuffcc b' hb' heq.symm⟩ }

/-- A holder drops its buffer. -/
theorem Ledger.drop {s : State} (h : Ledger s) {i : ℕ} {b : Buff} (hb : s.buffs[i]? = some b) :
    Ledger { s with
      buffs := s.buffs.eraseIdx i
      storage := s.storage.recycle b.size b.storageId b.currConns b.connId } := by
  have hmem : b ∈ s.buffs := List.mem_of_getElem? hb
  have herased := h.shrink s.ring h.single
    (List.eraseIdx_sublist s.buffs i) (List.Sublist.refl s.pending)
    (fun j c hq => ⟨hq, Within.refl _⟩)
  refine herased.retain (c := b.chunk) (h.buffOut b hmem) ?_ ?_ ?_
  · exact fun p hp heq => h.pendingBuff p hp b hmem heq.symm
  · intro j hq
    obtain ⟨hdisj, hcurr⟩ := h.buffSlot b hmem j hq
    exact within_and.mpr ⟨hcurr, within_not.mpr hdisj⟩
  · intro b' hb' heq
    obtain ⟨hdisj, -, hcurr⟩ := rel_of_mem_eraseIdx Apart.symm h.buffApart hb b' hb' heq.symm
    refine within_and.mpr ⟨hcurr, within_not.mpr ?_⟩
    rw [BitVec.and_comm]
    exact hdisj

/-- The sender gives a chunk back that it has not pushed. -/
theorem Ledger.discard {s : State} (h : Ledger s) {i : ℕ} {p : Pending}
    (hp : s.pending[i]? = some p) :
    Ledger { s with
      pending := s.pending.eraseIdx i
      storage := s.storage.release p.size p.id } := by
  have hmem : p ∈ s.pending := List.mem_of_getElem? hp
  have herased := h.shrink s.ring h.single
    (List.Sublist.refl s.buffs) (List.eraseIdx_sublist s.pending i)
    (fun j c hq => ⟨hq, Within.refl _⟩)
  refine herased.release (c := p.chunk) (h.pendingOut p hmem) ?_ ?_ ?_
  · intro p' hp' heq
    have hapart := rel_of_mem_eraseIdx (R := fun p p' : Pending => p.chunk ≠ p'.chunk)
      (fun hne heq => hne heq.symm) h.pendingApart hp
    exact hapart p' hp' heq.symm
  · exact fun j => h.pendingSlot p hmem j
  · exact fun b hb => h.pendingBuff p hmem b hb

/-! ## One operation -/

/-- What is written into the ring is inline data, or a chunk the sender no longer holds. -/
private def Handed (s : State) (pending : List Pending) (m : Msg) : Prop :=
  ∀ c, m.chunk = some c → Within s.ring.cc (s.storage.conns c) ∧
    ∃ p ∈ s.pending, p.chunk = c ∧ ∀ p' ∈ pending, p'.chunk ≠ c

private theorem handed_inline (s : State) (msgId remain : BitVec 32) (data : List UInt8) :
    Handed s s.pending ⟨msgId, remain, .bytes data⟩ := by
  intro c hc
  simp [Msg.chunk] at hc

private theorem handed_chunk {s : State} (h : Ledger s) {i : ℕ} {p : Pending}
    (hp : s.pending[i]? = some p) (hcareful : Within s.ring.cc (s.storage.conns p.chunk))
    (msgId : BitVec 32) :
    Handed s (s.pending.eraseIdx i) (.ofChunk msgId p.size p.id) := by
  have hmem : p ∈ s.pending := List.mem_of_getElem? hp
  intro c hc
  rw [h.pendingMsg p hmem msgId] at hc
  obtain rfl := Option.some.inj hc
  have hapart := rel_of_mem_eraseIdx (R := fun p p' : Pending => p.chunk ≠ p'.chunk)
    (fun hne heq => hne heq.symm) h.pendingApart hp
  exact ⟨hcareful, p, hmem, rfl, fun p' hp' heq => hapart p' hp' heq.symm⟩

private theorem ledger_push {s t : State} (h : Ledger s) {pending : List Pending} {m : Msg}
    (hpending : pending.Sublist s.pending) (hnew : Handed s pending m)
    (hpush : push { s with pending := pending } m = some t) : Ledger t := by
  unfold push at hpush
  split at hpush
  · cases hpush
  · rename_i old ring hring
    obtain ⟨-, -, rfl, rfl⟩ := Ring.push_eq_some hring
    obtain rfl := Option.some.inj hpush
    exact h.overwrite hpending (Ring.overwrite_elems_self _ _)
      (fun j hj => Ring.overwrite_elems_of_ne _ _ hj) (fun c _ hc => hnew c hc)

private theorem ledger_forcePush {s t : State} (h : Ledger s) {pending : List Pending} {m : Msg}
    {pushed : Bool} (hpending : pending.Sublist s.pending) (hnew : Handed s pending m)
    (hpush : forcePush { s with pending := pending } m = (pushed, t)) :
    Ledger t ∧ (pushed = false →
      ∃ ring : Ring Msg, ring.elems = s.ring.elems ∧
        t = { s with ring := ring, pending := pending }) := by
  unfold forcePush Ring.forcePush at hpush
  by_cases hcc : s.ring.cc = 0#32
  · simp only [hcc, if_true, Prod.mk.injEq] at hpush
    obtain ⟨rfl, rfl⟩ := hpush
    refine ⟨?_, fun _ => ⟨{ s.ring with cc := 0#32, epoch := s.ring.epoch + 1#32 }, rfl, rfl⟩⟩
    exact h.shrink _ h.single (List.Sublist.refl _) hpending (fun j c hq => ⟨hq, Within.refl _⟩)
  · simp only [hcc, if_false, Prod.mk.injEq] at hpush
    obtain ⟨rfl, rfl⟩ := hpush
    refine ⟨?_, fun hfalse => by cases hfalse⟩
    exact h.overwrite hpending (Ring.overwrite_elems_self _ _)
      (fun j hj => Ring.overwrite_elems_of_ne _ _ hj) (fun c _ hc => hnew c hc)

private theorem single_update {s : State} (h : Ledger s) (r : ℕ) {q : Queue}
    (hq : q.connected = 0#32 ∨ Single q.connected) :
    ∀ r', (Function.update s.queues r q r').connected = 0#32 ∨
      Single (Function.update s.queues r q r').connected := by
  intro r'
  by_cases hr : r' = r
  · subst hr
    simpa using hq
  · simpa [hr] using h.single r'

private theorem loanCapacity_pos (size : ℕ) : 0 < loanCapacity size := by
  have hdouble : ∀ fuel c size, 0 < c → 0 < size → 0 < loanDouble size fuel c := by
    intro fuel
    induction fuel with
    | zero => exact fun c size hc _ => hc
    | succ fuel ih =>
        intro c size hc hsize
        simp only [loanDouble]
        split
        · split
          · exact hsize
          · exact ih _ _ (by omega) hsize
        · exact hc
  unfold loanCapacity loanSizeClass largeMsgAlign
  split
  · split
    · decide
    · exact hdouble _ _ _ (by decide) (by decide)
  · rename_i hsize
    unfold dataLength at hsize
    split
    · omega
    · exact hdouble _ _ _ (by decide) (by omega)

/-- **One step.**  Every careful operation keeps the ledger. -/
theorem ledger_step (s : State) (a : Action) (t : State) (h : Ledger s) (hcareful : Careful s a)
    (hstep : step s a = some t) : Ledger t := by
  cases a with
  | connect r =>
      simp only [step, Option.some.injEq] at hstep
      subst hstep
      rcases s.ring.connect_cases (s.queues r) with
        ⟨-, heq⟩ | ⟨-, heq⟩ | ⟨id, -, hsingle, -, heq⟩
      · rw [heq]
        exact h.shrink _ (single_update h r (h.single r)) (List.Sublist.refl _)
          (List.Sublist.refl _) (fun j c hq => ⟨hq, Within.refl _⟩)
      · rw [heq]
        exact h.shrink _ (single_update h r (Or.inl rfl)) (List.Sublist.refl _)
          (List.Sublist.refl _) (fun j c hq => ⟨hq, Within.refl _⟩)
      · rw [heq]
        exact h.shrink _ (single_update h r (Or.inr hsingle)) (List.Sublist.refl _)
          (List.Sublist.refl _) (fun j c hq => ⟨hq, Within.refl _⟩)
  | disconnect r =>
      simp only [step, Option.some.injEq, Ring.disconnect] at hstep
      subst hstep
      split
      · exact h.shrink _ (single_update h r (Or.inl rfl)) (List.Sublist.refl _)
          (List.Sublist.refl _) (fun j c hq => ⟨hq, Within.refl _⟩)
      · exact h.shrink _ (single_update h r (h.single r)) (List.Sublist.refl _)
          (List.Sublist.refl _) (fun j c hq => ⟨hq, Within.refl _⟩)
  | pop r =>
      simp only [step] at hstep
      split at hstep
      · rename_i hconn
        -- a connected queue has a bit of its own
        have hne : (s.queues r).connected ≠ 0#32 := by
          rw [Ring.isConnected_iff] at hconn
          intro hzero
          rw [hzero] at hconn
          exact hconn BitVec.and_zero
        have hmy : Single (s.queues r).connected := (h.single r).resolve_left hne
        split at hstep
        · rename_i ring q hpop
          obtain ⟨rfl, hq⟩ := Ring.pop_none hpop
          obtain rfl := Option.some.inj hstep
          exact h.shrink _ (single_update h r (by rw [hq]; exact h.single r))
            (List.Sublist.refl _) (List.Sublist.refl _) (fun j c hq => ⟨hq, Within.refl _⟩)
        · rename_i m writable ring q hpop
          obtain ⟨i, cur, hslot, rfl, hbit, rfl, rfl⟩ := Ring.pop_some hne hpop
          obtain rfl := Option.some.inj hstep
          refine h.pop (single_update h r (q := ⟨_, cur⟩) (h.single r)) hmy hbit ?_
          intro c hc
          exact hcareful i (by rw [hslot]; rfl) c hc
      · cases hstep
  | drop i =>
      simp only [step] at hstep
      split at hstep
      · cases hstep
      · rename_i b hb
        obtain rfl := Option.some.inj hstep
        exact h.drop hb
  | acquire size =>
      simp only [step] at hstep
      split at hstep
      · cases hstep
      · rename_i hsize
        obtain rfl := Option.some.inj hstep
        exact h.acquire (by omega) hcareful false
  | loan size =>
      simp only [step] at hstep
      split at hstep
      · cases hstep
      · obtain rfl := Option.some.inj hstep
        exact h.acquire (loanCapacity_pos size) hcareful true
  | push i msgId =>
      simp only [step] at hstep
      split at hstep
      · cases hstep
      · rename_i p hp
        exact ledger_push h (List.eraseIdx_sublist _ _)
          (handed_chunk h hp (hcareful p hp) msgId) hstep
  | forcePush i msgId =>
      simp only [step] at hstep
      split at hstep
      · cases hstep
      · rename_i p hp
        have hnew := handed_chunk h hp (hcareful p hp) msgId
        split at hstep
        · rename_i u hpush
          obtain rfl := Option.some.inj hstep
          exact (ledger_forcePush h (List.eraseIdx_sublist _ _) hnew hpush).1
        · rename_i u hpush
          obtain ⟨hledger, hsame⟩ :=
            ledger_forcePush h (List.eraseIdx_sublist _ _) hnew hpush
          obtain ⟨ring, helems, rfl⟩ := hsame rfl
          obtain rfl := Option.some.inj hstep
          split
          · refine (h.discard hp).shrink ring h.single (List.Sublist.refl _)
              (List.Sublist.refl _) ?_
            intro j c hq
            unfold Queued at hq ⊢
            rw [helems] at hq ⊢
            exact ⟨hq, Within.refl _⟩
          · exact hledger
  | giveUp i =>
      simp only [step] at hstep
      split at hstep
      · cases hstep
      · split at hstep
        · cases hstep
        · obtain rfl := Option.some.inj hstep
          exact h.shrink _ h.single (List.Sublist.refl _) (List.eraseIdx_sublist _ _)
            (fun j c hq => ⟨hq, Within.refl _⟩)
  | discard i =>
      simp only [step] at hstep
      split at hstep
      · cases hstep
      · rename_i p hp
        split at hstep
        · obtain rfl := Option.some.inj hstep
          exact h.discard hp
        · cases hstep
  | pushInline msgId remain data =>
      exact ledger_push h (List.Sublist.refl _) (handed_inline s msgId remain data) hstep
  | forcePushInline msgId remain data =>
      obtain rfl := Option.some.inj hstep
      exact (ledger_forcePush h (List.Sublist.refl _) (handed_inline s msgId remain data) rfl).1
  | pushSniffer msgId remain data =>
      obtain rfl := Option.some.inj hstep
      refine h.shrink _ h.single (List.Sublist.refl _) (List.Sublist.refl _) ?_
      intro j c hq
      by_cases hj : j = indexOf s.ring.wt
      · subst hj
        have hrem := hq.1
        simp [Ring.pushSniffer] at hrem
      · have hsame : (s.ring.pushSniffer ⟨msgId, remain, .bytes data⟩).elems j =
            s.ring.elems j := by
          simp [Ring.pushSniffer, hj]
        unfold Queued at hq
        rw [hsame] at hq ⊢
        exact ⟨hq, Within.refl _⟩

/-! ## Safety -/

/-- The ledger implies the safety of the pools. -/
theorem Ledger.chunkSafe {s : State} (h : Ledger s) : ChunkSafe s := by
  have hheld : ∀ c, InUse s c → s.storage.Out c := by
    rintro c (⟨b, hb, rfl⟩ | ⟨r, i, -, hbit, hchunk⟩ | ⟨p, hp, rfl⟩)
    · exact h.buffOut b hb
    · refine h.slotOut i c ⟨?_, hchunk⟩
      intro hzero
      rw [hzero] at hbit
      exact hbit BitVec.zero_and
    · exact h.pendingOut p hp
  refine ⟨fun c hc => (hheld c hc).2, h.sound.alternating, ?_⟩
  intro k id pool hacq huse
  obtain ⟨-, hlist, -, -⟩ := (h.sound.pools k).acquire hacq
  apply (hheld _ huse).2
  show id ∈ (s.storage.info k).pool.freeIds
  rw [hlist]
  exact List.mem_cons_self

/-- **Safety of careful runs.**  In every state reached by operations that meet the
condition, no chunk in use is free, every id is released once for each time it is acquired,
and no id in use is handed out. -/
theorem chunkSafe_of_guarded {actions : List Action} {s : State}
    (hcareful : machine.Guarded Careful actions) (hrun : machine.run actions = some s) :
    ChunkSafe s :=
  (Machine.invariant_of_guarded (M := machine) ledger_init ledger_step hcareful hrun).chunkSafe

/-- Two receivers, a loan, and both give the chunk back. -/
def carefulRun : List Action :=
  [.connect 0, .connect 1, .loan 100, .push 0 0#32, .pop 0, .pop 1, .drop 1, .drop 0]

theorem chunkSafe_carefulRun : ∃ s, machine.run carefulRun = some s ∧ ChunkSafe s := by
  have hsome : (machine.run carefulRun).isSome = true := by decide +kernel
  obtain ⟨s, hs⟩ := Option.isSome_iff_exists.mp hsome
  exact ⟨s, hs, chunkSafe_of_guarded (by decide +kernel) hs⟩

/-- Receiver `1` joins between the loan and its publication.  The slot is for both, the
chunk's `conns` only for receiver `0`, so that the first drop puts the chunk back while the
other receiver has still to read it, and the second drop puts it back again. -/
def lateJoin : List Action :=
  [.connect 0, .loan 100, .connect 1, .push 0 0#32, .pop 0, .drop 0, .pop 1, .drop 0]

/-- Not every run is safe. -/
theorem lateJoin_released_twice :
    ¬ ∀ actions s, machine.run actions = some s → ChunkSafe s := by
  intro hall
  have hlog : (machine.run lateJoin).map (fun s => s.storage.log) =
      some [.released (2048, 0), .released (2048, 0), .acquired (2048, 0)] := by decide +kernel
  obtain ⟨s, hs, hslog⟩ := Option.map_eq_some_iff.mp hlog
  have halt := (hall lateJoin s hs).once
  rw [hslog] at halt
  exact absurd halt.1 (by decide)

end DzIpc.LibIpc.Channel
