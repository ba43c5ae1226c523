import DzIpc.LibIpc.Recv

/-!
# `recv` returns whole messages

Fragments are recognised by message id and remaining length only.  As long as a receiver
takes the fragments of a message one after the other from the first, its cache holds the
start of that message, and what it returns with the last fragment is the message; and as
long as chunks are released once and never while held, a chunk still holds the payload when
the message that announces it is received.

* `recvMsg_whole` and `recvMsg_cache` are the two facts about one pass of the loop of `recv`.
* `whole_of_guarded` is the result for runs, and `suffix_returned` a receiver that joins
  between two fragments and is given the second.
-/

namespace DzIpc.LibIpc.Recv

open Channel (Careful Ledger Queued)

/-- Every buffer returned is a payload that was sent. -/
def WholeMessages (s : State) : Prop := ∀ b ∈ s.returned, ∃ p ∈ s.sent, b = p.map some

/-- The fragment in a slot continues what a receiver has of its message: it is the first and
the receiver has nothing under its message id, or the receiver has exactly the fragments
before it. -/
def Continues (caches : Caches) (m : Msg) (origin : ℕ × ℕ) : Prop :=
  match m.body with
  | .storage _ => True
  | .bytes _ => (caches.lookup m.id).map Cache.part = if origin.2 = 0 then none else some origin

/-- The condition on a step: lengths fit `int32_t`, the accesses to the channel are careful,
and a receiver pops only slots that continue what it has. -/
def InOrder (s : State) (a : Action) : Prop :=
  (∀ b ∈ baseAction s a, Careful s.base b) ∧
    match a with
    | .send payload => payload.length < 2 ^ 31
    | .recv r =>
        ∀ i ∈ (s.base.ring.nextSlot (s.base.queues r)).2, ∀ o ∈ s.origin i,
          Continues (s.caches r) (s.base.ring.elems i).data o
    | _ => True

instance (caches : Caches) (m : Msg) (origin : ℕ × ℕ) :
    Decidable (Continues caches m origin) := by
  unfold Continues
  cases m.body <;> infer_instance

instance (s : State) (a : Action) : Decidable (InOrder s a) := by
  cases a <;> unfold InOrder <;> infer_instance

/-! ## Fragments -/

/-- Fragment `j` of a payload, as a slot holds it. -/
def fragmentMsg (id : BitVec 32) (payload : List UInt8) (j : ℕ) : Msg :=
  ⟨id, BitVec.ofNat 32 payload.length - BitVec.ofNat 32 (dataLength * j) -
      BitVec.ofNat 32 dataLength, .bytes ((payload.drop (dataLength * j)).take dataLength)⟩

theorem getElem?_fragments {payload : List UInt8} {j : ℕ} {x : BitVec 32 × List UInt8}
    (h : (fragments payload)[j]? = some x) :
    dataLength * j < payload.length ∧
      ∀ id, (⟨id, x.1, .bytes x.2⟩ : Msg) = fragmentMsg id payload j := by
  unfold fragments at h
  simp only at h
  by_cases hj : j < payload.length / dataLength
  · rw [List.getElem?_append_left (by simpa using hj)] at h
    simp only [List.getElem?_map, List.getElem?_range hj, Option.map_some, Option.some.injEq] at h
    subst h
    refine ⟨?_, fun _ => rfl⟩
    unfold dataLength at hj ⊢
    omega
  · rw [List.getElem?_append_right (by simpa using hj)] at h
    simp only [List.length_map, List.length_range] at h
    split at h
    · rename_i hrest
      have hlast : j - payload.length / dataLength = 0 := by
        by_contra hne
        rw [List.getElem?_eq_none (by simp; omega)] at h
        cases h
      have heq : j = payload.length / dataLength := by omega
      subst heq
      simp only [Nat.sub_self, List.getElem?_cons_zero, Option.some.injEq] at h
      subst h
      exact ⟨by omega, fun _ => rfl⟩
    · simp at h

/-- What is left of the payload, read off a fragment. -/
theorem rSize_fragmentMsg (id : BitVec 32) {payload : List UInt8} {j : ℕ}
    (hlen : payload.length < 2 ^ 31) (hj : dataLength * j < payload.length) :
    (fragmentMsg id payload j).rSize = (payload.length - dataLength * j : ℕ) ∧
      (fragmentMsg id payload j).remain.toInt =
        ((payload.length - dataLength * j : ℕ) : ℤ) - dataLength := by
  have hrest : (BitVec.ofNat 32 payload.length - BitVec.ofNat 32 (dataLength * j)).toNat =
      payload.length - dataLength * j := by
    bv_omega
  have hword : BitVec.ofNat 32 dataLength + (BitVec.ofNat 32 payload.length -
      BitVec.ofNat 32 (dataLength * j) - BitVec.ofNat 32 dataLength) =
        BitVec.ofNat 32 payload.length - BitVec.ofNat 32 (dataLength * j) := by
    rw [BitVec.add_comm, BitVec.sub_add_cancel]
  refine ⟨?_, ?_⟩
  · rw [Msg.rSize, fragmentMsg, hword, BitVec.toInt_eq_toNat_cond, hrest]
    split <;> omega
  · rw [fragmentMsg, BitVec.toInt_eq_toNat_cond, BitVec.toNat_sub, hrest]
    simp only [BitVec.toNat_ofNat]
    unfold dataLength at hj ⊢
    split <;> omega

theorem take_slotBytes {data : List UInt8} {n : ℕ} (h : n ≤ data.length) :
    (slotBytes data).take n = data.take n := by
  rw [slotBytes, List.take_append_of_le_length h]

/-! ## One pass of the loop of `recv` -/

/-- The chunk holds the payload. -/
def Holds (contents : ChunkId → ℕ → UInt8) (c : ChunkId) (payload : List UInt8) : Prop :=
  ∀ n (h : n < payload.length), contents c n = payload[n]

/-- A slot holds a fragment of a payload, or the id of a chunk that holds the payload. -/
def Carries (contents : ChunkId → ℕ → UInt8) (m : Msg) (payload : List UInt8) (j : ℕ) : Prop :=
  (∃ id, dataLength * j < payload.length ∧ m = fragmentMsg id payload j) ∨
    ∃ msgId id, dataLength < payload.length ∧ m = .ofChunk msgId payload.length id ∧
      Holds contents (calcChunkSize payload.length, id) payload

/-- A cache entry holds the first fragments of a payload, but not all of them. -/
structure CacheOk (c : Cache) (payload : List UInt8) : Prop where
  some_taken : 0 < c.part.2
  some_left : dataLength * c.part.2 < payload.length
  fill : c.fill = dataLength * c.part.2
  length : c.buff.length = payload.length
  start : c.buff.take c.fill = (payload.take c.fill).map some

private theorem holds_map {contents : ChunkId → ℕ → UInt8} {c : ChunkId} {payload : List UInt8}
    (h : Holds contents c payload) :
    (List.range payload.length).map (fun n => some (contents c n)) = payload.map some := by
  apply List.ext_getElem
  · simp
  · intro n h1 h2
    simp only [List.length_map, List.length_range] at h1
    simp [h n h1]

private theorem drop_take_eq (payload : List UInt8) {j size : ℕ} (hsize : size ≤ dataLength)
    (hle : dataLength * j + size ≤ payload.length) :
    (slotBytes ((payload.drop (dataLength * j)).take dataLength)).take size =
      (payload.drop (dataLength * j)).take size := by
  rw [take_slotBytes (by simp; omega), List.take_take, Nat.min_eq_left hsize]

/-- Appending a fragment to the fragments before it. -/
private theorem append_fragment {c : Cache} {payload : List UInt8} (h : CacheOk c payload)
    {size : ℕ} (hpos : 0 < size) (hsize : size ≤ dataLength)
    (hle : dataLength * c.part.2 + size ≤ payload.length) :
    let c' := c.append ((payload.drop (dataLength * c.part.2)).take dataLength) size
    c'.fill = dataLength * c.part.2 + size ∧ c'.buff.length = payload.length ∧
      c'.buff.take c'.fill = (payload.take c'.fill).map some := by
  have hfill := h.fill
  have hlen := h.length
  have hstart := h.start
  have hgrow : ¬ (c.fill ≥ c.buff.length ∨ size = 0) := by
    rw [hfill, hlen]
    omega
  have hnew : min (c.fill + size) c.buff.length = dataLength * c.part.2 + size := by
    rw [hfill, hlen]
    omega
  simp only [Cache.append, hgrow, if_false, hnew]
  rw [hfill] at hstart ⊢
  have hmid : (slotBytes ((payload.drop (dataLength * c.part.2)).take dataLength)).take
      (dataLength * c.part.2 + size - dataLength * c.part.2) =
        (payload.drop (dataLength * c.part.2)).take size := by
    rw [Nat.add_sub_cancel_left]
    exact drop_take_eq payload hsize hle
  rw [hmid, hstart]
  refine ⟨trivial, ?_, ?_⟩
  · simp only [List.length_append, List.length_map, List.length_take, List.length_drop, hlen]
    omega
  · have hstarts : (payload.take (dataLength * c.part.2)).map some ++
        ((payload.drop (dataLength * c.part.2)).take size).map some =
          (payload.take (dataLength * c.part.2 + size)).map some := by
      rw [← List.map_append, List.take_add]
    rw [hstarts, List.take_append_of_le_length (by simp; omega), List.take_of_length_le (by simp)]

/-- The bytes of fragment `j`. -/
def fragmentData (payload : List UInt8) (j : ℕ) : List UInt8 :=
  (payload.drop (dataLength * j)).take dataLength

/-- `recv` on a fragment, by what the receiver has and by how much of the payload is left. -/
theorem recvMsg_fragment {contents : ChunkId → ℕ → UInt8} {caches : Caches} {id : BitVec 32}
    {payload : List UInt8} {j : ℕ} {origin : ℕ × ℕ} (hlen : payload.length < 2 ^ 31)
    (hj : dataLength * j < payload.length) :
    recvMsg contents caches (fragmentMsg id payload j) origin =
      match caches.lookup id with
      | none =>
          if payload.length - dataLength * j ≤ dataLength then
            (some (makeCache (fragmentData payload j) (payload.length - dataLength * j)), caches)
          else
            (none, (id, ⟨dataLength,
              makeCache (fragmentData payload j) (payload.length - dataLength * j),
              (origin.1, origin.2 + 1)⟩) :: gc id caches)
      | some c =>
          if payload.length - dataLength * j ≤ dataLength then
            (some (c.append (fragmentData payload j) (payload.length - dataLength * j)).buff,
              erase id caches)
          else
            (none, (id, { c.append (fragmentData payload j) dataLength with
              part := (origin.1, origin.2 + 1) }) :: erase id caches) := by
  obtain ⟨hr, hremain⟩ := rSize_fragmentMsg id hlen hj
  have hbody : (fragmentMsg id payload j).body = .bytes (fragmentData payload j) := rfl
  have hid : (fragmentMsg id payload j).id = id := rfl
  have hpos : ¬ (fragmentMsg id payload j).rSize ≤ 0 := by omega
  have hlast : (fragmentMsg id payload j).remain.toInt ≤ 0 ↔
      payload.length - dataLength * j ≤ dataLength := by omega
  rw [recvMsg, if_neg hpos]
  simp only [hbody, hid, hr, Int.toNat_natCast, hlast]
  all_goals cases caches.lookup id <;> rfl

/-- `recv` on the id of a chunk. -/
theorem recvMsg_chunk {contents : ChunkId → ℕ → UInt8} {caches : Caches} {msgId : BitVec 32}
    {size id : ℕ} {origin : ℕ × ℕ} (hpos : 0 < size) (hsize : size < 2 ^ 31) :
    recvMsg contents caches (.ofChunk msgId size id) origin =
      (some ((List.range size).map fun n => some (contents (calcChunkSize size, id) n)), caches) := by
  have hr := Channel.rSize_ofChunk msgId id hsize
  have hbody : (Msg.ofChunk msgId size id).body = .storage id := rfl
  have hnot : ¬ (Msg.ofChunk msgId size id).rSize ≤ 0 := by omega
  rw [recvMsg, if_neg hnot]
  simp only [hbody, hr, Int.toNat_natCast]

/-- What a receiver has when a fragment continues it. -/
private theorem lookup_of_continues {caches : Caches} {id : BitVec 32} {payload : List UInt8}
    {origin : ℕ × ℕ} (h : Continues caches (fragmentMsg id payload origin.2) origin) :
    (caches.lookup id = none ∧ origin.2 = 0) ∨
      ∃ c, caches.lookup id = some c ∧ c.part = origin ∧ (id, c) ∈ caches := by
  have hmap : (caches.lookup id).map Cache.part =
      if origin.2 = 0 then none else some origin := h
  cases hlookup : caches.lookup id with
  | none =>
      refine Or.inl ⟨rfl, ?_⟩
      by_contra hne
      simp [hlookup, hne] at hmap
  | some c =>
      obtain ⟨before, after, hsplit, -⟩ := List.lookup_eq_some_iff.mp hlookup
      refine Or.inr ⟨c, rfl, ?_, by rw [hsplit]; simp⟩
      rw [hlookup] at hmap
      split at hmap
      · cases hmap
      · exact Option.some.inj hmap

/-- The buffer `make_cache` starts for a payload of several fragments. -/
private theorem makeCache_first {payload : List UInt8} (hlarge : dataLength < payload.length) :
    makeCache (fragmentData payload 0) payload.length =
      (payload.take dataLength).map some ++
        List.replicate (payload.length - dataLength) none := by
  have hdata : fragmentData payload 0 = payload.take dataLength := by simp [fragmentData]
  have hlength : (payload.take dataLength).length = dataLength := by
    rw [List.length_take]
    omega
  have hslot : slotBytes (payload.take dataLength) = payload.take dataLength := by
    simp [slotBytes, hlength]
  rw [makeCache, hdata, hslot, List.take_of_length_le (by omega)]

/-- `recv` returns a payload when it returns anything. -/
theorem recvMsg_whole {contents : ChunkId → ℕ → UInt8} {caches caches' : Caches} {m : Msg}
    {payload : List UInt8} {origin : ℕ × ℕ} {buff : List (Option UInt8)}
    (hlen : payload.length < 2 ^ 31) (hcarries : Carries contents m payload origin.2)
    (hcontinues : Continues caches m origin)
    (hcaches : ∀ c, (m.id, c) ∈ caches → c.part = origin → CacheOk c payload)
    (hrecv : recvMsg contents caches m origin = (some buff, caches')) : buff = payload.map some := by
  rcases hcarries with ⟨id, hj, rfl⟩ | ⟨msgId, id, hlarge, rfl, hholds⟩
  · rw [recvMsg_fragment hlen hj] at hrecv
    rcases lookup_of_continues hcontinues with ⟨hlookup, hzero⟩ | ⟨c, hlookup, hpart, hmem⟩
    · simp only [hlookup, hzero, Nat.mul_zero, Nat.sub_zero] at hrecv
      split at hrecv
      · rename_i hsmall
        obtain ⟨hbuff, -⟩ := Prod.mk.inj hrecv
        have hall := drop_take_eq payload (j := 0) hsmall (by simp)
        rw [← Option.some.inj hbuff, makeCache, Nat.sub_eq_zero_of_le hsmall, fragmentData, hall]
        simp
      · cases (Prod.mk.inj hrecv).1
    · simp only [hlookup] at hrecv
      split at hrecv
      · rename_i hsize
        obtain ⟨hbuff, -⟩ := Prod.mk.inj hrecv
        have hok := hcaches c hmem hpart
        rw [← hpart] at hbuff hsize hj
        obtain ⟨hfill, hbl, htake⟩ := append_fragment hok (by omega) hsize (by omega)
        have hall : dataLength * c.part.2 + (payload.length - dataLength * c.part.2) =
            payload.length := by omega
        rw [hfill, hall, List.take_length, List.take_of_length_le (by rw [hbl])] at htake
        rw [← Option.some.inj hbuff, fragmentData]
        exact htake
      · cases (Prod.mk.inj hrecv).1
  · rw [recvMsg_chunk (by omega) hlen] at hrecv
    obtain ⟨hbuff, -⟩ := Prod.mk.inj hrecv
    rw [← Option.some.inj hbuff]
    exact holds_map hholds

/-- What `recv` puts into the cache is the start of the payload, one fragment longer. -/
theorem recvMsg_cache {contents : ChunkId → ℕ → UInt8} {caches caches' : Caches} {m : Msg}
    {payload : List UInt8} {origin : ℕ × ℕ} {buff : Option (List (Option UInt8))}
    (hlen : payload.length < 2 ^ 31) (hcarries : Carries contents m payload origin.2)
    (hcontinues : Continues caches m origin)
    (hcaches : ∀ c, (m.id, c) ∈ caches → c.part = origin → CacheOk c payload)
    (hrecv : recvMsg contents caches m origin = (buff, caches')) :
    ∀ e ∈ caches', e ∈ caches ∨
      e.2.part = (origin.1, origin.2 + 1) ∧ CacheOk e.2 payload := by
  have hgc : ∀ id, ∀ e ∈ gc id caches, e ∈ caches := by
    intro id e he
    unfold gc at he
    split at he
    · exact List.mem_of_mem_filter he
    · exact he
  rcases hcarries with ⟨id, hj, rfl⟩ | ⟨msgId, id, hlarge, rfl, hholds⟩
  · rw [recvMsg_fragment hlen hj] at hrecv
    rcases lookup_of_continues hcontinues with ⟨hlookup, hzero⟩ | ⟨c, hlookup, hpart, hmem⟩
    · simp only [hlookup, hzero, Nat.mul_zero, Nat.sub_zero] at hrecv
      split at hrecv
      · obtain ⟨-, rfl⟩ := Prod.mk.inj hrecv
        exact fun e he => Or.inl he
      · rename_i hmore
        obtain ⟨-, rfl⟩ := Prod.mk.inj hrecv
        intro e he
        rcases List.mem_cons.mp he with rfl | he
        · right
          have hlarge : dataLength < payload.length := by omega
          refine ⟨by rw [hzero], Nat.succ_pos _, by simpa [hzero] using hlarge, by simp,
            ?_, ?_⟩
          · simp only [makeCache_first hlarge, List.length_append, List.length_map,
              List.length_take, List.length_replicate]
            omega
          · simp only [makeCache_first hlarge]
            rw [List.take_append_of_le_length (by simp; omega), List.take_of_length_le (by simp)]
        · exact Or.inl (hgc id e he)
    · simp only [hlookup] at hrecv
      have herase : ∀ e ∈ erase id caches, e ∈ caches := fun e he => List.mem_of_mem_filter he
      split at hrecv
      · obtain ⟨-, rfl⟩ := Prod.mk.inj hrecv
        exact fun e he => Or.inl (herase e he)
      · rename_i hmore
        obtain ⟨-, rfl⟩ := Prod.mk.inj hrecv
        intro e he
        rcases List.mem_cons.mp he with rfl | he
        · right
          have hok := hcaches c hmem hpart
          rw [← hpart] at hmore hj ⊢
          obtain ⟨hfill, hbl, htake⟩ :=
            append_fragment hok (by decide : 0 < dataLength) le_rfl (by omega)
          exact ⟨rfl, Nat.succ_pos _, by simp only [Nat.mul_succ]; omega,
            by rw [Nat.mul_succ]; exact hfill, hbl, htake⟩
        · exact Or.inl (herase e he)
  · rw [recvMsg_chunk (by omega) hlen] at hrecv
    obtain ⟨-, rfl⟩ := Prod.mk.inj hrecv
    exact fun e he => Or.inl he

/-! ## The invariant -/

/-- Send number `k` was of a payload whose length fits `int32_t`. -/
def Sent (s : State) (k : ℕ) (payload : List UInt8) : Prop :=
  s.sent[k]? = some payload ∧ payload.length < 2 ^ 31

/-- What the sender still has to push belongs to a payload that was sent. -/
def SendingOk (s : State) : Prop :=
  match s.sending with
  | .idle => s.base.pending = []
  | .chunk _ serial =>
      ∃ payload id, Sent s serial payload ∧ dataLength < payload.length ∧
        s.base.pending = [⟨id, payload.length, false⟩] ∧
        Holds s.contents (calcChunkSize payload.length, id) payload
  | .fragments _ serial next rest =>
      s.base.pending = [] ∧ ∃ payload, Sent s serial payload ∧ rest = (fragments payload).drop next

/-- **The invariant.**  Unread slots carry what was sent, and caches hold the start of what
was sent. -/
structure Inv (s : State) : Prop where
  ledger : Ledger s.base
  sending : SendingOk s
  slots : ∀ i, (s.base.ring.elems i).rem ≠ 0#32 → ∃ o payload, s.origin i = some o ∧
    Sent s o.1 payload ∧ Carries s.contents (s.base.ring.elems i).data payload o.2
  caches : ∀ r, ∀ e ∈ s.caches r, ∃ payload, Sent s e.2.part.1 payload ∧ CacheOk e.2 payload
  returned : WholeMessages s

theorem inv_init : Inv init where
  ledger := Channel.ledger_init
  sending := rfl
  slots := by simp [init, Channel.init, Ring.zeroed]
  caches := by simp [init]
  returned := by simp [WholeMessages, init]

theorem Sent.unique {s : State} {k : ℕ} {p p' : List UInt8} (h : Sent s k p) (h' : Sent s k p') :
    p = p' := Option.some.inj (h.1.symm.trans h'.1)

/-- Steps that send and return nothing: slots may lose readers, caches may lose entries. -/
theorem Inv.frame {s t : State} (h : Inv s) (hledger : Ledger t.base)
    (hslots : ∀ i, (t.base.ring.elems i).data = (s.base.ring.elems i).data ∧
      ((t.base.ring.elems i).rem ≠ 0#32 → (s.base.ring.elems i).rem ≠ 0#32))
    (hcontents : t.contents = s.contents) (horigin : t.origin = s.origin)
    (hsent : t.sent = s.sent) (hreturned : t.returned = s.returned)
    (hcaches : ∀ r, ∀ e ∈ t.caches r, e ∈ s.caches r) (hsending : SendingOk t) : Inv t where
  ledger := hledger
  sending := hsending
  slots := by
    intro i hi
    obtain ⟨o, payload, ho, hs, hcarries⟩ := h.slots i ((hslots i).2 hi)
    refine ⟨o, payload, by rw [horigin]; exact ho, ?_, ?_⟩
    · unfold Sent
      rw [hsent]
      exact hs
    · rw [hcontents, (hslots i).1]
      exact hcarries
  caches := by
    intro r e he
    unfold Sent
    rw [hsent]
    exact h.caches r e (hcaches r e he)
  returned := by
    unfold WholeMessages
    rw [hreturned, hsent]
    exact h.returned

/-- The sender writes a slot for a payload that was sent. -/
theorem Inv.wrote {s t : State} (h : Inv s) (hledger : Ledger t.base) {m : Msg}
    (hwrote : Channel.Wrote s.base.ring t.base.ring m) {o : ℕ × ℕ} {payload : List UInt8}
    (hpayload : Sent s o.1 payload) (hcarries : Carries s.contents m payload o.2)
    (hcontents : t.contents = s.contents)
    (horigin : t.origin = Function.update s.origin (indexOf s.base.ring.wt) (some o))
    (hsent : t.sent = s.sent) (hreturned : t.returned = s.returned)
    (hcaches : t.caches = s.caches) (hsending : SendingOk t) : Inv t where
  ledger := hledger
  sending := hsending
  slots := by
    intro i hi
    by_cases hindex : i = indexOf s.base.ring.wt
    · refine ⟨o, payload, by rw [horigin, hindex]; simp, ?_, ?_⟩
      · unfold Sent
        rw [hsent]
        exact hpayload
      · rw [hcontents, hindex, hwrote.1]
        exact hcarries
    · rw [hwrote.2 i hindex] at hi ⊢
      obtain ⟨o', payload', ho, hs, hc⟩ := h.slots i hi
      refine ⟨o', payload', by rw [horigin]; simpa [hindex] using ho, ?_, ?_⟩
      · unfold Sent
        rw [hsent]
        exact hs
      · rw [hcontents]
        exact hc
  caches := by
    intro r e he
    unfold Sent
    rw [hsent]
    rw [hcaches] at he
    exact h.caches r e he
  returned := by
    unfold WholeMessages
    rw [hreturned, hsent]
    exact h.returned

/-- The bytes copied to a chunk. -/
theorem holds_copyTo (contents : ChunkId → ℕ → UInt8) (c : ChunkId) (payload : List UInt8) :
    Holds (copyTo contents c payload) c payload := by
  intro n hn
  simp [copyTo, hn]

/-- Copying to a chunk changes no other. -/
theorem copyTo_of_ne (contents : ChunkId → ℕ → UInt8) {c d : ChunkId} (payload : List UInt8)
    (h : d ≠ c) : copyTo contents c payload d = contents d := by
  simp [copyTo, h]

/-! ## The steps -/

private theorem Sent.append {s t : State} {payload : List UInt8}
    (hsent : t.sent = s.sent ++ [payload]) {k : ℕ} {p : List UInt8} (h : Sent s k p) :
    Sent t k p := by
  obtain ⟨hk, hlen⟩ := h
  obtain ⟨hlt, -⟩ := List.getElem?_eq_some_iff.mp hk
  refine ⟨?_, hlen⟩
  rw [hsent, List.getElem?_append_left hlt]
  exact hk

/-- A send begins: the payload joins the list, and the chunk it is copied to, if any, is one
that no unread slot announces. -/
private theorem Inv.begin {s t : State} (h : Inv s) (hledger : Ledger t.base)
    (helems : t.base.ring.elems = s.base.ring.elems) {payload : List UInt8}
    (hsent : t.sent = s.sent ++ [payload]) (horigin : t.origin = s.origin)
    (hcaches : t.caches = s.caches) (hreturned : t.returned = s.returned)
    (hcontents : t.contents = s.contents ∨ ∃ p ∈ t.base.pending,
      t.contents = copyTo s.contents p.chunk payload)
    (hsending : SendingOk t) : Inv t where
  ledger := hledger
  sending := hsending
  slots := by
    intro i hi
    rw [helems] at hi ⊢
    obtain ⟨o, p, ho, hs, hcarries⟩ := h.slots i hi
    refine ⟨o, p, by rw [horigin]; exact ho, hs.append hsent, ?_⟩
    rcases hcontents with hsame | ⟨pend, hpend, hcopy⟩
    · rw [hsame]
      exact hcarries
    · rcases hcarries with hfragment | ⟨msgId, id, hlarge, hm, hholds⟩
      · exact Or.inl hfragment
      · refine Or.inr ⟨msgId, id, hlarge, hm, ?_⟩
        have hqueued : Queued t.base.ring i (calcChunkSize p.length, id) := by
          unfold Channel.Queued
          rw [helems, hm]
          exact ⟨hi, Channel.chunk_ofChunk msgId id (by omega) hs.2⟩
        have hne : (calcChunkSize p.length, id) ≠ pend.chunk :=
          fun heq => hledger.pendingSlot pend hpend i (heq ▸ hqueued)
        unfold Holds
        rw [hcopy, copyTo_of_ne _ _ hne]
        exact hholds
  caches := by
    intro r e he
    rw [hcaches] at he
    obtain ⟨p, hs, hok⟩ := h.caches r e he
    exact ⟨p, hs.append hsent, hok⟩
  returned := by
    unfold WholeMessages
    rw [hreturned, hsent]
    intro b hb
    obtain ⟨p, hp, heq⟩ := h.returned b hb
    exact ⟨p, List.mem_append_left _ hp, heq⟩

/-- The channel after a step that meets the condition. -/
private theorem ledger_baseStep {s : State} (h : Ledger s.base) {a : Action}
    (hcareful : ∀ b ∈ baseAction s a, Careful s.base b) {base : Channel.State}
    (hstep : baseStep s a = some base) : Ledger base := by
  unfold baseStep at hstep
  split at hstep
  · cases hstep
    exact h
  · rename_i b hb
    exact Channel.ledger_step s.base b base h (hcareful b hb) hstep

private theorem inv_send {s t : State} (h : Inv s) {payload : List UInt8}
    (hguard : InOrder s (.send payload)) (hstep : step s (.send payload) = some t) : Inv t := by
  have hsending := h.sending
  obtain ⟨hcareful, hlen⟩ := hguard
  unfold step at hstep
  split at hstep
  · cases hstep
  · rename_i base hbase
    have hledger := ledger_baseStep h.ledger hcareful hbase
    simp only at hstep
    split at hstep
    · rename_i hidle
      simp only [SendingOk, hidle] at hsending
      split at hstep
      · cases hstep
      · -- the base step acquired a chunk, or left the ring and the pending list alone
        have hspec : base.ring.elems = s.base.ring.elems ∧ (base.pending = [] ∨
            dataLength < payload.length ∧
              ∃ id, base.pending = [⟨id, payload.length, false⟩]) := by
          simp only [baseStep, baseAction] at hbase
          split at hbase
          · rename_i hnone
            cases hbase
            exact ⟨rfl, Or.inl hsending⟩
          · rename_i b hb
            split at hb
            · rename_i hlarge
              cases hb
              simp only [Channel.step] at hbase
              split at hbase
              · cases hbase
              · cases hbase
                obtain ⟨hring, hpending⟩ := Channel.acquire_spec s.base payload.length false
                refine ⟨by rw [hring], ?_⟩
                rcases hpending with hp | ⟨id, hp⟩
                · exact Or.inl (hp.trans hsending)
                · exact Or.inr ⟨hlarge, id, by rw [hp, hsending]⟩
            · cases hb
        obtain ⟨helems, hpending⟩ := hspec
        have hserial : (s.sent ++ [payload])[s.sent.length]? = some payload := by simp
        split at hstep
        · rename_i p rest hp
          cases hstep
          rcases hpending with hnil | ⟨hlarge, id, hone⟩
          · rw [hnil] at hp
            cases hp
          · rw [hone] at hp
            obtain ⟨rfl, rfl⟩ := List.cons.inj hp
            refine h.begin hledger helems rfl rfl rfl rfl
              (Or.inr ⟨⟨id, payload.length, false⟩, by rw [hone]; simp, rfl⟩) ?_
            exact ⟨payload, id, ⟨hserial, hlen⟩, hlarge, hone, holds_copyTo _ _ _⟩
        · rename_i hp
          cases hstep
          refine h.begin hledger helems rfl rfl rfl rfl (Or.inl rfl) ?_
          exact ⟨hp, payload, ⟨hserial, hlen⟩, rfl⟩
    · cases hstep

/-- What the next push of the sender writes, and what is left after it. -/
private theorem pushed_spec {s : State} (h : SendingOk s) {sending : Sending} {o : ℕ × ℕ}
    (hpushed : pushed s.sending = some (sending, o)) :
    ∃ m payload, Sent s o.1 payload ∧ Carries s.contents m payload o.2 ∧
      (∀ t : State, t.sending = sending → t.sent = s.sent → t.base.pending = [] → SendingOk t) ∧
      ((∃ msgId serial p, s.sending = .chunk msgId serial ∧ s.base.pending = [p] ∧
          m = .ofChunk msgId p.size p.id) ∨
        ∃ msgId serial next remain data rest,
          s.sending = .fragments msgId serial next ((remain, data) :: rest) ∧
            s.base.pending = [] ∧ m = ⟨msgId, remain, .bytes data⟩) := by
  have hidle : ∀ t : State, t.sending = .idle → t.base.pending = [] → SendingOk t := by
    intro t ht hp
    simp only [SendingOk, ht]
    exact hp
  unfold pushed at hpushed
  unfold SendingOk at h
  split at hpushed
  · cases hpushed
  · rename_i msgId serial hsending
    simp only [hsending] at h
    obtain ⟨payload, id, hsent, hlarge, hpending, hholds⟩ := h
    obtain ⟨rfl, rfl⟩ := Prod.mk.inj (Option.some.inj hpushed)
    refine ⟨_, payload, hsent, Or.inr ⟨msgId, id, hlarge, rfl, hholds⟩,
      fun t ht _ hp => hidle t ht hp, Or.inl ⟨msgId, serial, _, hsending, hpending, rfl⟩⟩
  · cases hpushed
  · rename_i msgId serial next x hsending
    simp only [hsending] at h
    obtain ⟨hpending, payload, hsent, hrest⟩ := h
    obtain ⟨rfl, rfl⟩ := Prod.mk.inj (Option.some.inj hpushed)
    have hx : (fragments payload)[next]? = some x := by
      rw [← List.head?_drop, ← hrest]
      rfl
    obtain ⟨hlt, hmsg⟩ := getElem?_fragments hx
    exact ⟨_, payload, hsent, Or.inl ⟨msgId, hlt, hmsg msgId⟩,
      fun t ht _ hp => hidle t ht hp,
      Or.inr ⟨msgId, serial, next, x.1, x.2, [], hsending, hpending, rfl⟩⟩
  · rename_i msgId serial next x rest _ hsending
    simp only [hsending] at h
    obtain ⟨hpending, payload, hsent, hrest⟩ := h
    obtain ⟨rfl, rfl⟩ := Prod.mk.inj (Option.some.inj hpushed)
    have hx : (fragments payload)[next]? = some x := by
      rw [← List.head?_drop, ← hrest]
      rfl
    obtain ⟨hlt, hmsg⟩ := getElem?_fragments hx
    refine ⟨_, payload, hsent, Or.inl ⟨msgId, hlt, hmsg msgId⟩, ?_,
      Or.inr ⟨msgId, serial, next, x.1, x.2, rest, hsending, hpending, rfl⟩⟩
    intro t ht hts hp
    simp only [SendingOk, ht]
    refine ⟨hp, payload, ?_, ?_⟩
    · unfold Sent
      rw [hts]
      exact hsent
    · rw [← List.tail_drop, ← hrest]
      rfl

private theorem inv_push {s t : State} (h : Inv s) (hguard : InOrder s .push)
    (hstep : step s .push = some t) : Inv t := by
  unfold step at hstep
  split at hstep
  · cases hstep
  · rename_i base hbase
    have hledger := ledger_baseStep h.ledger hguard.1 hbase
    simp only at hstep
    split at hstep
    · cases hstep
    · rename_i sending o hpushed
      cases hstep
      obtain ⟨m, payload, hsent, hcarries, hrest, hkind⟩ := pushed_spec h.sending hpushed
      rcases hkind with ⟨msgId, serial, p, hs, hp, rfl⟩ |
        ⟨msgId, serial, next, remain, data, rest, hs, hp, rfl⟩
      · simp only [baseStep, baseAction, hs, Channel.step, hp, List.getElem?_cons_zero,
          List.eraseIdx_cons_zero] at hbase
        obtain ⟨hwrote, hpending⟩ := Channel.push_spec hbase
        exact h.wrote hledger hwrote hsent hcarries rfl rfl rfl rfl rfl (hrest _ rfl rfl hpending)
      · simp only [baseStep, baseAction, hs, Channel.step] at hbase
        obtain ⟨hwrote, hpending⟩ := Channel.push_spec hbase
        exact h.wrote hledger hwrote hsent hcarries rfl rfl rfl rfl rfl
          (hrest _ rfl rfl (hpending.trans hp))

private theorem inv_forcePush {s t : State} (h : Inv s) (hguard : InOrder s .forcePush)
    (hstep : step s .forcePush = some t) : Inv t := by
  unfold step at hstep
  split at hstep
  · cases hstep
  · rename_i base hbase
    have hledger := ledger_baseStep h.ledger hguard.1 hbase
    simp only at hstep
    split at hstep
    · cases hstep
    · rename_i sending o hpushed
      obtain ⟨m, payload, hsent, hcarries, hrest, hkind⟩ := pushed_spec h.sending hpushed
      -- without a reader nothing is written, otherwise the message is
      have hspec : base.pending = [] ∧
          if s.base.ring.cc = 0#32 then base.ring.elems = s.base.ring.elems
          else Channel.Wrote s.base.ring base.ring m := by
        rcases hkind with ⟨msgId, serial, p, hs, hp, rfl⟩ |
          ⟨msgId, serial, next, remain, data, rest, hs, hp, rfl⟩
        · simp only [baseStep, baseAction, hs, Channel.step, hp, List.getElem?_cons_zero,
            List.eraseIdx_cons_zero] at hbase
          split at hbase
          · rename_i u hforce
            cases hbase
            obtain ⟨hpending, hring⟩ := Channel.forcePush_spec hforce
            refine ⟨hpending, ?_⟩
            by_cases hcc : s.base.ring.cc = 0#32
            · rw [if_pos (by exact hcc)] at hring
              cases hring.1
            · rw [if_neg (by exact hcc)] at hring ⊢
              exact hring.2
          · rename_i u hforce
            cases hbase
            obtain ⟨hpending, hring⟩ := Channel.forcePush_spec hforce
            refine ⟨?_, ?_⟩
            · split <;> exact hpending
            · by_cases hcc : s.base.ring.cc = 0#32
              · rw [if_pos (by exact hcc)] at hring ⊢
                split <;> exact hring.2
              · rw [if_neg (by exact hcc)] at hring
                cases hring.1
        · simp only [baseStep, baseAction, hs, Channel.step, Option.some.injEq] at hbase
          have hforce : Channel.forcePush s.base ⟨msgId, remain, .bytes data⟩ = (_, base) :=
            Prod.ext rfl hbase
          obtain ⟨hpending, hring⟩ := Channel.forcePush_spec hforce
          refine ⟨hpending.trans hp, ?_⟩
          by_cases hcc : s.base.ring.cc = 0#32
          · simp only [hcc, if_true] at hring ⊢
            exact hring.2
          · simp only [hcc, if_false] at hring ⊢
            exact hring.2
      obtain ⟨hpending, hring⟩ := hspec
      split at hstep
      · rename_i hcc
        cases hstep
        rw [if_pos hcc] at hring
        refine h.frame hledger (fun i => ?_) rfl rfl rfl rfl (fun _ _ he => he) hpending
        simp only [hring]
        exact ⟨trivial, id⟩
      · rename_i hcc
        cases hstep
        rw [if_neg hcc] at hring
        exact h.wrote hledger hring hsent hcarries rfl rfl rfl rfl rfl (hrest _ rfl rfl hpending)

private theorem inv_giveUp {s t : State} (h : Inv s) (hguard : InOrder s .giveUp)
    (hstep : step s .giveUp = some t) : Inv t := by
  have hsending := h.sending
  unfold step at hstep
  split at hstep
  · cases hstep
  · rename_i base hbase
    have hledger := ledger_baseStep h.ledger hguard.1 hbase
    simp only [baseStep, baseAction] at hbase
    simp only at hstep
    unfold SendingOk at hsending
    split at hstep
    · cases hstep
    · cases hstep
      have hspec : base.ring.elems = s.base.ring.elems ∧ base.pending = [] := by
        cases hs : s.sending with
        | idle =>
            simp only [hs] at hbase hsending
            cases hbase
            exact ⟨rfl, hsending⟩
        | fragments msgId serial next rest =>
            simp only [hs] at hbase hsending
            cases hbase
            exact ⟨rfl, hsending.1⟩
        | chunk msgId serial =>
            simp only [hs] at hbase hsending
            obtain ⟨payload, id, -, -, hpending, -⟩ := hsending
            simp only [Channel.step, hpending, List.getElem?_cons_zero, Bool.false_eq_true,
              if_false, List.eraseIdx_cons_zero] at hbase
            cases hbase
            exact ⟨rfl, rfl⟩
      refine h.frame hledger (fun i => ?_) rfl rfl rfl rfl (fun _ _ he => he) hspec.2
      simp only [hspec.1]
      exact ⟨trivial, id⟩

private theorem SendingOk.congr {s t : State} (h : SendingOk s) (hsending : t.sending = s.sending)
    (hsent : t.sent = s.sent) (hcontents : t.contents = s.contents)
    (hpending : t.base.pending = s.base.pending) : SendingOk t := by
  unfold SendingOk Sent at h ⊢
  rw [hsending, hsent, hcontents, hpending]
  exact h

/-- What a pop does: nothing to the slots, or it takes a bit out of the slot it delivers. -/
private theorem pop_spec {s t : Channel.State} {r : ℕ}
    (h : Channel.step s (.pop r) = some t) :
    t.pending = s.pending ∧ (∀ i, (t.ring.elems i).data = (s.ring.elems i).data ∧
      ((t.ring.elems i).rem ≠ 0#32 → (s.ring.elems i).rem ≠ 0#32)) ∧
      ∀ i, (s.ring.nextSlot (s.queues r)).2 = some i → (s.ring.elems i).rem ≠ 0#32 := by
  simp only [Channel.step] at h
  split at h
  · rename_i hconn
    have hne : (s.queues r).connected ≠ 0#32 := by
      rw [Ring.isConnected_iff] at hconn
      intro hzero
      rw [hzero] at hconn
      exact hconn BitVec.and_zero
    split at h
    · rename_i ring q hpop
      cases h
      obtain ⟨rfl, -⟩ := Ring.pop_none hpop
      refine ⟨rfl, fun i => ⟨rfl, id⟩, ?_⟩
      intro i hi
      unfold Ring.pop at hpop
      split at hpop
      · rename_i hnone
        rw [hnone] at hi
        cases hi
      · simp at hpop
    · rename_i m writable ring q hpop
      cases h
      obtain ⟨i, cur, hslot, -, hbit, rfl, rfl⟩ := Ring.pop_some hne hpop
      refine ⟨rfl, fun j => ?_, ?_⟩
      · by_cases hj : j = i
        · subst hj
          simp only [Ring.clear_elems_self]
          refine ⟨trivial, fun hrem hzero => hrem ?_⟩
          rw [hzero]
          exact BitVec.zero_and
        · simp only [s.ring.clear_elems_of_ne _ hj]
          exact ⟨trivial, id⟩
      · intro j hj
        rw [hslot] at hj
        obtain rfl := Option.some.inj hj
        intro hzero
        rw [hzero] at hbit
        exact hbit BitVec.zero_and
  · cases h

private theorem inv_recv {s t : State} (h : Inv s) {r : ℕ} (hguard : InOrder s (.recv r))
    (hstep : step s (.recv r) = some t) : Inv t := by
  obtain ⟨hcareful, hcontinues⟩ := hguard
  unfold step at hstep
  split at hstep
  · cases hstep
  · rename_i base hbase
    have hledger := ledger_baseStep h.ledger hcareful hbase
    simp only [baseStep, baseAction] at hbase
    obtain ⟨hpending, hslots, hheld⟩ := pop_spec hbase
    simp only at hstep
    split at hstep
    · cases hstep
      exact h.frame hledger hslots rfl rfl rfl rfl (fun _ _ he => he)
        (h.sending.congr rfl rfl rfl hpending)
    · rename_i i hi
      obtain ⟨o, payload, ho, hsent, hcarries⟩ := h.slots i (hheld i hi)
      have hnext := hcontinues i hi o ho
      -- an entry made from the fragments before this one belongs to the same payload
      have hentry : ∀ c, ((s.base.ring.elems i).data.id, c) ∈ s.caches r → c.part = o →
          CacheOk c payload := by
        intro c hc hpart
        obtain ⟨p, hs, hok⟩ := h.caches r _ hc
        simp only [hpart] at hs
        rwa [hs.unique hsent] at hok
      cases hrecv : recvMsg s.contents (s.caches r) (s.base.ring.elems i).data o with
      | mk buff caches =>
          simp only [ho, Option.getD_some, hrecv] at hstep
          cases hstep
          have hwhole : ∀ b ∈ buff, b = payload.map some := by
            intro b hb
            rw [Option.mem_def] at hb
            rw [hb] at hrecv
            exact recvMsg_whole hsent.2 hcarries hnext hentry hrecv
          have hcache := recvMsg_cache hsent.2 hcarries hnext hentry hrecv
          refine ⟨hledger, h.sending.congr rfl rfl rfl hpending, ?_, ?_, ?_⟩
          · intro j hj
            obtain ⟨o', p, ho', hs, hc⟩ := h.slots j ((hslots j).2 hj)
            refine ⟨o', p, ho', hs, ?_⟩
            simp only [(hslots j).1]
            exact hc
          · intro r' e he
            by_cases hr : r' = r
            · subst hr
              simp only [Function.update_self] at he
              rcases hcache e he with hold | ⟨hpart, hok⟩
              · exact h.caches r' e hold
              · refine ⟨payload, ?_, hok⟩
                rw [hpart]
                exact hsent
            · simp only [Function.update_of_ne hr] at he
              exact h.caches r' e he
          · intro b hb
            rcases List.mem_append.mp hb with hnew | hold
            · exact ⟨payload, List.mem_of_getElem? hsent.1,
                hwhole b (Option.mem_toList.mp hnew)⟩
            · exact h.returned b hold

/-- Connecting, disconnecting and dropping a buffer. -/
private theorem inv_quiet {s t : State} (h : Inv s) {a : Action} {b : Channel.Action}
    (hguard : InOrder s a) (ha : baseAction s a = some b)
    (hb : (∃ r, b = .connect r) ∨ (∃ r, b = .disconnect r) ∨ ∃ i, b = .drop i)
    (hstep : step s a = some t) (hcontents : t.contents = s.contents)
    (horigin : t.origin = s.origin) (hsent : t.sent = s.sent) (hreturned : t.returned = s.returned)
    (hsending : t.sending = s.sending) (hcaches : ∀ r, ∀ e ∈ t.caches r, e ∈ s.caches r) :
    Inv t := by
  have hbase := step_base hstep
  have hledger := ledger_baseStep h.ledger hguard.1 hbase
  simp only [baseStep, ha] at hbase
  obtain ⟨helems, hpending⟩ := Channel.step_quiet hb hbase
  exact h.frame hledger (fun i => by rw [helems]; exact ⟨rfl, id⟩) hcontents horigin hsent hreturned
    hcaches (h.sending.congr hsending hsent hcontents hpending)

/-- **One step.**  Every step that meets the condition keeps the invariant. -/
theorem inv_step (s : State) (a : Action) (t : State) (h : Inv s) (hguard : InOrder s a)
    (hstep : step s a = some t) : Inv t := by
  cases a with
  | connect r =>
      have ht := hstep
      unfold step at ht
      split at ht <;> cases ht
      exact inv_quiet h hguard rfl (Or.inl ⟨r, rfl⟩) hstep rfl rfl rfl rfl rfl (fun _ _ he => he)
  | disconnect r =>
      have ht := hstep
      unfold step at ht
      split at ht <;> cases ht
      refine inv_quiet h hguard rfl (Or.inr (Or.inl ⟨r, rfl⟩)) hstep rfl rfl rfl rfl rfl ?_
      intro r' e he
      simp only at he
      split at he
      · by_cases hr : r' = r
        · subst hr
          simp at he
        · simpa [Function.update_of_ne hr] using he
      · exact he
  | drop i =>
      have ht := hstep
      unfold step at ht
      split at ht <;> cases ht
      exact inv_quiet h hguard rfl (Or.inr (Or.inr ⟨i, rfl⟩)) hstep rfl rfl rfl rfl rfl
        (fun _ _ he => he)
  | send payload => exact inv_send h hguard hstep
  | push => exact inv_push h hguard hstep
  | forcePush => exact inv_forcePush h hguard hstep
  | giveUp => exact inv_giveUp h hguard hstep
  | recv r => exact inv_recv h hguard hstep

/-- **Whole messages.**  In every run whose steps meet the condition, every buffer `recv`
returns has the length and the bytes of one payload passed to `send`. -/
theorem whole_of_guarded {actions : List Action} {s : State}
    (hguard : machine.Guarded InOrder actions) (hrun : machine.run actions = some s) :
    WholeMessages s :=
  (Machine.invariant_of_guarded (M := machine) inv_init inv_step hguard hrun).returned

/-- A receiver is given a small payload and one that came in a chunk. -/
def wholeRun : List Action :=
  [.connect 0, .send [1, 2, 3], .push, .send (List.replicate 70 5), .push, .recv 0, .recv 0, .drop 0]

theorem whole_wholeRun : ∃ s, machine.run wholeRun = some s ∧ WholeMessages s := by
  have hsome : (machine.run wholeRun).isSome = true := by decide +kernel
  obtain ⟨s, hs⟩ := Option.isSome_iff_exists.mp hsome
  exact ⟨s, hs, whole_of_guarded (by decide +kernel) hs⟩

/-- The chunks of a size run out, the next payload is sent in two fragments, and receiver 1
connects between them. -/
def suffixRun : List Action :=
  .connect 0 :: (List.replicate 32 [.send (List.replicate 70 5), .push]).flatten ++
    [.send (List.replicate 64 1 ++ List.replicate 64 2), .push, .connect 1, .push, .recv 1]

/-- Not every run returns whole messages: a receiver that missed the first fragment is given
the second. -/
theorem suffix_returned : ¬ ∀ actions s, machine.run actions = some s → WholeMessages s := by
  intro hall
  have hreturned : (machine.run suffixRun).map (fun s => (s.returned, s.sent)) =
      some ([List.replicate 64 (some 2)], List.replicate 32 (List.replicate 70 5) ++
        [List.replicate 64 1 ++ List.replicate 64 2]) := by
    decide +kernel
  obtain ⟨s, hs, heq⟩ := Option.map_eq_some_iff.mp hreturned
  obtain ⟨hret, hsent⟩ := Prod.mk.inj heq
  obtain ⟨p, hp, hbuff⟩ := hall suffixRun s hs (List.replicate 64 (some 2)) (by rw [hret]; simp)
  have hlength : p.length = 64 := by
    have := congrArg List.length hbuff
    simpa using this.symm
  rw [hsent] at hp
  rcases List.mem_append.mp hp with hp | hp
  · rw [(List.mem_replicate.mp hp).2] at hlength
    simp at hlength
  · rw [List.mem_singleton.mp hp] at hlength
    simp at hlength

end DzIpc.LibIpc.Recv
