import DzIpc.LibIpc.RecvWhole
import DzIpc.LibIpc.SnifferSteps

/-!
# What the sniffer makes of a fragment

A fragment says by its message id and the length that is left what it belongs to; it does not
say whether it is the first.

* `EntryOk` says that an entry of `frags_` holds the first fragments of a payload.
* `takeSlot_fragment` is what the body of the loop of `try_recv_one` does with a fragment when
  it has all fragments of the message before it.
-/

namespace DzIpc.LibIpc.SnifferSteps

/-! ## Fragments -/

/-- Fragment `j` of a payload. -/
def fragmentSlot (ccId id : BitVec 32) (payload : List UInt8) (j : ℕ) : Slot :=
  .ofBytes ccId id (BitVec.ofNat 32 payload.length - BitVec.ofNat 32 (dataLength * j) -
    BitVec.ofNat 32 dataLength) (Recv.fragmentData payload j)

theorem getElem?_slotsOf {ccId id : BitVec 32} {payload : List UInt8} {j : ℕ} {slot : Slot}
    (h : (slotsOf ccId id payload)[j]? = some slot) :
    dataLength * j < payload.length ∧ slot = fragmentSlot ccId id payload j := by
  unfold slotsOf at h
  rw [List.getElem?_map] at h
  obtain ⟨x, hx, rfl⟩ := Option.map_eq_some_iff.mp h
  obtain ⟨hj, hmsg⟩ := Recv.getElem?_fragments hx
  have hfragment := hmsg id
  unfold Recv.fragmentMsg at hfragment
  obtain ⟨-, hremain, hbody⟩ := Msg.mk.inj hfragment
  refine ⟨hj, ?_⟩
  rw [fragmentSlot, Recv.fragmentData, hremain, Body.bytes.inj hbody]

theorem take_area {bytes : List UInt8} {n : ℕ} (hn : n ≤ bytes.length) (hsize : n ≤ dataLength) :
    (Slot.area bytes).take n = bytes.take n := by
  rw [Slot.area, List.take_take, Nat.min_eq_left hsize, Recv.take_slotBytes hn]

theorem length_fragmentData (payload : List UInt8) (j : ℕ) :
    (Recv.fragmentData payload j).length = min dataLength (payload.length - dataLength * j) := by
  rw [Recv.fragmentData, List.length_take, List.length_drop]

/-- The first bytes of a fragment are the bytes of the payload there. -/
theorem take_data (ccId id : BitVec 32) {payload : List UInt8} {j n : ℕ} (hsize : n ≤ dataLength)
    (hle : dataLength * j + n ≤ payload.length) :
    (fragmentSlot ccId id payload j).data.take n = (payload.drop (dataLength * j)).take n := by
  have hn : n ≤ (Recv.fragmentData payload j).length := by
    rw [length_fragmentData]
    omega
  change (Slot.area (Recv.fragmentData payload j)).take n = _
  rw [take_area hn hsize, Recv.fragmentData, List.take_take, Nat.min_eq_left hsize]

/-- The entry holds the first `k` fragments of a payload, but not all of it. -/
structure EntryOk (c : Entry) (payload : List UInt8) (k : ℕ) : Prop where
  some_left : dataLength * k < payload.length
  fill : c.fill = dataLength * k
  length : c.buf.length = payload.length
  start : c.buf.take (dataLength * k) = payload.take (dataLength * k)

/-- The entry that the first fragment of several makes. -/
theorem entryOk_first (ccId id : BitVec 32) {payload : List UInt8}
    (hlarge : dataLength < payload.length) :
    EntryOk ⟨dataLength, (fragmentSlot ccId id payload 0).data ++
      List.replicate (payload.length - dataLength) 0⟩ payload 1 where
  some_left := hlarge
  fill := (Nat.mul_one _).symm
  length := by
    rw [List.length_append, List.length_replicate, (fragmentSlot ccId id payload 0).size]
    omega
  start := by
    have hsize := (fragmentSlot ccId id payload 0).size
    have htake := take_data ccId id (j := 0) (Nat.le_refl dataLength)
      (by omega : dataLength * 0 + dataLength ≤ payload.length)
    rw [List.take_of_length_le (Nat.le_of_eq hsize), Nat.mul_zero, List.drop_zero] at htake
    rw [Nat.mul_one, List.take_left' hsize, htake]

/-- What `r_size` and `remain_` of a fragment say. -/
theorem sizes_fragmentSlot (ccId id : BitVec 32) {payload : List UInt8} {j : ℕ}
    (hlen : payload.length < 2 ^ 31) (hj : dataLength * j < payload.length) :
    (BitVec.ofNat 32 dataLength + (fragmentSlot ccId id payload j).remain).toInt
        = (payload.length - dataLength * j : ℕ) ∧
      ((fragmentSlot ccId id payload j).remain.toInt ≤ 0 ↔
        payload.length ≤ dataLength * (j + 1)) := by
  obtain ⟨hr, hremain⟩ := Recv.rSize_fragmentMsg id hlen hj
  have hrest : (fragmentSlot ccId id payload j).remain.toInt
      = ((payload.length - dataLength * j : ℕ) : ℤ) - dataLength := hremain
  refine ⟨hr, ?_⟩
  rw [hrest, Nat.mul_succ]
  omega

/-- The bytes of fragment `k` behind the fragments before it. -/
theorem EntryOk.overwrite {c : Entry} {payload : List UInt8} {k size : ℕ}
    (h : EntryOk c payload k) (ccId id : BitVec 32) (hsize : size ≤ dataLength)
    (hle : dataLength * k + size ≤ payload.length) :
    Blocks.overwrite c.buf c.fill ((fragmentSlot ccId id payload k).data.take size)
        = payload.take (dataLength * k + size) ++ c.buf.drop (dataLength * k + size) := by
  have hlen : ((payload.drop (dataLength * k)).take size).length = size := by
    rw [List.length_take, List.length_drop]
    omega
  rw [take_data ccId id hsize hle, Blocks.overwrite, h.fill, h.start, hlen, ← List.take_add]

/-- Fragment `k` appended to the fragments before it. -/
theorem EntryOk.append {c : Entry} {payload : List UInt8} {k : ℕ} (h : EntryOk c payload k)
    (ccId id : BitVec 32) (hlen : payload.length < 2 ^ 31) {n : ℕ}
    (hn : n = min (dataLength * (k + 1)) payload.length) :
    c.append (fragmentSlot ccId id payload k) (payload.length - dataLength * k)
      = ⟨n, payload.take n ++ c.buf.drop n⟩ := by
  obtain ⟨-, hlast⟩ := sizes_fragmentSlot ccId id hlen h.some_left
  have hleft := h.some_left
  rw [Nat.mul_succ] at hn hlast
  unfold Entry.append
  by_cases hend : payload.length ≤ dataLength * k + dataLength
  · obtain rfl : n = dataLength * k + (payload.length - dataLength * k) := by omega
    have hfits : ¬ c.fill + (payload.length - dataLength * k) > c.buf.length := by
      rw [h.fill, h.length]
      omega
    rw [if_pos (hlast.mpr hend)]
    dsimp only
    rw [if_neg hfits, h.overwrite ccId id (by omega) (by omega), h.fill]
  · obtain rfl : n = dataLength * k + dataLength := by omega
    have hfits : ¬ c.fill + dataLength > c.buf.length := by
      rw [h.fill, h.length]
      omega
    rw [if_neg (fun hle => hend (hlast.mp hle))]
    dsimp only
    rw [if_neg hfits, h.overwrite ccId id (Nat.le_refl _) (by omega), h.fill]

/-! ## The body of the loop -/

/-- `try_recv_one` on the first fragment of a message of which it has nothing. -/
theorem takeSlot_first {frags : Frags} {ccId id : BitVec 32} {payload : List UInt8}
    (hlen : payload.length < 2 ^ 31) (hpos : 0 < payload.length) (hnone : frags id = none)
    (allocated : Bool) (fetched : Option (List UInt8)) :
    takeSlot frags (fragmentSlot ccId id payload 0) allocated fetched =
      if payload.length ≤ dataLength then
        (if allocated then .ret payload else .next, frags)
      else
        (.next, Function.update frags id
          (some ⟨dataLength, (fragmentSlot ccId id payload 0).data ++
            List.replicate (payload.length - dataLength) 0⟩)) := by
  obtain ⟨hr, -⟩ := sizes_fragmentSlot ccId id (j := 0) hlen hpos
  rw [Nat.mul_zero, Nat.sub_zero] at hr
  have hid : (fragmentSlot ccId id payload 0).id = id := rfl
  have hinline : (fragmentSlot ccId id payload 0).storage = false := rfl
  unfold takeSlot
  rw [hr, if_neg (by omega), Int.toNat_natCast, hinline, if_neg Bool.false_ne_true, hid]
  simp only [hnone]
  by_cases hsmall : payload.length ≤ dataLength
  · have htake := take_data ccId id (j := 0) hsmall
      (by omega : dataLength * 0 + payload.length ≤ payload.length)
    rw [Nat.mul_zero, List.drop_zero, List.take_length] at htake
    rw [if_pos hsmall, if_pos hsmall, htake]
  · rw [if_neg hsmall, if_neg hsmall]

/-- `try_recv_one` on a fragment of a message of which it has the fragments before. -/
theorem takeSlot_next {frags : Frags} {ccId id : BitVec 32} {payload : List UInt8} {j : ℕ}
    {c : Entry} (hlen : payload.length < 2 ^ 31) (hsome : frags id = some c)
    (hok : EntryOk c payload j) (allocated : Bool) (fetched : Option (List UInt8)) :
    takeSlot frags (fragmentSlot ccId id payload j) allocated fetched =
      if payload.length ≤ dataLength * (j + 1) then
        (if allocated then .ret payload else .fail, Function.update frags id none)
      else
        (.next, Function.update frags id (some ⟨dataLength * (j + 1),
          payload.take (dataLength * (j + 1)) ++ c.buf.drop (dataLength * (j + 1))⟩)) := by
  obtain ⟨hr, hlast⟩ := sizes_fragmentSlot ccId id hlen hok.some_left
  have hleft := hok.some_left
  have hid : (fragmentSlot ccId id payload j).id = id := rfl
  have hinline : (fragmentSlot ccId id payload j).storage = false := rfl
  unfold takeSlot
  rw [hr, if_neg (by omega), Int.toNat_natCast, hinline, if_neg Bool.false_ne_true, hid]
  simp only [hsome]
  by_cases hend : payload.length ≤ dataLength * (j + 1)
  · have happend := hok.append ccId id hlen (Nat.min_eq_right hend).symm
    rw [List.take_length, List.drop_of_length_le (Nat.le_of_eq hok.length),
      List.append_nil] at happend
    rw [happend, if_pos (Or.inl (hlast.mpr hend)), if_pos hend]
  · have happend := hok.append ccId id hlen (Nat.min_eq_left (Nat.le_of_not_le hend)).symm
    have hmore : ¬ ((fragmentSlot ccId id payload j).remain.toInt ≤ 0 ∨
        dataLength * (j + 1) ≥ (payload.take (dataLength * (j + 1)) ++
          c.buf.drop (dataLength * (j + 1))).length) := by
      rw [hlast, List.length_append, List.length_take, List.length_drop, hok.length]
      omega
    rw [happend, if_neg hmore, if_neg hend]

/-- The entry after fragment `j`. -/
theorem EntryOk.next {c : Entry} {payload : List UInt8} {j : ℕ} (h : EntryOk c payload j)
    (hmore : dataLength * (j + 1) < payload.length) :
    EntryOk ⟨dataLength * (j + 1), payload.take (dataLength * (j + 1)) ++
      c.buf.drop (dataLength * (j + 1))⟩ payload (j + 1) where
  some_left := hmore
  fill := rfl
  length := by
    rw [List.length_append, List.length_take, List.length_drop, h.length]
    omega
  start := List.take_left' (List.length_take_of_le (Nat.le_of_lt hmore))

/-- **The body of the loop** on fragment `j`, with the fragments before it: what is returned is
the payload, and if there are fragments left, they will find this one. -/
theorem takeSlot_fragment (ccId : BitVec 32) {frags : Frags} {id : BitVec 32}
    {payload : List UInt8} {j : ℕ} (hlen : payload.length < 2 ^ 31) (hj : dataLength * j < payload.length)
    (hfirst : j = 0 → frags id = none)
    (hnext : 0 < j → ∃ c, frags id = some c ∧ EntryOk c payload j)
    (allocated : Bool) (fetched : Option (List UInt8)) :
    (∀ bytes, (takeSlot frags (fragmentSlot ccId id payload j) allocated fetched).1 = .ret bytes →
        bytes = payload ∧ payload.length ≤ dataLength * (j + 1)) ∧
      (dataLength * (j + 1) < payload.length →
        ∃ c, (takeSlot frags (fragmentSlot ccId id payload j) allocated fetched).2 id = some c ∧
          EntryOk c payload (j + 1)) := by
  have hbytes : ∀ (alternative : Outcome) (bytes : List UInt8), alternative = .next ∨
      alternative = .fail → (if allocated then .ret payload else alternative) = .ret bytes →
      bytes = payload := by
    intro alternative bytes halternative hret
    split at hret
    · exact (Outcome.ret.inj hret).symm
    · rcases halternative with rfl | rfl
      · cases hret
      · cases hret
  rcases Nat.eq_zero_or_pos j with rfl | hpos
  · rw [takeSlot_first hlen (by omega) (hfirst rfl)]
    rw [Nat.zero_add, Nat.mul_one]
    by_cases hsmall : payload.length ≤ dataLength
    · rw [if_pos hsmall]
      exact ⟨fun bytes hret => ⟨hbytes _ bytes (Or.inl rfl) hret, hsmall⟩,
        fun hmore => absurd hmore (Nat.not_lt.mpr hsmall)⟩
    · rw [if_neg hsmall]
      refine ⟨fun bytes hret => ?_, fun hmore => ⟨_, Function.update_self .., ?_⟩⟩
      · cases hret
      · exact entryOk_first ccId id hmore
  · obtain ⟨c, hsome, hok⟩ := hnext hpos
    rw [takeSlot_next hlen hsome hok]
    by_cases hend : payload.length ≤ dataLength * (j + 1)
    · rw [if_pos hend]
      exact ⟨fun bytes hret => ⟨hbytes _ bytes (Or.inr rfl) hret, hend⟩,
        fun hmore => absurd hmore (Nat.not_lt.mpr hend)⟩
    · rw [if_neg hend]
      refine ⟨fun bytes hret => ?_, fun hmore => ⟨_, Function.update_self .., ?_⟩⟩
      · cases hret
      · exact hok.next hmore

end DzIpc.LibIpc.SnifferSteps
