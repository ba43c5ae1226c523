import DzIpc.Library.WordLoop
import DzIpc.Udp.NackChoice

/-!
# The page loops of a receiver

Four loops of the receiver go through the pages of a message with a 16-bit page number: one
collects the explicit list of a NACK, two look for the first and the last missing page, and one
fills the window between them.  A page count of 65535 would let the counter wrap; a tail that
`valid_chunk_meta` accepts has far fewer pages (`pageCnt_lt`).

* `pageLoopsEnd`: all four end, with the lists that the receiver's NACKs are made of.
* `pageLoop_max`: with 65535 pages a loop without a way out would not end.
-/

namespace DzIpc.Udp

open Wire WordLoop

/-! ## The loops -/

/-- The page has not been received. -/
def Assembly.lacks (a : Assembly) (p : ℕ) : Bool :=
  a.received[p]? = some false

/-- The loop of `send_nack_for_missing`; it is left when the list is full. -/
def listBody (a : Assembly) (i : ℕ) (missingPages : List ℕ) : ForInStep (List ℕ) :=
  if a.lacks i then
    if (missingPages ++ [i]).length ≥ RtpsNackMsg.maxMissingPages then .done (missingPages ++ [i])
    else .yield (missingPages ++ [i])
  else .yield missingPages

/-- The first loop of `send_nack_bitmap_for_missing`, over `first_missing` and
`last_missing`. -/
def endsBody (a : Assembly) (i : ℕ) (ends : ℕ × ℕ) : ForInStep (ℕ × ℕ) :=
  if a.lacks i then .yield (if ends.1 = 0 then i else ends.1, i) else .yield ends

/-- The loop of `send_nack_auto`, over `miss_cnt` as well. -/
def countBody (a : Assembly) (i : ℕ) (count : ℕ × ℕ × ℕ) : ForInStep (ℕ × ℕ × ℕ) :=
  if a.lacks i then
    .yield (count.1 + 1, if count.2.1 = 0 then i else count.2.1, i)
  else .yield count

/-- The second loop of `send_nack_bitmap_for_missing`. -/
def windowBody (a : Assembly) (i : ℕ) (nb : RtpsNackBitmapMsg) : ForInStep RtpsNackBitmapMsg :=
  if a.lacks i then .yield (nb.setMissing i) else .yield nb

/-- The four loops end: the list with the first missing pages, the searches with the first
and the last one, the window with every missing page marked. -/
structure PageLoopsEnd (a : Assembly) : Prop where
  list : Ends 1 a.info.pageCnt.toBitVec (listBody a) []
    (a.missing.take RtpsNackMsg.maxMissingPages)
  ends : Ends 1 a.info.pageCnt.toBitVec (endsBody a) (0, 0)
    (a.missing.head?.getD 0, a.missing.getLast?.getD 0)
  count : Ends 1 a.info.pageCnt.toBitVec (countBody a) (0, 0, 0)
    (a.missing.length, a.missing.head?.getD 0, a.missing.getLast?.getD 0)
  window : ∀ first last, a.missing.head? = some first → a.missing.getLast? = some last → ∀ nb,
    Ends (.ofNat 16 first) (.ofNat 16 last) (windowBody a) nb
      (a.missing.foldl RtpsNackBitmapMsg.setMissing nb)

/-! ## What they compute -/

variable {a : Assembly}

theorem missing_eq_filter (a : Assembly) :
    a.missing = (List.range' 1 a.info.pageCnt.toNat).filter a.lacks := by
  have hrange : (List.range a.info.pageCnt.toNat).map (· + 1)
      = List.range' 1 a.info.pageCnt.toNat := by
    rw [List.range'_eq_map_range]
    exact List.map_congr_left fun i _ => Nat.add_comm i 1
  unfold Assembly.missing Assembly.lacks
  rw [hrange]

/-- A search through all pages sees the missing ones, in order. -/
theorem ends_missing {σ : Type*} (hcnt : a.info.pageCnt.toNat + 1 < 2 ^ 16)
    (body : ℕ → σ → ForInStep σ) (s : σ) :
    Ends 1 a.info.pageCnt.toBitVec (fun i s => if a.lacks i then body i s else .yield s) s
      (forEach body a.missing s) := by
  have hends := ends_of_lt 1 hcnt
    (fun i s => if a.lacks i then body i s else .yield s) s
  rw [forEach_filter] at hends
  rw [missing_eq_filter]
  exact hends

/-- The numbers collected until there are as many as fit. -/
theorem forEach_take (cap : ℕ) (l done : List ℕ) (hdone : done.length < cap) :
    forEach (fun i s => if (s ++ [i]).length ≥ cap then .done (s ++ [i]) else .yield (s ++ [i]))
      l done = (done ++ l).take cap := by
  induction l generalizing done with
  | nil => rw [List.append_nil, List.take_of_length_le (Nat.le_of_lt hdone), forEach]
  | cons i rest ih =>
      have hcons : done ++ i :: rest = (done ++ [i]) ++ rest := by simp
      rw [forEach, hcons]
      by_cases hfull : (done ++ [i]).length ≥ cap
      · have hexact : (done ++ [i]).length = cap := by
          rw [List.length_append, List.length_singleton] at hfull ⊢
          omega
        rw [if_pos hfull, List.take_left' hexact]
      · rw [if_neg hfull]
        exact ih (done ++ [i]) (by omega)

/-- The first number above zero stays, the last one is the last one seen. -/
theorem foldl_ends (l : List ℕ) (hpos : ∀ p ∈ l, 1 ≤ p) (first last : ℕ)
    (hfirst : first = 0 → last = 0) :
    l.foldl (fun s i => (if s.1 = 0 then i else s.1, i)) (first, last)
      = (if first = 0 then l.head?.getD 0 else first, l.getLast?.getD last) := by
  induction l generalizing first last with
  | nil =>
      rw [List.foldl_nil]
      by_cases hzero : first = 0
      · rw [if_pos hzero, hzero]
        rfl
      · rw [if_neg hzero]
        rfl
  | cons i rest ih =>
      have hi : 1 ≤ i := hpos i List.mem_cons_self
      have hne : (if first = 0 then i else first) ≠ 0 := by
        split <;> omega
      rw [List.foldl_cons, ih (fun p hp => hpos p (List.mem_cons_of_mem i hp)) _ _
        (fun h => absurd h hne), if_neg hne, List.getLast?_cons]
      rfl

/-- Counting goes on beside the search. -/
theorem foldl_count (l : List ℕ) (cnt : ℕ) (ends : ℕ × ℕ) :
    l.foldl (fun s i => (s.1 + 1, if s.2.1 = 0 then i else s.2.1, i)) (cnt, ends)
      = (cnt + l.length, l.foldl (fun s i => (if s.1 = 0 then i else s.1, i)) ends) := by
  induction l generalizing cnt ends with
  | nil => rfl
  | cons i rest ih =>
      rw [List.foldl_cons, ih, List.foldl_cons, List.length_cons, Nat.add_assoc,
        Nat.add_comm rest.length 1]

/-- No missing page lies outside of the stretch from the first to the last. -/
theorem filter_stretch {first last : ℕ} (hfirst : a.missing.head? = some first)
    (hlast : a.missing.getLast? = some last) :
    (List.range' first (last + 1 - first)).filter a.lacks = a.missing := by
  refine List.SortedLT.eq_of_mem_iff ?_ a.missing_sorted fun p => ?_
  · exact (List.Pairwise.filter _ List.pairwise_lt_range').sortedLT
  · rw [List.mem_filter, List.mem_range'_1]
    constructor
    · intro ⟨⟨hle, hlt⟩, hlacks⟩
      have hlow := a.missing_range first (List.mem_of_mem_head? hfirst)
      have hhigh := a.missing_range last (List.mem_of_mem_getLast? hlast)
      exact Assembly.mem_missing.mpr ⟨by omega, by omega, of_decide_eq_true hlacks⟩
    · intro hp
      obtain ⟨hle, hlt⟩ := bounds_missing hfirst hlast p hp
      exact ⟨⟨hle, by omega⟩, decide_eq_true (Assembly.mem_missing.mp hp).2.2⟩

/-! ## That they end -/

/-- **The page loops of a receiver end** where its message has fewer than 65535 pages. -/
theorem pageLoopsEnd (hcnt : a.info.pageCnt.toNat + 1 < 2 ^ 16) : PageLoopsEnd a where
  list := by
    have hends := ends_missing hcnt (fun i s =>
      if (s ++ [i]).length ≥ RtpsNackMsg.maxMissingPages then .done (s ++ [i])
      else .yield (s ++ [i])) []
    rw [forEach_take _ _ _ (by decide), List.nil_append] at hends
    exact hends
  ends := by
    have hends := ends_missing hcnt
      (fun i s => .yield (if s.1 = 0 then i else s.1, i)) ((0, 0) : ℕ × ℕ)
    rw [forEach_yield, foldl_ends _ (fun p hp => (a.missing_range p hp).1) 0 0 id,
      if_pos rfl] at hends
    exact hends
  count := by
    have hends := ends_missing hcnt
      (fun i s => .yield (s.1 + 1, if s.2.1 = 0 then i else s.2.1, i)) ((0, 0, 0) : ℕ × ℕ × ℕ)
    rw [forEach_yield, foldl_count, foldl_ends _ (fun p hp => (a.missing_range p hp).1) 0 0 id,
      if_pos rfl, Nat.zero_add] at hends
    exact hends
  window := by
    intro first last hfirst hlast nb
    have hlow := a.missing_range first (List.mem_of_mem_head? hfirst)
    have hhigh := a.missing_range last (List.mem_of_mem_getLast? hlast)
    have hfirst16 : (BitVec.ofNat 16 first).toNat = first :=
      Nat.mod_eq_of_lt (by omega)
    have hlast16 : (BitVec.ofNat 16 last).toNat = last :=
      Nat.mod_eq_of_lt (by omega)
    have hsucc : (BitVec.ofNat 16 last).toNat + 1 < 2 ^ 16 := by
      rw [hlast16]
      omega
    have hends := ends_of_lt (BitVec.ofNat 16 first) hsucc (windowBody a) nb
    have hbody : windowBody a = fun i nb => if a.lacks i then .yield (nb.setMissing i)
        else .yield nb := rfl
    rw [hfirst16, hlast16, hbody, forEach_filter, filter_stretch hfirst hlast,
      forEach_yield fun i (nb : RtpsNackBitmapMsg) => nb.setMissing i] at hends
    exact hends

/-- A checked tail has far fewer pages than a page number can count. -/
theorem pageCnt_lt {tail : TailMsg} (hvalid : validChunkMeta tail = true) :
    tail.pageCnt.toNat + 1 < 2 ^ 16 := by
  simp only [validChunkMeta] at hvalid
  split at hvalid
  · cases hvalid
  split at hvalid
  · cases hvalid
  rename_i hsize
  simp only [Bool.and_eq_true, decide_eq_true_eq] at hvalid
  simp only [maxRecvTotalSize, udpMaxSize, tailMsgSize] at hsize hvalid
  omega

/-- With 65535 pages a loop over the pages that has no way out would not end. -/
theorem pageLoop_max {σ : Type*} (hcnt : a.info.pageCnt.toNat = 2 ^ 16 - 1) (step : ℕ → σ → σ)
    (s out : σ) : ¬ Ends 1 a.info.pageCnt.toBitVec (fun i s => .yield (step i s)) s out := by
  rintro ⟨fuel, hout⟩
  have hmax : a.info.pageCnt.toBitVec = BitVec.allOnes 16 := BitVec.eq_of_toNat_eq hcnt
  rw [hmax, wordLoop_allOnes] at hout
  cases hout

end DzIpc.Udp
