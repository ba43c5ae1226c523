import DzIpc.Library.Blocks
import DzIpc.Wire.Paging

/-!
# Pages of a message on a UDP channel

A serialized buffer travels as datagrams of at most 1472 bytes, each ending in the 12-byte
tail that the serializer wove in.  The sender corrects the page number in every tail
(`write_now_page`); the receiver puts pages into place by what their tails say
(`place_page`).

* `parseTail_writeNowPage` says what the receiver reads in a corrected tail.
* `Assembly.Sound` relates an assembly under way to the datagrams it was made of;
  `placePage_sound` keeps it.
* `Assembly.Sound.block` describes the bytes of a full assembly, page by page.
-/

namespace DzIpc.Udp

open Wire Blocks

/-- `UDP_MAX_SIZE`: the bytes of a full page on the wire. -/
def udpMaxSize : ℕ := 1472

/-- `MAX_RECV_TOTAL_SIZE`. -/
def maxRecvTotalSize : ℕ := 64 * 1024 * 1024

/-! ## Page tails -/

/-- `ipc_tail_msg`. -/
structure TailMsg where
  pageCnt : UInt16
  nowPage : UInt16
  totalSize : UInt32
  msgId : UInt32
  deriving DecidableEq, Repr

/-- The number whose bytes are given, highest first. -/
def beNat (bytes : List UInt8) : ℕ :=
  bytes.foldl (fun n b => n * 2 ^ 8 + b.toNat) 0

/-- `parse_tail`. -/
def parseTail (buf : List UInt8) : Option TailMsg :=
  if buf.length < tailMsgSize then none
  else
    let n := buf.length
    some
      { pageCnt := .ofNat (beNat (slice (n - 12) 2 buf))
        nowPage := .ofNat (beNat (slice (n - 10) 2 buf))
        totalSize := .ofNat (beNat (slice (n - 8) 4 buf))
        msgId := .ofNat (beNat (slice (n - 4) 4 buf)) }

/-- `write_now_page`.  The debug assertion on the page number is left out. -/
def writeNowPage (chunk : List UInt8) (nowPage : UInt16) : List UInt8 :=
  if chunk.length < tailMsgSize then chunk
  else overwrite chunk (chunk.length - 10) (be16 nowPage.toNat)

/-- `check_id` with an expected message id. -/
def checkId (buf : List UInt8) (expectedId : UInt32) : Bool :=
  if buf.length < 12 then false
  else UInt32.ofNat (beNat (slice (buf.length - 4) 4 buf)) = expectedId

/-- `valid_chunk_meta`. -/
def validChunkMeta (tail : TailMsg) : Bool :=
  let pageCnt := tail.pageCnt.toNat
  let totalSize := tail.totalSize.toNat
  if pageCnt = 0 ∨ totalSize < tailMsgSize then false
  else if totalSize > maxRecvTotalSize then false
  else (pageCnt - 1) * udpMaxSize + tailMsgSize ≤ totalSize && totalSize ≤ pageCnt * udpMaxSize

theorem writeNowPage_length (chunk : List UInt8) (nowPage : UInt16) :
    (writeNowPage chunk nowPage).length = chunk.length := by
  unfold writeNowPage
  split
  · rfl
  · rename_i hlong
    refine length_overwrite ?_
    simp only [be16, List.length_cons, List.length_nil, tailMsgSize] at hlong ⊢
    omega

theorem ofNat_beNat_be16 (n : UInt16) : UInt16.ofNat (beNat (be16 n.toNat)) = n := by
  have hlt := n.toNat_lt
  have hval : beNat (be16 n.toNat) = n.toNat := by
    simp only [beNat, be16, List.foldl_cons, List.foldl_nil, byte_toNat]
    omega
  rw [hval, UInt16.ofNat_toNat]

/-- A corrected tail says the new page number and is otherwise unchanged. -/
theorem parseTail_writeNowPage (chunk : List UInt8) (nowPage : UInt16) :
    parseTail (writeNowPage chunk nowPage)
      = (parseTail chunk).map fun tail => { tail with nowPage := nowPage } := by
  have hlen := writeNowPage_length chunk nowPage
  unfold parseTail
  rw [hlen]
  by_cases hshort : chunk.length < tailMsgSize
  · rw [if_pos hshort, if_pos hshort]
    rfl
  · have hpage : (be16 nowPage.toNat).length = 2 := rfl
    have hroom : chunk.length - 10 + (be16 nowPage.toNat).length ≤ chunk.length := by
      simp only [tailMsgSize] at hshort
      omega
    have hself : slice (chunk.length - 10) 2 (writeNowPage chunk nowPage) = be16 nowPage.toNat := by
      rw [writeNowPage, if_neg hshort]
      exact slice_overwrite_self hroom (Or.inl hpage.symm)
    have hapart : ∀ pos len, pos + len ≤ chunk.length - 10 ∨ chunk.length - 8 ≤ pos →
        slice pos len (writeNowPage chunk nowPage) = slice pos len chunk := by
      intro pos len hpos
      rw [writeNowPage, if_neg hshort]
      refine slice_overwrite_of_disjoint hroom ?_
      simp only [tailMsgSize] at hshort
      omega
    rw [if_neg hshort, if_neg hshort]
    simp only [tailMsgSize] at hshort
    dsimp only
    rw [hself, hapart _ _ (by omega), hapart _ _ (by omega), hapart _ _ (by omega),
      ofNat_beNat_be16]
    rfl

/-! ## Cutting -/

/-- The chunks of `publish_data`. -/
def chunks (publishData : List UInt8) : List (List UInt8) :=
  blocks udpMaxSize publishData

/-- The datagrams of a buffer: its chunks with corrected page numbers. -/
def wirePages (publishData : List UInt8) : List (List UInt8) :=
  (chunks publishData).mapIdx fun i chunk => writeNowPage chunk (.ofNat (i + 1))

/-- The on-wire bytes of a buffer: what the caller's buffer holds after the correction. -/
def onWire (publishData : List UInt8) : List UInt8 :=
  (wirePages publishData).flatten

@[simp] theorem length_wirePages (publishData : List UInt8) :
    (wirePages publishData).length = (chunks publishData).length := by
  simp [wirePages]

/-! ## Putting pages into place -/

/-- `chunk_meta`. -/
structure ChunkMeta where
  pageCnt : UInt16
  totalSize : UInt32
  msgId : UInt32
  sequence : UInt32
  deriving DecidableEq, Repr

/-- `expected_page_size`.  For a checked tail the subtraction does not underflow. -/
def expectedPageSize (info : ChunkMeta) (nowPage : UInt16) : ℕ :=
  if nowPage = info.pageCnt then info.totalSize.toNat - (nowPage.toNat - 1) * udpMaxSize
  else udpMaxSize

/-- The state of an assembly: `meta`, `assembled`, `received` and `received_cnt`. -/
structure Assembly where
  info : ChunkMeta
  assembled : List UInt8
  received : List Bool
  receivedCnt : ℕ
  deriving DecidableEq, Repr

/-- The tail names the message that is being assembled. -/
def TailMsg.Matches (tail : TailMsg) (info : ChunkMeta) : Prop :=
  tail.pageCnt = info.pageCnt ∧ tail.totalSize = info.totalSize ∧ tail.msgId = info.msgId

instance (tail : TailMsg) (info : ChunkMeta) : Decidable (tail.Matches info) :=
  inferInstanceAs (Decidable (_ ∧ _))

/-- `place_page`; `none` where it returns false. -/
def placePage (pageBuf : List UInt8) (a : Assembly) : Option Assembly :=
  match parseTail pageBuf with
  | none => none
  | some tail =>
      if ¬ tail.Matches a.info then none
      else if tail.nowPage = 0 ∨ tail.nowPage > a.info.pageCnt then none
      else if pageBuf.length ≠ expectedPageSize a.info tail.nowPage then none
      else if a.received[tail.nowPage.toNat]? ≠ some false then some a
      else
        some
          { a with
            assembled := overwrite a.assembled ((tail.nowPage.toNat - 1) * udpMaxSize) pageBuf
            received := a.received.set tail.nowPage.toNat true
            receivedCnt := a.receivedCnt + 1 }

/-- The assembly in which nothing has been received. -/
def Assembly.start (info : ChunkMeta) : Assembly :=
  { info := info
    assembled := List.replicate info.totalSize.toNat 0
    received := List.replicate (info.pageCnt.toNat + 1) false
    receivedCnt := 0 }

/-- The datagram is page `p` of a message with this page count, size and id. -/
def IsPage (info : ChunkMeta) (p : ℕ) (datagram : List UInt8) : Prop :=
  ∃ tail, parseTail datagram = some tail ∧ tail.Matches info ∧ tail.nowPage.toNat = p ∧
    1 ≤ p ∧ p ≤ info.pageCnt.toNat ∧ datagram.length = expectedPageSize info tail.nowPage

/-- What the sizes of a checked tail satisfy. -/
structure ChunkMeta.Valid (info : ChunkMeta) : Prop where
  pages : 1 ≤ info.pageCnt.toNat
  low : (info.pageCnt.toNat - 1) * udpMaxSize + tailMsgSize ≤ info.totalSize.toNat
  high : info.totalSize.toNat ≤ info.pageCnt.toNat * udpMaxSize

theorem valid_of_validChunkMeta {tail : TailMsg} {info : ChunkMeta}
    (hvalid : validChunkMeta tail = true) (hmatch : tail.Matches info) : info.Valid := by
  obtain ⟨hcnt, hsize, _⟩ := hmatch
  simp only [validChunkMeta, hcnt, hsize] at hvalid
  split at hvalid
  · exact absurd hvalid (by decide)
  · split at hvalid
    · exact absurd hvalid (by decide)
    · simp only [Bool.and_eq_true, decide_eq_true_eq] at hvalid
      exact ⟨by omega, hvalid.1, hvalid.2⟩

/-- An assembly under way, made of datagrams that satisfy `P`. -/
structure Assembly.Sound (P : List UInt8 → Prop) (a : Assembly) : Prop where
  valid : a.info.Valid
  lengthAssembled : a.assembled.length = a.info.totalSize.toNat
  lengthReceived : a.received.length = a.info.pageCnt.toNat + 1
  unused : a.received[0]? = some false
  count : a.receivedCnt = a.received.count true
  page : ∀ p, a.received[p]? = some true → ∃ datagram, P datagram ∧ IsPage a.info p datagram ∧
    slice ((p - 1) * udpMaxSize) udpMaxSize a.assembled = datagram

namespace Assembly.Sound

variable {P Q : List UInt8 → Prop} {a a' : Assembly}

theorem start {info : ChunkMeta} (hvalid : info.Valid) : (Assembly.start info).Sound P where
  valid := hvalid
  lengthAssembled := List.length_replicate
  lengthReceived := List.length_replicate
  unused := by simp [Assembly.start]
  count := by simp [Assembly.start, List.count_replicate]
  page := by
    intro p hp
    simp only [Assembly.start, List.getElem?_replicate] at hp
    split at hp <;> cases hp

theorem mono (h : a.Sound P) (hPQ : ∀ datagram, P datagram → Q datagram) : a.Sound Q where
  valid := h.valid
  lengthAssembled := h.lengthAssembled
  lengthReceived := h.lengthReceived
  unused := h.unused
  count := h.count
  page := by
    intro p hp
    obtain ⟨datagram, hd, hrest⟩ := h.page p hp
    exact ⟨datagram, hPQ datagram hd, hrest⟩

/-- The sequence is no part of what is assembled. -/
theorem withSequence (h : a.Sound P) (sequence : UInt32) :
    Assembly.Sound P { a with info := { a.info with sequence := sequence } } where
  valid := ⟨h.valid.pages, h.valid.low, h.valid.high⟩
  lengthAssembled := h.lengthAssembled
  lengthReceived := h.lengthReceived
  unused := h.unused
  count := h.count
  page := h.page

end Assembly.Sound

theorem IsPage.pos {info : ChunkMeta} {p : ℕ} {datagram : List UInt8}
    (h : IsPage info p datagram) : 1 ≤ p := by
  obtain ⟨_, _, _, _, hp, _⟩ := h
  exact hp

theorem IsPage.le {info : ChunkMeta} {p : ℕ} {datagram : List UInt8}
    (h : IsPage info p datagram) : p ≤ info.pageCnt.toNat := by
  obtain ⟨_, _, _, _, _, hle, _⟩ := h
  exact hle

/-- The room a page needs is there. -/
theorem IsPage.room {info : ChunkMeta} {p : ℕ} {datagram : List UInt8}
    (h : IsPage info p datagram) (hvalid : info.Valid) :
    (p - 1) * udpMaxSize + datagram.length ≤ info.totalSize.toNat ∧
      (datagram.length = udpMaxSize ∨
        datagram.length ≤ udpMaxSize ∧ (p - 1) * udpMaxSize + datagram.length
          = info.totalSize.toNat) := by
  obtain ⟨tail, _, _, rfl, hp, hle, hlen⟩ := h
  have hlow := hvalid.low
  have hhigh := hvalid.high
  unfold expectedPageSize at hlen
  split at hlen
  · rename_i hlast
    rw [hlast] at hlen hp ⊢
    have hsplit : info.pageCnt.toNat * udpMaxSize
        = (info.pageCnt.toNat - 1) * udpMaxSize + udpMaxSize := by
      rw [← Nat.succ_mul]
      congr 1
      omega
    omega
  · rename_i hlast
    have hne : tail.nowPage.toNat ≠ info.pageCnt.toNat := fun h => hlast (UInt16.toNat_inj.mp h)
    have hstep : (tail.nowPage.toNat - 1) * udpMaxSize + udpMaxSize
        ≤ (info.pageCnt.toNat - 1) * udpMaxSize := by
      rw [← Nat.succ_mul]
      exact Nat.mul_le_mul_right _ (by omega)
    omega

theorem mul_le_of_lt {p q B : ℕ} (hp : 1 ≤ p) (hpq : p < q) : (p - 1) * B + B ≤ (q - 1) * B := by
  rw [← Nat.succ_mul]
  exact Nat.mul_le_mul_right _ (by omega)

/-- A page leaves the places of the other pages as they are. -/
theorem IsPage.slice_overwrite_ne {info : ChunkMeta} {p q : ℕ} {datagram assembled : List UInt8}
    (h : IsPage info p datagram) (hvalid : info.Valid)
    (hlen : assembled.length = info.totalSize.toNat) (hq : 1 ≤ q) (hqp : q ≠ p) :
    slice ((q - 1) * udpMaxSize) udpMaxSize (overwrite assembled ((p - 1) * udpMaxSize) datagram)
      = slice ((q - 1) * udpMaxSize) udpMaxSize assembled := by
  obtain ⟨hroom, hsize⟩ := h.room hvalid
  have hp := h.pos
  rw [← hlen] at hroom
  refine slice_overwrite_of_disjoint hroom ?_
  rcases Nat.lt_or_gt_of_ne hqp with hlt | hgt
  · exact Or.inl (mul_le_of_lt hq hlt)
  · have := mul_le_of_lt (B := udpMaxSize) hp hgt
    omega

/-- `place_page` on a page of the message. -/
theorem placePage_of_isPage {a : Assembly} {p : ℕ} {pageBuf : List UInt8}
    (h : IsPage a.info p pageBuf) :
    placePage pageBuf a = some (if a.received[p]? ≠ some false then a else
      { a with
        assembled := overwrite a.assembled ((p - 1) * udpMaxSize) pageBuf
        received := a.received.set p true
        receivedCnt := a.receivedCnt + 1 }) := by
  obtain ⟨tail, htail, hmatch, rfl, hpos, hle, hlen⟩ := h
  have hrange : ¬ (tail.nowPage = 0 ∨ tail.nowPage > a.info.pageCnt) := by
    rintro (hzero | hlarge)
    · rw [hzero] at hpos
      exact absurd hpos (by decide)
    · exact absurd (UInt16.lt_iff_toNat_lt.mp hlarge) (Nat.not_lt.mpr hle)
  unfold placePage
  rw [htail]
  dsimp only
  rw [if_neg (not_not.mpr hmatch), if_neg hrange, if_neg (not_not.mpr hlen)]
  split <;> rfl

/-- `place_page` takes nothing but the pages of the message. -/
theorem isPage_of_placePage {a a' : Assembly} {pageBuf : List UInt8}
    (h : placePage pageBuf a = some a') : ∃ p, IsPage a.info p pageBuf := by
  unfold placePage at h
  split at h
  · cases h
  rename_i tail htail
  split_ifs at h with hmatch hrange hlen
  all_goals
    refine ⟨tail.nowPage.toNat, tail, htail, by simpa using hmatch, rfl, ?_, ?_, by simpa using hlen⟩
    · have hne : tail.nowPage.toNat ≠ 0 := fun h0 =>
        hrange (Or.inl (UInt16.toNat_inj.mp h0))
      omega
    · exact Nat.le_of_not_lt fun hlt => hrange (Or.inr (UInt16.lt_iff_toNat_lt.mpr hlt))

/-- What a call of `place_page` that returns true has done: nothing, or put one page of the
message into its place. -/
theorem placePage_cases {pageBuf : List UInt8} {a a' : Assembly} (h : placePage pageBuf a = some a') :
    ∃ p, IsPage a.info p pageBuf ∧
      (a' = a ∨ a.received[p]? = some false ∧
        a' = { a with
          assembled := overwrite a.assembled ((p - 1) * udpMaxSize) pageBuf
          received := a.received.set p true
          receivedCnt := a.receivedCnt + 1 }) := by
  obtain ⟨p, hpage⟩ := isPage_of_placePage h
  rw [placePage_of_isPage hpage, Option.some.injEq] at h
  by_cases hfree : a.received[p]? = some false
  · rw [if_neg (not_not.mpr hfree)] at h
    exact ⟨p, hpage, Or.inr ⟨hfree, h.symm⟩⟩
  · rw [if_pos hfree] at h
    exact ⟨p, hpage, Or.inl h.symm⟩

/-- `place_page` keeps an assembly sound. -/
theorem placePage_sound {P : List UInt8 → Prop} {pageBuf : List UInt8} {a a' : Assembly}
    (hsound : a.Sound P) (hP : P pageBuf) (h : placePage pageBuf a = some a') : a'.Sound P := by
  obtain ⟨p, hpage, rfl | ⟨hfree, rfl⟩⟩ := placePage_cases h
  · exact hsound
  obtain ⟨hroom, hsize⟩ := hpage.room hsound.valid
  rw [← hsound.lengthAssembled] at hroom hsize
  have hp := hpage.pos
  have hlt : p < a.received.length := (List.getElem?_eq_some_iff.mp hfree).1
  refine ⟨hsound.valid, ?_, ?_, ?_, ?_, ?_⟩
  · rw [← hsound.lengthAssembled]
    exact length_overwrite hroom
  · rw [← hsound.lengthReceived]
    exact List.length_set
  · rw [← hsound.unused]
    exact List.getElem?_set_ne (by omega)
  · have hset := List.count_set (a := true) (b := true) hlt
    have hget : a.received[p] = false := (List.getElem?_eq_some_iff.mp hfree).2
    rw [hget] at hset
    simp only [Bool.false_eq_true, beq_iff_eq, if_false, if_true, beq_self_eq_true] at hset
    change a.receivedCnt + 1 = (a.received.set p true).count true
    rw [hset, hsound.count]
    rfl
  · intro q hq
    by_cases hqp : q = p
    · subst hqp
      exact ⟨pageBuf, hP, hpage, slice_overwrite_self hroom (by omega)⟩
    · change (a.received.set p true)[q]? = some true at hq
      rw [List.getElem?_set_ne (Ne.symm hqp)] at hq
      obtain ⟨datagram, hd, hdpage, hslice⟩ := hsound.page q hq
      refine ⟨datagram, hd, hdpage, ?_⟩
      rw [← hslice]
      exact hpage.slice_overwrite_ne hsound.valid hsound.lengthAssembled hdpage.pos hqp

/-- Every page of a full assembly has been received. -/
theorem Assembly.Sound.received_of_full {P : List UInt8 → Prop} {a : Assembly} (h : a.Sound P)
    (hfull : a.info.pageCnt.toNat ≤ a.receivedCnt) {p : ℕ} (hp : 1 ≤ p)
    (hle : p ≤ a.info.pageCnt.toNat) : a.received[p]? = some true := by
  have hlen := h.lengthReceived
  obtain ⟨first, rest, hcons⟩ : ∃ first rest, a.received = first :: rest := by
    cases hr : a.received with
    | nil => simp [hr] at hlen
    | cons first rest => exact ⟨first, rest, rfl⟩
  have hunused := h.unused
  have hcount := h.count
  rw [hcons] at hlen hunused hcount
  simp only [List.length_cons, List.getElem?_cons_zero, Option.some.injEq] at hlen hunused
  subst hunused
  rw [List.count_cons_of_ne (by decide)] at hcount
  have hall : ∀ b ∈ rest, true = b := List.count_eq_length.mp (by
    have := List.count_le_length (a := true) (l := rest)
    omega)
  obtain ⟨k, rfl⟩ := Nat.exists_eq_add_of_le' hp
  have hk : k < rest.length := by omega
  rw [hcons, List.getElem?_cons_succ, List.getElem?_eq_getElem hk, ← hall _ (List.getElem_mem hk)]

/-- **A full assembly, page by page.**  Its `p`-th block is a datagram that says it is page
`p` of this message. -/
theorem Assembly.Sound.block {P : List UInt8 → Prop} {a : Assembly} (h : a.Sound P)
    (hfull : a.info.pageCnt.toNat ≤ a.receivedCnt) {p : ℕ} (hp : 1 ≤ p)
    (hle : p ≤ a.info.pageCnt.toNat) :
    ∃ datagram, P datagram ∧ IsPage a.info p datagram ∧
      (chunks a.assembled)[p - 1]? = some datagram := by
  obtain ⟨datagram, hd, hpage, hslice⟩ := h.page p (h.received_of_full hfull hp hle)
  refine ⟨datagram, hd, hpage, ?_⟩
  have hlow := h.valid.low
  have hlt : udpMaxSize * (p - 1) < a.assembled.length := by
    have hmul : (p - 1) * udpMaxSize ≤ (a.info.pageCnt.toNat - 1) * udpMaxSize :=
      Nat.mul_le_mul_right _ (by omega)
    rw [h.lengthAssembled, Nat.mul_comm]
    simp only [tailMsgSize] at hlow
    omega
  rw [chunks, getElem?_blocks (by decide), if_pos hlt, Nat.mul_comm, hslice]

/-- An assembly has as many blocks as its message has pages. -/
theorem Assembly.Sound.length_chunks {P : List UInt8 → Prop} {a : Assembly} (h : a.Sound P) :
    (chunks a.assembled).length = a.info.pageCnt.toNat := by
  have hlow := h.valid.low
  have hhigh := h.valid.high
  have hpages := h.valid.pages
  rw [chunks, length_blocks, h.lengthAssembled, blockCount]
  simp only [udpMaxSize, tailMsgSize] at *
  omega

/-- The datagram lies in the assembly as one of its pages. -/
def Assembly.Has (a : Assembly) (datagram : List UInt8) : Prop :=
  ∃ p, a.received[p]? = some true ∧
    slice ((p - 1) * udpMaxSize) udpMaxSize a.assembled = datagram

/-- `place_page` adds at most the page it was given. -/
theorem placePage_has {P : List UInt8 → Prop} {pageBuf datagram : List UInt8} {a a' : Assembly}
    (hsound : a.Sound P) (h : placePage pageBuf a = some a') (hhas : a'.Has datagram) :
    a.Has datagram ∨ datagram = pageBuf := by
  -- made of the pages it has, and of this one, the assembly still is
  have hself : a.Sound fun d => a.Has d ∨ d = pageBuf := by
    refine { hsound with page := fun p hp => ?_ }
    obtain ⟨d, _, hpage, hslice⟩ := hsound.page p hp
    exact ⟨d, Or.inl ⟨p, hp, hslice⟩, hpage, hslice⟩
  obtain ⟨p, hp, rfl⟩ := hhas
  obtain ⟨d, hd, _, hslice⟩ := (placePage_sound hself (Or.inr rfl) h).page p hp
  rw [hslice]
  exact hd

/-- Every block of a full assembly is a page that lies in it. -/
theorem Assembly.Sound.has_of_mem_chunks {P : List UInt8 → Prop} {a : Assembly} (h : a.Sound P)
    (hfull : a.info.pageCnt.toNat ≤ a.receivedCnt) {datagram : List UInt8}
    (hmem : datagram ∈ chunks a.assembled) : a.Has datagram := by
  obtain ⟨i, hi⟩ := List.mem_iff_getElem?.mp hmem
  have hlt : i < (chunks a.assembled).length := (List.getElem?_eq_some_iff.mp hi).1
  rw [h.length_chunks] at hlt
  refine ⟨i + 1, h.received_of_full hfull (by omega) (by omega), ?_⟩
  rw [chunks, getElem?_blocks (by decide)] at hi
  split at hi
  · rw [Nat.add_sub_cancel, Nat.mul_comm]
    exact Option.some.inj hi
  · cases hi

/-! ## Pages on the wire -/

/-- What a page of a buffer says about its place: the sender has corrected it. -/
theorem nowPage_of_wirePages {publishData datagram : List UInt8} {i : ℕ} {tail : TailMsg}
    (hpage : (wirePages publishData)[i]? = some datagram) (htail : parseTail datagram = some tail) :
    tail.nowPage = .ofNat (i + 1) := by
  rw [wirePages, List.getElem?_mapIdx] at hpage
  obtain ⟨chunk, _, rfl⟩ := Option.map_eq_some_iff.mp hpage
  rw [parseTail_writeNowPage] at htail
  obtain ⟨_, _, rfl⟩ := Option.map_eq_some_iff.mp htail
  rfl

/-- The on-wire bytes of a buffer, cut again, are its pages. -/
theorem chunks_onWire (publishData : List UInt8) :
    chunks (onWire publishData) = wirePages publishData := by
  refine blocks_flatten (by decide) ((blocked_blocks (by decide) publishData).of_lengths ?_)
  change (chunks publishData).map List.length = _
  refine List.ext_getElem? fun i => ?_
  simp only [wirePages, List.getElem?_map, List.getElem?_mapIdx, Option.map_map,
    Function.comp_def, writeNowPage_length]

end DzIpc.Udp
