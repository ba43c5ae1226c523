import DzIpc.Udp.Receiver

/-!
# The pages of a serialized message

What the serializer has woven, `chunk_send_ex` cuts at 1472 bytes: each cut falls behind a tail,
so every page ends in a tail of the message.

* `parseTail_append` and `checkId_append`: what is read in a tail depends on the last twelve bytes.
* `Serialized.chunk`: the pages before their numbers are corrected.
* `Serialized.isPage`: each of them is the page of the message that its place says.
-/

namespace DzIpc.Udp

open Wire Blocks Weave

/-! ## The last twelve bytes -/

theorem slice_append_right {pos len : ℕ} (before page : List UInt8) :
    slice (before.length + pos) len (before ++ page) = slice pos len page := by
  rw [slice, slice, List.drop_append, List.drop_of_length_le (Nat.le_add_right _ _),
    List.nil_append, Nat.add_sub_cancel_left]

/-- The fields of a tail are at the end. -/
theorem slice_end {k len : ℕ} (before page : List UInt8) (hk : k ≤ page.length) :
    slice ((before ++ page).length - k) len (before ++ page)
      = slice (page.length - k) len page := by
  have hpos : (before ++ page).length - k = before.length + (page.length - k) := by
    rw [List.length_append]
    omega
  rw [hpos, slice_append_right]

theorem parseTail_append (before : List UInt8) {page : List UInt8}
    (hlong : tailMsgSize ≤ page.length) : parseTail (before ++ page) = parseTail page := by
  have hall : ¬ (before ++ page).length < tailMsgSize := by
    rw [List.length_append]
    omega
  unfold parseTail
  rw [if_neg hall, if_neg (Nat.not_lt.mpr hlong)]
  simp only [tailMsgSize] at hlong
  dsimp only
  rw [slice_end before page (by omega), slice_end before page (by omega),
    slice_end before page (by omega), slice_end before page (by omega)]

theorem checkId_append (before : List UInt8) {page : List UInt8}
    (hlong : tailMsgSize ≤ page.length) (expectedId : UInt32) :
    checkId (before ++ page) expectedId = checkId page expectedId := by
  have hall : ¬ (before ++ page).length < 12 := by
    rw [List.length_append]
    simp only [tailMsgSize] at hlong
    omega
  simp only [tailMsgSize] at hlong
  unfold checkId
  rw [if_neg hall, if_neg (Nat.not_lt.mpr hlong), slice_end before page (by omega)]

theorem parseTail_tailBytes (info : SizeInfo) (msgId page : ℕ) :
    parseTail (tailBytes info msgId page)
      = some ⟨.ofNat (beNat (be16 info.pageCnt)), .ofNat (beNat (be16 page)),
          .ofNat (beNat (be32 info.totalSize)), .ofNat (beNat (be32 msgId))⟩ := rfl

theorem beNat_be16_of_lt {n : ℕ} (hn : n < 2 ^ 16) : beNat (be16 n) = n := by
  simp only [beNat, be16, List.foldl_cons, List.foldl_nil, byte_toNat]
  omega

theorem beNat_be32_of_lt {n : ℕ} (hn : n < 2 ^ 32) : beNat (be32 n) = n := by
  simp only [beNat, be32, List.foldl_cons, List.foldl_nil, byte_toNat]
  omega

/-- The id in a tail is what `check_id` compares. -/
theorem checkId_iff_of_parseTail {page : List UInt8} {tail : TailMsg}
    (htail : parseTail page = some tail) (expectedId : UInt32) :
    checkId page expectedId = true ↔ tail.msgId = expectedId := by
  unfold parseTail at htail
  split at htail
  · cases htail
  · rename_i hlong
    cases htail
    have hlong' : ¬ page.length < 12 := hlong
    rw [checkId, if_neg hlong']
    exact decide_eq_true_iff

/-! ## Messages -/

/-- A message as it is handed to a channel that takes its size; its id is no control frame's. -/
structure Serialized where
  msgId : UInt32
  pieces : List (List UInt8)
  fits : position pieces.flatten.length + tailMsgSize ≤ maxRecvTotalSize
  notControl : isRtpsControlFrame msgId = false
  deriving DecidableEq

namespace Serialized

/-- The bytes of the message without its tails. -/
def data (m : Serialized) : List UInt8 := m.pieces.flatten

/-- `publish_data`: what `serialize` returns. -/
def publishData (m : Serialized) : List UInt8 :=
  writeMessage m.msgId.toNat m.data.length m.pieces

/-- The number of full pages. -/
def full (m : Serialized) : ℕ := m.data.length / ipcMsgMaxSize

/-- What the tails of the message say. -/
def info (m : Serialized) : ChunkMeta where
  pageCnt := .ofNat (m.full + 1)
  totalSize := .ofNat (position m.data.length + tailMsgSize)
  msgId := m.msgId
  sequence := 0

variable {m : Serialized}

theorem length_data_eq (m : Serialized) :
    m.data.length = ipcMsgMaxSize * m.full + m.data.length % ipcMsgMaxSize :=
  (Nat.div_add_mod _ _).symm

theorem full_lt (m : Serialized) : m.full + 1 < 2 ^ 16 := by
  have hfits := m.fits
  have hpos := le_position m.data.length
  simp only [maxRecvTotalSize, tailMsgSize] at hfits
  simp only [full, ipcMsgMaxSize]
  change position m.data.length + 12 ≤ _ at hfits
  omega

/-- A message has its full pages and one more. -/
theorem position_length (m : Serialized) :
    position m.data.length = udpMaxSize * m.full + m.data.length % ipcMsgMaxSize := by
  rw [position_eq]
  simp only [full, udpMaxSize, ipcMsgMaxSize]
  omega

theorem pageCnt_toNat (m : Serialized) : m.info.pageCnt.toNat = m.full + 1 := by
  rw [info, UInt16.toNat_ofNat', Nat.mod_eq_of_lt m.full_lt]

theorem totalSize_toNat (m : Serialized) :
    m.info.totalSize.toNat = position m.data.length + tailMsgSize := by
  have hfits := m.fits
  change position m.data.length + tailMsgSize ≤ _ at hfits
  rw [info, UInt32.toNat_ofNat', Nat.mod_eq_of_lt]
  simp only [maxRecvTotalSize] at hfits
  omega

theorem valid (m : Serialized) : m.info.Valid := by
  have hlt : m.data.length % ipcMsgMaxSize < ipcMsgMaxSize := Nat.mod_lt _ (by decide)
  have hpos := m.position_length
  simp only [ipcMsgMaxSize] at hlt
  refine ⟨?_, ?_, ?_⟩
  · rw [m.pageCnt_toNat]
    omega
  · rw [m.pageCnt_toNat, m.totalSize_toNat]
    simp only [udpMaxSize, tailMsgSize, ipcMsgMaxSize] at hpos ⊢
    omega
  · rw [m.pageCnt_toNat, m.totalSize_toNat]
    simp only [udpMaxSize, tailMsgSize, ipcMsgMaxSize] at hpos ⊢
    omega

/-- The receivers' check of the sizes passes. -/
theorem validChunkMeta_of_matches {tail : TailMsg} (h : tail.Matches m.info) :
    validChunkMeta tail = true := by
  have hvalid := m.valid
  have hfits := m.fits
  change position m.data.length + tailMsgSize ≤ _ at hfits
  have hlow := hvalid.low
  have hpages := hvalid.pages
  have htotal := m.totalSize_toNat
  obtain ⟨hcnt, hsize, -⟩ := h
  unfold validChunkMeta
  rw [hcnt, hsize]
  dsimp only
  rw [if_neg (by simp only [tailMsgSize] at hlow ⊢; omega), if_neg (by omega), Bool.and_eq_true,
    decide_eq_true_eq, decide_eq_true_eq]
  exact ⟨hlow, hvalid.high⟩

/-! ## The cuts -/

theorem publishData_eq (m : Serialized) :
    m.publishData = weave ipcMsgMaxSize (messageTail m.msgId.toNat m.data.length) 0 m.data
      ++ messageTail m.msgId.toNat m.data.length m.full :=
  writeMessage_eq _ _ m.full_lt

theorem length_publishData (m : Serialized) :
    m.publishData.length = position m.data.length + tailMsgSize :=
  length_writeMessage _ _ m.full_lt

theorem length_chunks (m : Serialized) : (chunks m.publishData).length = m.full + 1 := by
  have hlt : m.data.length % ipcMsgMaxSize < ipcMsgMaxSize := Nat.mod_lt _ (by decide)
  have hpos := m.position_length
  simp only [ipcMsgMaxSize] at hlt
  rw [chunks, length_blocks, m.length_publishData, blockCount, hpos]
  simp only [udpMaxSize, tailMsgSize, ipcMsgMaxSize]
  omega

/-- Where page `i` begins, the stream goes on with the data from there. -/
theorem drop_publishData {i : ℕ} (hi : i ≤ m.full) :
    m.publishData.drop (udpMaxSize * i)
      = weave ipcMsgMaxSize (messageTail m.msgId.toNat m.data.length) (ipcMsgMaxSize * i)
          (m.data.drop (ipcMsgMaxSize * i))
        ++ messageTail m.msgId.toNat m.data.length m.full := by
  have hle : ipcMsgMaxSize * i ≤ m.data.length :=
    (Nat.mul_le_mul_left _ hi).trans (Nat.mul_div_le _ _)
  have hplace : place ipcMsgMaxSize tailMsgSize (ipcMsgMaxSize * i) = udpMaxSize * i := by
    simp only [place, ipcMsgMaxSize, tailMsgSize, udpMaxSize]
    omega
  have hB : 0 < ipcMsgMaxSize := by decide
  have htail : ∀ k, (messageTail m.msgId.toNat m.data.length k).length = tailMsgSize := fun _ => rfl
  rw [publishData_eq, ← hplace]
  exact drop_weave htail hB _ rfl hle

/-- A full page is 1460 bytes of data and a tail. -/
theorem chunk_full {i : ℕ} (hi : i < m.full) :
    (chunks m.publishData)[i]? = some ((m.data.drop (ipcMsgMaxSize * i)).take ipcMsgMaxSize
      ++ messageTail m.msgId.toNat m.data.length (i + 1)) := by
  have hlen := m.length_publishData
  have hpos := m.position_length
  have hlt : udpMaxSize * i < m.publishData.length := by
    have hmul : udpMaxSize * i ≤ udpMaxSize * m.full := Nat.mul_le_mul_left _ (Nat.le_of_lt hi)
    simp only [tailMsgSize] at hlen
    omega
  have hroom : ipcMsgMaxSize * i + ipcMsgMaxSize ≤ m.data.length := by
    rw [← Nat.mul_succ]
    exact (Nat.mul_le_mul_left _ hi).trans (Nat.mul_div_le _ _)
  obtain ⟨body, rest, hsplit, hbody, hlen⟩ : ∃ body rest,
      m.data.drop (ipcMsgMaxSize * i) = body ++ rest ∧
      (m.data.drop (ipcMsgMaxSize * i)).take ipcMsgMaxSize = body ∧ body.length = ipcMsgMaxSize := by
    refine ⟨_, _, (List.take_append_drop ipcMsgMaxSize _).symm, rfl, ?_⟩
    rw [List.length_take, List.length_drop]
    omega
  have hmod : ipcMsgMaxSize * i % ipcMsgMaxSize = 0 := Nat.mul_mod_right _ _
  have hne : body ≠ [] := by
    rintro rfl
    cases hlen
  have hdiv : ipcMsgMaxSize * i / ipcMsgMaxSize = i :=
    Nat.mul_div_cancel_left i (show 0 < ipcMsgMaxSize by decide)
  have hB : 0 < udpMaxSize := by decide
  rw [chunks, getElem?_blocks hB, if_pos hlt, slice, drop_publishData (Nat.le_of_lt hi),
    hbody, hsplit, weave_append, weave_block hne (by rw [hmod, Nat.zero_add, hlen]), hdiv,
    List.append_assoc, Option.some.injEq]
  refine List.take_left' ?_
  rw [List.length_append, hlen]
  rfl

/-- The last page is the rest of the data and a tail. -/
theorem chunk_last (m : Serialized) :
    (chunks m.publishData)[m.full]? = some (m.data.drop (ipcMsgMaxSize * m.full)
      ++ messageTail m.msgId.toNat m.data.length m.full) := by
  have hlen := m.length_publishData
  have hpos := m.position_length
  have hrest : m.data.length % ipcMsgMaxSize < ipcMsgMaxSize := Nat.mod_lt _ (by decide)
  have hdata := m.length_data_eq
  have hlt : udpMaxSize * m.full < m.publishData.length := by
    simp only [tailMsgSize] at hlen
    omega
  have hdrop : (m.data.drop (ipcMsgMaxSize * m.full)).length = m.data.length % ipcMsgMaxSize := by
    rw [List.length_drop]
    omega
  have hwithin : ipcMsgMaxSize * m.full % ipcMsgMaxSize
      + (m.data.drop (ipcMsgMaxSize * m.full)).length < ipcMsgMaxSize := by
    rw [Nat.mul_mod_right, hdrop, Nat.zero_add]
    exact hrest
  rw [chunks, getElem?_blocks (by decide), if_pos hlt, slice, drop_publishData (Nat.le_refl _),
    weave_within hwithin, Option.some.injEq]
  refine List.take_of_length_le ?_
  rw [List.length_append, hdrop]
  simp only [udpMaxSize, ipcMsgMaxSize] at hrest ⊢
  change _ + tailMsgSize ≤ _
  simp only [tailMsgSize]
  omega

/-- **Pages before the correction.**  Each ends in a tail of the message. -/
theorem chunk {i : ℕ} (hi : i ≤ m.full) :
    ∃ body k, (chunks m.publishData)[i]? = some (body ++ messageTail m.msgId.toNat m.data.length k) ∧
      body.length = if i = m.full then m.data.length % ipcMsgMaxSize else ipcMsgMaxSize := by
  rcases Nat.lt_or_eq_of_le hi with hlt | rfl
  · refine ⟨_, _, chunk_full hlt, ?_⟩
    have hroom : ipcMsgMaxSize * i + ipcMsgMaxSize ≤ m.data.length := by
      rw [← Nat.mul_succ]
      exact (Nat.mul_le_mul_left _ hlt).trans (Nat.mul_div_le _ _)
    rw [if_neg (Nat.ne_of_lt hlt), List.length_take, List.length_drop]
    omega
  · refine ⟨_, _, m.chunk_last, ?_⟩
    have hdata := m.length_data_eq
    rw [if_pos rfl, List.length_drop]
    omega

theorem parseTail_messageTail (m : Serialized) (k : ℕ) :
    ∃ tail, parseTail (messageTail m.msgId.toNat m.data.length k) = some tail ∧
      tail.Matches m.info := by
  have hfull := m.full_lt
  have hfits := m.fits
  change position m.data.length + tailMsgSize ≤ _ at hfits
  rw [position_eq] at hfits
  simp only [maxRecvTotalSize, tailMsgSize] at hfits
  have hcnt : (correctTotalSize m.data.length).pageCnt = m.full + 1 := by
    simp only [correctTotalSize]
    have hinner : u16 (m.data.length / ipcMsgMaxSize) = m.full :=
      u16_of_lt (Nat.lt_of_succ_lt hfull)
    rw [hinner]
    exact u16_of_lt hfull
  have hsize : (correctTotalSize m.data.length).totalSize = position m.data.length + tailMsgSize := by
    have hsum : (correctTotalSize m.data.length).totalSize
        = u32 (m.data.length + (m.full + 1) * tailMsgSize) := by
      rw [← hcnt]
      rfl
    rw [hsum, u32_of_lt, position_eq]
    · simp only [full, tailMsgSize, ipcMsgMaxSize]
      omega
    · simp only [full, tailMsgSize, ipcMsgMaxSize]
      omega
  refine ⟨_, parseTail_tailBytes _ _ _, ?_, ?_, ?_⟩
  · rw [hcnt, beNat_be16_of_lt hfull]
    rfl
  · rw [hsize, beNat_be32_of_lt]
    · rfl
    · rw [position_eq]
      simp only [tailMsgSize]
      omega
  · change UInt32.ofNat (beNat (be32 m.msgId.toNat)) = m.msgId
    rw [beNat_be32_of_lt m.msgId.toNat_lt, UInt32.ofNat_toNat]

theorem length_wirePages (m : Serialized) : (wirePages m.publishData).length = m.full + 1 := by
  rw [Udp.length_wirePages, m.length_chunks]

/-- **The pages of a message.**  What is sent at place `i` is page `i + 1` of the message. -/
theorem isPage {i : ℕ} {page : List UInt8} (hpage : (wirePages m.publishData)[i]? = some page) :
    IsPage m.info (i + 1) page := by
  have hi : i ≤ m.full := by
    have hlt := (List.getElem?_eq_some_iff.mp hpage).1
    rw [m.length_wirePages] at hlt
    omega
  have hfull := m.full_lt
  obtain ⟨body, k, hchunk, hlen⟩ := chunk hi
  obtain ⟨tail, htail, hmatch⟩ := m.parseTail_messageTail k
  have hnow : (UInt16.ofNat (i + 1)).toNat = i + 1 := by
    rw [UInt16.toNat_ofNat', Nat.mod_eq_of_lt (by omega)]
  rw [wirePages, List.getElem?_mapIdx, hchunk, Option.map_some, Option.some.injEq] at hpage
  have hparse : parseTail page = some { tail with nowPage := .ofNat (i + 1) } := by
    rw [← hpage, parseTail_writeNowPage, parseTail_append _ (Nat.le_refl _), htail]
    rfl
  have hpageLen : page.length = body.length + tailMsgSize := by
    rw [← hpage, writeNowPage_length, List.length_append]
    rfl
  refine ⟨_, hparse, hmatch, hnow, Nat.le_add_left 1 i, ?_, ?_⟩
  · rw [m.pageCnt_toNat]
    omega
  · rw [hpageLen, hlen, expectedPageSize]
    have hlast : UInt16.ofNat (i + 1) = m.info.pageCnt ↔ i = m.full := by
      rw [← UInt16.toNat_inj, hnow, m.pageCnt_toNat, Nat.add_right_cancel_iff]
    by_cases heq : i = m.full
    · have hpos := m.position_length
      rw [if_pos heq, if_pos (hlast.mpr heq), hnow, m.totalSize_toNat, heq]
      simp only [udpMaxSize, tailMsgSize, ipcMsgMaxSize] at hpos ⊢
      omega
    · rw [if_neg heq, if_neg fun h => heq (hlast.mp h)]
      rfl

theorem tailMsgSize_le {i : ℕ} {page : List UInt8}
    (hpage : (wirePages m.publishData)[i]? = some page) : tailMsgSize ≤ page.length := by
  obtain ⟨tail, htail, -⟩ := isPage hpage
  by_contra hshort
  rw [parseTail, if_pos (Nat.lt_of_not_le hshort)] at htail
  cases htail

/-- The message passes for its own id only. -/
theorem checkId_onWire (m : Serialized) (expectedId : UInt32) :
    checkId (onWire m.publishData) expectedId = true ↔ m.msgId = expectedId := by
  have hlt : m.full < (wirePages m.publishData).length := by
    rw [m.length_wirePages]
    exact Nat.lt_succ_self _
  obtain ⟨page, hpage⟩ : ∃ page, (wirePages m.publishData)[m.full]? = some page :=
    ⟨_, List.getElem?_eq_getElem hlt⟩
  have hsplit : onWire m.publishData = ((wirePages m.publishData).take m.full).flatten ++ page := by
    have hlast : (wirePages m.publishData).drop m.full = [page] := by
      rw [List.drop_eq_getElem_cons hlt, List.drop_of_length_le (by rw [m.length_wirePages])]
      exact congrArg (· :: []) ((List.getElem?_eq_some_iff.mp hpage).2)
    have hwhole := List.take_append_drop m.full (wirePages m.publishData)
    rw [hlast] at hwhole
    rw [onWire]
    conv_lhs => rw [← hwhole]
    rw [List.flatten_append, List.flatten_singleton]
  obtain ⟨tail, htail, hmatch, -⟩ := isPage hpage
  rw [hsplit, checkId_append _ (tailMsgSize_le hpage), checkId_iff_of_parseTail htail,
    hmatch.2.2]
  rfl

end Serialized

end DzIpc.Udp
