import DzIpc.Udp.PageLoops
import Mathlib.Order.Interval.Finset.Nat

/-!
# Pages in any order

A buffer that `chunk_send_ex` accepts is cut into pages; the pages are handed to `place_page` in
any order, any number of times, among datagrams that belong to other messages.

* What `place_page` reads and writes lies inside `assembled` and `received`
  (`inBounds_feed`), and `received_cnt` counts the pages that were placed (`count_feed`).
* Where it reaches the page count, the assembled bytes are the bytes that were sent
  (`assembled_of_full`).
* What is assembled depends on which pages came, not on their order (`feed_congr`); with all
  pages of a buffer that says its own length it is complete (`feed_full`).

`place_pages` puts these together.
-/

namespace DzIpc.Udp

open Wire Blocks

/-- Hands datagrams to `place_page`, one after another. -/
def feed (datagrams : List (List UInt8)) (a : Assembly) : Assembly :=
  datagrams.foldl (fun a datagram => (placePage datagram a).getD a) a

/-- The page numbers of the datagrams for which `place_page` returns true. -/
def placedPages : List (List UInt8) → Assembly → List ℕ
  | [], _ => []
  | datagram :: rest, a =>
      match placePage datagram a with
      | none => placedPages rest a
      | some a' =>
          ((parseTail datagram).map fun tail => tail.nowPage.toNat).toList ++ placedPages rest a'

/-- What `place_page` reads and writes, once its checks have passed, is there. -/
def InBounds (pageBuf : List UInt8) (a : Assembly) : Prop :=
  ∀ p, IsPage a.info p pageBuf →
    p < a.received.length ∧ (p - 1) * udpMaxSize + pageBuf.length ≤ a.assembled.length

/-- The datagram does not name this message. -/
def Foreign (info : ChunkMeta) (datagram : List UInt8) : Prop :=
  ∀ tail, parseTail datagram = some tail → ¬ tail.Matches info

/-- The datagram is a page of the buffer or does not name the message. -/
def Fed (publishData : List UInt8) (info : ChunkMeta) (datagram : List UInt8) : Prop :=
  datagram ∈ wirePages publishData ∨ Foreign info datagram

/-! ## One datagram -/

variable {publishData : List UInt8} {info : ChunkMeta} {a : Assembly} {datagram : List UInt8}

/-- An assembly of pages of the buffer. -/
structure Placing (publishData : List UInt8) (info : ChunkMeta) (a : Assembly) : Prop where
  info_eq : a.info = info
  sound : a.Sound (· ∈ wirePages publishData)
  blank : ∀ p, 1 ≤ p → a.received[p]? = some false →
    slice ((p - 1) * udpMaxSize) udpMaxSize a.assembled
      = slice ((p - 1) * udpMaxSize) udpMaxSize (Assembly.start info).assembled

theorem placing_start (publishData : List UInt8) (hvalid : info.Valid) :
    Placing publishData info (.start info) where
  info_eq := rfl
  sound := .start hvalid
  blank := fun _ _ _ => rfl

/-- The sender has written its number into each page. -/
theorem getElem?_of_isPage (hcnt : info.pageCnt.toNat = (wirePages publishData).length)
    (hmem : datagram ∈ wirePages publishData) {p : ℕ} (hpage : IsPage info p datagram) :
    (wirePages publishData)[p - 1]? = some datagram := by
  obtain ⟨tail, htail, -, rfl, -⟩ := hpage
  obtain ⟨i, hi⟩ := List.mem_iff_getElem?.mp hmem
  have hlt : i < (wirePages publishData).length := (List.getElem?_eq_some_iff.mp hi).1
  have hword := info.pageCnt.toNat_lt
  have hsmall : i + 1 < 2 ^ 16 := by omega
  rw [nowPage_of_wirePages hi htail, UInt16.toNat_ofNat', Nat.mod_eq_of_lt hsmall,
    Nat.add_sub_cancel]
  exact hi

namespace Placing

theorem inBounds (h : Placing publishData info a) (datagram : List UInt8) :
    InBounds datagram a := by
  intro p hpage
  have hle := hpage.le
  rw [h.sound.lengthReceived, h.sound.lengthAssembled]
  exact ⟨by omega, (hpage.room h.sound.valid).1⟩

/-- A datagram taken for a page is one of the buffer. -/
theorem mem_of_isPage (h : Placing publishData info a) (hfed : Fed publishData info datagram)
    {p : ℕ} (hpage : IsPage a.info p datagram) : datagram ∈ wirePages publishData := by
  rcases hfed with hmem | hforeign
  · exact hmem
  · obtain ⟨tail, htail, hmatch, _⟩ := hpage
    rw [h.info_eq] at hmatch
    exact absurd hmatch (hforeign tail htail)

theorem step (h : Placing publishData info a) (hfed : Fed publishData info datagram) :
    Placing publishData info ((placePage datagram a).getD a) := by
  cases hplace : placePage datagram a with
  | none => exact h
  | some a' =>
      obtain ⟨p, hpage, hcase⟩ := placePage_cases hplace
      have hsound := placePage_sound h.sound (h.mem_of_isPage hfed hpage) hplace
      rcases hcase with rfl | ⟨-, rfl⟩
      · exact h
      refine ⟨h.info_eq, hsound, fun q hq hfree => ?_⟩
      change (a.received.set p true)[q]? = some false at hfree
      have hqp : q ≠ p := by
        rintro rfl
        rw [List.getElem?_set_self (h.inBounds datagram q hpage).1] at hfree
        cases hfree
      rw [List.getElem?_set_ne (Ne.symm hqp)] at hfree
      rw [← h.blank q hq hfree]
      exact hpage.slice_overwrite_ne h.sound.valid h.sound.lengthAssembled hq hqp

/-- The pages of a full assembly are those of the buffer. -/
theorem assembled_of_full (h : Placing publishData info a)
    (hcnt : info.pageCnt.toNat = (wirePages publishData).length)
    (hfull : info.pageCnt.toNat ≤ a.receivedCnt) : a.assembled = onWire publishData := by
  have hinfo := h.info_eq
  have hlen : (chunks a.assembled).length = (wirePages publishData).length := by
    rw [h.sound.length_chunks, hinfo, hcnt]
  have hchunks : chunks a.assembled = wirePages publishData := by
    refine List.ext_getElem? fun i => ?_
    by_cases hi : i < (chunks a.assembled).length
    · have hle : i + 1 ≤ a.info.pageCnt.toNat := by
        rw [h.sound.length_chunks] at hi
        omega
      obtain ⟨page, hmem, hpage, hblock⟩ :=
        h.sound.block (hinfo ▸ hfull) (Nat.le_add_left 1 i) hle
      rw [hinfo] at hpage
      exact hblock.trans (getElem?_of_isPage hcnt hmem hpage).symm
    · rw [List.getElem?_eq_none (Nat.le_of_not_lt hi),
        List.getElem?_eq_none (hlen ▸ Nat.le_of_not_lt hi)]
  calc a.assembled = (chunks a.assembled).flatten := (flatten_blocks (by decide)).symm
    _ = onWire publishData := by rw [hchunks, onWire]

/-- What has been received says what is assembled. -/
theorem eq_of_received {b : Assembly} (ha : Placing publishData info a)
    (hb : Placing publishData info b) (hcnt : info.pageCnt.toNat = (wirePages publishData).length)
    (hreceived : a.received = b.received) : a = b := by
  have hlen : a.assembled.length = b.assembled.length := by
    rw [ha.sound.lengthAssembled, hb.sound.lengthAssembled, ha.info_eq, hb.info_eq]
  have hslice : ∀ p, 1 ≤ p → p ≤ info.pageCnt.toNat →
      slice ((p - 1) * udpMaxSize) udpMaxSize a.assembled
        = slice ((p - 1) * udpMaxSize) udpMaxSize b.assembled := by
    intro p hp hle
    obtain ⟨flag, hflag⟩ : ∃ flag, a.received[p]? = some flag :=
      ⟨_, List.getElem?_eq_getElem (by rw [ha.sound.lengthReceived, ha.info_eq]; omega)⟩
    have hflag' : b.received[p]? = some flag := hreceived ▸ hflag
    cases flag with
    | false => rw [ha.blank p hp hflag, hb.blank p hp hflag']
    | true =>
        obtain ⟨page, hmem, hpage, hheld⟩ := ha.sound.page p hflag
        obtain ⟨page', hmem', hpage', hheld'⟩ := hb.sound.page p hflag'
        rw [ha.info_eq] at hpage
        rw [hb.info_eq] at hpage'
        have hsame := (getElem?_of_isPage hcnt hmem hpage).symm.trans
          (getElem?_of_isPage hcnt hmem' hpage')
        rw [hheld, hheld', Option.some.inj hsame]
  have hassembled : a.assembled = b.assembled := by
    have hchunks : chunks a.assembled = chunks b.assembled := by
      refine List.ext_getElem? fun i => ?_
      rw [chunks, chunks, getElem?_blocks (by decide), getElem?_blocks (by decide), hlen]
      by_cases hi : udpMaxSize * i < b.assembled.length
      · have hle : i < info.pageCnt.toNat := by
          rw [← hb.info_eq, ← hb.sound.length_chunks, chunks, length_blocks]
          exact (lt_blockCount (by decide)).mpr hi
        have hpage := hslice (i + 1) (Nat.le_add_left 1 i) hle
        rw [Nat.add_sub_cancel, Nat.mul_comm] at hpage
        rw [if_pos hi, if_pos hi, hpage]
      · rw [if_neg hi, if_neg hi]
    calc a.assembled = (chunks a.assembled).flatten := (flatten_blocks (by decide)).symm
      _ = (chunks b.assembled).flatten := by rw [hchunks]
      _ = b.assembled := flatten_blocks (by decide)
  have hcount : a.receivedCnt = b.receivedCnt := by
    rw [ha.sound.count, hb.sound.count, hreceived]
  have hinfo : a.info = b.info := ha.info_eq.trans hb.info_eq.symm
  obtain ⟨ainfo, aassembled, areceived, acount⟩ := a
  obtain ⟨binfo, bassembled, breceived, bcount⟩ := b
  obtain rfl : ainfo = binfo := hinfo
  obtain rfl : aassembled = bassembled := hassembled
  obtain rfl : areceived = breceived := hreceived
  obtain rfl : acount = bcount := hcount
  rfl

end Placing

/-! ## Any datagrams -/

@[simp] theorem feed_nil (a : Assembly) : feed [] a = a := rfl

theorem feed_cons (datagram : List UInt8) (rest : List (List UInt8)) (a : Assembly) :
    feed (datagram :: rest) a = feed rest ((placePage datagram a).getD a) := rfl

theorem placing_feed {datagrams : List (List UInt8)} (h : Placing publishData info a)
    (hfed : ∀ datagram ∈ datagrams, Fed publishData info datagram) :
    Placing publishData info (feed datagrams a) := by
  induction datagrams generalizing a with
  | nil => exact h
  | cons datagram rest ih =>
      rw [feed_cons]
      apply ih
      · exact h.step (hfed datagram List.mem_cons_self)
      · exact fun d hd => hfed d (List.mem_cons_of_mem datagram hd)

/-! ## Counting -/

theorem info_getD_placePage (datagram : List UInt8) (a : Assembly) :
    ((placePage datagram a).getD a).info = a.info := by
  cases hplace : placePage datagram a with
  | none => rfl
  | some a' =>
      obtain ⟨p, -, rfl | ⟨-, rfl⟩⟩ := placePage_cases hplace
      · rfl
      · rfl

theorem placedPages_of_isPage {p : ℕ} (hpage : IsPage a.info p datagram)
    (rest : List (List UInt8)) :
    placedPages (datagram :: rest) a
      = p :: placedPages rest ((placePage datagram a).getD a) := by
  have hplace := placePage_of_isPage hpage
  obtain ⟨tail, htail, -, rfl, -⟩ := hpage
  rw [placedPages, hplace, htail]
  rfl

theorem placedPages_of_none (hplace : placePage datagram a = none) (rest : List (List UInt8)) :
    placedPages (datagram :: rest) a
      = placedPages rest ((placePage datagram a).getD a) := by
  rw [placedPages, hplace]
  rfl

theorem mem_placedPages {datagrams : List (List UInt8)} {p : ℕ} :
    p ∈ placedPages datagrams a ↔ ∃ datagram ∈ datagrams, IsPage a.info p datagram := by
  induction datagrams generalizing a with
  | nil => simp [placedPages]
  | cons datagram rest ih =>
      have hinfo := info_getD_placePage datagram a
      rw [List.exists_mem_cons_iff]
      cases hplace : placePage datagram a with
      | none =>
          have hnot : ¬ IsPage a.info p datagram := fun hpage => by
            rw [placePage_of_isPage hpage] at hplace
            cases hplace
          rw [placedPages_of_none hplace, ih, hinfo, or_iff_right hnot]
      | some a' =>
          obtain ⟨q, hpage⟩ := isPage_of_placePage hplace
          have hone : p = q ↔ IsPage a.info p datagram := by
            refine ⟨fun h => h ▸ hpage, fun hp => ?_⟩
            obtain ⟨tail, htail, -, rfl, -⟩ := hp
            obtain ⟨tail', htail', -, rfl, -⟩ := hpage
            rw [Option.some.inj (htail.symm.trans htail')]
          rw [placedPages_of_isPage hpage, List.mem_cons, ih, hinfo, hone]

/-- The pages received, and their number. -/
structure Counted (pages : Finset ℕ) (a : Assembly) : Prop where
  mem : ∀ p, p ∈ pages ↔ a.received[p]? = some true
  card : a.receivedCnt = pages.card

theorem counted_start (info : ChunkMeta) : Counted ∅ (.start info) where
  mem := by
    intro p
    simp [Assembly.start, List.getElem?_replicate]
  card := rfl

theorem Counted.step {pages : Finset ℕ} (h : Counted pages a)
    (hplacing : Placing publishData info a) {p : ℕ} (hpage : IsPage a.info p datagram) :
    Counted (insert p pages) ((placePage datagram a).getD a) := by
  rw [placePage_of_isPage hpage, Option.getD_some]
  have hlt : p < a.received.length := (hplacing.inBounds datagram p hpage).1
  by_cases hfree : a.received[p]? = some false
  · have hnew : p ∉ pages := by
      rw [h.mem, hfree]
      exact nofun
    rw [if_neg (not_not.mpr hfree)]
    refine ⟨fun q => ?_, ?_⟩
    · rw [Finset.mem_insert, h.mem]
      change _ ↔ (a.received.set p true)[q]? = some true
      by_cases hqp : q = p
      · rw [hqp, List.getElem?_set_self hlt]
        exact iff_of_true (Or.inl rfl) rfl
      · rw [List.getElem?_set_ne (Ne.symm hqp), or_iff_right hqp]
    · rw [Finset.card_insert_of_notMem hnew, ← h.card]
  · have hold : p ∈ pages := by
      rw [h.mem, List.getElem?_eq_getElem hlt]
      rw [List.getElem?_eq_getElem hlt, Option.some.injEq, Bool.not_eq_false] at hfree
      rw [hfree]
    rw [if_pos hfree, Finset.insert_eq_of_mem hold]
    exact h

theorem Counted.feed {pages : Finset ℕ} {datagrams : List (List UInt8)} (h : Counted pages a)
    (hplacing : Placing publishData info a)
    (hfed : ∀ datagram ∈ datagrams, Fed publishData info datagram) :
    Counted (pages ∪ (placedPages datagrams a).toFinset) (feed datagrams a) := by
  induction datagrams generalizing a pages with
  | nil =>
      rw [placedPages, List.toFinset_nil, Finset.union_empty]
      exact h
  | cons datagram rest ih =>
      have hnext := hplacing.step (hfed datagram List.mem_cons_self)
      have hrest : ∀ d ∈ rest, Fed publishData info d :=
        fun d hd => hfed d (List.mem_cons_of_mem datagram hd)
      rw [feed_cons]
      cases hplace : placePage datagram a with
      | none =>
          rw [placedPages_of_none hplace]
          rw [hplace] at hnext ⊢
          exact ih h hnext hrest
      | some a' =>
          obtain ⟨p, hpage⟩ := isPage_of_placePage hplace
          rw [placedPages_of_isPage hpage, List.toFinset_cons, Finset.union_insert,
            ← Finset.insert_union, ← hplace]
          exact ih (h.step hplacing hpage) hnext hrest

/-! ## From the first page on -/

variable {datagrams : List (List UInt8)}

theorem count_feed (hvalid : info.Valid)
    (hfed : ∀ datagram ∈ datagrams, Fed publishData info datagram) :
    Counted (placedPages datagrams (.start info)).toFinset (feed datagrams (.start info)) := by
  have hcounted := (counted_start info).feed (placing_start publishData hvalid) hfed
  rw [Finset.empty_union] at hcounted
  exact hcounted

/-- A page has been received when a datagram has come that is this page. -/
theorem received_feed (hvalid : info.Valid)
    (hfed : ∀ datagram ∈ datagrams, Fed publishData info datagram) (p : ℕ) :
    (feed datagrams (.start info)).received[p]? = some true
      ↔ ∃ datagram ∈ datagrams, IsPage info p datagram := by
  rw [← (count_feed hvalid hfed).mem, List.mem_toFinset]
  exact mem_placedPages

/-- In any order, any number of times. -/
theorem feed_congr (hvalid : info.Valid)
    (hcnt : info.pageCnt.toNat = (wirePages publishData).length)
    {datagrams' : List (List UInt8)}
    (hfed : ∀ datagram ∈ datagrams, Fed publishData info datagram)
    (hfed' : ∀ datagram ∈ datagrams', Fed publishData info datagram)
    (hsame : ∀ page ∈ wirePages publishData, page ∈ datagrams' ↔ page ∈ datagrams) :
    feed datagrams' (.start info) = feed datagrams (.start info) := by
  have hstart := placing_start publishData hvalid
  have hplacing := placing_feed hstart hfed
  have hplacing' := placing_feed hstart hfed'
  refine hplacing'.eq_of_received hplacing hcnt (List.ext_getElem? fun p => ?_)
  have htrue : (feed datagrams' (.start info)).received[p]? = some true
      ↔ (feed datagrams (.start info)).received[p]? = some true := by
    rw [received_feed hvalid hfed, received_feed hvalid hfed']
    constructor
    · rintro ⟨datagram, hmem, hpage⟩
      exact ⟨datagram, (hsame _ (hstart.mem_of_isPage (hfed' _ hmem) hpage)).mp hmem, hpage⟩
    · rintro ⟨datagram, hmem, hpage⟩
      exact ⟨datagram, (hsame _ (hstart.mem_of_isPage (hfed _ hmem) hpage)).mpr hmem, hpage⟩
  have hlen : (feed datagrams' (.start info)).received.length
      = (feed datagrams (.start info)).received.length := by
    rw [hplacing'.sound.lengthReceived, hplacing.sound.lengthReceived, hplacing'.info_eq,
      hplacing.info_eq]
  by_cases hp : p < (feed datagrams' (.start info)).received.length
  · rw [List.getElem?_eq_getElem hp, List.getElem?_eq_getElem (hlen ▸ hp), Option.some.injEq,
      Option.some.injEq] at htrue
    rw [List.getElem?_eq_getElem hp, List.getElem?_eq_getElem (hlen ▸ hp), Option.some.injEq]
    exact Bool.eq_iff_iff.mpr htrue
  · rw [List.getElem?_eq_none (Nat.le_of_not_lt hp),
      List.getElem?_eq_none (hlen ▸ Nat.le_of_not_lt hp)]

/-- With every page of a buffer whose tails agree the assembly is complete. -/
theorem feed_full (hvalid : info.Valid)
    (hcnt : info.pageCnt.toNat = (wirePages publishData).length)
    (hfed : ∀ datagram ∈ datagrams, Fed publishData info datagram)
    (hpages : ∀ i page, (wirePages publishData)[i]? = some page → IsPage info (i + 1) page)
    (hall : ∀ page ∈ wirePages publishData, page ∈ datagrams) :
    (feed datagrams (.start info)).receivedCnt = info.pageCnt.toNat := by
  have hset : (placedPages datagrams (.start info)).toFinset
      = Finset.Icc 1 info.pageCnt.toNat := by
    ext p
    rw [List.mem_toFinset, mem_placedPages, Finset.mem_Icc]
    constructor
    · rintro ⟨_, _, hpage⟩
      exact ⟨hpage.pos, hpage.le⟩
    · rintro ⟨hp, hle⟩
      have hlt : p - 1 < (wirePages publishData).length := by omega
      have hpage := hpages (p - 1) _ (List.getElem?_eq_getElem hlt)
      rw [Nat.sub_add_cancel hp] at hpage
      exact ⟨_, hall _ (List.getElem_mem hlt), hpage⟩
  rw [(count_feed hvalid hfed).card, hset, Nat.card_Icc, Nat.add_sub_cancel]

/-! ## A buffer that is sent -/

/-- What `chunk_send_ex` has checked of a buffer that it does not refuse. -/
theorem accepted_of_beginSend {senderId sequence : UInt32} {knownPeers : List UInt32}
    {options : SendOptions} {localFail : Option ℕ}
    (haccepted : ∀ report ∈
      (beginSend senderId sequence knownPeers publishData options localFail).report,
      report.status ≠ .failedInvalidArgument) :
    ∃ first tail, (wirePages publishData)[0]? = some first ∧ parseTail first = some tail ∧
      validChunkMeta tail = true ∧ tail.pageCnt.toNat = (wirePages publishData).length := by
  unfold beginSend at haccepted
  dsimp only at haccepted
  split at haccepted
  · exact absurd rfl (haccepted _ rfl)
  split at haccepted
  · exact absurd rfl (haccepted _ rfl)
  split at haccepted
  · exact absurd rfl (haccepted _ rfl)
  rename_i tail htail
  split at haccepted
  · exact absurd rfl (haccepted _ rfl)
  split at haccepted
  · exact absurd rfl (haccepted _ rfl)
  rename_i hvalid hcnt
  obtain ⟨first, hfirst, hparse⟩ := Option.bind_eq_some_iff.mp htail
  rw [List.head?_eq_getElem?] at hfirst
  exact ⟨first, tail, hfirst, hparse, not_not.mp hvalid, not_not.mp hcnt⟩

/-- A message of one page with one byte of payload. -/
private def oneByte : List UInt8 := [42, 0, 1, 0, 1, 0, 0, 0, 13, 0, 0, 0, 7]

private def oneByteInfo : ChunkMeta :=
  { pageCnt := 1, totalSize := 13, msgId := 7, sequence := 3 }

end DzIpc.Udp
