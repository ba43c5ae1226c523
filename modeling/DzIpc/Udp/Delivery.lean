import DzIpc.Udp.Network

/-!
# What a UDP channel delivers

Pages carry no sequence number: a page says which message it belongs to by page count, size
and message id only.  An assembly is therefore made of pages that agree on these three, and
a reported delivery is one of a message that agrees on them.

* `assembled_pages`: every page of a completed assembly is that page of some published
  buffer; if one on-wire content carries the three values, it is what was assembled.
* `delivered_of_acked`: at most one receipt for each copy of a page, and a reported
  delivery comes with a completed assembly of a message with these values and this
  sequence.
* `mixed_buffers` and `not_once_and_not_true` are runs in which more is not true.
-/

namespace DzIpc.Udp

open Wire Blocks

variable {ch : UdpChannel} {s : NetState}

/-- The datagram is page `p` of the buffer, and says that it belongs to this message. -/
def IsPageOf (publishData : List UInt8) (info : ChunkMeta) (p : ℕ) (page : List UInt8) : Prop :=
  (wirePages publishData)[p - 1]? = some page ∧
    ∃ tail, parseTail page = some tail ∧ tail.Matches info

/-- The buffer has a page that says that it belongs to this message. -/
def Carries (publishData : List UInt8) (info : ChunkMeta) : Prop :=
  ∃ p page, IsPageOf publishData info p page

/-- A datagram taken for a page is a page of a published buffer. -/
theorem Inv.page_of_taken (hinv : Inv ch s) {r : ℕ} {datagram : List UInt8}
    (h : Taken ch s r datagram) : ∃ publishData ∈ s.published, datagram ∈ wirePages publishData := by
  have hcontrol := (ch.receiver r).notControl
  obtain ⟨hmem, hid⟩ := h
  -- the other datagrams carry the reserved ids
  have hreserved : ∀ msgId, isRtpsControlFrame msgId = true → (ch.receiver r).msgId ≠ msgId := by
    rintro msgId hres rfl
    rw [hres] at hcontrol
    cases hcontrol
  rcases hinv.dataWire datagram hmem with hpage | hhb | ⟨-, hnack | ⟨rc, -, hack⟩⟩
  · exact hpage
  · rw [hhb.checkId, decide_eq_true_eq] at hid
    exact absurd hid.symm (hreserved _ rfl)
  · rcases hnack.id_of_checkId hid with h | h
    · exact absurd h (hreserved _ rfl)
    · exact absurd h (hreserved _ rfl)
  · obtain ⟨-, -, -, -, -, -, ⟨hids, -⟩ | ⟨hids, -⟩⟩ := hack.read
    · rw [hids, decide_eq_true_eq] at hid
      exact absurd hid.symm (hreserved _ rfl)
    · rw [hids, decide_eq_true_eq] at hid
      exact absurd hid.symm (hreserved _ rfl)

/-- A published buffer has fewer pages than a page number can count. -/
theorem length_wirePages_lt {publishData : List UInt8} {info : ChunkMeta}
    (h : Announces publishData info) : (wirePages publishData).length < 2 ^ 16 := by
  obtain ⟨_, _, _, _, _, hlen⟩ := h
  rw [← hlen]
  exact info.pageCnt.toNat_lt

/-- A page of a completed assembly is this page of a published buffer. -/
theorem Inv.isPageOf (hinv : Inv ch s) {r : ℕ} {c : Receipt} (hc : (r, c) ∈ s.receipts) {p : ℕ}
    (hp : 1 ≤ p) (hle : p ≤ c.info.pageCnt.toNat) :
    ∃ publishData ∈ s.published, ∃ page, (chunks c.bytes)[p - 1]? = some page ∧
      IsPageOf publishData c.info p page := by
  obtain ⟨page, htaken, ⟨tail, htail, hmatch, hnow, -⟩, hblock⟩ :=
    (hinv.receipts _ hc).page p hp hle
  obtain ⟨publishData, hpub, hmem⟩ := hinv.page_of_taken htaken
  obtain ⟨i, hi⟩ := List.mem_iff_getElem?.mp hmem
  have hlt : i < (wirePages publishData).length := (List.getElem?_eq_some_iff.mp hi).1
  obtain ⟨info, hann⟩ := hinv.published publishData hpub
  have hsmall := length_wirePages_lt hann
  have hnumber : tail.nowPage.toNat = i + 1 := by
    rw [nowPage_of_wirePages hi htail, UInt16.toNat_ofNat']
    omega
  obtain rfl : i = p - 1 := by omega
  exact ⟨publishData, hpub, page, hblock, hi, tail, htail, hmatch⟩

/-- If all published buffers with a page for the message have the same on-wire bytes, the
assembly has these. -/
theorem Inv.bytes_eq (hinv : Inv ch s) {r : ℕ} {c : Receipt} (hc : (r, c) ∈ s.receipts)
    {wire : List UInt8}
    (hone : ∀ publishData ∈ s.published, Carries publishData c.info →
      onWire publishData = wire) : c.bytes = wire := by
  have hpages := (hinv.receipts _ hc).nonempty
  have hcnt : (chunks c.bytes).length = c.info.pageCnt.toNat := (hinv.receipts _ hc).pages
  have hpage : ∀ p, 1 ≤ p → p ≤ c.info.pageCnt.toNat →
      (chunks c.bytes)[p - 1]? = (chunks wire)[p - 1]? := by
    intro p hp hle
    obtain ⟨publishData, hpub, page, hblock, hof⟩ := hinv.isPageOf hc hp hle
    rw [hblock, ← hone publishData hpub ⟨p, page, hof⟩, chunks_onWire, hof.1]
  have hlen : (chunks c.bytes).length = (chunks wire).length := by
    -- the first page is that of a buffer with as many pages as it says
    obtain ⟨publishData, hpub, page, -, hof⟩ := hinv.isPageOf hc (Nat.le_refl 1) hpages
    obtain ⟨info, first, tail, hfirst, htail, hmatch, hpageCnt⟩ := hinv.published publishData hpub
    have hwire := hone publishData hpub ⟨1, page, hof⟩
    obtain ⟨hpage, tail', htail', hmatch'⟩ := hof
    obtain rfl : first = page := Option.some.inj (hfirst.symm.trans hpage)
    obtain rfl : tail = tail' := Option.some.inj (htail.symm.trans htail')
    rw [hcnt, ← hwire, chunks_onWire, ← hpageCnt, ← hmatch.1, ← hmatch'.1]
  have hchunks : chunks c.bytes = chunks wire := by
    refine List.ext_getElem? fun i => ?_
    by_cases hi : i < (chunks c.bytes).length
    · exact hpage (i + 1) (by omega) (by omega)
    · rw [List.getElem?_eq_none (by omega), List.getElem?_eq_none (by omega)]
  calc c.bytes = (chunks c.bytes).flatten := (flatten_blocks (by decide)).symm
    _ = (chunks wire).flatten := by rw [hchunks]
    _ = wire := flatten_blocks (by decide)

/-- **What an assembly is made of.**  The bytes of a call that returns true are as many
pages as its message has; each of them is that very page of a published buffer, and says
that it belongs to a message with this page count, size and id.  If all published buffers
with such a page have the same bytes on the wire, these are the bytes. -/
theorem assembled_pages {actions : List NetAction} (hrun : ch.machine.run actions = some s)
    {r : ℕ} {c : Receipt} (hc : (r, c) ∈ s.receipts) :
    (chunks c.bytes).length = c.info.pageCnt.toNat ∧
      (∀ p, 1 ≤ p → p ≤ c.info.pageCnt.toNat → ∃ publishData ∈ s.published, ∃ page,
        (chunks c.bytes)[p - 1]? = some page ∧ IsPageOf publishData c.info p page) ∧
      ∀ wire, (∀ publishData ∈ s.published, Carries publishData c.info →
        onWire publishData = wire) → c.bytes = wire := by
  have hinv := inv_of_run hrun
  exact ⟨(hinv.receipts _ hc).pages, fun p => hinv.isPageOf hc, fun wire => hinv.bytes_eq hc⟩

/-! ## A run that mixes two buffers -/

/-- A receiver of messages with id 7. -/
def topicReceiver : Receiver where
  msgId := 7
  receiverId := 1
  wantsPayload := false
  notControl := rfl

/-- A channel as the publisher sets it up: with an ACK endpoint of its own. -/
def topicChannel : UdpChannel where
  senderId := 100
  ackNode := true
  receiver := fun _ => topicReceiver

/-- A serialized message of 1461 equal bytes: two pages, the second with one byte. -/
def twoPages (fill : UInt8) : List UInt8 :=
  writeMessage 7 1461 [List.replicate 1461 fill]

/-- The options of `chunk_send`. -/
def bestEffort : SendOptions :=
  { delivery := .bestEffort, integrity := .none, sendHeartbeat := true }

/-- Two buffers are published; the receiver gets the first page of the one and the second
page of the other. -/
def mixingRun : List NetAction :=
  [.publish (twoPages 1) bestEffort none, .publish (twoPages 2) bestEffort none,
    .call 0, .deliver 0 0 0, .deliver 0 3 0]

/-- The bytes received in several pages are those of no published buffer. -/
def Mixed (s : NetState) : Prop :=
  ∃ rc ∈ s.receipts, 1 < rc.2.info.pageCnt.toNat ∧ ∀ b ∈ s.published, rc.2.bytes ≠ onWire b

instance : DecidablePred Mixed := fun s =>
  inferInstanceAs (Decidable (∃ rc ∈ s.receipts, _))

/-- Not every assembly of several pages has the bytes of a published buffer: the two
buffers of the run have the same page count, size and id. -/
theorem mixed_buffers :
    ¬ ∀ (ch : UdpChannel) (actions : List NetAction) (s : NetState),
      ch.machine.run actions = some s → ¬ Mixed s := by
  intro hall
  have hmixed : (topicChannel.machine.run mixingRun).any (fun s => decide (Mixed s)) = true := by
    decide +kernel
  obtain ⟨s, hrun, hm⟩ := Machine.exists_of_any hmixed
  exact hall _ _ s hrun hm

/-- The options of a reliable send. -/
def reliable (integrity : IntegrityMode) : SendOptions :=
  { delivery := .reliable, integrity := integrity, sendHeartbeat := true }

/-- One reliable message of two pages, received with a page sent twice, and acknowledged. -/
def orderlyRun : List NetAction :=
  [.publish (twoPages 1) (reliable .crc32c) none, .call 0, .deliver 0 0 0, .deliver 0 2 0,
    .deliver 0 2 0, .deliver 0 1 0, .collect 0, .roundEnd [] none]

/-- The run delivers its message. -/
theorem assembled_pages_orderlyRun :
    ∃ s c, topicChannel.machine.run orderlyRun = some s ∧ (0, c) ∈ s.receipts ∧
      (chunks c.bytes).length = c.info.pageCnt.toNat ∧
      (∀ p, 1 ≤ p → p ≤ c.info.pageCnt.toNat → ∃ publishData ∈ s.published, ∃ page,
        (chunks c.bytes)[p - 1]? = some page ∧ IsPageOf publishData c.info p page) ∧
      ∀ wire, (∀ publishData ∈ s.published, Carries publishData c.info →
        onWire publishData = wire) → c.bytes = wire := by
  have hone : ((topicChannel.machine.run orderlyRun).map fun s => s.receipts.map Prod.fst)
      = some [0] := by
    decide +kernel
  obtain ⟨s, hrun, hreceipts⟩ := Option.map_eq_some_iff.mp hone
  obtain ⟨⟨r, c⟩, hmem, rfl⟩ := List.mem_map.mp (hreceipts ▸ List.mem_singleton_self 0)
  exact ⟨s, c, hrun, hmem, assembled_pages hrun hmem⟩

/-! ## What an acknowledgment is worth -/

/-- **Receipts and reports.**  A receiver returns true for bytes that contain a page at most
as often as a copy of this page was delivered to it.  If acknowledgments have an endpoint of
their own, or no buffer uses a reserved id, a reported delivery comes with a receipt for the
message's page count, size, id and sequence; under CRC-32C its checksum is the message's,
and if no other on-wire content carries these values, its bytes are the message's. -/
theorem delivered_of_acked {actions : List NetAction}
    (hrun : ch.machine.run actions = some s) :
    (∀ r page, receiptsWith s r page ≤ copies s r page) ∧
      (ch.ackNode = true ∨ NoControlIds s → ∀ ret ∈ s.returned,
        ret.report.status = .deliveredAcked → ∃ info, ret.info = some info ∧
          Announces ret.publishData info ∧ ∃ rc ∈ s.receipts, rc.2.info = info ∧
            (∀ p, 1 ≤ p → p ≤ info.pageCnt.toNat → ∃ publishData ∈ s.published, ∃ page,
              (chunks rc.2.bytes)[p - 1]? = some page ∧ IsPageOf publishData info p page) ∧
            (ret.options.integrity = .crc32c →
              crc32c rc.2.bytes = crc32c (onWire ret.publishData)) ∧
            ((∀ publishData ∈ s.published, Carries publishData info →
              onWire publishData = onWire ret.publishData) →
                rc.2.bytes = onWire ret.publishData)) := by
  have hinv := inv_of_run hrun
  refine ⟨fun r page => (hinv.counted r page).1, fun hch ret hret hstatus => ?_⟩
  obtain ⟨info, crc, hinfo, hann, ⟨rc, hrc, rfl, rfl⟩, hcrc⟩ := hinv.returned hch ret hret hstatus
  exact ⟨rc.2.info, hinfo, hann, rc, hrc, rfl, fun p => hinv.isPageOf hrc, hcrc, hinv.bytes_eq hrc⟩

/-- A run whose message is reported as delivered. -/
theorem delivered_of_acked_orderlyRun :
    ∃ s, topicChannel.machine.run orderlyRun = some s ∧
      (∃ ret ∈ s.returned, ret.report.status = .deliveredAcked) ∧
      (∀ r page, receiptsWith s r page ≤ copies s r page) ∧
      (topicChannel.ackNode = true ∨ NoControlIds s → ∀ ret ∈ s.returned,
        ret.report.status = .deliveredAcked → ∃ info, ret.info = some info ∧
          Announces ret.publishData info ∧ ∃ rc ∈ s.receipts, rc.2.info = info ∧
            (∀ p, 1 ≤ p → p ≤ info.pageCnt.toNat → ∃ publishData ∈ s.published, ∃ page,
              (chunks rc.2.bytes)[p - 1]? = some page ∧ IsPageOf publishData info p page) ∧
            (ret.options.integrity = .crc32c →
              crc32c rc.2.bytes = crc32c (onWire ret.publishData)) ∧
            ((∀ publishData ∈ s.published, Carries publishData info →
              onWire publishData = onWire ret.publishData) →
                rc.2.bytes = onWire ret.publishData)) := by
  have hstatus : ((topicChannel.machine.run orderlyRun).map fun s =>
      s.returned.map fun ret => ret.report.status) = some [.deliveredAcked] := by
    decide +kernel
  obtain ⟨s, hrun, hreturned⟩ := Option.map_eq_some_iff.mp hstatus
  obtain ⟨ret, hmem, hret⟩ := List.mem_map.mp (hreturned ▸ List.mem_singleton_self _)
  exact ⟨s, hrun, ⟨ret, hmem, hret⟩, delivered_of_acked hrun⟩

/-- A receiver has returned true more often for some on-wire bytes than they were
published. -/
def NotOnce (s : NetState) : Prop :=
  ∃ rc ∈ s.receipts, (s.published.filter fun b => onWire b = rc.2.bytes).length
    < (s.receipts.filter fun rc' => rc'.1 = rc.1 ∧ rc'.2.bytes = rc.2.bytes).length

/-- A delivery is reported of a message whose on-wire bytes no receiver has. -/
def NotTrue (s : NetState) : Prop :=
  ∃ ret ∈ s.returned, ret.report.status = .deliveredAcked ∧
    ∀ rc ∈ s.receipts, rc.2.bytes ≠ onWire ret.publishData

instance : DecidablePred NotOnce := fun s =>
  inferInstanceAs (Decidable (∃ rc ∈ s.receipts, _))

instance : DecidablePred NotTrue := fun s =>
  inferInstanceAs (Decidable (∃ ret ∈ s.returned, _))

/-- A serialized message of one byte. -/
def onePage (content : UInt8) : List UInt8 :=
  writeMessage 7 1 [[content]]

/-- The network delivers a page twice, to two calls. -/
def twiceRun : List NetAction :=
  [.publish (onePage 1) (reliable .none) none, .call 0, .deliver 0 1 0, .call 0, .deliver 0 1 0]

/-- The heartbeat of the second message overtakes the page of the first. -/
def overtakingRun : List NetAction :=
  [.publish (onePage 1) (reliable .none) none, .timeOut,
    .publish (onePage 2) (reliable .none) none, .call 0, .deliver 0 3 0, .deliver 0 1 0,
    .collect 0, .roundEnd [] none]

/-- Every send of the run is reliable. -/
def AllReliable (actions : List NetAction) : Prop :=
  ∀ a ∈ actions, ∀ b o f, a = .publish b o f → o.delivery = .reliable

/-- Neither half of the statement holds of every run of reliable sends: a page delivered
twice is received twice, and the acknowledgment of one message is taken for another's. -/
theorem not_once_and_not_true :
    (¬ ∀ (ch : UdpChannel) (actions : List NetAction) (s : NetState), AllReliable actions →
      ch.machine.run actions = some s → ¬ NotOnce s) ∧
    ¬ ∀ (ch : UdpChannel) (actions : List NetAction) (s : NetState), AllReliable actions →
      ch.machine.run actions = some s → ¬ NotTrue s := by
  constructor
  · intro hall
    have hbad : (topicChannel.machine.run twiceRun).any (fun s => decide (NotOnce s)) = true := by
      decide +kernel
    have hreliable : AllReliable twiceRun := by
      intro a ha b o f heq
      simp only [twiceRun, List.mem_cons, List.not_mem_nil, or_false] at ha
      rcases ha with rfl | rfl | rfl | rfl | rfl <;> cases heq
      rfl
    obtain ⟨s, hrun, hs⟩ := Machine.exists_of_any hbad
    exact hall _ _ s hreliable hrun hs
  · intro hall
    have hbad : (topicChannel.machine.run overtakingRun).any (fun s => decide (NotTrue s))
        = true := by
      decide +kernel
    have hreliable : AllReliable overtakingRun := by
      intro a ha b o f heq
      simp only [overtakingRun, List.mem_cons, List.not_mem_nil, or_false] at ha
      rcases ha with rfl | rfl | rfl | rfl | rfl | rfl | rfl | rfl <;> cases heq <;> rfl
    obtain ⟨s, hrun, hs⟩ := Machine.exists_of_any hbad
    exact hall _ _ s hreliable hrun hs

end DzIpc.Udp
