import DzIpc.Library.Machine
import DzIpc.Udp.SerializedPages

/-!
# The passive receiver

`chunk_rev_sniff` puts messages together from what it hears: it sends nothing, asks for no page
again and takes messages of any class.  It begins with a first page, begins anew where another
message's first page comes, and gives up where another message's later page comes.

* `sniff_of_page` and its siblings: what a call does with a page of a message, by what it is at.
* `machine`: a sender, a channel that keeps the order of the pages and may lose any of them, and
  the calls of `socket_sniffer::recv_inner`, one after another.
-/

namespace DzIpc.Udp

open Wire Blocks

/-! ## One call -/

/-- `tentative`. -/
def TailMsg.tentative (tail : TailMsg) : ChunkMeta where
  pageCnt := tail.pageCnt
  totalSize := tail.totalSize
  msgId := tail.msgId
  sequence := 0

/-- Where a call stands: `have_meta` is false, or an assembly is under way. -/
inductive SniffPhase where
  | waiting
  | assembling (asm : Assembly)
  deriving DecidableEq, Repr

/-- The call goes on, or returns a buffer. -/
inductive Sniffed where
  | goOn (phase : SniffPhase)
  | returned (bytes : List UInt8)
  deriving DecidableEq, Repr

/-- The checks on a page before the call looks at what it is assembling. -/
def sniffTail (page : List UInt8) : Option TailMsg :=
  match parseTail page with
  | none => none
  | some tail =>
      if ¬ validChunkMeta tail then none
      else if isRtpsControlFrame tail.msgId then none
      else if tail.nowPage = 0 ∨ tail.nowPage > tail.pageCnt then none
      else if page.length ≠ expectedPageSize tail.tentative tail.nowPage then none
      else some tail

/-- The assembly has every page. -/
def Assembly.isFull (a : Assembly) : Bool := decide (a.info.pageCnt.toNat ≤ a.receivedCnt)

/-- `place_page`, and the check after it. -/
def placeSniffed (page : List UInt8) (a : Assembly) : Sniffed :=
  let asm := (placePage page a).getD a
  if asm.isFull then .returned asm.assembled else .goOn (.assembling asm)

/-- What `chunk_rev_sniff` does with a first page: a message of one page is returned,
otherwise `begin_assembly`. -/
def beginSniff (info : ChunkMeta) (page : List UInt8) : Sniffed :=
  if info.pageCnt = 1 then
    if page.length ≠ info.totalSize.toNat then .goOn .waiting else .returned page
  else placeSniffed page (.start info)

/-- `chunk_rev_sniff` receives a datagram.  An empty one ends the call as a time-out does. -/
def sniff (phase : SniffPhase) (page : List UInt8) : Sniffed :=
  if page = [] then .returned []
  else
    match sniffTail page with
    | none => .goOn phase
    | some tail =>
        match phase with
        | .waiting =>
            if tail.nowPage ≠ 1 then .goOn .waiting else beginSniff tail.tentative page
        | .assembling asm =>
            if tail.Matches asm.info then placeSniffed page asm
            -- the sender has moved on
            else if tail.nowPage = 1 then beginSniff tail.tentative page
            else .returned []

/-! ## What it does with the pages of a message -/

/-- The page of a serialized message passes the checks. -/
theorem sniffTail_of_page {m : Serialized} {i : ℕ} {page : List UInt8}
    (hpage : (wirePages m.publishData)[i]? = some page) :
    ∃ tail, sniffTail page = some tail ∧ tail.Matches m.info ∧ tail.tentative = m.info ∧
      tail.nowPage.toNat = i + 1 := by
  obtain ⟨tail, htail, hmatch, hnow, hpos, hle, hlen⟩ := Serialized.isPage hpage
  obtain ⟨hcnt, hsize, hid⟩ := hmatch
  have hinfo : tail.tentative = m.info := by
    simp only [TailMsg.tentative, hcnt, hsize, hid]
    rfl
  have hrange : ¬ (tail.nowPage = 0 ∨ tail.nowPage > tail.pageCnt) := by
    rw [hcnt]
    rintro (hzero | hlarge)
    · rw [hzero] at hnow
      cases hnow
    · have hlt := UInt16.lt_iff_toNat_lt.mp hlarge
      omega
  have hcontrol : isRtpsControlFrame tail.msgId = false := by
    rw [hid]
    exact m.notControl
  have hvalid := Serialized.validChunkMeta_of_matches (m := m) ⟨hcnt, hsize, hid⟩
  refine ⟨tail, ?_, ⟨hcnt, hsize, hid⟩, hinfo, hnow⟩
  unfold sniffTail
  rw [htail]
  dsimp only
  rw [if_neg (not_not.mpr hvalid), hcontrol, if_neg (by decide), if_neg hrange, hinfo,
    if_neg (not_not.mpr hlen)]

/-- A control frame is not looked at. -/
theorem sniffTail_writeFrame {msgId : UInt32} {pieces : List (List UInt8)}
    (hcontrol : isRtpsControlFrame msgId = true) (hsmall : pieces.flatten.length < ipcMsgMaxSize) :
    sniffTail (writeFrame msgId pieces) = none := by
  have hlong : tailMsgSize ≤
      (tailBytes (correctTotalSize pieces.flatten.length) msgId.toNat 1).length := Nat.le_refl _
  have htail := parseTail_append pieces.flatten hlong
  rw [← writeFrame_eq msgId hsmall, parseTail_tailBytes, beNat_be32_of_lt msgId.toNat_lt,
    UInt32.ofNat_toNat] at htail
  unfold sniffTail
  rw [htail]
  dsimp only
  rw [if_pos hcontrol]
  exact ite_self none

theorem ne_nil_of_page {m : Serialized} {i : ℕ} {page : List UInt8}
    (hpage : (wirePages m.publishData)[i]? = some page) : page ≠ [] := by
  rintro rfl
  have hlong := Serialized.tailMsgSize_le hpage
  cases hlong

/-- Without an assembly, a later page is passed over. -/
theorem sniff_waiting_later {m : Serialized} {i : ℕ} {page : List UInt8}
    (hpage : (wirePages m.publishData)[i]? = some page) (hi : i ≠ 0) :
    sniff .waiting page = .goOn .waiting := by
  obtain ⟨tail, htail, -, -, hnow⟩ := sniffTail_of_page hpage
  have hne : tail.nowPage ≠ 1 := by
    intro hone
    rw [hone] at hnow
    exact hi (Nat.add_right_cancel (m := 1) hnow.symm)
  rw [sniff, if_neg (ne_nil_of_page hpage), htail]
  exact if_pos hne

theorem nowPage_one {tail : TailMsg} (hnow : tail.nowPage.toNat = 0 + 1) : tail.nowPage = 1 :=
  UInt16.toNat_inj.mp hnow

/-- Without an assembly, a first page begins one. -/
theorem sniff_waiting_first {m : Serialized} {page : List UInt8}
    (hpage : (wirePages m.publishData)[0]? = some page) :
    sniff .waiting page = beginSniff m.info page := by
  obtain ⟨tail, htail, -, hinfo, hnow⟩ := sniffTail_of_page hpage
  rw [sniff, if_neg (ne_nil_of_page hpage), htail]
  dsimp only
  rw [if_neg (not_not.mpr (nowPage_one hnow)), hinfo]

/-- A page that names the message being assembled is put into its place. -/
theorem sniff_same {m : Serialized} {i : ℕ} {page : List UInt8} {a : Assembly}
    (hpage : (wirePages m.publishData)[i]? = some page) (hsame : m.info = a.info) :
    sniff (.assembling a) page = placeSniffed page a := by
  obtain ⟨tail, htail, hmatch, -, -⟩ := sniffTail_of_page hpage
  rw [sniff, if_neg (ne_nil_of_page hpage), htail]
  exact if_pos (hsame ▸ hmatch)

theorem not_matches {m : Serialized} {tail : TailMsg} {a : Assembly} (hinfo : tail.tentative = m.info)
    (hzero : a.info.sequence = 0) (hother : m.info ≠ a.info) : ¬ tail.Matches a.info := by
  rintro ⟨hcnt, hsize, hid⟩
  apply hother
  rw [← hinfo, TailMsg.tentative, hcnt, hsize, hid, ← hzero]

/-- The first page of a message of another shape begins anew. -/
theorem sniff_other_first {m : Serialized} {page : List UInt8} {a : Assembly}
    (hpage : (wirePages m.publishData)[0]? = some page) (hzero : a.info.sequence = 0)
    (hother : m.info ≠ a.info) : sniff (.assembling a) page = beginSniff m.info page := by
  obtain ⟨tail, htail, -, hinfo, hnow⟩ := sniffTail_of_page hpage
  rw [sniff, if_neg (ne_nil_of_page hpage), htail]
  dsimp only
  rw [if_neg (not_matches hinfo hzero hother), if_pos (nowPage_one hnow), hinfo]

/-- A later page of a message of another shape ends the call. -/
theorem sniff_other_later {m : Serialized} {i : ℕ} {page : List UInt8} {a : Assembly}
    (hpage : (wirePages m.publishData)[i]? = some page) (hi : i ≠ 0) (hzero : a.info.sequence = 0)
    (hother : m.info ≠ a.info) : sniff (.assembling a) page = .returned [] := by
  obtain ⟨tail, htail, -, hinfo, hnow⟩ := sniffTail_of_page hpage
  have hne : tail.nowPage ≠ 1 := by
    intro hone
    rw [hone] at hnow
    exact hi (Nat.add_right_cancel (m := 1) hnow.symm)
  rw [sniff, if_neg (ne_nil_of_page hpage), htail]
  dsimp only
  rw [if_neg (not_matches hinfo hzero hother), if_neg hne]

/-- A control frame changes nothing. -/
theorem sniff_writeFrame (phase : SniffPhase) {msgId : UInt32} {pieces : List (List UInt8)}
    (hcontrol : isRtpsControlFrame msgId = true) (hsmall : pieces.flatten.length < ipcMsgMaxSize) :
    sniff phase (writeFrame msgId pieces) = .goOn phase := by
  have hne : writeFrame msgId pieces ≠ [] := by
    intro hnil
    have hlen := length_writeFrame msgId hsmall
    rw [hnil] at hlen
    cases hlen
  rw [sniff, if_neg hne, sniffTail_writeFrame hcontrol hsmall]

/-! ## The channel -/

/-- A page on its way: its message and its place in it, which only an observer knows, and its
bytes. -/
structure Packet where
  message : ℕ
  page : ℕ
  bytes : List UInt8
  deriving DecidableEq

/-- The pages of message `k`. -/
def packets (k : ℕ) (m : Serialized) : List Packet :=
  (wirePages m.publishData).mapIdx fun i bytes => ⟨k, i, bytes⟩

/-- A buffer that `recv_inner` passed on, and the message whose first page began it. -/
structure Shown where
  first : ℕ
  bytes : List UInt8
  deriving DecidableEq

/-- The messages sent, the pages on the way, the pages that have left it and whether they reached
the sniffer, the call and the message that began what it assembles, and what was passed on. -/
structure SniffState where
  sent : List Serialized
  inFlight : List Packet
  past : List (Packet × Bool)
  phase : SniffPhase
  first : ℕ
  shown : List Shown

inductive SniffAction where
  /-- The sender sends a message. -/
  | publish (m : Serialized)
  /-- The next page reaches the sniffer. -/
  | deliver
  /-- The next page is lost, on the way or in the sniffer's full socket buffer. -/
  | lose
  /-- A control frame reaches the sniffer. -/
  | control (msgId : UInt32) (pieces : List (List UInt8))
  /-- The time of the call, or of its assembly, is up. -/
  | lapse
  deriving DecidableEq

namespace SniffState

def init : SniffState where
  sent := []
  inFlight := []
  past := []
  phase := .waiting
  first := 0
  shown := []

/-- The message that began what the call is at, once it has this page. -/
def began (s : SniffState) (q : Packet) : ℕ :=
  match s.phase, sniffTail q.bytes with
  | .assembling asm, some tail => if tail.Matches asm.info then s.first else q.message
  | _, _ => q.message

/-- The call goes on; or it returns, `recv_inner` checks the id, and the next call begins. -/
def sniffed (s : SniffState) (msgId : UInt32) (first : ℕ) : Sniffed → SniffState
  | .goOn phase => { s with phase := phase, first := first }
  | .returned bytes =>
      { s with
        phase := .waiting
        first := first
        shown := if checkId bytes msgId then s.shown ++ [⟨first, bytes⟩] else s.shown }

/-- The page has left the way. -/
def pass (s : SniffState) (q : Packet) (rest : List Packet) (delivered : Bool) : SniffState :=
  { s with inFlight := rest, past := s.past ++ [(q, delivered)] }

end SniffState

/-- Page `i` of message `k` is among the pages that reached the sniffer. -/
def Reached (past : List (Packet × Bool)) (k i : ℕ) : Prop :=
  ∃ bytes, (⟨k, i, bytes⟩, true) ∈ past

/-- One event at a sniffer for messages with this id. -/
def sniffStep (msgId : UInt32) (s : SniffState) : SniffAction → Option SniffState
  | .publish m =>
      some { s with
        sent := s.sent ++ [m]
        inFlight := s.inFlight ++ packets s.sent.length m }
  | .deliver =>
      match s.inFlight with
      | [] => none
      | q :: rest =>
          some ((s.pass q rest true).sniffed msgId (s.began q) (sniff s.phase q.bytes))
  | .lose =>
      match s.inFlight with
      | [] => none
      | q :: rest => some (s.pass q rest false)
  | .control frameId pieces =>
      if isRtpsControlFrame frameId = true ∧ pieces.flatten.length < ipcMsgMaxSize then
        some (s.sniffed msgId s.first (sniff s.phase (writeFrame frameId pieces)))
      else none
  | .lapse => some { s with phase := .waiting }

def sniffMachine (msgId : UInt32) : Machine SniffState SniffAction where
  init := .init
  step := sniffStep msgId

end DzIpc.Udp
