import DzIpc.Udp.NackFrames
import DzIpc.Udp.Receiver
import Mathlib.Data.List.Sort

/-!
# Which NACK a receiver sends

At the end of a round the receiver sends one NACK, as a list or as a window, whichever reports more
of the missing pages.

* `collect_list` and `collect_window`: what a sender that waits makes of either, whatever its message
  objects held before.
* `nack_reports_missing`: only missing pages are reported, as many as the better encoding can, in a
  frame that fits one datagram.
-/

namespace DzIpc.Udp

open Wire

namespace Assembly

theorem mem_missing {a : Assembly} {p : ℕ} :
    p ∈ a.missing ↔ 1 ≤ p ∧ p ≤ a.info.pageCnt.toNat ∧ a.received[p]? = some false := by
  unfold missing
  rw [List.mem_filter, List.mem_map]
  simp only [List.mem_range, decide_eq_true_eq, ← and_assoc]
  refine and_congr_left fun _ => ?_
  constructor
  · rintro ⟨i, hi, rfl⟩
    exact ⟨Nat.succ_le_succ (Nat.zero_le i), hi⟩
  · rintro ⟨hpos, hle⟩
    exact ⟨p - 1, by omega, Nat.sub_add_cancel hpos⟩

theorem missing_sorted (a : Assembly) : a.missing.SortedLT := by
  unfold missing
  apply List.Pairwise.sortedLT
  apply List.Pairwise.filter
  rw [List.pairwise_map]
  exact List.pairwise_lt_range.imp fun h => Nat.succ_lt_succ h

theorem missing_range (a : Assembly) : ∀ p ∈ a.missing, 1 ≤ p ∧ p ≤ a.info.pageCnt.toNat :=
  fun _ hp => ⟨(mem_missing.mp hp).1, (mem_missing.mp hp).2.1⟩

end Assembly

/-- The first and the last of ascending numbers bound the others. -/
theorem bounds_of_sorted {l : List ℕ} (hsorted : l.SortedLT) {first last : ℕ}
    (hfirst : l.head? = some first) (hlast : l.getLast? = some last) :
    ∀ p ∈ l, first ≤ p ∧ p ≤ last := by
  intro p hp
  constructor
  · obtain ⟨rest, rfl⟩ := List.head?_eq_some_iff.mp hfirst
    rcases List.mem_cons.mp hp with rfl | hrest
    · exact Nat.le_refl _
    · exact Nat.le_of_lt ((List.pairwise_cons.mp hsorted.pairwise).1 p hrest)
  · obtain ⟨init, rfl⟩ := List.getLast?_eq_some_iff.mp hlast
    rcases List.mem_append.mp hp with hinit | hself
    · exact Nat.le_of_lt ((List.pairwise_append.mp hsorted.pairwise).2.2 p hinit last
        (List.mem_singleton_self last))
    · exact Nat.le_of_eq (List.mem_singleton.mp hself)

/-! ## What the sender makes of a NACK -/

/-- The pages that a list reports. -/
def listed (missing : List ℕ) : List ℕ :=
  missing.take RtpsNackMsg.maxMissingPages

/-- The missing pages that a window from `first` on can report. -/
def windowed (missing : List ℕ) (first : ℕ) : List ℕ :=
  missing.filter fun p => p < first + RtpsNackBitmapMsg.maxBitmapBits

/-- A sender waits for the receivers of the message that is being assembled. -/
structure Awaits (snd : Sending) (info : ChunkMeta) : Prop where
  same : snd.info = info
  pages : snd.pages.length = info.pageCnt.toNat
  waiting : snd.matchedAck = none

variable {snd : Sending} {rcv : Receiver} {a : Assembly}

theorem Awaits.not_isSome {info : ChunkMeta} (h : Awaits snd info) :
    ¬ snd.matchedAck.isSome = true := by
  rw [h.waiting]
  decide

theorem isFor_nackHead (info : ChunkMeta) : (nackHead rcv info).isFor info = true := by
  simp [NackHead.isFor, nackHead]

/-- An explicit NACK adds the pages of its list. -/
theorem collect_list (h : Awaits snd a.info) (knownPeers : List UInt32) :
    collect knownPeers snd (RtpsNackMsg.listOf (nackHead rcv a.info) (listed a.missing)).serialize
      = some (recordPeer knownPeers rcv.receiverId,
          snd.noteNack knownPeers (nackHead rcv a.info) (listed a.missing)) := by
  have hfits : (RtpsNackMsg.listOf (nackHead rcv a.info) (listed a.missing)).missingPages.length
      ≤ RtpsNackMsg.maxMissingPages := by
    rw [RtpsNackMsg.listOf, List.length_map]
    exact List.length_take_le _ _
  have hpages : (RtpsNackMsg.listOf (nackHead rcv a.info) (listed a.missing)).pages
      a.info.pageCnt.toNat = listed a.missing :=
    RtpsNackMsg.pages_listOf _ a.info.pageCnt.toNat_lt
      fun p hp => a.missing_range p (List.mem_of_mem_take hp)
  have hhead : (RtpsNackMsg.listOf (nackHead rcv a.info) (listed a.missing)).head
      = nackHead rcv a.info := rfl
  have hfor : (nackHead rcv a.info).isFor snd.info = true := by
    rw [h.same]
    exact isFor_nackHead _
  rw [collect, if_neg h.not_isSome]
  simp only [RtpsNackMsg.checkId_serialize]
  rw [if_neg (by decide), if_neg (by decide), if_pos (by decide),
    RtpsNackMsg.deserialize_serialize _ hfits]
  dsimp only
  rw [hhead, if_pos hfor, h.pages, hpages]
  rfl

/-- A bitmap NACK adds the missing pages in its window. -/
theorem collect_window (h : Awaits snd a.info) (knownPeers : List UInt32) (base : UInt16)
    (bits : ℕ) :
    collect knownPeers snd
        (RtpsNackBitmapMsg.windowOf (nackHead rcv a.info) base bits a.missing).serialize
      = some (recordPeer knownPeers rcv.receiverId,
          { snd with nbMsg := (RtpsNackBitmapMsg.windowOf (nackHead rcv a.info) base bits
              a.missing).received }.noteNack knownPeers (nackHead rcv a.info)
            ((RtpsNackBitmapMsg.windowOf (nackHead rcv a.info) base bits a.missing).received.pages
              a.info.pageCnt.toNat)) := by
  obtain ⟨hhead, -, hbits, hcovered⟩ :=
    RtpsNackBitmapMsg.windowOf_frame (nackHead rcv a.info) base bits a.missing
  have hfits : (RtpsNackBitmapMsg.windowOf (nackHead rcv a.info) base bits a.missing).bitCnt
      ≤ RtpsNackBitmapMsg.maxBitmapBits := hbits.trans_le (Nat.min_le_right _ _)
  set nb := (RtpsNackBitmapMsg.windowOf (nackHead rcv a.info) base bits a.missing).received with hnb
  have hreceived : nb.head = nackHead rcv a.info := hhead
  have hfor : nb.head.isFor snd.info = true := by
    rw [hreceived, h.same]
    exact isFor_nackHead _
  rw [collect, if_neg h.not_isSome]
  simp only [RtpsNackBitmapMsg.checkId_serialize]
  rw [if_neg (by decide), if_neg (by decide), if_neg (by decide), if_pos (by decide),
    RtpsNackBitmapMsg.deserialize_serialize _ hcovered hfits]
  dsimp only
  rw [← hnb, if_pos hfor, hreceived, ← h.pages]
  rfl

/-! ## The choice -/

section Choice

variable {first last : ℕ} (hfirst : a.missing.head? = some first)
  (hlast : a.missing.getLast? = some last)

include hfirst hlast

theorem bounds_missing : ∀ p ∈ a.missing, first ≤ p ∧ p ≤ last :=
  bounds_of_sorted a.missing_sorted hfirst hlast

/-- The window that is opened over all missing pages reports those that any window can. -/
theorem windowed_eq :
    a.missing.filter (fun p => decide (first ≤ p ∧ p < first
      + min (last - first + 1) RtpsNackBitmapMsg.maxBitmapBits)) = windowed a.missing first := by
  apply List.filter_congr
  intro p hp
  obtain ⟨hle, hend⟩ := bounds_missing hfirst hlast p hp
  apply decide_eq_decide.mpr
  omega

/-- What the choice takes for the cover of a window is what the window reports. -/
theorem bitmapCover_eq :
    (if last - first + 1 > RtpsNackBitmapMsg.maxBitmapBits then
      (a.missing.filter fun p => p < first
        + min (last - first + 1) RtpsNackBitmapMsg.maxBitmapBits).length
    else a.missing.length) = (windowed a.missing first).length := by
  split_ifs with hwide
  · rw [Nat.min_eq_right hwide.le]
    rfl
  · rw [windowed, List.filter_eq_self.mpr]
    intro p hp
    obtain ⟨hle, hend⟩ := bounds_missing hfirst hlast p hp
    exact decide_eq_true (by omega)

theorem useBitmap_iff :
    useBitmap a.missing first last = true ↔
      (listed a.missing).length < (windowed a.missing first).length ∨
        (windowed a.missing first).length = (listed a.missing).length ∧
          (min (last - first + 1) RtpsNackBitmapMsg.maxBitmapBits + 7) / 8
            < (listed a.missing).length * 2 := by
  have hlisted : min a.missing.length RtpsNackMsg.maxMissingPages = (listed a.missing).length := by
    rw [listed, List.length_take, Nat.min_comm]
  unfold useBitmap
  dsimp only
  rw [bitmapCover_eq hfirst hlast, hlisted]
  simp only [Bool.or_eq_true, Bool.and_eq_true, decide_eq_true_eq, gt_iff_lt]

/-- The window reports as many pages as the choice said. -/
theorem perm_windowed (head : NackHead) :
    ((RtpsNackBitmapMsg.windowOf head (.ofNat first) (last - first + 1) a.missing).received.pages
      a.info.pageCnt.toNat).Perm (windowed a.missing first) := by
  have hbase : (UInt16.ofNat first).toNat = first :=
    RtpsNackMsg.toNat_ofNat_page a.info.pageCnt.toNat_lt
      (a.missing_range first (List.mem_of_mem_head? hfirst)).2
  have hperm := RtpsNackBitmapMsg.perm_pages_received head (.ofNat first) (last - first + 1)
    a.missing_sorted.nodup a.missing_range
  rw [hbase, windowed_eq hfirst hlast] at hperm
  exact hperm

end Choice

theorem IsNack.length_le {frame : List UInt8} (h : IsNack frame) : frame.length ≤ udpMaxSize := by
  obtain ⟨msgId, pieces, -, hsmall, rfl⟩ := h
  rw [length_writeFrame msgId hsmall]
  simp only [ipcMsgMaxSize, udpMaxSize] at hsmall ⊢
  omega

/-- The frame, and the pages that a waiting sender takes from it. -/
structure Reports (knownPeers : List UInt32) (snd : Sending) (frame : List UInt8)
    (added : List ℕ) : Prop where
  fits : frame.length ≤ udpMaxSize
  nodup : added.Nodup
  collect : ∃ knownPeers' snd', collect knownPeers snd frame = some (knownPeers', snd') ∧
    snd'.gotNack = true ∧ snd'.missingUnion = snd.missingUnion ∪ added

theorem reports_list (rcv : Receiver) (h : Awaits snd a.info) (knownPeers : List UInt32)
    (hmissing : a.missing ≠ []) :
    ∃ frame, sendNackForMissing rcv a = [frame] ∧
      Reports knownPeers snd frame (listed a.missing) := by
  have hlisted : listed a.missing ≠ [] := by
    rw [listed, Ne, List.take_eq_nil_iff]
    exact fun h => h.elim (by decide) hmissing
  have hsent : sendNackForMissing rcv a
      = [(RtpsNackMsg.listOf (nackHead rcv a.info) (listed a.missing)).serialize] :=
    if_neg hlisted
  have hnack : IsNack _ :=
    isNack_of_mem_sendNackForMissing (hsent ▸ List.mem_singleton_self _)
  exact ⟨_, hsent,
    { fits := hnack.length_le
      nodup := a.missing_sorted.nodup.sublist (List.take_sublist _ _)
      collect := ⟨_, _, collect_list h knownPeers, rfl, rfl⟩ }⟩

theorem reports_window (rcv : Receiver) (h : Awaits snd a.info) (knownPeers : List UInt32)
    (first last : ℕ) :
    ∃ frame, sendNackBitmapForMissing rcv a first last = [frame] ∧
      Reports knownPeers snd frame
        ((RtpsNackBitmapMsg.windowOf (nackHead rcv a.info) (.ofNat first) (last - first + 1)
          a.missing).received.pages a.info.pageCnt.toNat) := by
  have hsent : sendNackBitmapForMissing rcv a first last
      = [(RtpsNackBitmapMsg.windowOf (nackHead rcv a.info) (.ofNat first) (last - first + 1)
          a.missing).serialize] := rfl
  have hnack : IsNack _ :=
    isNack_of_mem_sendNackBitmapForMissing (hsent ▸ List.mem_singleton_self _)
  exact ⟨_, hsent,
    { fits := hnack.length_le
      nodup := RtpsNackBitmapMsg.nodup_pages _ _
      collect := ⟨_, _, collect_window h knownPeers _ _, rfl, rfl⟩ }⟩

/-- The NACK of a receiver that misses a page is one frame that fits a datagram.  The sender takes
missing pages from it only, and where both encodings are open, as many as the better of them can
report. -/
theorem nack_reports_missing (rcv : Receiver) (a : Assembly) (peerSupportsBitmap : Bool)
    (knownPeers : List UInt32) (snd : Sending) {first : ℕ} (hfirst : a.missing.head? = some first)
    (h : Awaits snd a.info) :
    ∃ frame added, sendNackAuto rcv a peerSupportsBitmap = [frame] ∧
      Reports knownPeers snd frame added ∧
      (∀ p ∈ added, 1 ≤ p ∧ p ≤ a.info.pageCnt.toNat ∧ a.received[p]? = some false) ∧
      added.length =
        if peerSupportsBitmap then
          max (listed a.missing).length (windowed a.missing first).length
        else (listed a.missing).length := by
  have hne : a.missing ≠ [] := List.ne_nil_of_mem (List.mem_of_mem_head? hfirst)
  have hlast : a.missing.getLast? = some (a.missing.getLast hne) :=
    List.getLast?_eq_some_getLast hne
  obtain ⟨listFrame, hlistSent, hlist⟩ := reports_list rcv h knownPeers hne
  have hlistMem : ∀ p ∈ listed a.missing,
      1 ≤ p ∧ p ≤ a.info.pageCnt.toNat ∧ a.received[p]? = some false :=
    fun p hp => Assembly.mem_missing.mp (List.mem_of_mem_take hp)
  cases peerSupportsBitmap with
  | false => exact ⟨_, _, hlistSent, hlist, hlistMem, rfl⟩
  | true =>
      have hauto : sendNackAuto rcv a true
          = if useBitmap a.missing first (a.missing.getLast hne) then
              sendNackBitmapForMissing rcv a first (a.missing.getLast hne)
            else sendNackForMissing rcv a := by
        rw [sendNackAuto, if_neg (by decide), hfirst, hlast]
      have hchoice := useBitmap_iff hfirst hlast
      rw [hauto, if_pos rfl]
      by_cases huse : useBitmap a.missing first (a.missing.getLast hne) = true
      · obtain ⟨frame, hsent, hreports⟩ :=
          reports_window rcv h knownPeers first (a.missing.getLast hne)
        have hperm := perm_windowed hfirst hlast (nackHead rcv a.info)
        rw [if_pos huse]
        refine ⟨_, _, hsent, hreports, fun p hp => ?_, ?_⟩
        · exact Assembly.mem_missing.mp (List.mem_filter.mp (hperm.mem_iff.mp hp)).1
        · rw [hperm.length_eq]
          rcases hchoice.mp huse with hlt | ⟨heq, -⟩
          · exact (Nat.max_eq_right hlt.le).symm
          · exact (Nat.max_eq_right heq.ge).symm
      · rw [if_neg huse]
        refine ⟨_, _, hlistSent, hlist, hlistMem, ?_⟩
        have hle : (windowed a.missing first).length ≤ (listed a.missing).length := by
          apply Nat.le_of_not_lt
          exact fun hlt => huse (hchoice.mpr (Or.inl hlt))
        exact (Nat.max_eq_left hle).symm

/-- Of two pages the second is missing. -/
theorem nack_reports_missing_second : ∃ (a : Assembly) (snd : Sending) (frame : List UInt8)
    (added : List ℕ), a.missing = [2] ∧ Awaits snd a.info ∧
      sendNackAuto ⟨7, 9, false, by decide⟩ a true = [frame] ∧ Reports [] snd frame added ∧
      added.length = 1 := by
  let info : ChunkMeta := { pageCnt := 2, totalSize := 1500, msgId := 7, sequence := 1 }
  let a : Assembly :=
    { info := info, assembled := [], received := [false, true, false], receivedCnt := 1 }
  let snd : Sending :=
    { publishData := List.replicate 1500 0
      info := info
      options := { delivery := .reliable, integrity := .none, sendHeartbeat := true }
      crc32c := 0
      ackMsg := default
      ack2Msg := default
      nbMsg := default
      round := 0
      hbRepeat := 0
      matchedAck := none
      gotNack := false
      nackFromUnknownPeer := false
      missingUnion := []
      lastRetransmitRound := [] }
  have hawaits : Awaits snd a.info :=
    { same := rfl
      pages := by
        rw [Sending.pages, length_wirePages, chunks, Blocks.length_blocks, List.length_replicate]
        rfl
      waiting := rfl }
  have hmissing : a.missing = [2] := by decide
  obtain ⟨frame, added, hsent, hreports, -, hlen⟩ :=
    nack_reports_missing ⟨7, 9, false, by decide⟩ a true [] snd
      (hmissing ▸ rfl : a.missing.head? = some 2) hawaits
  refine ⟨a, snd, frame, added, hmissing, hawaits, hsent, hreports, ?_⟩
  rw [hlen, hmissing]
  decide

end DzIpc.Udp
