import DzIpc.Udp.SniffStream
import Mathlib.Data.List.Pairwise

/-!
# Runs in which the passive receiver misses nothing

A call takes a page of another message for one of its own if both have the same shape.  As long
as this does not happen and no call's time is up in the middle of a message, every message of
which all pages come is shown, whole, once, and in the order sent; no other is.

* `Orderly`: the assembly under way has pages of one message; a message whose first page came and
  whose others may still come is the one under way.
* `Turn` and `turn`: what a page does in such a run.
* `sniffed_all`: the messages shown.
-/

namespace DzIpc.Udp

open Wire Blocks

/-- A page of message `k` is not taken into the assembly of another message. -/
def SniffPhase.Spares (phase : SniffPhase) (first k : ℕ) (info : ChunkMeta) : Prop :=
  match phase with
  | .waiting => True
  | .assembling a => info = a.info → k = first

/-- The step is no page that is taken into the assembly of another message, and no end of a call
that assembles. -/
def Undisturbed (s : SniffState) : SniffAction → Prop
  | .deliver =>
      ∀ q ∈ s.inFlight.head?, ∀ m ∈ s.sent[q.message]?,
        s.phase.Spares s.first q.message m.info
  | .lapse => s.phase = .waiting
  | _ => True

instance (phase : SniffPhase) (first k : ℕ) (info : ChunkMeta) :
    Decidable (phase.Spares first k info) :=
  match phase with
  | .waiting => isTrue trivial
  | .assembling a => inferInstanceAs (Decidable (info = a.info → k = first))

instance (s : SniffState) : DecidablePred (Undisturbed s)
  | .deliver => inferInstanceAs (Decidable (∀ q ∈ s.inFlight.head?, ∀ m ∈ s.sent[q.message]?, _))
  | .lapse => inferInstanceAs (Decidable (_ = _))
  | .publish _ => isTrue trivial
  | .lose => isTrue trivial
  | .control _ _ => isTrue trivial

/-- Every page of the message came. -/
def AllReached (past : List (Packet × Bool)) (k : ℕ) (m : Serialized) : Prop :=
  ∀ i ≤ m.full, Reached past k i

/-- A page of the message was lost. -/
def SomeLost (past : List (Packet × Bool)) (k : ℕ) : Prop :=
  ∃ i bytes, (⟨k, i, bytes⟩, false) ∈ past

variable {sent : List Serialized} {past : List (Packet × Bool)} {first : ℕ} {q : Packet}
  {m : Serialized}

/-! ## Pages that came and pages that did not -/

theorem Reached.append {k i : ℕ} (h : Reached past k i) (x : Packet × Bool) :
    Reached (past ++ [x]) k i := by
  obtain ⟨bytes, hmem⟩ := h
  exact ⟨bytes, List.mem_append_left _ hmem⟩

theorem reached_self (past : List (Packet × Bool)) (q : Packet) :
    Reached (past ++ [(q, true)]) q.message q.page :=
  ⟨q.bytes, List.mem_append_right _ (List.mem_singleton_self _)⟩

/-- A page that was lost did not come. -/
theorem SomeLost.not_allReached {k : ℕ} (hpast : (past.map Prod.fst).Pairwise Packet.Before)
    (hin : ∀ p ∈ past, p.1.message = k → p.1.page ≤ m.full) (h : SomeLost past k) :
    ¬ AllReached past k m := by
  rintro hall
  obtain ⟨i, bytes, hlost⟩ := h
  obtain ⟨bytes', hcame⟩ := hall i (hin _ hlost rfl)
  have hboth : past.Pairwise fun x y => x.1.Before y.1 ∨ y.1.Before x.1 :=
    (List.pairwise_map.mp hpast).imp Or.inl
  have hne : ((⟨k, i, bytes⟩, false) : Packet × Bool) ≠ (⟨k, i, bytes'⟩, true) := by
    intro heq
    cases heq
  have hsymm : Std.Symm fun x y : Packet × Bool => x.1.Before y.1 ∨ y.1.Before x.1 :=
    ⟨fun _ _ => Or.symm⟩
  rcases hboth.forall hlost hcame hne with hlt | hlt
  · rcases hlt with hlt | ⟨-, hlt⟩ <;> exact Nat.lt_irrefl _ hlt
  · rcases hlt with hlt | ⟨-, hlt⟩ <;> exact Nat.lt_irrefl _ hlt

/-- An assembly is full once all its pages have been received. -/
theorem Assembly.Sound.isFull_of_received {P : List UInt8 → Prop} {a : Assembly} (h : a.Sound P)
    (hall : ∀ i < a.info.pageCnt.toNat, a.received[i + 1]? = some true) : a.isFull = true := by
  have hlen := h.lengthReceived
  obtain ⟨head, rest, hcons⟩ : ∃ head rest, a.received = head :: rest := by
    cases hr : a.received with
    | nil => simp [hr] at hlen
    | cons head rest => exact ⟨head, rest, rfl⟩
  rw [hcons, List.length_cons, Nat.add_right_cancel_iff] at hlen
  have hrest : rest.count true = rest.length := by
    refine List.count_eq_length.mpr fun b hb => ?_
    obtain ⟨i, hi, rfl⟩ := List.mem_iff_getElem.mp hb
    have hget := hall i (hlen ▸ hi)
    rw [hcons, List.getElem?_cons_succ, List.getElem?_eq_getElem hi, Option.some.injEq] at hget
    exact hget.symm
  have hcount : a.info.pageCnt.toNat ≤ a.received.count true := by
    rw [hcons, ← hlen, ← hrest]
    exact List.count_le_count_cons
  exact decide_eq_true (h.count ▸ hcount)

/-- An assembly that has pages of its own message only is full when all of them have come. -/
theorem Gathers.isFull_iff {a : Assembly} (h : Gathers sent past first a)
    (hm : sent[first]? = some m)
    (hown : ∀ i, a.received[i + 1]? = some true → Reached past first i) :
    a.isFull = true ↔ AllReached past first m := by
  obtain ⟨m', hm', hinfo⟩ := h.began
  obtain rfl : m = m' := Option.some.inj (hm.symm.trans hm')
  have hcnt := m.pageCnt_toNat
  rw [hinfo] at hcnt
  constructor
  · intro hfull i hi
    exact hown i (h.sound.received_of_full (of_decide_eq_true hfull) (Nat.le_add_left 1 i) (by omega))
  · intro hall
    refine h.sound.isFull_of_received fun i hi => ?_
    exact h.all first i (Nat.le_refl _) (hall i (by omega))

/-! ## One page -/

/-- What holds between the steps of a run that is not disturbed. -/
structure Orderly (msgId : UInt32) (s : SniffState) : Prop where
  base : SniffInv s
  own : ∀ a, s.phase = .assembling a → ∀ i, a.received[i + 1]? = some true →
    Reached s.past s.first i
  active : ∀ q ∈ s.inFlight, Reached s.past q.message 0 → ¬ SomeLost s.past q.message →
    ∃ a, s.phase = .assembling a ∧ s.first = q.message
  shown_iff : ∀ k, (∃ out ∈ s.shown, out.first = k) ↔
    ∃ m, s.sent[k]? = some m ∧ m.msgId = msgId ∧ AllReached s.past k m
  increasing : (s.shown.map Shown.first).Pairwise (· < ·)

/-- What a call does with a page of message `q.message`: it goes on with this message, returns
it, or passes over it because some of it was lost. -/
inductive Turn (past : List (Packet × Bool)) (q : Packet) (m : Serialized) (began : ℕ) :
    Sniffed → Prop
  | part {a : Assembly} (hfirst : began = q.message) (hopen : ¬ AllReached past q.message m)
      (hown : ∀ i, a.received[i + 1]? = some true → Reached past q.message i) :
      Turn past q m began (.goOn (.assembling a))
  | whole (hfirst : began = q.message) (hall : AllReached past q.message m) :
      Turn past q m began (.returned (onWire m.publishData))
  | passed (hlost : Reached past q.message 0 → SomeLost past q.message) :
      Turn past q m began (.goOn .waiting)
  | gone (hlost : Reached past q.message 0 → SomeLost past q.message) :
      Turn past q m began (.returned [])

/-- A page of the message under way. -/
theorem turn_placed {a : Assembly} (h : Gathers sent past first a)
    (hbefore : ∀ p ∈ past.map Prod.fst, p.Before q) (hm : sent[q.message]? = some m)
    (hpage : (wirePages m.publishData)[q.page]? = some q.bytes) (hinfo : m.info = a.info)
    (hfirst : Reached (past ++ [(q, true)]) first 0) (heq : first = q.message)
    (hown : ∀ i, a.received[i + 1]? = some true → Reached past first i) :
    Turn (past ++ [(q, true)]) q m first (placeSniffed q.bytes a) := by
  have hnext := h.place hbefore hm hpage hinfo hfirst
  have hisPage : IsPage a.info (q.page + 1) q.bytes := hinfo ▸ Serialized.isPage hpage
  -- every page it has now is one that came of this message
  have hown' : ∀ i, ((placePage q.bytes a).getD a).received[i + 1]? = some true →
      Reached (past ++ [(q, true)]) q.message i := by
    intro i hi
    rw [placePage_of_isPage hisPage, Option.getD_some] at hi
    by_cases hat : i = q.page
    · rw [hat]
      exact reached_self past q
    · have hold : a.received[i + 1]? = some true := by
        split at hi
        · exact hi
        · change (a.received.set (q.page + 1) true)[i + 1]? = some true at hi
          rwa [List.getElem?_set_ne (by omega)] at hi
      exact heq ▸ (hown i hold).append (q, true)
  have hfull := hnext.isFull_iff (heq ▸ hm) (heq ▸ hown')
  unfold placeSniffed
  dsimp only
  split
  · rename_i hisFull
    have hall : AllReached (past ++ [(q, true)]) first m := hfull.mp hisFull
    rw [(hnext.gathered hisFull).whole (heq ▸ hm) hall]
    exact .whole heq (heq ▸ hall)
  · rename_i hopen
    exact .part heq (fun hall => hopen (hfull.mpr (heq ▸ hall))) hown'

/-- The first page of a message, where it begins an assembly. -/
theorem turn_began (hbefore : ∀ p ∈ past.map Prod.fst, p.Before q)
    (hm : sent[q.message]? = some m)
    (hpage : (wirePages m.publishData)[q.page]? = some q.bytes) (hq : q.page = 0) :
    Turn (past ++ [(q, true)]) q m q.message (beginSniff m.info q.bytes) := by
  have hreached : Reached (past ++ [(q, true)]) q.message 0 := hq ▸ reached_self past q
  unfold beginSniff
  split
  · rename_i hone
    have hcnt := m.pageCnt_toNat
    rw [hone] at hcnt
    have hfull : m.full = 0 := (Nat.add_right_cancel (m := 1) hcnt).symm
    have hlen : q.bytes.length = m.info.totalSize.toNat := by
      obtain ⟨tail, -, -, hnow, -, -, hsize⟩ := Serialized.isPage hpage
      have hlast : tail.nowPage = m.info.pageCnt := by
        rw [← UInt16.toNat_inj, hnow, hone, hq]
        rfl
      rw [hsize, expectedPageSize, if_pos hlast, hnow, hq]
      exact Nat.sub_zero _
    have hbytes : q.bytes = onWire m.publishData := by
      have hpages := m.length_wirePages
      rw [hfull] at hpages
      obtain ⟨page, hsingle⟩ := List.length_eq_one_iff.mp hpages
      rw [hsingle, hq, List.getElem?_cons_zero, Option.some.injEq] at hpage
      rw [onWire, hsingle, List.flatten_singleton, hpage]
    rw [if_neg (not_not.mpr hlen), hbytes]
    refine .whole rfl fun i hi => ?_
    obtain rfl : i = 0 := by omega
    exact hreached
  · refine turn_placed (gathers_start hbefore hm hq) hbefore hm hpage rfl hreached rfl ?_
    intro i hi
    simp only [Assembly.start, List.getElem?_replicate] at hi
    split at hi <;> cases hi

/-- **What a page does** where the run is not disturbed. -/
theorem Orderly.turn {msgId : UInt32} {s : SniffState} (h : Orderly msgId s) {rest : List Packet}
    (hflight : s.inFlight = q :: rest) (hm : s.sent[q.message]? = some m)
    (hpage : (wirePages m.publishData)[q.page]? = some q.bytes)
    (hspares : s.phase.Spares s.first q.message m.info) :
    Turn (s.past ++ [(q, true)]) q m (s.began q) (sniff s.phase q.bytes) := by
  have hbefore := h.base.before hflight
  have hgood := h.base.phase
  have hmem : q ∈ s.inFlight := by
    rw [hflight]
    exact List.mem_cons_self
  -- a later page of a message that is not under way: the message has lost some
  have hlost : q.page ≠ 0 → (¬ ∃ a, s.phase = .assembling a ∧ s.first = q.message) →
      Reached (s.past ++ [(q, true)]) q.message 0 → SomeLost (s.past ++ [(q, true)]) q.message := by
    intro hq hnot hreached
    by_contra hno
    rcases reached_append hreached with hold | ⟨-, hzero, -⟩
    · refine hnot (h.active q hmem hold ?_)
      rintro ⟨i, bytes, hpast⟩
      exact hno ⟨i, bytes, List.mem_append_left _ hpast⟩
    · exact hq hzero.symm
  cases hphase : s.phase with
  | waiting =>
      rw [began_waiting hphase]
      by_cases hq : q.page = 0
      · rw [sniff_waiting_first (hq ▸ hpage)]
        exact turn_began hbefore hm hpage hq
      · rw [sniff_waiting_later hpage hq]
        refine .passed (hlost hq ?_)
        rintro ⟨a, ha, -⟩
        rw [hphase] at ha
        cases ha
  | assembling a =>
      rw [hphase] at hgood hspares
      obtain ⟨hgathers, ⟨bytes, hfirst⟩, -⟩ := hgood
      by_cases hsame : m.info = a.info
      · rw [began_same hphase hpage hsame, sniff_same hpage hsame]
        have hown := h.own a hphase
        exact turn_placed hgathers hbefore hm hpage hsame
          ⟨bytes, List.mem_append_left _ hfirst⟩ (hspares hsame).symm hown
      · rw [began_other hphase hgathers.sequence hpage hsame]
        by_cases hq : q.page = 0
        · rw [sniff_other_first (hq ▸ hpage) hgathers.sequence hsame]
          exact turn_began hbefore hm hpage hq
        · rw [sniff_other_later hpage hq hgathers.sequence hsame]
          refine .gone (hlost hq ?_)
          rintro ⟨_, -, heq⟩
          obtain ⟨m', hm', hinfo⟩ := hgathers.began
          rw [heq, hm, Option.some.injEq] at hm'
          exact hsame (hm' ▸ hinfo)

/-! ## Runs -/

/-- A packet that is on its way has not come. -/
theorem not_reached_of_before (hbefore : ∀ p ∈ past.map Prod.fst, p.Before q) :
    ¬ Reached past q.message q.page := by
  intro hreached
  rcases hreached.before hbefore with hlt | ⟨-, hlt⟩ <;> exact Nat.lt_irrefl _ hlt

theorem page_le_full (hpage : (wirePages m.publishData)[q.page]? = some q.bytes) :
    q.page ≤ m.full := by
  have hlt := (List.getElem?_eq_some_iff.mp hpage).1
  rw [m.length_wirePages] at hlt
  exact Nat.le_of_lt_succ hlt

/-- What came was sent. -/
theorem SniffInv.lt_of_reached {s : SniffState} (h : SniffInv s) {k i : ℕ}
    (hreached : Reached s.past k i) : k < s.sent.length := by
  obtain ⟨bytes, hmem⟩ := hreached
  have hin : (⟨k, i, bytes⟩ : Packet) ∈ stream s.sent := by
    rw [← h.order]
    exact List.mem_append_left _ (List.mem_map_of_mem hmem)
  obtain ⟨m, hm, -⟩ := mem_stream.mp hin
  exact (List.getElem?_eq_some_iff.mp hm).1

/-- A message of which some was lost did not come. -/
theorem SniffInv.not_allReached {s : SniffState} (h : SniffInv s) {k : ℕ}
    (hm : s.sent[k]? = some m) (hlost : SomeLost s.past k) : ¬ AllReached s.past k m := by
  have hall := pairwise_stream s.sent
  rw [← h.order, List.pairwise_append] at hall
  refine hlost.not_allReached hall.1 fun p hp hk => ?_
  have hin : p.1 ∈ stream s.sent := by
    rw [← h.order]
    exact List.mem_append_left _ (List.mem_map_of_mem hp)
  obtain ⟨m', hm', hpage⟩ := mem_stream.mp hin
  rw [hk, hm, Option.some.injEq] at hm'
  exact page_le_full (hm' ▸ hpage)

theorem reached_lost_iff {k i : ℕ} : Reached (past ++ [(q, false)]) k i ↔ Reached past k i := by
  refine ⟨fun h => ?_, fun h => h.append _⟩
  rcases reached_append h with hold | ⟨-, -, hflag⟩
  · exact hold
  · cases hflag

theorem allReached_of_ne {k : ℕ} (hk : k ≠ q.message) :
    AllReached (past ++ [(q, true)]) k m ↔ AllReached past k m := by
  refine forall₂_congr fun i _ => ⟨fun h => ?_, fun h => h.append _⟩
  rcases reached_append h with hold | ⟨heq, -⟩
  · exact hold
  · exact absurd heq hk

theorem orderly_init (msgId : UInt32) : Orderly msgId .init where
  base := sniffInv_init
  own := fun _ h => by cases h
  active := fun _ h => absurd h List.not_mem_nil
  shown_iff := by
    intro k
    constructor
    · rintro ⟨out, hout, -⟩
      exact absurd hout List.not_mem_nil
    · rintro ⟨m, hm, -⟩
      cases hm
  increasing := List.Pairwise.nil

theorem Orderly.publish {msgId : UInt32} {s : SniffState} (h : Orderly msgId s) (m : Serialized)
    (hbase : SniffInv { s with
      sent := s.sent ++ [m]
      inFlight := s.inFlight ++ packets s.sent.length m }) :
    Orderly msgId { s with
      sent := s.sent ++ [m]
      inFlight := s.inFlight ++ packets s.sent.length m } where
  base := hbase
  own := h.own
  active := by
    intro p hp hreached hno
    rcases List.mem_append.mp hp with hold | hnew
    · exact h.active p hold hreached hno
    · obtain ⟨hmessage, -⟩ := mem_packets.mp hnew
      exact absurd (hmessage ▸ h.base.lt_of_reached hreached) (Nat.lt_irrefl _)
  shown_iff := by
    intro k
    refine (h.shown_iff k).trans ⟨?_, ?_⟩
    · rintro ⟨m', hm', hrest⟩
      exact ⟨m', getElem?_concat hm' m, hrest⟩
    · rintro ⟨m', hm', hid, hall⟩
      have hlt := h.base.lt_of_reached (hall 0 (Nat.zero_le _))
      rw [List.getElem?_append_left hlt] at hm'
      exact ⟨m', hm', hid, hall⟩
  increasing := h.increasing

theorem Orderly.lose {msgId : UInt32} {s : SniffState} (h : Orderly msgId s) {rest : List Packet}
    (hflight : s.inFlight = q :: rest) (hbase : SniffInv (s.pass q rest false)) :
    Orderly msgId (s.pass q rest false) where
  base := hbase
  own := fun a ha i hi => (h.own a ha i hi).append _
  active := by
    intro p hp hreached hno
    refine h.active p (hflight ▸ List.mem_cons_of_mem q hp) (reached_lost_iff.mp hreached) ?_
    rintro ⟨i, bytes, hlost⟩
    exact hno ⟨i, bytes, List.mem_append_left _ hlost⟩
  shown_iff := by
    intro k
    refine (h.shown_iff k).trans (exists_congr fun m => and_congr_right fun _ =>
      and_congr_right fun _ => ?_)
    exact forall₂_congr fun i _ => reached_lost_iff.symm
  increasing := h.increasing

/-- **A page comes.** -/
theorem Orderly.deliver {msgId : UInt32} {s : SniffState} (h : Orderly msgId s)
    {rest : List Packet} (hflight : s.inFlight = q :: rest)
    (hspares : ∀ m, s.sent[q.message]? = some m → s.phase.Spares s.first q.message m.info)
    (hbase : SniffInv ((s.pass q rest true).sniffed msgId (s.began q) (sniff s.phase q.bytes))) :
    Orderly msgId ((s.pass q rest true).sniffed msgId (s.began q) (sniff s.phase q.bytes)) := by
  obtain ⟨m, hm, hpage⟩ := h.base.next hflight
  have hbefore := h.base.before hflight
  have hturn := h.turn hflight hm hpage (hspares m hm)
  have hold : ¬ AllReached s.past q.message m := fun hall =>
    not_reached_of_before hbefore (hall q.page (page_le_full hpage))
  -- a page on the way whose message has begun to come is of this message
  have hlater : ∀ p ∈ rest, Reached (s.past ++ [(q, true)]) p.message 0 → p.message = q.message := by
    intro p hp hreached
    have hstream := pairwise_stream s.sent
    rw [← h.base.order, hflight, List.pairwise_append, List.pairwise_cons] at hstream
    have hnext := hstream.2.1.1 p hp
    rcases reached_append hreached with hcame | ⟨heq, -⟩
    · rcases hcame.before hbefore with hlt | ⟨heq, -⟩
      · rcases hnext with hgt | ⟨heq, -⟩
        · exact absurd hgt (Nat.lt_asymm hlt)
        · exact heq.symm
      · exact heq
    · exact heq
  -- what is shown so far are earlier messages
  have hearlier : ∀ out ∈ s.shown, out.first < q.message := by
    intro out hout
    obtain ⟨m', hm', -, hall⟩ := (h.shown_iff out.first).mp ⟨out, hout, rfl⟩
    rcases (hall 0 (Nat.zero_le _)).before hbefore with hlt | ⟨heq, -⟩
    · exact hlt
    · rw [heq, hm, Option.some.injEq] at hm'
      exact absurd (heq ▸ hm' ▸ hall) hold
  -- the messages that have come, if this one has not, and if it has
  have hshownNot : ¬ AllReached (s.past ++ [(q, true)]) q.message m → ∀ k,
      (∃ out ∈ s.shown, out.first = k) ↔ ∃ m', s.sent[k]? = some m' ∧ m'.msgId = msgId ∧
        AllReached (s.past ++ [(q, true)]) k m' := by
    intro hnot k
    refine (h.shown_iff k).trans (exists_congr fun m' => and_congr_right fun hm' =>
      and_congr_right fun _ => ?_)
    by_cases hk : k = q.message
    · rw [hk, hm, Option.some.injEq] at hm'
      subst hm' hk
      exact iff_of_false hold hnot
    · exact (allReached_of_ne hk).symm
  generalize hres : sniff s.phase q.bytes = res at hturn hbase ⊢
  cases hturn with
  | part hfirst hopen hown =>
      refine ⟨hbase, ?_, ?_, hshownNot hopen, h.increasing⟩
      · intro a ha i hi
        cases ha
        exact hfirst ▸ hown i hi
      · intro p hp hreached _
        exact ⟨_, rfl, hfirst.trans (hlater p hp hreached).symm⟩
  | passed hlost =>
      have hnot : ¬ AllReached (s.past ++ [(q, true)]) q.message m := fun hall =>
        hbase.not_allReached hm (hlost (hall 0 (Nat.zero_le _))) hall
      refine ⟨hbase, (fun a ha => by cases ha), ?_, hshownNot hnot, h.increasing⟩
      intro p hp hreached hno
      have heq := hlater p hp hreached
      exact absurd (heq ▸ hlost (heq ▸ hreached)) hno
  | gone hlost =>
      have hnot : ¬ AllReached (s.past ++ [(q, true)]) q.message m := fun hall =>
        hbase.not_allReached hm (hlost (hall 0 (Nat.zero_le _))) hall
      refine ⟨hbase, (fun a ha => by cases ha), ?_, hshownNot hnot, h.increasing⟩
      intro p hp hreached hno
      have heq := hlater p hp hreached
      exact absurd (heq ▸ hlost (heq ▸ hreached)) hno
  | whole hfirst hall =>
      have hnext : (s.past ++ [(q, true)]).map Prod.fst ++ rest = stream s.sent := hbase.order
      refine ⟨hbase, (fun a ha => by cases ha), ?_, fun k => ?_, ?_⟩
      · -- nothing of a message that has come is on its way
        intro p hp hreached _
        have heq := hlater p hp hreached
        have hin : p ∈ stream s.sent := by
          rw [← h.base.order, hflight]
          exact List.mem_append_right _ (List.mem_cons_of_mem q hp)
        obtain ⟨m', hm', hpage'⟩ := mem_stream.mp hin
        rw [heq, hm, Option.some.injEq] at hm'
        have hstream := pairwise_stream s.sent
        rw [← hnext, List.pairwise_append] at hstream
        have hbefore' : ∀ p' ∈ (s.past ++ [(q, true)]).map Prod.fst, p'.Before p :=
          fun p' hp' => hstream.2.2 p' hp' p hp
        have hcame := hall p.page (page_le_full (hm' ▸ hpage'))
        exact absurd (heq ▸ hcame) (not_reached_of_before hbefore')
      · simp only [SniffState.sniffed]
        by_cases hk : k = q.message
        · subst hk
          split
          · rename_i hid
            rw [m.checkId_onWire] at hid
            refine iff_of_true ?_ ⟨m, hm, hid, hall⟩
            exact ⟨_, List.mem_append_right _ (List.mem_singleton_self _), hfirst⟩
          · rename_i hid
            rw [m.checkId_onWire] at hid
            refine iff_of_false ?_ ?_
            · rintro ⟨out, hout, heq⟩
              exact absurd (hearlier out hout) (heq ▸ Nat.lt_irrefl _)
            · rintro ⟨m', hm', hid', -⟩
              have hsame : m = m' := Option.some.inj (hm.symm.trans hm')
              exact hid (hsame ▸ hid')
        · have hold' := (h.shown_iff k).trans (exists_congr fun m' => and_congr_right fun _ =>
            and_congr_right fun _ => (@allReached_of_ne s.past q m' k hk).symm)
          refine Iff.trans ?_ hold'
          split
          · constructor
            · rintro ⟨out, hout, heq⟩
              rcases List.mem_append.mp hout with hmem | hnew
              · exact ⟨out, hmem, heq⟩
              · obtain rfl := List.mem_singleton.mp hnew
                exact absurd (heq.symm.trans hfirst) hk
            · rintro ⟨out, hout, heq⟩
              exact ⟨out, List.mem_append_left _ hout, heq⟩
          · exact Iff.rfl
      · simp only [SniffState.sniffed]
        split
        · rw [List.map_append, List.pairwise_append]
          refine ⟨h.increasing, List.pairwise_singleton _ _, ?_⟩
          intro k hk k' hk'
          obtain ⟨out, hout, rfl⟩ := List.mem_map.mp hk
          obtain rfl := List.mem_singleton.mp hk'
          exact hfirst ▸ hearlier out hout
        · exact h.increasing

theorem orderly_step {msgId : UInt32} {s t : SniffState} {a : SniffAction} (h : Orderly msgId s)
    (hguard : Undisturbed s a) (hstep : sniffStep msgId s a = some t) : Orderly msgId t := by
  have hbase := sniffInv_step h.base hstep
  cases a with
  | publish m =>
      cases hstep
      exact h.publish m hbase
  | deliver =>
      simp only [sniffStep] at hstep
      split at hstep
      · cases hstep
      rename_i q rest hflight
      cases hstep
      refine h.deliver hflight (fun m hm => ?_) hbase
      exact hguard q (by rw [hflight]; rfl) m hm
  | lose =>
      simp only [sniffStep] at hstep
      split at hstep
      · cases hstep
      rename_i q rest hflight
      cases hstep
      exact h.lose hflight hbase
  | control frameId pieces =>
      simp only [sniffStep] at hstep
      split at hstep
      · rename_i hframe
        cases hstep
        rw [sniff_writeFrame _ hframe.1 hframe.2]
        exact h
      · cases hstep
  | lapse =>
      cases hstep
      have hsame : { s with phase := .waiting } = s := by
        rw [← (hguard : s.phase = .waiting)]
      rw [hsame]
      exact h

/-- **Nothing is missed.**  In every run in which no page is taken into the assembly of another
message and no call's time is up while it assembles, the messages shown are those of the sniffer's
id of which all pages have come: each of them once, in the order they were sent in, and whole. -/
theorem sniffed_all {msgId : UInt32} {actions : List SniffAction} {s : SniffState}
    (hrun : (sniffMachine msgId).run actions = some s)
    (hguarded : (sniffMachine msgId).Guarded Undisturbed actions) :
    (s.shown.map Shown.first).Pairwise (· < ·) ∧
      ∀ k bytes, (⟨k, bytes⟩ : Shown) ∈ s.shown ↔ ∃ m, s.sent[k]? = some m ∧ m.msgId = msgId ∧
        (∀ i ≤ m.full, Reached s.past k i) ∧ bytes = onWire m.publishData := by
  have horderly : Orderly msgId s :=
    Machine.invariant_of_guarded (orderly_init msgId) (fun _ _ _ => orderly_step) hguarded hrun
  refine ⟨horderly.increasing, fun k bytes => ⟨fun hout => ?_, ?_⟩⟩
  · obtain ⟨m, hm, hid, hall⟩ := (horderly.shown_iff k).mp ⟨_, hout, rfl⟩
    exact ⟨m, hm, hid, hall, (horderly.base.shown _ hout).whole hm hall⟩
  · rintro ⟨m, hm, hid, hall, rfl⟩
    obtain ⟨⟨_, bytes⟩, hout, rfl⟩ := (horderly.shown_iff k).mpr ⟨m, hm, hid, hall⟩
    rw [← (horderly.base.shown _ hout).whole hm hall]
    exact hout

/-- A message whose first page is lost, and one that comes whole, with a heartbeat between. -/
def headlessRun : List SniffAction :=
  [.publish (twoPageMessage 1), .publish (twoPageMessage 2), .lose, .deliver,
    .control rtpsHeartbeatMsgId [], .lapse, .deliver, .deliver]

/-- The second message is shown. -/
theorem sniffed_all_headlessRun :
    ∃ s, (sniffMachine 7).run headlessRun = some s ∧ s.shown.map Shown.first = [1] ∧
      (s.shown.map Shown.first).Pairwise (· < ·) ∧
      ∀ k bytes, (⟨k, bytes⟩ : Shown) ∈ s.shown ↔ ∃ m, s.sent[k]? = some m ∧ m.msgId = 7 ∧
        (∀ i ≤ m.full, Reached s.past k i) ∧ bytes = onWire m.publishData := by
  have hone : ((sniffMachine 7).run headlessRun).any
      (fun s => decide (s.shown.map Shown.first = [1])) = true := by
    decide +kernel
  have hguarded : (sniffMachine 7).Guarded Undisturbed headlessRun := by
    decide +kernel
  obtain ⟨s, hrun, hs⟩ := Machine.exists_of_any hone
  exact ⟨s, hrun, hs, sniffed_all hrun hguarded⟩

end DzIpc.Udp
