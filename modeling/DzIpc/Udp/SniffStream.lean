import DzIpc.Udp.Sniff
import Mathlib.Data.List.Induction

/-!
# What the passive receiver shows

Pages leave the channel in the order they were sent in, or are lost.  A call takes every page of
a message of the shape that it is assembling, whichever message it is of, and keeps the first that
comes for a place.

* `Gathers` and `Gathered`: which page stands at each place of an assembly, and of a buffer that
  was shown.
* `Gathers.place`: what one more page does to them.
* `sniffed_pages`: the bytes shown, by the pages that were lost; a message is shown whole if none
  of its pages was.
-/

namespace DzIpc.Udp

open Wire Blocks

/-! ## The stream of pages -/

/-- All pages, in the order they are sent in. -/
def stream (sent : List Serialized) : List Packet :=
  (sent.mapIdx packets).flatten

/-- The packet was sent earlier. -/
def Packet.Before (p q : Packet) : Prop :=
  p.message < q.message ∨ p.message = q.message ∧ p.page < q.page

theorem mem_packets {k : ℕ} {m : Serialized} {q : Packet} :
    q ∈ packets k m ↔ q.message = k ∧ (wirePages m.publishData)[q.page]? = some q.bytes := by
  simp only [packets, List.mem_mapIdx]
  constructor
  · rintro ⟨i, hi, rfl⟩
    exact ⟨rfl, List.getElem?_eq_getElem hi⟩
  · rintro ⟨rfl, hpage⟩
    obtain ⟨hlt, heq⟩ := List.getElem?_eq_some_iff.mp hpage
    exact ⟨q.page, hlt, by rw [heq]⟩

theorem mem_stream {sent : List Serialized} {q : Packet} :
    q ∈ stream sent ↔ ∃ m, sent[q.message]? = some m ∧
      (wirePages m.publishData)[q.page]? = some q.bytes := by
  simp only [stream, List.mem_flatten, List.mem_mapIdx]
  constructor
  · rintro ⟨_, ⟨k, hk, rfl⟩, hq⟩
    obtain ⟨rfl, hpage⟩ := mem_packets.mp hq
    exact ⟨_, List.getElem?_eq_getElem hk, hpage⟩
  · rintro ⟨m, hm, hpage⟩
    obtain ⟨hlt, rfl⟩ := List.getElem?_eq_some_iff.mp hm
    exact ⟨_, ⟨q.message, hlt, rfl⟩, mem_packets.mpr ⟨rfl, hpage⟩⟩

theorem getElem?_concat {sent : List Serialized} {k : ℕ} {m : Serialized} (h : sent[k]? = some m)
    (m' : Serialized) : (sent ++ [m'])[k]? = some m := by
  rw [List.getElem?_append_left (List.getElem?_eq_some_iff.mp h).1]
  exact h

theorem stream_append (sent : List Serialized) (m : Serialized) :
    stream (sent ++ [m]) = stream sent ++ packets sent.length m := by
  simp [stream, List.mapIdx_append]

theorem pairwise_packets (k : ℕ) (m : Serialized) : (packets k m).Pairwise Packet.Before := by
  rw [List.pairwise_iff_getElem]
  intro i j hi hj hij
  simp only [packets, List.getElem_mapIdx]
  exact Or.inr ⟨rfl, hij⟩

theorem pairwise_stream (sent : List Serialized) : (stream sent).Pairwise Packet.Before := by
  induction sent using List.reverseRecOn with
  | nil => exact List.Pairwise.nil
  | append_singleton sent m ih =>
      rw [stream_append, List.pairwise_append]
      refine ⟨ih, pairwise_packets _ _, fun p hp q hq => ?_⟩
      obtain ⟨_, hm, -⟩ := mem_stream.mp hp
      obtain ⟨hmessage, -⟩ := mem_packets.mp hq
      have hlt := (List.getElem?_eq_some_iff.mp hm).1
      exact Or.inl (hmessage ▸ hlt)

/-! ## What an assembly is made of -/

/-- Of what has come for page `i` from message `first` on, these bytes came first, with
message `k`. -/
structure Origin (past : List (Packet × Bool)) (first k i : ℕ) (bytes : List UInt8) : Prop where
  le : first ≤ k
  reached : (⟨k, i, bytes⟩, true) ∈ past
  earliest : ∀ j, first ≤ j → j < k → ¬ Reached past j i

/-- The bytes are a page of a message of this shape, the first that came for its place. -/
def Fits (sent : List Serialized) (past : List (Packet × Bool)) (first : ℕ) (info : ChunkMeta)
    (bytes : List UInt8) : Prop :=
  ∃ k i m, Origin past first k i bytes ∧ sent[k]? = some m ∧ m.info = info ∧
    (wirePages m.publishData)[i]? = some bytes

/-- An assembly that message `first` began: it has whatever has come since. -/
structure Gathers (sent : List Serialized) (past : List (Packet × Bool)) (first : ℕ)
    (a : Assembly) : Prop where
  began : ∃ m, sent[first]? = some m ∧ m.info = a.info
  sound : a.Sound (Fits sent past first a.info)
  all : ∀ k i, first ≤ k → Reached past k i → a.received[i + 1]? = some true

/-- A buffer that message `first` began. -/
def Gathered (sent : List Serialized) (past : List (Packet × Bool)) (first : ℕ)
    (bytes : List UInt8) : Prop :=
  ∃ m, sent[first]? = some m ∧ (chunks bytes).length = m.full + 1 ∧
    ∀ i ≤ m.full, ∃ k m' page, sent[k]? = some m' ∧ m'.info = m.info ∧
      (wirePages m'.publishData)[i]? = some page ∧ (chunks bytes)[i]? = some page ∧
      Origin past first k i page

/-- What a call may come to. -/
def Sniffed.Good (sent : List Serialized) (past : List (Packet × Bool)) (first : ℕ) :
    Sniffed → Prop
  | .goOn .waiting => True
  | .goOn (.assembling a) => Gathers sent past first a ∧ Reached past first 0 ∧ a.isFull = false
  | .returned bytes => bytes = [] ∨ Gathered sent past first bytes

structure SniffInv (s : SniffState) : Prop where
  order : s.past.map Prod.fst ++ s.inFlight = stream s.sent
  phase : (Sniffed.goOn s.phase).Good s.sent s.past s.first
  shown : ∀ out ∈ s.shown, Gathered s.sent s.past out.first out.bytes

variable {sent : List Serialized} {past : List (Packet × Bool)} {first : ℕ} {q : Packet}

/-! ## One more page -/

theorem Reached.before (hbefore : ∀ p ∈ past.map Prod.fst, p.Before q) {k i : ℕ}
    (h : Reached past k i) : k < q.message ∨ k = q.message ∧ i < q.page := by
  obtain ⟨bytes, hmem⟩ := h
  exact hbefore _ (List.mem_map_of_mem hmem)

theorem reached_append {flag : Bool} {k i : ℕ} (h : Reached (past ++ [(q, flag)]) k i) :
    Reached past k i ∨ k = q.message ∧ i = q.page ∧ flag = true := by
  obtain ⟨bytes, hmem⟩ := h
  rcases List.mem_append.mp hmem with hold | hnew
  · exact Or.inl ⟨bytes, hold⟩
  · obtain ⟨rfl, rfl⟩ := Prod.mk.injEq .. ▸ List.mem_singleton.mp hnew
    exact Or.inr ⟨rfl, rfl, rfl⟩

/-- What came first, came first. -/
theorem Origin.pass {k i : ℕ} {bytes : List UInt8} (h : Origin past first k i bytes)
    (hbefore : ∀ p ∈ past.map Prod.fst, p.Before q) (flag : Bool) :
    Origin (past ++ [(q, flag)]) first k i bytes where
  le := h.le
  reached := List.mem_append_left _ h.reached
  earliest := by
    intro j hj hjk hreached
    rcases reached_append hreached with hold | ⟨rfl, rfl, -⟩
    · exact h.earliest j hj hjk hold
    · rcases Reached.before hbefore ⟨bytes, h.reached⟩ with hlt | ⟨rfl, -⟩
      · exact Nat.lt_asymm hlt hjk
      · exact Nat.lt_irrefl _ hjk

theorem Fits.pass {info : ChunkMeta} {bytes : List UInt8} (h : Fits sent past first info bytes)
    (hbefore : ∀ p ∈ past.map Prod.fst, p.Before q) (flag : Bool) :
    Fits sent (past ++ [(q, flag)]) first info bytes := by
  obtain ⟨k, i, m, horigin, hrest⟩ := h
  exact ⟨k, i, m, horigin.pass hbefore flag, hrest⟩

theorem Gathered.pass {bytes : List UInt8} (h : Gathered sent past first bytes)
    (hbefore : ∀ p ∈ past.map Prod.fst, p.Before q) (flag : Bool) :
    Gathered sent (past ++ [(q, flag)]) first bytes := by
  obtain ⟨m, hm, hlen, hpages⟩ := h
  refine ⟨m, hm, hlen, fun i hi => ?_⟩
  obtain ⟨k, m', page, hm', hinfo, hpage, hchunk, horigin⟩ := hpages i hi
  exact ⟨k, m', page, hm', hinfo, hpage, hchunk, horigin.pass hbefore flag⟩

/-- More messages are sent. -/
theorem Gathered.publish {bytes : List UInt8} (h : Gathered sent past first bytes)
    (m : Serialized) : Gathered (sent ++ [m]) past first bytes := by
  obtain ⟨m₀, hm, hlen, hpages⟩ := h
  refine ⟨m₀, getElem?_concat hm m, hlen, fun i hi => ?_⟩
  obtain ⟨k, m', page, hm', hrest⟩ := hpages i hi
  exact ⟨k, m', page, getElem?_concat hm' m, hrest⟩

theorem Gathers.publish {a : Assembly} (h : Gathers sent past first a) (m : Serialized) :
    Gathers (sent ++ [m]) past first a where
  began := by
    obtain ⟨m₀, hm, hinfo⟩ := h.began
    exact ⟨m₀, getElem?_concat hm m, hinfo⟩
  sound := h.sound.mono fun bytes hfits => by
    obtain ⟨k, i, m', horigin, hm', hrest⟩ := hfits
    exact ⟨k, i, m', horigin, getElem?_concat hm' m, hrest⟩
  all := h.all

/-- A page is lost. -/
theorem Gathers.lose {a : Assembly} (h : Gathers sent past first a)
    (hbefore : ∀ p ∈ past.map Prod.fst, p.Before q) :
    Gathers sent (past ++ [(q, false)]) first a where
  began := h.began
  sound := h.sound.mono fun _ hfits => hfits.pass hbefore false
  all := by
    intro k i hk hreached
    rcases reached_append hreached with hold | ⟨-, -, hflag⟩
    · exact h.all k i hk hold
    · cases hflag

/-- A full assembly is a buffer of its message. -/
theorem Gathers.gathered {a : Assembly} (h : Gathers sent past first a)
    (hfull : a.isFull = true) : Gathered sent past first a.assembled := by
  obtain ⟨m, hm, hinfo⟩ := h.began
  have hcnt := m.pageCnt_toNat
  rw [hinfo] at hcnt
  refine ⟨m, hm, h.sound.length_chunks.trans hcnt, fun i hi => ?_⟩
  have hle : i + 1 ≤ a.info.pageCnt.toNat := by omega
  obtain ⟨page, hfits, hpage, hchunk⟩ :=
    h.sound.block (of_decide_eq_true hfull) (Nat.le_add_left 1 i) hle
  obtain ⟨k, i', m', horigin, hm', hinfo', hat⟩ := hfits
  -- a page says its place
  have hplace : i' = i := by
    obtain ⟨tail, htail, -, hnow, -⟩ := hpage
    obtain ⟨tail', htail', -, hnow', -⟩ := Serialized.isPage hat
    rw [htail, Option.some.injEq] at htail'
    rw [← htail', hnow] at hnow'
    omega
  subst hplace
  exact ⟨k, m', page, hm', hinfo'.trans hinfo.symm, hat, hchunk, horigin⟩

/-- **A page is put into its place.**  An assembly that has whatever came since it was begun has
the next page of its shape too, or had one for this place. -/
theorem Gathers.place {a : Assembly} {m : Serialized} (h : Gathers sent past first a)
    (hbefore : ∀ p ∈ past.map Prod.fst, p.Before q) (hm : sent[q.message]? = some m)
    (hpage : (wirePages m.publishData)[q.page]? = some q.bytes) (hinfo : m.info = a.info)
    (hfirst : Reached (past ++ [(q, true)]) first 0) :
    Gathers sent (past ++ [(q, true)]) first ((placePage q.bytes a).getD a) := by
  have hisPage : IsPage a.info (q.page + 1) q.bytes := hinfo ▸ Serialized.isPage hpage
  have hplace := placePage_of_isPage hisPage
  have hlt : q.page + 1 < a.received.length := by
    rw [h.sound.lengthReceived]
    exact Nat.lt_succ_of_le hisPage.le
  have hmono := h.sound.mono fun _ hfits => Fits.pass hfits hbefore true
  have hle : first ≤ q.message := by
    rcases reached_append hfirst with hold | ⟨rfl, -⟩
    · rcases hold.before hbefore with hlt | ⟨rfl, -⟩
      · exact Nat.le_of_lt hlt
      · exact Nat.le_refl _
    · exact Nat.le_refl _
  by_cases hfree : a.received[q.page + 1]? = some false
  · rw [if_neg (not_not.mpr hfree)] at hplace
    have hfits : Fits sent (past ++ [(q, true)]) first a.info q.bytes := by
      refine ⟨q.message, q.page, m, ⟨hle, ?_, ?_⟩, hm, hinfo, hpage⟩
      · exact List.mem_append_right _ (List.mem_singleton_self _)
      · intro j hj hjq hreached
        rcases reached_append hreached with hold | ⟨rfl, -⟩
        · rw [h.all j q.page hj hold] at hfree
          cases hfree
        · exact Nat.lt_irrefl _ hjq
    have hsound := placePage_sound hmono hfits hplace
    rw [hplace]
    refine ⟨h.began, hsound, fun k i hk hreached => ?_⟩
    change (a.received.set (q.page + 1) true)[i + 1]? = some true
    by_cases hi : i = q.page
    · rw [hi, List.getElem?_set_self hlt]
    · rw [List.getElem?_set_ne (by omega)]
      rcases reached_append hreached with hold | ⟨-, hpageEq, -⟩
      · exact h.all k i hk hold
      · exact absurd hpageEq hi
  · rw [if_pos hfree] at hplace
    rw [hplace]
    refine ⟨h.began, hmono, fun k i hk hreached => ?_⟩
    rcases reached_append hreached with hold | ⟨-, rfl, -⟩
    · exact h.all k i hk hold
    · change a.received[q.page + 1]? = some true
      rw [List.getElem?_eq_getElem hlt] at hfree ⊢
      rw [Option.some.injEq, Bool.not_eq_false] at hfree
      rw [hfree]

theorem placed {a : Assembly} {m : Serialized} (h : Gathers sent past first a)
    (hbefore : ∀ p ∈ past.map Prod.fst, p.Before q) (hm : sent[q.message]? = some m)
    (hpage : (wirePages m.publishData)[q.page]? = some q.bytes) (hinfo : m.info = a.info)
    (hfirst : Reached (past ++ [(q, true)]) first 0) :
    (placeSniffed q.bytes a).Good sent (past ++ [(q, true)]) first := by
  have hnext := h.place hbefore hm hpage hinfo hfirst
  unfold placeSniffed
  dsimp only
  split
  · rename_i hfull
    exact Or.inr (hnext.gathered hfull)
  · rename_i hopen
    exact ⟨hnext, hfirst, Bool.eq_false_iff.mpr hopen⟩

/-- Nothing of a message has come before its first page. -/
theorem gathers_start {m : Serialized} (hbefore : ∀ p ∈ past.map Prod.fst, p.Before q)
    (hm : sent[q.message]? = some m) (hq : q.page = 0) :
    Gathers sent past q.message (.start m.info) where
  began := ⟨m, hm, rfl⟩
  sound := .start m.valid
  all := by
    intro k i hk hreached
    rcases hreached.before hbefore with hlt | ⟨-, hlt⟩
    · exact absurd hlt (Nat.not_lt.mpr hk)
    · rw [hq] at hlt
      cases hlt

/-- A first page begins an assembly, or is a message. -/
theorem began_good {m : Serialized} (hbefore : ∀ p ∈ past.map Prod.fst, p.Before q)
    (hm : sent[q.message]? = some m)
    (hpage : (wirePages m.publishData)[q.page]? = some q.bytes) (hq : q.page = 0) :
    (beginSniff m.info q.bytes).Good sent (past ++ [(q, true)]) q.message := by
  unfold beginSniff
  split
  · rename_i hone
    have hcnt := m.pageCnt_toNat
    rw [hone] at hcnt
    have hfull : m.full = 0 := (Nat.add_right_cancel (m := 1) hcnt).symm
    split
    · trivial
    rename_i hlen
    have hsize : q.bytes.length = m.info.totalSize.toNat := not_not.mp hlen
    have hvalid := m.valid
    have hlow := hvalid.low
    have hhigh := hvalid.high
    have hblocks : chunks q.bytes = [q.bytes] := by
      rw [hone] at hlow hhigh
      change (1 - 1) * udpMaxSize + tailMsgSize ≤ _ at hlow
      change _ ≤ 1 * udpMaxSize at hhigh
      simp only [tailMsgSize] at hlow
      exact blocks_of_length_le (by omega) (by omega)
    refine Or.inr ⟨m, hm, by rw [hblocks, hfull]; rfl, fun i hi => ?_⟩
    obtain rfl : i = 0 := by omega
    rw [hq] at hpage
    refine ⟨q.message, m, q.bytes, hm, rfl, hpage, by rw [hblocks]; rfl, Nat.le_refl _, ?_, ?_⟩
    · rw [← hq]
      exact List.mem_append_right _ (List.mem_singleton_self _)
    · exact fun j hj hlt => absurd hlt (Nat.not_lt.mpr hj)
  · refine placed (gathers_start hbefore hm hq) hbefore hm hpage rfl ⟨q.bytes, ?_⟩
    rw [← hq]
    exact List.mem_append_right _ (List.mem_singleton_self _)

/-! ## Runs -/

theorem SniffInv.before {s : SniffState} (h : SniffInv s) {rest : List Packet}
    (hflight : s.inFlight = q :: rest) : ∀ p ∈ s.past.map Prod.fst, p.Before q := by
  intro p hp
  have hall := pairwise_stream s.sent
  rw [← h.order, hflight, List.pairwise_append] at hall
  exact hall.2.2 p hp q List.mem_cons_self

theorem SniffInv.next {s : SniffState} (h : SniffInv s) {rest : List Packet}
    (hflight : s.inFlight = q :: rest) : ∃ m, s.sent[q.message]? = some m ∧
      (wirePages m.publishData)[q.page]? = some q.bytes := by
  have hmem : q ∈ stream s.sent := by
    rw [← h.order, hflight]
    exact List.mem_append_right _ List.mem_cons_self
  exact mem_stream.mp hmem

/-! ### Which message began what the call is at -/

theorem began_waiting {s : SniffState} (hphase : s.phase = .waiting) (q : Packet) :
    s.began q = q.message := by
  rw [SniffState.began, hphase]

theorem began_same {s : SniffState} {a : Assembly} {m : Serialized}
    (hphase : s.phase = .assembling a)
    (hpage : (wirePages m.publishData)[q.page]? = some q.bytes) (hsame : m.info = a.info) :
    s.began q = s.first := by
  obtain ⟨tail, htail, hmatch, -, -⟩ := sniffTail_of_page hpage
  rw [SniffState.began, hphase, htail]
  exact if_pos (hsame ▸ hmatch)

theorem began_other {s : SniffState} {a : Assembly} {m : Serialized}
    (hphase : s.phase = .assembling a) (hzero : a.info.sequence = 0)
    (hpage : (wirePages m.publishData)[q.page]? = some q.bytes) (hother : m.info ≠ a.info) :
    s.began q = q.message := by
  obtain ⟨tail, htail, -, hinfo, -⟩ := sniffTail_of_page hpage
  rw [SniffState.began, hphase, htail]
  exact if_neg (not_matches hinfo hzero hother)

theorem Gathers.sequence {a : Assembly} (h : Gathers sent past first a) : a.info.sequence = 0 := by
  obtain ⟨m, -, hinfo⟩ := h.began
  rw [← hinfo]
  rfl

/-- **A page reaches the sniffer.** -/
theorem SniffInv.sniff_good {s : SniffState} (h : SniffInv s) {rest : List Packet}
    (hflight : s.inFlight = q :: rest) :
    (sniff s.phase q.bytes).Good s.sent (s.past ++ [(q, true)]) (s.began q) := by
  obtain ⟨m, hm, hpage⟩ := h.next hflight
  have hbefore := h.before hflight
  have hgood := h.phase
  cases hphase : s.phase with
  | waiting =>
      rw [began_waiting hphase]
      by_cases hq : q.page = 0
      · rw [sniff_waiting_first (hq ▸ hpage)]
        exact began_good hbefore hm hpage hq
      · rw [sniff_waiting_later hpage hq]
        trivial
  | assembling a =>
      rw [hphase] at hgood
      obtain ⟨hgathers, hfirst, -⟩ := hgood
      by_cases hsame : m.info = a.info
      · rw [began_same hphase hpage hsame, sniff_same hpage hsame]
        obtain ⟨bytes, hmem⟩ := hfirst
        exact placed hgathers hbefore hm hpage hsame ⟨bytes, List.mem_append_left _ hmem⟩
      · rw [began_other hphase hgathers.sequence hpage hsame]
        by_cases hq : q.page = 0
        · rw [sniff_other_first (hq ▸ hpage) hgathers.sequence hsame]
          exact began_good hbefore hm hpage hq
        · rw [sniff_other_later hpage hq hgathers.sequence hsame]
          exact Or.inl rfl

/-- What the call comes to is kept. -/
theorem SniffInv.sniffed {s : SniffState} (horder : s.past.map Prod.fst ++ s.inFlight = stream s.sent)
    (hshown : ∀ out ∈ s.shown, Gathered s.sent s.past out.first out.bytes) (msgId : UInt32)
    {first : ℕ} {res : Sniffed} (hgood : res.Good s.sent s.past first) :
    SniffInv (s.sniffed msgId first res) := by
  cases res with
  | goOn phase => exact ⟨horder, hgood, hshown⟩
  | returned bytes =>
      refine ⟨horder, trivial, fun out hout => ?_⟩
      simp only [SniffState.sniffed] at hout
      split at hout
      · rename_i hid
        rcases List.mem_append.mp hout with hold | hnew
        · exact hshown out hold
        · obtain rfl := List.mem_singleton.mp hnew
          rcases hgood with rfl | hgathered
          · cases hid
          · exact hgathered
      · exact hshown out hout

theorem sniffInv_init : SniffInv .init where
  order := rfl
  phase := trivial
  shown := fun _ h => absurd h List.not_mem_nil

theorem sniffInv_step {msgId : UInt32} {s t : SniffState} {a : SniffAction} (h : SniffInv s)
    (hstep : sniffStep msgId s a = some t) : SniffInv t := by
  cases a with
  | publish m =>
      cases hstep
      refine ⟨?_, ?_, fun out hout => (h.shown out hout).publish m⟩
      · change s.past.map Prod.fst ++ (s.inFlight ++ packets s.sent.length m) = _
        rw [stream_append, ← h.order, List.append_assoc]
      · have hgood := h.phase
        change (Sniffed.goOn s.phase).Good _ _ _
        cases hphase : s.phase with
        | waiting => trivial
        | assembling a =>
            rw [hphase] at hgood
            exact ⟨hgood.1.publish m, hgood.2⟩
  | deliver =>
      simp only [sniffStep] at hstep
      split at hstep
      · cases hstep
      rename_i q rest hflight
      cases hstep
      have hbefore := h.before hflight
      have hshown : ∀ out ∈ (s.pass q rest true).shown,
          Gathered s.sent (s.pass q rest true).past out.first out.bytes :=
        fun out hout => (h.shown out hout).pass hbefore true
      refine SniffInv.sniffed ?_ hshown msgId (h.sniff_good hflight)
      change (s.past ++ [(q, true)]).map Prod.fst ++ rest = stream s.sent
      rw [← h.order, hflight, List.map_append, List.append_assoc]
      rfl
  | lose =>
      simp only [sniffStep] at hstep
      split at hstep
      · cases hstep
      rename_i q rest hflight
      cases hstep
      have hbefore := h.before hflight
      refine ⟨?_, ?_, fun out hout => (h.shown out hout).pass hbefore false⟩
      · change (s.past ++ [(q, false)]).map Prod.fst ++ rest = stream s.sent
        rw [← h.order, hflight, List.map_append, List.append_assoc]
        rfl
      · have hgood := h.phase
        change (Sniffed.goOn s.phase).Good _ _ _
        cases hphase : s.phase with
        | waiting => trivial
        | assembling a =>
            rw [hphase] at hgood
            obtain ⟨hgathers, ⟨bytes, hmem⟩, hopen⟩ := hgood
            exact ⟨hgathers.lose hbefore, ⟨bytes, List.mem_append_left _ hmem⟩, hopen⟩
  | control frameId pieces =>
      simp only [sniffStep] at hstep
      split at hstep
      · rename_i hframe
        cases hstep
        rw [sniff_writeFrame _ hframe.1 hframe.2]
        exact ⟨h.order, h.phase, h.shown⟩
      · cases hstep
  | lapse =>
      cases hstep
      exact ⟨h.order, trivial, h.shown⟩

theorem sniffInv_of_run {msgId : UInt32} {actions : List SniffAction} {s : SniffState}
    (hrun : (sniffMachine msgId).run actions = some s) : SniffInv s :=
  Machine.invariant sniffInv_init (fun _ _ _ => sniffInv_step) hrun

/-- Where no page of its message was lost, a buffer is its message. -/
theorem Gathered.whole {bytes : List UInt8} {m : Serialized}
    (h : Gathered sent past first bytes) (hm : sent[first]? = some m)
    (hall : ∀ i ≤ m.full, Reached past first i) : bytes = onWire m.publishData := by
  obtain ⟨m', hm', hlen, hpages⟩ := h
  obtain rfl : m = m' := Option.some.inj (hm.symm.trans hm')
  have hchunks : chunks bytes = wirePages m.publishData := by
    refine List.ext_getElem? fun i => ?_
    by_cases hi : i ≤ m.full
    · obtain ⟨k, m₁, page, hm₁, -, hpage, hchunk, horigin⟩ := hpages i hi
      have hk : k = first := by
        by_contra hne
        have hle := horigin.le
        exact horigin.earliest first (Nat.le_refl _) (by omega) (hall i hi)
      rw [hk, hm, Option.some.injEq] at hm₁
      rw [hchunk, hm₁, hpage]
    · rw [List.getElem?_eq_none (by omega), List.getElem?_eq_none]
      rw [m.length_wirePages]
      omega
  calc bytes = (chunks bytes).flatten := (flatten_blocks (by decide)).symm
    _ = onWire m.publishData := by rw [hchunks, onWire]

theorem not_control_seven : isRtpsControlFrame 7 = false := rfl

/-- A message of 1461 equal bytes: two pages. -/
def twoPageMessage (fill : UInt8) : Serialized where
  msgId := 7
  pieces := [List.replicate 1461 fill]
  fits := by
    rw [List.flatten_singleton, List.length_replicate]
    decide
  notControl := not_control_seven

/-- The second page of a message is lost, and the next message is sent. -/
def tearingRun : List SniffAction :=
  [.publish (twoPageMessage 1), .publish (twoPageMessage 2), .deliver, .lose, .deliver, .deliver]

end DzIpc.Udp
