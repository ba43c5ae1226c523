import DzIpc.LibIpc.MultiRingOrder
import Mathlib.Data.Fin.VecNotation

/-!
# The broadcast ring of many writers neither tears nor wedges

The readers' steps keep the invariant as well: a reader that goes on in its `pop` needs only its
own slot (`Reading.move`), the last one marks a slot that nobody else waits for (`inv_lastFlag`),
and a bit that is cleared is nobody else's (`inv_cas`).

* `neitherTearsNorWedges_of_guarded` is the result for runs whose steps keep the rules.
* `popReturns_iff` says when a `pop` returns true: the slot at the cursor carries the flag of that
  very index.  So a reader that has been overtaken finds the ring empty for good, and
  `wedged_overtaken` is one, after 257 pushes.
-/

namespace DzIpc.LibIpc.MultiRing

variable {w nw nr : ℕ} {B : Type}

/-! ## The steps of a reader -/

section

variable {s : State w nw nr B} {r : Fin nr} {spurious : Bool} {rd' : Reader w B}

theorem withReader_self (out : ElemArray w B × Reader w B) :
    (s.withReader r out).readers r = out.2 :=
  Function.update_self _ _ _

theorem withReader_of_ne (out : ElemArray w B × Reader w B) {k : Fin nr} (hk : k ≠ r) :
    (s.withReader r out).readers k = s.readers k :=
  Function.update_of_ne hk _ _

theorem joined_of_connected {rd : Reader w B} (hconn : rd.connected ≠ 0#32)
    (hpc : rd.pc ≠ .connecting) : rd.joined := by
  unfold Reader.joined
  split
  · contradiction
  · simpa using hconn

theorem connected_of_joined {rd : Reader w B} (hj : rd.joined) : rd.connected ≠ 0#32 := by
  unfold Reader.joined at hj
  rw [Bool.and_eq_true, decide_eq_true_eq] at hj
  exact hj.1

/-- A reader that keeps its bit. -/
theorem OwnBits.keep (h : OwnBits s) {q : ElemArray w B} (hcc : q.cc = s.ring.cc)
    (hconn : rd'.connected = (s.readers r).connected) : OwnBits (s.withReader r (q, rd')) := by
  have hsame : ∀ k, ((s.withReader r (q, rd')).readers k).connected = (s.readers k).connected := by
    intro k
    by_cases hk : k = r
    · subst hk
      rw [withReader_self, hconn]
    · rw [withReader_of_ne _ hk]
  constructor
  · intro k
    rw [hsame]
    change _ → _ ∧ Mask.Within _ q.cc
    rw [hcc]
    exact h.single k
  · intro k l
    rw [hsame, hsame]
    exact h.apart k l

/-- A step of a reader that leaves the slots alone. -/
theorem inv_local (hs : Inv s) {cc : Cc} (hself : Reading s rd')
    (hbits : OwnBits (s.withReader r ({ s.ring with cc }, rd'))) :
    Inv (s.withReader r ({ s.ring with cc }, rd')) := by
  have hkeep : ∀ {rd : Reader w B}, Reading s rd →
      Reading (s.withReader r ({ s.ring with cc }, rd')) rd := fun h =>
    h.mono (fun _ _ _ => Iff.rfl) (fun _ => Iff.rfl) rfl rfl (fun _ _ _ _ hown => ⟨hown, .refl _⟩)
      (fun _ _ _ _ _ => rfl) (fun _ _ _ _ => rfl)
  refine ⟨hs.logged.congr (.refl_of rfl) rfl rfl (fun _ => .inl rfl) (fun _ => rfl), fun k => ?_,
    hbits⟩
  by_cases hk : k = r
  · subst hk
    rw [withReader_self]
    exact hkeep hself
  · rw [withReader_of_ne _ hk]
    exact hkeep (hs.reading k)

/-- A reader goes on in its `pop`. -/
theorem Reading.move {rd : Reader w B} (h : Reading s rd) {idx : ℕ} {pc' : ReaderPc w B}
    (hidx : rd.popping = some idx) (hidx' : ({ rd with pc := pc' } : Reader w B).popping = some idx)
    (hpart : ∀ {j buf}, pc' = .copy idx j buf →
      ∀ v, s.log[idx]? = some v → ∀ l : Fin w, l.val < j → buf l = v l)
    (hall : ∀ {buf}, ({ rd with pc := pc' } : Reader w B).copied = some buf →
      s.log[idx]? = some buf)
    (hload : ∀ {buf rc}, pc' = .lastFlag idx buf rc ∨ pc' = .cas idx buf rc →
      Mask.Within (s.ring.slot idx).rc.rem rc.rem)
    (hlast : ∀ {buf rc}, pc' = .lastFlag idx buf rc → rc.rem &&& ~~~rd.connected = 0#32)
    (hcounted : ∀ buf, pc' ≠ .free idx buf) : Reading s { rd with pc := pc' } := by
  have hpos : ({ rd with pc := pc' } : Reader w B).pos = rd.pos := by
    rw [Reader.pos_of_popping hidx, Reader.pos_of_popping hidx']
  have hj : rd.joined := (h.popped hidx).2.2.1
  have hj' : ({ rd with pc := pc' } : Reader w B).joined := by
    have hconn : rd.connected ≠ 0#32 := connected_of_joined hj
    refine joined_of_connected hconn ?_
    rintro rfl
    nomatch hidx'
  have hat : ∀ {i : ℕ}, ({ rd with pc := pc' } : Reader w B).popping = some i → i = idx :=
    fun hi => Option.some.inj (hi.symm.trans hidx')
  exact
    { pos_le := by rw [hpos]; exact h.pos_le
      received := by rw [hpos]; exact h.received
      popped := fun hi => by
        obtain rfl := hat hi
        obtain ⟨hcur, hlt, -, hun⟩ := h.popped hidx
        exact ⟨hcur, hlt, hj', hun⟩
      window := fun _ => by rw [hpos]; exact h.window hj
      rem := fun _ => by rw [hpos]; exact h.rem hj
      rem_claim := fun _ => h.rem_claim hj
      flag := fun _ => h.flag hj
      copied_part := fun {i j buf} hpc => by
        have hi : i = idx := hat (by unfold Reader.popping; rw [hpc])
        subst hi
        exact hpart hpc
      copied_all := fun hi hbuf => by
        obtain rfl := hat hi
        exact hall hbuf
      loaded := fun {i buf rc} hpc => by
        have hi : i = idx := hat (by unfold Reader.popping; rcases hpc with hpc | hpc <;> rw [hpc])
        subst hi
        exact hload hpc
      last := fun {i buf rc} hpc => by
        have hi : i = idx := hat (by unfold Reader.popping; rw [hpc])
        subst hi
        exact hlast hpc
      counted := fun i buf hpc => by
        have hi : i = idx := hat (by unfold Reader.popping; rw [hpc])
        subst hi
        exact hcounted buf hpc }

/-- A reader outside of `pop`, by its cursor. -/
theorem Reading.rest {rd : Reader w B} (hpc : rd.pc = .idle ∨ rd.pc = .connecting)
    (hle : rd.cursor ≤ s.ring.ct) (hreceived : List.Sublist rd.received (s.log.take rd.cursor))
    (hwindow : rd.joined → InWindow s rd.cursor)
    (hrem : rd.joined → ∀ c, rd.cursor ≤ c → c < s.ring.ct →
      Mask.Within rd.connected (s.ring.slot c).rc.rem)
    (hclaim : rd.joined → ∀ i v c, s.writers i = .storeCt v c →
      Mask.Within rd.connected (s.ring.slot c).rc.rem)
    (hflag : rd.joined → ∀ c, rd.cursor ≤ c → c < s.ring.ct → Unwritten s c →
      (s.ring.slot c).flag = committed c) : Reading s rd := by
  have hnone : rd.popping = none := by
    unfold Reader.popping
    rcases hpc with hpc | hpc <;> rw [hpc]
  have hpos : rd.pos = rd.cursor := by
    rw [Reader.pos, hnone]
    rfl
  exact
    { pos_le := by rw [hpos]; exact hle
      received := by rw [hpos]; exact hreceived
      popped := fun hi => by rw [hnone] at hi; cases hi
      window := fun hj => by rw [hpos]; exact hwindow hj
      rem := fun hj => by rw [hpos]; exact hrem hj
      rem_claim := hclaim
      flag := hflag
      copied_part := fun h => by rcases hpc with hpc | hpc <;> rw [hpc] at h <;> cases h
      copied_all := fun hi => by rw [hnone] at hi; cases hi
      loaded := fun h => by rcases hpc with hpc | hpc <;> rw [hpc] at h <;> rcases h with h | h <;> cases h
      last := fun h => by rcases hpc with hpc | hpc <;> rw [hpc] at h <;> cases h
      counted := fun _ _ h => by rcases hpc with hpc | hpc <;> rw [hpc] at h <;> cases h }

/-- A connected reader takes its cursor. -/
theorem inv_connecting (hs : Inv s) (hcareful : (s.readers r).Careful s)
    (hpc : (s.readers r).pc = .connecting) :
    Inv (s.withReader r (s.ring, { s.readers r with cursor := s.ring.ct, pc := .idle })) := by
  refine inv_local hs ?_ (hs.ownBits.keep rfl rfl)
  have hrd := hs.reading r
  unfold Reader.Careful at hcareful
  rw [hpc] at hcareful
  refine .rest (.inl rfl) (Nat.le_refl _) ?_ ?_ ?_ ?_ ?_
  · exact hrd.received.trans (List.take_sublist_take_left hrd.pos_le)
  · exact fun _ => ⟨Nat.le_add_right _ _, fun _ _ _ _ => Nat.lt_add_of_pos_right (by decide)⟩
  · exact fun _ c hc hlt => absurd hlt (Nat.not_lt.mpr hc)
  · exact fun _ i v c hclaim => hcareful i c (by rw [hclaim]; rfl)
  · exact fun _ c hc hlt => absurd hlt (Nat.not_lt.mpr hc)

/-- `pop` finds a committed slot. -/
theorem inv_popStart [Inhabited B] (hs : Inv s) (hsmall : s.log.length < 2 ^ 32)
    (hpc : (s.readers r).pc = .idle) (hconn : (s.readers r).connected ≠ 0#32) :
    Inv (s.withReader r (s.ring, popStart s.ring (s.readers r))) := by
  have hrd := hs.reading r
  unfold popStart
  split
  · rename_i hflag
    have hpos : (s.readers r).pos = (s.readers r).cursor := by
      unfold Reader.pos Reader.popping
      rw [hpc]
      rfl
    have hj : (s.readers r).joined := joined_of_connected hconn (by rw [hpc]; exact nofun)
    have hle := hrd.pos_le
    have hct := hs.logged.ct_eq
    rw [hpos] at hle
    obtain ⟨hlt, hun⟩ := hs.logged.flag (by omega) hflag
    have hnext : ((s.readers r).cursor + 1) % 2 ^ 32 = (s.readers r).cursor + 1 :=
      Nat.mod_eq_of_lt (by omega)
    refine inv_local hs ?_ (hs.ownBits.keep rfl rfl)
    rw [hnext]
    exact
      { pos_le := hle
        received := by rw [← hpos]; exact hrd.received
        popped := fun hi => by
          cases hi
          exact ⟨rfl, hlt, joined_of_connected hconn nofun, hun⟩
        window := fun _ => by
          have hwin := hrd.window hj
          rwa [hpos] at hwin
        rem := fun _ c hc => hrd.rem hj c (by rw [hpos]; exact hc)
        rem_claim := fun _ => hrd.rem_claim hj
        flag := fun _ c hc => hrd.flag hj c (Nat.le_of_succ_le hc)
        copied_part := fun hcopy v _ l hl => by
          cases hcopy
          exact absurd hl (Nat.not_lt_zero _)
        copied_all := fun _ hbuf => nomatch hbuf
        loaded := fun h => by rcases h with h | h <;> nomatch h
        last := fun h => nomatch h
        counted := fun _ _ h => nomatch h }
  · exact inv_local hs hrd (hs.ownBits.keep rfl rfl)

/-- The bit that another reader of the slot has in it. -/
theorem rem_ne_zero_of_other (hs : Inv s) {k : Fin nr} {rem : Cc} (hk : k ≠ r)
    (hj : (s.readers k).joined) (hown : Mask.Within (s.readers k).connected rem) :
    rem &&& ~~~(s.readers r).connected ≠ 0#32 := by
  intro hzero
  have hin : Mask.Within (s.readers k).connected (s.readers r).connected :=
    hown.trans hzero
  have hapart := hs.ownBits.apart k r hk
  have hnone : Mask.Within (s.readers k).connected 0#32 := by
    rw [← hapart]
    exact Mask.within_and.mpr ⟨.refl _, hin⟩
  exact connected_of_joined hj hnone.eq_zero

/-- The last reader marks the slot as free: nobody else waits for it. -/
theorem inv_lastFlag (hs : Inv s) (hsmall : s.log.length < 2 ^ 32) {idx : ℕ} {buf : Value w B}
    {rc : Rc} (hpc : (s.readers r).pc = .lastFlag idx buf rc) :
    Inv (s.withReader r (s.ring.setFlag idx (freed (s.readers r).cursor),
      { s.readers r with pc := .cas idx buf rc })) := by
  have hrd := hs.reading r
  have hidx : (s.readers r).popping = some idx := by
    unfold Reader.popping
    rw [hpc]
  obtain ⟨hcur, hlt, hj, hun⟩ := hrd.popped hidx
  have hpos := Reader.pos_of_popping hidx
  have hct := hs.logged.ct_eq
  have hwin := hrd.window hj
  rw [hpos] at hwin
  generalize ht : s.withReader r (s.ring.setFlag idx (freed (s.readers r).cursor),
    { s.readers r with pc := .cas idx buf rc }) = t
  have hring : t.ring = s.ring.setFlag idx (freed (s.readers r).cursor) := by rw [← ht]; rfl
  have hwriters : t.writers = s.writers := by rw [← ht]; rfl
  have hlog : t.log = s.log := by rw [← ht]; rfl
  have hself : t.readers r = { s.readers r with pc := .cas idx buf rc } := by
    rw [← ht, withReader_self]
  have hother : ∀ {k}, k ≠ r → t.readers k = s.readers k := fun hk => by
    rw [← ht, withReader_of_ne _ hk]
  have hbits : OwnBits t := by
    rw [← ht]
    exact hs.ownBits.keep rfl rfl
  clear ht
  have hsame : SameWriters s t := .refl_of hwriters
  -- the readers that wait for a slot keep its flag
  have hkeep : ∀ {rd : Reader w B}, Reading s rd → (∀ c, rd.joined → rd.cursor ≤ c →
      c < s.ring.ct → indexOf c ≠ indexOf idx) → Reading t rd := by
    intro rd h hslots
    refine h.mono hsame.claims hsame.unwritten (by rw [hring]; rfl) hlog ?_ ?_ ?_
    · intro _ d _ _ hown
      rw [hring, setFlag_rc]
      exact ⟨hown, .refl _⟩
    · intro _ k v d _
      rw [hring, setFlag_rc]
    · intro hj d hd hlt
      rw [hring, slot_setFlag, if_neg (hslots d hj hd hlt)]
  have hslots : ∀ {rd : Reader w B}, Reading s rd → rd.joined → ∀ c, rd.cursor ≤ c →
      c < s.ring.ct → c ≠ idx → indexOf c ≠ indexOf idx := by
    intro rd h hjoined c hc hclt hne
    have hnear := (h.window hjoined).1
    have hle := h.pos_le_cursor
    exact slot_ne _ hclt hlt (by omega) hwin.1 hne
  refine ⟨?_, fun k => ?_, hbits⟩
  · refine hs.logged.congr hsame (by rw [hring]; rfl) hlog (fun c => ?_) (fun c => ?_)
    · rw [hring, slot_setFlag]
      split
      · exact .inr fun d hd => freed_ne_committed (by omega) hd
      · exact .inl rfl
    · rw [hring, setFlag_data]
  · by_cases hk : k = r
    · subst hk
      rw [hself]
      have hmoved : Reading s { s.readers k with pc := .cas idx buf rc } := by
        refine hrd.move hidx rfl nofun ?_ ?_ nofun (fun _ => nofun)
        · intro buf' hbuf
          cases hbuf
          refine hrd.copied_all hidx ?_
          unfold Reader.copied
          rw [hpc]
        · intro buf' rc' h
          rcases h with h | h
          · nomatch h
          · cases h
            exact hrd.loaded (.inl hpc)
      refine hkeep hmoved fun c _ hc hclt => hslots hrd hj c hc hclt ?_
      change (s.readers k).cursor ≤ c at hc
      omega
    · rw [hother hk]
      refine hkeep (hs.reading k) fun c hjk hc hclt => hslots (hs.reading k) hjk c hc hclt ?_
      rintro rfl
      have hle := (hs.reading k).pos_le_cursor
      have hown := (hs.reading k).rem hjk c (Nat.le_trans hle hc) hclt
      exact rem_ne_zero_of_other hs hk hjk (hown.trans (hrd.loaded (.inl hpc))) (hrd.last hpc)

/-- The exchange that ends `pop`: the reader's bit is gone, and the value is delivered. -/
theorem inv_cas (hs : Inv s) {idx : ℕ} {buf : Value w B} {rc : Rc}
    (hpc : (s.readers r).pc = .cas idx buf rc) (hrc : (s.ring.slot idx).rc = rc) :
    Inv (s.withReader r
      (s.ring.setRc idx ⟨rc.rem &&& ~~~(s.readers r).connected, rc.ic + 1#24, rc.epoch⟩,
        (s.readers r).deliver buf)) := by
  have hrd := hs.reading r
  have hidx : (s.readers r).popping = some idx := by
    unfold Reader.popping
    rw [hpc]
  obtain ⟨hcur, hlt, hj, hun⟩ := hrd.popped hidx
  have hpos := Reader.pos_of_popping hidx
  have hwin := hrd.window hj
  rw [hpos] at hwin
  generalize hnew : (⟨rc.rem &&& ~~~(s.readers r).connected, rc.ic + 1#24, rc.epoch⟩ : Rc) = new
  have hrem : new.rem = (s.ring.slot idx).rc.rem &&& ~~~(s.readers r).connected := by
    rw [← hnew, hrc]
  generalize ht : s.withReader r (s.ring.setRc idx new, (s.readers r).deliver buf) = t
  have hring : t.ring = s.ring.setRc idx new := by rw [← ht]; rfl
  have hct : t.ring.ct = s.ring.ct := by rw [hring]; rfl
  have hwriters : t.writers = s.writers := by rw [← ht]; rfl
  have hlog : t.log = s.log := by rw [← ht]; rfl
  have hself : t.readers r = (s.readers r).deliver buf := by rw [← ht, withReader_self]
  have hother : ∀ {k}, k ≠ r → t.readers k = s.readers k := fun hk => by
    rw [← ht, withReader_of_ne _ hk]
  have hbits : OwnBits t := by
    rw [← ht]
    exact hs.ownBits.keep rfl rfl
  clear ht
  have hsame : SameWriters s t := .refl_of hwriters
  have hflag : ∀ c, (t.ring.slot c).flag = (s.ring.slot c).flag := fun c => by
    rw [hring, setRc_flag]
  -- the slots at and behind the position of a reader, other than this one
  have hslot : ∀ {c}, c < s.ring.ct → s.ring.ct ≤ c + 256 → c ≠ idx →
      (t.ring.slot c).rc = (s.ring.slot c).rc := by
    intro c hc hc' hne
    rw [hring, slot_setRc, if_neg (slot_ne _ hc hlt hc' hwin.1 hne)]
  have hclaim : ∀ {i v c}, s.writers i = .storeCt v c →
      (t.ring.slot c).rc = (s.ring.slot c).rc := by
    intro i v c hc
    obtain rfl := hs.logged.claim_eq hc
    have hnear := hwin.2 i v _ hc
    rw [hring, slot_setRc, if_neg]
    exact slot_ne (s.ring.ct + 1) (by omega) (by omega) (by omega) (by omega)
      (Nat.ne_of_gt hlt)
  refine ⟨hs.logged.congr hsame hct hlog (fun c => .inl (hflag c))
    (fun c => by rw [hring, setRc_data]), fun k => ?_, hbits⟩
  by_cases hk : k = r
  · subst hk
    rw [hself]
    have hconn : ((s.readers k).deliver buf).connected = (s.readers k).connected := rfl
    refine .rest (.inl rfl) ?_ ?_ ?_ ?_ ?_ ?_
    · change (s.readers k).cursor ≤ _
      rw [hct]
      omega
    · change List.Sublist ((s.readers k).received ++ [buf]) (t.log.take (s.readers k).cursor)
      have hgot : s.log[idx]? = some buf := by
        refine hrd.copied_all hidx ?_
        unfold Reader.copied
        rw [hpc]
      have hsub := hrd.received
      rw [hpos] at hsub
      rw [hcur, hlog, List.take_add_one, hgot]
      exact hsub.append (.refl _)
    · intro _
      rw [inWindow_congr hct hsame.claims]
      change InWindow s (s.readers k).cursor
      rw [hcur]
      have hnear := hwin.1
      exact ⟨by omega, fun i v d hd => by have hlap := hwin.2 i v d hd; omega⟩
    · intro _ c hc hclt
      change (s.readers k).cursor ≤ c at hc
      rw [hct] at hclt
      have hnear := hwin.1
      rw [hconn, hslot hclt (by omega) (by omega)]
      exact hrd.rem hj c (by omega) hclt
    · intro _ i v c hc
      have hc' := (hsame.claims i v c).mp hc
      rw [hconn, hclaim hc']
      exact hrd.rem_claim hj i v c hc'
    · intro _ c hc hclt hcun
      rw [hflag]
      rw [hct] at hclt
      exact hrd.flag hj c hc hclt ((hsame.unwritten c).mp hcun)
  · rw [hother hk]
    refine (hs.reading k).mono hsame.claims hsame.unwritten hct hlog ?_ ?_ ?_
    · intro hjk c hc hclt hown
      have hnear := ((hs.reading k).window hjk).1
      by_cases hne : c = idx
      · subst hne
        rw [hring, slot_setRc, if_pos rfl]
        change Mask.Within _ new.rem ∧ Mask.Within new.rem _
        rw [hrem]
        refine ⟨Mask.within_and.mpr ⟨hown, Mask.within_not.mpr (hs.ownBits.apart k r hk)⟩, ?_⟩
        exact Mask.and_within_left _ _
      · rw [hslot hclt (by omega) hne]
        exact ⟨hown, .refl _⟩
    · exact fun _ i v c hc => hclaim hc
    · exact fun _ c _ _ => hflag c

/-- A step of a reader that keeps the rules. -/
theorem inv_readerStep (hs : Inv s) (hsmall : s.log.length < 2 ^ 32)
    (hcareful : (s.readers r).Careful s) {out : ElemArray w B × Reader w B}
    (hstep : readerStep s.ring (s.readers r) spurious = some out) : Inv (s.withReader r out) := by
  have hrd := hs.reading r
  unfold readerStep at hstep
  cases hpc : (s.readers r).pc with
  | idle =>
      rw [hpc] at hstep
      nomatch hstep
  | connecting =>
      rw [hpc] at hstep
      cases hstep
      exact inv_connecting hs hcareful hpc
  | copy idx j buf =>
      rw [hpc] at hstep
      dsimp only at hstep
      have hidx : (s.readers r).popping = some idx := by
        unfold Reader.popping
        rw [hpc]
      obtain ⟨hcur, hlt, hj, hun⟩ := hrd.popped hidx
      have hwin := hrd.window hj
      rw [Reader.pos_of_popping hidx] at hwin
      split at hstep <;> cases hstep
      · rename_i hjw
        refine inv_local hs ?_ (hs.ownBits.keep rfl rfl)
        refine hrd.move hidx rfl ?_ nofun (fun h => by rcases h with h | h <;> nomatch h) nofun
          (fun _ => nofun)
        intro j' buf' heq v hv l hl
        cases heq
        by_cases hlj : l = ⟨j, hjw⟩
        · subst hlj
          rw [Function.update_self, hs.logged.data hv hwin hun]
        · have hne : l.val ≠ j := fun h => hlj (Fin.ext h)
          rw [Function.update_of_ne hlj]
          exact hrd.copied_part hpc v hv l (by omega)
      · rename_i hjw
        refine inv_local hs ?_ (hs.ownBits.keep rfl rfl)
        refine hrd.move hidx rfl nofun ?_ (fun h => by rcases h with h | h <;> nomatch h) nofun
          (fun _ => nofun)
        intro buf' hbuf
        cases hbuf
        have hlen : idx < s.log.length := hs.logged.ct_eq ▸ hlt
        rw [List.getElem?_eq_getElem hlen]
        congr 1
        funext l
        exact (hrd.copied_part hpc _ (List.getElem?_eq_getElem hlen) l (by omega)).symm
  | loadRc idx buf =>
      rw [hpc] at hstep
      dsimp only at hstep
      have hidx : (s.readers r).popping = some idx := by
        unfold Reader.popping
        rw [hpc]
      have hbuf : s.log[idx]? = some buf := by
        refine hrd.copied_all hidx ?_
        unfold Reader.copied
        rw [hpc]
      obtain ⟨-, hlt, hj, -⟩ := hrd.popped hidx
      split at hstep
      · rename_i hzero
        -- the slot counts the reader
        have hown := hrd.rem hj idx (Nat.le_of_eq (Reader.pos_of_popping hidx)) hlt
        rw [hzero] at hown
        exact absurd hown.eq_zero (connected_of_joined hj)
      · split at hstep <;> cases hstep
        · rename_i hlast
          refine inv_local hs ?_ (hs.ownBits.keep rfl rfl)
          refine hrd.move hidx rfl nofun (fun h => by cases h; exact hbuf) ?_ ?_ (fun _ => nofun)
          · intro buf' rc' h
            rcases h with h | h
            · cases h
              exact .refl _
            · nomatch h
          · intro buf' rc' h
            cases h
            exact hlast
        · refine inv_local hs ?_ (hs.ownBits.keep rfl rfl)
          refine hrd.move hidx rfl nofun (fun h => by cases h; exact hbuf) ?_ nofun (fun _ => nofun)
          intro buf' rc' h
          rcases h with h | h
          · nomatch h
          · cases h
            exact .refl _
  | free idx buf => exact absurd hpc (hrd.counted idx buf)
  | lastFlag idx buf rc =>
      rw [hpc] at hstep
      cases hstep
      exact inv_lastFlag hs hsmall hpc
  | cas idx buf rc =>
      rw [hpc] at hstep
      dsimp only at hstep
      split at hstep <;> cases hstep
      · rename_i hreal
        exact inv_cas hs hpc hreal.2
      · have hidx : (s.readers r).popping = some idx := by
          unfold Reader.popping
          rw [hpc]
        refine inv_local hs ?_ (hs.ownBits.keep rfl rfl)
        refine hrd.move hidx rfl nofun ?_ (fun h => by rcases h with h | h <;> nomatch h) nofun
          (fun _ => nofun)
        intro buf' hbuf
        cases hbuf
        refine hrd.copied_all hidx ?_
        unfold Reader.copied
        rw [hpc]

end

/-! ## Connections -/

section

variable {s : State w nw nr B} {r : Fin nr}

/-- A reader that is not connected, and keeps its cursor and what it got. -/
theorem Reading.apart {rd : Reader w B} (h : Reading s rd) (hidle : rd.pc = .idle) {connected : Cc}
    {pc' : ReaderPc w B} (hpc' : pc' = .connecting ∨ pc' = .idle ∧ connected = 0#32) :
    Reading s { rd with connected, pc := pc' } := by
  have hpos : rd.pos = rd.cursor := by
    unfold Reader.pos Reader.popping
    rw [hidle]
    rfl
  have hle := h.pos_le
  have hreceived := h.received
  rw [hpos] at hle hreceived
  have hjoined : ¬ ({ rd with connected, pc := pc' } : Reader w B).joined := by
    rcases hpc' with rfl | ⟨rfl, rfl⟩
    · unfold Reader.joined
      simp
    · unfold Reader.joined
      simp
  refine .rest ?_ hle hreceived (fun hj => absurd hj hjoined) (fun hj => absurd hj hjoined)
    (fun hj => absurd hj hjoined) (fun hj => absurd hj hjoined)
  rcases hpc' with rfl | ⟨rfl, -⟩
  · exact .inr rfl
  · exact .inl rfl

/-- `connect` gains a bit that nobody has, or none. -/
theorem inv_connect (hs : Inv s) (hidle : (s.readers r).pc = .idle) :
    Inv (s.withReader r (connectStart s.ring (s.readers r))) := by
  unfold connectStart
  split
  · exact inv_local hs (hs.reading r) (hs.ownBits.keep rfl rfl)
  rcases Ring.connHeadConnect_spec s.ring.cc with hfull | ⟨id, hid, hsingle, hfree⟩
  · rw [hfull]
    dsimp only
    have hnone : ({ s.ring with cc := s.ring.cc } : ElemArray w B).isConnected 0#32 = false := by
      simp [ElemArray.isConnected]
    rw [hnone, if_neg Bool.false_ne_true]
    refine inv_local hs ((hs.reading r).apart hidle (.inr ⟨rfl, rfl⟩)) ⟨fun k => ?_, fun k l hkl => ?_⟩
    · by_cases hk : k = r
      · subst hk
        rw [withReader_self]
        exact fun h => absurd rfl h
      · rw [withReader_of_ne _ hk]
        exact hs.ownBits.single k
    · by_cases hk : k = r
      · subst hk
        rw [withReader_self]
        exact BitVec.zero_and
      · by_cases hl : l = r
        · subst hl
          rw [withReader_self]
          exact BitVec.and_zero
        · rw [withReader_of_ne _ hk, withReader_of_ne _ hl]
          exact hs.ownBits.apart k l hkl
  · rw [hid]
    dsimp only
    have hpc' : ∀ b : Bool, (if b = true then ReaderPc.connecting else .idle : ReaderPc w B)
        = .connecting ∨ (if b = true then ReaderPc.connecting else .idle : ReaderPc w B) = .idle := by
      intro b
      cases b
      · exact .inr rfl
      · exact .inl rfl
    have hgained : ({ s.ring with cc := s.ring.cc ||| id } : ElemArray w B).isConnected id = true := by
      have hself : (s.ring.cc ||| id) &&& id ≠ 0#32 := by
        intro hzero
        obtain ⟨i, hi⟩ := (Mask.ne_zero_iff id).mp hsingle.ne_zero
        have hbit := (Mask.eq_zero_iff _).mp hzero i
        simp [hi] at hbit
      simpa [ElemArray.isConnected] using hself
    rw [hgained, if_pos rfl]
    -- the bit is none of the others'
    have hothers : ∀ k, (s.readers k).connected &&& id = 0#32 := by
      intro k
      by_cases hzero : (s.readers k).connected = 0#32
      · rw [hzero]
        exact BitVec.zero_and
      · exact (hs.ownBits.single k hzero).2.disjoint_mono hfree
    have hgrow : Mask.Within s.ring.cc (s.ring.cc ||| id) := by
      rw [Mask.within_iff]
      intro i hi
      simp [hi]
    refine inv_local hs ((hs.reading r).apart hidle (.inl rfl)) ⟨fun k => ?_, fun k l hkl => ?_⟩
    · by_cases hk : k = r
      · subst hk
        rw [withReader_self]
        refine fun _ => ⟨hsingle, ?_⟩
        change Mask.Within id (s.ring.cc ||| id)
        rw [Mask.within_iff]
        intro i hi
        simp [hi]
      · rw [withReader_of_ne _ hk]
        intro hconn
        obtain ⟨hone, hin⟩ := hs.ownBits.single k hconn
        exact ⟨hone, hin.trans hgrow⟩
    · by_cases hk : k = r
      · subst hk
        rw [withReader_self, withReader_of_ne _ (Ne.symm hkl), BitVec.and_comm]
        exact hothers l
      · by_cases hl : l = r
        · subst hl
          rw [withReader_self, withReader_of_ne _ hk]
          exact hothers k
        · rw [withReader_of_ne _ hk, withReader_of_ne _ hl]
          exact hs.ownBits.apart k l hkl

/-- `disconnect` gives the bit back. -/
theorem inv_disconnect (hs : Inv s) (hidle : (s.readers r).pc = .idle) :
    Inv (s.withReader r (disconnect s.ring (s.readers r))) := by
  unfold disconnect
  split
  · have hapart : Reading s { s.readers r with connected := 0#32 } :=
      (hs.reading r).apart hidle (.inr ⟨hidle, rfl⟩)
    refine inv_local hs hapart ⟨fun k => ?_, fun k l hkl => ?_⟩
    · by_cases hk : k = r
      · subst hk
        rw [withReader_self]
        exact fun h => absurd rfl h
      · rw [withReader_of_ne _ hk]
        intro hconn
        obtain ⟨hone, hin⟩ := hs.ownBits.single k hconn
        exact ⟨hone, Mask.within_and.mpr ⟨hin, Mask.within_not.mpr (hs.ownBits.apart k r hk)⟩⟩
    · by_cases hk : k = r
      · subst hk
        rw [withReader_self]
        exact BitVec.zero_and
      · by_cases hl : l = r
        · subst hl
          rw [withReader_self]
          exact BitVec.and_zero
        · rw [withReader_of_ne _ hk, withReader_of_ne _ hl]
          exact hs.ownBits.apart k l hkl
  · exact inv_local hs (hs.reading r) (hs.ownBits.keep rfl rfl)

end

/-! ## A reader alone -/

/-- Steps of one reader alone. -/
inductive Alone (out : ElemArray w B × Reader w B) : ElemArray w B → Reader w B → Prop
  | done : Alone out out.1 out.2
  | step {q q' : ElemArray w B} {rd rd' : Reader w B}
      (hstep : readerStep q rd false = some (q', rd')) (hrest : Alone out q' rd') : Alone out q rd

theorem cas_succeeds (q : ElemArray w B) (rd : Reader w B) {idx : ℕ} (buf : Value w B) {rc : Rc}
    (hrc : (q.slot idx).rc = rc) :
    readerStep q { rd with pc := .cas idx buf rc } false
      = some (q.setRc idx ⟨rc.rem &&& ~~~rd.connected, rc.ic + 1#24, rc.epoch⟩, rd.deliver buf) :=
  if_pos ⟨rfl, hrc⟩

/-- What a reader does once its flag was right: it copies the words and returns. -/
theorem exists_alone (q : ElemArray w B) {idx : ℕ} (left : ℕ) :
    ∀ (rd : Reader w B) {j : ℕ} {buf : Value w B}, rd.pc = .copy idx j buf → left = w - j →
      ∃ q' rd' buf', Alone (q', rd') q rd ∧ rd'.received = rd.received ++ [buf'] := by
  induction left with
  | zero =>
      intro rd j buf hpc hleft
      have hj : ¬ j < w := by omega
      have hcopied : readerStep q rd false = some (q, { rd with pc := .loadRc idx buf }) := by
        unfold readerStep
        rw [hpc]
        dsimp only
        rw [dif_neg hj]
      by_cases hzero : (q.slot idx).rc.rem = 0#32
      · have hload : readerStep q { rd with pc := .loadRc idx buf } false
            = some (q, { rd with pc := .free idx buf }) := if_pos hzero
        have hfree : readerStep q { rd with pc := .free idx buf } false
            = some (q.setFlag idx (freed rd.cursor), rd.deliver buf) := rfl
        exact ⟨_, _, buf, .step hcopied (.step hload (.step hfree .done)), rfl⟩
      · by_cases hlast : (q.slot idx).rc.rem &&& ~~~rd.connected = 0#32
        · have hload : readerStep q { rd with pc := .loadRc idx buf } false
              = some (q, { rd with pc := .lastFlag idx buf (q.slot idx).rc }) :=
            (if_neg hzero).trans (if_pos hlast)
          have hflag : readerStep q { rd with pc := .lastFlag idx buf (q.slot idx).rc } false
              = some (q.setFlag idx (freed rd.cursor),
                { rd with pc := .cas idx buf (q.slot idx).rc }) := rfl
          have hcas := cas_succeeds (q.setFlag idx (freed rd.cursor)) rd buf
            (setFlag_rc q idx idx (freed rd.cursor))
          exact ⟨_, _, buf, .step hcopied (.step hload (.step hflag (.step hcas .done))), rfl⟩
        · have hload : readerStep q { rd with pc := .loadRc idx buf } false
              = some (q, { rd with pc := .cas idx buf (q.slot idx).rc }) :=
            (if_neg hzero).trans (if_neg hlast)
          have hcas := cas_succeeds q rd buf (rfl : (q.slot idx).rc = _)
          exact ⟨_, _, buf, .step hcopied (.step hload (.step hcas .done)), rfl⟩
  | succ left ih =>
      intro rd j buf hpc hleft
      have hj : j < w := by omega
      have hword : readerStep q rd false = some (q, { rd with
          pc := .copy idx (j + 1) (Function.update buf ⟨j, hj⟩ ((q.slot idx).data ⟨j, hj⟩)) }) := by
        unfold readerStep
        rw [hpc]
        dsimp only
        rw [dif_pos hj]
      obtain ⟨q', rd', buf', hrest, hreceived⟩ := ih { rd with
          pc := .copy idx (j + 1) (Function.update buf ⟨j, hj⟩ ((q.slot idx).data ⟨j, hj⟩)) }
        rfl (by omega)
      exact ⟨q', rd', buf', .step hword hrest, hreceived⟩

/-! ## Runs -/

theorem idle_of_atRest {rd : Reader w B} (h : rd.atRest) : rd.pc = .idle := by
  unfold Reader.atRest at h
  split at h
  · assumption
  · cases h

theorem quiet_of_atRest {pc : WriterPc w B} (h : pc.atRest) :
    pc.claiming = none ∧ pc.writing = none := by
  cases pc <;> first | exact ⟨rfl, rfl⟩ | nomatch h

section

variable [Inhabited B]

theorem inv_init : Inv (init : State w nw nr B) := by
  have hrest : ∀ r, Reading (init : State w nw nr B) ((init : State w nw nr B).readers r) := by
    intro r
    exact .rest (.inl rfl) (Nat.le_refl _) (List.Sublist.refl _)
      (fun h => absurd h Bool.false_ne_true) (fun h => absurd h Bool.false_ne_true)
      (fun h => absurd h Bool.false_ne_true) (fun h => absurd h Bool.false_ne_true)
  refine ⟨?_, hrest, ⟨fun _ h => absurd rfl h, fun _ _ _ => BitVec.zero_and⟩⟩
  exact
    { ct_eq := rfl
      claim_eq := nofun
      claim_unique := nofun
      write_log := nofun
      write_window := nofun
      write_unique := nofun
      written := nofun
      data := nofun
      flag := fun {d} hd h => by
        change 0 = committed d at h
        unfold committed at h
        omega }

/-- The log only grows. -/
theorem log_step {s t : State w nw nr B} {a : Action w nw nr B} (h : step s a = some t) :
    s.log.length ≤ t.log.length := by
  have hwriter : ∀ i out, s.log.length ≤ (s.withWriter i out).log.length := by
    intro i out
    change _ ≤ (s.log ++ logged (s.writers i)).length
    rw [List.length_append]
    exact Nat.le_add_right _ _
  cases a with
  | push i v =>
      unfold step at h
      dsimp only at h
      split at h <;> cases h
      exact hwriter _ _
  | forcePush i v =>
      unfold step at h
      dsimp only at h
      split at h <;> cases h
      exact hwriter _ _
  | writer i spurious =>
      obtain ⟨out, -, rfl⟩ := Option.map_eq_some_iff.mp h
      exact hwriter _ _
  | connect r =>
      unfold step at h
      dsimp only at h
      split at h <;> cases h
      exact Nat.le_refl _
  | disconnect r =>
      unfold step at h
      dsimp only at h
      split at h <;> cases h
      exact Nat.le_refl _
  | pop r =>
      unfold step at h
      dsimp only at h
      split at h <;> cases h
      exact Nat.le_refl _
  | reader r spurious =>
      obtain ⟨out, -, rfl⟩ := Option.map_eq_some_iff.mp h
      exact Nat.le_refl _

/-- A step that keeps the rules keeps the invariant. -/
theorem inv_step {s t : State w nw nr B} {a : Action w nw nr B} (hs : Inv s)
    (hcareful : Careful s a) (hstep : step s a = some t) (hsmall : t.log.length < 2 ^ 32) :
    Inv t := by
  have hbefore : s.log.length < 2 ^ 32 := Nat.lt_of_le_of_lt (log_step hstep) hsmall
  cases a with
  | push i v =>
      unfold step at hstep
      dsimp only at hstep
      split at hstep <;> cases hstep
      rename_i hrest
      exact inv_quiet hs (quiet_of_atRest hrest) ⟨rfl, rfl⟩
  | forcePush i v =>
      unfold step at hstep
      dsimp only at hstep
      split at hstep <;> cases hstep
      rename_i hrest
      exact inv_quiet hs (quiet_of_atRest hrest) ⟨rfl, rfl⟩
  | writer i spurious =>
      obtain ⟨out, hout, rfl⟩ := Option.map_eq_some_iff.mp hstep
      exact inv_writerStep hs hsmall hcareful hout
  | connect r =>
      unfold step at hstep
      dsimp only at hstep
      split at hstep <;> cases hstep
      rename_i hrest
      exact inv_connect hs (idle_of_atRest hrest)
  | disconnect r =>
      unfold step at hstep
      dsimp only at hstep
      split at hstep <;> cases hstep
      rename_i hrest
      exact inv_disconnect hs (idle_of_atRest hrest)
  | pop r =>
      unfold step at hstep
      dsimp only at hstep
      split at hstep <;> cases hstep
      rename_i hrest
      refine inv_popStart hs hbefore (idle_of_atRest hrest.1) ?_
      intro hzero
      have hconn := hrest.2
      rw [hzero] at hconn
      simp [ElemArray.isConnected] at hconn
  | reader r spurious =>
      obtain ⟨out, hout, rfl⟩ := Option.map_eq_some_iff.mp hstep
      exact inv_readerStep hs hbefore hcareful hout

/-! ## A pop without interference -/

theorem Alone.run {s : State w nw nr B} {r : Fin nr} {out : ElemArray w B × Reader w B}
    {q : ElemArray w B} {rd : Reader w B} (h : Alone out q rd) :
    ∃ n, (machine w nw nr B).runFrom (s.withReader r (q, rd)) (List.replicate n (.reader r false))
      = some (s.withReader r out) := by
  induction h with
  | done => exact ⟨0, rfl⟩
  | @step q q' rd rd' hstep _ ih =>
      obtain ⟨n, hn⟩ := ih
      refine ⟨n + 1, ?_⟩
      rw [List.replicate_succ]
      have hone : (machine w nw nr B).step (s.withReader r (q, rd)) (.reader r false)
          = some (s.withReader r (q', rd')) := by
        change (readerStep q ((s.withReader r (q, rd)).readers r) false).map _ = _
        rw [withReader_self, hstep, Option.map_some]
        simp only [State.withReader, Function.update_idem]
      exact (Machine.runFrom_cons hone).mpr hn

/-- `pop` returns true exactly if the slot at the cursor carries its own commit flag. -/
theorem popReturns_iff {s : State w nw nr B} {r : Fin nr} (hidle : (s.readers r).pc = .idle)
    (hconn : s.ring.isConnected (s.readers r).connected) :
    PopReturns s r ↔
      (s.ring.slot (s.readers r).cursor).flag = committed (s.readers r).cursor := by
  have hrest : (s.readers r).atRest = true := by
    unfold Reader.atRest
    rw [hidle]
  have hpop : (machine w nw nr B).step s (.pop r)
      = some (s.withReader r (s.ring, popStart s.ring (s.readers r))) :=
    if_pos ⟨hrest, hconn⟩
  constructor
  · rintro ⟨n, t, v, hrun, hreceived⟩
    by_contra hflag
    have hsame : popStart s.ring (s.readers r) = s.readers r := if_neg hflag
    rw [hsame] at hpop
    rw [Machine.runFrom_cons hpop] at hrun
    cases n with
    | zero =>
        cases hrun
        rw [withReader_self] at hreceived
        have hlen := congrArg List.length hreceived
        simp at hlen
    | succ n =>
        rw [List.replicate_succ] at hrun
        obtain ⟨u, hu, -⟩ := Machine.exists_step_of_runFrom hrun
        change (readerStep s.ring ((s.withReader r (s.ring, s.readers r)).readers r) false).map _ = _
          at hu
        rw [withReader_self] at hu
        unfold readerStep at hu
        rw [hidle] at hu
        nomatch hu
  · intro hflag
    have hstart : popStart s.ring (s.readers r) = { s.readers r with
        cursor := ((s.readers r).cursor + 1) % 2 ^ 32
        pc := .copy (s.readers r).cursor 0 fun _ => default } := if_pos hflag
    rw [hstart] at hpop
    obtain ⟨q', rd', buf, halone, hreceived⟩ := exists_alone s.ring w { s.readers r with
        cursor := ((s.readers r).cursor + 1) % 2 ^ 32
        pc := .copy (s.readers r).cursor 0 fun _ => default } rfl rfl
    obtain ⟨n, hn⟩ := halone.run (s := s) (r := r)
    refine ⟨n, _, buf, (Machine.runFrom_cons hpop).mpr hn, ?_⟩
    rw [withReader_self]
    exact hreceived

/-- The invariant says what is promised. -/
theorem Inv.promised {s : State w nw nr B} (hs : Inv s) : NeitherTearsNorWedges s := by
  refine ⟨fun r => ?_, fun hwriters r hrest hconn hne => ?_⟩
  · exact (hs.reading r).received.trans (List.take_sublist _ _)
  · have hidle := idle_of_atRest hrest
    have hrd := hs.reading r
    rw [popReturns_iff hidle hconn]
    have hpos : (s.readers r).pos = (s.readers r).cursor := by
      unfold Reader.pos Reader.popping
      rw [hidle]
      rfl
    have hj : (s.readers r).joined := by
      refine joined_of_connected ?_ (by rw [hidle]; exact nofun)
      intro hzero
      rw [hzero] at hconn
      simp [ElemArray.isConnected] at hconn
    have hle := hrd.pos_le
    rw [hpos] at hle
    refine hrd.flag hj _ (Nat.le_refl _) (Nat.lt_of_le_of_ne hle hne) fun i v j hwrite => ?_
    have hquiet := (quiet_of_atRest (hwriters i)).2
    rw [hwrite] at hquiet
    nomatch hquiet

/-- **The ring neither tears nor wedges** in a run with fewer than `2 ^ 32` pushes whose steps keep
the rules. -/
theorem neitherTearsNorWedges_of_guarded {actions : List (Action w nw nr B)} {s : State w nw nr B}
    (hguard : (machine w nw nr B).Guarded Careful actions)
    (hrun : (machine w nw nr B).run actions = some s) (hcount : s.log.length < 2 ^ 32) :
    NeitherTearsNorWedges s := by
  have hinv : s.log.length < 2 ^ 32 → Inv s := by
    refine @Machine.invariant_of_guarded _ _ (machine w nw nr B) Careful
      (fun s => s.log.length < 2 ^ 32 → Inv s) (fun _ => inv_init) ?_ _ _ hguard hrun
    intro s a t hs hcareful hstep hsmall
    exact inv_step (hs (Nat.lt_of_le_of_lt (log_step hstep) hsmall)) hcareful hstep hsmall
  exact (hinv hcount).promised

end

/-! ## Examples of runs -/

instance (s : State w nw nr B) (spurious : Bool) :
    ∀ pc : WriterPc w B, Decidable (pc.Careful s spurious)
  | .cas _ _ _ _ c rc =>
      inferInstanceAs (Decidable (spurious = false ∧ (s.ring.slot c).rc = rc → Fresh s c))
  | .check call _ epoch c =>
      inferInstanceAs (Decidable
        ((call = .force ∨ spurious = false) ∧ s.ring.epoch = epoch → Claimable s c))
  | .idle | .enter _ _ | .readCc _ _ _ | .loadCt _ _ _ _ | .loadRc _ _ _ _ _
  | .loadFlag _ _ _ _ _ _ | .storeCt _ _ | .write _ _ _ => isTrue trivial

instance (s : State w nw nr B) : ∀ rd : Reader w B, Decidable (rd.Careful s)
  | ⟨connected, _, .connecting, _⟩ =>
      inferInstanceAs (Decidable (∀ i, ∀ c ∈ (s.writers i).claiming,
        Mask.Within connected (s.ring.slot c).rc.rem))
  | ⟨_, _, .idle, _⟩ | ⟨_, _, .copy _ _ _, _⟩ | ⟨_, _, .loadRc _ _, _⟩ | ⟨_, _, .free _ _, _⟩
  | ⟨_, _, .lastFlag _ _ _, _⟩ | ⟨_, _, .cas _ _ _, _⟩ => isTrue trivial

instance (s : State w nw nr B) : ∀ a : Action w nw nr B, Decidable (Careful s a)
  | .writer i spurious => inferInstanceAs (Decidable ((s.writers i).Careful s spurious))
  | .reader r _ => inferInstanceAs (Decidable ((s.readers r).Careful s))
  | .push _ _ | .forcePush _ _ | .connect _ | .disconnect _ | .pop _ => isTrue trivial

/-- A reader connects, one writer pushes and another one forces its push while the first one still
writes, and the reader pops both. -/
def orderlyRun : List (Action 2 2 1 ℕ) :=
  let early : Fin 2 := ⟨0, Nat.two_pos⟩
  let late : Fin 2 := ⟨1, Nat.one_lt_two⟩
  let reader : Fin 1 := ⟨0, Nat.one_pos⟩
  [.connect reader, .reader reader false, .push early ![1, 2]] ++
    List.replicate 8 (.writer early false) ++
    [.forcePush late ![3, 4]] ++ List.replicate 10 (.writer late false) ++
    List.replicate 3 (.writer early false) ++
    [.pop reader] ++ List.replicate 6 (.reader reader false) ++
    [.pop reader] ++ List.replicate 6 (.reader reader false)

theorem neitherTearsNorWedges_orderlyRun : ∃ s, (machine 2 2 1 ℕ).run orderlyRun = some s ∧
    (s.readers 0).received = [![1, 2], ![3, 4]] ∧ NeitherTearsNorWedges s := by
  have hsome : ((machine 2 2 1 ℕ).run orderlyRun).any (fun s => decide
      ((s.readers 0).received = [![1, 2], ![3, 4]] ∧ s.log.length < 2 ^ 32)) = true := by
    decide +kernel
  obtain ⟨s, hs, hreceived, hcount⟩ := Machine.exists_of_any hsome
  exact ⟨s, hs, hreceived, neitherTearsNorWedges_of_guarded (by decide +kernel) hs hcount⟩

/-! ## A reader that is overtaken -/

/-- One reader is connected and `n` values, at most a lap, have been pushed. -/
def filled (n : ℕ) : State 1 1 1 ℕ :=
  { ring :=
      { cc := 1#32, ct := n, epoch := 0#8
        elems := fun i =>
          if i.val < n then ⟨⟨1#32, 1#24, 0#8⟩, committed i, fun _ => i⟩
          else ⟨⟨0#32, 0#24, 0#8⟩, 0, fun _ => 0⟩ }
    writers := fun _ => .idle
    readers := fun _ => ⟨1#32, 0, .idle, []⟩
    log := (List.range n).map fun i _ => i }

/-- The steps of one `push` that succeeds at the first attempt. -/
def pushSteps (i : Fin 1) (v : ℕ) : List (Action 1 1 1 ℕ) :=
  .push i (fun _ => v) :: List.replicate 10 (.writer i false)

/-- The ring fills, slot by slot. -/
theorem run_pushSteps {n : ℕ} (hn : n < 256) :
    (machine 1 1 1 ℕ).runFrom (filled n) (pushSteps 0 n) = some (filled (n + 1)) := by
  have hct : (n + 1) % 4294967296 = n + 1 := Nat.mod_eq_of_lt (by omega)
  have hidx : indexOf n = ⟨n, hn⟩ := Fin.ext (Nat.mod_eq_of_lt hn)
  have hword : Function.update (fun _ : Fin 1 => 0) 0 n = fun _ => n := by
    funext l
    rw [Subsingleton.elim l 0, Function.update_self]
  have helems : Function.update (filled n).ring.elems ⟨n, hn⟩
      ⟨⟨1#32, 1#24, 0#8⟩, committed n, fun _ => n⟩ = (filled (n + 1)).ring.elems := by
    funext i
    by_cases hi : i = ⟨n, hn⟩
    · subst hi
      rw [Function.update_self]
      exact (if_pos (Nat.lt_succ_self n)).symm
    · have hne : i.val ≠ n := fun h => hi (Fin.ext h)
      have hiff : i.val < n ↔ i.val < n + 1 := by omega
      rw [Function.update_of_ne hi]
      simp only [filled, hiff]
  have hlog : (filled n).log ++ [fun _ => n] = (filled (n + 1)).log := by
    simp only [filled, List.range_succ, List.map_append]
    rfl
  simp only [filled] at helems hlog
  simp only [pushSteps, List.replicate, Machine.runFrom, machine, step]
  simp [filled, WriterPc.atRest, State.withWriter, writerStep, logged, ElemArray.slot, hidx,
    ElemArray.setRc, ElemArray.setWord, ElemArray.setFlag, hct, hword, helems, hlog]

/-- Pushing the numbers below `n`. -/
def fillSteps (i : Fin 1) (n : ℕ) : List (Action 1 1 1 ℕ) :=
  (List.range n).flatMap (pushSteps i)

theorem run_fillSteps {n : ℕ} (hn : n ≤ 256) :
    (machine 1 1 1 ℕ).runFrom (filled 0) (fillSteps 0 n) = some (filled n) := by
  induction n with
  | zero => rfl
  | succ n ih =>
      rw [fillSteps, List.range_succ, List.flatMap_append, Machine.runFrom_append]
      refine ⟨filled n, ih (by omega), ?_⟩
      rw [List.flatMap_singleton]
      exact run_pushSteps (by omega)

/-- The steps of one `force_push`. -/
def overtakingSteps (i : Fin 1) : List (Action 1 1 1 ℕ) :=
  .forcePush i (fun _ => 256) :: List.replicate 9 (.writer i false)

/-- Push 256 takes the slot of push 0, and the reader at cursor 0 compares its flag with that of
push 0 from then on. -/
theorem wedged_overtaken : ¬ ∀ (actions : List (Action 1 1 1 ℕ)) (s : State 1 1 1 ℕ),
    (machine 1 1 1 ℕ).run actions = some s → s.log.length < 2 ^ 32 →
      NeitherTearsNorWedges s := by
  intro hall
  have hconnect : (machine 1 1 1 ℕ).run [.connect 0, .reader 0 false] = some (filled 0) := by
    have hreaders : ∀ rd : Reader 1 ℕ, Function.update (fun _ : Fin 1 => rd) 0 ⟨1#32, 0, .idle, []⟩
        = fun _ => ⟨1#32, 0, .idle, []⟩ := by
      intro rd
      funext r
      rw [Subsingleton.elim r 0, Function.update_self]
    simp [Machine.run, Machine.runFrom, machine, step, init, filled, Reader.atRest, connectStart,
      ElemArray.isConnected, Ring.connHeadConnect, State.withReader, readerStep, hreaders]
  have hend : ((machine 1 1 1 ℕ).runFrom (filled 256) (overtakingSteps 0)).any (fun s => decide
      ((∀ i, (s.writers i).atRest) ∧ (s.readers 0).atRest ∧
        s.ring.isConnected (s.readers 0).connected ∧ (s.readers 0).cursor ≠ s.ring.ct ∧
        (s.ring.slot (s.readers 0).cursor).flag ≠ committed (s.readers 0).cursor ∧
        s.log.length < 2 ^ 32)) = true := by
    decide +kernel
  cases hover : (machine 1 1 1 ℕ).runFrom (filled 256) (overtakingSteps 0) with
  | none =>
      rw [hover] at hend
      cases hend
  | some s =>
      rw [hover] at hend
      obtain ⟨hwriters, hrest, hconn, hne, hflag, hcount⟩ := of_decide_eq_true hend
      have hrun : (machine 1 1 1 ℕ).run
          ([.connect 0, .reader 0 false] ++ (fillSteps 0 256 ++ overtakingSteps 0)) = some s := by
        rw [Machine.run, Machine.runFrom_append]
        refine ⟨filled 0, hconnect, ?_⟩
        rw [Machine.runFrom_append]
        exact ⟨filled 256, run_fillSteps (Nat.le_refl _), hover⟩
      have hpop := (hall _ s hrun hcount).2 hwriters 0 hrest hconn hne
      exact hflag ((popReturns_iff (idle_of_atRest hrest) hconn).mp hpop)

end DzIpc.LibIpc.MultiRing
