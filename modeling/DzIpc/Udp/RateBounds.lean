import DzIpc.Udp.RateLimit
import Mathlib.Data.List.Induction

/-!
# The range of an adaptive rate

A node under a fixed process-wide limit sends one message after another; each asks for the rate
and most report back what was lost.

* `Steady` holds after every message, whatever the limit is: the rate does not pass the limit and
  `α` stays in its scale.
* `rate_in_range_iff`: the rate also stays above zero and above its static floor, in all runs, if
  and only if the limit is at least two bytes a second and one step above it still fits 64 bits.
  At one byte a second both floors are zero and the first cut turns the limiter off; next to
  `2 ^ 64` the first step up wraps around.
* `congestion_slows_iff`: a message with losses that are not scattered does not raise the rate if
  and only if the rate was not below the floor of this message's length.
-/

namespace DzIpc.Udp

open Wire

/-! ## Messages one after another -/

/-- A message of the node: the rate its options name, and what it reports, if the call comes to
that. -/
structure RateMessage where
  optionsBps : ℕ
  feedback : Option Feedback
  deriving DecidableEq, Repr

/-- `effective_rate_bps`, and at the end of the call `adapt_rate_dctcp`. -/
def RateMessage.process (global : ℕ) (st : RateLimitState) (m : RateMessage) : RateLimitState :=
  let st := (effectiveRateBps global m.optionsBps st).2
  match m.feedback with
  | none => st
  | some fb => adaptRateDctcp global st fb

/-- The state of the node after these messages. -/
def rateAfter (global : ℕ) (messages : List RateMessage) : RateLimitState :=
  messages.foldl (RateMessage.process global) .initial

/-- The page count is one `valid_chunk_meta` accepts. -/
def Feedback.Valid (fb : Feedback) : Prop :=
  ∃ tail, validChunkMeta tail = true ∧ tail.pageCnt = fb.pageCnt

/-- The page counts of the message are. -/
def RateMessage.Valid (m : RateMessage) : Prop :=
  ∀ fb ∈ m.feedback, fb.Valid

theorem Feedback.Valid.pages {fb : Feedback} (h : fb.Valid) : 1 ≤ fb.pageCnt.toNat := by
  obtain ⟨tail, hvalid, hcnt⟩ := h
  have hmeta : ChunkMeta.Valid
      { pageCnt := tail.pageCnt, totalSize := tail.totalSize, msgId := tail.msgId, sequence := 0 } :=
    valid_of_validChunkMeta hvalid ⟨rfl, rfl, rfl⟩
  rw [← hcnt]
  exact hmeta.pages

/-! ## What every message keeps -/

/-- The rate and the two forms of `α` are in range, and the rate has not become "unlimited". -/
structure RateLimitState.InRange (global : ℕ) (st : RateLimitState) : Prop where
  positive : 0 < st.bps
  le_global : st.bps ≤ global
  floor_le : global / 32 ≤ st.bps
  alphaScaled : st.alphaScaled ≤ 256
  alphaAccum : st.alphaAccum ≤ 4096

/-- What holds of a seeded state under every limit. -/
structure RateLimitState.Steady (global : ℕ) (st : RateLimitState) : Prop where
  initialBps : st.initialBps = global
  staticFloorBps : st.staticFloorBps = global / 32
  le_global : st.bps ≤ global
  alphaScaled : st.alphaScaled ≤ 256
  alphaAccum : st.alphaAccum ≤ 4096
  delayed : ∀ f ∈ st.tauDelayBuf, f ≤ 256

namespace RateLimitState

variable {global : ℕ} {st : RateLimitState} {fb : Feedback}

/-- The shares in the delay line are shares, and so is what comes out of it. -/
theorem delayed_le {fScaled d : ℕ} (hbuf : ∀ f ∈ st.tauDelayBuf, f ≤ 256)
    (hscaled : fScaled ≤ 256) :
    (st.delayed d fScaled).1 ≤ 256 ∧ (∀ f ∈ (st.delayed d fScaled).2.tauDelayBuf, f ≤ 256) ∧
      (st.delayed d fScaled).2.alphaAccum = st.alphaAccum := by
  unfold delayed
  dsimp only
  split
  · exact ⟨hscaled, hbuf, rfl⟩
  · refine ⟨?_, ?_, rfl⟩
    · rw [List.getD_eq_getElem?_getD]
      cases hslot : st.tauDelayBuf[(st.tauDelayHead + maxTauDelayRounds
          - min d maxTauDelayRounds) % maxTauDelayRounds]? with
      | none => exact Nat.zero_le _
      | some f => exact hbuf f (List.mem_of_getElem? hslot)
    · intro f hf
      rcases List.mem_or_eq_of_mem_set hf with hold | rfl
      · exact hbuf f hold
      · exact hscaled

theorem Steady.heard (h : st.Steady global) (fb : Feedback) : (st.heard fb).2.Steady global := by
  obtain ⟨hle, hbuf, haccum⟩ := delayed_le (d := fb.delayRounds) h.delayed
    (Nat.min_le_right fb.fMaxScaled 256)
  have hsmooth : (st.heard fb).2.alphaAccum ≤ 4096 := by
    rw [heard_eq]
    exact smooth_le ((Nat.le_of_eq haccum).trans h.alphaAccum) hle
  have hscaled : (st.heard fb).2.alphaScaled = (st.heard fb).2.alphaAccum / 16 := by
    rw [heard_eq]
    exact smooth_alphaScaled _ _
  have hline : (st.heard fb).2.tauDelayBuf
      = (st.delayed fb.delayRounds (min fb.fMaxScaled 256)).2.tauDelayBuf := by
    rw [heard_eq, smooth_tauDelayBuf]
  exact
    { initialBps := (st.heard_initialBps fb).trans h.initialBps
      staticFloorBps := (st.heard_staticFloorBps fb).trans h.staticFloorBps
      le_global := (Nat.le_of_eq (st.heard_bps fb)).trans h.le_global
      alphaScaled := by omega
      alphaAccum := hsmooth
      delayed := fun f hf => hbuf f (hline ▸ hf) }

/-- A cut never goes below zero. -/
theorem Steady.drop_le (h : st.Steady global) (hon : 0 < st.bps) (fb : Feedback) :
    st.drop fb ≤ st.bps := by
  have hscaled := h.alphaScaled
  unfold drop
  apply rateDrop_le hon
  split
  · decide
  · omega

theorem Steady.heard_drop_le (h : st.Steady global) (hon : 0 < st.bps) (fb : Feedback) :
    (st.heard fb).2.drop fb ≤ st.bps := by
  have hdrop := (h.heard fb).drop_le (by rwa [heard_bps]) fb
  rwa [heard_bps] at hdrop

theorem Steady.floorFor_le (h : st.Steady global) (hglobal : 0 < global) (pageCnt : UInt16) :
    st.floorFor global pageCnt ≤ global := by
  have hwindow := windowFloorBps_le hglobal pageCnt
  have hstatic := h.staticFloorBps
  unfold floorFor
  omega

/-- The rate after a cut: no more than it was, or the floor. -/
theorem Steady.cut_le (h : st.Steady global) (hglobal : 0 < global) (hfits : global < 2 ^ 64)
    (hon : 0 < st.bps) (fb : Feedback) :
    max (st.floorFor global fb.pageCnt) (sub64 st.bps ((st.heard fb).2.drop fb)) ≤ global := by
  have hfloor := h.floorFor_le hglobal fb.pageCnt
  have hle := h.le_global
  rw [sub64_of_le (h.heard_drop_le hon fb) (by omega)]
  omega

/-- **One message**, under every limit. -/
theorem Steady.adapt (h : st.Steady global) (hglobal : 0 < global) (hfits : global < 2 ^ 64)
    (fb : Feedback) : (adaptRateDctcp global st fb).Steady global := by
  by_cases hon : st.bps = 0
  · rwa [adaptRateDctcp_off hon]
  · have hheard := h.heard fb
    obtain ⟨haccum, hscaled, hbuf⟩ := adaptRateDctcp_heard global fb hon
    have hle : (adaptRateDctcp global st fb).bps ≤ global := by
      by_cases hloss : 0 < (st.heard fb).1
      · rw [adaptRateDctcp_lossy global hon hloss]
        split
        · exact (Nat.min_le_left _ _).trans (Nat.le_of_eq h.initialBps)
        · exact h.cut_le hglobal hfits (Nat.pos_of_ne_zero hon) fb
      · have hzero : (st.heard fb).1 = 0 := Nat.eq_zero_of_not_pos hloss
        by_cases hrise : fb.clean = true ∧ minPagesForRateSignal ≤ fb.pageCnt.toNat ∧
            (st.heard fb).2.alphaAccum / 16 ≤ 1
        · rw [adaptRateDctcp_rise global hon hzero hrise.1 hrise.2.1 hrise.2.2]
          exact (Nat.min_le_left _ _).trans (Nat.le_of_eq h.initialBps)
        · rw [adaptRateDctcp_keep global hon hzero hrise]
          exact h.le_global
    exact
      { initialBps := adaptRateDctcp_initialBps.trans h.initialBps
        staticFloorBps := adaptRateDctcp_staticFloorBps.trans h.staticFloorBps
        le_global := hle
        alphaScaled := (Nat.le_of_eq hscaled).trans hheard.alphaScaled
        alphaAccum := (Nat.le_of_eq haccum).trans hheard.alphaAccum
        delayed := fun f hf => hheard.delayed f (hbuf ▸ hf) }

/-- The rate is above zero and above its static floor. -/
structure AboveFloor (global : ℕ) (st : RateLimitState) : Prop where
  positive : 0 < st.bps
  floor_le : global / 32 ≤ st.bps

/-- Where a message has a page, its floor is above zero and above the static one. -/
theorem Steady.floorFor_ge (h : st.Steady global) (hglobal : 2 ≤ global) {pageCnt : UInt16}
    (hpages : 1 ≤ pageCnt.toNat) :
    1 ≤ st.floorFor global pageCnt ∧ global / 32 ≤ st.floorFor global pageCnt := by
  have hwindow := windowFloorBps_pos hglobal hpages
  have hstatic := h.staticFloorBps
  unfold floorFor
  omega

/-- A step up that does not wrap around stays above the floor. -/
theorem Steady.step_up (h : st.Steady global) (hglobal : 2 ≤ global)
    (hstep : global + max 1 (global / 320) < 2 ^ 64) {bps : ℕ} (hle : bps ≤ global)
    (hpos : 0 < bps) (hfloor : global / 32 ≤ bps) :
    0 < min st.initialBps (u64 (bps + st.incStep)) ∧
      global / 32 ≤ min st.initialBps (u64 (bps + st.incStep)) := by
  have hinit := h.initialBps
  have hdiv : global / 32 ≤ global := Nat.div_le_self _ _
  rw [incStep_eq, hinit, u64_of_lt (by omega)]
  omega

/-- **One message**, under a limit that leaves room on both sides. -/
theorem Steady.adapt_above (h : st.Steady global) (hglobal : 2 ≤ global)
    (hstep : global + max 1 (global / 320) < 2 ^ 64) (habove : st.AboveFloor global)
    (hvalid : fb.Valid) : (adaptRateDctcp global st fb).AboveFloor global := by
  have hon : st.bps ≠ 0 := Nat.ne_of_gt habove.positive
  have hfloor := h.floorFor_ge hglobal hvalid.pages
  by_cases hloss : 0 < (st.heard fb).1
  · have hcut := h.cut_le (by omega) (by omega) habove.positive fb
    have hbps := adaptRateDctcp_lossy global hon hloss
    split at hbps
    · have hup := h.step_up hglobal hstep hcut (by omega) (by omega)
      exact ⟨hbps ▸ hup.1, hbps ▸ hup.2⟩
    · exact ⟨by omega, by omega⟩
  · have hzero : (st.heard fb).1 = 0 := Nat.eq_zero_of_not_pos hloss
    by_cases hrise : fb.clean = true ∧ minPagesForRateSignal ≤ fb.pageCnt.toNat ∧
        (st.heard fb).2.alphaAccum / 16 ≤ 1
    · have hbps := adaptRateDctcp_rise global hon hzero hrise.1 hrise.2.1 hrise.2.2
      have hup := h.step_up hglobal hstep h.le_global habove.positive habove.floor_le
      exact ⟨hbps ▸ hup.1, hbps ▸ hup.2⟩
    · have hbps := adaptRateDctcp_keep global hon hzero hrise
      exact ⟨hbps ▸ habove.positive, hbps ▸ habove.floor_le⟩

theorem steady_seed (global : ℕ) (hbuf : ∀ f ∈ st.tauDelayBuf, f ≤ 256) :
    (st.seed global).Steady global where
  initialBps := rfl
  staticFloorBps := rfl
  le_global := Nat.le_refl _
  alphaScaled := Nat.zero_le _
  alphaAccum := Nat.zero_le _
  delayed := hbuf

end RateLimitState

/-! ## Runs -/

section Runs

variable {global : ℕ}

/-- What the rate of a message is taken from: a state nobody has seeded, or a steady one. -/
def RateLimitState.Reached (global : ℕ) (st : RateLimitState) : Prop :=
  st = .initial ∨ st.Steady global

theorem effectiveRateBps_steady {st : RateLimitState} (h : st.Steady global) (optionsBps : ℕ) :
    (effectiveRateBps global optionsBps st).2 = st := by
  unfold effectiveRateBps
  split
  · rfl
  · split
    · rfl
    · dsimp only
      rw [if_neg (not_not.mpr h.initialBps)]

/-- Asking for the rate seeds a state that is not seeded, unless the options name a rate. -/
theorem effectiveRateBps_initial (hglobal : 0 < global) (optionsBps : ℕ) :
    (effectiveRateBps global optionsBps .initial).2 = .initial ∨
      (effectiveRateBps global optionsBps .initial).2 = RateLimitState.initial.seed global := by
  unfold effectiveRateBps
  split
  · exact Or.inl rfl
  · right
    dsimp only
    have hunseeded : RateLimitState.initial.initialBps ≠ global := Nat.ne_of_lt hglobal
    rw [if_neg (Nat.ne_of_gt hglobal), if_pos hunseeded]

theorem steady_seed_initial (global : ℕ) : (RateLimitState.initial.seed global).Steady global := by
  apply RateLimitState.steady_seed
  intro f hf
  rw [List.eq_of_mem_replicate hf]
  exact Nat.zero_le _

/-- **One message** of a run. -/
theorem RateMessage.process_reached (hglobal : 0 < global) (hfits : global < 2 ^ 64)
    {st : RateLimitState} (h : st.Reached global) (m : RateMessage) :
    (m.process global st).Reached global := by
  have hrate : (effectiveRateBps global m.optionsBps st).2.Reached global := by
    rcases h with rfl | h
    · rcases effectiveRateBps_initial hglobal m.optionsBps with heq | heq
      · exact Or.inl heq
      · exact Or.inr (heq ▸ steady_seed_initial global)
    · rw [effectiveRateBps_steady h]
      exact Or.inr h
  unfold process
  dsimp only
  split
  · exact hrate
  · rename_i fb _
    rcases hrate with hrate | hrate
    · rw [hrate]
      exact Or.inl (adaptRateDctcp_off rfl)
    · exact Or.inr (hrate.adapt hglobal hfits fb)

/-- **Runs**, under every limit. -/
theorem reached_rateAfter (hglobal : 0 < global) (hfits : global < 2 ^ 64)
    (messages : List RateMessage) : (rateAfter global messages).Reached global := by
  unfold rateAfter
  induction messages using List.reverseRecOn with
  | nil => exact Or.inl rfl
  | append_singleton messages m ih =>
      rw [List.foldl_append]
      exact m.process_reached hglobal hfits ih

/-- **One message** of a run, under a limit that leaves room on both sides. -/
theorem RateMessage.process_above (hglobal : 2 ≤ global)
    (hstep : global + max 1 (global / 320) < 2 ^ 64) {st : RateLimitState}
    (h : st.Reached global) (habove : st.initialBps ≠ 0 → st.AboveFloor global) {m : RateMessage}
    (hvalid : m.Valid) (hon : (m.process global st).initialBps ≠ 0) :
    (m.process global st).AboveFloor global := by
  have hdiv : global / 32 ≤ global := Nat.div_le_self _ _
  have hrate : (effectiveRateBps global m.optionsBps st).2 = .initial ∨
      (effectiveRateBps global m.optionsBps st).2.Steady global ∧
        (effectiveRateBps global m.optionsBps st).2.AboveFloor global := by
    rcases h with rfl | h
    · rcases effectiveRateBps_initial (Nat.lt_of_lt_of_le (by decide) hglobal) m.optionsBps
        with heq | heq
      · exact Or.inl heq
      · rw [heq]
        exact Or.inr ⟨steady_seed_initial global, Nat.lt_of_lt_of_le (by decide) hglobal, hdiv⟩
    · rw [effectiveRateBps_steady h]
      exact Or.inr ⟨h, habove (by rw [h.initialBps]; omega)⟩
  unfold process at hon ⊢
  dsimp only at hon ⊢
  split at hon
  · rename_i hnone
    rcases hrate with heq | ⟨-, hrate⟩
    · rw [heq] at hon
      exact absurd rfl hon
    · exact hrate
  · rename_i fb hfb
    rcases hrate with heq | ⟨hsteady, hrate⟩
    · rw [heq, adaptRateDctcp_off rfl] at hon
      exact absurd rfl hon
    · exact hsteady.adapt_above hglobal hstep hrate (hvalid fb hfb)

/-- **Runs**, under a limit that leaves room on both sides. -/
theorem above_rateAfter (hglobal : 2 ≤ global) (hstep : global + max 1 (global / 320) < 2 ^ 64)
    {messages : List RateMessage} (hvalid : ∀ m ∈ messages, m.Valid) :
    (rateAfter global messages).initialBps ≠ 0 → (rateAfter global messages).AboveFloor global := by
  induction messages using List.reverseRecOn with
  | nil => exact fun hon => absurd rfl hon
  | append_singleton messages m ih =>
      have hreached : (rateAfter global messages).Reached global :=
        reached_rateAfter (by omega) (by omega) messages
      have hbefore := ih fun m hm => hvalid m (List.mem_append_left _ hm)
      intro hon
      unfold rateAfter at hon hreached hbefore ⊢
      rw [List.foldl_append] at hon ⊢
      exact RateMessage.process_above hglobal hstep hreached hbefore
        (hvalid m (List.mem_append_right _ (List.mem_singleton_self m))) hon

/-- A message under the process-wide limit that reports back. -/
def reporting (fb : Feedback) : RateMessage where
  optionsBps := 0
  feedback := some fb

/-- All pages of a one-page message lost. -/
def allLost : Feedback where
  pageCnt := 1
  fMaxScaled := 256
  clean := false
  atFloorTimeout := false
  observedBps := 0
  runsFirst := 0
  lostFirst := 0
  delayRounds := 0

/-- An eight-page message without losses. -/
def noneLost : Feedback where
  pageCnt := 8
  fMaxScaled := 0
  clean := true
  atFloorTimeout := false
  observedBps := 0
  runsFirst := 0
  lostFirst := 0
  delayRounds := 0

theorem allLost_valid : (reporting allLost).Valid := by
  intro fb hfb
  cases hfb
  exact ⟨{ pageCnt := 1, nowPage := 1, totalSize := 1472, msgId := 0 }, by decide, rfl⟩

theorem noneLost_valid : (reporting noneLost).Valid := by
  intro fb hfb
  cases hfb
  exact ⟨{ pageCnt := 8, nowPage := 1, totalSize := 11776, msgId := 0 }, by decide, rfl⟩

theorem rateAfter_reporting (hglobal : 0 < global) (fb : Feedback) :
    rateAfter global [reporting fb]
      = adaptRateDctcp global (RateLimitState.initial.seed global) fb := by
  have hunseeded : RateLimitState.initial.initialBps ≠ global := Nat.ne_of_lt hglobal
  have hseed : (effectiveRateBps global 0 .initial).2 = RateLimitState.initial.seed global := by
    unfold effectiveRateBps
    dsimp only
    rw [if_neg (not_not.mpr rfl), if_neg (Nat.ne_of_gt hglobal), if_pos hunseeded]
  unfold rateAfter
  rw [List.foldl_cons, List.foldl_nil, RateMessage.process, reporting, hseed]

/-- At one byte a second the first loss turns the limiter off. -/
theorem rateAfter_allLost : (rateAfter 1 [reporting allLost]).bps = 0 := by
  decide +kernel

/-- Where one step above the limit leaves 64 bits, the first step up wraps around. -/
theorem rateAfter_noneLost (hfits : global < 2 ^ 64)
    (hstep : 2 ^ 64 ≤ global + max 1 (global / 320)) :
    (rateAfter global [reporting noneLost]).bps < global / 32 := by
  have hon : (RateLimitState.initial.seed global).bps ≠ 0 := by
    change global ≠ 0
    omega
  have hheard : (RateLimitState.initial.seed global).heard noneLost
      = (0, (RateLimitState.initial.seed global).smooth 0) :=
    RateLimitState.heard_now _ rfl
  have halpha : ((RateLimitState.initial.seed global).smooth 0).alphaAccum = 0 := by
    have hnext : (((RateLimitState.initial.seed global).smooth 0).alphaAccum : ℤ)
        = Smoothing.next 16 (16 * (0 : ℕ)) (0 : ℕ) :=
      RateLimitState.smooth_alphaAccum (Nat.zero_le _) (Nat.zero_le _)
    exact Int.ofNat_inj.mp hnext
  have hbps : (rateAfter global [reporting noneLost]).bps
      = min global (u64 (global + max 1 (global / 320))) := by
    rw [rateAfter_reporting (by omega), adaptRateDctcp_rise global hon (by rw [hheard]) rfl
      (by decide) (by rw [hheard, halpha]; decide), RateLimitState.incStep_eq]
    rfl
  rw [hbps]
  unfold u64
  omega

end Runs

/-- Every state of a run under this limit in which the limiter is on is in range, and no message
could make a cut larger than the rate. -/
def StaysInRange (global : ℕ) : Prop :=
  ∀ messages : List RateMessage, (∀ m ∈ messages, m.Valid) →
    (rateAfter global messages).initialBps ≠ 0 →
      (rateAfter global messages).InRange global ∧
        ∀ fb : Feedback, fb.Valid →
          ((rateAfter global messages).heard fb).2.drop fb ≤ (rateAfter global messages).bps

/-- **The range of the rate.** -/
theorem rate_in_range_iff (limit : UInt64) (hlimit : limit ≠ 0) :
    StaysInRange limit.toNat
      ↔ 2 ≤ limit.toNat ∧ limit.toNat + max 1 (limit.toNat / 320) < 2 ^ 64 := by
  have hpos : 0 < limit.toNat :=
    Nat.pos_of_ne_zero fun h => hlimit (UInt64.toNat_inj.mp h)
  have hfits : limit.toNat < 2 ^ 64 := limit.toNat_lt
  constructor
  · intro h
    constructor
    · -- one byte a second: the first loss
      by_contra hone
      have heq : limit.toNat = 1 := by omega
      rw [heq] at h
      obtain ⟨hrange, -⟩ := h [reporting allLost]
        (fun m hm => List.mem_singleton.mp hm ▸ allLost_valid) (by decide +kernel)
      exact Nat.ne_of_gt hrange.positive rateAfter_allLost
    · -- next to 2 ^ 64: the first message without losses
      by_contra hwrap
      have hon : (rateAfter limit.toNat [reporting noneLost]).initialBps ≠ 0 := by
        rw [rateAfter_reporting hpos, adaptRateDctcp_initialBps]
        exact Nat.ne_of_gt hpos
      obtain ⟨hrange, -⟩ := h [reporting noneLost]
        (fun m hm => List.mem_singleton.mp hm ▸ noneLost_valid) hon
      have hbelow := rateAfter_noneLost hfits (Nat.le_of_not_lt hwrap)
      exact Nat.not_lt.mpr hrange.floor_le hbelow
  · rintro ⟨htwo, hstep⟩ messages hvalid hon
    have habove := above_rateAfter htwo hstep hvalid hon
    rcases reached_rateAfter hpos hfits messages with hinit | hsteady
    · rw [hinit] at hon
      exact absurd rfl hon
    · exact ⟨⟨habove.positive, hsteady.le_global, habove.floor_le, hsteady.alphaScaled,
        hsteady.alphaAccum⟩, fun fb _ => hsteady.heard_drop_le habove.positive fb⟩

/-- At twenty megabytes a second. -/
theorem rate_in_range_iff_20MB :
    StaysInRange (20000000 : UInt64).toNat
      ↔ 2 ≤ (20000000 : UInt64).toNat
        ∧ (20000000 : UInt64).toNat + max 1 ((20000000 : UInt64).toNat / 320) < 2 ^ 64 :=
  rate_in_range_iff 20000000 (by decide)

/-- One message, all of it lost, and the limiter of a node under a limit of one byte a second
reads "unlimited". -/
theorem rate_not_in_range :
    ¬ ∀ limit : UInt64, limit ≠ 0 → StaysInRange limit.toNat := by
  intro h
  obtain ⟨hrange, -⟩ := h 1 (by decide) [reporting allLost]
    (fun m hm => List.mem_singleton.mp hm ▸ allLost_valid) (by decide +kernel)
  exact Nat.ne_of_gt hrange.positive rateAfter_allLost

/-! ## A message with losses -/

/-- **Congestion.**  In a state of a run, a message with losses that are not scattered does not
raise the rate if and only if the limiter is off or the rate is not below the message's floor. -/
theorem congestion_slows_iff (limit : UInt64) (hlimit : limit ≠ 0) (messages : List RateMessage)
    (fb : Feedback) (hloss : 0 < fb.fMaxScaled) (hdelay : fb.delayRounds = 0)
    (hscattered : fb.runsRandom = false) :
    (adaptRateDctcp limit.toNat (rateAfter limit.toNat messages) fb).bps
        ≤ (rateAfter limit.toNat messages).bps
      ↔ (rateAfter limit.toNat messages).bps = 0 ∨
        (rateAfter limit.toNat messages).floorFor limit.toNat fb.pageCnt
          ≤ (rateAfter limit.toNat messages).bps := by
  have hpos : 0 < limit.toNat :=
    Nat.pos_of_ne_zero fun h => hlimit (UInt64.toNat_inj.mp h)
  rcases reached_rateAfter hpos limit.toNat_lt messages with hinit | hsteady
  · rw [hinit, adaptRateDctcp_off rfl]
    exact iff_of_true (Nat.le_refl _) (Or.inl rfl)
  · set st := rateAfter limit.toNat messages with hst
    by_cases hon : st.bps = 0
    · rw [adaptRateDctcp_off hon]
      exact iff_of_true (Nat.le_refl _) (Or.inl hon)
    · have hshare : 0 < (st.heard fb).1 := by
        rw [st.heard_now hdelay]
        exact Nat.lt_min.mpr ⟨hloss, by decide⟩
      have hdrop := hsteady.heard_drop_le (Nat.pos_of_ne_zero hon) fb
      have hfits : st.bps < 2 ^ 64 := Nat.lt_of_le_of_lt hsteady.le_global limit.toNat_lt
      rw [adaptRateDctcp_lossy limit.toNat hon hshare, hscattered, if_neg Bool.false_ne_true,
        sub64_of_le hdrop hfits]
      constructor
      · exact fun hle => Or.inr ((Nat.le_max_left _ _).trans hle)
      · intro hfloor
        exact Nat.max_le.mpr ⟨hfloor.resolve_left hon, Nat.sub_le _ _⟩

/-- A message of the greatest length that lost one page in two hundred and fifty-six. -/
def longLost : Feedback where
  pageCnt := 45590
  fMaxScaled := 1
  clean := false
  atFloorTimeout := false
  observedBps := 0
  runsFirst := 0
  lostFirst := 0
  delayRounds := 0

theorem congestion_slows_iff_long :
    (adaptRateDctcp (20000000 : UInt64).toNat
        (rateAfter (20000000 : UInt64).toNat [reporting allLost]) longLost).bps
        ≤ (rateAfter (20000000 : UInt64).toNat [reporting allLost]).bps
      ↔ (rateAfter (20000000 : UInt64).toNat [reporting allLost]).bps = 0 ∨
        (rateAfter (20000000 : UInt64).toNat [reporting allLost]).floorFor
          (20000000 : UInt64).toNat longLost.pageCnt
          ≤ (rateAfter (20000000 : UInt64).toNat [reporting allLost]).bps :=
  congestion_slows_iff 20000000 (by decide) [reporting allLost] longLost (by decide) rfl rfl

/-- A one-page message brings the rate down to 19375000; a long one that also lost pages brings it
up to its floor, 19925320. -/
theorem congestion_speeds_up :
    (rateAfter 20000000 [reporting allLost]).bps = 19375000 ∧
      (adaptRateDctcp 20000000 (rateAfter 20000000 [reporting allLost]) longLost).bps
        = 19925320 ∧
      (∃ tail, validChunkMeta tail = true ∧ tail.pageCnt = longLost.pageCnt) ∧
      0 < longLost.fMaxScaled ∧ longLost.delayRounds = 0 ∧ longLost.runsRandom = false := by
  refine ⟨by decide +kernel, by decide +kernel, ?_, by decide, rfl, rfl⟩
  exact ⟨{ pageCnt := 45590, nowPage := 1, totalSize := 67108480, msgId := 0 }, by decide, rfl⟩

end DzIpc.Udp
