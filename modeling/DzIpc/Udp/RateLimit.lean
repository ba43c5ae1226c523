import DzIpc.Library.Smoothing
import DzIpc.Udp.Page

/-!
# The rate of a sending node

A node that sends under the process-wide limit keeps a rate of its own and moves it once a
message, by the share of pages the worst receiver reported lost.  `effective_rate_bps` seeds the
state from the limit; `adapt_rate_dctcp` smooths the share into `α`, cuts the rate by half of `α`
down to a floor, and raises it by a fixed step after messages without loss.

The counters and gauges of the fragment tracker are left out: they are written and not read.

* `windowFloorBps_le` and `windowFloorBps_pos`: the floor a message's own length asks for is below
  the limit, and above zero unless the limit is one byte a second.
* `heard_smooths` says what a message does to `α`, `rateDrop_le` that a cut takes no more than
  there is.
* `adaptRateDctcp_lossy`, `adaptRateDctcp_rise` and `adaptRateDctcp_keep` are the three ways a
  message ends.
-/

namespace DzIpc.Udp

open Wire

/-! ## Constants -/

/-- `kCleanMessagesPerIncrement`. -/
def cleanMessagesPerIncrement : ℕ := 3

/-- `kRateFloorDivisor`. -/
def rateFloorDivisor : ℕ := 32

/-- `kMinPagesForRateSignal`. -/
def minPagesForRateSignal : ℕ := 8

/-- `kRateRecoverAlpha`. -/
def rateRecoverAlpha : ℕ := 1

/-- `kRateRecoverAlphaSentinel`. -/
def rateRecoverAlphaSentinel : ℕ := 256

/-- `kRateRecoverStepDivisor`. -/
def rateRecoverStepDivisor : ℕ := 320

/-- `kRunsCaptureEnabled`: `kRatePlan3RunsOn < kRatePlan3Sentinel`. -/
def runsCaptureEnabled : Bool := 1 < 4096

/-- `kRatePlan3RunsRandom`. -/
def ratePlan3RunsRandom : ℕ := 579

/-- `kMaxTauDelayRounds`. -/
def maxTauDelayRounds : ℕ := 32

/-- The value of an unsigned 64-bit variable. -/
def u64 (n : ℕ) : ℕ := n % 2 ^ 64

/-- Unsigned 64-bit subtraction. -/
def sub64 (a b : ℕ) : ℕ := (a + 2 ^ 64 - b % 2 ^ 64) % 2 ^ 64

theorem u64_of_lt {n : ℕ} (hn : n < 2 ^ 64) : u64 n = n :=
  Nat.mod_eq_of_lt hn

theorem u64_le (n : ℕ) : u64 n ≤ n :=
  Nat.mod_le n _

theorem sub64_of_le {a b : ℕ} (hab : b ≤ a) (ha : a < 2 ^ 64) : sub64 a b = a - b := by
  unfold sub64
  omega

/-! ## The state -/

/-- `RateLimitState`. -/
structure RateLimitState where
  initialBps : ℕ
  bps : ℕ
  staticFloorBps : ℕ
  cleanCount : ℕ
  floorWarned : Bool
  alphaScaled : ℕ
  additiveStepBps : ℕ
  observedBpsLast : ℕ
  runsLast : ℕ
  lostLast : ℕ
  alphaAccum : ℕ
  tauDelayBuf : List ℕ
  tauDelayHead : ℕ
  deriving DecidableEq, Repr

/-- What one message tells `adapt_rate_dctcp`; `delayRounds` is what the environment variable
`DZIPC_TAU_DELAY_ROUNDS` says at the time. -/
structure Feedback where
  pageCnt : UInt16
  fMaxScaled : ℕ
  clean : Bool
  atFloorTimeout : Bool
  observedBps : ℕ
  runsFirst : ℕ
  lostFirst : ℕ
  delayRounds : ℕ
  deriving DecidableEq, Repr

namespace RateLimitState

/-- A state nobody has seeded. -/
def initial : RateLimitState where
  initialBps := 0
  bps := 0
  staticFloorBps := 0
  cleanCount := 0
  floorWarned := false
  alphaScaled := 0
  additiveStepBps := 0
  observedBpsLast := 0
  runsLast := 0
  lostLast := 0
  alphaAccum := 0
  tauDelayBuf := List.replicate maxTauDelayRounds 0
  tauDelayHead := 0

/-- The seed for a limit. -/
def seed (st : RateLimitState) (global : ℕ) : RateLimitState :=
  { st with
    initialBps := global
    bps := global
    staticFloorBps := global / rateFloorDivisor
    cleanCount := 0
    floorWarned := false
    alphaScaled := 0
    alphaAccum := 0
    additiveStepBps := max 1 (global / 16)
    observedBpsLast := 0
    runsLast := 0
    lostLast := 0 }

end RateLimitState

/-- `effective_rate_bps`: the rate of the next send, and the state after it. -/
def effectiveRateBps (global optionsBps : ℕ) (st : RateLimitState) : ℕ × RateLimitState :=
  if optionsBps ≠ 0 then (optionsBps, st)
  else if global = 0 then (0, st)
  else
    let st := if st.initialBps ≠ global then st.seed global else st
    (st.bps, st)

/-- `scaled_loss_fraction`. -/
def scaledLossFraction (count : ℕ) (pageCnt : UInt16) : ℕ :=
  if pageCnt = 0 then 0
  else min 256 (min count pageCnt.toNat * 256 / pageCnt.toNat)

/-- `rate_limited_transit_ms`.  No product here or below leaves 64 bits. -/
def rateLimitedTransitMs (global : ℕ) (pageCnt : UInt16) (bps : ℕ) : ℕ :=
  let bps := if bps = 0 then global else bps
  if bps = 0 then 0 else pageCnt.toNat * udpMaxSize * 1000 / bps

/-- `window_floor_bps`. -/
def windowFloorBps (global : ℕ) (pageCnt : UInt16) : ℕ :=
  let bytes := pageCnt.toNat * udpMaxSize
  let transitG := rateLimitedTransitMs global pageCnt 0
  let deadlineEstMs := max 50 (transitG + transitG / 2 + 20)
  bytes * 1500 / deadlineEstMs

/-! ## One message -/

/-- `runs_random`: the losses are scattered. -/
def Feedback.runsRandom (fb : Feedback) : Bool :=
  runsCaptureEnabled && 0 < fb.runsFirst && 0 < fb.lostFirst
    && u64 (fb.runsFirst * 1000) > u64 (ratePlan3RunsRandom * fb.lostFirst)

/-- `drop` of a rate. -/
def rateDrop (bps alphaEff : ℕ) : ℕ :=
  u64 (bps * alphaEff + 511) / 512

namespace RateLimitState

variable (st : RateLimitState)

/-- The delay line: the share that counts now, and the state after it. -/
def delayed (delayRounds fScaled : ℕ) : ℕ × RateLimitState :=
  let d := min delayRounds maxTauDelayRounds
  if d = 0 then (fScaled, st)
  else
    let slot := (st.tauDelayHead + maxTauDelayRounds - d) % maxTauDelayRounds
    (st.tauDelayBuf.getD slot 0,
      { st with
        tauDelayBuf := st.tauDelayBuf.set st.tauDelayHead fScaled
        tauDelayHead := (st.tauDelayHead + 1) % maxTauDelayRounds })

/-- The update of `alpha_accum` and `alpha_scaled`. -/
def smooth (fEwma : ℕ) : RateLimitState :=
  let accum := toU32 (st.alphaAccum + (i32 fEwma * 16 - i32 st.alphaAccum).tdiv 16)
  { st with alphaAccum := accum, alphaScaled := accum / 16 }

/-- The share of lost pages that counts for this message, and the state that has taken it in. -/
def heard (fb : Feedback) : ℕ × RateLimitState :=
  let line := st.delayed fb.delayRounds (min fb.fMaxScaled 256)
  (line.1, line.2.smooth line.1)

/-- `inc_step`. -/
def incStep : ℕ :=
  if rateRecoverAlpha ≥ rateRecoverAlphaSentinel then st.additiveStepBps
  else max 1 (st.initialBps / rateRecoverStepDivisor)

/-- The rise by one step, up to the initial rate. -/
def rise : RateLimitState :=
  { st with bps := min st.initialBps (u64 (st.bps + st.incStep)), cleanCount := 0 }

/-- `drop`, with `alpha_eff`. -/
def drop (fb : Feedback) : ℕ :=
  rateDrop st.bps (if fb.runsRandom then 1 else max st.alphaScaled 1)

/-- The branch for a message with losses. -/
def slowDown (floorBps : ℕ) (fb : Feedback) : RateLimitState :=
  let bps := max floorBps (sub64 st.bps (st.drop fb))
  let st := { st with
    bps := bps
    cleanCount := 0
    floorWarned := st.floorWarned || bps = floorBps }
  if fb.runsRandom then st.rise else st

/-- The last condition of the branch for a message without losses. -/
def recoverGate : Bool × RateLimitState :=
  if rateRecoverAlpha ≥ rateRecoverAlphaSentinel then
    (decide (st.cleanCount + 1 ≥ cleanMessagesPerIncrement),
      { st with cleanCount := u32 (st.cleanCount + 1) })
  else (decide (st.alphaAccum / 16 ≤ rateRecoverAlpha), st)

/-- What a message makes of the rate, once its share of losses has been taken in. -/
def moved (floorBps : ℕ) (atFloor : Bool) (fEwma : ℕ) (fb : Feedback) : RateLimitState :=
  if fEwma > 0 then st.slowDown floorBps fb
  else
    let (gate, st) :=
      if fb.clean ∧ fb.pageCnt.toNat ≥ minPagesForRateSignal then st.recoverGate else (false, st)
    if gate then st.rise
    else if fb.atFloorTimeout && atFloor && !st.floorWarned then { st with floorWarned := true }
    else st

end RateLimitState

/-- The floor of a message: `floor_bps`. -/
def RateLimitState.floorFor (st : RateLimitState) (global : ℕ) (pageCnt : UInt16) : ℕ :=
  max st.staticFloorBps (windowFloorBps global pageCnt)

/-- `adapt_rate_dctcp`. -/
def adaptRateDctcp (global : ℕ) (st : RateLimitState) (fb : Feedback) : RateLimitState :=
  if st.bps = 0 then st
  else
    let floorBps := st.floorFor global fb.pageCnt
    let atFloor : Bool := st.bps ≤ floorBps
    let heard := st.heard fb
    { heard.2.moved floorBps atFloor heard.1 fb with
      observedBpsLast := fb.observedBps
      runsLast := fb.runsFirst
      lostLast := fb.lostFirst }

/-! ## The floor of a message's length -/

/-- The estimate of the receiver's deadline covers the transit of the message and its margin. -/
theorem deadline_mul_ge (b global : ℕ) (hglobal : 0 < global) :
    b * 1500 ≤ global * max 50 (b * 1000 / global + b * 1000 / global / 2 + 20) := by
  set t := b * 1000 / global with ht
  have htransit : b * 1000 < global * (t + 1) := by
    rw [ht]
    exact Nat.lt_mul_div_succ (b * 1000) hglobal
  have hhalf : 3 * (t + 1) ≤ 2 * (t + t / 2 + 20) := by omega
  have hmul : global * (3 * (t + 1)) ≤ global * (2 * (t + t / 2 + 20)) :=
    Nat.mul_le_mul_left global hhalf
  have hmax : global * (t + t / 2 + 20) ≤ global * max 50 (t + t / 2 + 20) :=
    Nat.mul_le_mul_left global (Nat.le_max_right 50 _)
  have hthree : global * (3 * (t + 1)) = 3 * (global * (t + 1)) := Nat.mul_left_comm _ _ _
  have htwo : global * (2 * (t + t / 2 + 20)) = 2 * (global * (t + t / 2 + 20)) :=
    Nat.mul_left_comm _ _ _
  omega

theorem windowFloorBps_eq {global : ℕ} (hglobal : 0 < global) (pageCnt : UInt16) :
    windowFloorBps global pageCnt
      = pageCnt.toNat * udpMaxSize * 1500
        / max 50 (pageCnt.toNat * udpMaxSize * 1000 / global
          + pageCnt.toNat * udpMaxSize * 1000 / global / 2 + 20) := by
  unfold windowFloorBps rateLimitedTransitMs
  simp only [if_true, Nat.ne_of_gt hglobal, if_false]

/-- The window floor is never above the limit. -/
theorem windowFloorBps_le {global : ℕ} (hglobal : 0 < global) (pageCnt : UInt16) :
    windowFloorBps global pageCnt ≤ global := by
  rw [windowFloorBps_eq hglobal]
  apply Nat.div_le_of_le_mul
  rw [Nat.mul_comm _ global]
  exact deadline_mul_ge (pageCnt.toNat * udpMaxSize) global hglobal

/-- The window floor of a message with a page is not zero, from two bytes a second on. -/
theorem windowFloorBps_pos {global : ℕ} (hglobal : 2 ≤ global) {pageCnt : UInt16}
    (hpages : 1 ≤ pageCnt.toNat) : 1 ≤ windowFloorBps global pageCnt := by
  rw [windowFloorBps_eq (by omega)]
  apply Nat.div_pos
  · have htransit : pageCnt.toNat * udpMaxSize * 1000 / global
        ≤ pageCnt.toNat * udpMaxSize * 1000 / 2 := Nat.div_le_div_left hglobal (by decide)
    simp only [udpMaxSize] at htransit ⊢
    omega
  · exact Nat.lt_of_lt_of_le (by decide) (Nat.le_max_left 50 _)

/-! ## What a message does -/

namespace RateLimitState

variable (st : RateLimitState) (fb : Feedback)

theorem incStep_eq : st.incStep = max 1 (st.initialBps / 320) :=
  if_neg (by decide)

theorem recoverGate_eq : st.recoverGate = (decide (st.alphaAccum / 16 ≤ 1), st) :=
  if_neg (by decide)

/-- A cut, down to the floor, and a step up again where the losses are scattered. -/
theorem slowDown_bps (floorBps : ℕ) :
    (st.slowDown floorBps fb).bps
      = if fb.runsRandom then
          min st.initialBps (u64 (max floorBps (sub64 st.bps (st.drop fb)) + st.incStep))
        else max floorBps (sub64 st.bps (st.drop fb)) := by
  unfold slowDown
  by_cases hrandom : fb.runsRandom = true
  · simp only [if_pos hrandom, rise, incStep_eq]
  · simp only [if_neg hrandom]

/-- A step up where the gate is open. -/
theorem moved_rise {st : RateLimitState} {fb : Feedback} {floorBps : ℕ} {atFloor : Bool}
    (hclean : fb.clean = true) (hpages : minPagesForRateSignal ≤ fb.pageCnt.toNat)
    (hgate : st.alphaAccum / 16 ≤ 1) :
    (st.moved floorBps atFloor 0 fb).bps = min st.initialBps (u64 (st.bps + st.incStep)) := by
  unfold moved
  rw [if_neg (Nat.lt_irrefl 0), if_pos ⟨hclean, hpages⟩, recoverGate_eq, decide_eq_true hgate]
  simp only [if_true, rise]

/-- No step where it is not. -/
theorem moved_keep {st : RateLimitState} {fb : Feedback} {floorBps : ℕ} {atFloor : Bool}
    (hkeep : ¬ (fb.clean = true ∧ minPagesForRateSignal ≤ fb.pageCnt.toNat ∧
      st.alphaAccum / 16 ≤ 1)) :
    (st.moved floorBps atFloor 0 fb).bps = st.bps := by
  unfold moved
  rw [if_neg (Nat.lt_irrefl 0), recoverGate_eq]
  by_cases hlong : fb.clean = true ∧ fb.pageCnt.toNat ≥ minPagesForRateSignal
  · have hgate : ¬ st.alphaAccum / 16 ≤ 1 := fun hgate => hkeep ⟨hlong.1, hlong.2, hgate⟩
    simp only [if_pos hlong, decide_eq_false hgate, Bool.false_eq_true, if_false]
    split <;> rfl
  · simp only [if_neg hlong, Bool.false_eq_true, if_false]
    split <;> rfl

/-- Taking in a share changes `α` and the delay line only. -/
theorem heard_frame : ∃ fEwma accum scaled buf head,
    st.heard fb = (fEwma, { st with
      alphaAccum := accum, alphaScaled := scaled, tauDelayBuf := buf, tauDelayHead := head }) := by
  unfold heard delayed smooth
  dsimp only
  split
  · exact ⟨_, _, _, _, _, rfl⟩
  · exact ⟨_, _, _, _, _, rfl⟩

@[simp]
theorem heard_bps : (st.heard fb).2.bps = st.bps := by
  obtain ⟨_, _, _, _, _, h⟩ := st.heard_frame fb
  rw [h]

@[simp]
theorem heard_initialBps : (st.heard fb).2.initialBps = st.initialBps := by
  obtain ⟨_, _, _, _, _, h⟩ := st.heard_frame fb
  rw [h]

@[simp]
theorem heard_staticFloorBps : (st.heard fb).2.staticFloorBps = st.staticFloorBps := by
  obtain ⟨_, _, _, _, _, h⟩ := st.heard_frame fb
  rw [h]

@[simp]
theorem heard_incStep : (st.heard fb).2.incStep = st.incStep := by
  rw [incStep_eq, incStep_eq, heard_initialBps]

/-- `α` follows the share: a mean in integers, sixteen times as fine as the share is. -/
theorem smooth_alphaAccum {st : RateLimitState} {f : ℕ} (haccum : st.alphaAccum ≤ 4096)
    (hf : f ≤ 256) :
    ((st.smooth f).alphaAccum : ℤ) = Smoothing.next 16 (16 * f) st.alphaAccum := by
  have hshare : i32 f = f := i32_of_lt (by omega)
  have hold : i32 st.alphaAccum = st.alphaAccum := i32_of_lt (by omega)
  have hnext : (st.alphaAccum : ℤ) + (i32 f * 16 - i32 st.alphaAccum).tdiv 16
      = Smoothing.next 16 (16 * f) st.alphaAccum := by
    rw [hshare, hold, Int.mul_comm]
    rfl
  -- the mean lies between what it was and the share, so it fits the unsigned field
  have hrange : 0 ≤ Smoothing.next 16 (16 * f) (st.alphaAccum : ℤ)
      ∧ Smoothing.next 16 (16 * f) (st.alphaAccum : ℤ) ≤ 4096 := by
    rcases Int.le_total (st.alphaAccum : ℤ) (16 * f) with h | h
    · have hbetween := Smoothing.next_of_le (k := 16) h
      omega
    · have hbetween := Smoothing.next_of_ge (k := 16) h
      omega
  unfold smooth
  dsimp only
  rw [hnext, toU32]
  omega

theorem smooth_le {st : RateLimitState} {f : ℕ} (haccum : st.alphaAccum ≤ 4096) (hf : f ≤ 256) :
    (st.smooth f).alphaAccum ≤ 4096 := by
  have hnext := smooth_alphaAccum haccum hf
  rcases Int.le_total (st.alphaAccum : ℤ) (16 * f) with h | h
  · have hbetween := Smoothing.next_of_le (k := 16) h
    omega
  · have hbetween := Smoothing.next_of_ge (k := 16) h
    omega

theorem smooth_frame (f : ℕ) : ∃ accum,
    st.smooth f = { st with alphaAccum := accum, alphaScaled := accum / 16 } :=
  ⟨_, rfl⟩

theorem smooth_alphaScaled (f : ℕ) :
    (st.smooth f).alphaScaled = (st.smooth f).alphaAccum / 16 := by
  obtain ⟨_, h⟩ := st.smooth_frame f
  rw [h]

theorem smooth_tauDelayBuf (f : ℕ) : (st.smooth f).tauDelayBuf = st.tauDelayBuf := by
  obtain ⟨_, h⟩ := st.smooth_frame f
  rw [h]

theorem heard_eq : st.heard fb
    = ((st.delayed fb.delayRounds (min fb.fMaxScaled 256)).1,
        (st.delayed fb.delayRounds (min fb.fMaxScaled 256)).2.smooth
          (st.delayed fb.delayRounds (min fb.fMaxScaled 256)).1) := rfl

/-- Without a delay the share of this message counts at once. -/
theorem heard_now {fb : Feedback} (hdelay : fb.delayRounds = 0) :
    st.heard fb = (min fb.fMaxScaled 256, st.smooth (min fb.fMaxScaled 256)) := by
  unfold heard delayed
  rw [hdelay, Nat.zero_min]
  rfl

end RateLimitState

/-- A cut takes no more than there is, even where its product leaves 64 bits. -/
theorem rateDrop_le {bps alphaEff : ℕ} (hbps : 0 < bps) (halpha : alphaEff ≤ 256) :
    rateDrop bps alphaEff ≤ bps := by
  have hprod : bps * alphaEff ≤ bps * 256 := Nat.mul_le_mul_left bps halpha
  have hle : u64 (bps * alphaEff + 511) ≤ bps * alphaEff + 511 := u64_le _
  unfold rateDrop
  omega

/-! ## The ways a message ends -/

section Adapt

variable {global : ℕ} {st : RateLimitState} {fb : Feedback}

/-- A limiter that is off stays off. -/
theorem adaptRateDctcp_off (hoff : st.bps = 0) : adaptRateDctcp global st fb = st := by
  unfold adaptRateDctcp
  exact if_pos hoff

theorem adaptRateDctcp_on (hon : st.bps ≠ 0) :
    adaptRateDctcp global st fb
      = { (st.heard fb).2.moved (st.floorFor global fb.pageCnt)
            (decide (st.bps ≤ st.floorFor global fb.pageCnt)) (st.heard fb).1 fb with
          observedBpsLast := fb.observedBps
          runsLast := fb.runsFirst
          lostLast := fb.lostFirst } := by
  unfold adaptRateDctcp
  exact if_neg hon

theorem adaptRateDctcp_bps (hon : st.bps ≠ 0) :
    (adaptRateDctcp global st fb).bps
      = ((st.heard fb).2.moved (st.floorFor global fb.pageCnt)
          (decide (st.bps ≤ st.floorFor global fb.pageCnt)) (st.heard fb).1 fb).bps := by
  rw [adaptRateDctcp_on hon]

/-- The rate and the warning are all that the last part of a message changes. -/
theorem moved_frame (st : RateLimitState) (floorBps : ℕ) (atFloor : Bool) (fEwma : ℕ)
    (fb : Feedback) : ∃ bps cleanCount floorWarned,
      st.moved floorBps atFloor fEwma fb
        = { st with bps := bps, cleanCount := cleanCount, floorWarned := floorWarned } := by
  unfold RateLimitState.moved RateLimitState.slowDown RateLimitState.rise
  simp only [RateLimitState.recoverGate_eq]
  split_ifs <;> exact ⟨_, _, _, rfl⟩

theorem adaptRateDctcp_initialBps : (adaptRateDctcp global st fb).initialBps = st.initialBps := by
  by_cases hon : st.bps = 0
  · rw [adaptRateDctcp_off hon]
  · obtain ⟨_, _, _, hmoved⟩ := moved_frame (st.heard fb).2 (st.floorFor global fb.pageCnt)
      (decide (st.bps ≤ st.floorFor global fb.pageCnt)) (st.heard fb).1 fb
    rw [adaptRateDctcp_on hon, hmoved]
    exact st.heard_initialBps fb

theorem adaptRateDctcp_staticFloorBps :
    (adaptRateDctcp global st fb).staticFloorBps = st.staticFloorBps := by
  by_cases hon : st.bps = 0
  · rw [adaptRateDctcp_off hon]
  · obtain ⟨_, _, _, hmoved⟩ := moved_frame (st.heard fb).2 (st.floorFor global fb.pageCnt)
      (decide (st.bps ≤ st.floorFor global fb.pageCnt)) (st.heard fb).1 fb
    rw [adaptRateDctcp_on hon, hmoved]
    exact st.heard_staticFloorBps fb

/-- What a message leaves of `α` and of the delay line is what it left when it was taken in. -/
theorem adaptRateDctcp_heard (global : ℕ) (fb : Feedback) (hon : st.bps ≠ 0) :
    (adaptRateDctcp global st fb).alphaAccum = (st.heard fb).2.alphaAccum ∧
      (adaptRateDctcp global st fb).alphaScaled = (st.heard fb).2.alphaScaled ∧
      (adaptRateDctcp global st fb).tauDelayBuf = (st.heard fb).2.tauDelayBuf := by
  obtain ⟨_, _, _, hmoved⟩ := moved_frame (st.heard fb).2 (st.floorFor global fb.pageCnt)
    (decide (st.bps ≤ st.floorFor global fb.pageCnt)) (st.heard fb).1 fb
  rw [adaptRateDctcp_on hon, hmoved]
  simp only [and_self]

/-- A message with losses: the rate is cut down to the floor, and raised by a step where the
losses are scattered. -/
theorem adaptRateDctcp_lossy (global : ℕ) (hon : st.bps ≠ 0) (hloss : 0 < (st.heard fb).1) :
    (adaptRateDctcp global st fb).bps
      = if fb.runsRandom then
          min st.initialBps (u64 (max (st.floorFor global fb.pageCnt)
            (sub64 st.bps ((st.heard fb).2.drop fb)) + st.incStep))
        else max (st.floorFor global fb.pageCnt) (sub64 st.bps ((st.heard fb).2.drop fb)) := by
  rw [adaptRateDctcp_bps hon, RateLimitState.moved, if_pos hloss, RateLimitState.slowDown_bps,
    RateLimitState.heard_bps, RateLimitState.heard_initialBps, RateLimitState.heard_incStep]

/-- A long enough message without losses raises the rate by a step once `α` is low. -/
theorem adaptRateDctcp_rise (global : ℕ) (hon : st.bps ≠ 0) (hloss : (st.heard fb).1 = 0)
    (hclean : fb.clean = true) (hpages : minPagesForRateSignal ≤ fb.pageCnt.toNat)
    (hgate : (st.heard fb).2.alphaAccum / 16 ≤ 1) :
    (adaptRateDctcp global st fb).bps = min st.initialBps (u64 (st.bps + st.incStep)) := by
  rw [adaptRateDctcp_bps hon, hloss, RateLimitState.moved_rise hclean hpages hgate,
    RateLimitState.heard_bps, RateLimitState.heard_initialBps, RateLimitState.heard_incStep]

/-- Every other message without losses leaves the rate as it is. -/
theorem adaptRateDctcp_keep (global : ℕ) (hon : st.bps ≠ 0) (hloss : (st.heard fb).1 = 0)
    (hkeep : ¬ (fb.clean = true ∧ minPagesForRateSignal ≤ fb.pageCnt.toNat ∧
      (st.heard fb).2.alphaAccum / 16 ≤ 1)) :
    (adaptRateDctcp global st fb).bps = st.bps := by
  rw [adaptRateDctcp_bps hon, hloss, RateLimitState.moved_keep hkeep, RateLimitState.heard_bps]

end Adapt

end DzIpc.Udp
