import DzIpc.Udp.RateBounds

/-!
# How a rate comes back

A node hears the same share of lost pages message after message.  `α` goes to that share and does
not pass it; once it hears of no losses any more, `α` falls until the gate of the rise opens, and
every long enough message then raises the rate by one step.

* `after_alphaAccum` ties `α` to the smoothed mean in integers, as long as the limiter is on.
* `after_steady` keeps it on, under a limit with room on both sides.
* `converges_and_recovers_iff`: the two promises hold from every state if and only if the limit
  has that room.  Without it the limiter switches itself off, and `α` stands still, or a step up
  wraps around.
-/

namespace DzIpc.Udp

open Wire

/-- The state after the first `n` messages of a sequence. -/
def RateLimitState.after (global : ℕ) (st : RateLimitState) (fbs : ℕ → Feedback) :
    ℕ → RateLimitState
  | 0 => st
  | n + 1 => adaptRateDctcp global (st.after global fbs n) (fbs n)

/-- The message reports this share, and it counts at once. -/
structure Feedback.Shares (share : ℕ) (fb : Feedback) : Prop where
  valid : fb.Valid
  share : min fb.fMaxScaled 256 = share
  now : fb.delayRounds = 0

/-- A message without losses, long enough to count. -/
structure Feedback.LossFree (fb : Feedback) : Prop extends fb.Shares 0 where
  clean : fb.clean = true
  pages : minPagesForRateSignal ≤ fb.pageCnt.toNat

/-- A seeded state with its rate in range. -/
structure RateLimitState.On (global : ℕ) (st : RateLimitState) : Prop where
  steady : st.Steady global
  above : st.AboveFloor global

/-- The gate of the rise, as the state after a message shows it. -/
def RateLimitState.GateOpen (st : RateLimitState) : Prop :=
  st.alphaAccum / 16 ≤ 1

/-- `α` goes to the share it hears of, does not pass it, and comes within 15 parts in 4096. -/
def AlphaConverges (global : ℕ) : Prop :=
  ∀ st : RateLimitState, st.On global → ∀ share ≤ 256, ∀ fbs : ℕ → Feedback,
    (∀ n, (fbs n).Shares share) →
      (∀ n, ((st.after global fbs n).alphaAccum ≤ 16 * share →
          (st.after global fbs n).alphaAccum ≤ (st.after global fbs (n + 1)).alphaAccum ∧
            (st.after global fbs (n + 1)).alphaAccum ≤ 16 * share) ∧
        (16 * share ≤ (st.after global fbs n).alphaAccum →
          16 * share ≤ (st.after global fbs (n + 1)).alphaAccum ∧
            (st.after global fbs (n + 1)).alphaAccum ≤ (st.after global fbs n).alphaAccum)) ∧
      ∃ N, ∀ n ≥ N, 16 * share ≤ (st.after global fbs n).alphaAccum + 15 ∧
        (st.after global fbs n).alphaAccum ≤ 16 * share + 15

/-- Messages without losses open the gate; each one that finds it open raises the rate by one
step, up to the initial rate; and the rate comes to that. -/
def RateRecovers (global : ℕ) : Prop :=
  ∀ st : RateLimitState, st.On global → ∀ fbs : ℕ → Feedback, (∀ n, (fbs n).LossFree) →
    (∃ N, ∀ n ≥ N, (st.after global fbs (n + 1)).GateOpen) ∧
    (∀ n, (st.after global fbs (n + 1)).GateOpen → (st.after global fbs n).bps < global →
      (st.after global fbs (n + 1)).bps
        = min global ((st.after global fbs n).bps + max 1 (global / 320))) ∧
    ∃ M, (st.after global fbs M).bps = global

section Run

variable {global : ℕ} {st : RateLimitState} {fbs : ℕ → Feedback}

/-- A message that counts at once leaves the smoothed share, as long as the limiter is on. -/
theorem adaptRateDctcp_alphaAccum (hon : st.On global) {share : ℕ} {fb : Feedback}
    (hshare : fb.Shares share) :
    ((adaptRateDctcp global st fb).alphaAccum : ℤ)
      = Smoothing.next 16 (16 * share) st.alphaAccum := by
  have hheard := (adaptRateDctcp_heard global fb (Nat.ne_of_gt hon.above.positive)).1
  have hle : share ≤ 256 := hshare.share ▸ Nat.min_le_right _ _
  rw [hheard, st.heard_now hshare.now, hshare.share]
  exact RateLimitState.smooth_alphaAccum hon.steady.alphaAccum hle

/-- The limiter stays on. -/
theorem after_on (hglobal : 2 ≤ global) (hstep : global + max 1 (global / 320) < 2 ^ 64)
    (hon : st.On global) (hvalid : ∀ n, (fbs n).Valid) (n : ℕ) :
    (st.after global fbs n).On global := by
  induction n with
  | zero => exact hon
  | succ n ih =>
      exact
        { steady := ih.steady.adapt (by omega) (by omega) (fbs n)
          above := ih.steady.adapt_above hglobal hstep ih.above (hvalid n) }

theorem alphaConverges (hglobal : 2 ≤ global) (hstep : global + max 1 (global / 320) < 2 ^ 64) :
    AlphaConverges global := by
  intro st hon share _ fbs hshares
  have honAfter := after_on hglobal hstep hon fun n => (hshares n).valid
  have hmean : ∀ n, ((st.after global fbs (n + 1)).alphaAccum : ℤ)
      = Smoothing.next 16 (16 * share) (st.after global fbs n).alphaAccum :=
    fun n => adaptRateDctcp_alphaAccum (honAfter n) (hshares n)
  refine ⟨fun n => ⟨fun hbelow => ?_, fun habove => ?_⟩, ?_⟩
  · have hbelow' : ((st.after global fbs n).alphaAccum : ℤ) ≤ 16 * share := by omega
    have hnext := Smoothing.next_of_le (k := 16) hbelow'
    rw [← hmean n] at hnext
    omega
  · have habove' : (16 * share : ℤ) ≤ (st.after global fbs n).alphaAccum := by omega
    have hnext := Smoothing.next_of_ge (k := 16) habove'
    rw [← hmean n] at hnext
    omega
  · refine ⟨(16 * share - (st.alphaAccum : ℤ)).natAbs + 1, ?_⟩
    intro n hn
    have hnear := Smoothing.eventually_near (k := 16) (by decide)
      (fun n => ((st.after global fbs n).alphaAccum : ℤ)) hmean n (Nat.lt_of_succ_le hn)
    omega

/-- A message without losses that finds the gate open. -/
theorem adaptRateDctcp_bps_free (hon : st.On global) {fb : Feedback} (hfree : fb.LossFree)
    (hgate : (adaptRateDctcp global st fb).GateOpen) :
    (adaptRateDctcp global st fb).bps
      = min global (u64 (st.bps + max 1 (global / 320))) := by
  have hpos : st.bps ≠ 0 := Nat.ne_of_gt hon.above.positive
  have hheard := (adaptRateDctcp_heard global fb hpos).1
  have hzero : (st.heard fb).1 = 0 := by
    rw [st.heard_now hfree.now]
    exact hfree.share
  unfold RateLimitState.GateOpen at hgate
  rw [adaptRateDctcp_rise global hpos hzero hfree.clean hfree.pages (hheard ▸ hgate),
    RateLimitState.incStep_eq, hon.steady.initialBps]

theorem rateRecovers (hglobal : 2 ≤ global) (hstep : global + max 1 (global / 320) < 2 ^ 64) :
    RateRecovers global := by
  intro st hon fbs hfree
  have honAfter := after_on hglobal hstep hon fun n => (hfree n).valid
  obtain ⟨-, N, hnear⟩ := alphaConverges hglobal hstep st hon 0 (Nat.zero_le _) fbs
    fun n => (hfree n).toShares
  have hgate : ∀ n ≥ N, (st.after global fbs (n + 1)).GateOpen := by
    intro n hn
    have hclose := (hnear (n + 1) (by omega)).2
    unfold RateLimitState.GateOpen
    omega
  have hrise : ∀ n, (st.after global fbs (n + 1)).GateOpen → (st.after global fbs (n + 1)).bps
      = min global ((st.after global fbs n).bps + max 1 (global / 320)) := by
    intro n hopen
    have hle := (honAfter n).steady.le_global
    have hbps := adaptRateDctcp_bps_free (honAfter n) (hfree n) hopen
    rwa [u64_of_lt (by omega)] at hbps
  refine ⟨⟨N, hgate⟩, fun n hopen _ => hrise n hopen, ?_⟩
  -- from N on every message takes the rate up by at least one, so it cannot stay below
  by_contra hnever
  have hclimb : ∀ k, k ≤ (st.after global fbs (N + k)).bps := by
    intro k
    induction k with
    | zero => exact Nat.zero_le _
    | succ k ih =>
        have hnext := hrise (N + k) (hgate (N + k) (by omega))
        have hbelow : (st.after global fbs (N + (k + 1))).bps ≠ global :=
          fun heq => hnever ⟨_, heq⟩
        change k + 1 ≤ (st.after global fbs (N + k + 1)).bps
        change (st.after global fbs (N + k + 1)).bps ≠ global at hbelow
        omega
  have htop := hclimb (global + 1)
  have hle := (honAfter (N + (global + 1))).steady.le_global
  omega

/-! ## Without the room -/

theorem on_seed (hglobal : 0 < global) : (RateLimitState.initial.seed global).On global where
  steady := steady_seed_initial global
  above := ⟨hglobal, Nat.div_le_self _ _⟩

theorem shares_allLost : allLost.Shares 256 :=
  ⟨allLost_valid allLost rfl, rfl, rfl⟩

theorem lossFree_noneLost : noneLost.LossFree :=
  ⟨⟨noneLost_valid noneLost rfl, rfl, rfl⟩, rfl, by decide⟩

/-- A limiter that a message has switched off stays as that message left it. -/
theorem after_off {fb : Feedback} (hoff : (adaptRateDctcp global st fb).bps = 0) (n : ℕ) :
    st.after global (fun _ => fb) (n + 1) = adaptRateDctcp global st fb := by
  induction n with
  | zero => rfl
  | succ n ih =>
      rw [RateLimitState.after, ih]
      exact adaptRateDctcp_off hoff

/-- At one byte a second a loss switches the limiter off, and `α` stands still at once. -/
theorem not_alphaConverges_one : ¬ AlphaConverges 1 := by
  intro h
  obtain ⟨-, N, hnear⟩ := h _ (on_seed (by decide)) 256 (by decide) (fun _ => allLost)
    fun _ => shares_allLost
  have hoff : (adaptRateDctcp 1 (RateLimitState.initial.seed 1) allLost).bps = 0 := by
    decide +kernel
  have haccum : (adaptRateDctcp 1 (RateLimitState.initial.seed 1) allLost).alphaAccum = 256 := by
    decide +kernel
  have hfar := (hnear (N + 1) (Nat.le_succ N)).1
  rw [after_off hoff N, haccum] at hfar
  omega

/-- Where one step above the limit is `2 ^ 64`, the step up from the limit switches the limiter
off, and `α` stands still before it is near. -/
theorem not_alphaConverges_wrap (hfits : global < 2 ^ 64)
    (hstep : global + max 1 (global / 320) = 2 ^ 64) : ¬ AlphaConverges global := by
  intro h
  have hzero : global ≠ 0 := by
    rintro rfl
    exact absurd hstep (by decide)
  set st : RateLimitState := { RateLimitState.initial.seed global with alphaAccum := 20 } with hst
  have hseed := on_seed (Nat.pos_of_ne_zero hzero)
  have hon : st.On global :=
    { steady := { hseed.steady with alphaAccum := show 20 ≤ 4096 by decide }
      above := ⟨hseed.above.positive, hseed.above.floor_le⟩ }
  obtain ⟨-, N, hnear⟩ := h st hon 0 (Nat.zero_le _) (fun _ => noneLost)
    fun _ => lossFree_noneLost.toShares
  have haccum : (adaptRateDctcp global st noneLost).alphaAccum = 19 := by
    have hnext := adaptRateDctcp_alphaAccum hon lossFree_noneLost.toShares
    rw [show (st.alphaAccum : ℤ) = 20 from rfl,
      show Smoothing.next 16 (16 * (0 : ℕ)) 20 = 19 by decide] at hnext
    exact Int.ofNat_inj.mp hnext
  have hoff : (adaptRateDctcp global st noneLost).bps = 0 := by
    have hgate : (adaptRateDctcp global st noneLost).GateOpen := by
      unfold RateLimitState.GateOpen
      rw [haccum]
    have hbps := adaptRateDctcp_bps_free hon lossFree_noneLost hgate
    rw [show st.bps = global from rfl, hstep] at hbps
    exact hbps.trans (Nat.min_eq_right (Nat.zero_le _))
  have hfar := (hnear (N + 1) (Nat.le_succ N)).2
  rw [after_off hoff N, haccum] at hfar
  omega

/-- Where it is more, the step up from one below the limit wraps around. -/
theorem not_rateRecovers_wrap (hfits : global < 2 ^ 64)
    (hstep : 2 ^ 64 < global + max 1 (global / 320)) : ¬ RateRecovers global := by
  intro h
  have hzero : global ≠ 0 := by
    rintro rfl
    exact absurd hstep (by decide)
  set st : RateLimitState := { RateLimitState.initial.seed global with bps := global - 1 } with hst
  have hseed := on_seed (Nat.pos_of_ne_zero hzero)
  have hbps : st.bps = global - 1 := rfl
  have hon : st.On global :=
    { steady := { hseed.steady with le_global := by omega }
      above := ⟨by omega, by omega⟩ }
  obtain ⟨-, hrise, -⟩ := h st hon (fun _ => noneLost) fun _ => lossFree_noneLost
  have hgate : (adaptRateDctcp global st noneLost).GateOpen := by
    have hnext := adaptRateDctcp_alphaAccum hon lossFree_noneLost.toShares
    rw [show (st.alphaAccum : ℤ) = 0 from rfl,
      show Smoothing.next 16 (16 * (0 : ℕ)) 0 = 0 by decide] at hnext
    unfold RateLimitState.GateOpen
    rw [Int.ofNat_inj.mp hnext]
    decide
  have hup := hrise 0 hgate (by rw [RateLimitState.after]; omega)
  have hwrapped := adaptRateDctcp_bps_free hon lossFree_noneLost hgate
  change (adaptRateDctcp global st noneLost).bps
    = min global (st.bps + max 1 (global / 320)) at hup
  unfold u64 at hwrapped
  omega

end Run

/-- **Convergence and recovery.** -/
theorem converges_and_recovers_iff (limit : UInt64) (hlimit : limit ≠ 0) :
    AlphaConverges limit.toNat ∧ RateRecovers limit.toNat
      ↔ 2 ≤ limit.toNat ∧ limit.toNat + max 1 (limit.toNat / 320) < 2 ^ 64 := by
  have hpos : 0 < limit.toNat :=
    Nat.pos_of_ne_zero fun h => hlimit (UInt64.toNat_inj.mp h)
  have hfits : limit.toNat < 2 ^ 64 := limit.toNat_lt
  constructor
  · rintro ⟨hconv, hrec⟩
    constructor
    · by_contra hone
      have heq : limit.toNat = 1 := by omega
      rw [heq] at hconv
      exact not_alphaConverges_one hconv
    · by_contra hwrap
      rcases Nat.lt_or_eq_of_le (Nat.le_of_not_lt hwrap) with hlt | heq
      · exact not_rateRecovers_wrap hfits hlt hrec
      · exact not_alphaConverges_wrap hfits heq.symm hconv
  · rintro ⟨htwo, hstep⟩
    exact ⟨alphaConverges htwo hstep, rateRecovers htwo hstep⟩

theorem converges_and_recovers_iff_20MB :
    AlphaConverges (20000000 : UInt64).toNat ∧ RateRecovers (20000000 : UInt64).toNat
      ↔ 2 ≤ (20000000 : UInt64).toNat
        ∧ (20000000 : UInt64).toNat + max 1 ((20000000 : UInt64).toNat / 320) < 2 ^ 64 :=
  converges_and_recovers_iff 20000000 (by decide)

/-- One byte a second is enough for `α` to stand still at 256 of 4096 while every page is lost,
and at `2 ^ 64 - 1` the rate falls where it should rise. -/
theorem not_converges_and_recovers :
    ¬ AlphaConverges (1 : UInt64).toNat ∧ ¬ RateRecovers (18446744073709551615 : UInt64).toNat :=
  ⟨not_alphaConverges_one, not_rateRecovers_wrap (by decide) (by decide)⟩

end DzIpc.Udp
