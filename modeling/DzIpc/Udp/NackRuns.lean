import DzIpc.Library.Runs
import DzIpc.Udp.NackFrames
import Mathlib.Data.Rat.Defs
import Mathlib.Algebra.Order.Field.Basic
import Mathlib.Algebra.Order.Ring.Rat
import Mathlib.Data.Finset.Sort

/-!
# Runs of missing pages

A sender counts the runs of consecutive missing pages in the first NACK it gets from a receiver,
from either encoding, and keeps the pair of runs and missing pages with the least ratio.

* `countExplicitRuns_eq` and `countBitmapRuns_eq`: each counter, on what it reads, returns the number
  of runs of `Runs.runs`.
* `run_counters_agree`: on the two encodings of one set of pages, after the wire, both are the runs of
  that set; and the pair that `aggregate_runs_first` returns is least, in every order of its map.
-/

namespace DzIpc.Udp

open Wire

/-! ## The counters -/

/-- The pages that a loop over a window looks at: it ends at the first that the message does not
have. -/
def RtpsNackBitmapMsg.scanned (nb : RtpsNackBitmapMsg) (pageCnt : ℕ) : List ℕ :=
  ((List.range nb.bitCnt).map (nb.basePage.toNat + ·)).takeWhile fun pageId =>
    !(pageId = 0 || pageId > pageCnt)

/-- `count_bitmap_runs`, for one page: the runs, and `prev_missing`. -/
def bitmapRunStep (nb : RtpsNackBitmapMsg) (st : ℕ × Bool) (pageId : ℕ) : ℕ × Bool :=
  let missing := nb.isMissing (pageId % 2 ^ 16)
  (if missing && !st.2 then st.1 + 1 else st.1, missing)

/-- `count_bitmap_runs`. -/
def countBitmapRuns (nb : RtpsNackBitmapMsg) (pageCnt : ℕ) : ℕ :=
  ((nb.scanned pageCnt).foldl (bitmapRunStep nb) (0, false)).1

/-- The count of missing pages that `drain_record_acks` makes beside it. -/
def RtpsNackBitmapMsg.missCnt (nb : RtpsNackBitmapMsg) (pageCnt : ℕ) : ℕ :=
  (nb.scanned pageCnt).countP fun pageId => nb.isMissing (pageId % 2 ^ 16)

/-- `count_explicit_runs`, for one page: the runs, and `prev` where there is one. -/
def explicitRunStep (pageCnt : ℕ) (st : ℕ × Option UInt16) (page : UInt16) : ℕ × Option UInt16 :=
  if page = 0 ∨ page.toNat > pageCnt then st
  else
    (match st.2 with
      | none => st.1 + 1
      | some prev => if page ≠ prev + 1 then st.1 + 1 else st.1, some page)

/-- `count_explicit_runs`. -/
def countExplicitRuns (pages : List UInt16) (pageCnt : ℕ) : ℕ :=
  (pages.foldl (explicitRunStep pageCnt) (0, none)).1

/-- The count of missing pages that is made beside it. -/
def RtpsNackMsg.missCnt (nack : RtpsNackMsg) (pageCnt : ℕ) : ℕ :=
  nack.missingPages.countP fun page => !(page = 0 || page.toNat > pageCnt)

/-- `RunsFirst`. -/
structure RunsFirst where
  captured : Bool
  runs : ℕ
  lost : ℕ
  deriving DecidableEq, Repr

/-- A product of two `std::size_t`. -/
def sizeMul (a b : ℕ) : ℕ :=
  a * b % 2 ^ 64

/-- `aggregate_runs_first`, for one entry: `best_runs` and `best_lost`, where there are `any`. -/
def aggregateStep (best : Option (ℕ × ℕ)) (rf : RunsFirst) : Option (ℕ × ℕ) :=
  if ¬ rf.captured ∨ rf.lost = 0 then best
  else
    match best with
    | none => some (rf.runs, rf.lost)
    | some (bestRuns, bestLost) =>
        if sizeMul rf.runs bestLost < sizeMul bestRuns rf.lost then some (rf.runs, rf.lost)
        else some (bestRuns, bestLost)

/-- `aggregate_runs_first`, for the entries in the order the map is gone through. -/
def aggregateRunsFirst (entries : List RunsFirst) : ℕ × ℕ :=
  (entries.foldl aggregateStep none).getD (0, 0)

/-! ## The explicit list -/

/-- In an ascending list that ends before `p`, only the last can be the predecessor of `p`. -/
theorem exists_pred_iff {l : List ℕ} {p : ℕ} (hsorted : (l ++ [p]).SortedLT) :
    (∃ q ∈ l.toFinset, q + 1 = p) ↔ l.getLast?.map (· + 1) = some p := by
  have hpair := List.pairwise_append.mp hsorted.pairwise
  have hbelow : ∀ q ∈ l, q < p := fun q hq => hpair.2.2 q hq p (List.mem_singleton_self p)
  simp only [List.mem_toFinset, Option.map_eq_some_iff]
  constructor
  · rintro ⟨q, hq, hqp⟩
    have hne : l ≠ [] := List.ne_nil_of_mem hq
    refine ⟨l.getLast hne, List.getLast?_eq_some_getLast hne, ?_⟩
    have hle : q ≤ l.getLast hne := by
      rw [← List.dropLast_append_getLast hne] at hq
      rcases List.mem_append.mp hq with hinit | hlast
      · have hpair' := hpair.1
        rw [← List.dropLast_append_getLast hne] at hpair'
        exact Nat.le_of_lt ((List.pairwise_append.mp hpair').2.2 q hinit _
          (List.mem_singleton_self _))
      · exact Nat.le_of_eq (List.mem_singleton.mp hlast)
    have hlt := hbelow _ (List.getLast_mem hne)
    omega
  · rintro ⟨q, hq, hqp⟩
    exact ⟨q, List.mem_of_getLast? hq, hqp⟩

theorem card_starts_snoc {l : List ℕ} {p : ℕ} (hsorted : (l ++ [p]).SortedLT) :
    (Runs.starts (l ++ [p]).toFinset).card
      = (Runs.starts l.toFinset).card + if l.getLast?.map (· + 1) = some p then 0 else 1 := by
  have habove : ∀ q ∈ l.toFinset, q < p := fun q hq =>
    (List.pairwise_append.mp hsorted.pairwise).2.2 q (List.mem_toFinset.mp hq) p
      (List.mem_singleton_self p)
  have hinsert : (l ++ [p]).toFinset = insert p l.toFinset := by
    ext q
    simp
  rw [hinsert, Runs.card_starts_insert habove]
  simp only [exists_pred_iff hsorted]

/-- Over ascending pages the counter has seen the runs so far, and knows the last page. -/
theorem foldl_explicitRunStep {pageCnt : ℕ} (l : List ℕ) (hcnt : pageCnt < 2 ^ 16)
    (hsorted : l.SortedLT) (hrange : ∀ p ∈ l, 1 ≤ p ∧ p ≤ pageCnt) :
    (l.map fun p => UInt16.ofNat p).foldl (explicitRunStep pageCnt) (0, none)
      = ((Runs.starts l.toFinset).card, l.getLast?.map fun p => UInt16.ofNat p) := by
  induction l using List.reverseRecOn with
  | nil => rfl
  | append_singleton l p ih =>
      have hinit : l.SortedLT := (List.pairwise_append.mp hsorted.pairwise).1.sortedLT
      have hinitRange : ∀ q ∈ l, 1 ≤ q ∧ q ≤ pageCnt :=
        fun q hq => hrange q (List.mem_append_left _ hq)
      obtain ⟨hpos, hle⟩ := hrange p (List.mem_append_right _ (List.mem_singleton_self p))
      have htoNat : (UInt16.ofNat p).toNat = p := RtpsNackMsg.toNat_ofNat_page hcnt hle
      have hin : ¬ (UInt16.ofNat p = 0 ∨ (UInt16.ofNat p).toNat > pageCnt) := by
        rw [htoNat, ← UInt16.toNat_inj, htoNat]
        rintro (h | h)
        · exact absurd h (Nat.ne_of_gt hpos)
        · omega
      rw [List.map_append, List.foldl_append, ih hinit hinitRange, List.map_singleton,
        List.foldl_cons, List.foldl_nil, explicitRunStep, if_neg hin, card_starts_snoc hsorted,
        List.getLast?_concat, Option.map_some]
      cases hlast : l.getLast? with
      | none => simp
      | some q =>
          obtain ⟨hqpos, hqle⟩ := hinitRange q (List.mem_of_getLast? hlast)
          have hqp : q < p := (List.pairwise_append.mp hsorted.pairwise).2.2 q
            (List.mem_of_getLast? hlast) p (List.mem_singleton_self p)
          have hsucc : (UInt16.ofNat p = UInt16.ofNat q + 1) ↔ q + 1 = p := by
            rw [← UInt16.toNat_inj, UInt16.toNat_add, htoNat,
              RtpsNackMsg.toNat_ofNat_page hcnt hqle, UInt16.toNat_one]
            omega
          simp only [Option.map_some, Option.some.injEq, ne_eq, hsucc]
          split_ifs <;> rfl

theorem countExplicitRuns_eq {pageCnt : ℕ} {l : List ℕ} (hcnt : pageCnt < 2 ^ 16)
    (hsorted : l.SortedLT) (hrange : ∀ p ∈ l, 1 ≤ p ∧ p ≤ pageCnt) :
    countExplicitRuns (l.map fun p => UInt16.ofNat p) pageCnt = (Runs.runs l.toFinset).card := by
  rw [countExplicitRuns, foldl_explicitRunStep l hcnt hsorted hrange, Runs.card_runs]

/-! ## The window -/

theorem takeWhile_range (n k : ℕ) :
    (List.range n).takeWhile (fun i => decide (i < k)) = List.range (min n k) := by
  induction n with
  | zero => simp
  | succ n ih =>
      rw [List.range_succ, List.takeWhile_append, ih, List.length_range, List.length_range]
      rcases Nat.lt_or_ge n k with hlt | hge
      · rw [if_pos (Nat.min_eq_left hlt.le), Nat.min_eq_left hlt, List.range_succ]
        simp [hlt]
      · rcases Nat.eq_or_lt_of_le hge with rfl | hlt
        · rw [if_pos (Nat.min_self k), List.takeWhile_cons_of_neg (by simp), List.append_nil,
            Nat.min_eq_right (Nat.le_succ k)]
        · rw [if_neg (by omega), Nat.min_eq_right hge, Nat.min_eq_right (Nat.le_succ_of_le hge)]

/-- From a page on, a loop over a window looks at the window's pages of the message. -/
theorem RtpsNackBitmapMsg.scanned_eq {nb : RtpsNackBitmapMsg} {pageCnt : ℕ}
    (hbase : 1 ≤ nb.basePage.toNat) :
    nb.scanned pageCnt
      = (List.range (min nb.bitCnt (pageCnt + 1 - nb.basePage.toNat))).map
          (nb.basePage.toNat + ·) := by
  unfold scanned
  rw [List.takeWhile_map, ← takeWhile_range]
  congr 2
  funext i
  rw [Function.comp_apply, ← Bool.decide_or, ← decide_not, decide_eq_decide]
  omega

/-- The pages of a set below a bound. -/
theorem filter_lt_succ (S : Finset ℕ) (n : ℕ) :
    S.filter (· < n + 1) = if n ∈ S then insert n (S.filter (· < n)) else S.filter (· < n) := by
  split_ifs with hmem
  · ext q
    rw [Finset.mem_insert, Finset.mem_filter, Finset.mem_filter, Nat.lt_succ_iff_lt_or_eq]
    constructor
    · rintro ⟨hq, hlt | rfl⟩
      · exact Or.inr ⟨hq, hlt⟩
      · exact Or.inl rfl
    · rintro (rfl | ⟨hq, hlt⟩)
      · exact ⟨hmem, Or.inr rfl⟩
      · exact ⟨hq, Or.inl hlt⟩
  · apply Finset.filter_congr
    intro q hq
    rw [Nat.lt_succ_iff_lt_or_eq]
    exact or_iff_left fun h => hmem (h ▸ hq)

/-- Over a window that marks the pages of `S`, the counter has seen the runs so far, and knows
whether the last page is missing. -/
theorem foldl_bitmapRunStep {nb : RtpsNackBitmapMsg} {S : Finset ℕ} {base : ℕ} (k : ℕ)
    (hle : ∀ p ∈ S, base ≤ p) (hcnt : base + k ≤ 2 ^ 16)
    (hmarks : ∀ i < k, nb.isMissing (base + i) = decide (base + i ∈ S)) :
    ((List.range k).map (base + ·)).foldl (bitmapRunStep nb) (0, false)
      = ((Runs.starts (S.filter (· < base + k))).card,
          decide (∃ q ∈ S.filter (· < base + k), q + 1 = base + k)) := by
  induction k with
  | zero =>
      have hnone : S.filter (· < base + 0) = ∅ := by
        apply Finset.filter_false_of_mem
        intro p hp
        exact Nat.not_lt.mpr (hle p hp)
      rw [hnone]
      simp
  | succ k ih =>
      have hlt : base + k < 2 ^ 16 := by omega
      have habove : ∀ q ∈ S.filter (· < base + k), q < base + k :=
        fun q hq => (Finset.mem_filter.mp hq).2
      have hlast : (∃ q ∈ S.filter (· < base + k + 1), q + 1 = base + k + 1) ↔ base + k ∈ S := by
        constructor
        · rintro ⟨q, hq, hqk⟩
          rw [← Nat.succ.inj hqk]
          exact (Finset.mem_filter.mp hq).1
        · exact fun hmem => ⟨_, Finset.mem_filter.mpr ⟨hmem, Nat.lt_succ_self _⟩, rfl⟩
      rw [List.range_succ, List.map_append, List.foldl_append,
        ih (by omega) fun i hi => hmarks i (by omega), List.map_singleton, List.foldl_cons,
        List.foldl_nil, bitmapRunStep, Nat.mod_eq_of_lt hlt, hmarks k (Nat.lt_succ_self k),
        ← Nat.add_assoc]
      refine Prod.ext ?_ (decide_eq_decide.mpr hlast.symm)
      dsimp only
      rw [filter_lt_succ]
      by_cases hmem : base + k ∈ S
      · rw [if_pos hmem, Runs.card_starts_insert habove, decide_eq_true hmem, Bool.true_and]
        by_cases hpred : ∃ q ∈ S.filter (· < base + k), q + 1 = base + k
        · rw [if_pos hpred, decide_eq_true hpred]
          rfl
        · rw [if_neg hpred, decide_eq_false hpred]
          rfl
      · rw [if_neg hmem, decide_eq_false hmem, Bool.false_and]
        rfl

theorem countBitmapRuns_eq {nb : RtpsNackBitmapMsg} {pageCnt : ℕ} {S : Finset ℕ}
    (hcnt : pageCnt < 2 ^ 16) (hbase : 1 ≤ nb.basePage.toNat)
    (hrange : ∀ p ∈ S, nb.basePage.toNat ≤ p ∧ p < nb.basePage.toNat + nb.bitCnt ∧ p ≤ pageCnt)
    (hmarks : ∀ p, nb.isMissing p = true ↔ p ∈ S) :
    countBitmapRuns nb pageCnt = (Runs.runs S).card ∧ nb.missCnt pageCnt = S.card := by
  set base := nb.basePage.toNat with hbaseEq
  set k := min nb.bitCnt (pageCnt + 1 - base) with hk
  have hend : ∀ p ∈ S, p < base + k := by
    intro p hp
    obtain ⟨hle, hlt, hpage⟩ := hrange p hp
    omega
  have hscanned : nb.scanned pageCnt = (List.range k).map (base + ·) := nb.scanned_eq hbase
  have hbool : ∀ p, nb.isMissing p = decide (p ∈ S) :=
    fun p => Bool.eq_iff_iff.mpr ((hmarks p).trans decide_eq_true_iff.symm)
  by_cases hzero : k = 0
  · have hempty : S = ∅ := by
      apply Finset.eq_empty_of_forall_notMem
      intro p hp
      have hlt := hend p hp
      have hle := (hrange p hp).1
      omega
    rw [countBitmapRuns, RtpsNackBitmapMsg.missCnt, hscanned, hzero, hempty]
    exact ⟨rfl, rfl⟩
  have hwithin : base + k ≤ 2 ^ 16 := by omega
  have hall : S.filter (· < base + k) = S := Finset.filter_true_of_mem hend
  constructor
  · rw [countBitmapRuns, hscanned,
      foldl_bitmapRunStep k (fun p hp => (hrange p hp).1) hwithin fun i _ => hbool _, hall,
      Runs.card_runs]
  · rw [RtpsNackBitmapMsg.missCnt, hscanned, List.countP_eq_length_filter,
      ← List.toFinset_card_of_nodup]
    · congr 1
      ext p
      simp only [List.mem_toFinset, List.mem_filter, List.mem_map, List.mem_range]
      constructor
      · rintro ⟨⟨i, hi, rfl⟩, hmissing⟩
        rw [Nat.mod_eq_of_lt (by omega)] at hmissing
        exact (hmarks _).mp hmissing
      · intro hp
        obtain ⟨hle, -, -⟩ := hrange p hp
        have hlt := hend p hp
        refine ⟨⟨p - base, by omega, by omega⟩, ?_⟩
        rw [Nat.mod_eq_of_lt (by omega)]
        exact (hmarks p).mpr hp
    · apply List.Nodup.filter
      exact List.nodup_range.map fun i j hij => Nat.add_left_cancel hij

/-! ## What a sender records -/

/-- A loop that counts at most once a step. -/
theorem foldl_fst_le {α β : Type*} {f : ℕ × β → α → ℕ × β} (hstep : ∀ st a, (f st a).1 ≤ st.1 + 1)
    (l : List α) : ∀ st, (l.foldl f st).1 ≤ st.1 + l.length := by
  induction l with
  | nil => exact fun st => Nat.le_refl _
  | cons a l ih =>
      intro st
      have hhead := hstep st a
      have htail := ih (f st a)
      rw [List.foldl_cons, List.length_cons]
      omega

theorem countBitmapRuns_le (nb : RtpsNackBitmapMsg) (pageCnt : ℕ) :
    countBitmapRuns nb pageCnt ≤ (nb.scanned pageCnt).length := by
  have hle := foldl_fst_le (f := bitmapRunStep nb) (fun st pageId => ?_) (nb.scanned pageCnt)
    (0, false)
  · rwa [Nat.zero_add] at hle
  · unfold bitmapRunStep
    dsimp only
    split <;> omega

theorem countExplicitRuns_le (pages : List UInt16) (pageCnt : ℕ) :
    countExplicitRuns pages pageCnt ≤ pages.length := by
  have hle := foldl_fst_le (f := explicitRunStep pageCnt) (fun st page => ?_) pages (0, none)
  · rwa [Nat.zero_add] at hle
  · unfold explicitRunStep
    split_ifs
    · exact Nat.le_succ _
    · cases st.2 with
      | none => exact Nat.le_refl _
      | some prev =>
          dsimp only
          split <;> omega

/-- A loop over a window looks at pages of the message only. -/
theorem RtpsNackBitmapMsg.length_scanned_le (nb : RtpsNackBitmapMsg) (pageCnt : ℕ) :
    (nb.scanned pageCnt).length ≤ pageCnt := by
  by_cases hbase : 1 ≤ nb.basePage.toNat
  · rw [scanned_eq hbase, List.length_map, List.length_range]
    omega
  · have hzero : nb.basePage.toNat = 0 := by omega
    unfold scanned
    rw [hzero]
    cases nb.bitCnt with
    | zero => exact Nat.zero_le _
    | succ bits =>
        rw [List.range_succ_eq_map, List.map_cons, List.takeWhile_cons_of_neg (by simp)]
        exact Nat.zero_le _

theorem RtpsNackBitmapMsg.length_pages_le (nb : RtpsNackBitmapMsg) (pageCnt : ℕ) :
    (nb.pages pageCnt).length ≤ pageCnt := by
  rw [← List.toFinset_card_of_nodup (nb.nodup_pages pageCnt)]
  have hsub : (nb.pages pageCnt).toFinset ⊆ Finset.Icc 1 pageCnt := by
    intro p hp
    have hkept := (List.mem_filter.mp (List.mem_toFinset.mp hp)).2
    simp only [Bool.and_eq_true, decide_eq_true_eq] at hkept
    exact Finset.mem_Icc.mpr hkept.1
  have hcard := Finset.card_le_card hsub
  rwa [Nat.card_Icc, Nat.add_sub_cancel] at hcard

theorem RtpsNackMsg.length_readPages {r : Region} (count : ℕ) :
    ∀ c, Yields (readPages r count c) fun pages => pages.length = count := by
  induction count with
  | zero => exact fun _ => .pure rfl
  | succ count ih =>
      intro c
      refine Yields.any.bind fun _ _ => ?_
      refine (ih _).bind fun pages hlen => ?_
      exact .pure (by rw [List.length_cons, hlen])

theorem RtpsNackMsg.length_deserialize (buffer : List UInt8) :
    Yields (deserialize buffer) fun nack => nack.missingPages.length ≤ maxMissingPages := by
  refine Yields.any.bind fun _ _ => Yields.any.bind fun _ _ => ?_
  refine (length_readPages _ _).bind fun pages hlen => .pure ?_
  exact hlen.trans_le (Nat.min_le_right _ _)

/-- What the loops put into the map for a NACK: from a window, with the count of either loop, or
from a list. -/
inductive RunsFirst.Recorded (pageCnt : ℕ) : RunsFirst → Prop where
  | drained (nb : RtpsNackBitmapMsg) :
      Recorded pageCnt ⟨true, countBitmapRuns nb pageCnt, nb.missCnt pageCnt⟩
  | collected (nb : RtpsNackBitmapMsg) :
      Recorded pageCnt ⟨true, countBitmapRuns nb pageCnt, (nb.pages pageCnt).length⟩
  | explicit (buffer : List UInt8) (nack : RtpsNackMsg)
      (h : RtpsNackMsg.deserialize buffer = .ok nack) :
      Recorded pageCnt ⟨true, countExplicitRuns nack.missingPages pageCnt, nack.missCnt pageCnt⟩

/-- The counts of an entry are below `2 ^ 32`. -/
def RunsFirst.Small (rf : RunsFirst) : Prop :=
  rf.runs < 2 ^ 32 ∧ rf.lost < 2 ^ 32

theorem RunsFirst.Recorded.small {pageCnt : ℕ} {rf : RunsFirst} (hcnt : pageCnt < 2 ^ 16)
    (h : rf.Recorded pageCnt) : rf.Small := by
  have hbig : pageCnt < 2 ^ 32 := hcnt.trans (by decide)
  cases h with
  | drained nb =>
      have hscanned := nb.length_scanned_le pageCnt
      have hmiss : nb.missCnt pageCnt ≤ (nb.scanned pageCnt).length := List.countP_le_length
      exact ⟨((countBitmapRuns_le nb pageCnt).trans hscanned).trans_lt hbig,
        (hmiss.trans hscanned).trans_lt hbig⟩
  | collected nb =>
      exact ⟨((countBitmapRuns_le nb pageCnt).trans (nb.length_scanned_le pageCnt)).trans_lt hbig,
        (nb.length_pages_le pageCnt).trans_lt hbig⟩
  | explicit buffer nack h =>
      have hlen := (RtpsNackMsg.length_deserialize buffer).elim h
      have hlt : nack.missingPages.length < 2 ^ 32 := hlen.trans_lt (by decide)
      have hmiss : nack.missCnt pageCnt ≤ nack.missingPages.length := List.countP_le_length
      exact ⟨(countExplicitRuns_le _ _).trans_lt hlt, hmiss.trans_lt hlt⟩

/-! ## The least ratio -/

/-- The entry takes part in the choice. -/
def RunsFirst.Counts (rf : RunsFirst) : Prop :=
  rf.captured = true ∧ rf.lost ≠ 0

/-- Runs to missing pages. -/
def ratio (best : ℕ × ℕ) : ℚ :=
  best.1 / best.2

/-- `best` is the pair of an entry that counts, and of those the least. -/
structure IsBest (entries : List RunsFirst) (best : ℕ × ℕ) : Prop where
  mem : ∃ rf ∈ entries, rf.Counts ∧ best = (rf.runs, rf.lost)
  least : ∀ rf ∈ entries, rf.Counts → ratio best ≤ ratio (rf.runs, rf.lost)

/-- What the loop knows after some entries. -/
def Chosen (entries : List RunsFirst) : Option (ℕ × ℕ) → Prop
  | none => ∀ rf ∈ entries, ¬ rf.Counts
  | some best => IsBest entries best

theorem sizeMul_eq {a b : ℕ} (ha : a < 2 ^ 32) (hb : b < 2 ^ 32) : sizeMul a b = a * b := by
  apply Nat.mod_eq_of_lt
  calc a * b < 2 ^ 32 * 2 ^ 32 := Nat.mul_lt_mul'' ha hb
    _ = 2 ^ 64 := by decide

/-- The products compare the ratios. -/
theorem sizeMul_lt_iff {a b c d : ℕ} (ha : a < 2 ^ 32) (hb : b < 2 ^ 32) (hc : c < 2 ^ 32)
    (hd : d < 2 ^ 32) (hbpos : b ≠ 0) (hdpos : d ≠ 0) :
    sizeMul a d < sizeMul c b ↔ ratio (a, b) < ratio (c, d) := by
  have hb' : (0 : ℚ) < b := Nat.cast_pos.mpr (Nat.pos_of_ne_zero hbpos)
  have hd' : (0 : ℚ) < d := Nat.cast_pos.mpr (Nat.pos_of_ne_zero hdpos)
  rw [sizeMul_eq ha hd, sizeMul_eq hc hb, ratio, ratio, div_lt_div_iff₀ hb' hd']
  exact_mod_cast Iff.rfl

/-- One more entry. -/
theorem Chosen.step {entries : List RunsFirst} {best : Option (ℕ × ℕ)} {rf : RunsFirst}
    (h : Chosen entries best) (hentries : ∀ e ∈ entries, e.Small) (hsmall : rf.Small) :
    Chosen (entries ++ [rf]) (aggregateStep best rf) := by
  unfold aggregateStep
  split_ifs with hskip
  · have hout : ¬ rf.Counts := by
      rintro ⟨hcaptured, hlost⟩
      exact hskip.elim (fun h => h hcaptured) hlost
    cases best with
    | none =>
        intro e he
        rcases List.mem_append.mp he with hold | hnew
        · exact h e hold
        · rwa [List.mem_singleton.mp hnew]
    | some best =>
        obtain ⟨e, he, hcounts, hbest⟩ := h.mem
        refine ⟨⟨e, List.mem_append_left _ he, hcounts, hbest⟩, fun e' he' hcounts' => ?_⟩
        rcases List.mem_append.mp he' with hold | hnew
        · exact h.least e' hold hcounts'
        · rw [List.mem_singleton.mp hnew] at hcounts'
          exact absurd hcounts' hout
  · have hin : rf.Counts := by
      simpa only [RunsFirst.Counts, not_or, not_not] using hskip
    have hself : rf ∈ entries ++ [rf] := List.mem_append_right _ (List.mem_singleton_self rf)
    cases best with
    | none =>
        refine ⟨⟨rf, hself, hin, rfl⟩, fun e he hcounts => ?_⟩
        rcases List.mem_append.mp he with hold | hnew
        · exact absurd hcounts (h e hold)
        · rw [List.mem_singleton.mp hnew]
    | some best =>
        obtain ⟨e, he, hcounts, rfl⟩ := h.mem
        have hcompare := sizeMul_lt_iff hsmall.1 hsmall.2 (hentries e he).1 (hentries e he).2
          hin.2 hcounts.2
        dsimp only
        split_ifs with hlt
        · refine ⟨⟨rf, hself, hin, rfl⟩, fun e' he' hcounts' => ?_⟩
          rcases List.mem_append.mp he' with hold | hnew
          · exact (hcompare.mp hlt).le.trans (h.least e' hold hcounts')
          · rw [List.mem_singleton.mp hnew]
        · refine ⟨⟨e, List.mem_append_left _ he, hcounts, rfl⟩, fun e' he' hcounts' => ?_⟩
          rcases List.mem_append.mp he' with hold | hnew
          · exact h.least e' hold hcounts'
          · rw [List.mem_singleton.mp hnew]
            exact not_lt.mp fun h => hlt (hcompare.mpr h)

theorem chosen_foldl (entries : List RunsFirst) (hsmall : ∀ e ∈ entries, e.Small) :
    Chosen entries (entries.foldl aggregateStep none) := by
  induction entries using List.reverseRecOn with
  | nil => exact fun _ h => nomatch h
  | append_singleton entries rf ih =>
      have hinit : ∀ e ∈ entries, e.Small := fun e he => hsmall e (List.mem_append_left _ he)
      rw [List.foldl_append, List.foldl_cons, List.foldl_nil]
      exact (ih hinit).step hinit
        (hsmall rf (List.mem_append_right _ (List.mem_singleton_self rf)))

/-- `aggregate_runs_first` returns the best pair, or two zeroes where no entry counts. -/
theorem aggregateRunsFirst_spec {entries : List RunsFirst} (hsmall : ∀ e ∈ entries, e.Small) :
    ((∀ rf ∈ entries, ¬ rf.Counts) ∧ aggregateRunsFirst entries = (0, 0)) ∨
      IsBest entries (aggregateRunsFirst entries) := by
  have hchosen := chosen_foldl entries hsmall
  unfold aggregateRunsFirst
  cases hbest : entries.foldl aggregateStep none with
  | none =>
      rw [hbest] at hchosen
      exact Or.inl ⟨hchosen, rfl⟩
  | some best =>
      rw [hbest] at hchosen
      exact Or.inr hchosen

theorem IsBest.ratio_le {entries other : List RunsFirst} {a b : ℕ × ℕ}
    (hsub : ∀ rf ∈ other, rf ∈ entries) (ha : IsBest entries a) (hb : IsBest other b) :
    ratio a ≤ ratio b := by
  obtain ⟨rf, hrf, hcounts, rfl⟩ := hb.mem
  exact ha.least rf (hsub rf hrf) hcounts

/-- In every order of the map the ratio is the same. -/
theorem ratio_aggregateRunsFirst {entries other : List RunsFirst} (hperm : entries.Perm other)
    (hsmall : ∀ e ∈ entries, e.Small) :
    ratio (aggregateRunsFirst other) = ratio (aggregateRunsFirst entries) := by
  have hsub : ∀ rf ∈ other, rf ∈ entries := fun rf h => hperm.mem_iff.mpr h
  have hsup : ∀ rf ∈ entries, rf ∈ other := fun rf h => hperm.mem_iff.mp h
  rcases aggregateRunsFirst_spec hsmall with ⟨hnone, hzero⟩ | hbest <;>
    rcases aggregateRunsFirst_spec fun e he => hsmall e (hsub e he) with ⟨hnone', hzero'⟩ | hbest'
  · rw [hzero, hzero']
  · obtain ⟨rf, hrf, hcounts, -⟩ := hbest'.mem
    exact absurd hcounts (hnone rf (hsub rf hrf))
  · obtain ⟨rf, hrf, hcounts, -⟩ := hbest.mem
    exact absurd hcounts (hnone' rf (hsup rf hrf))
  · exact le_antisymm (hbest'.ratio_le hsup hbest) (hbest.ratio_le hsub hbest')

/-! ## Both encodings of one set -/

/-- The ascending pages of a message that are missing, few enough for the list, within the window
that is opened for them.  Pages are numbered from 1, and so is the base. -/
structure FitsBoth (pageCnt base bits : ℕ) (missing : List ℕ) : Prop where
  ascending : missing.SortedLT
  page : ∀ p ∈ missing, 1 ≤ p ∧ p ≤ pageCnt
  few : missing.length ≤ RtpsNackMsg.maxMissingPages
  numbered : 1 ≤ base
  window : ∀ p ∈ missing, base ≤ p ∧ p < base + min bits RtpsNackBitmapMsg.maxBitmapBits

variable {pageCnt base : UInt16} {bits : ℕ} {missing : List ℕ}

/-- No page number of the list is dropped. -/
theorem FitsBoth.missCnt_list (h : FitsBoth pageCnt.toNat base.toNat bits missing)
    (head : NackHead) :
    (RtpsNackMsg.listOf head missing).missCnt pageCnt.toNat = missing.length := by
  rw [← List.length_map (fun p => UInt16.ofNat p)]
  apply List.countP_eq_length.mpr
  intro page hpage
  obtain ⟨p, hp, rfl⟩ := List.mem_map.mp hpage
  obtain ⟨hpos, hle⟩ := h.page p hp
  have htoNat : (UInt16.ofNat p).toNat = p := RtpsNackMsg.toNat_ofNat_page pageCnt.toNat_lt hle
  have hne : UInt16.ofNat p ≠ 0 := by
    intro hzero
    rw [← UInt16.toNat_inj, htoNat] at hzero
    exact absurd hzero (Nat.ne_of_gt hpos)
  simp only [htoNat, hne, decide_false, Bool.false_or, Bool.not_eq_true', decide_eq_false_iff_not]
  exact Nat.not_lt.mpr hle

/-- The window that has been read back marks the pages of the set. -/
theorem FitsBoth.isMissing_iff (h : FitsBoth pageCnt.toNat base.toNat bits missing)
    (head : NackHead) (p : ℕ) :
    (RtpsNackBitmapMsg.windowOf head base bits missing).received.isMissing p = true
      ↔ p ∈ missing.toFinset := by
  rw [RtpsNackBitmapMsg.isMissing_received, List.mem_toFinset]
  exact ⟨fun hp => hp.1, fun hp => ⟨hp, h.window p hp⟩⟩

theorem FitsBoth.range (h : FitsBoth pageCnt.toNat base.toNat bits missing) (head : NackHead) :
    ∀ p ∈ missing.toFinset,
      (RtpsNackBitmapMsg.windowOf head base bits missing).received.basePage.toNat ≤ p ∧
        p < (RtpsNackBitmapMsg.windowOf head base bits missing).received.basePage.toNat
          + (RtpsNackBitmapMsg.windowOf head base bits missing).received.bitCnt ∧
          p ≤ pageCnt.toNat := by
  intro p hp
  have hmem := List.mem_toFinset.mp hp
  obtain ⟨hle, hlt⟩ := h.window p hmem
  obtain ⟨-, hbase, hbits, hcovered⟩ := RtpsNackBitmapMsg.windowOf_frame head base bits missing
  unfold RtpsNackBitmapMsg.Covered at hcovered
  simp only [RtpsNackBitmapMsg.received, hbase]
  refine ⟨hle, ?_, (h.page p hmem).2⟩
  omega

/-- The pages that the sender takes from the window are those of the set. -/
theorem FitsBoth.length_pages (h : FitsBoth pageCnt.toNat base.toNat bits missing)
    (head : NackHead) :
    ((RtpsNackBitmapMsg.windowOf head base bits missing).received.pages pageCnt.toNat).length
      = missing.length := by
  have hperm := RtpsNackBitmapMsg.perm_pages_received head base bits h.ascending.nodup h.page
  rw [hperm.length_eq, List.filter_eq_self.mpr]
  exact fun p hp => decide_eq_true (h.window p hp)

/-- From either encoding of a set of pages that fits both, once it has been through the wire, a
sender counts the runs of the set and its pages; and of all it has recorded it chooses a pair with
the least ratio, which does not depend on the order of its map. -/
theorem run_counters_agree (pageCnt : UInt16) :
    (∀ (head : NackHead) (base : UInt16) (bits : ℕ) (missing : List ℕ),
      FitsBoth pageCnt.toNat base.toNat bits missing →
        ∃ nack nb,
          RtpsNackMsg.deserialize (RtpsNackMsg.listOf head missing).serialize = .ok nack ∧
          (∀ old : RtpsNackBitmapMsg, old.deserialize
            (RtpsNackBitmapMsg.windowOf head base bits missing).serialize = .ok nb) ∧
          countExplicitRuns nack.missingPages pageCnt.toNat
            = (Runs.runs missing.toFinset).card ∧
          countBitmapRuns nb pageCnt.toNat = (Runs.runs missing.toFinset).card ∧
          nack.missCnt pageCnt.toNat = missing.length ∧
          nb.missCnt pageCnt.toNat = missing.length ∧
          (nb.pages pageCnt.toNat).length = missing.length) ∧
    ∀ entries : List RunsFirst, (∀ rf ∈ entries, rf.Recorded pageCnt.toNat) →
      (((∀ rf ∈ entries, ¬ rf.Counts) ∧ aggregateRunsFirst entries = (0, 0)) ∨
        IsBest entries (aggregateRunsFirst entries)) ∧
      ∀ other, entries.Perm other →
        ratio (aggregateRunsFirst other) = ratio (aggregateRunsFirst entries) := by
  have hcnt : pageCnt.toNat < 2 ^ 16 := pageCnt.toNat_lt
  refine ⟨fun head base bits missing h => ?_, fun entries hrecorded => ?_⟩
  · obtain ⟨-, hbase, hbits, hcovered⟩ := RtpsNackBitmapMsg.windowOf_frame head base bits missing
    have hfits : (RtpsNackBitmapMsg.windowOf head base bits missing).bitCnt
        ≤ RtpsNackBitmapMsg.maxBitmapBits := by
      rw [hbits]
      exact Nat.min_le_right _ _
    have hfirst : 1 ≤ (RtpsNackBitmapMsg.windowOf head base bits missing).received.basePage.toNat := by
      rw [RtpsNackBitmapMsg.received, hbase]
      exact h.numbered
    obtain ⟨hruns, hmiss⟩ := countBitmapRuns_eq hcnt hfirst (h.range head) (h.isMissing_iff head)
    refine ⟨_, _, RtpsNackMsg.deserialize_serialize _ ?_, fun old =>
      RtpsNackBitmapMsg.deserialize_serialize old hcovered hfits,
      countExplicitRuns_eq hcnt h.ascending h.page, hruns, h.missCnt_list head, ?_,
      h.length_pages head⟩
    · rw [RtpsNackMsg.listOf, List.length_map]
      exact h.few
    · rw [hmiss, List.toFinset_card_of_nodup h.ascending.nodup]
  · have hsmall : ∀ e ∈ entries, e.Small := fun e he => (hrecorded e he).small hcnt
    exact ⟨aggregateRunsFirst_spec hsmall, fun other hperm => ratio_aggregateRunsFirst hperm hsmall⟩

/-- Two runs, one of which begins the window and one of which ends the message. -/
theorem run_counters_agree_two : ∃ nack nb,
    RtpsNackMsg.deserialize (RtpsNackMsg.listOf default [3, 4, 10]).serialize = .ok nack ∧
    (∀ old : RtpsNackBitmapMsg, old.deserialize
      (RtpsNackBitmapMsg.windowOf default 3 8 [3, 4, 10]).serialize = .ok nb) ∧
    countExplicitRuns nack.missingPages 10 = 2 ∧ countBitmapRuns nb 10 = 2 ∧
    IsBest [⟨true, countBitmapRuns nb 10, nb.missCnt 10⟩]
      (aggregateRunsFirst [⟨true, countBitmapRuns nb 10, nb.missCnt 10⟩]) := by
  have hfits : FitsBoth (10 : UInt16).toNat (3 : UInt16).toNat 8 [3, 4, 10] :=
    { ascending := by simp [List.sortedLT_iff_pairwise]
      page := by decide
      few := by decide
      numbered := by decide
      window := by decide }
  have hruns : (Runs.runs [3, 4, 10].toFinset).card = 2 := by decide
  obtain ⟨nack, nb, hnack, hnb, hlist, hwindow, -, hmiss, -⟩ :=
    (run_counters_agree 10).1 default 3 8 [3, 4, 10] hfits
  have hentries : ∀ rf ∈ [(⟨true, countBitmapRuns nb 10, nb.missCnt 10⟩ : RunsFirst)],
      rf.Recorded (10 : UInt16).toNat := by
    intro rf hrf
    rw [List.mem_singleton.mp hrf]
    exact .drained nb
  have hcounts : RunsFirst.Counts ⟨true, countBitmapRuns nb 10, nb.missCnt 10⟩ :=
    ⟨rfl, fun hzero => absurd (hmiss.symm.trans hzero) (by decide)⟩
  refine ⟨nack, nb, hnack, hnb, hlist.trans hruns, hwindow.trans hruns, ?_⟩
  rcases ((run_counters_agree 10).2 _ hentries).1 with ⟨hnone, -⟩ | hbest
  · exact absurd hcounts (hnone _ (List.mem_singleton_self _))
  · exact hbest

end DzIpc.Udp
