import Mathlib.Data.List.Nodup
import Mathlib.Data.Nat.Notation
import Mathlib.Logic.Function.Basic
import Mathlib.Tactic.Common

/-!
# Ledgers of tickets

Tickets are numbered as they are issued.  A ticket has a holder until it is redeemed; holders
pass tickets on, and may forget them.  A ledger keeps the number of tickets issued, what each
holder holds, and the tickets redeemed.

* `Sound` says that tickets are neither held nor redeemed twice; `Lost` that some ticket is
  neither held nor redeemed.
* `Keeps` and `Loses` say what a step does about lost tickets, and compose: issuing, redeeming
  and passing on keep, forgetting loses.
* `redeemed_once_iff`: when nobody holds a ticket any more, all tickets have been redeemed
  exactly once if and only if none is lost.
-/

namespace DzIpc

/-- Tickets issued, held and redeemed, the last redeemed first. -/
structure Tickets (Holder : Type*) where
  next : ℕ
  holds : Holder → Option ℕ
  redeemed : List ℕ

namespace Tickets

variable {Holder : Type*}

/-- No ticket is held by two holders, held and redeemed, or redeemed twice, and all have been
issued. -/
structure Sound (L : Tickets Holder) : Prop where
  held : ∀ {h n}, L.holds h = some n → n < L.next ∧ n ∉ L.redeemed
  unique : ∀ {h h' n}, L.holds h = some n → L.holds h' = some n → h = h'
  issued : ∀ {n}, n ∈ L.redeemed → n < L.next
  nodup : L.redeemed.Nodup

/-- Some ticket is neither held nor redeemed. -/
def Lost (L : Tickets Holder) : Prop :=
  ∃ n < L.next, n ∉ L.redeemed ∧ ∀ h, L.holds h ≠ some n

/-- From a sound ledger the step leads to a sound one, with a lost ticket exactly if there was
one. -/
def Keeps (L L' : Tickets Holder) : Prop :=
  L.Sound → L'.Sound ∧ (L'.Lost ↔ L.Lost)

/-- From a sound ledger the step leads to a sound one with a lost ticket. -/
def Loses (L L' : Tickets Holder) : Prop :=
  L.Sound → L'.Sound ∧ L'.Lost

theorem Keeps.refl (L : Tickets Holder) : Keeps L L :=
  fun h => ⟨h, Iff.rfl⟩

theorem Keeps.trans {L L' L'' : Tickets Holder} (h : Keeps L L') (h' : Keeps L' L'') :
    Keeps L L'' := by
  intro hsound
  obtain ⟨hsound', hiff⟩ := h hsound
  obtain ⟨hsound'', hiff'⟩ := h' hsound'
  exact ⟨hsound'', hiff'.trans hiff⟩

theorem Keeps.loses {L L' L'' : Tickets Holder} (h : Keeps L L') (h' : Loses L' L'') :
    Loses L L'' :=
  fun hsound => h' (h hsound).1

/-- **Redeemed exactly once.**  When nobody holds a ticket any more, every ticket issued has
been redeemed exactly once if and only if none is lost. -/
theorem redeemed_once_iff {L : Tickets Holder} (hsound : L.Sound) (hnone : ∀ h, L.holds h = none) :
    (∀ n < L.next, L.redeemed.count n = 1) ↔ ¬ L.Lost := by
  constructor
  · rintro honce ⟨n, hn, hred, -⟩
    have hzero : L.redeemed.count n = 0 := List.count_eq_zero.mpr hred
    rw [honce n hn] at hzero
    cases hzero
  · intro hlost n hn
    apply List.count_eq_one_of_mem hsound.nodup
    by_contra hred
    exact hlost ⟨n, hn, hred, fun h hh => by rw [hnone h] at hh; cases hh⟩

/-! ## The steps -/

variable [DecidableEq Holder] (L : Tickets Holder)

/-- A new ticket for a holder. -/
def issue (h : Holder) : Tickets Holder :=
  { L with next := L.next + 1, holds := Function.update L.holds h (some L.next) }

/-- A new ticket that is redeemed at once. -/
def stamp : Tickets Holder :=
  { L with next := L.next + 1, redeemed := L.next :: L.redeemed }

/-- A new ticket that nobody gets. -/
def void : Tickets Holder :=
  { L with next := L.next + 1 }

/-- A holder redeems its ticket. -/
def redeem (h : Holder) (n : ℕ) : Tickets Holder :=
  { L with holds := Function.update L.holds h none, redeemed := n :: L.redeemed }

/-- A holder passes its ticket on. -/
def pass (h h' : Holder) : Tickets Holder :=
  { L with holds := Function.update (Function.update L.holds h' (L.holds h)) h none }

/-- A holder forgets its ticket. -/
def forget (h : Holder) : Tickets Holder :=
  { L with holds := Function.update L.holds h none }

variable {L}

/-- A new ticket goes to a holder who has none. -/
theorem keeps_issue {h : Holder} (hfree : L.holds h = none) : Keeps L (L.issue h) := by
  intro hsound
  -- the new ticket was not held before
  have hnew : ∀ h', L.holds h' ≠ some L.next := fun h' hh => Nat.lt_irrefl _ (hsound.held hh).1
  refine ⟨⟨?_, ?_, ?_, hsound.nodup⟩, ?_⟩
  · intro k n hk
    by_cases hkh : k = h
    · subst hkh
      obtain rfl : L.next = n := by simpa [issue] using hk
      exact ⟨Nat.lt_succ_self _, fun hmem => Nat.lt_irrefl _ (hsound.issued hmem)⟩
    · have hold : L.holds k = some n := by simpa [issue, hkh] using hk
      exact ⟨Nat.lt_succ_of_lt (hsound.held hold).1, (hsound.held hold).2⟩
  · intro k k' n hk hk'
    by_cases hkh : k = h <;> by_cases hkh' : k' = h
    · rw [hkh, hkh']
    · subst hkh
      obtain rfl : L.next = n := by simpa [issue] using hk
      exact absurd (by simpa [issue, hkh'] using hk') (hnew k')
    · subst hkh'
      obtain rfl : L.next = n := by simpa [issue] using hk'
      exact absurd (by simpa [issue, hkh] using hk) (hnew k)
    · exact hsound.unique (by simpa [issue, hkh] using hk) (by simpa [issue, hkh'] using hk')
  · exact fun hmem => Nat.lt_succ_of_lt (hsound.issued hmem)
  · constructor
    · rintro ⟨n, hn, hred, hnone⟩
      have hne : n ≠ L.next := by
        rintro rfl
        exact hnone h (by simp [issue])
      refine ⟨n, Nat.lt_of_le_of_ne (Nat.le_of_lt_succ hn) hne, hred, fun k hk => ?_⟩
      have hkh : k ≠ h := by
        rintro rfl
        rw [hfree] at hk
        cases hk
      exact hnone k (by simpa [issue, hkh] using hk)
    · rintro ⟨n, hn, hred, hnone⟩
      refine ⟨n, Nat.lt_succ_of_lt hn, hred, fun k hk => ?_⟩
      by_cases hkh : k = h
      · subst hkh
        obtain rfl : L.next = n := by simpa [issue] using hk
        exact Nat.lt_irrefl _ hn
      · exact hnone k (by simpa [issue, hkh] using hk)

omit [DecidableEq Holder] in
theorem keeps_stamp : Keeps L L.stamp := by
  intro hsound
  have hnew : L.next ∉ L.redeemed := fun hmem => Nat.lt_irrefl _ (hsound.issued hmem)
  refine ⟨⟨fun hk => ?_, hsound.unique, fun hmem => ?_, List.nodup_cons.mpr ⟨hnew, hsound.nodup⟩⟩, ?_⟩
  · obtain ⟨hlt, hnot⟩ := hsound.held hk
    exact ⟨Nat.lt_succ_of_lt hlt, List.not_mem_cons_of_ne_of_not_mem (Nat.ne_of_lt hlt) hnot⟩
  · rcases List.mem_cons.mp hmem with rfl | hmem
    · exact Nat.lt_succ_self _
    · exact Nat.lt_succ_of_lt (hsound.issued hmem)
  · constructor
    · rintro ⟨n, hn, hred, hnone⟩
      obtain ⟨hne, hnot⟩ := not_or.mp (List.mem_cons.not.mp hred)
      exact ⟨n, Nat.lt_of_le_of_ne (Nat.le_of_lt_succ hn) hne, hnot, hnone⟩
    · rintro ⟨n, hn, hred, hnone⟩
      exact ⟨n, Nat.lt_succ_of_lt hn, List.not_mem_cons_of_ne_of_not_mem (Nat.ne_of_lt hn) hred, hnone⟩

omit [DecidableEq Holder] in
theorem loses_void : Loses L L.void := by
  intro hsound
  refine ⟨⟨fun hk => ?_, hsound.unique, fun hmem => Nat.lt_succ_of_lt (hsound.issued hmem),
    hsound.nodup⟩, L.next, Nat.lt_succ_self _, fun hmem => ?_, fun h hh => ?_⟩
  · obtain ⟨hlt, hnot⟩ := hsound.held hk
    exact ⟨Nat.lt_succ_of_lt hlt, hnot⟩
  · exact Nat.lt_irrefl _ (hsound.issued hmem)
  · exact Nat.lt_irrefl _ (hsound.held hh).1

/-- What a holder held is held by nobody else once it is taken from it. -/
theorem Sound.forget_sound (hsound : L.Sound) (h : Holder) : (L.forget h).Sound := by
  have hsub : ∀ {k n}, (L.forget h).holds k = some n → L.holds k = some n ∧ k ≠ h := by
    intro k n hk
    by_cases hkh : k = h
    · subst hkh
      simp [forget] at hk
    · exact ⟨by simpa [forget, hkh] using hk, hkh⟩
  refine ⟨fun hk => hsound.held (hsub hk).1, fun hk hk' => hsound.unique (hsub hk).1 (hsub hk').1,
    hsound.issued, hsound.nodup⟩

theorem keeps_redeem {h : Holder} {n : ℕ} (hheld : L.holds h = some n) :
    Keeps L (L.redeem h n) := by
  intro hsound
  obtain ⟨hlt, hfresh⟩ := hsound.held hheld
  have hforget := hsound.forget_sound h
  have hother : ∀ {k m}, (L.redeem h n).holds k = some m → L.holds k = some m ∧ m ≠ n := by
    intro k m hk
    have hkh : k ≠ h := by
      rintro rfl
      simp [redeem] at hk
    have hold : L.holds k = some m := by simpa [redeem, hkh] using hk
    exact ⟨hold, fun heq => hkh (hsound.unique (heq ▸ hold) hheld)⟩
  refine ⟨⟨fun hk => ?_, hforget.unique, fun hmem => ?_, List.nodup_cons.mpr ⟨hfresh, hsound.nodup⟩⟩, ?_⟩
  · obtain ⟨hold, hne⟩ := hother hk
    obtain ⟨hlt', hnot⟩ := hsound.held hold
    exact ⟨hlt', fun hmem => (List.mem_cons.mp hmem).elim hne hnot⟩
  · rcases List.mem_cons.mp hmem with rfl | hmem
    · exact hlt
    · exact hsound.issued hmem
  · constructor
    · rintro ⟨m, hm, hred, hnone⟩
      obtain ⟨hne, hnot⟩ := not_or.mp (List.mem_cons.not.mp hred)
      refine ⟨m, hm, hnot, fun k hk => ?_⟩
      have hkh : k ≠ h := by
        rintro rfl
        rw [hheld] at hk
        exact hne (Option.some.inj hk).symm
      exact hnone k (by simpa [redeem, hkh] using hk)
    · rintro ⟨m, hm, hred, hnone⟩
      have hne : m ≠ n := fun heq => hnone h (heq ▸ hheld)
      exact ⟨m, hm, List.not_mem_cons_of_ne_of_not_mem hne hred, fun k hk => hnone k (hother hk).1⟩

/-- A ticket is passed on to a holder who has none. -/
theorem keeps_pass {h h' : Holder} (hne : h ≠ h') (hfree : L.holds h' = none) :
    Keeps L (L.pass h h') := by
  intro hsound
  have hget : (L.pass h h').holds h' = L.holds h := by simp [pass, hne.symm]
  have hgone : (L.pass h h').holds h = none := by simp [pass]
  have hrest : ∀ k, k ≠ h → k ≠ h' → (L.pass h h').holds k = L.holds k := by
    intro k hk hk'
    simp [pass, hk, hk']
  -- whoever holds a ticket afterwards, somebody held it before
  have hsource : ∀ {k n}, (L.pass h h').holds k = some n →
      k = h' ∧ L.holds h = some n ∨ k ≠ h' ∧ k ≠ h ∧ L.holds k = some n := by
    intro k n hk
    by_cases hk' : k = h'
    · subst hk'
      exact Or.inl ⟨rfl, hget ▸ hk⟩
    · have hkh : k ≠ h := by
        rintro rfl
        rw [hgone] at hk
        cases hk
      exact Or.inr ⟨hk', hkh, hrest k hkh hk' ▸ hk⟩
  refine ⟨⟨fun hk => ?_, fun hk hk' => ?_, hsound.issued, hsound.nodup⟩, ?_⟩
  · rcases hsource hk with ⟨-, hold⟩ | ⟨-, -, hold⟩
    · exact hsound.held hold
    · exact hsound.held hold
  · rcases hsource hk with ⟨rfl, hold⟩ | ⟨-, hkh, hold⟩ <;>
      rcases hsource hk' with ⟨rfl, hold'⟩ | ⟨-, hkh', hold'⟩
    · rfl
    · exact absurd (hsound.unique hold' hold) hkh'
    · exact absurd (hsound.unique hold hold') hkh
    · exact hsound.unique hold hold'
  · have hiff : ∀ n, (∀ k, (L.pass h h').holds k ≠ some n) ↔ ∀ k, L.holds k ≠ some n := by
      intro n
      refine ⟨fun hnone k hk => ?_, fun hnone k hk => ?_⟩
      · by_cases hkh : k = h
        · subst hkh
          exact hnone h' (hget.trans hk)
        · have hk' : k ≠ h' := by
            rintro rfl
            rw [hfree] at hk
            cases hk
          exact hnone k ((hrest k hkh hk').trans hk)
      · rcases hsource hk with ⟨-, hold⟩ | ⟨-, -, hold⟩
        · exact hnone h hold
        · exact hnone k hold
    exact exists_congr fun n => and_congr_right fun _ => and_congr_right fun _ => hiff n

/-- A ticket that its holder forgets is lost. -/
theorem loses_forget {h : Holder} {n : ℕ} (hheld : L.holds h = some n) :
    Loses L (L.forget h) := by
  intro hsound
  obtain ⟨hlt, hfresh⟩ := hsound.held hheld
  refine ⟨hsound.forget_sound h, n, hlt, hfresh, fun k hk => ?_⟩
  by_cases hkh : k = h
  · subst hkh
    simp [forget] at hk
  · exact hkh (hsound.unique (by simpa [forget, hkh] using hk) hheld)

end Tickets

end DzIpc
