import Mathlib.Data.List.Basic
import Mathlib.Data.Nat.Notation
import Mathlib.Order.Basic
import Mathlib.Tactic.Common

/-!
# Lines that can be jumped

Numbers join a line at its end, each larger than those before, and leave it at its head or, when
the last one jumps the line, at its end.  A line is *in order* if those that have left, followed
by those that wait, are those that joined.

* `Sound` holds whatever happens; `inOrder_join`, `inOrder_serve` and `inOrder_jump` say for each
  step that the line is in order after it if and only if it was before, and, for a jump, if
  there was nobody to jump.
-/

namespace DzIpc

/-- Who has joined, who has left and who waits, the first one first. -/
structure Line where
  served : List ℕ
  waiting : List ℕ
  joined : List ℕ

namespace Line

variable {L : Line} {n : ℕ} {rest : List ℕ}

/-- A number joins at the end. -/
def join (L : Line) (n : ℕ) : Line :=
  { L with waiting := L.waiting ++ [n], joined := L.joined ++ [n] }

/-- A number leaves, and the others wait on. -/
def leave (L : Line) (n : ℕ) (rest : List ℕ) : Line :=
  { L with served := L.served ++ [n], waiting := rest }

/-- In order. -/
def InOrder (L : Line) : Prop :=
  L.served ++ L.waiting = L.joined

/-- The numbers grow, and who waits has joined. -/
structure Sound (L : Line) : Prop where
  joined : L.joined.Pairwise (· < ·)
  waiting : L.waiting.Pairwise (· < ·)
  sub : ∀ m ∈ L.waiting, m ∈ L.joined

theorem Sound.join (h : L.Sound) (hn : ∀ m ∈ L.joined, m < n) : (L.join n).Sound where
  joined := List.pairwise_append.mpr
    ⟨h.joined, List.pairwise_singleton _ _, fun m hm k hk => List.mem_singleton.mp hk ▸ hn m hm⟩
  waiting := List.pairwise_append.mpr
    ⟨h.waiting, List.pairwise_singleton _ _,
      fun m hm k hk => List.mem_singleton.mp hk ▸ hn m (h.sub m hm)⟩
  sub := by
    intro m hm
    rcases List.mem_append.mp hm with hm | hm
    · exact List.mem_append_left _ (h.sub m hm)
    · exact List.mem_append_right _ hm

theorem Sound.leave (h : L.Sound) (hrest : rest.Sublist L.waiting) : (L.leave n rest).Sound where
  joined := h.joined
  waiting := h.waiting.sublist hrest
  sub := fun m hm => h.sub m (hrest.subset hm)

theorem inOrder_join : (L.join n).InOrder ↔ L.InOrder := by
  unfold InOrder join
  rw [← List.append_assoc]
  exact List.append_left_inj _

theorem inOrder_serve (hhead : L.waiting = n :: rest) : (L.leave n rest).InOrder ↔ L.InOrder := by
  have hsame : L.served ++ [n] ++ rest = L.served ++ L.waiting := by
    rw [hhead, List.append_assoc]
    rfl
  unfold InOrder leave
  rw [hsame]

/-- The last one jumps the line. -/
theorem inOrder_jump (h : L.Sound) (hlast : L.waiting = rest ++ [n]) :
    (L.leave n rest).InOrder ↔ L.InOrder ∧ rest = [] := by
  constructor
  · intro horder
    have hrest : rest = [] := by
      apply List.eq_nil_iff_forall_not_mem.mpr
      intro m hm
      -- whoever was jumped has a smaller number, and comes later
      have hwaiting := h.waiting
      rw [hlast] at hwaiting
      have hlt : m < n := (List.pairwise_append.mp hwaiting).2.2 m hm n (List.mem_singleton_self n)
      have hjoined := h.joined
      rw [← show (L.leave n rest).served ++ rest = L.joined from horder] at hjoined
      have hgt : n < m := (List.pairwise_append.mp hjoined).2.2 n (by simp [leave]) m hm
      exact Nat.lt_asymm hlt hgt
    subst hrest
    exact ⟨(inOrder_serve hlast).mp horder, rfl⟩
  · rintro ⟨horder, rfl⟩
    exact (inOrder_serve hlast).mpr horder

end Line

end DzIpc
