import Mathlib.Tactic.Common

/-!
# Computations that may fault

`Returns x post` says that a computation `x : Except ε α` ends without a fault and that its
result meets `post`.  The rules follow the shape of a program: `Returns.bind` for a
sequence, `Returns.mono` for a weaker postcondition, `Returns.ite` for a branch.
`Yields x post` asks for the same postcondition only of a computation that does not fault.
-/

namespace DzIpc

universe u v

variable {ε : Type v} {α β : Type u}

/-- A sequence whose first part is known to return. -/
theorem bind_of_ok {x : Except ε α} {f : α → Except ε β} {a : α} (h : x = .ok a) :
    (x >>= f) = f a := by
  rw [h]
  rfl

/-- The computation ends without a fault, in a result that meets `post`. -/
def Returns (x : Except ε α) (post : α → Prop) : Prop :=
  ∃ a, x = .ok a ∧ post a

instance (x : Except ε α) (post : α → Prop) [∀ a, Decidable (post a)] :
    Decidable (Returns x post) :=
  match x with
  | .ok a => decidable_of_iff (post a) (by simp [Returns])
  | .error _ => isFalse (by simp [Returns])

namespace Returns

variable {x : Except ε α} {post : α → Prop}

theorem ok {a : α} (ha : post a) : Returns (.ok a : Except ε α) post :=
  ⟨a, rfl, ha⟩

theorem pure {a : α} (ha : post a) : Returns (Pure.pure a : Except ε α) post :=
  ⟨a, rfl, ha⟩

theorem bind {f : α → Except ε β} {goal : β → Prop} (hx : Returns x post)
    (hf : ∀ a, post a → Returns (f a) goal) : Returns (x >>= f) goal := by
  obtain ⟨a, rfl, ha⟩ := hx
  exact hf a ha

theorem map {f : α → β} {goal : β → Prop} (hx : Returns x post) (hf : ∀ a, post a → goal (f a)) :
    Returns (f <$> x) goal := by
  obtain ⟨a, rfl, ha⟩ := hx
  exact ⟨f a, rfl, hf a ha⟩

theorem mono {goal : α → Prop} (hx : Returns x post) (himp : ∀ a, post a → goal a) :
    Returns x goal := by
  obtain ⟨a, rfl, ha⟩ := hx
  exact ⟨a, rfl, himp a ha⟩

theorem ite {p : Prop} [Decidable p] {y : Except ε α} (hx : p → Returns x post)
    (hy : ¬ p → Returns y post) : Returns (if p then x else y) post := by
  split
  · exact hx ‹p›
  · exact hy ‹¬ p›

theorem and {more : α → Prop} (hx : Returns x post) (hy : Returns x more) :
    Returns x fun a => post a ∧ more a := by
  obtain ⟨a, rfl, ha⟩ := hx
  obtain ⟨b, hb, hmore⟩ := hy
  cases hb
  exact ⟨a, rfl, ha, hmore⟩

/-- Elements that are computed one after the other. -/
theorem mapM {items : List α} {f : α → Except ε β} {goal : α → β → Prop}
    (hf : ∀ a ∈ items, Returns (f a) (goal a)) :
    Returns (items.mapM f) fun results : List β => results.length = items.length ∧
      ∀ (i : Nat) b, results[i]? = some b → ∃ a, items[i]? = some a ∧ goal a b := by
  induction items with
  | nil => exact ⟨[], rfl, rfl, fun i b h => by simp at h⟩
  | cons a items ih =>
    rw [List.forall_mem_cons] at hf
    obtain ⟨b, hb, hgoal⟩ := hf.1
    obtain ⟨results, hresults, hlen, hall⟩ := ih hf.2
    refine ⟨b :: results, ?_, congrArg (· + 1) hlen, fun i c hc => ?_⟩
    · rw [List.mapM_cons, hb, hresults]
      rfl
    · cases i with
      | zero =>
        obtain rfl := Option.some.inj hc
        exact ⟨a, rfl, hgoal⟩
      | succ i => exact hall i c hc

/-- The result of a computation that is known to return it. -/
theorem of_eq {a : α} (hx : x = .ok a) (ha : post a) : Returns x post :=
  ⟨a, hx, ha⟩

end Returns

/-- A result of the computation, if there is one, meets `post`. -/
def Yields (x : Except ε α) (post : α → Prop) : Prop :=
  match x with
  | .ok a => post a
  | .error _ => True

instance (x : Except ε α) (post : α → Prop) [∀ a, Decidable (post a)] :
    Decidable (Yields x post) :=
  match x with
  | .ok a => inferInstanceAs (Decidable (post a))
  | .error _ => inferInstanceAs (Decidable True)

namespace Yields

variable {x : Except ε α} {post : α → Prop}

theorem pure {a : α} (ha : post a) : Yields (Pure.pure a : Except ε α) post := ha

theorem of_forall (hpost : ∀ a, post a) : Yields x post := by
  cases x with
  | error e => trivial
  | ok a => exact hpost a

theorem any : Yields x fun _ => True :=
  .of_forall fun _ => trivial

theorem mono {goal : α → Prop} (hx : Yields x post) (himp : ∀ a, post a → goal a) :
    Yields x goal := by
  cases x with
  | error e => trivial
  | ok a => exact himp a hx

/-- A result that is known. -/
theorem elim {a : α} (hx : Yields x post) (ha : x = .ok a) : post a := by
  subst ha
  exact hx

theorem bind {f : α → Except ε β} {goal : β → Prop} (hx : Yields x post)
    (hf : ∀ a, post a → Yields (f a) goal) : Yields (x >>= f) goal := by
  cases x with
  | error e => trivial
  | ok a => exact hf a hx

theorem ite {p : Prop} [Decidable p] {y : Except ε α} (hx : p → Yields x post)
    (hy : ¬ p → Yields y post) : Yields (if p then x else y) post := by
  split
  · exact hx ‹p›
  · exact hy ‹¬ p›

/-- Elements that are computed one after the other. -/
theorem mapM {items : List α} {f : α → Except ε β} {goal : α → β → Prop}
    (hf : ∀ a ∈ items, Yields (f a) (goal a)) :
    Yields (items.mapM f) (List.Forall₂ goal items) := by
  induction items with
  | nil => exact .pure .nil
  | cons a items ih =>
    rw [List.forall_mem_cons] at hf
    rw [List.mapM_cons]
    refine hf.1.bind fun b hb => ?_
    exact (ih hf.2).bind fun results hresults => .pure (.cons hb hresults)

end Yields

/-- A computation with no result faults. -/
theorem not_returns_of_yields_false {x : Except ε α} {post : α → Prop}
    (hx : Yields x fun _ => False) : ¬ Returns x post := by
  rintro ⟨a, rfl, -⟩
  exact hx

theorem Returns.and_yields {x : Except ε α} {post more : α → Prop} (hx : Returns x post)
    (hmore : Yields x more) : Returns x fun a => post a ∧ more a := by
  obtain ⟨a, rfl, ha⟩ := hx
  exact ⟨a, rfl, ha, hmore⟩

end DzIpc
