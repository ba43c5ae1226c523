import DzIpc.Library.Outcome

/-!
# One fallible computation follows another

`Follows stops silent rel x y` compares a computation `x` with one that says what `x` should do: a
result of `y` is matched by a result of `x`, related by `rel`, and a failure of `y` by one of the
failures of `x` that `stops` names.  Some failures of `y` are `silent`: behind them nothing is said.
The rules follow the shape of the two programs, as those of `Returns` do.
-/

namespace DzIpc

universe u v w

variable {ε : Type v} {δ : Type w} {α β α' β' : Type u}

/-- `x` does what `y` says. -/
def Follows (stops : δ → ε → Prop) (silent : δ → Prop) (rel : α → β → Prop) (x : Except ε α)
    (y : Except δ β) : Prop :=
  match y with
  | .ok b => ∃ a, x = .ok a ∧ rel a b
  | .error e => silent e ∨ ∃ d, x = .error d ∧ stops e d

namespace Follows

variable {stops : δ → ε → Prop} {silent : δ → Prop} {rel : α → β → Prop} {x : Except ε α}
  {y : Except δ β}

theorem ok {a : α} {b : β} (hrel : rel a b) :
    Follows stops silent rel (.ok a : Except ε α) (.ok b : Except δ β) :=
  ⟨a, rfl, hrel⟩

theorem pure {a : α} {b : β} (hrel : rel a b) :
    Follows stops silent rel (Pure.pure a : Except ε α) (Pure.pure b : Except δ β) :=
  ⟨a, rfl, hrel⟩

theorem error {d : ε} {e : δ} (hstops : stops e d) :
    Follows stops silent rel (.error d : Except ε α) (.error e : Except δ β) :=
  .inr ⟨d, rfl, hstops⟩

theorem of_silent {e : δ} (he : silent e) : Follows stops silent rel x (.error e : Except δ β) :=
  .inl he

theorem bind {f : α → Except ε α'} {g : β → Except δ β'} {rel' : α' → β' → Prop}
    (hx : Follows stops silent rel x y)
    (hf : ∀ a b, rel a b → Follows stops silent rel' (f a) (g b)) :
    Follows stops silent rel' (x >>= f) (y >>= g) := by
  cases y with
  | ok b =>
    obtain ⟨a, rfl, hrel⟩ := hx
    exact hf a b hrel
  | error e =>
    obtain he | ⟨d, rfl, hstops⟩ := hx
    · exact .inl he
    · exact .inr ⟨d, rfl, hstops⟩

theorem mono {rel' : α → β → Prop} (hx : Follows stops silent rel x y)
    (himp : ∀ a b, rel a b → rel' a b) : Follows stops silent rel' x y := by
  cases y with
  | ok b =>
    obtain ⟨a, rfl, hrel⟩ := hx
    exact ⟨a, rfl, himp a b hrel⟩
  | error e => exact hx

/-- What is known of the results of `y` may be used. -/
theorem and_yields {post : β → Prop} (hx : Follows stops silent rel x y) (hy : Yields y post) :
    Follows stops silent (fun a b => rel a b ∧ post b) x y := by
  cases y with
  | ok b =>
    obtain ⟨a, rfl, hrel⟩ := hx
    exact ⟨a, rfl, hrel, hy⟩
  | error e => exact hx

end Follows

end DzIpc
