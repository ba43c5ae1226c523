import Mathlib.Algebra.Group.Int.Defs
import Mathlib.Algebra.Group.Nat.Defs
import Mathlib.Data.Int.Notation
import Mathlib.Data.List.Basic
import Mathlib.Tactic.Common

/-!
# Numerals in text of bytes

The integer conversions of the C library skip white space, take a sign and then digits, and say
where they stopped.  The unsigned ones take a minus sign too, and negate in the range of the type.

* `denoted` is the number that a text stands for, if all of it is a numeral.
* `stoll_eq_some` and `stoull_eq_some` say what a conversion of the whole text gives: the number
  itself, and the number modulo the range.
-/

namespace DzIpc.Numeral

/-- `isspace` in the C locale. -/
def isSpace (b : UInt8) : Bool := b = 32 || 9 ≤ b && b ≤ 13

def isDigit (b : UInt8) : Bool := 48 ≤ b && b ≤ 57

/-- The number with the given digits, the highest first. -/
def digitsValue (digits : List UInt8) : ℕ :=
  digits.foldl (fun n b => 10 * n + (b.toNat - 48)) 0

/-- A sign, if there is one: whether it is a minus, and what follows. -/
def sign : List UInt8 → Bool × List UInt8
  | [] => (false, [])
  | b :: rest => if b = 45 then (true, rest) else if b = 43 then (false, rest) else (false, b :: rest)

/-- A numeral at the start of a text, and the text behind it. -/
structure Scanned where
  negative : Bool
  magnitude : ℕ
  rest : List UInt8
  deriving DecidableEq, Repr

/-- Its number. -/
def Scanned.value (n : Scanned) : ℤ :=
  if n.negative then -n.magnitude else n.magnitude

/-- White space, a sign, and at least one digit. -/
def scan (s : List UInt8) : Option Scanned :=
  let signed := sign (s.dropWhile isSpace)
  let digits := signed.2.takeWhile isDigit
  if digits = [] then none
  else
    some
      { negative := signed.1
        magnitude := digitsValue digits
        rest := signed.2.dropWhile isDigit }

/-- `std::stoll`: the value and the text behind it.  Neither a text without a numeral nor a number
out of the range has one. -/
def stoll (s : List UInt8) : Option (ℤ × List UInt8) :=
  match scan s with
  | none => none
  | some n => if -2 ^ 63 ≤ n.value ∧ n.value < 2 ^ 63 then some (n.value, n.rest) else none

/-- `std::stoull`. -/
def stoull (s : List UInt8) : Option (ℕ × List UInt8) :=
  match scan s with
  | none => none
  | some n =>
      if n.magnitude < 2 ^ 64 then
        some (if n.negative then (2 ^ 64 - n.magnitude) % 2 ^ 64 else n.magnitude, n.rest)
      else none

/-- The number that the text denotes, all of it. -/
def denoted (s : List UInt8) : Option ℤ :=
  match scan s with
  | none => none
  | some n => if n.rest = [] then some n.value else none

variable {s : List UInt8}

theorem denoted_eq_some {z : ℤ} :
    denoted s = some z ↔ ∃ n, scan s = some n ∧ n.rest = [] ∧ n.value = z := by
  unfold denoted
  cases hscan : scan s with
  | none => simp
  | some n => by_cases hrest : n.rest = [] <;> simp [hrest]

/-- A signed conversion of the whole text gives the number it denotes. -/
theorem stoll_eq_some {v : ℤ} :
    stoll s = some (v, []) ↔ denoted s = some v ∧ -2 ^ 63 ≤ v ∧ v < 2 ^ 63 := by
  rw [denoted_eq_some]
  unfold stoll
  cases hscan : scan s with
  | none => simp
  | some n =>
      constructor
      · intro h
        dsimp only at h
        split at h
        · rename_i hrange
          obtain ⟨hvalue, hrest⟩ := Prod.mk.inj (Option.some.inj h)
          exact ⟨⟨n, rfl, hrest, hvalue⟩, hvalue ▸ hrange⟩
        · nomatch h
      · rintro ⟨⟨m, hm, hrest, rfl⟩, hrange⟩
        cases hm
        dsimp only
        rw [if_pos hrange, hrest]

/-- An unsigned conversion of the whole text gives the number it denotes, modulo the range. -/
theorem stoull_eq_some {v : ℕ} (h : stoull s = some (v, [])) :
    ∃ z : ℤ, denoted s = some z ∧ (v : ℤ) = z % 2 ^ 64 ∧ z < 2 ^ 64 := by
  unfold stoull at h
  cases hscan : scan s with
  | none =>
      rw [hscan] at h
      nomatch h
  | some n =>
      rw [hscan] at h
      dsimp only at h
      split at h
      · rename_i hsmall
        obtain ⟨hvalue, hrest⟩ := Prod.mk.inj (Option.some.inj h)
        refine ⟨n.value, denoted_eq_some.mpr ⟨n, hscan, hrest, rfl⟩, ?_⟩
        unfold Scanned.value
        cases hneg : n.negative <;> simp only [hneg] at hvalue ⊢ <;> simp at hvalue ⊢ <;> omega
      · nomatch h

end DzIpc.Numeral
