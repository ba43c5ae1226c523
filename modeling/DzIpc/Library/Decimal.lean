import Mathlib.Data.List.Basic
import Mathlib.Tactic.Common

/-!
# Decimal numbers in text of bytes

* `bytesOf_injective`: characters below 256 are recovered from their bytes.
* `decimal_injective` and `mem_decimal`: the decimal digits of a number say which it is, and they
  are digits.
-/

namespace DzIpc

/-- Characters as bytes. -/
def bytesOf (chars : List Char) : List UInt8 := chars.map fun c => .ofNat c.toNat

/-- The decimal digits of a number, the highest first. -/
def decimal (n : ℕ) : List UInt8 := bytesOf (Nat.toDigits 10 n)

/-- Characters that are bytes are recovered. -/
theorem bytesOf_injective {chars chars' : List Char} (h : ∀ c ∈ chars, c.toNat < 256)
    (h' : ∀ c ∈ chars', c.toNat < 256) (heq : bytesOf chars = bytesOf chars') :
    chars = chars' := by
  have hback : ∀ {chars : List Char}, (∀ c ∈ chars, c.toNat < 256) →
      (bytesOf chars).map (fun b => Char.ofNat b.toNat) = chars := by
    intro chars h
    rw [bytesOf, List.map_map]
    refine (List.map_congr_left fun c hc => ?_).trans (List.map_id chars)
    have hbyte : (UInt8.ofNat c.toNat).toNat = c.toNat := by
      rw [UInt8.toNat_ofNat', Nat.mod_eq_of_lt (h c hc)]
    rw [Function.comp_apply, hbyte, Char.ofNat_toNat, id]
  rw [← hback h, heq, hback h']

theorem isDigit_lt {c : Char} (h : c.isDigit = true) : 48 ≤ c.toNat ∧ c.toNat ≤ 57 := by
  simp only [Char.isDigit, ge_iff_le, Bool.and_eq_true, decide_eq_true_eq] at h
  exact h

theorem decimal_injective : Function.Injective decimal := by
  intro m n heq
  have hdigits : ∀ (n : ℕ), ∀ c ∈ Nat.toDigits 10 n, c.toNat < 256 := fun n c hc =>
    Nat.lt_of_le_of_lt (isDigit_lt (Nat.isDigit_of_mem_toDigits (by decide) (by decide) hc)).2
      (by decide)
  have hsame := bytesOf_injective (hdigits m) (hdigits n) heq
  rw [← Nat.ofDigitChars_ten_toDigits (n := m), hsame, Nat.ofDigitChars_ten_toDigits]

theorem mem_decimal {n : ℕ} {b : UInt8} (hb : b ∈ decimal n) : 48 ≤ b.toNat ∧ b.toNat ≤ 57 := by
  obtain ⟨c, hc, rfl⟩ := List.mem_map.mp hb
  have hdigit := isDigit_lt (Nat.isDigit_of_mem_toDigits (by decide) (by decide) hc)
  rwa [UInt8.toNat_ofNat', Nat.mod_eq_of_lt (by omega)]

end DzIpc
