import Mathlib.Algebra.Order.Floor.Semifield
import Mathlib.Data.Rat.Floor
import ReinvestingPool.Proofs.ExactQuotients

/-!
What the quotient of a product comes to, for all operands. It is the rational quotient, rounded down
or up, wherever that fits in a word. A divisor of zero is named as such whether or not the product
needs a second word, and every other refusal is an overflow of the rounded quotient.
-/

namespace ReinvestingPool.Proofs.QuotientRefusals

open Failures Words ProductQuotients ExactQuotients

variable {a b divisor : Word} {quotient : Nat}

/-- A rounded quotient as a word, or the reason why there is none. -/
def fitted (divisor : Word) (quotient : Nat) : Except ArithmeticFailure Word :=
  if divisor = 0 then .error .divisionByZero
  else if 2 ^ 256 ≤ quotient then .error .overflow
  else .ok (BitVec.ofNat 256 quotient)

theorem fitted_zero (quotient : Nat) : fitted 0 quotient = .error .divisionByZero := rfl

theorem fitted_eq_overflow (hdivisor : divisor ≠ 0) (h : 2 ^ 256 ≤ quotient) :
    fitted divisor quotient = .error .overflow := by
  rw [fitted, if_neg hdivisor, if_pos h]

theorem fitted_eq_ok (hdivisor : divisor ≠ 0) (h : quotient < 2 ^ 256) :
    fitted divisor quotient = .ok (BitVec.ofNat 256 quotient) := by
  rw [fitted, if_neg hdivisor, if_neg (Nat.not_le.mpr h)]

theorem toNat_fitting (h : quotient < 2 ^ 256) : (BitVec.ofNat 256 quotient).toNat = quotient := by
  rw [BitVec.toNat_ofNat, Nat.mod_eq_of_lt h]

/-- Counting one up is refused where the next quotient does not fit. -/
theorem addOne_eq_fitted (hdivisor : divisor ≠ 0) (h : quotient < 2 ^ 256) :
    addChecked (BitVec.ofNat 256 quotient) 1 = fitted divisor (quotient + 1) := by
  by_cases hnext : quotient + 1 < 2 ^ 256
  · rw [fitted_eq_ok hdivisor hnext, addChecked_eq_ok, toNat_fitting hnext, toNat_fitting h]
    rfl
  · rw [fitted_eq_overflow hdivisor (Nat.not_lt.mp hnext), addChecked_eq_error, toNat_fitting h]
    exact ⟨Nat.not_lt.mp hnext, rfl⟩

theorem mulDivFloor_words (a b divisor : Word) :
    mulDivFloor a b divisor =
      if (fullProduct a b).1 = 0 then divChecked (fullProduct a b).2 divisor
      else if divisor ≤ (fullProduct a b).1 then
        .error (if divisor = 0 then .divisionByZero else .overflow)
      else .ok (longQuotient a b divisor (fullProduct a b).1 (fullProduct a b).2) := rfl

theorem mulDivFloor_zero (a b : Word) : mulDivFloor a b 0 = .error .divisionByZero := by
  have hwide : (0 : Word) ≤ (fullProduct a b).1 := BitVec.le_def.mpr (Nat.zero_le _)
  rw [mulDivFloor_words, if_pos hwide, divChecked, if_pos rfl, if_pos rfl, ite_self]

/-- A quotient that does not fit is noticed because its divisor is not above the high word. -/
theorem mulDivFloor_overflows (hdivisor : divisor ≠ 0)
    (h : 2 ^ 256 ≤ a.toNat * b.toNat / divisor.toNat) :
    mulDivFloor a b divisor = .error .overflow := by
  have hpos := toNat_pos divisor hdivisor
  have hwide : divisor ≤ (fullProduct a b).1 := by
    rw [BitVec.le_def, fullProduct_high, Nat.le_div_iff_mul_le (by decide), Nat.mul_comm]
    exact (Nat.le_div_iff_mul_le hpos).mp h
  have hlong : (fullProduct a b).1 ≠ 0 := by
    intro hzero
    rw [hzero, BitVec.le_def] at hwide
    exact Nat.not_lt.mpr hwide hpos
  rw [mulDivFloor_words, if_neg hlong, if_pos hwide, if_neg hdivisor]

theorem mulDivFloor_eq_fitted (a b divisor : Word) :
    mulDivFloor a b divisor = fitted divisor (a.toNat * b.toNat / divisor.toNat) := by
  by_cases hdivisor : divisor = 0
  · subst hdivisor
    rw [mulDivFloor_zero, fitted_zero]
  by_cases hfits : a.toNat * b.toNat / divisor.toNat < 2 ^ 256
  · rw [fitted_eq_ok hdivisor hfits]
    exact mulDivFloor_eq_ok.mpr ⟨toNat_pos divisor hdivisor, toNat_fitting hfits⟩
  · have hwide := Nat.not_lt.mp hfits
    rw [mulDivFloor_overflows hdivisor hwide, fitted_eq_overflow hdivisor hwide]

/-- Rounding up adds one wherever there is a remainder. -/
theorem ceil_div (p d : Nat) (hd : 0 < d) :
    ⌈(p : ℚ) / d⌉₊ = p / d + if p % d = 0 then 0 else 1 := by
  have hceil : ∀ n : Nat, ⌈(p : ℚ) / d⌉₊ ≤ n ↔ p ≤ n * d := by
    intro n
    rw [Nat.ceil_le, div_le_iff₀ (Nat.cast_pos.mpr hd)]
    exact_mod_cast Iff.rfl
  rw [← ceil_quotient p d hd]
  apply Nat.le_antisymm
  · rw [hceil]
    have hlast := Nat.lt_mul_div_succ (p + (d - 1)) hd
    rw [Nat.mul_add, Nat.mul_one, Nat.mul_comm] at hlast
    omega
  · rw [← Nat.lt_succ_iff, Nat.div_lt_iff_lt_mul hd, Nat.succ_mul]
    have hleast := (hceil _).mp (Nat.le_refl _)
    omega

theorem mulDivCeil_eq_fitted (a b divisor : Word) :
    mulDivCeil a b divisor = fitted divisor ⌈((a.toNat * b.toNat : ℕ) : ℚ) / divisor.toNat⌉₊ := by
  rw [mulDivCeil, mulDivFloor_eq_fitted]
  by_cases hdivisor : divisor = 0
  · subst hdivisor
    rfl
  have hremainder := toNat_mulMod a b divisor hdivisor
  rw [ceil_div _ _ (toNat_pos divisor hdivisor)]
  generalize a.toNat * b.toNat / divisor.toNat = quotient
  by_cases hfits : quotient < 2 ^ 256
  · rw [fitted_eq_ok hdivisor hfits]
    change (if mulMod a b divisor = 0 then .ok _ else addChecked _ 1) = _
    by_cases hexact : mulMod a b divisor = 0
    · have hnone : a.toNat * b.toNat % divisor.toNat = 0 := by
        rw [← hremainder, hexact]
        rfl
      rw [if_pos hexact, if_pos hnone, Nat.add_zero, fitted_eq_ok hdivisor hfits]
    · rw [if_neg hexact, if_neg (hremainder ▸ (toNat_pos _ hexact).ne')]
      exact addOne_eq_fitted hdivisor hfits
  · have hwide := Nat.not_lt.mp hfits
    rw [fitted_eq_overflow hdivisor hwide,
      fitted_eq_overflow hdivisor (Nat.le_trans hwide (Nat.le_add_right _ _))]
    rfl

/-- The quotient of the unbounded product is exact in both roundings, and each refusal has one
cause. -/
theorem mulDiv_exact (a b divisor : Word) :
    mulDivFloor a b divisor = fitted divisor ⌊((a.toNat * b.toNat : ℕ) : ℚ) / divisor.toNat⌋₊ ∧
    mulDivCeil a b divisor = fitted divisor ⌈((a.toNat * b.toNat : ℕ) : ℚ) / divisor.toNat⌉₊ := by
  refine ⟨?_, mulDivCeil_eq_fitted a b divisor⟩
  rw [Nat.floor_div_eq_div]
  exact mulDivFloor_eq_fitted a b divisor

end ReinvestingPool.Proofs.QuotientRefusals
