import Mathlib.Analysis.Complex.ExponentialBounds
import Mathlib.Analysis.SpecialFunctions.Log.Deriv

/-!
The tick of a square-root price without rounding: twice its logarithm to the base 1.0001. A product
of prices is a sum of ticks, so a relative error of a price is an absolute error of its tick.
-/

namespace ReinvestingPool.Proofs.RealTicks

/-- The exponent of the base 1.0001 whose square root is `x`. -/
noncomputable def realTick (x : ℝ) : ℝ := 2 * Real.log x / Real.log 1.0001

/-- The ticks that double a square-root price. -/
noncomputable def doubling : ℝ := realTick 2

variable {x y ε : ℝ}

theorem log_base_pos : 0 < Real.log 1.0001 := Real.log_pos (by norm_num)

theorem log_base_ge : 1 / 10001 ≤ Real.log 1.0001 := by
  have h := Real.one_sub_inv_le_log_of_pos (x := 1.0001) (by norm_num)
  norm_num at h ⊢
  exact h

theorem realTick_mul (hx : x ≠ 0) (hy : y ≠ 0) : realTick (x * y) = realTick x + realTick y := by
  rw [realTick, Real.log_mul hx hy, mul_add, add_div]
  rfl

theorem realTick_div (hx : x ≠ 0) (hy : y ≠ 0) : realTick (x / y) = realTick x - realTick y := by
  rw [realTick, Real.log_div hx hy, mul_sub, sub_div]
  rfl

theorem realTick_pow (x : ℝ) (n : ℕ) : realTick (x ^ n) = n * realTick x := by
  rw [realTick, Real.log_pow, realTick]
  ring

theorem realTick_mono (hx : 0 < x) (h : x ≤ y) : realTick x ≤ realTick y :=
  div_le_div_of_nonneg_right (mul_le_mul_of_nonneg_left (Real.log_le_log hx h) zero_le_two)
    log_base_pos.le

/-- A price that is a small part higher is not many ticks higher. -/
theorem realTick_le_add (hx : 0 < x) (hy : 0 < y) (hε : 0 ≤ ε) (h : y ≤ x * (1 + ε)) :
    realTick y ≤ realTick x + 20002 * ε := by
  have hratio : y / x ≤ 1 + ε := by
    rw [div_le_iff₀ hx, mul_comm]
    exact h
  have hlog : Real.log (y / x) ≤ ε := by
    have hsub := Real.log_le_sub_one_of_pos (div_pos hy hx)
    linarith
  have hgap : realTick (y / x) ≤ 20002 * ε := by
    rw [realTick, div_le_iff₀ log_base_pos]
    calc
      2 * Real.log (y / x) ≤ 20002 * ε * (1 / 10001) := by linarith
      _ ≤ 20002 * ε * Real.log 1.0001 := mul_le_mul_of_nonneg_left log_base_ge (by positivity)
  rw [realTick_div hy.ne' hx.ne'] at hgap
  linarith

/-- Two numbers that differ by at most a part of either. -/
def Close (ε x y : ℝ) : Prop := x ≤ y * (1 + ε) ∧ y ≤ x * (1 + ε)

theorem abs_realTick_sub_le (hx : 0 < x) (hy : 0 < y) (hε : 0 ≤ ε) (h : Close ε x y) :
    |realTick x - realTick y| ≤ 20002 * ε := by
  have hlow := realTick_le_add hx hy hε h.2
  have hhigh := realTick_le_add hy hx hε h.1
  rw [abs_le]
  constructor <;> linarith

/-- Rounding a price of at least `size` to an integer moves it by few ticks. -/
theorem abs_realTick_sub_of_le_add_one {size : ℝ} (hpos : 0 < size) (hsize : size ≤ x)
    (hlow : x ≤ y) (hhigh : y ≤ x + 1) : |realTick y - realTick x| ≤ 20002 / size := by
  have hx : 0 < x := hpos.trans_le hsize
  have hpart : 1 ≤ x * (1 / size) := by
    rw [mul_one_div, le_div_iff₀ hpos, one_mul]
    exact hsize
  have hclose : y ≤ x * (1 + 1 / size) := by linarith
  have hup := realTick_le_add hx (hx.trans_le hlow) (by positivity) hclose
  have hdown := realTick_mono hx hlow
  rw [mul_one_div] at hup
  rw [abs_of_nonneg (by linarith)]
  linarith

/-- A quotient rounded down, as a difference of ticks. -/
theorem realTick_quotient {n d size : ℕ} (hpos : 0 < size) (hsize : size ≤ n / d) :
    realTick (n / d : ℕ) ≤ realTick n - realTick d ∧
      realTick n - realTick d ≤ realTick (n / d : ℕ) + 20002 / size := by
  have hquotient : 0 < n / d := Nat.lt_of_lt_of_le hpos hsize
  have hd : 0 < d := Nat.pos_of_ne_zero (fun hzero => by simp [hzero] at hquotient)
  have hn : 0 < n := Nat.pos_of_ne_zero (fun hzero => by simp [hzero] at hquotient)
  have hdreal : (0 : ℝ) < d := Nat.cast_pos.mpr hd
  have hlow : ((n / d : ℕ) : ℝ) ≤ n / d := Nat.cast_div_le
  have hhigh : (n : ℝ) / d ≤ (n / d : ℕ) + 1 := by
    rw [div_le_iff₀ hdreal]
    exact_mod_cast (Nat.lt_mul_of_div_lt (Nat.lt_add_one (n / d)) hd).le
  have hgap := abs_realTick_sub_of_le_add_one (Nat.cast_pos.mpr hpos) (Nat.cast_le.mpr hsize) hlow
    hhigh
  have hmono := realTick_mono (Nat.cast_pos.mpr hquotient) hlow
  rw [realTick_div (Nat.cast_pos.mpr hn).ne' hdreal.ne'] at hgap hmono
  exact ⟨hmono, by linarith [(abs_le.mp hgap).2]⟩

/-- Three terms of the series for the logarithm are enough for twelve digits. -/
theorem abs_log_base_sub_le :
    |Real.log 1.0001 - (1 / 10001 + 1 / 10001 ^ 2 / 2 + 1 / 10001 ^ 3 / 3)| ≤ 1 / 10 ^ 15 := by
  have hseries := Real.abs_log_sub_add_sum_range_le (x := 1 / 10001) (by norm_num [abs_lt]) 3
  have hinverse : Real.log (1 - 1 / 10001) = -Real.log 1.0001 := by
    rw [← Real.log_inv]
    norm_num
  rw [hinverse, Finset.sum_range_succ, Finset.sum_range_succ, Finset.sum_range_one] at hseries
  norm_num [abs_le] at hseries ⊢
  constructor <;> linarith

/-- The doubling of a price in ticks, as a word with 64 fractional bits gives it. -/
theorem abs_doubling_sub_le : |doubling - 255738958999603826347141 / 2 ^ 64| ≤ 1 / 50000 := by
  obtain ⟨hbaseLow, hbaseHigh⟩ := abs_le.mp abs_log_base_sub_le
  have htwoLow := Real.log_two_gt_d9
  have htwoHigh := Real.log_two_lt_d9
  have hlow : (255738958999603826347141 / 2 ^ 64 - 1 / 50000 : ℝ) ≤ doubling := by
    rw [doubling, realTick, le_div_iff₀ log_base_pos]
    norm_num at hbaseHigh ⊢
    linarith
  have hhigh : doubling ≤ 255738958999603826347141 / 2 ^ 64 + 1 / 50000 := by
    rw [doubling, realTick, div_le_iff₀ log_base_pos]
    norm_num at hbaseLow ⊢
    linarith
  rw [abs_le]
  constructor <;> linarith

end ReinvestingPool.Proofs.RealTicks
