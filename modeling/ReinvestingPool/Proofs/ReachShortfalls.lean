import Mathlib.Tactic.LinearCombination
import ReinvestingPool.Proofs.StepProducts

/-!
How far a reach amount lies below what moves the price to the target. Two or three quotients are
rounded down one after the other, and each one scales what the one before it has lost, so that the
amount falls short by more than one unit where the prices are far from one.
-/

namespace ReinvestingPool.Proofs.ReachShortfalls

open Failures Words Directions ProductQuotients Scales SignedAmounts RangeSteps ExactQuotients
open RestPrices StepEnds SwellingSales StepProducts

/-- The square root of a price that a word stands for. -/
def priceOf (price : Word) : ℚ := price.toNat / priceUnit.toNat

/-- The part of an amount that a fee stands for. -/
def feeOf (fee : Word) : ℚ := fee.toNat / feeUnit.toNat

/-- The amount of the named token that moves the price from `current` to `target`, fee included,
without rounding. -/
def exactReach (liquidity current target fee : ℚ) (side : Side) (token : Token) : ℚ :=
  match side, token with
  | .sell, .zero =>
    2 * liquidity * |current - target| / (current * (2 * target - fee * current))
  | .sell, .one =>
    2 * liquidity * |current - target| * current / (2 * current - fee * target)
  | .buy, .zero =>
    liquidity * |current - target| * (2 * current - fee * (current + target)) /
      (current * target * (2 * current - fee * target))
  | .buy, .one =>
    liquidity * |current - target| * (2 * target - fee * (target + current)) /
      (2 * target - fee * current)

/-- What the roundings of a reach amount stay below, at prices in units of the last place. -/
def slack (current target : ℚ) (side : Side) (token : Token) : ℚ :=
  match side, token with
  | .sell, .zero => 1 + 2 ^ 96 / current
  | .sell, .one => 1 + current / 2 ^ 96
  | .buy, .zero => 1 + 1 / target + |current - target| / (current * target)
  | .buy, .one => 1 + |current - target| / 2 ^ 96

/-- A whole number is no more than an exact one, and less than some loss below it. -/
structure FallsShort (loss exact : ℚ) (n : Nat) : Prop where
  le : (n : ℚ) ≤ exact
  lt : exact - n < loss

section Floors

variable {loss exact : ℚ} {n d : Nat}

theorem fallsShort_div (n : Nat) (hd : 0 < d) : FallsShort 1 (n / d) (n / d) := by
  refine ⟨Nat.cast_div_le, ?_⟩
  rw [sub_lt_iff_lt_add, div_lt_iff₀ (Nat.cast_pos.mpr hd)]
  have hlast : n < (1 + n / d) * d := by
    rw [Nat.add_comm]
    exact Nat.lt_mul_of_div_lt (Nat.lt_add_one _) hd
  exact_mod_cast hlast

/-- A number that is scaled and rounded down loses one unit more, and its own loss is scaled. -/
theorem FallsShort.scale (h : FallsShort loss exact n) (factor : Nat) (hd : 0 < d) :
    FallsShort (1 + loss * (factor / d)) (exact * (factor / d)) (n * factor / d) := by
  have hratio : (0 : ℚ) ≤ factor / d := div_nonneg (Nat.cast_nonneg _) (Nat.cast_nonneg _)
  have hfloor := fallsShort_div (n * factor) hd
  have hvalue : ((n * factor : Nat) : ℚ) / d = n * (factor / d) := by
    rw [Nat.cast_mul, mul_div_assoc]
  rw [hvalue] at hfloor
  refine ⟨hfloor.le.trans (mul_le_mul_of_nonneg_right h.le hratio), ?_⟩
  have hscaled := mul_le_mul_of_nonneg_right h.lt.le hratio
  rw [sub_mul] at hscaled
  have hlost := hfloor.lt
  linarith

theorem FallsShort.reserve {token : Token} (h : FallsShort loss exact n) (hprice : 0 < d) :
    FallsShort (1 + loss * reserve token 1 d) (exact * reserve token 1 d)
      (reserveFor token n d) := by
  cases token with
  | zero =>
    rw [reserve_zero_eq, Nat.one_mul]
    exact h.scale (2 ^ 96) hprice
  | one =>
    rw [reserve_one_eq, Nat.one_mul]
    exact h.scale d (Nat.two_pow_pos 96)

end Floors

section Formulas

variable {divisor kept fee low high current target : Nat} {token : Token}

theorem divisor_scaled (h : divisor + fee * high = 200000 * low) :
    2 * ((low : ℚ) / 2 ^ 96) - fee / 100000 * (high / 2 ^ 96) = divisor / (100000 * 2 ^ 96) := by
  have hcast : (divisor : ℚ) + fee * high = 200000 * low := by exact_mod_cast h
  rw [eq_div_iff (by norm_num)]
  linear_combination -hcast

theorem kept_scaled (h : divisor + fee * high = 200000 * low) (hkept : kept + fee * low = divisor) :
    2 * ((low : ℚ) / 2 ^ 96) - fee / 100000 * (low / 2 ^ 96 + high / 2 ^ 96) =
      kept / (100000 * 2 ^ 96) := by
  have hcast : (kept : ℚ) + fee * low = divisor := by exact_mod_cast hkept
  have hwhole := divisor_scaled h
  rw [eq_div_iff (by norm_num)] at hwhole ⊢
  linear_combination hwhole - hcast

theorem abs_price_sub (hle : low ≤ high) :
    |(high : ℚ) / 2 ^ 96 - low / 2 ^ 96| = ((high - low : Nat) : ℚ) / 2 ^ 96 := by
  rw [← sub_div, ← Nat.cast_sub hle]
  exact abs_of_nonneg (div_nonneg (Nat.cast_nonneg _) (by positivity))

theorem exactReach_sale (liquidity : Nat) (hrange : priceRange token current target = (low, high))
    (hle : low ≤ high) (hdivides : 0 < divisor) (h : divisor + fee * high = 200000 * low) :
    exactReach liquidity (current / 2 ^ 96) (target / 2 ^ 96) (fee / 100000) .sell token =
      (liquidity * (200000 * (high - low)) : Nat) / divisor * reserve token 1 current := by
  have hlow : 0 < low := by omega
  have hhigh : (high : ℚ) ≠ 0 := (Nat.cast_pos.mpr (hlow.trans_le hle)).ne'
  have hdivisor : (divisor : ℚ) ≠ 0 := (Nat.cast_pos.mpr hdivides).ne'
  cases token with
  | zero =>
    cases hrange
    simp only [exactReach, reserve]
    rw [abs_price_sub hle, divisor_scaled h]
    push_cast
    field_simp
    ring
  | one =>
    cases hrange
    simp only [exactReach, reserve]
    rw [abs_sub_comm, abs_price_sub hle, divisor_scaled h]
    push_cast
    field_simp
    ring

theorem exactReach_purchase_zero (liquidity : Nat) (hle : low ≤ high) (hdivides : 0 < divisor)
    (h : divisor + fee * high = 200000 * low) (hkept : kept + fee * low = divisor) :
    exactReach liquidity (low / 2 ^ 96) (high / 2 ^ 96) (fee / 100000) .buy .zero =
      (liquidity * 2 ^ 96 * kept : Nat) / divisor * ((high - low : Nat) / low) *
        ((1 : Nat) / high) := by
  have hlow : 0 < low := by omega
  have hlowest : (low : ℚ) ≠ 0 := (Nat.cast_pos.mpr hlow).ne'
  have hhigh : (high : ℚ) ≠ 0 := (Nat.cast_pos.mpr (hlow.trans_le hle)).ne'
  have hdivisor : (divisor : ℚ) ≠ 0 := (Nat.cast_pos.mpr hdivides).ne'
  simp only [exactReach]
  rw [abs_sub_comm, abs_price_sub hle, divisor_scaled h, kept_scaled h hkept]
  push_cast
  field_simp
  ring

theorem exactReach_purchase_one (liquidity : Nat) (hle : low ≤ high) (hdivides : 0 < divisor)
    (h : divisor + fee * high = 200000 * low) (hkept : kept + fee * low = divisor) :
    exactReach liquidity (high / 2 ^ 96) (low / 2 ^ 96) (fee / 100000) .buy .one =
      (liquidity * kept : Nat) / divisor * ((high - low : Nat) / (2 ^ 96 : Nat)) := by
  have hdivisor : (divisor : ℚ) ≠ 0 := (Nat.cast_pos.mpr hdivides).ne'
  simp only [exactReach]
  rw [abs_price_sub hle, divisor_scaled h, kept_scaled h hkept]
  push_cast
  field_simp
  ring

theorem slack_sale (current target : Nat) :
    slack current target .sell token = 1 + 1 * reserve token 1 current := by
  cases token with
  | zero => simp only [slack, reserve, Nat.cast_one, one_mul]
  | one => simp only [slack, reserve, Nat.cast_one, one_mul]

theorem slack_purchase_zero (hle : low ≤ high) :
    slack low high .buy .zero =
      1 + (1 + 1 * ((high - low : Nat) / low : ℚ)) * ((1 : Nat) / high) := by
  have hgap : |(low : ℚ) - high| = (high - low : Nat) := by
    rw [abs_sub_comm, ← Nat.cast_sub hle, Nat.abs_cast]
  simp only [slack]
  rw [hgap]
  push_cast
  ring

theorem slack_purchase_one (hle : low ≤ high) :
    slack high low .buy .one = 1 + 1 * ((high - low : Nat) / (2 ^ 96 : Nat) : ℚ) := by
  have hgap : |(high : ℚ) - low| = (high - low : Nat) := by
    rw [← Nat.cast_sub hle, Nat.abs_cast]
  simp only [slack]
  rw [hgap, one_mul, Nat.cast_pow, Nat.cast_ofNat]

end Formulas

section Amounts

variable {liquidity current target fee : Word} {side : Side} {token : Token} {reach : Amount}
variable {low high : Nat}

theorem priceOf_eq (price : Word) : priceOf price = price.toNat / 2 ^ 96 := by
  rw [priceOf, toNat_priceUnit, Nat.cast_pow, Nat.cast_ofNat]

theorem feeOf_eq (fee : Word) : feeOf fee = fee.toNat / 100000 := by
  rw [feeOf, toNat_feeUnit, Nat.cast_ofNat]

theorem sale_falls_short (hahead : ¬ Before (travel .sell token) target.toNat current.toNat)
    (h : reachAmount liquidity current target fee .sell token = .ok reach) :
    ∃ amount : Nat, reach.toInt = amount ∧
      FallsShort (slack current.toNat target.toNat .sell token)
        (exactReach liquidity.toNat (priceOf current) (priceOf target) (feeOf fee) .sell token)
        amount := by
  rcases hrange : priceRange token current.toNat target.toNat with ⟨low, high⟩
  have hle := priceRange_le hrange hahead
  obtain ⟨divisor, share, hdivides, hdivisor, hshare, hreach⟩ := saleReach_eq_ok hrange hle h
  -- Nothing is left to divide by unless the lower price is positive.
  have hcurrent : 0 < current.toNat := by
    have hlow : 0 < low := by omega
    cases token with
    | zero =>
      cases hrange
      exact hlow.trans_le hle
    | one =>
      cases hrange
      exact hlow
  have hfirst := fallsShort_div (liquidity.toNat * (200000 * (high - low))) hdivides
  rw [← hshare] at hfirst
  rw [priceOf_eq, priceOf_eq, feeOf_eq, slack_sale,
    exactReach_sale liquidity.toNat hrange hle hdivides hdivisor]
  exact ⟨_, hreach, hfirst.reserve hcurrent⟩

/-- What a share of the liquidity is worth over a range, each quotient rounded down. -/
def boughtFor (token : Token) (liquidity kept divisor low high : Nat) : Nat :=
  match token with
  | .zero => liquidity * 2 ^ 96 * kept / divisor * (high - low) / low / high
  | .one => liquidity * kept / divisor * (high - low) / 2 ^ 96

/-- The amount of a purchase that goes to its target is what a share of the liquidity is worth. -/
theorem purchaseReach_eq_ok (hnarrow : liquidity.toNat < 2 ^ 160)
    (hrange : priceRange (other token) current.toNat target.toNat = (low, high)) (hle : low ≤ high)
    (h : reachAmount liquidity current target fee .buy token = .ok reach) :
    ∃ divisor kept, 0 < divisor ∧ divisor + fee.toNat * high = 200000 * low ∧
      kept + fee.toNat * low = divisor ∧
      reach.toInt = -(boughtFor token liquidity.toNat kept divisor low high : Nat) := by
  obtain ⟨whole, hwhole, h⟩ := bind_eq_ok.mp h
  obtain ⟨charge, hcharge, h⟩ := bind_eq_ok.mp h
  obtain ⟨divisor, hdivisor, h⟩ := bind_eq_ok.mp h
  obtain ⟨extra, hextra, h⟩ := bind_eq_ok.mp h
  obtain ⟨kept, hkept, h⟩ := bind_eq_ok.mp h
  rw [mulChecked_eq_ok] at hwhole hcharge hextra
  rw [toNat_twoFeeUnits] at hwhole
  rw [subChecked_eq_ok, hwhole, hcharge] at hdivisor
  rw [subChecked_eq_ok, hextra] at hkept
  cases token with
  | zero =>
    cases hrange
    obtain ⟨share, hshare, h⟩ := bind_eq_ok.mp h
    obtain ⟨value, hvalue, h⟩ := bind_eq_ok.mp h
    obtain ⟨amount, hamount, h⟩ := bind_eq_ok.mp h
    obtain ⟨paid, hpaid, hreach⟩ := outflow_eq_ok.mp h
    obtain ⟨hdivides, hshare⟩ := mulDivFloor_eq_ok.mp hshare
    -- The shift is not checked: a wider liquidity would lose its highest bits.
    have hscaled : (liquidity <<< priceBits).toNat = liquidity.toNat * 2 ^ 96 := by
      rw [BitVec.toNat_shiftLeft, Nat.shiftLeft_eq]
      exact Nat.mod_eq_of_lt (Nat.mul_lt_mul_of_pos_right hnarrow (Nat.two_pow_pos 96))
    have hvalue := (mulDivFloor_eq_ok.mp hvalue).2
    rw [toNat_distance, Nat.sub_eq_zero_of_le hle, Nat.zero_add, hshare, hscaled] at hvalue
    refine ⟨divisor.toNat, kept.toNat, hdivides, hdivisor, hkept, ?_⟩
    rw [hreach, inflow_eq_ok.mp hpaid, (divChecked_eq_ok.mp hamount).2, hvalue]
    rfl
  | one =>
    cases hrange
    obtain ⟨share, hshare, h⟩ := bind_eq_ok.mp h
    obtain ⟨amount, hamount, h⟩ := bind_eq_ok.mp h
    obtain ⟨paid, hpaid, hreach⟩ := outflow_eq_ok.mp h
    obtain ⟨hdivides, hshare⟩ := mulDivFloor_eq_ok.mp hshare
    have hamount := (mulDivFloor_eq_ok.mp hamount).2
    rw [toNat_priceUnit, toNat_distance, Nat.sub_eq_zero_of_le hle, Nat.add_zero, hshare] at hamount
    refine ⟨divisor.toNat, kept.toNat, hdivides, hdivisor, hkept, ?_⟩
    rw [hreach, inflow_eq_ok.mp hpaid, hamount]
    rfl

theorem purchase_falls_short (hnarrow : liquidity.toNat < 2 ^ 160)
    (hahead : ¬ Before (travel .buy token) target.toNat current.toNat)
    (h : reachAmount liquidity current target fee .buy token = .ok reach) :
    ∃ amount : Nat, reach.toInt = -amount ∧
      FallsShort (slack current.toNat target.toNat .buy token)
        (exactReach liquidity.toNat (priceOf current) (priceOf target) (feeOf fee) .buy token)
        amount := by
  rw [priceOf_eq, priceOf_eq, feeOf_eq]
  cases token with
  | zero =>
    have hrange : priceRange (other .zero) current.toNat target.toNat =
      (current.toNat, target.toNat) := rfl
    have hle := Nat.not_lt.mp hahead
    obtain ⟨divisor, kept, hdivides, hdivisor, hkept, hreach⟩ :=
      purchaseReach_eq_ok hnarrow hrange hle h
    have hlow : 0 < current.toNat := by omega
    have hfirst := fallsShort_div (liquidity.toNat * 2 ^ 96 * kept) hdivides
    have hthird := (hfirst.scale (target.toNat - current.toNat) hlow).scale 1 (hlow.trans_le hle)
    rw [Nat.mul_one] at hthird
    rw [slack_purchase_zero hle,
      exactReach_purchase_zero liquidity.toNat hle hdivides hdivisor hkept]
    exact ⟨_, hreach, hthird⟩
  | one =>
    have hrange : priceRange (other .one) current.toNat target.toNat =
      (target.toNat, current.toNat) := rfl
    have hle := Nat.not_lt.mp hahead
    obtain ⟨divisor, kept, hdivides, hdivisor, hkept, hreach⟩ :=
      purchaseReach_eq_ok hnarrow hrange hle h
    have hfirst := fallsShort_div (liquidity.toNat * kept) hdivides
    have hsecond := hfirst.scale (current.toNat - target.toNat) (Nat.two_pow_pos 96)
    rw [slack_purchase_one hle,
      exactReach_purchase_one liquidity.toNat hle hdivides hdivisor hkept]
    exact ⟨_, hreach, hsecond⟩

/-- The reach amount has the sign of its side and is no more than the exact amount, and what it
lacks stays below the slack of the prices. -/
theorem reachAmount_falls_short (hnarrow : liquidity.toNat < 2 ^ 160)
    (hahead : ¬ Before (travel side token) target.toNat current.toNat)
    (h : reachAmount liquidity current target fee side token = .ok reach) :
    (match side with
      | .sell => 0 ≤ reach.toInt
      | .buy => reach.toInt ≤ 0) ∧
    |(reach.toInt : ℚ)| ≤
      exactReach liquidity.toNat (priceOf current) (priceOf target) (feeOf fee) side token ∧
    exactReach liquidity.toNat (priceOf current) (priceOf target) (feeOf fee) side token -
      |(reach.toInt : ℚ)| < slack current.toNat target.toNat side token := by
  cases side with
  | sell =>
    obtain ⟨amount, hreach, hshort⟩ := sale_falls_short hahead h
    rw [hreach, Int.cast_natCast, Nat.abs_cast]
    exact ⟨Int.natCast_nonneg amount, hshort.le, hshort.lt⟩
  | buy =>
    obtain ⟨amount, hreach, hshort⟩ := purchase_falls_short hnarrow hahead h
    rw [hreach, Int.cast_neg, Int.cast_natCast, abs_neg, Nat.abs_cast]
    exact ⟨Int.neg_nonpos_of_nonneg (Int.natCast_nonneg amount), hshort.le, hshort.lt⟩

/-- The share of the liquidity is rounded down to a whole unit, which is worth 65536 units of token
zero at this price. -/
theorem reachAmount_falls_short_low_price :
    let current : Word := 0x100000000000000000000
    let target : Word := 0x80000000000000000000
    let reach : Amount := ⟨6422528, by decide, by decide⟩
    let exact := exactReach 98 (priceOf current) (priceOf target) (feeOf 1000) .sell .zero
    reachAmount 98 current target 1000 .sell .zero = .ok reach ∧
      64874 < exact - reach.toInt ∧ exact - reach.toInt < 65537 := by
  intro current target reach exact
  have hreach : reachAmount 98 current target 1000 .sell .zero = .ok reach := by
    decide +kernel
  have hshort := (reachAmount_falls_short (by decide) (by decide) hreach).2.2
  have hcurrent : current.toNat = 2 ^ 80 := rfl
  have htarget : target.toNat = 2 ^ 79 := rfl
  have hfee : (1000 : Word).toNat = 1000 := rfl
  have hvalue : |(reach.toInt : ℚ)| = reach.toInt := by
    norm_num [reach]
  rw [hvalue] at hshort
  refine ⟨hreach, ?_, hshort.trans_eq ?_⟩
  · simp only [exact, exactReach, priceOf_eq, feeOf_eq, hcurrent, htarget, hfee, reach]
    norm_num
  · simp only [slack, hcurrent]
    norm_num

end Amounts

end ReinvestingPool.Proofs.ReachShortfalls
