import ReinvestingPool.Proofs.RealTicks
import ReinvestingPool.Proofs.TickLadder

/-!
How far the price of a tick is off. Each power is the square of the one before it to one part in
2 ^ 84, a product rounded down loses less than one part in 2 ^ 63, and the price itself is rounded
up by less than one part in 2 ^ 31. So the price of a tick is the tick's own to less than a
thousandth of a tick, and the prices rise strictly.
-/

namespace ReinvestingPool.Proofs.RatioTicks

open Words TickPrices RealTicks TickLadder

variable {power exponent start : Nat} {powers : List Nat} {weight : ℝ} {tick : Int}

/-- Each power is a fraction and the square of the one before it, to one part in 2 ^ 84. -/
def squaresRun : Nat → List Nat → Bool
  | _, [] => true
  | power, next :: powers =>
      0 < next && next ≤ 2 ^ 128 && next * 2 ^ 128 * 2 ^ 84 ≤ power * power * (2 ^ 84 + 1) &&
        power * power * 2 ^ 84 ≤ next * 2 ^ 128 * (2 ^ 84 + 1) && squaresRun next powers

/-- Every power scales down by its weight in ticks, and the weight doubles from power to power. The
error is kept one rounding below its share of the weight, which the next rounding takes up. -/
def ScalesBy (weight : ℝ) : List Nat → Prop
  | [] => True
  | power :: powers =>
      (0 < power ∧ power ≤ 2 ^ 128) ∧
        |realTick (power / 2 ^ 128) + weight| ≤ weight * (20002 / 2 ^ 83) - 20002 / 2 ^ 84 ∧
        ScalesBy (2 * weight) powers

/-- A comparison of natural numbers as one of numbers close to each other. -/
theorem close_of_nat {m n part : Nat} (hpart : 0 < part) (hlow : m * part ≤ n * (part + 1))
    (hhigh : n * part ≤ m * (part + 1)) : Close (1 / part) m n := by
  have hpos : (0 : ℝ) < part := Nat.cast_pos.mpr hpart
  have hscale : ∀ a b : Nat, a * part ≤ b * (part + 1) → (a : ℝ) ≤ b * (1 + 1 / part) := by
    intro a b h
    have hcast : (a : ℝ) * part ≤ b * (part + 1) := by exact_mod_cast h
    rw [show (b : ℝ) * (1 + 1 / part) = b * (part + 1) / part by field_simp, le_div_iff₀ hpos]
    exact hcast
  exact ⟨hscale m n hlow, hscale n m hhigh⟩

/-- A power that is close to a square scales down by close to twice the ticks. -/
theorem abs_realTick_square_sub_le {next part : Nat} (hpower : 0 < power) (hnext : 0 < next)
    (hpart : 0 < part) (hlow : next * 2 ^ 128 * part ≤ power * power * (part + 1))
    (hhigh : power * power * part ≤ next * 2 ^ 128 * (part + 1)) :
    |realTick (next / 2 ^ 128) - 2 * realTick (power / 2 ^ 128)| ≤ 20002 * (1 / part) := by
  have hclose := close_of_nat hpart hlow hhigh
  have hp : (0 : ℝ) < power := Nat.cast_pos.mpr hpower
  have hn : (0 : ℝ) < next := Nat.cast_pos.mpr hnext
  push_cast at hclose
  have hgap := abs_realTick_sub_le (by positivity) (by positivity) (by positivity) hclose
  rw [realTick_mul hn.ne' (by positivity), realTick_mul hp.ne' hp.ne'] at hgap
  rw [realTick_div hn.ne' (by positivity), realTick_div hp.ne' (by positivity)]
  rw [abs_le] at hgap ⊢
  constructor <;> linarith

theorem scalesBy_of_squaresRun (hpower : 0 < power ∧ power ≤ 2 ^ 128)
    (hfirst : |realTick (power / 2 ^ 128) + weight| ≤ weight * (20002 / 2 ^ 83) - 20002 / 2 ^ 84)
    (h : squaresRun power powers = true) : ScalesBy weight (power :: powers) := by
  induction powers generalizing power weight with
  | nil => exact ⟨hpower, hfirst, trivial⟩
  | cons next powers ih =>
    simp only [squaresRun, Bool.and_eq_true, decide_eq_true_eq] at h
    obtain ⟨⟨⟨⟨hpos, hle⟩, hlow⟩, hhigh⟩, hrest⟩ := h
    refine ⟨hpower, hfirst, ih ⟨hpos, hle⟩ ?_ hrest⟩
    have hsquare := abs_realTick_square_sub_le hpower.1 hpos (Nat.two_pow_pos 84) hlow hhigh
    push_cast at hsquare
    rw [abs_le] at hfirst hsquare ⊢
    constructor <;> linarith

theorem scaleDown_le (h : ScalesBy weight powers) : scaleDown powers exponent start ≤ start := by
  induction powers generalizing weight exponent start with
  | nil => exact Nat.le_refl _
  | cons power powers ih =>
    obtain ⟨⟨-, hle⟩, -, hrest⟩ := h
    unfold scaleDown
    split
    · refine Nat.le_trans (ih hrest) (Nat.div_le_of_le_mul ?_)
      rw [Nat.mul_comm]
      exact Nat.mul_le_mul_right start hle
    · exact ih hrest

/-- One product rounded down, as a difference of ticks. -/
theorem abs_realTick_scaled_sub_le (hpower : 0 < power)
    (h : 2 ^ 63 ≤ start * power / 2 ^ 128) :
    |realTick (start * power / 2 ^ 128 : Nat) - (realTick start + realTick (power / 2 ^ 128))| ≤
      20002 / 2 ^ 63 := by
  have hstart : 0 < start := by
    by_contra hzero
    rw [Nat.eq_zero_of_not_pos hzero, Nat.zero_mul, Nat.zero_div] at h
    omega
  have hs : (0 : ℝ) < start := Nat.cast_pos.mpr hstart
  have hp : (0 : ℝ) < power := Nat.cast_pos.mpr hpower
  obtain ⟨hlow, hhigh⟩ := realTick_quotient (Nat.two_pow_pos 63) h
  push_cast at hlow hhigh
  rw [realTick_mul hs.ne' hp.ne'] at hlow hhigh
  rw [realTick_div hp.ne' (by positivity), abs_le]
  constructor <;> linarith

/-- The induction follows the binary digits of the exponent: the weights of those that are set add
up to the exponent, and so do their shares of the error. -/
theorem scaleDown_ticks (h : ScalesBy weight powers) (hweight : 0 ≤ weight)
    (hexponent : exponent < 2 ^ powers.length) (hsize : 2 ^ 63 ≤ scaleDown powers exponent start) :
    |realTick (scaleDown powers exponent start) - (realTick start - weight * exponent)| ≤
      weight * exponent * (20002 / 2 ^ 83) + powers.length * (20002 / 2 ^ 63) := by
  induction powers generalizing weight exponent start with
  | nil =>
    rw [List.length_nil, Nat.pow_zero, Nat.lt_one_iff] at hexponent
    subst hexponent
    simp [scaleDown]
  | cons power powers ih =>
    obtain ⟨⟨hpos, -⟩, hpower, hrest⟩ := h
    rw [List.length_cons, Nat.pow_succ] at hexponent
    have hhalf : exponent / 2 < 2 ^ powers.length := by omega
    rw [List.length_cons, Nat.cast_succ]
    unfold scaleDown at hsize ⊢
    have hrun := ih hrest (by linarith) hhalf hsize
    split at hsize
    next hodd =>
      rw [if_pos hodd] at hrun ⊢
      have hdigits : (exponent : ℝ) = 2 * (exponent / 2 : Nat) + 1 := by
        exact_mod_cast (by omega : exponent = 2 * (exponent / 2) + 1)
      have hround := abs_realTick_scaled_sub_le hpos (hsize.trans (scaleDown_le hrest))
      rw [abs_le] at hpower hrun hround ⊢
      rw [hdigits]
      constructor <;> linarith
    next heven =>
      rw [if_neg heven] at hrun ⊢
      have hdigits : (exponent : ℝ) = 2 * (exponent / 2 : Nat) := by
        exact_mod_cast (by omega : exponent = 2 * (exponent / 2))
      rw [abs_le] at hrun ⊢
      rw [hdigits]
      constructor <;> linarith

/-- A power whose square is close to the reciprocal of 1.0001 scales down by close to one tick. -/
theorem abs_realTick_add_one_le {part : Nat} (hpower : 0 < power) (hpart : 0 < part)
    (hlow : power * power * 10001 * part ≤ 10000 * 2 ^ 256 * (part + 1))
    (hhigh : 10000 * 2 ^ 256 * part ≤ power * power * 10001 * (part + 1)) :
    |realTick (power / 2 ^ 128) + 1| ≤ 10001 * (1 / part) := by
  have hclose := close_of_nat hpart hlow hhigh
  have hp : (0 : ℝ) < power := Nat.cast_pos.mpr hpower
  have hbase : realTick 10001 - realTick 10000 = 2 := by
    rw [← realTick_div (by norm_num) (by norm_num), realTick, div_eq_iff log_base_pos.ne']
    norm_num
  have hscale : realTick (2 ^ 256) = 2 * realTick (2 ^ 128) := by
    rw [realTick_pow, realTick_pow]
    ring
  simp only [Nat.cast_mul, Nat.cast_pow, Nat.cast_ofNat] at hclose
  have hgap := abs_realTick_sub_le (by positivity) (by positivity) (by positivity) hclose
  rw [realTick_mul (by positivity) (by norm_num), realTick_mul hp.ne' hp.ne',
    realTick_mul (by norm_num) (by positivity), hscale] at hgap
  rw [realTick_div hp.ne' (by positivity)]
  rw [abs_le] at hgap ⊢
  constructor <;> linarith

theorem scalesBy_halfPowers : ScalesBy 1 halfPowers := by
  refine scalesBy_of_squaresRun (by decide) ?_ (by decide)
  refine (abs_realTick_add_one_le (by decide) (Nat.two_pow_pos 100) (by decide)
    (by decide)).trans ?_
  norm_num

theorem two_pow_le_below (h : exponent ≤ 887272) : 2 ^ 63 ≤ below exponent := by
  have hlast : 2 ^ 63 ≤ below 887272 := by decide
  exact hlast.trans (below_antitone h (Nat.le_refl _))

/-- The ratio of a tick below zero, without its 128 fractional bits. -/
theorem abs_realTick_below_add_le (h : exponent ≤ 887272) :
    |realTick (below exponent / 2 ^ 128) + exponent| ≤ 1 / 10 ^ 6 := by
  have hlength : halfPowers.length = 20 := by decide
  have hticks := scaleDown_ticks scalesBy_halfPowers zero_le_one (by rw [hlength]; omega)
    (two_pow_le_below h)
  have hexponent : (exponent : ℝ) ≤ 887272 := by exact_mod_cast h
  have hpos : (0 : ℝ) < below exponent := Nat.cast_pos.mpr (below_pos h)
  rw [realTick_div hpos.ne' (by positivity)]
  rw [hlength] at hticks
  push_cast at hticks
  rw [← below] at hticks
  rw [abs_le] at hticks ⊢
  constructor <;> norm_num at hticks ⊢ <;> linarith

/-- Above zero the ratio of a tick is a reciprocal rounded down. -/
theorem abs_realTick_reciprocal_add_le {n : Nat} (hlow : 2 ^ 63 ≤ n) (hhigh : n ≤ 2 ^ 128) :
    |realTick (((2 ^ 256 - 1) / n : Nat) / 2 ^ 128) + realTick (n / 2 ^ 128)| ≤ 20002 / 2 ^ 63 := by
  have hn : (0 : ℝ) < n := Nat.cast_pos.mpr (by omega)
  have hsize : 2 ^ 64 ≤ (2 ^ 256 - 1) / n := by
    rw [Nat.le_div_iff_mul_le (by omega)]
    omega
  have hlarge : (2 ^ 64 : ℝ) ≤ ((2 ^ 256 - 1) / n : Nat) := by exact_mod_cast hsize
  obtain ⟨hlow, hhigh⟩ := realTick_quotient (Nat.two_pow_pos 64) hsize
  have hword : |realTick (2 ^ 256) - realTick (2 ^ 256 - 1)| ≤ 20002 / 2 ^ 255 :=
    abs_realTick_sub_of_le_add_one (by positivity) (by norm_num) (by norm_num) (by norm_num)
  have hscale : realTick (2 ^ 256) = 2 * realTick (2 ^ 128) := by
    rw [realTick_pow, realTick_pow]
    ring
  rw [show ((2 ^ 256 - 1 : Nat) : ℝ) = 2 ^ 256 - 1 by norm_num] at hlow hhigh
  rw [hscale] at hword
  rw [realTick_div (by linarith) (by positivity), realTick_div hn.ne' (by positivity)]
  rw [abs_le] at hword ⊢
  constructor <;> norm_num at hlow hhigh hword ⊢ <;> linarith

/-- The ratio of a tick, without its 128 fractional bits. -/
theorem abs_realTick_longRatio_sub_le (hlow : minTick ≤ tick) (hhigh : tick ≤ maxTick) :
    |realTick (longRatio tick / 2 ^ 128) - tick| ≤ 1 / 10 ^ 5 := by
  unfold minTick at hlow
  unfold maxTick at hhigh
  have hbound : tick.natAbs ≤ 887272 := by omega
  have hbelow := abs_realTick_below_add_le hbound
  rcases Int.lt_or_le 0 tick with hsign | hsign
  · rw [longRatio_of_pos hsign]
    have hcast : (tick : ℝ) = tick.natAbs := by
      rw [← Int.cast_natCast, Int.natAbs_of_nonneg hsign.le]
    have hreciprocal := abs_realTick_reciprocal_add_le (two_pow_le_below hbound)
      (scaleDown_le scalesBy_halfPowers)
    rw [abs_le] at hbelow hreciprocal ⊢
    rw [hcast]
    constructor <;> norm_num at hbelow hreciprocal ⊢ <;> linarith
  · rw [longRatio_of_nonpos hsign]
    have hcast : (tick : ℝ) = -tick.natAbs := by
      rw [← Int.cast_natCast, Int.ofNat_natAbs_of_nonpos hsign, Int.cast_neg, neg_neg]
    rw [abs_le] at hbelow ⊢
    rw [hcast]
    constructor <;> norm_num at hbelow ⊢ <;> linarith

theorem two_pow_le_longRatio (hlow : minTick ≤ tick) (hhigh : tick ≤ maxTick) :
    2 ^ 63 ≤ longRatio tick := by
  unfold minTick at hlow
  unfold maxTick at hhigh
  have hbelow := two_pow_le_below (show tick.natAbs ≤ 887272 by omega)
  rcases Int.lt_or_le 0 tick with hsign | hsign
  · have hstart : below tick.natAbs ≤ 2 ^ 128 := scaleDown_le scalesBy_halfPowers
    rw [longRatio_of_pos hsign, Nat.le_div_iff_mul_le (by omega)]
    omega
  · rw [longRatio_of_nonpos hsign]
    exact hbelow

/-- The price of a tick is its own to less than a thousandth of a tick. -/
theorem abs_realTick_ratio_sub_le (hlow : minTick ≤ tick) (hhigh : tick ≤ maxTick) :
    |realTick (ratio tick / 2 ^ 96) - tick| ≤ 1 / 1000 := by
  have hlong := abs_realTick_longRatio_sub_le hlow hhigh
  have hsize : (2 ^ 63 : ℝ) ≤ longRatio tick := by exact_mod_cast two_pow_le_longRatio hlow hhigh
  have hpos : (0 : ℝ) < longRatio tick := by linarith
  have hceil : longRatio tick ≤ ratio tick * 2 ^ 32 ∧
      ratio tick * 2 ^ 32 ≤ longRatio tick + 2 ^ 32 := by
    unfold ratio
    omega
  have hup : (longRatio tick : ℝ) / 2 ^ 32 ≤ ratio tick := by
    rw [div_le_iff₀ (by positivity)]
    exact_mod_cast hceil.1
  have hdown : (ratio tick : ℝ) ≤ longRatio tick / 2 ^ 32 + 1 := by
    rw [div_add_one (by positivity), le_div_iff₀ (by positivity)]
    exact_mod_cast hceil.2
  have hlarge : (2 ^ 31 : ℝ) ≤ longRatio tick / 2 ^ 32 := by
    rw [le_div_iff₀ (by positivity)]
    linarith
  have hround := abs_realTick_sub_of_le_add_one (by positivity) hlarge hup hdown
  have hscale : realTick (2 ^ 128) = realTick (2 ^ 96) + realTick (2 ^ 32) := by
    rw [← realTick_mul (by positivity) (by positivity)]
    norm_num
  rw [realTick_div hpos.ne' (by positivity)] at hlong hround
  rw [realTick_div (by linarith) (by positivity)]
  rw [hscale] at hlong
  rw [abs_le] at hlong hround ⊢
  constructor <;> norm_num at hlong hround ⊢ <;> linarith

theorem ratio_pos (hlow : minTick ≤ tick) (hhigh : tick ≤ maxTick) : 0 < ratio tick := by
  have hleast : 0 < ratio minTick := by decide
  exact hleast.trans_le (ratio_mono (Int.le_refl _) hlow hhigh)

theorem ratio_lt_succ (hlow : minTick ≤ tick) (hhigh : tick < maxTick) :
    ratio tick < ratio (tick + 1) := by
  by_contra hle
  have hcast : (ratio (tick + 1) : ℝ) ≤ ratio tick := by exact_mod_cast Nat.le_of_not_lt hle
  have hpos : (0 : ℝ) < ratio (tick + 1) :=
    Nat.cast_pos.mpr (ratio_pos (by omega) (by omega))
  have hmono := realTick_mono (div_pos hpos (by positivity))
    (div_le_div_of_nonneg_right hcast (show (0 : ℝ) ≤ 2 ^ 96 by positivity))
  have hhere := abs_realTick_ratio_sub_le hlow (by omega)
  have hnext := abs_realTick_ratio_sub_le (show minTick ≤ tick + 1 by omega) (by omega)
  push_cast at hnext
  rw [abs_le] at hhere hnext
  linarith

/-- A higher tick has a higher price. -/
theorem ratio_strictMono {a b : Int} (hlow : minTick ≤ a) (h : a < b) (hhigh : b ≤ maxTick) :
    ratio a < ratio b :=
  Nat.lt_of_lt_of_le (ratio_lt_succ hlow (by omega)) (ratio_mono (by omega) h hhigh)

end ReinvestingPool.Proofs.RatioTicks
