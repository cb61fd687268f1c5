import ReinvestingPool.Proofs.RealTicks
import ReinvestingPool.TickPrices

/-!
The error of the logarithm of a price. Squaring a mantissa doubles its ticks and rounds them down a
little, so the bits found never exceed the logarithm and fall short of it by less than one bit.
-/

namespace ReinvestingPool.Proofs.PriceLogarithms

open TickPrices RealTicks

variable {m n price : Nat}

/-- A number of 128 bits. -/
def IsMantissa (m : Nat) : Prop := 2 ^ 127 ≤ m ∧ m < 2 ^ 128

/-- The ticks of a mantissa above the power of two that it starts with. -/
noncomputable def overTicks (m : Nat) : ℝ := realTick m - 127 * doubling

def squared (m : Nat) : Nat := m * m / 2 ^ 127

def carry (m : Nat) : Nat := squared m / 2 ^ 128

/-- The square of a mantissa as the mantissa of the next bit. -/
def settled (m : Nat) : Nat := squared m / 2 ^ carry m

theorem fractionBits_succ (bits : Nat) :
    fractionBits (bits + 1) m = carry m * 2 ^ bits + fractionBits bits (settled m) := rfl

theorem realTick_two_pow (n : Nat) : realTick (2 ^ n) = n * doubling := realTick_pow 2 n

/-- A shift to the right takes one doubling off for each place, and rounds down. -/
theorem realTick_shifted {places : Nat} (h : 2 ^ 127 ≤ n / 2 ^ places) :
    realTick (n / 2 ^ places : Nat) ≤ realTick n - places * doubling ∧
      realTick n - places * doubling ≤ realTick (n / 2 ^ places : Nat) + 20002 / 2 ^ 127 := by
  have hquotient := realTick_quotient (Nat.two_pow_pos 127) h
  simp only [Nat.cast_pow, Nat.cast_ofNat, realTick_two_pow] at hquotient
  exact hquotient

theorem squared_bounds (h : IsMantissa m) : 2 ^ 127 ≤ squared m ∧ squared m < 2 ^ 129 := by
  have hlow := Nat.mul_le_mul h.1 h.1
  have hhigh := Nat.mul_lt_mul'' h.2 h.2
  unfold squared
  constructor
  · rw [Nat.le_div_iff_mul_le (Nat.two_pow_pos 127)]
    exact hlow
  · rw [Nat.div_lt_iff_lt_mul (Nat.two_pow_pos 127)]
    exact hhigh

theorem carry_cases (h : IsMantissa m) :
    carry m = 0 ∧ squared m < 2 ^ 128 ∨ carry m = 1 ∧ 2 ^ 128 ≤ squared m := by
  have hbounds := squared_bounds h
  unfold carry
  omega

theorem isMantissa_settled (h : IsMantissa m) : IsMantissa (settled m) := by
  obtain ⟨hlow, hhigh⟩ := squared_bounds h
  unfold IsMantissa settled
  rcases carry_cases h with ⟨hcarry, hsmall⟩ | ⟨hcarry, hlarge⟩
  · rw [hcarry]
    omega
  · rw [hcarry]
    omega

/-- The next mantissa has twice the ticks of a mantissa less the bit it has passed on. -/
theorem settled_ticks (h : IsMantissa m) :
    carry m * doubling + overTicks (settled m) ≤ 2 * overTicks m ∧
      2 * overTicks m ≤ carry m * doubling + overTicks (settled m) + 2 * (20002 / 2 ^ 127) := by
  have hpos : (0 : ℝ) < m := Nat.cast_pos.mpr (Nat.lt_of_lt_of_le (Nat.two_pow_pos 127) h.1)
  obtain ⟨hsquareLow, hsquareHigh⟩ := realTick_shifted (squared_bounds h).1
  obtain ⟨hsettledLow, hsettledHigh⟩ := realTick_shifted (isMantissa_settled h).1
  rw [← squared, Nat.cast_mul, realTick_mul hpos.ne' hpos.ne'] at hsquareLow hsquareHigh
  rw [← settled] at hsettledLow hsettledHigh
  push_cast at hsquareLow hsquareHigh
  unfold overTicks
  constructor <;> linarith

theorem overTicks_bounds (h : IsMantissa m) : 0 ≤ overTicks m ∧ overTicks m ≤ doubling := by
  have hlow : (2 ^ 127 : ℝ) ≤ m := by exact_mod_cast h.1
  have hhigh : (m : ℝ) ≤ 2 ^ 128 := by exact_mod_cast h.2.le
  have hpos : (0 : ℝ) < m := (by positivity : (0 : ℝ) < 2 ^ 127).trans_le hlow
  have hbelow := realTick_mono (by positivity) hlow
  have habove := realTick_mono hpos hhigh
  rw [realTick_two_pow] at hbelow habove
  push_cast at hbelow habove
  unfold overTicks
  constructor <;> linarith

/-- The induction is on the bits. A step doubles the ticks, so it doubles the error made after it
and adds twice its own. -/
theorem fractionBits_ticks (bits : Nat) (h : IsMantissa m) :
    fractionBits bits m * doubling ≤ 2 ^ bits * overTicks m ∧
      2 ^ bits * overTicks m ≤
        (fractionBits bits m + 1) * doubling + 2 ^ (bits + 1) * (20002 / 2 ^ 127) := by
  induction bits generalizing m with
  | zero =>
    have hbounds := overTicks_bounds h
    simp only [fractionBits, Nat.cast_zero, zero_mul, zero_add, pow_zero, one_mul, pow_one]
    exact ⟨hbounds.1, by linarith [hbounds.2]⟩
  | succ bits ih =>
    obtain ⟨hlow, hhigh⟩ := ih (isMantissa_settled h)
    obtain ⟨hstepLow, hstepHigh⟩ := settled_ticks h
    have hscale : (0 : ℝ) ≤ 2 ^ bits := by positivity
    have hscaledLow := mul_le_mul_of_nonneg_left hstepLow hscale
    have hscaledHigh := mul_le_mul_of_nonneg_left hstepHigh hscale
    rw [fractionBits_succ]
    push_cast
    simp only [pow_succ] at hlow hhigh ⊢
    constructor <;> linarith

theorem isMantissa_mantissa (hn : n ≠ 0) : IsMantissa (mantissa n) := by
  have hlow := Nat.log2_self_le hn
  have hhigh : n < 2 ^ n.log2 * 2 := Nat.lt_log2_self
  unfold mantissa
  split
  next hlong =>
    have hsplit := pow_mul_pow_sub 2 (show 127 ≤ n.log2 by omega)
    constructor
    · rw [Nat.le_div_iff_mul_le (Nat.two_pow_pos _), hsplit]
      exact hlow
    · rw [Nat.div_lt_iff_lt_mul (Nat.two_pow_pos _)]
      omega
  next hshort =>
    have hsplit := pow_mul_pow_sub 2 (show n.log2 ≤ 127 by omega)
    have hscaledLow := Nat.mul_le_mul_right (2 ^ (127 - n.log2)) hlow
    have hscaledHigh := Nat.mul_lt_mul_of_pos_right hhigh (Nat.two_pow_pos (127 - n.log2))
    rw [Nat.mul_right_comm] at hscaledHigh
    constructor <;> omega

/-- Shifting a number to its mantissa takes whole doublings off its ticks. -/
theorem mantissa_ticks (hn : n ≠ 0) :
    overTicks (mantissa n) ≤ realTick n - n.log2 * doubling ∧
      realTick n - n.log2 * doubling ≤ overTicks (mantissa n) + 20002 / 2 ^ 127 := by
  have hmantissa := (isMantissa_mantissa hn).1
  unfold overTicks
  unfold mantissa at hmantissa ⊢
  split at hmantissa
  next hlong =>
    obtain ⟨hlow, hhigh⟩ := realTick_shifted hmantissa
    rw [if_pos hlong]
    rw [Nat.cast_sub (by omega)] at hlow hhigh
    push_cast at hlow hhigh
    constructor <;> linarith
  next hshort =>
    have hpos : (0 : ℝ) < n := Nat.cast_pos.mpr (Nat.pos_of_ne_zero hn)
    rw [if_neg hshort, Nat.cast_mul, Nat.cast_pow, realTick_mul hpos.ne' (by positivity)]
    rw [Nat.cast_ofNat, realTick_two_pow, Nat.cast_sub (by omega)]
    push_cast
    have herror : (0 : ℝ) ≤ 20002 / 2 ^ 127 := by positivity
    constructor <;> linarith

/-- The binary logarithm of a price as a real number. -/
noncomputable def logOf (price : Nat) : ℝ := binaryLog price / (2 ^ 64 : Nat)

theorem logOf_ticks (hprice : 0 < price) :
    logOf price * doubling ≤ realTick (price / 2 ^ 96) ∧
      realTick (price / 2 ^ 96) ≤
        (logOf price + 1 / 2 ^ 14) * doubling + 3 * (20002 / 2 ^ 127) := by
  have hlong : price * 2 ^ 32 ≠ 0 := Nat.mul_ne_zero hprice.ne' (by decide)
  have hpos : (0 : ℝ) < price := Nat.cast_pos.mpr hprice
  obtain ⟨hmantissaLow, hmantissaHigh⟩ := mantissa_ticks hlong
  obtain ⟨hbitsLow, hbitsHigh⟩ := fractionBits_ticks 14 (isMantissa_mantissa hlong)
  have hlog : logOf price = ((price * 2 ^ 32).log2 - 128) +
      fractionBits 14 (mantissa (price * 2 ^ 32)) / 2 ^ 14 := by
    unfold logOf binaryLog
    push_cast
    ring
  have hsplit : realTick (price / 2 ^ 96) = realTick (price * 2 ^ 32 : Nat) - 128 * doubling := by
    rw [realTick_div hpos.ne' (by positivity), Nat.cast_mul, Nat.cast_pow, Nat.cast_ofNat,
      realTick_mul hpos.ne' (by positivity), realTick_two_pow, realTick_two_pow]
    push_cast
    ring
  rw [hlog, hsplit]
  norm_num at hmantissaLow hmantissaHigh hbitsLow hbitsHigh ⊢
  constructor <;> linarith

/-- A price that a tick can have. -/
def InRange (price : Nat) : Prop := minSqrtPrice.toNat ≤ price ∧ price < maxSqrtPrice.toNat

theorem InRange.pos (h : InRange n) : 0 < n :=
  Nat.lt_of_lt_of_le (by decide : 0 < minSqrtPrice.toNat) h.1

theorem abs_logOf_le (h : InRange price) : |logOf price| ≤ 64 := by
  have hlow : 4295128739 ≤ price := h.1
  have hhigh : price < 1461446703485210103287273052203988822378723970342 := h.2
  have hpos : (0 : ℝ) < price := Nat.cast_pos.mpr h.pos
  have hdoubling := (abs_le.mp abs_doubling_sub_le).1
  have hplaces : 64 ≤ (price * 2 ^ 32).log2 := (Nat.le_log2 (by omega)).mpr (by omega)
  have hplaces : (64 : ℝ) ≤ (price * 2 ^ 32).log2 := by exact_mod_cast hplaces
  have htop : (price / 2 ^ 96 : ℝ) ≤ 2 ^ 64 := by
    rw [div_le_iff₀ (by positivity)]
    exact_mod_cast (by omega : price ≤ 2 ^ 64 * 2 ^ 96)
  have hticks := realTick_mono (by positivity) htop
  rw [realTick_two_pow] at hticks
  have hlog := (logOf_ticks h.pos).1.trans hticks
  norm_num at hdoubling
  rw [abs_le]
  constructor
  · unfold logOf binaryLog
    rw [le_div_iff₀ (by positivity)]
    push_cast
    have hbits : (0 : ℝ) ≤ fractionBits 14 (mantissa (price * 2 ^ 32)) := Nat.cast_nonneg _
    linarith
  · exact le_of_mul_le_mul_right hlog (by linarith)

/-- The logarithm in ticks, as the guesses take it. -/
theorem abs_logOf_mul_sub_le (h : InRange price) :
    |logOf price * doubling - (binaryLog price * ticksPerDoubling : Int) / 2 ^ 128| ≤ 1 / 780 := by
  have hsplit : logOf price * doubling - (binaryLog price * ticksPerDoubling : Int) / 2 ^ 128 =
      logOf price * (doubling - 255738958999603826347141 / 2 ^ 64) := by
    unfold logOf ticksPerDoubling
    push_cast
    ring
  rw [hsplit, abs_mul]
  calc
    |logOf price| * |doubling - 255738958999603826347141 / 2 ^ 64| ≤ 64 * (1 / 50000) :=
      mul_le_mul (abs_logOf_le h) abs_doubling_sub_le (abs_nonneg _) (by norm_num)
    _ ≤ 1 / 780 := by norm_num

/-- The low guess stays clear of the ticks above the price. -/
theorem lowGuess_le (h : InRange price) : lowGuess price + 1 / 200 ≤ realTick (price / 2 ^ 96) := by
  have hticks := (logOf_ticks h.pos).1
  have hmul := (abs_le.mp (abs_logOf_mul_sub_le h)).1
  have hguess : lowGuess price * 2 ^ 128 ≤
      binaryLog price * ticksPerDoubling - 3402992956809132418596140100660247210 :=
    Int.ediv_mul_le _ (by decide)
  have hguess : (lowGuess price : ℝ) * 2 ^ 128 ≤ (binaryLog price * ticksPerDoubling : Int) -
      3402992956809132418596140100660247210 := by exact_mod_cast hguess
  linarith

/-- The high guess stays clear of the ticks below the price. -/
theorem le_highGuess (h : InRange price) :
    realTick (price / 2 ^ 96) + 1 / 200 ≤ highGuess price + 1 := by
  have hticks := (logOf_ticks h.pos).2
  have hmul := (abs_le.mp (abs_logOf_mul_sub_le h)).2
  have hdoubling := (abs_le.mp abs_doubling_sub_le).2
  have hguess : binaryLog price * ticksPerDoubling + 291339464771989622907027621153398088495 <
      (highGuess price + 1) * 2 ^ 128 := Int.lt_ediv_add_one_mul_self _ (by decide)
  have hguess : (binaryLog price * ticksPerDoubling : Int) +
      291339464771989622907027621153398088495 < ((highGuess price : ℝ) + 1) * 2 ^ 128 := by
    exact_mod_cast hguess
  linarith

theorem lowGuess_le_highGuess (price : Nat) : lowGuess price ≤ highGuess price := by
  unfold lowGuess highGuess
  omega

theorem highGuess_le_lowGuess_add_one (price : Nat) : highGuess price ≤ lowGuess price + 1 := by
  unfold lowGuess highGuess
  omega

end ReinvestingPool.Proofs.PriceLogarithms
