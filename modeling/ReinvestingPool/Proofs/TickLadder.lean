import ReinvestingPool.TickPrices

/-!
The prices of the ticks never fall. Raising an exponent by one sets one binary digit and clears all
digits below it, and each power scales down no less than all lower powers together. So the prices of
all ticks lie between those of the two ends.
-/

namespace ReinvestingPool.Proofs.TickLadder

open Words TickPrices

/-- Each power alone scales `single` down to no more than what all powers before it make of
`full`. -/
def carriesDown : List Nat → Nat → Nat → Bool
  | [], _, _ => true
  | power :: powers, single, full =>
      single * power / 2 ^ 128 ≤ full && carriesDown powers single (full * power / 2 ^ 128)

theorem scale_mono {a b : Nat} (power : Nat) (h : a ≤ b) :
    a * power / 2 ^ 128 ≤ b * power / 2 ^ 128 :=
  Nat.div_le_div_right (Nat.mul_le_mul_right power h)

theorem scaleDown_mono {powers : List Nat} {exponent a b : Nat} (h : a ≤ b) :
    scaleDown powers exponent a ≤ scaleDown powers exponent b := by
  induction powers generalizing exponent a b with
  | nil => exact h
  | cons power powers ih =>
    unfold scaleDown
    by_cases hodd : exponent % 2 = 1
    · rw [if_pos hodd, if_pos hodd]
      exact ih (scale_mono power h)
    · rw [if_neg hodd, if_neg hodd]
      exact ih h

/-- The induction follows the carry: while the digits are set, `full` takes the powers that `single`
does not. -/
theorem scaleDown_succ_le {powers : List Nat} {exponent single full : Nat}
    (h : carriesDown powers single full = true) (hexponent : exponent + 1 < 2 ^ powers.length) :
    scaleDown powers (exponent + 1) single ≤ scaleDown powers exponent full := by
  induction powers generalizing exponent full with
  | nil =>
    rw [List.length_nil, Nat.pow_zero] at hexponent
    omega
  | cons power powers ih =>
    obtain ⟨hpower, hpowers⟩ := Bool.and_eq_true_iff.mp h
    have hpower := of_decide_eq_true hpower
    rw [List.length_cons, Nat.pow_succ] at hexponent
    unfold scaleDown
    by_cases hodd : exponent % 2 = 1
    · have hhalf : (exponent + 1) / 2 = exponent / 2 + 1 := by omega
      rw [if_neg (by omega), if_pos hodd, hhalf]
      exact ih hpowers (by omega)
    · have hhalf : (exponent + 1) / 2 = exponent / 2 := by omega
      rw [if_pos (by omega), if_neg hodd, hhalf]
      exact scaleDown_mono hpower

/-- The ratio of a tick below zero. -/
def below (exponent : Nat) : Nat := scaleDown halfPowers exponent (2 ^ 128)

theorem below_succ_le {exponent : Nat} (h : exponent < 887272) :
    below (exponent + 1) ≤ below exponent := by
  have hlength : halfPowers.length = 20 := by decide
  exact scaleDown_succ_le (by decide) (by rw [hlength]; omega)

theorem below_antitone {a b : Nat} (h : a ≤ b) (hb : b ≤ 887272) : below b ≤ below a := by
  induction h with
  | refl => exact Nat.le_refl _
  | step _ ih => exact Nat.le_trans (below_succ_le (by omega)) (ih (by omega))

theorem below_pos {exponent : Nat} (h : exponent ≤ 887272) : 0 < below exponent := by
  have hlast : 0 < below 887272 := by decide
  exact Nat.lt_of_lt_of_le hlast (below_antitone h (Nat.le_refl _))

theorem longRatio_of_nonpos {tick : Int} (h : tick ≤ 0) : longRatio tick = below tick.natAbs := by
  unfold longRatio
  rw [if_neg (by omega)]
  rfl

theorem longRatio_of_pos {tick : Int} (h : 0 < tick) :
    longRatio tick = (2 ^ 256 - 1) / below tick.natAbs := by
  unfold longRatio
  rw [if_pos h]
  rfl

theorem longRatio_le_succ {tick : Int} (hlow : minTick ≤ tick) (hhigh : tick < maxTick) :
    longRatio tick ≤ longRatio (tick + 1) := by
  unfold minTick at hlow
  unfold maxTick at hhigh
  rcases Int.lt_trichotomy tick 0 with hneg | rfl | hpos
  · have hstep : tick.natAbs = (tick + 1).natAbs + 1 := by omega
    rw [longRatio_of_nonpos (Int.le_of_lt hneg), longRatio_of_nonpos hneg, hstep]
    exact below_succ_le (by omega)
  · decide
  · have hstep : (tick + 1).natAbs = tick.natAbs + 1 := by omega
    rw [longRatio_of_pos hpos, longRatio_of_pos (by omega), hstep]
    exact Nat.div_le_div_left (below_succ_le (by omega)) (below_pos (by omega))

theorem ratio_le_succ {tick : Int} (hlow : minTick ≤ tick) (hhigh : tick < maxTick) :
    ratio tick ≤ ratio (tick + 1) :=
  Nat.div_le_div_right (Nat.add_le_add_right (longRatio_le_succ hlow hhigh) _)

/-- A higher tick has no lower price. -/
theorem ratio_mono {a b : Int} (hlow : minTick ≤ a) (h : a ≤ b) (hhigh : b ≤ maxTick) :
    ratio a ≤ ratio b := by
  obtain ⟨n, rfl⟩ := Int.le.dest h
  induction n with
  | zero => exact Nat.le_of_eq (congrArg ratio (Int.add_zero a).symm)
  | succ n ih =>
    have hstep : a + ((n + 1 : Nat) : Int) = a + n + 1 := by omega
    rw [hstep] at hhigh ⊢
    exact Nat.le_trans (ih (by omega) (by omega)) (ratio_le_succ (by omega) (by omega))

theorem ratio_minTick : ratio minTick = minSqrtPrice.toNat := by decide

theorem ratio_maxTick : ratio maxTick = maxSqrtPrice.toNat := by decide

/-- Only the highest tick is at the highest price. -/
theorem ratio_lt_top {tick : Int} (hlow : minTick ≤ tick) (hhigh : tick < maxTick) :
    ratio tick < maxSqrtPrice.toNat := by
  have hlast : ratio (maxTick - 1) < maxSqrtPrice.toNat := by decide
  exact Nat.lt_of_le_of_lt (ratio_mono hlow (by omega) (by decide)) hlast

/-- The price of a tick fits its word. -/
theorem toNat_ratio {tick : Int} (hlow : minTick ≤ tick) (hhigh : tick ≤ maxTick) :
    (BitVec.ofNat 256 (ratio tick)).toNat = ratio tick := by
  have hbound := ratio_mono hlow hhigh (Int.le_refl _)
  rw [ratio_maxTick] at hbound
  rw [BitVec.toNat_ofNat]
  exact Nat.mod_eq_of_lt (Nat.lt_of_le_of_lt hbound maxSqrtPrice.isLt)

theorem sqrtPriceAt_iff {tick : Int} {price : Word} :
    sqrtPriceAt tick = .ok price ↔
      (minTick ≤ tick ∧ tick ≤ maxTick) ∧ price = BitVec.ofNat 256 (ratio tick) := by
  unfold sqrtPriceAt
  split
  · rename_i hinside
    rw [Except.ok.injEq]
    exact ⟨fun h => ⟨hinside, h.symm⟩, fun h => h.2.symm⟩
  · rename_i houtside
    exact ⟨fun h => (by cases h), fun h => absurd h.1 houtside⟩

end ReinvestingPool.Proofs.TickLadder
