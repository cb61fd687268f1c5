import ReinvestingPool.Proofs.PriceLogarithms
import ReinvestingPool.Proofs.RatioTicks

/-!
The tick of a price is exact. A guess is wrong by less than a tick and the price of a tick by less
than a thousandth of one, so the two guesses enclose the tick, and the price of the higher guess
tells them apart.
-/

namespace ReinvestingPool.Proofs.PriceTicks

open Failures Words TickPrices RealTicks TickLadder RatioTicks PriceLogarithms

variable {price : Word} {n : Nat} {tick other : Int}

section Comparisons

/-- A tick well below a price has a price no higher. -/
theorem ratio_le_of_lt_realTick (hlow : minTick ≤ tick) (hhigh : tick ≤ maxTick) (hpos : 0 < n)
    (h : tick + 1 / 1000 < realTick (n / 2 ^ 96)) : ratio tick ≤ n := by
  by_contra habove
  have hcast : (n : ℝ) ≤ ratio tick := by exact_mod_cast (Nat.lt_of_not_le habove).le
  have hmono := realTick_mono (div_pos (Nat.cast_pos.mpr hpos) (by positivity))
    (div_le_div_of_nonneg_right hcast (show (0 : ℝ) ≤ 2 ^ 96 by positivity))
  have hratio := (abs_le.mp (abs_realTick_ratio_sub_le hlow hhigh)).2
  linarith

/-- A tick well above a price has a higher price. -/
theorem lt_ratio_of_realTick_lt (hlow : minTick ≤ tick) (hhigh : tick ≤ maxTick)
    (h : realTick (n / 2 ^ 96) < tick - 1 / 1000) : n < ratio tick := by
  by_contra hbelow
  have hcast : (ratio tick : ℝ) ≤ n := by exact_mod_cast Nat.le_of_not_lt hbelow
  have hpos : (0 : ℝ) < ratio tick := Nat.cast_pos.mpr (ratio_pos hlow hhigh)
  have hmono := realTick_mono (div_pos hpos (by positivity))
    (div_le_div_of_nonneg_right hcast (show (0 : ℝ) ≤ 2 ^ 96 by positivity))
  have hratio := (abs_le.mp (abs_realTick_ratio_sub_le hlow hhigh)).1
  linarith

end Comparisons

section Guesses

theorem lowGuess_lt_maxTick (h : InRange n) : lowGuess n < maxTick := by
  by_contra habove
  have hcast : (maxTick : ℝ) ≤ lowGuess n := by exact_mod_cast Int.not_lt.mp habove
  have hclear := lowGuess_le h
  have hreached : ratio maxTick ≤ n :=
    ratio_le_of_lt_realTick (by decide) (Int.le_refl maxTick) h.pos (by linarith)
  rw [ratio_maxTick] at hreached
  exact absurd h.2 (Nat.not_lt.mpr hreached)

theorem minTick_le_highGuess (h : InRange n) : minTick ≤ highGuess n := by
  by_contra hbelow
  have hcast : (highGuess n : ℝ) + 1 ≤ minTick := by exact_mod_cast Int.not_le.mp hbelow
  have hclear := le_highGuess h
  have hshort : n < ratio minTick := lt_ratio_of_realTick_lt (Int.le_refl minTick) (by decide)
    (by linarith)
  rw [ratio_minTick] at hshort
  exact absurd h.1 (Nat.not_le.mpr hshort)

/-- The low guess is the tick of the price unless the price has reached the next tick. -/
theorem lowGuess_spec (h : InRange n) (hshort : n < ratio (lowGuess n + 1)) :
    (minTick ≤ lowGuess n ∧ lowGuess n < maxTick) ∧ ratio (lowGuess n) ≤ n := by
  have hhigh := lowGuess_lt_maxTick h
  have hlow : minTick ≤ lowGuess n := by
    by_contra hbelow
    have hguess := minTick_le_highGuess h
    have hstep := highGuess_le_lowGuess_add_one n
    rw [show lowGuess n + 1 = minTick by omega, ratio_minTick] at hshort
    exact absurd h.1 (Nat.not_le.mpr hshort)
  have hclear := lowGuess_le h
  exact ⟨⟨hlow, hhigh⟩, ratio_le_of_lt_realTick hlow hhigh.le h.pos (by linarith)⟩

/-- The high guess is the tick of the price if the price has reached it. -/
theorem highGuess_spec (h : InRange n) (hreached : ratio (highGuess n) ≤ n) :
    (minTick ≤ highGuess n ∧ highGuess n < maxTick) ∧ n < ratio (highGuess n + 1) := by
  have hlow := minTick_le_highGuess h
  have hhigh : highGuess n < maxTick := by
    by_contra habove
    have hguess := lowGuess_lt_maxTick h
    have hstep := highGuess_le_lowGuess_add_one n
    rw [show highGuess n = maxTick by omega, ratio_maxTick] at hreached
    exact absurd h.2 (Nat.not_lt.mpr hreached)
  have hclear := le_highGuess h
  refine ⟨⟨hlow, hhigh⟩, lt_ratio_of_realTick_lt (by omega) (by omega) ?_⟩
  push_cast
  linarith

end Guesses

section Ticks

/-- Where the guesses agree, each gives one of the two bounds. Where they differ they are
neighbours, and the comparison gives the bound that the chosen one lacks. -/
theorem tickAt_of_inRange (h : InRange price.toNat) :
    ∃ tick, tickAt price = .ok tick ∧ (minTick ≤ tick ∧ tick < maxTick) ∧
      ratio tick ≤ price.toNat ∧ price.toNat < ratio (tick + 1) := by
  have hinside : minSqrtPrice ≤ price ∧ price < maxSqrtPrice := h
  have hlow := lowGuess_lt_maxTick h
  have hhigh := minTick_le_highGuess h
  have hstep := highGuess_le_lowGuess_add_one price.toNat
  have horder := lowGuess_le_highGuess price.toNat
  unfold tickAt
  rw [if_pos hinside]
  dsimp only
  split
  next hsame =>
    have hclear := lowGuess_le h
    have hreached : ratio (lowGuess price.toNat) ≤ price.toNat :=
      ratio_le_of_lt_realTick (by omega) hlow.le h.pos (by linarith)
    rw [hsame] at hreached ⊢
    obtain ⟨hbounds, hshort⟩ := highGuess_spec h hreached
    exact ⟨_, rfl, hbounds, hreached, hshort⟩
  next hdiffer =>
    have hnext : highGuess price.toNat = lowGuess price.toNat + 1 := by omega
    have hedge := toNat_ratio hhigh (by omega)
    rw [sqrtPriceAt_iff.mpr ⟨⟨hhigh, by omega⟩, rfl⟩]
    simp only [bind, Except.bind, BitVec.lt_def, hedge]
    split
    next hshort =>
      rw [hnext] at hshort
      obtain ⟨hbounds, hreached⟩ := lowGuess_spec h hshort
      exact ⟨_, rfl, hbounds, hreached, hshort⟩
    next hreached =>
      obtain ⟨hbounds, hshort⟩ := highGuess_spec h (Nat.le_of_not_lt hreached)
      exact ⟨_, rfl, hbounds, Nat.le_of_not_lt hreached, hshort⟩

theorem tickAt_of_not_inRange (h : ¬ InRange price.toNat) :
    tickAt price = .error .priceOutOfBounds := by
  have houtside : ¬ (minSqrtPrice ≤ price ∧ price < maxSqrtPrice) := h
  unfold tickAt
  rw [if_neg houtside]

/-- The prices that belong to a tick are those from the lowest one up to the highest one. -/
theorem exists_tickAt_iff :
    (∃ tick, tickAt price = .ok tick) ↔
      minSqrtPrice.toNat ≤ price.toNat ∧ price.toNat < maxSqrtPrice.toNat := by
  constructor
  · intro h
    obtain ⟨tick, htick⟩ := h
    by_contra houtside
    rw [tickAt_of_not_inRange houtside] at htick
    cases htick
  · intro h
    obtain ⟨tick, htick, -⟩ := tickAt_of_inRange h
    exact ⟨tick, htick⟩

/-- A price belongs to the last tick whose own price it has reached. -/
theorem tickAt_eq_ok (h : tickAt price = .ok tick) :
    (minTick ≤ tick ∧ tick < maxTick) ∧ ratio tick ≤ price.toNat ∧
      price.toNat < ratio (tick + 1) := by
  obtain ⟨found, hfound, hspec⟩ := tickAt_of_inRange (exists_tickAt_iff.mp ⟨tick, h⟩)
  rw [h] at hfound
  rw [Except.ok.inj hfound]
  exact hspec

theorem tickAt_eq_error {cause : PoolFailure} (h : tickAt price = .error cause) :
    cause = .priceOutOfBounds := by
  by_cases hinside : InRange price.toNat
  · obtain ⟨tick, htick, -⟩ := tickAt_of_inRange hinside
    rw [h] at htick
    cases htick
  · rw [tickAt_of_not_inRange hinside] at h
    exact (Except.error.inj h).symm

theorem le_tickAt_iff (h : tickAt price = .ok tick) (hlow : minTick ≤ other)
    (hhigh : other ≤ maxTick) : other ≤ tick ↔ ratio other ≤ price.toNat := by
  obtain ⟨⟨hfrom, hto⟩, hreached, hshort⟩ := tickAt_eq_ok h
  constructor
  · intro hle
    exact Nat.le_trans (ratio_mono hlow hle (Int.le_of_lt hto)) hreached
  · intro hprice
    by_contra habove
    have hbeyond := ratio_mono (show minTick ≤ tick + 1 by omega) (by omega) hhigh
    omega

/-- The price of a tick belongs to that tick, since the prices rise strictly. -/
theorem tickAt_ratio (hlow : minTick ≤ tick) (hhigh : tick < maxTick) :
    tickAt (BitVec.ofNat 256 (ratio tick)) = .ok tick := by
  have hword := toNat_ratio hlow hhigh.le
  have hinside : InRange (BitVec.ofNat 256 (ratio tick)).toNat := by
    rw [hword]
    refine ⟨?_, ratio_lt_top hlow hhigh⟩
    rw [← ratio_minTick]
    exact ratio_mono (Int.le_refl _) hlow hhigh.le
  obtain ⟨found, hfound, ⟨hfrom, hto⟩, hreached, hshort⟩ := tickAt_of_inRange hinside
  rw [hword] at hreached hshort
  have hle : tick ≤ found := (le_tickAt_iff hfound hlow hhigh.le).mpr hword.ge
  rcases hle.lt_or_eq with hbelow | hsame
  · exact absurd (ratio_strictMono hlow hbelow hto.le) (Nat.not_lt.mpr hreached)
  · rw [hsame]
    rw [← hsame] at hfound ⊢
    exact hfound

/-- Every price from the lowest one up to the highest one belongs to the tick whose price it has
reached and whose next it has not, every other price is refused, the prices of the ticks rise
strictly, and each leads back to its tick. -/
theorem tickAt_exact :
    (∀ price, minSqrtPrice ≤ price → price < maxSqrtPrice →
      ∃ tick low high, tickAt price = .ok tick ∧ (minTick ≤ tick ∧ tick < maxTick) ∧
        sqrtPriceAt tick = .ok low ∧ sqrtPriceAt (tick + 1) = .ok high ∧
        low ≤ price ∧ price < high) ∧
    (∀ price, ¬ (minSqrtPrice ≤ price ∧ price < maxSqrtPrice) →
      tickAt price = .error .priceOutOfBounds) ∧
    (∀ a b, minTick ≤ a → a < b → b ≤ maxTick →
      ∃ low high, sqrtPriceAt a = .ok low ∧ sqrtPriceAt b = .ok high ∧ low < high) ∧
    (∀ tick, minTick ≤ tick → tick < maxTick →
      ∃ price, sqrtPriceAt tick = .ok price ∧ tickAt price = .ok tick) := by
  refine ⟨?_, ?_, ?_, ?_⟩
  · intro price hleast hmost
    obtain ⟨tick, htick, ⟨hlow, hhigh⟩, hreached, hshort⟩ := tickAt_of_inRange ⟨hleast, hmost⟩
    refine ⟨tick, _, _, htick, ⟨hlow, hhigh⟩, sqrtPriceAt_iff.mpr ⟨⟨hlow, hhigh.le⟩, rfl⟩,
      sqrtPriceAt_iff.mpr ⟨⟨by omega, hhigh⟩, rfl⟩, ?_, ?_⟩
    · rw [BitVec.le_def, toNat_ratio hlow hhigh.le]
      exact hreached
    · rw [BitVec.lt_def, toNat_ratio (by omega) hhigh]
      exact hshort
  · intro price houtside
    exact tickAt_of_not_inRange houtside
  · intro a b hlow hless hhigh
    refine ⟨_, _, sqrtPriceAt_iff.mpr ⟨⟨hlow, by omega⟩, rfl⟩,
      sqrtPriceAt_iff.mpr ⟨⟨by omega, hhigh⟩, rfl⟩, ?_⟩
    rw [BitVec.lt_def, toNat_ratio hlow (by omega), toNat_ratio (by omega) hhigh]
    exact ratio_strictMono hlow hless hhigh
  · intro tick hlow hhigh
    exact ⟨_, sqrtPriceAt_iff.mpr ⟨⟨hlow, hhigh.le⟩, rfl⟩, tickAt_ratio hlow hhigh⟩

/-- The price one belongs to some tick, the highest price to none, and the highest tick below it is
found again. -/
theorem tickAt_exact_ends :
    (∃ tick low high, tickAt 79228162514264337593543950336 = .ok tick ∧
      (minTick ≤ tick ∧ tick < maxTick) ∧ sqrtPriceAt tick = .ok low ∧
      sqrtPriceAt (tick + 1) = .ok high ∧ low ≤ 79228162514264337593543950336 ∧
      79228162514264337593543950336 < high) ∧
    tickAt maxSqrtPrice = .error .priceOutOfBounds ∧
    (∃ low high, sqrtPriceAt (-887272) = .ok low ∧ sqrtPriceAt 887272 = .ok high ∧ low < high) ∧
    (∃ price, sqrtPriceAt 887271 = .ok price ∧ tickAt price = .ok 887271) :=
  ⟨tickAt_exact.1 79228162514264337593543950336 (by decide) (by decide),
    tickAt_exact.2.1 maxSqrtPrice (by decide),
    tickAt_exact.2.2.1 (-887272) 887272 (by decide) (by decide) (by decide),
    tickAt_exact.2.2.2 887271 (by decide) (by decide)⟩

end Ticks

end ReinvestingPool.Proofs.PriceTicks
