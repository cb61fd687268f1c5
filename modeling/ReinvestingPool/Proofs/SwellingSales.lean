import ReinvestingPool.Proofs.SteppedStates

/-!
When a step takes from the trader what it should give. The fee on a sale stays in the range as
liquidity, and where it swells the reserve of the other token by more than the price takes out of
it, the sale is charged in both tokens. A sale that goes to its target does so only at a steep fee;
one that is used up does so also where the price is rounded back. Otherwise only steps that aim
backwards lose.
-/

namespace ReinvestingPool.Proofs.SwellingSales

open Failures Words Directions Scales SignedAmounts RangeSteps Runs Simulations ExactQuotients
open RestPrices StepEnds Paths StepFrames RunEnds StepExchanges LastSteps

/-- The virtual reserve of the token that is not named is larger after a step than before it. -/
def Swells (token : Token) (liquidity price next added : Nat) : Prop :=
  match token with
  | .zero => liquidity * price < (liquidity + added) * next
  | .one => liquidity * next < (liquidity + added) * price

instance (token : Token) (liquidity price next added : Nat) :
    Decidable (Swells token liquidity price next added) := by
  cases token <;> unfold Swells <;> infer_instance

/-- A fee of which the part that stays as liquidity is more than a step between two prices moves. -/
def Steep (fee low high : Nat) : Prop := 200000 * low < fee * (low + high)

instance (fee low high : Nat) : Decidable (Steep fee low high) := by
  unfold Steep
  infer_instance

section Numbers

variable {token : Token} {liquidity price next added share total low high fee divisor : Nat}

/-- Where the reserve does not swell, the pool receives no more than a trace of rounding. -/
theorem holdingAt_le_one (hpos : token = .one → 0 < price ∧ 0 < next)
    (h : ¬ Swells token liquidity price next added) :
    holdingAt .sell token liquidity price next added ≤ 1 := by
  cases token with
  | zero =>
    have hkept : (liquidity + added) * next ≤ liquidity * price := Nat.not_lt.mp h
    rw [Nat.add_mul] at hkept
    have hmoved : added * next ≤ liquidity * (price - next) := by
      rw [Nat.mul_sub]
      omega
    have hfee := roundedUp_le_succ (added * next) (2 ^ 96) (Nat.two_pow_pos 96)
    have hless : added * next / 2 ^ 96 ≤ liquidity * (price - next) / 2 ^ 96 :=
      Nat.div_le_div_right hmoved
    simp only [holdingAt, moveAt]
    omega
  | one =>
    obtain ⟨hprice, hnext⟩ := hpos rfl
    have hkept : (liquidity + added) * price ≤ liquidity * next := Nat.not_lt.mp h
    have hafter := roundedUp_le_succ ((liquidity + added) * 2 ^ 96) next hnext
    have hless : (liquidity + added) * 2 ^ 96 / next ≤ liquidity * 2 ^ 96 / price := by
      rw [Nat.le_div_iff_mul_le hprice]
      refine Nat.le_of_mul_le_mul_right ?_ hnext
      calc
        (liquidity + added) * 2 ^ 96 / next * price * next
            = (liquidity + added) * 2 ^ 96 / next * next * price := Nat.mul_right_comm ..
        _ ≤ (liquidity + added) * 2 ^ 96 * price :=
          Nat.mul_le_mul_right _ (Nat.div_mul_le_self ..)
        _ = (liquidity + added) * price * 2 ^ 96 := Nat.mul_right_comm ..
        _ ≤ liquidity * next * 2 ^ 96 := Nat.mul_le_mul_right _ hkept
        _ = liquidity * 2 ^ 96 * next := Nat.mul_right_comm ..
    simp only [holdingAt]
    omega

theorem half_le {gap : Nat} (hdivisor : divisor + fee * (low + gap) = 200000 * low)
    (hfee : fee * (low + (low + gap)) ≤ 200000 * low) :
    200000 * low * low ≤ divisor * (low + (low + gap)) := by
  have hcharge : fee * (low + gap) * (low + (low + gap)) ≤ 200000 * low * (low + gap) :=
    calc
      fee * (low + gap) * (low + (low + gap)) = fee * (low + (low + gap)) * (low + gap) := by ring
      _ ≤ 200000 * low * (low + gap) := Nat.mul_le_mul_right _ hfee
  have hsplit : divisor * (low + (low + gap)) + fee * (low + gap) * (low + (low + gap)) =
      200000 * low * low + 200000 * low * (low + gap) := by
    rw [← Nat.add_mul, hdivisor]
    ring
  omega

/-- Between two prices at which the fee is not steep, the liquidity that a sale leaves at the one
swells no reserve at the other. -/
theorem grown_le (hle : low ≤ high) (hpos : 0 < divisor)
    (hdivisor : divisor + fee * high = 200000 * low)
    (hshare : share * divisor ≤ liquidity * (200000 * (high - low)))
    (htotal : total * high ≤ (liquidity + share) * low) (hnot : ¬ Steep fee low high) :
    total * low ≤ liquidity * high := by
  rcases Nat.eq_zero_or_pos high with hzero | hhigh
  · have hlow : low = 0 := by omega
    rw [hlow]
    exact Nat.zero_le _
  obtain ⟨gap, rfl⟩ := Nat.exists_eq_add_of_le hle
  rw [Nat.add_sub_cancel_left] at hshare
  have hfee : fee * (low + (low + gap)) ≤ 200000 * low := Nat.not_lt.mp hnot
  -- The share at most makes up for the fee that is left in the range.
  have hwhole : (liquidity + share) * divisor ≤ liquidity * (divisor + 200000 * gap) := by
    rw [Nat.add_mul, Nat.mul_add]
    omega
  have hscale : (divisor + 200000 * gap) * low * low ≤ (low + gap) * (low + gap) * divisor :=
    calc
      (divisor + 200000 * gap) * low * low
          = divisor * low * low + 200000 * low * low * gap := by ring
      _ ≤ divisor * low * low + divisor * (low + (low + gap)) * gap :=
        Nat.add_le_add_left (Nat.mul_le_mul_right gap (half_le hdivisor hfee)) _
      _ = (low + gap) * (low + gap) * divisor := by ring
  refine Nat.le_of_mul_le_mul_right ?_ (Nat.mul_pos hhigh hpos)
  calc
    total * low * ((low + gap) * divisor)
        = total * (low + gap) * (low * divisor) := by ring
    _ ≤ (liquidity + share) * low * (low * divisor) := Nat.mul_le_mul_right _ htotal
    _ = (liquidity + share) * divisor * (low * low) := by ring
    _ ≤ liquidity * (divisor + 200000 * gap) * (low * low) := Nat.mul_le_mul_right _ hwhole
    _ = liquidity * ((divisor + 200000 * gap) * low * low) := by ring
    _ ≤ liquidity * ((low + gap) * (low + gap) * divisor) := Nat.mul_le_mul_left _ hscale
    _ = liquidity * (low + gap) * ((low + gap) * divisor) := by ring

end Numbers

section Targets

variable {liquidity current target fee reserve added : Word} {reach : Amount} {amount : Word}
variable {token : Token} {low high share : Nat}

/-- The reserve of the named token that some liquidity stands for. -/
def reserveFor (token : Token) (liquidity price : Nat) : Nat :=
  match token with
  | .zero => liquidity * 2 ^ 96 / price
  | .one => liquidity * price / 2 ^ 96

theorem reserveOf_eq_ok (h : reserveOf token liquidity current = .ok reserve) :
    reserve.toNat = reserveFor token liquidity.toNat current.toNat := by
  cases token with
  | zero =>
    obtain ⟨-, h⟩ := mulDivFloor_eq_ok.mp h
    rw [toNat_priceUnit] at h
    exact h
  | one =>
    obtain ⟨-, h⟩ := mulDivFloor_eq_ok.mp h
    rw [toNat_priceUnit] at h
    exact h

/-- The lower and the higher one of the prices between which a sale of a token moves. -/
def priceRange (token : Token) (price next : Nat) : Nat × Nat :=
  match token with
  | .zero => (next, price)
  | .one => (price, next)

theorem priceRange_le {price next : Nat} (hrange : priceRange token price next = (low, high))
    (honward : ¬ Before (travel .sell token) next price) : low ≤ high := by
  cases token with
  | zero =>
    cases hrange
    exact Nat.not_lt.mp honward
  | one =>
    cases hrange
    exact Nat.not_lt.mp honward

/-- What a share of the liquidity adds to the reserve at one price stands for no more at the
other. -/
theorem liquidityFor_reserves {liquidity price next : Nat}
    (hrange : priceRange token price next = (low, high)) :
    liquidityFor token (reserveFor token liquidity price + reserveFor token share price) next *
      high ≤ (liquidity + share) * low := by
  cases token with
  | zero =>
    cases hrange
    have hreserve : (liquidity * 2 ^ 96 / high + share * 2 ^ 96 / high) * high ≤
        (liquidity + share) * 2 ^ 96 := by
      rw [Nat.add_mul, Nat.add_mul]
      exact Nat.add_le_add (Nat.div_mul_le_self ..) (Nat.div_mul_le_self ..)
    simp only [liquidityFor, reserveFor]
    generalize liquidity * 2 ^ 96 / high + share * 2 ^ 96 / high = reserve at hreserve ⊢
    refine Nat.le_of_mul_le_mul_right ?_ (Nat.two_pow_pos 96)
    calc
      reserve * low / 2 ^ 96 * high * 2 ^ 96
          = reserve * low / 2 ^ 96 * 2 ^ 96 * high := Nat.mul_right_comm ..
      _ ≤ reserve * low * high := Nat.mul_le_mul_right _ (Nat.div_mul_le_self ..)
      _ = reserve * high * low := Nat.mul_right_comm ..
      _ ≤ (liquidity + share) * 2 ^ 96 * low := Nat.mul_le_mul_right _ hreserve
      _ = (liquidity + share) * low * 2 ^ 96 := Nat.mul_right_comm ..
  | one =>
    cases hrange
    simp only [liquidityFor, reserveFor]
    calc
      (liquidity * low / 2 ^ 96 + share * low / 2 ^ 96) * 2 ^ 96 / high * high
          ≤ (liquidity * low / 2 ^ 96 + share * low / 2 ^ 96) * 2 ^ 96 := Nat.div_mul_le_self ..
      _ = liquidity * low / 2 ^ 96 * 2 ^ 96 + share * low / 2 ^ 96 * 2 ^ 96 := Nat.add_mul ..
      _ ≤ liquidity * low + share * low :=
        Nat.add_le_add (Nat.div_mul_le_self ..) (Nat.div_mul_le_self ..)
      _ = (liquidity + share) * low := (Nat.add_mul ..).symm

/-- The amount of a sale that goes to its target is what a share of the liquidity stands for. -/
theorem saleReach_eq_ok (hrange : priceRange token current.toNat target.toNat = (low, high))
    (hle : low ≤ high)
    (h : reachAmount liquidity current target fee .sell token = .ok reach) :
    ∃ divisor share, 0 < divisor ∧ divisor + fee.toNat * high = 200000 * low ∧
      share = liquidity.toNat * (200000 * (high - low)) / divisor ∧
      reach.toInt = reserveFor token share current.toNat := by
  obtain ⟨whole, hwhole, h⟩ := bind_eq_ok.mp h
  obtain ⟨charge, hcharge, h⟩ := bind_eq_ok.mp h
  obtain ⟨divisor, hdivisor, h⟩ := bind_eq_ok.mp h
  obtain ⟨scaled, hscaled, h⟩ := bind_eq_ok.mp h
  obtain ⟨share, hshare, h⟩ := bind_eq_ok.mp h
  obtain ⟨reserve, hreserve, h⟩ := bind_eq_ok.mp h
  rw [mulChecked_eq_ok] at hwhole hcharge hscaled
  rw [toNat_twoFeeUnits] at hwhole hscaled
  rw [toNat_distance] at hscaled
  rw [subChecked_eq_ok, hwhole, hcharge] at hdivisor
  obtain ⟨hpos, hshare⟩ := mulDivFloor_eq_ok.mp hshare
  rw [hscaled] at hshare
  rw [inflow_eq_ok, reserveOf_eq_ok hreserve] at h
  refine ⟨divisor.toNat, share.toNat, hpos, ?_, ?_, h⟩
  · cases token with
    | zero =>
      cases hrange
      exact hdivisor
    | one =>
      cases hrange
      exact hdivisor
  · cases token with
    | zero =>
      cases hrange
      rw [Nat.sub_eq_zero_of_le hle, Nat.add_zero] at hshare
      exact hshare
    | one =>
      cases hrange
      rw [Nat.sub_eq_zero_of_le hle, Nat.zero_add] at hshare
      exact hshare

theorem saleFullFee_eq_ok
    (h : fullFeeLiquidity amount liquidity current target .sell token = .ok added) :
    added.toNat = liquidityFor token (reserveFor token liquidity.toNat current.toNat +
      amount.toNat) target.toNat - liquidity.toNat := by
  obtain ⟨before, hbefore, h⟩ := bind_eq_ok.mp h
  obtain ⟨reserve, hreserve, h⟩ := bind_eq_ok.mp h
  obtain ⟨total, htotal, h⟩ := bind_eq_ok.mp h
  cases h
  rw [toNat_subToZero, liquidityOf_eq_ok htotal, addChecked_eq_ok.mp hreserve,
    reserveOf_eq_ok hbefore]

/-- A sale that goes on to its target swells no reserve, unless the fee is steep there. -/
theorem not_swells_of_full (hrange : priceRange token current.toNat target.toNat = (low, high))
    (hle : low ≤ high) (hnot : ¬ Steep fee.toNat low high)
    (hreach : reachAmount liquidity current target fee .sell token = .ok reach)
    (hadded : fullFeeLiquidity reach.magnitude liquidity current target .sell token = .ok added) :
    ¬ Swells token liquidity.toNat current.toNat target.toNat added.toNat := by
  obtain ⟨divisor, share, hpos, hdivisor, hshare, hamount⟩ := saleReach_eq_ok hrange hle hreach
  have hadded := saleFullFee_eq_ok hadded
  rw [toNat_amount_magnitude, hamount, Int.natAbs_natCast] at hadded
  have hfloor : share * divisor ≤ liquidity.toNat * (200000 * (high - low)) := by
    rw [hshare]
    exact Nat.div_mul_le_self _ _
  have htotal := grown_le hle hpos hdivisor hfloor (liquidityFor_reserves hrange) hnot
  have hkept : (liquidity.toNat + added.toNat) * low ≤ liquidity.toNat * high := by
    rw [hadded]
    rcases Nat.le_total (liquidityFor token (reserveFor token liquidity.toNat current.toNat +
      reserveFor token share current.toNat) target.toNat) liquidity.toNat with hless | hmore
    · rw [Nat.sub_eq_zero_of_le hless, Nat.add_zero]
      exact Nat.mul_le_mul_left _ hle
    · rw [Nat.add_sub_cancel' hmore]
      exact htotal
  cases token with
  | zero =>
    cases hrange
    exact Nat.not_lt.mpr hkept
  | one =>
    cases hrange
    exact Nat.not_lt.mpr hkept

end Targets

section Steps

/-- The step in a state aims at a price behind the one from which it is taken. -/
def Retreats (trade : Trade) (s : RunState) : Prop :=
  Before trade.direction (aim trade s).toNat s.sqrtPrice.toNat

instance (trade : Trade) (s : RunState) : Decidable (Retreats trade s) := by
  unfold Retreats
  infer_instance

/-- The step in a state is a sale that swells the reserve of the token that is not named. -/
structure SwellsIn (trade : Trade) (s : RunState) : Prop where
  sale : trade.side = .sell
  swells : Swells trade.token s.liquidity.toNat s.sqrtPrice.toNat (stepIn trade s).next.toNat
    (stepIn trade s).added.toNat
  /-- The sale is used up on the way to its target, or its fee is steep there. -/
  cause : UsesUp trade s ∨ ∀ low high,
    priceRange trade.token s.sqrtPrice.toNat (aim trade s).toNat = (low, high) →
      Steep trade.swapFee.toNat low high

/-- The trader pays in the step of a state what it should give. -/
structure Loses (trade : Trade) (s : RunState) : Prop where
  less : stepLeg trade s < 0
  cause : Retreats trade s ∨ SwellsIn trade s

variable {trade : Trade} {s moved : RunState} {step : RangeStep} {liquidity : Word}

theorem leg_zero (side : Side) : leg side 0 = 0 := by
  cases side with
  | sell => rfl
  | buy => rfl

/-- A purchase that does not aim backwards comes to something. -/
theorem purchase_leg_nonneg {current target fee : Word} {specified : Amount} {token : Token}
    (hahead : ¬ Before (travel .buy token) target.toNat current.toNat)
    (h : rangeStep liquidity current target fee specified .buy token = .ok step) :
    0 ≤ leg .buy step.exchanged.toInt := by
  have hfee : FeeInOrder .buy 0 step.added.toNat := Nat.zero_le _
  refine rangeStep_leg_nonneg h ?_ hfee
  rcases rangeStep_cases h with ⟨hstay, rfl⟩ | ⟨-, reach, -, ⟨-, hfull⟩ | ⟨-, hpartial⟩⟩
  · exact not_before_self _ _
  · rw [(fullStep_eq_ok hfull).2]
    exact hahead
  · exact partialStep_onwards hpartial hfee

/-- A sale that swells no reserve fetches something. -/
theorem sale_leg_nonneg {current target fee : Word} {specified : Amount} {token : Token}
    (hnot : ¬ Swells token liquidity.toNat current.toNat step.next.toNat step.added.toNat)
    (h : rangeStep liquidity current target fee specified .sell token = .ok step) :
    0 ≤ leg .sell step.exchanged.toInt := by
  by_cases hstay : current = target
  · unfold rangeStep at h
    rw [if_pos hstay] at h
    cases h
    exact Int.le_of_eq (leg_zero .sell).symm
  · obtain ⟨hpos, hleg⟩ := exchangedAmount_eq_ok (rangeStep_exchanged hstay h)
    rw [hleg]
    apply legAt_sell_nonneg
    exact holdingAt_le_one hpos hnot

/-- A step that takes what it should give, and that does not aim backwards, swells a reserve. -/
theorem swellsIn_of_loss (hopen : s.remaining ≠ 0) (h : Steps trade s moved)
    (hahead : ¬ Retreats trade s) (hless : stepLeg trade s < 0) : SwellsIn trade s := by
  obtain ⟨hstep, -⟩ := stepIn_of_steps hopen h
  have hside : trade.side = .sell := by
    cases hside : trade.side with
    | sell => rfl
    | buy =>
      unfold Retreats Trade.direction at hahead
      unfold stepLeg at hless
      rw [hside] at hahead hless hstep
      exact absurd hless (Int.not_lt.mpr (purchase_leg_nonneg hahead hstep))
  have hswells : Swells trade.token s.liquidity.toNat s.sqrtPrice.toNat (stepIn trade s).next.toNat
      (stepIn trade s).added.toNat := by
    by_contra hnot
    unfold stepLeg at hless
    rw [hside] at hless hstep
    exact absurd hless (Int.not_lt.mpr (sale_leg_nonneg hnot hstep))
  refine ⟨hside, hswells, ?_⟩
  rcases rangeStep_cases hstep with ⟨-, hstill⟩ | ⟨hmove, reach, hreach, hcase⟩
  · unfold stepLeg at hless
    rw [hstill] at hless
    exact absurd (leg_zero trade.side) (Int.ne_of_lt hless)
  rcases hcase with ⟨-, hfull⟩ | ⟨huncovered, -⟩
  · refine Or.inr fun low high hrange => ?_
    by_contra hnot
    unfold Retreats Trade.direction at hahead
    rw [hside] at hahead hreach hfull
    obtain ⟨added, hadded, hrest⟩ := bind_eq_ok.mp hfull
    obtain ⟨exchanged, -, hrest⟩ := bind_eq_ok.mp hrest
    have hend := Except.ok.inj hrest
    rw [← hend] at hswells
    exact not_swells_of_full hrange (priceRange_le hrange hahead) hnot hreach hadded hswells
  · exact Or.inl ⟨hmove, reach, hreach, huncovered⟩

/-- A step loses exactly where it comes to less than nothing. -/
theorem loses_iff (hopen : s.remaining ≠ 0) (h : Steps trade s moved) :
    Loses trade s ↔ stepLeg trade s < 0 := by
  refine ⟨Loses.less, fun hless => ⟨hless, ?_⟩⟩
  by_cases hback : Retreats trade s
  · exact Or.inl hback
  · exact Or.inr (swellsIn_of_loss hopen h hback hless)

end Steps

end ReinvestingPool.Proofs.SwellingSales
