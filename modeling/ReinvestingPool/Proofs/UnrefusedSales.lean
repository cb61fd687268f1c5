import ReinvestingPool.Proofs.StepSpans
import ReinvestingPool.Proofs.SwellingSales

/-!
Sales are never refused within the ticks of one step. The prices there are close to each other, so
that the amount which moves the price from one to the other is that of no more than half of the
liquidity. Every product, sum and quotient of the step fits its width, and so does the liquidity
that the fee adds. The tightest one is the price at which a sale of token one comes to rest close to
the highest tick.
-/

namespace ReinvestingPool.Proofs.UnrefusedSales

open Failures Words Directions ProductQuotients Scales SignedAmounts TickPrices Pools RangeSteps
open Simulations ExactQuotients RestPrices StepEnds StepExchanges LargerAmounts TickLadder
open Cursors Stops SwellingSales Divisions StepSpans

section Computations

variable {w : Nat} {a b : BitVec w} {value divisor : Word} {failure : ArithmeticFailure}

theorem exists_addChecked (h : a.toNat + b.toNat < 2 ^ w) : ∃ c, addChecked a b = .ok c := by
  unfold addChecked
  rw [if_pos h]
  exact ⟨_, rfl⟩

theorem exists_mulDivCeil {a b : Word} (hpos : 0 < divisor.toNat)
    (h : roundedUp (a.toNat * b.toNat) divisor.toNat < 2 ^ 256) :
    ∃ q, mulDivCeil a b divisor = .ok q := by
  refine ⟨BitVec.ofNat 256 (roundedUp (a.toNat * b.toNat) divisor.toNat),
    mulDivCeil_eq_ok.mpr ⟨hpos, ?_⟩⟩
  rw [BitVec.toNat_ofNat, Nat.mod_eq_of_lt h]
  rfl

theorem exists_amount {value : Int} (hlower : -(2 ^ 255 : Nat) ≤ value)
    (hupper : value < (2 ^ 255 : Nat)) :
    ∃ a : Amount, Signed.ofIntOr failure value = .ok a :=
  ⟨⟨value, hlower, hupper⟩, Signed.ofIntOr_eq_ok.mpr rfl⟩

theorem exists_inflow (h : value.toNat < 2 ^ 255) : ∃ a, inflow value = .ok a :=
  exists_amount (by omega) (by omega)

theorem exists_outflow (h : value.toNat < 2 ^ 255) : ∃ a, outflow value = .ok a := by
  obtain ⟨paid, hpaid⟩ := exists_inflow h
  have hvalue := inflow_eq_ok.mp hpaid
  obtain ⟨out, hout⟩ : ∃ out : Amount, Signed.ofIntOr .overflow (-paid.toInt) = .ok out :=
    exists_amount (by omega) (by omega)
  exact ⟨out, bind_eq_ok.mpr ⟨paid, hpaid, hout⟩⟩

end Computations

section Numbers

variable {token : Token} {liquidity share amount price fee low high divisor moved added : Nat}

/-- Between two prices that are close together, the change of the price takes less than half of what
the fee leaves of the lower one. -/
theorem half_of_span (hfee : fee < 100000) (hspan : 5 * high ≤ 6 * low)
    (hdivisor : divisor + fee * high = 200000 * low) : 2 * (200000 * (high - low)) ≤ divisor := by
  have hcharge : fee * high ≤ 99999 * high := Nat.mul_le_mul_right _ (by omega)
  omega

theorem share_le {scaled : Nat} (hpos : 0 < divisor) (hhalf : 2 * scaled ≤ divisor)
    (hshare : share * divisor ≤ liquidity * scaled) : 2 * share ≤ liquidity := by
  refine Nat.le_of_mul_le_mul_right ?_ hpos
  calc
    2 * share * divisor = 2 * (share * divisor) := Nat.mul_assoc ..
    _ ≤ 2 * (liquidity * scaled) := Nat.mul_le_mul_left 2 hshare
    _ = liquidity * (2 * scaled) := Nat.mul_left_comm ..
    _ ≤ liquidity * divisor := Nat.mul_le_mul_left _ hhalf

theorem reserveFor_le (token : Token) (liquidity : Nat) (hprice : price < 2 ^ 160) :
    reserveFor token liquidity price ≤ liquidity * 2 ^ 96 := by
  cases token with
  | zero => exact Nat.div_le_self _ _
  | one =>
    refine Nat.div_le_of_le_mul ?_
    calc
      liquidity * price ≤ liquidity * 2 ^ 192 := Nat.mul_le_mul_left _ (by omega)
      _ = 2 ^ 96 * (liquidity * 2 ^ 96) := by ring

/-- An amount below the reserve of some liquidity stands for less of it. -/
theorem liquidityFor_lt (hpos : 0 < price) (h : amount < reserveFor token share price) :
    liquidityFor token amount price < share := by
  cases token with
  | zero =>
    have hmore := Nat.mul_le_of_le_div _ _ _ (Nat.succ_le_of_lt h)
    refine (Nat.div_lt_iff_lt_mul (Nat.two_pow_pos 96)).mpr ?_
    calc
      amount * price < (amount + 1) * price := Nat.mul_lt_mul_of_pos_right (by omega) hpos
      _ ≤ share * 2 ^ 96 := hmore
  | one =>
    have hmore := Nat.mul_le_of_le_div _ _ _ (Nat.succ_le_of_lt h)
    refine (Nat.div_lt_iff_lt_mul hpos).mpr ?_
    calc
      amount * 2 ^ 96 < (amount + 1) * 2 ^ 96 :=
        Nat.mul_lt_mul_of_pos_right (by omega) (Nat.two_pow_pos 96)
      _ ≤ share * price := hmore

theorem div_lt_succ_part (n fee d : Nat) (hd : 0 < d) :
    fee * (n / d) < 200000 * (n * fee / (200000 * d) + 1) := by
  refine Nat.lt_of_mul_lt_mul_right (a := d) ?_
  calc
    fee * (n / d) * d = n / d * d * fee := by ring
    _ ≤ n * fee := Nat.mul_le_mul_right _ (Nat.div_mul_le_self ..)
    _ < 200000 * d * (n * fee / (200000 * d) + 1) := Nat.lt_mul_div_succ _ (by omega)
    _ = 200000 * (n * fee / (200000 * d) + 1) * d := by ring

/-- Up to rounding, the fee's liquidity is half of the fee's part of what is paid in. -/
theorem lt_saleFee_succ (hpos : 0 < price) :
    fee * liquidityFor token amount price < 200000 * (saleFee token amount price fee + 1) := by
  cases token with
  | zero =>
    have hpart := div_lt_succ_part (amount * price) fee (2 ^ 96) (Nat.two_pow_pos 96)
    rw [show amount * price * fee = price * (amount * fee) by ring] at hpart
    exact hpart
  | one =>
    have hpart := div_lt_succ_part (amount * 2 ^ 96) fee price hpos
    rw [show amount * 2 ^ 96 * fee = 2 ^ 96 * (amount * fee) by ring] at hpart
    exact hpart

/-- A sale that does not cover the way to the higher price moves the price no further, up to one
unit of liquidity. -/
theorem moved_mul_lt (hle : low ≤ high) (hhigh : 0 < high)
    (hdivisor : divisor + fee * high = 200000 * low)
    (hshare : share * divisor ≤ liquidity * (200000 * (high - low))) (hmoved : moved ≤ share)
    (hadded : fee * moved < 200000 * (added + 1)) :
    (liquidity + moved) * low < (liquidity + added + 1) * high := by
  obtain ⟨gap, rfl⟩ := Nat.exists_eq_add_of_le hle
  rw [Nat.add_sub_cancel_left] at hshare
  refine Nat.lt_of_mul_lt_mul_left (a := 200000) ?_
  calc
    200000 * ((liquidity + moved) * low)
        = liquidity * (200000 * low) + moved * (200000 * low) := by ring
    _ = liquidity * (200000 * low) + moved * divisor + fee * moved * (low + gap) := by
      rw [← hdivisor]
      ring
    _ ≤ liquidity * (200000 * low) + liquidity * (200000 * gap) + fee * moved * (low + gap) := by
      have hpaid := Nat.mul_le_mul_right divisor hmoved
      omega
    _ < liquidity * (200000 * low) + liquidity * (200000 * gap) +
        200000 * (added + 1) * (low + gap) :=
      Nat.add_lt_add_left (Nat.mul_lt_mul_of_pos_right hadded hhigh) _
    _ = 200000 * ((liquidity + added + 1) * (low + gap)) := by ring

end Numbers

variable {token : Token} {liquidity current target fee next added : Word} {specified reach : Amount}
variable {low high divisor share : Nat} {tick : Int}

/-- A range with some liquidity, and two prices of a sale in it that are close together. -/
structure Sellable (token : Token) (liquidity current target fee : Word) (low high : Nat) :
    Prop where
  least : minLiquidity.toNat ≤ liquidity.toNat
  most : liquidity.toNat ≤ 2 * (2 ^ 128 - 1)
  fee_lt : fee.toNat < feeUnit.toNat
  range : priceRange token current.toNat target.toNat = (low, high)
  low_pos : 0 < low
  ordered : low ≤ high
  span : 5 * high ≤ 6 * low
  top : high ≤ maxSqrtPrice.toNat

/-- The share of the liquidity that a sale to its target pays for. -/
structure Shares (liquidity fee low high divisor share : Nat) : Prop where
  divisor_pos : 0 < divisor
  divides : divisor + fee * high = 200000 * low
  floor : share * divisor ≤ liquidity * (200000 * (high - low))
  fits : share < 2 ^ 128

section Targets

theorem Sellable.high_lt (h : Sellable token liquidity current target fee low high) :
    high < 2 ^ 160 := Nat.lt_of_le_of_lt h.top (by decide)

theorem Sellable.bounds (h : Sellable token liquidity current target fee low high) :
    (low ≤ current.toNat ∧ current.toNat ≤ high) ∧ low ≤ target.toNat ∧ target.toNat ≤ high := by
  have hle := h.ordered
  cases token with
  | zero =>
    obtain ⟨rfl, rfl⟩ := Prod.mk.inj h.range
    exact ⟨⟨hle, Nat.le_refl _⟩, Nat.le_refl _, hle⟩
  | one =>
    obtain ⟨rfl, rfl⟩ := Prod.mk.inj h.range
    exact ⟨⟨Nat.le_refl _, hle⟩, hle, Nat.le_refl _⟩

theorem Sellable.onward (h : Sellable token liquidity current target fee low high) :
    ¬ Before (travel .sell token) target.toNat current.toNat := by
  have hle := h.ordered
  cases token with
  | zero =>
    obtain ⟨rfl, rfl⟩ := Prod.mk.inj h.range
    exact Nat.not_lt.mpr hle
  | one =>
    obtain ⟨rfl, rfl⟩ := Prod.mk.inj h.range
    exact Nat.not_lt.mpr hle

theorem exists_reserveOf (hpos : 0 < current.toNat) (hprice : current.toNat < 2 ^ 160)
    (hliquidity : liquidity.toNat < 2 ^ 129) :
    ∃ reserve, reserveOf token liquidity current = .ok reserve := by
  have hreserve := reserveFor_le token liquidity.toNat hprice
  cases token with
  | zero =>
    refine exists_mulDivFloor hpos ?_
    rw [toNat_priceUnit]
    change reserveFor .zero liquidity.toNat current.toNat < _
    omega
  | one =>
    refine exists_mulDivFloor priceUnit_pos ?_
    rw [toNat_priceUnit]
    change reserveFor .one liquidity.toNat current.toNat < _
    omega

/-- The share that moves the price between two words is computed, and it fits half a word. -/
theorem exists_share {a b gap : Word} (hliquidity : liquidity.toNat ≤ 2 * (2 ^ 128 - 1))
    (hfee : fee.toNat < 100000) (hpos : 0 < a.toNat) (hordered : a.toNat ≤ b.toNat)
    (hspan : 5 * b.toNat ≤ 6 * a.toNat) (hprice : b.toNat < 2 ^ 160)
    (hgap : gap.toNat = b.toNat - a.toNat) :
    ∃ whole charge divisor scaled share, mulChecked twoFeeUnits a = .ok whole ∧
      mulChecked fee b = .ok charge ∧ subChecked whole charge = .ok divisor ∧
      mulChecked twoFeeUnits gap = .ok scaled ∧ mulDivFloor liquidity scaled divisor = .ok share ∧
      share.toNat < 2 ^ 128 := by
  have hless : fee.toNat * b.toNat ≤ 99999 * b.toNat := Nat.mul_le_mul_right _ (by omega)
  obtain ⟨whole, hwhole⟩ : ∃ whole, mulChecked twoFeeUnits a = .ok whole :=
    exists_mulChecked (by rw [toNat_twoFeeUnits]; omega)
  obtain ⟨charge, hcharge⟩ : ∃ charge, mulChecked fee b = .ok charge :=
    exists_mulChecked (by omega)
  obtain ⟨scaled, hscaled⟩ : ∃ scaled, mulChecked twoFeeUnits gap = .ok scaled :=
    exists_mulChecked (by rw [toNat_twoFeeUnits, hgap]; omega)
  have hwholeValue := mulChecked_eq_ok.mp hwhole
  have hchargeValue := mulChecked_eq_ok.mp hcharge
  have hscaledValue := mulChecked_eq_ok.mp hscaled
  rw [toNat_twoFeeUnits] at hwholeValue hscaledValue
  obtain ⟨divisor, hdivisor⟩ : ∃ divisor, subChecked whole charge = .ok divisor :=
    exists_subChecked (by omega)
  have hdivides := subChecked_eq_ok.mp hdivisor
  rw [hchargeValue, hwholeValue] at hdivides
  have hhalf : 2 * scaled.toNat ≤ divisor.toNat := by
    rw [hscaledValue, hgap]
    exact half_of_span hfee hspan hdivides
  have hdivisorPos : 0 < divisor.toNat := by omega
  have hfloor := Nat.div_mul_le_self (liquidity.toNat * scaled.toNat) divisor.toNat
  have hfits := share_le hdivisorPos hhalf hfloor
  obtain ⟨share, hshare⟩ : ∃ share, mulDivFloor liquidity scaled divisor = .ok share :=
    exists_mulDivFloor hdivisorPos (by omega)
  rw [← (mulDivFloor_eq_ok.mp hshare).2] at hfits
  exact ⟨whole, charge, divisor, scaled, share, hwhole, hcharge, hdivisor, hscaled, hshare,
    by omega⟩

/-- The amount that moves the price to its target is computed. -/
theorem Sellable.exists_reach (h : Sellable token liquidity current target fee low high) :
    ∃ reach, reachAmount liquidity current target fee .sell token = .ok reach := by
  have hhigh := h.high_lt
  have hpos := h.low_pos
  have hle := h.ordered
  obtain ⟨⟨hfrom, hto⟩, -⟩ := h.bounds
  have hprices : ∃ a b, ascending (travel .sell token) current target = (a, b) ∧ a.toNat = low ∧
      b.toNat = high ∧ (distance current target).toNat = high - low := by
    cases token with
    | zero =>
      obtain ⟨rfl, rfl⟩ := Prod.mk.inj h.range
      refine ⟨target, current, rfl, rfl, rfl, ?_⟩
      rw [toNat_distance]
      omega
    | one =>
      obtain ⟨rfl, rfl⟩ := Prod.mk.inj h.range
      refine ⟨current, target, rfl, rfl, rfl, ?_⟩
      rw [toNat_distance]
      omega
  obtain ⟨a, b, hascending, rfl, rfl, hgap⟩ := hprices
  obtain ⟨whole, charge, divisor, scaled, share, hwhole, hcharge, hdivisor, hscaled, hshare,
    hfits⟩ := exists_share h.most h.fee_lt hpos hle h.span hhigh hgap
  have hcurrent : current.toNat < 2 ^ 160 := by omega
  obtain ⟨reserve, hreserve⟩ : ∃ reserve, reserveOf token share current = .ok reserve :=
    exists_reserveOf (by omega) hcurrent (by omega)
  have hsmall := reserveFor_le token share.toNat hcurrent
  rw [← reserveOf_eq_ok hreserve] at hsmall
  obtain ⟨reach, hreach⟩ : ∃ reach, inflow reserve = .ok reach := exists_inflow (by omega)
  refine ⟨reach, ?_⟩
  unfold reachAmount
  rw [hascending]
  refine bind_eq_ok.mpr ⟨whole, hwhole, bind_eq_ok.mpr ⟨charge, hcharge, ?_⟩⟩
  refine bind_eq_ok.mpr ⟨divisor, hdivisor, bind_eq_ok.mpr ⟨scaled, hscaled, ?_⟩⟩
  exact bind_eq_ok.mpr ⟨share, hshare, bind_eq_ok.mpr ⟨reserve, hreserve, hreach⟩⟩

theorem Sellable.shares (h : Sellable token liquidity current target fee low high)
    (hreach : reachAmount liquidity current target fee .sell token = .ok reach) :
    ∃ divisor share, Shares liquidity.toNat fee.toNat low high divisor share ∧
      reach.toInt = reserveFor token share current.toNat := by
  obtain ⟨divisor, share, hpos, hdivides, hshare, hvalue⟩ :=
    saleReach_eq_ok h.range h.ordered hreach
  have hfloor : share * divisor ≤ liquidity.toNat * (200000 * (high - low)) := by
    rw [hshare]
    exact Nat.div_mul_le_self _ _
  have hless := share_le hpos (half_of_span h.fee_lt h.span hdivides) hfloor
  have hmost := h.most
  exact ⟨divisor, share, ⟨hpos, hdivides, hfloor, by omega⟩, hvalue⟩

end Targets

section Exchanges

/-- Two small amounts that flow in opposite directions have a sum. -/
theorem exists_netFlow (received paid : Word) (hreceived : received.toNat < 2 ^ 254)
    (hpaid : paid.toNat < 2 ^ 254) :
    ∃ a b sum, inflow received = .ok a ∧ outflow paid = .ok b ∧ Signed.addChecked a b = .ok sum := by
  obtain ⟨a, ha⟩ : ∃ a, inflow received = .ok a := exists_inflow (by omega)
  obtain ⟨b, hb⟩ : ∃ b, outflow paid = .ok b := exists_outflow (by omega)
  obtain ⟨out, hout, hopposite⟩ := outflow_eq_ok.mp hb
  rw [inflow_eq_ok.mp hout] at hopposite
  have hvalue := inflow_eq_ok.mp ha
  obtain ⟨sum, hsum⟩ : ∃ sum, Signed.addChecked a b = .ok sum :=
    exists_amount (by omega) (by omega)
  exact ⟨a, b, sum, ha, hb, hsum⟩

/-- A move of the price in the direction of a sale, and the liquidity that the fee adds to it, all
of which are within their bounds. -/
structure Bounded (token : Token) (liquidity current next added : Word) : Prop where
  liquidity_lt : liquidity.toNat < 2 ^ 129
  current_pos : 0 < current.toNat
  current_lt : current.toNat < 2 ^ 160
  next_lt : next.toNat < 2 ^ 160
  added_lt : added.toNat < 2 ^ 128
  onward : ¬ Before (travel .sell token) next.toNat current.toNat

theorem Bounded.exists_holdingZero (h : Bounded .zero liquidity current next added) :
    ∃ amount, holdingChange liquidity current next added .sell .zero = .ok amount := by
  obtain ⟨hliquidity, -, hprice, hnext, hadded, honward⟩ := h
  have hle : next.toNat ≤ current.toNat := Nat.not_lt.mp honward
  have hcharge : roundedUp (added.toNat * next.toNat) (2 ^ 96) ≤ 2 ^ 192 :=
    roundedUp_le (Nat.two_pow_pos 96) <|
      calc
        added.toNat * next.toNat ≤ 2 ^ 128 * 2 ^ 160 :=
          Nat.mul_le_mul (Nat.le_of_lt hadded) (Nat.le_of_lt hnext)
        _ = 2 ^ 192 * 2 ^ 96 := by decide
  have hmove : liquidity.toNat * (current.toNat - next.toNat) / 2 ^ 96 ≤ 2 ^ 193 :=
    Nat.div_le_of_le_mul <|
      calc
        liquidity.toNat * (current.toNat - next.toNat) ≤ 2 ^ 129 * 2 ^ 160 :=
          Nat.mul_le_mul (Nat.le_of_lt hliquidity) (by omega)
        _ = 2 ^ 96 * 2 ^ 193 := by decide
  obtain ⟨charge, hcharged⟩ : ∃ charge, mulDivCeil added next priceUnit = .ok charge :=
    exists_mulDivCeil priceUnit_pos (by rw [toNat_priceUnit]; omega)
  obtain ⟨gap, hgap⟩ : ∃ gap, subChecked current next = .ok gap := exists_subChecked hle
  have hgapValue : gap.toNat = current.toNat - next.toNat := by
    have hsum := subChecked_eq_ok.mp hgap
    omega
  rw [← hgapValue] at hmove
  obtain ⟨out, hout⟩ : ∃ out, mulDivFloor liquidity gap priceUnit = .ok out :=
    exists_mulDivFloor priceUnit_pos (by rw [toNat_priceUnit]; omega)
  have hchargeValue := (mulDivCeil_eq_ok.mp hcharged).2
  have houtValue := (mulDivFloor_eq_ok.mp hout).2
  rw [toNat_priceUnit] at hchargeValue houtValue
  change charge.toNat = roundedUp (added.toNat * next.toNat) (2 ^ 96) at hchargeValue
  obtain ⟨received, paid, sum, hreceived, hpaid, hsum⟩ :=
    exists_netFlow charge out (by omega) (by omega)
  refine ⟨sum, bind_eq_ok.mpr ⟨charge, hcharged, bind_eq_ok.mpr ⟨received, hreceived, ?_⟩⟩⟩
  refine bind_eq_ok.mpr ⟨paid, ?_, hsum⟩
  exact bind_eq_ok.mpr ⟨gap, hgap, bind_eq_ok.mpr ⟨out, hout, hpaid⟩⟩

theorem Bounded.exists_holdingOne (h : Bounded .one liquidity current next added) :
    ∃ amount, holdingChange liquidity current next added .sell .one = .ok amount := by
  obtain ⟨hliquidity, hcurrent, -, -, hadded, honward⟩ := h
  have hle : current.toNat ≤ next.toNat := Nat.not_lt.mp honward
  have hnext : 0 < next.toNat := by omega
  obtain ⟨grown, hgrown⟩ : ∃ grown, addChecked liquidity added = .ok grown :=
    exists_addChecked (by omega)
  have hgrownValue := addChecked_eq_ok.mp hgrown
  have hafter : roundedUp (grown.toNat * 2 ^ 96) next.toNat ≤ grown.toNat * 2 ^ 96 :=
    roundedUp_le hnext (Nat.le_mul_of_pos_right _ hnext)
  have hbefore : liquidity.toNat * 2 ^ 96 / current.toNat ≤ liquidity.toNat * 2 ^ 96 :=
    Nat.div_le_self _ _
  obtain ⟨held, hheld⟩ : ∃ held, mulDivCeil grown priceUnit next = .ok held :=
    exists_mulDivCeil hnext (by rw [toNat_priceUnit]; omega)
  obtain ⟨left, hleft⟩ : ∃ left, mulDivFloor liquidity priceUnit current = .ok left :=
    exists_mulDivFloor hcurrent (by rw [toNat_priceUnit]; omega)
  have hheldValue := (mulDivCeil_eq_ok.mp hheld).2
  have hleftValue := (mulDivFloor_eq_ok.mp hleft).2
  rw [toNat_priceUnit] at hheldValue hleftValue
  change held.toNat = roundedUp (grown.toNat * 2 ^ 96) next.toNat at hheldValue
  obtain ⟨received, paid, sum, hreceived, hpaid, hsum⟩ :=
    exists_netFlow held left (by omega) (by omega)
  refine ⟨sum, bind_eq_ok.mpr ⟨grown, hgrown, bind_eq_ok.mpr ⟨held, hheld, ?_⟩⟩⟩
  refine bind_eq_ok.mpr ⟨received, hreceived, bind_eq_ok.mpr ⟨left, hleft, ?_⟩⟩
  exact bind_eq_ok.mpr ⟨paid, hpaid, hsum⟩

theorem Bounded.exists_exchanged (h : Bounded token liquidity current next added) :
    ∃ amount, exchangedAmount liquidity current next added .sell token = .ok amount := by
  obtain ⟨amount, hamount⟩ :
      ∃ amount, holdingChange liquidity current next added .sell token = .ok amount := by
    cases token with
    | zero => exact h.exists_holdingZero
    | one => exact h.exists_holdingOne
  exact ⟨dropTrace .sell amount, bind_eq_ok.mpr ⟨amount, hamount, rfl⟩⟩

end Exchanges

section FullSteps

/-- The liquidity that the fee adds on the way to the target is no more than the share paid for. -/
theorem Sellable.exists_fullFee (h : Sellable token liquidity current target fee low high)
    (hshares : Shares liquidity.toNat fee.toNat low high divisor share)
    (hreach : reach.toInt = reserveFor token share current.toNat) :
    ∃ added, fullFeeLiquidity reach.magnitude liquidity current target .sell token = .ok added ∧
      added.toNat ≤ share := by
  have hhigh := h.high_lt
  have hpos := h.low_pos
  have hle := h.ordered
  have hmost := h.most
  have hfits := hshares.fits
  obtain ⟨⟨hfrom, hto⟩, hgoes, -⟩ := h.bounds
  have hprice : current.toNat < 2 ^ 160 := by omega
  have hamount : reach.magnitude.toNat = reserveFor token share current.toNat := by
    rw [toNat_amount_magnitude, hreach, Int.natAbs_natCast]
  have hpaid := reserveFor_le token share hprice
  have hheld := reserveFor_le token liquidity.toNat hprice
  obtain ⟨before, hbefore⟩ : ∃ before, reserveOf token liquidity current = .ok before :=
    exists_reserveOf (by omega) hprice (by omega)
  have hbeforeValue := reserveOf_eq_ok hbefore
  obtain ⟨reserve, hreserve⟩ : ∃ reserve, addChecked before reach.magnitude = .ok reserve :=
    exists_addChecked (by omega)
  have hreserveValue := addChecked_eq_ok.mp hreserve
  rw [hbeforeValue, hamount] at hreserveValue
  have htotal : liquidityFor token reserve.toNat target.toNat ≤ liquidity.toNat + share := by
    rw [hreserveValue]
    refine Nat.le_of_mul_le_mul_right ?_ (Nat.lt_of_lt_of_le hpos hle)
    exact Nat.le_trans (liquidityFor_reserves h.range) (Nat.mul_le_mul_left _ hle)
  obtain ⟨whole, hwhole⟩ : ∃ whole, liquidityOf token reserve target = .ok whole :=
    exists_liquidityOf (by omega) (by omega)
  refine ⟨subToZero whole liquidity, ?_, ?_⟩
  · refine bind_eq_ok.mpr ⟨before, hbefore, bind_eq_ok.mpr ⟨reserve, hreserve, ?_⟩⟩
    exact bind_eq_ok.mpr ⟨whole, hwhole, rfl⟩
  · rw [toNat_subToZero, liquidityOf_eq_ok hwhole]
    omega

/-- A sale that goes to its target is not refused. -/
theorem Sellable.exists_fullStep (h : Sellable token liquidity current target fee low high)
    (hreach : reachAmount liquidity current target fee .sell token = .ok reach) :
    ∃ step, fullStep liquidity current target reach .sell token = .ok step ∧
      step.added.toNat < 2 ^ 128 := by
  have hhigh := h.high_lt
  have hpos := h.low_pos
  have hmost := h.most
  obtain ⟨⟨hfrom, hto⟩, -, hends⟩ := h.bounds
  obtain ⟨divisor, share, hshares, hvalue⟩ := h.shares hreach
  obtain ⟨added, hadded, hless⟩ := h.exists_fullFee hshares hvalue
  have hfits : added.toNat < 2 ^ 128 := Nat.lt_of_le_of_lt hless hshares.fits
  have hbounded : Bounded token liquidity current target added :=
    ⟨by omega, by omega, by omega, by omega, hfits, h.onward⟩
  obtain ⟨exchanged, hexchanged⟩ := hbounded.exists_exchanged
  refine ⟨⟨target, reach, exchanged, added⟩, ?_, hfits⟩
  exact bind_eq_ok.mpr ⟨added, hadded, bind_eq_ok.mpr ⟨exchanged, hexchanged, rfl⟩⟩

end FullSteps

section PartialSteps

/-- An amount that does not take the price to its target. -/
structure Short (token : Token) (share price amount : Nat) : Prop where
  less : amount < reserveFor token share price
  moved_lt : liquidityFor token amount price < share

theorem short_of_uncovered (hcurrent : 0 < current.toNat) (hopen : 0 < specified.toInt)
    (hreach : reach.toInt = reserveFor token share current.toNat)
    (huncovered : covers .sell specified reach = false) :
    Short token share current.toNat specified.magnitude.toNat := by
  unfold covers at huncovered
  simp only [decide_eq_false_iff_not] at huncovered
  have hless : specified.magnitude.toNat < reserveFor token share current.toNat := by
    rw [toNat_amount_magnitude]
    omega
  exact ⟨hless, liquidityFor_lt hcurrent hless⟩

theorem Sellable.exists_partialFee (h : Sellable token liquidity current target fee low high)
    (hfits : share < 2 ^ 128)
    (hshort : Short token share current.toNat specified.magnitude.toNat) :
    ∃ added, partialFeeLiquidity specified.magnitude liquidity current fee .sell token =
      .ok added := by
  have hfee := h.fee_lt
  have hhigh := h.high_lt
  have hpos := h.low_pos
  obtain ⟨⟨hfrom, hto⟩, -⟩ := h.bounds
  rw [toNat_feeUnit] at hfee
  have hless := hshort.less
  have hmoved := hshort.moved_lt
  have hprice : current.toNat < 2 ^ 160 := by omega
  have hsmall := reserveFor_le token share hprice
  have hcharge : specified.magnitude.toNat * fee.toNat ≤ 2 ^ 224 * 100000 :=
    Nat.mul_le_mul (by omega) (Nat.le_of_lt hfee)
  obtain ⟨charged, hcharged⟩ : ∃ charged, mulChecked specified.magnitude fee = .ok charged :=
    exists_mulChecked (by omega)
  have hchargedValue := mulChecked_eq_ok.mp hcharged
  have hpart := saleFee_le token specified.magnitude.toNat current.toNat fee.toNat (by omega)
  cases token with
  | zero =>
    have hdivisor : (twoFeeUnits <<< priceBits).toNat = 200000 * 2 ^ 96 := by decide
    obtain ⟨added, hadded⟩ :
        ∃ added, mulDivFloor current charged (twoFeeUnits <<< priceBits) = .ok added := by
      refine exists_mulDivFloor (by decide) ?_
      rw [hdivisor, hchargedValue]
      change saleFee .zero specified.magnitude.toNat current.toNat fee.toNat < _
      omega
    exact ⟨added, bind_eq_ok.mpr ⟨charged, hcharged, hadded⟩⟩
  | one =>
    obtain ⟨divisor, hdivisor⟩ : ∃ divisor, mulChecked twoFeeUnits current = .ok divisor :=
      exists_mulChecked (by rw [toNat_twoFeeUnits]; omega)
    have hdivisorValue := mulChecked_eq_ok.mp hdivisor
    rw [toNat_twoFeeUnits] at hdivisorValue
    obtain ⟨added, hadded⟩ : ∃ added, mulDivFloor priceUnit charged divisor = .ok added := by
      refine exists_mulDivFloor (by omega) ?_
      rw [hdivisorValue, hchargedValue, toNat_priceUnit]
      change saleFee .one specified.magnitude.toNat current.toNat fee.toNat < _
      omega
    exact ⟨added, bind_eq_ok.mpr ⟨charged, hcharged, bind_eq_ok.mpr ⟨divisor, hdivisor, hadded⟩⟩⟩

/-- The fee of a sale adds no more than the liquidity for which the sale pays. -/
theorem partialFee_le (hfee : fee.toNat < feeUnit.toNat)
    (hadded : partialFeeLiquidity specified.magnitude liquidity current fee .sell token =
      .ok added) :
    added.toNat ≤ liquidityFor token specified.magnitude.toNat current.toNat := by
  rw [toNat_feeUnit] at hfee
  rw [partialFeeLiquidity_sale hadded]
  exact saleFee_le token specified.magnitude.toNat current.toNat fee.toNat (by omega)

/-- The two liquidities by whose quotient the price moves. -/
theorem Sellable.exists_scale (h : Sellable token liquidity current target fee low high)
    (hshares : Shares liquidity.toNat fee.toNat low high divisor share)
    (hshort : Short token share current.toNat specified.magnitude.toNat)
    (hadded : partialFeeLiquidity specified.magnitude liquidity current fee .sell token =
      .ok added) :
    ∃ grown change moved, addChecked liquidity added = .ok grown ∧
      liquidityOf token specified.magnitude current = .ok change ∧
      addChecked liquidity change = .ok moved ∧ minLiquidity.toNat ≤ grown.toNat ∧
      grown.toNat ≤ moved.toNat ∧ moved.toNat * low < (grown.toNat + 1) * high := by
  have hpos := h.low_pos
  have hmost := h.most
  have hleast := h.least
  have hfits := hshares.fits
  have hmoved := hshort.moved_lt
  have hless := partialFee_le h.fee_lt hadded
  obtain ⟨⟨hfrom, -⟩, -⟩ := h.bounds
  have hcurrent : 0 < current.toNat := by omega
  obtain ⟨grown, hgrown⟩ : ∃ grown, addChecked liquidity added = .ok grown :=
    exists_addChecked (by omega)
  obtain ⟨change, hchange⟩ :
      ∃ change, liquidityOf token specified.magnitude current = .ok change :=
    exists_liquidityOf hcurrent (by omega)
  have hchangeValue := liquidityOf_eq_ok hchange
  obtain ⟨moved, hmove⟩ : ∃ moved, addChecked liquidity change = .ok moved :=
    exists_addChecked (by omega)
  have hgrownValue := addChecked_eq_ok.mp hgrown
  have hmovedValue := addChecked_eq_ok.mp hmove
  have hrounded : fee.toNat * liquidityFor token specified.magnitude.toNat current.toNat <
      200000 * (added.toNat + 1) := by
    rw [partialFeeLiquidity_sale hadded]
    exact lt_saleFee_succ hcurrent
  have hmoves := moved_mul_lt h.ordered (Nat.lt_of_lt_of_le hpos h.ordered) hshares.divides
    hshares.floor (Nat.le_of_lt hmoved) hrounded
  rw [← hchangeValue, ← hmovedValue, ← hgrownValue] at hmoves
  exact ⟨grown, change, moved, hgrown, hchange, hmove, by omega, by omega, hmoves⟩

/-- A quotient that takes a price no further than the highest one fits the width of a price. -/
theorem quotient_lt {grown moved : Nat} (hleast : minLiquidity.toNat ≤ grown)
    (htop : high ≤ maxSqrtPrice.toNat) (h : moved * low < (grown + 1) * high) :
    moved * low / grown < 2 ^ 160 := by
  have hleastValue : minLiquidity.toNat = 100000 := by decide
  have htopValue : maxSqrtPrice.toNat = 1461446703485210103287273052203988822378723970342 := by
    decide
  have hbound : (grown + 1) * high ≤ (grown + 1) * maxSqrtPrice.toNat :=
    Nat.mul_le_mul_left _ htop
  rw [htopValue] at hbound
  refine (Nat.div_lt_iff_lt_mul (by omega)).mpr ?_
  omega

/-- The price at which a sale comes to rest fits its width. -/
theorem Sellable.exists_finalPrice (h : Sellable token liquidity current target fee low high)
    (hshares : Shares liquidity.toNat fee.toNat low high divisor share)
    (hshort : Short token share current.toNat specified.magnitude.toNat)
    (hadded : partialFeeLiquidity specified.magnitude liquidity current fee .sell token =
      .ok added) :
    ∃ next, finalPrice specified.magnitude liquidity added current .sell token = .ok next ∧
      next.toNat < 2 ^ 160 := by
  obtain ⟨grown, change, moved, hgrown, hchange, hmove, hleast, hle, hmoves⟩ :=
    h.exists_scale hshares hshort hadded
  have hhigh := h.high_lt
  have hleastValue : minLiquidity.toNat = 100000 := by decide
  obtain ⟨⟨-, hto⟩, -⟩ := h.bounds
  cases token with
  | zero =>
    have hrest : roundedUp (grown.toNat * current.toNat) moved.toNat ≤ current.toNat := by
      refine roundedUp_le (by omega) ?_
      rw [Nat.mul_comm]
      exact Nat.mul_le_mul_left _ hle
    obtain ⟨next, hnext⟩ : ∃ next, mulDivCeil grown current moved = .ok next :=
      exists_mulDivCeil (by omega) (by omega)
    have hvalue := (mulDivCeil_eq_ok.mp hnext).2
    change next.toNat = roundedUp (grown.toNat * current.toNat) moved.toNat at hvalue
    refine ⟨next, ?_, by omega⟩
    refine bind_eq_ok.mpr ⟨grown, hgrown, bind_eq_ok.mpr ⟨change, hchange, ?_⟩⟩
    exact bind_eq_ok.mpr ⟨moved, hmove, hnext⟩
  | one =>
    obtain ⟨rfl, -⟩ := Prod.mk.inj h.range
    have hrest := quotient_lt hleast h.top hmoves
    obtain ⟨next, hnext⟩ : ∃ next, mulDivFloor moved current grown = .ok next :=
      exists_mulDivFloor (by omega) (by omega)
    have hvalue := (mulDivFloor_eq_ok.mp hnext).2
    refine ⟨next, ?_, by omega⟩
    refine bind_eq_ok.mpr ⟨grown, hgrown, bind_eq_ok.mpr ⟨change, hchange, ?_⟩⟩
    exact bind_eq_ok.mpr ⟨moved, hmove, hnext⟩

/-- A sale that is used up on the way to its target is not refused. -/
theorem Sellable.exists_partialStep (h : Sellable token liquidity current target fee low high)
    (hopen : 0 < specified.toInt)
    (hreach : reachAmount liquidity current target fee .sell token = .ok reach)
    (huncovered : covers .sell specified reach = false) :
    ∃ step, partialStep liquidity current fee specified .sell token = .ok step ∧
      step.added.toNat < 2 ^ 128 := by
  have hhigh := h.high_lt
  have hpos := h.low_pos
  have hmost := h.most
  have hfee := h.fee_lt
  rw [toNat_feeUnit] at hfee
  obtain ⟨⟨hfrom, hto⟩, -⟩ := h.bounds
  have hcurrent : 0 < current.toNat := by omega
  obtain ⟨divisor, share, hshares, hvalue⟩ := h.shares hreach
  have hfits := hshares.fits
  have hshort := short_of_uncovered hcurrent hopen hvalue huncovered
  have hmoved := hshort.moved_lt
  obtain ⟨added, hadded⟩ := h.exists_partialFee hfits hshort
  have hless := partialFee_le h.fee_lt hadded
  obtain ⟨next, hnext, hnarrow⟩ := h.exists_finalPrice hshares hshort hadded
  obtain ⟨hscale, hrest⟩ := finalPrice_eq_restPrice hadded hnext
  have honward := restPrice_not_before _ hscale (Nat.le_of_lt (by
    change fee.toNat < 200000
    omega))
  rw [← hrest] at honward
  have hbounded : Bounded token liquidity current next added :=
    ⟨by omega, hcurrent, by omega, hnarrow, by omega, honward⟩
  obtain ⟨exchanged, hexchanged⟩ := hbounded.exists_exchanged
  refine ⟨⟨next, specified, exchanged, added⟩, ?_, hbounded.added_lt⟩
  refine bind_eq_ok.mpr ⟨added, hadded, bind_eq_ok.mpr ⟨next, hnext, ?_⟩⟩
  refine bind_eq_ok.mpr ⟨next, narrowToPrice_eq_ok.mpr ⟨rfl, hnarrow⟩, ?_⟩
  exact bind_eq_ok.mpr ⟨exchanged, hexchanged, rfl⟩

end PartialSteps

section Steps

/-- A target that one step of a sale can have from a price of a tick. -/
def InStep (token : Token) (tick : Int) (current target : Word) : Prop :=
  match token with
  | .zero => ratio (max (tick - maxTickStep) minTick) ≤ target.toNat ∧
      target.toNat ≤ current.toNat
  | .one => current.toNat ≤ target.toNat ∧
      target.toNat ≤ ratio (min (tick + maxTickStep) maxTick)

instance (token : Token) (tick : Int) (current target : Word) :
    Decidable (InStep token tick current target) := by
  cases token <;> unfold InStep <;> infer_instance

/-- The prices of one step are close together. -/
theorem sellable_of_inStep (hleast : minLiquidity.toNat ≤ liquidity.toNat)
    (hmost : liquidity.toNat ≤ 2 * (2 ^ 128 - 1)) (hfee : fee.toNat < feeUnit.toNat)
    (hwithin : Within tick current) (htarget : InStep token tick current target) :
    ∃ low high, Sellable token liquidity current target fee low high := by
  obtain ⟨hlow, hhigh, hreached, hshort⟩ := hwithin
  cases token with
  | zero =>
    obtain ⟨hfrom, hto⟩ := htarget
    unfold maxTickStep at hfrom
    have hspan := ratio_le_fifth (a := max (tick - 480) minTick) (b := tick + 1) (by omega)
      (by omega) (by omega) (by omega)
    have hedge : minTick ≤ max (tick - 480) minTick := by omega
    have hpos := ratio_pos hedge (by omega)
    have htop := ratio_mono (a := tick + 1) (b := maxTick) (by omega) (by omega) (by omega)
    rw [ratio_maxTick] at htop
    exact ⟨target.toNat, current.toNat, hleast, hmost, hfee, rfl, by omega, hto, by omega,
      by omega⟩
  | one =>
    obtain ⟨hfrom, hto⟩ := htarget
    unfold maxTickStep at hto
    have hspan := ratio_le_fifth (a := tick) (b := min (tick + 480) maxTick) hlow (by omega)
      (by omega) (by omega)
    have hpos := ratio_pos hlow (Int.le_of_lt hhigh)
    have htop := ratio_mono (a := min (tick + 480) maxTick) (b := maxTick) (by omega) (by omega)
      (by omega)
    rw [ratio_maxTick] at htop
    exact ⟨current.toNat, target.toNat, hleast, hmost, hfee, rfl, by omega, hfrom, by omega,
      by omega⟩

/-- A sale is never refused within the ticks of one step, whatever the liquidity, the fee and the
amount are, and the liquidity that its fee adds fits the half word in which it is kept. -/
theorem sale_never_refused (hleast : minLiquidity.toNat ≤ liquidity.toNat)
    (hmost : liquidity.toNat ≤ 2 * (2 ^ 128 - 1)) (hfee : fee.toNat < feeUnit.toNat)
    (hwithin : Within tick current) (htarget : InStep token tick current target)
    (hopen : 0 < specified.toInt) :
    ∃ step, rangeStep liquidity current target fee specified .sell token = .ok step ∧
      step.added.toNat < 2 ^ 128 ∧ (lowHalf step.added).toNat = step.added.toNat := by
  obtain ⟨low, high, hsellable⟩ := sellable_of_inStep hleast hmost hfee hwithin htarget
  have hexists : ∃ step, rangeStep liquidity current target fee specified .sell token = .ok step ∧
      step.added.toNat < 2 ^ 128 := by
    unfold rangeStep
    by_cases hstay : current = target
    · rw [if_pos hstay]
      exact ⟨_, rfl, Nat.two_pow_pos 128⟩
    · rw [if_neg hstay]
      obtain ⟨reach, hreach⟩ := hsellable.exists_reach
      by_cases hcovers : covers .sell specified reach = true
      · obtain ⟨step, hstep, hadded⟩ := hsellable.exists_fullStep hreach
        exact ⟨step, bind_eq_ok.mpr ⟨reach, hreach, (if_pos hcovers).trans hstep⟩, hadded⟩
      · obtain ⟨step, hstep, hadded⟩ :=
          hsellable.exists_partialStep hopen hreach (Bool.not_eq_true _ ▸ hcovers)
        exact ⟨step, bind_eq_ok.mpr ⟨reach, hreach, (if_neg hcovers).trans hstep⟩, hadded⟩
  obtain ⟨step, hstep, hadded⟩ := hexists
  exact ⟨step, hstep, hadded, by rw [toNat_lowHalf, Nat.mod_eq_of_lt hadded]⟩

/-- A sale at the steepest fee that is used up between the two highest prices. -/
theorem sale_never_refused_at_top :
    ∃ current target step, sqrtPriceAt (maxTick - 1) = .ok current ∧
      sqrtPriceAt maxTick = .ok target ∧ Within (maxTick - 1) current ∧
      InStep .one (maxTick - 1) current target ∧
      rangeStep 100000 current target 99999 ⟨0x80000000000000000, by decide, by decide⟩ .sell
        .one = .ok step ∧
      step.next < target ∧ (lowHalf step.added).toNat = step.added.toNat := by
  have hstep : (do
      let current ← liftPool (sqrtPriceAt (maxTick - 1))
      let target ← liftPool (sqrtPriceAt maxTick)
      let step ← liftArithmetic <| rangeStep 100000 current target 99999
        ⟨0x80000000000000000, by decide, by decide⟩ .sell .one
      return decide (ratio (maxTick - 1) ≤ current.toNat ∧ current.toNat ≤ ratio maxTick ∧
        InStep .one (maxTick - 1) current target ∧ step.next < target)) = Except.ok true := by
    decide +kernel
  obtain ⟨current, hcurrent, hstep⟩ := bind_eq_ok.mp hstep
  obtain ⟨target, htarget, hstep⟩ := bind_eq_ok.mp hstep
  obtain ⟨step, hsale, hstep⟩ := bind_eq_ok.mp hstep
  obtain ⟨hreached, hshort, hinStep, hnext⟩ := of_decide_eq_true (Except.ok.inj hstep)
  rw [liftPool_eq_ok] at hcurrent htarget
  rw [liftArithmetic_eq_ok] at hsale
  have hwithin : Within (maxTick - 1) current := ⟨by decide, by decide, hreached, hshort⟩
  have hleast : minLiquidity.toNat ≤ (100000 : Word).toNat := by decide
  have hmost : (100000 : Word).toNat ≤ 2 * (2 ^ 128 - 1) := by decide
  have hfee : (99999 : Word).toNat < feeUnit.toNat := by decide
  have hopen : 0 < (⟨0x80000000000000000, by decide, by decide⟩ : Amount).toInt := by decide
  obtain ⟨other, hother, -, hkept⟩ :=
    sale_never_refused hleast hmost hfee hwithin hinStep hopen
  obtain rfl : other = step := Except.ok.inj (hother.symm.trans hsale)
  exact ⟨current, target, other, hcurrent, htarget, hwithin, hinStep, hsale, hnext, hkept⟩

end Steps

end ReinvestingPool.Proofs.UnrefusedSales
