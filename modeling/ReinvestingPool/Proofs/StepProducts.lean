import Mathlib.Algebra.Order.Field.Rat
import Mathlib.Data.Nat.Cast.Order.Field
import Mathlib.Data.Rat.Cast.Order
import Mathlib.Tactic.FieldSimp
import Mathlib.Tactic.Positivity
import ReinvestingPool.Proofs.SwellingSales

/-!
The product of the reserves over a step. Of the token that is not named the pool is left with no
less than its liquidity stands for at the new price, so the product does not fall as long as what
the step uses of the named token pays for the move of the price. It does in sales that are used up
and in purchases that go to their target. In the others two roundings go against the pool, the reach
amount of a sale and the rest price of a purchase, and it falls short by no more than these come to.
-/

namespace ReinvestingPool.Proofs.StepProducts

open Failures Words Directions ProductQuotients Scales SignedAmounts TickPrices PriceLimits
open RangeSteps ExactQuotients RestPrices StepEnds StepExchanges SwellingSales

/-- The reserve of `token` that some liquidity stands for at a price, without rounding. -/
def reserve (token : Token) (liquidity price : Nat) : ℚ :=
  match token with
  | .zero => liquidity * 2 ^ 96 / price
  | .one => liquidity * price / 2 ^ 96

/-- The token that a step does not name. -/
def other : Token → Token
  | .zero => .one
  | .one => .zero

/-- What a step that names one token changes the holding of a token by. -/
def change (named token : Token) (step : RangeStep) : ℚ :=
  if token = named then step.used.toInt else step.exchanged.toInt

/-- The product of the reserves after a step is no less than that before it. -/
def Favours (named : Token) (liquidity price : Nat) (step : RangeStep) : Prop :=
  (liquidity : ℚ) ^ 2 ≤ (reserve .zero liquidity price + change named .zero step) *
    (reserve .one liquidity price + change named .one step)

/-- What a step uses of the named token pays for the move of the price, its fee aside. -/
def Pays (named : Token) (liquidity price : Nat) (step : RangeStep) : Prop :=
  reserve named liquidity step.next.toNat ≤ reserve named liquidity price + step.used.toInt

/-- What a step uses of the named token pays for the move of the price but for an allowance. The
price of token zero may be one unit further on. -/
def NearlyPays (named : Token) (liquidity price : Nat) (step : RangeStep) : Prop :=
  match named with
  | .zero => reserve .zero liquidity (step.next.toNat + 1) ≤
      reserve .zero liquidity price + step.used.toInt + (1 + reserve .zero 1 price)
  | .one => reserve .one liquidity step.next.toNat ≤
      reserve .one liquidity price + step.used.toInt +
        (1 + reserve .one 1 price + reserve .one liquidity 1)

/-- What the roundings of a step can cost the pool: one unit and one unit of liquidity in the named
token, and one unit of the price in token one. -/
def allowance (named token : Token) (liquidity price : Nat) : ℚ :=
  (if token = named then 1 + reserve token 1 price else 0) +
    (if token = .one then reserve .one liquidity 1 else 0)

/-- The product of the reserves falls short by no more than the roundings come to. -/
def NearlyFavours (named : Token) (liquidity price : Nat) (step : RangeStep) : Prop :=
  (liquidity : ℚ) ^ 2 ≤
    (reserve .zero liquidity price + change named .zero step +
        allowance named .zero liquidity price) *
      (reserve .one liquidity price + change named .one step +
        allowance named .one liquidity price)

section Reserves

variable {token : Token} {side : Side} {liquidity more price next added : Nat}

theorem reserve_zero_eq : reserve .zero liquidity price = (liquidity * 2 ^ 96 : Nat) / price := by
  simp only [reserve, Nat.cast_mul, Nat.cast_pow, Nat.cast_ofNat]

theorem reserve_one_eq :
    reserve .one liquidity price = (liquidity * price : Nat) / (2 ^ 96 : Nat) := by
  simp only [reserve, Nat.cast_mul, Nat.cast_pow, Nat.cast_ofNat]

theorem reserve_nonneg : 0 ≤ reserve token liquidity price := by
  cases token with
  | zero => exact div_nonneg (mul_nonneg (Nat.cast_nonneg _) (by positivity)) (Nat.cast_nonneg _)
  | one => exact div_nonneg (mul_nonneg (Nat.cast_nonneg _) (Nat.cast_nonneg _)) (by positivity)

theorem reserve_add :
    reserve token (liquidity + more) price = reserve token liquidity price +
      reserve token more price := by
  cases token with
  | zero =>
    simp only [reserve, Nat.cast_add]
    ring
  | one =>
    simp only [reserve, Nat.cast_add]
    ring

theorem reserve_one_add (liquidity price gap : Nat) :
    reserve .one liquidity (price + gap) = reserve .one liquidity price +
      reserve .one liquidity gap := by
  simp only [reserve, Nat.cast_add]
  ring

theorem reserve_mul_other (hprice : 0 < price) :
    reserve token liquidity price * reserve (other token) liquidity price =
      (liquidity : ℚ) ^ 2 := by
  have hpos : (price : ℚ) ≠ 0 := Nat.cast_ne_zero.mpr hprice.ne'
  cases token with
  | zero =>
    simp only [reserve, other]
    field_simp
  | one =>
    simp only [reserve, other]
    field_simp

/-- `more` stands at `price` for no less of a token than `liquidity` does at `next`. -/
def Reaches (token : Token) (liquidity more price next : Nat) : Prop :=
  match token with
  | .zero => liquidity * price ≤ more * next
  | .one => liquidity * next ≤ more * price

theorem reserve_le_of_reaches (hpos : token = .zero → 0 < price ∧ 0 < next)
    (h : Reaches token liquidity more price next) :
    reserve token liquidity next ≤ reserve token more price := by
  cases token with
  | zero =>
    have hcast : (liquidity : ℚ) * price ≤ more * next := by exact_mod_cast h
    have hprice : (0 : ℚ) < price := Nat.cast_pos.mpr (hpos rfl).1
    have hnext : (0 : ℚ) < next := Nat.cast_pos.mpr (hpos rfl).2
    simp only [reserve]
    rw [div_le_div_iff₀ hnext hprice]
    linarith
  | one =>
    have hcast : (liquidity : ℚ) * next ≤ more * price := by exact_mod_cast h
    exact div_le_div_of_nonneg_right hcast (by positivity)

/-- A sale goes to a price at which the liquidity holds less of the other token. -/
theorem reserve_other_le (liquidity : Nat) (hpos : 0 < price ∧ 0 < next)
    (honward : ¬ Before (travel .sell token) next price) :
    reserve (other token) liquidity next ≤ reserve (other token) liquidity price := by
  refine reserve_le_of_reaches (fun _ => hpos) ?_
  cases token with
  | zero => exact Nat.mul_le_mul_left _ (Nat.not_lt.mp honward)
  | one => exact Nat.mul_le_mul_left _ (Nat.not_lt.mp honward)

theorem le_roundedUp (n : Nat) {d : Nat} (hd : 0 < d) : (n : ℚ) / d ≤ roundedUp n d := by
  rw [div_le_iff₀ (Nat.cast_pos.mpr hd)]
  exact_mod_cast le_roundedUp_mul n hd

theorem cast_div_le_add_one (n : Nat) {d : Nat} (hd : 0 < d) : (n : ℚ) / d ≤ (n / d : Nat) + 1 := by
  rw [div_le_iff₀ (Nat.cast_pos.mpr hd)]
  exact_mod_cast (Nat.lt_mul_of_div_lt (Nat.lt_add_one (n / d)) hd).le

theorem reserve_le_reserveFor (token : Token) (liquidity : Nat) (hprice : 0 < price) :
    reserve token liquidity price ≤ reserveFor token liquidity price + 1 := by
  cases token with
  | zero =>
    rw [reserve_zero_eq]
    exact cast_div_le_add_one _ hprice
  | one =>
    rw [reserve_one_eq]
    exact cast_div_le_add_one _ (Nat.two_pow_pos 96)

/-- The move of the price is charged no less than it changes the reserve of token one by. -/
theorem reserve_one_le_move (honward : side = .sell → next ≤ price) :
    reserve .one liquidity next ≤
      reserve .one liquidity price + moveAt side liquidity price next := by
  cases side with
  | sell =>
    obtain ⟨gap, rfl⟩ := Nat.exists_eq_add_of_le (honward rfl)
    have hfloor : ((liquidity * gap / 2 ^ 96 : Nat) : ℚ) ≤ reserve .one liquidity gap := by
      rw [reserve_one_eq]
      exact Nat.cast_div_le
    simp only [moveAt, Nat.add_sub_cancel_left, Int.cast_neg, Int.cast_natCast]
    linarith [reserve_one_add liquidity next gap]
  | buy =>
    simp only [moveAt, Int.cast_natCast]
    rcases Nat.le_total next price with hback | hahead
    · obtain ⟨gap, rfl⟩ := Nat.exists_eq_add_of_le hback
      rw [reserve_one_add, add_assoc]
      exact le_add_of_nonneg_right (add_nonneg reserve_nonneg (Nat.cast_nonneg _))
    · obtain ⟨gap, rfl⟩ := Nat.exists_eq_add_of_le hahead
      have hceil : reserve .one liquidity gap ≤ roundedUp (liquidity * gap) (2 ^ 96) := by
        rw [reserve_one_eq]
        exact le_roundedUp _ (Nat.two_pow_pos 96)
      rw [reserve_one_add, Nat.add_sub_cancel_left]
      exact add_le_add_right hceil _

/-- Whatever the holding of the token that is not named changes by, it covers the liquidity at the
end of the step. -/
theorem reserve_le_holding (hpos : 0 < price ∧ 0 < next)
    (honward : side = .sell → ¬ Before (travel .sell token) next price) :
    reserve (other token) liquidity next ≤
      reserve (other token) liquidity price + holdingAt side token liquidity price next added := by
  cases token with
  | zero =>
    have hmove : reserve .one liquidity next ≤
        reserve .one liquidity price + moveAt side liquidity price next :=
      reserve_one_le_move fun hside => Nat.not_lt.mp (honward hside)
    have hfee : (0 : ℚ) ≤ roundedUp (added * next) (2 ^ 96) := Nat.cast_nonneg _
    simp only [holdingAt, other, Int.cast_add, Int.cast_natCast]
    linarith
  | one =>
    have hadded : reserve .zero liquidity next ≤ reserve .zero (liquidity + added) next := by
      rw [reserve_add]
      exact le_add_of_nonneg_right reserve_nonneg
    have hafter : reserve .zero (liquidity + added) next ≤
        roundedUp ((liquidity + added) * 2 ^ 96) next := by
      rw [reserve_zero_eq]
      exact le_roundedUp _ hpos.2
    have hbefore : ((liquidity * 2 ^ 96 / price : Nat) : ℚ) ≤ reserve .zero liquidity price := by
      rw [reserve_zero_eq]
      exact Nat.cast_div_le
    simp only [holdingAt, other, Int.cast_sub, Int.cast_natCast]
    linarith

end Reserves

section Products

variable {current next added : Word} {exchanged : Amount} {side : Side} {token : Token}
variable {liquidity price : Nat} {step : RangeStep}

/-- A trace that is dropped was owed to the pool, but without it nothing has left the pool. -/
theorem reserve_le_exchanged {liquidity : Word} (hpos : 0 < current.toNat ∧ 0 < next.toNat)
    (honward : side = .sell → ¬ Before (travel .sell token) next.toNat current.toNat)
    (h : exchangedAmount liquidity current next added side token = .ok exchanged) :
    reserve (other token) liquidity.toNat next.toNat ≤
      reserve (other token) liquidity.toNat current.toNat + exchanged.toInt := by
  obtain ⟨change, hchange, h⟩ := bind_eq_ok.mp h
  obtain rfl := Except.ok.inj h
  unfold dropTrace
  split
  next hdropped =>
    simpa using reserve_other_le liquidity.toNat hpos (honward hdropped.1)
  next =>
    rw [(holdingChange_eq_ok hchange).2]
    exact reserve_le_holding hpos honward

theorem favours_iff :
    Favours token liquidity price step ↔
      (liquidity : ℚ) ^ 2 ≤ (reserve token liquidity price + step.used.toInt) *
        (reserve (other token) liquidity price + step.exchanged.toInt) := by
  cases token with
  | zero => exact Iff.rfl
  | one =>
    unfold Favours
    rw [mul_comm]
    exact Iff.rfl

theorem favours_of_pays (hnext : 0 < step.next.toNat)
    (hexchanged : reserve (other token) liquidity step.next.toNat ≤
      reserve (other token) liquidity price + step.exchanged.toInt)
    (h : Pays token liquidity price step) : Favours token liquidity price step := by
  rw [favours_iff, ← reserve_mul_other hnext]
  exact mul_le_mul h hexchanged reserve_nonneg (reserve_nonneg.trans h)

theorem nearlyFavours_of_nearlyPays (hnext : 0 < step.next.toNat)
    (hexchanged : reserve (other token) liquidity step.next.toNat ≤
      reserve (other token) liquidity price + step.exchanged.toInt)
    (h : NearlyPays token liquidity price step) : NearlyFavours token liquidity price step := by
  unfold NearlyFavours
  cases token with
  | zero =>
    have hfurther : reserve .one liquidity (step.next.toNat + 1) ≤
        reserve .one liquidity price + step.exchanged.toInt + reserve .one liquidity 1 := by
      rw [reserve_one_add]
      exact add_le_add_left hexchanged _
    have hnamed := reserve_nonneg.trans h
    rw [← reserve_mul_other (Nat.succ_pos step.next.toNat)]
    simp only [change, allowance, if_true, reduceCtorEq, if_false, add_zero, zero_add]
    exact mul_le_mul h hfurther reserve_nonneg hnamed
  | one =>
    have hnamed := reserve_nonneg.trans h
    rw [← reserve_mul_other hnext, mul_comm]
    simp only [change, allowance, if_true, reduceCtorEq, if_false, add_zero]
    exact mul_le_mul hexchanged h reserve_nonneg (reserve_nonneg.trans hexchanged)

theorem nearlyPays_of_le (hnext : 0 < step.next.toNat)
    (h : reserve token liquidity step.next.toNat ≤
      reserve token liquidity price + step.used.toInt + (1 + reserve token 1 price)) :
    NearlyPays token liquidity price step := by
  cases token with
  | zero =>
    have hfurther : reserve .zero liquidity (step.next.toNat + 1) ≤
        reserve .zero liquidity step.next.toNat :=
      reserve_le_of_reaches (fun _ => ⟨hnext, Nat.succ_pos _⟩)
        (Nat.mul_le_mul_left _ (Nat.le_succ _))
    exact hfurther.trans h
  | one =>
    have hstep := @reserve_nonneg .one liquidity 1
    unfold NearlyPays
    linarith

theorem nearlyPays_of_pays (hnext : 0 < step.next.toNat)
    (h : Pays token liquidity price step) : NearlyPays token liquidity price step :=
  nearlyPays_of_le hnext (h.trans (le_add_of_nonneg_right (add_nonneg zero_le_one reserve_nonneg)))

end Products

section Rests

variable {price : Nat}

/-- The liquidity that an amount stands for holds no more than the amount. -/
theorem reserve_liquidityFor_le (token : Token) (amount : Nat) (hprice : 0 < price) :
    reserve token (liquidityFor token amount price) price ≤ amount := by
  have hpos : (0 : ℚ) < price := Nat.cast_pos.mpr hprice
  cases token with
  | zero =>
    simp only [reserve, liquidityFor]
    rw [div_le_iff₀ hpos]
    exact_mod_cast Nat.div_mul_le_self (amount * price) (2 ^ 96)
  | one =>
    simp only [reserve, liquidityFor]
    rw [div_le_iff₀ (by positivity)]
    exact_mod_cast Nat.div_mul_le_self (amount * 2 ^ 96) price

/-- It falls short of the amount by less than one unit of liquidity. -/
theorem le_reserve_liquidityFor (token : Token) (amount : Nat) (hprice : 0 < price) :
    (amount : ℚ) ≤ reserve token (liquidityFor token amount price + 1) price := by
  have hpos : (0 : ℚ) < price := Nat.cast_pos.mpr hprice
  cases token with
  | zero =>
    simp only [reserve, liquidityFor]
    rw [le_div_iff₀ hpos]
    exact_mod_cast (Nat.lt_div_mul_add (Nat.two_pow_pos 96)).le.trans
      (Nat.succ_mul _ _).symm.le
  | one =>
    simp only [reserve, liquidityFor]
    rw [le_div_iff₀ (by positivity)]
    exact_mod_cast (Nat.lt_div_mul_add hprice).le.trans (Nat.succ_mul _ _).symm.le

/-- A sale that is used up comes to rest where the liquidity alone holds no more than the moved
liquidity did at the start. -/
theorem sale_reaches (u : Usage) (hside : u.side = .sell) (h : 0 < u.scale.2) :
    Reaches u.token u.liquidity u.moved u.price u.restPrice := by
  have hrests := not_not.mp ((u.before_restPrice_iff u.restPrice h).not.mp (not_before_self _ _))
  have hgrown : u.liquidity ≤ u.grown := Nat.le_add_right _ _
  obtain ⟨liquidity, price, fee, amount, side, token⟩ := u
  subst hside
  cases token with
  | zero =>
    refine (Nat.mul_le_mul_right price hgrown).trans (hrests.trans ?_)
    exact (Nat.mul_comm _ _).le
  | one =>
    refine (Nat.mul_comm _ _).le.trans (le_trans ?_ hrests)
    exact Nat.mul_le_mul_left _ hgrown

/-- A purchase that is used up would do so one unit of the price further on. -/
theorem purchase_reaches (u : Usage) (hside : u.side = .buy) (h : 0 < u.scale.2)
    (hrest : 0 < u.restPrice) :
    Reaches u.token u.liquidity u.moved u.price (oneBeyond u.direction u.restPrice) := by
  have hgrown : u.liquidity ≤ u.grown := Nat.le_add_right _ _
  have hfurther := u.before_restPrice_iff (oneBeyond u.direction u.restPrice) h
  generalize u.restPrice = rest at *
  obtain ⟨liquidity, price, fee, amount, side, token⟩ := u
  subst hside
  cases token with
  | zero =>
    have hshort := Nat.not_le.mp (hfurther.mp (Nat.lt_succ_self rest))
    refine (Nat.mul_le_mul_right price hgrown).trans (hshort.le.trans ?_)
    exact (Nat.mul_comm _ _).le
  | one =>
    have hshort := Nat.not_le.mp (hfurther.mp (Nat.sub_lt hrest Nat.one_pos))
    refine (Nat.mul_comm _ _).le.trans (le_trans ?_ hshort.le)
    exact Nat.mul_le_mul_left _ hgrown

end Rests

section Steps

variable {liquidity current target fee : Word} {specified reach : Amount} {side : Side}
variable {token : Token} {step : RangeStep}

theorem cast_natAbs_of_nonneg {n : Int} (h : 0 ≤ n) : ((n.natAbs : Nat) : ℚ) = n := by
  rw [← Int.cast_natCast, Int.natAbs_of_nonneg h]

theorem cast_natAbs_of_nonpos {n : Int} (h : n ≤ 0) : ((n.natAbs : Nat) : ℚ) = -n := by
  rw [← Int.cast_natCast, Int.ofNat_natAbs_of_nonpos h, Int.cast_neg]

/-- A sale that is used up pays for the move of the price. -/
theorem pays_of_sale (hcurrent : 0 < current.toNat) (hnext : 0 < step.next.toNat)
    (hspecified : 0 ≤ specified.toInt)
    (h : partialStep liquidity current fee specified .sell token = .ok step) :
    Pays token liquidity.toNat current.toNat step := by
  obtain ⟨hused, hscale, hrest⟩ := partialStep_eq_ok h
  have hreaches := sale_reaches (usage liquidity current fee specified .sell token) rfl hscale
  rw [← hrest] at hreaches
  have hreserve := reserve_le_of_reaches (fun _ => ⟨hcurrent, hnext⟩) hreaches
  have hfloor := reserve_liquidityFor_le token specified.toInt.natAbs hcurrent
  rw [cast_natAbs_of_nonneg hspecified] at hfloor
  change _ ≤ reserve token (liquidity.toNat + liquidityFor token _ _) current.toNat at hreserve
  rw [reserve_add] at hreserve
  unfold Pays
  rw [hused]
  exact hreserve.trans (add_le_add_right hfloor _)

theorem partialStep_moved (h : partialStep liquidity current fee specified .buy token = .ok step) :
    liquidityFor token specified.toInt.natAbs current.toNat ≤ liquidity.toNat := by
  obtain ⟨added, -, h⟩ := bind_eq_ok.mp h
  obtain ⟨price, hprice, -⟩ := bind_eq_ok.mp h
  obtain ⟨grown, -, hprice⟩ := bind_eq_ok.mp hprice
  obtain ⟨taken, htaken, hprice⟩ := bind_eq_ok.mp hprice
  obtain ⟨moved, hmoved, -⟩ := bind_eq_ok.mp hprice
  have hsplit := subChecked_eq_ok.mp hmoved
  rw [liquidityOf_eq_ok htaken, toNat_amount_magnitude] at hsplit
  omega

/-- A purchase that is used up pays for the move of the price but for one unit of the price and one
unit of liquidity. -/
theorem nearlyPays_of_purchase (hcurrent : 0 < current.toNat) (hnext : 0 < step.next.toNat)
    (hspecified : specified.toInt ≤ 0)
    (h : partialStep liquidity current fee specified .buy token = .ok step) :
    NearlyPays token liquidity.toNat current.toNat step := by
  have htaken := partialStep_moved h
  obtain ⟨hused, hscale, hrest⟩ := partialStep_eq_ok h
  have hreaches := purchase_reaches (usage liquidity current fee specified .buy token) rfl hscale
    (hrest ▸ hnext)
  rw [← hrest] at hreaches
  change Reaches token liquidity.toNat
    (liquidity.toNat - liquidityFor token specified.toInt.natAbs current.toNat) current.toNat
    (oneBeyond (travel .buy token) step.next.toNat) at hreaches
  have hceil := le_reserve_liquidityFor token specified.toInt.natAbs hcurrent
  rw [cast_natAbs_of_nonpos hspecified, reserve_add] at hceil
  generalize liquidityFor token specified.toInt.natAbs current.toNat = taken at *
  have hsplit : reserve token liquidity.toNat current.toNat =
      reserve token (liquidity.toNat - taken) current.toNat +
        reserve token taken current.toNat := by
    rw [← reserve_add, Nat.sub_add_cancel htaken]
  unfold NearlyPays
  rw [hused]
  cases token with
  | zero =>
    have hreserve : reserve .zero liquidity.toNat (step.next.toNat + 1) ≤
        reserve .zero (liquidity.toNat - taken) current.toNat :=
      reserve_le_of_reaches (fun _ => ⟨hcurrent, Nat.succ_pos _⟩) hreaches
    linarith
  | one =>
    have hreserve : reserve .one liquidity.toNat (step.next.toNat - 1) ≤
        reserve .one (liquidity.toNat - taken) current.toNat :=
      reserve_le_of_reaches (fun hzero => nomatch hzero) hreaches
    have hstep := reserve_one_add liquidity.toNat (step.next.toNat - 1) 1
    rw [Nat.sub_add_cancel hnext] at hstep
    linarith

/-- The reach amount of a sale pays for the move to the target but for two roundings. -/
theorem saleReach_reserve (hpos : 0 < current.toNat ∧ 0 < target.toNat)
    (hahead : ¬ Before (travel .sell token) target.toNat current.toNat)
    (h : reachAmount liquidity current target fee .sell token = .ok reach) :
    reserve token liquidity.toNat target.toNat ≤
      reserve token liquidity.toNat current.toNat + reach.toInt +
        (1 + reserve token 1 current.toNat) := by
  rcases hrange : priceRange token current.toNat target.toNat with ⟨low, high⟩
  have hle := priceRange_le hrange hahead
  obtain ⟨divisor, share, hdivides, hdivisor, hshare, hreach⟩ := saleReach_eq_ok hrange hle h
  have hmove : liquidity.toNat * (high - low) ≤ (share + 1) * low := by
    have hlast : liquidity.toNat * (200000 * (high - low)) < (share + 1) * divisor := by
      rw [hshare]
      exact Nat.lt_mul_of_div_lt (Nat.lt_add_one _) hdivides
    refine Nat.le_of_mul_le_mul_left ?_ (show 0 < 200000 by decide)
    calc
      200000 * (liquidity.toNat * (high - low)) = liquidity.toNat * (200000 * (high - low)) := by
        ring
      _ ≤ (share + 1) * divisor := hlast.le
      _ ≤ (share + 1) * (200000 * low) := Nat.mul_le_mul_left _ (by omega)
      _ = 200000 * ((share + 1) * low) := by ring
  have hwhole : liquidity.toNat * high ≤ (liquidity.toNat + (share + 1)) * low := by
    rw [← Nat.add_sub_cancel' hle, Nat.mul_add, Nat.add_mul]
    exact Nat.add_le_add_left hmove _
  have hreaches : Reaches token liquidity.toNat (liquidity.toNat + (share + 1)) current.toNat
      target.toNat := by
    cases token with
    | zero =>
      cases hrange
      exact hwhole
    | one =>
      cases hrange
      exact hwhole
  have hreserve := reserve_le_of_reaches (fun _ => hpos) hreaches
  have hfloor := reserve_le_reserveFor token share hpos.1
  rw [reserve_add, reserve_add] at hreserve
  rw [hreach, Int.cast_natCast]
  linarith

theorem mulDivFloor_le {whole kept divisor share : Word} (hkept : kept.toNat ≤ divisor.toNat)
    (h : mulDivFloor whole kept divisor = .ok share) : share.toNat ≤ whole.toNat := by
  rw [(mulDivFloor_eq_ok.mp h).2]
  refine Nat.div_le_of_le_mul ?_
  rw [Nat.mul_comm]
  exact Nat.mul_le_mul_right _ hkept

theorem reserve_zero_le {liquidity price next amount : Nat} (hpos : 0 < price ∧ 0 < next)
    (hle : price ≤ next)
    (h : amount * next * price ≤ liquidity * 2 ^ 96 * (next - price)) :
    reserve .zero liquidity next + amount ≤ reserve .zero liquidity price := by
  have hprice : (0 : ℚ) < price := Nat.cast_pos.mpr hpos.1
  have hnext : (0 : ℚ) < next := Nat.cast_pos.mpr hpos.2
  have hcast : (amount : ℚ) * next * price ≤ liquidity * 2 ^ 96 * (next - price) := by
    rw [← Nat.cast_sub hle]
    exact_mod_cast h
  simp only [reserve]
  rw [div_add' _ _ _ hnext.ne', div_le_div_iff₀ hnext hprice]
  linarith

/-- The reach amount of a purchase pays for the move to the target: the fee and the roundings keep
back a part of what the move takes from the reserve. -/
theorem purchaseReach_reserve (hpos : 0 < current.toNat ∧ 0 < target.toNat)
    (hahead : ¬ Before (travel .buy token) target.toNat current.toNat)
    (h : reachAmount liquidity current target fee .buy token = .ok reach) :
    reserve token liquidity.toNat target.toNat ≤
      reserve token liquidity.toNat current.toNat + reach.toInt := by
  obtain ⟨whole, -, h⟩ := bind_eq_ok.mp h
  obtain ⟨charge, -, h⟩ := bind_eq_ok.mp h
  obtain ⟨divisor, -, h⟩ := bind_eq_ok.mp h
  obtain ⟨extra, -, h⟩ := bind_eq_ok.mp h
  obtain ⟨kept, hkept, h⟩ := bind_eq_ok.mp h
  have hpart : kept.toNat ≤ divisor.toNat := by
    have hsplit := subChecked_eq_ok.mp hkept
    omega
  cases token with
  | zero =>
    have hle := Nat.not_lt.mp hahead
    obtain ⟨share, hshare, h⟩ := bind_eq_ok.mp h
    obtain ⟨value, hvalue, h⟩ := bind_eq_ok.mp h
    obtain ⟨amount, hamount, h⟩ := bind_eq_ok.mp h
    obtain ⟨paid, hpaid, hreach⟩ := outflow_eq_ok.mp h
    have hscaled : share.toNat ≤ liquidity.toNat * 2 ^ 96 := by
      refine (mulDivFloor_le hpart hshare).trans ?_
      rw [BitVec.toNat_shiftLeft, Nat.shiftLeft_eq]
      exact Nat.mod_le _ _
    have htaken : amount.toNat * target.toNat * current.toNat ≤
        liquidity.toNat * 2 ^ 96 * (target.toNat - current.toNat) := by
      have hvalue := (mulDivFloor_eq_ok.mp hvalue).2
      rw [toNat_distance, Nat.sub_eq_zero_of_le hle, Nat.zero_add] at hvalue
      rw [(divChecked_eq_ok.mp hamount).2, hvalue]
      calc
        _ ≤ share.toNat * (target.toNat - current.toNat) / current.toNat * current.toNat :=
          Nat.mul_le_mul_right _ (Nat.div_mul_le_self _ _)
        _ ≤ share.toNat * (target.toNat - current.toNat) := Nat.div_mul_le_self _ _
        _ ≤ liquidity.toNat * 2 ^ 96 * (target.toNat - current.toNat) :=
          Nat.mul_le_mul_right _ hscaled
    have hreserve := reserve_zero_le hpos hle htaken
    rw [hreach, inflow_eq_ok.mp hpaid, Int.cast_neg, Int.cast_natCast]
    linarith
  | one =>
    obtain ⟨gap, hgap⟩ := Nat.exists_eq_add_of_le (Nat.not_lt.mp hahead)
    obtain ⟨share, hshare, h⟩ := bind_eq_ok.mp h
    obtain ⟨amount, hamount, h⟩ := bind_eq_ok.mp h
    obtain ⟨paid, hpaid, hreach⟩ := outflow_eq_ok.mp h
    have htaken : (amount.toNat : ℚ) ≤ reserve .one liquidity.toNat gap := by
      rw [(mulDivFloor_eq_ok.mp hamount).2, toNat_priceUnit, toNat_distance, hgap,
        reserve_one_eq]
      refine Nat.cast_div_le.trans (div_le_div_of_nonneg_right ?_ (Nat.cast_nonneg _))
      refine Nat.cast_le.mpr (Nat.mul_le_mul (mulDivFloor_le hpart hshare) ?_)
      omega
    rw [hreach, inflow_eq_ok.mp hpaid, Int.cast_neg, Int.cast_natCast, hgap, reserve_one_add]
    linarith

theorem partialStep_onward (hfee : fee.toNat ≤ 200000)
    (h : partialStep liquidity current fee specified side token = .ok step) :
    ¬ Before (travel side token) step.next.toNat current.toNat := by
  obtain ⟨-, hscale, hrest⟩ := partialStep_eq_ok h
  rw [hrest]
  exact restPrice_not_before (usage liquidity current fee specified side token) hscale hfee

theorem partialStep_next_pos (hliquidity : 0 < liquidity.toNat) (hcurrent : 0 < current.toNat)
    (hfee : fee.toNat ≤ 200000)
    (h : partialStep liquidity current fee specified side token = .ok step) :
    0 < step.next.toNat := by
  cases token with
  | one => exact ((exchangedAmount_eq_ok (partialStep_parts h).2).1 rfl).2
  | zero =>
    cases side with
    | sell =>
      obtain ⟨-, hscale, hrest⟩ := partialStep_eq_ok h
      have hreaches : liquidity.toNat * current.toNat ≤ _ * _ :=
        sale_reaches (usage liquidity current fee specified .sell .zero) rfl hscale
      rw [hrest]
      exact Nat.pos_of_mul_pos_left ((Nat.mul_pos hliquidity hcurrent).trans_le hreaches)
    | buy => exact hcurrent.trans_le (Nat.not_lt.mp (partialStep_onward hfee h))

/-- The two tokens carry the liquidity to the end of a step, the named one but for an allowance. -/
structure Carried (liquidity current : Nat) (token : Token) (step : RangeStep) : Prop where
  next_pos : 0 < step.next.toNat
  exchanged : reserve (other token) liquidity step.next.toNat ≤
    reserve (other token) liquidity current + step.exchanged.toInt
  nearly : NearlyPays token liquidity current step

theorem carried_of_partial (hliquidity : 0 < liquidity.toNat) (hcurrent : 0 < current.toNat)
    (hfee : fee.toNat ≤ 200000) (hside : sideOf specified = side)
    (h : partialStep liquidity current fee specified side token = .ok step) :
    Carried liquidity.toNat current.toNat token step ∧
      (side = .sell → Pays token liquidity.toNat current.toNat step) := by
  have hnext := partialStep_next_pos hliquidity hcurrent hfee h
  have hexchanged := reserve_le_exchanged ⟨hcurrent, hnext⟩
    (fun hsale => hsale ▸ partialStep_onward hfee h) (partialStep_parts h).2
  unfold sideOf at hside
  cases side with
  | sell =>
    have hspecified : 0 ≤ specified.toInt := by
      split at hside
      · omega
      · cases hside
    have hpays := pays_of_sale hcurrent hnext hspecified h
    exact ⟨⟨hnext, hexchanged, nearlyPays_of_pays hnext hpays⟩, fun _ => hpays⟩
  | buy =>
    have hspecified : specified.toInt ≤ 0 := by
      split at hside
      · cases hside
      · omega
    exact ⟨⟨hnext, hexchanged, nearlyPays_of_purchase hcurrent hnext hspecified h⟩,
      fun hsale => nomatch hsale⟩

theorem carried_of_full (hpos : 0 < current.toNat ∧ 0 < target.toNat)
    (hahead : ¬ Before (travel side token) target.toNat current.toNat)
    (hreach : reachAmount liquidity current target fee side token = .ok reach)
    (h : fullStep liquidity current target reach side token = .ok step) :
    Carried liquidity.toNat current.toNat token step ∧
      (side = .buy → Pays token liquidity.toNat current.toNat step) := by
  obtain ⟨hused, hnext⟩ := fullStep_eq_ok h
  obtain ⟨added, -, h⟩ := bind_eq_ok.mp h
  obtain ⟨exchanged, hexchanged, h⟩ := bind_eq_ok.mp h
  obtain rfl := Except.ok.inj h
  have hcovered := reserve_le_exchanged hpos (fun hsale => hsale ▸ hahead) hexchanged
  cases side with
  | sell =>
    refine ⟨⟨hpos.2, hcovered, ?_⟩, fun hbuy => nomatch hbuy⟩
    exact nearlyPays_of_le hpos.2 (saleReach_reserve hpos hahead hreach)
  | buy =>
    have hpays := purchaseReach_reserve hpos hahead hreach
    exact ⟨⟨hpos.2, hcovered, nearlyPays_of_pays hpos.2 hpays⟩, fun _ => hpays⟩

/-- A step favours the pool as long as what it uses pays for the move of the price, and it does not
only if it is a sale that goes to its target or a purchase that is used up on the way. Even then the
product falls short by no more than the roundings come to. -/
theorem rangeStep_favours (hliquidity : 0 < liquidity.toNat) (hfee : fee.toNat ≤ 200000)
    (hpos : 0 < current.toNat ∧ 0 < target.toNat)
    (hahead : ¬ Before (travel side token) target.toNat current.toNat)
    (hside : sideOf specified = side)
    (h : rangeStep liquidity current target fee specified side token = .ok step) :
    (Pays token liquidity.toNat current.toNat step →
      Favours token liquidity.toNat current.toNat step) ∧
    (¬ Pays token liquidity.toNat current.toNat step →
      ∃ reach, reachAmount liquidity current target fee side token = .ok reach ∧
        (covers side specified reach = true ↔ side = .sell)) ∧
    NearlyFavours token liquidity.toNat current.toNat step := by
  have hcarried : Carried liquidity.toNat current.toNat token step ∧
      (¬ Pays token liquidity.toNat current.toNat step →
        ∃ reach, reachAmount liquidity current target fee side token = .ok reach ∧
          (covers side specified reach = true ↔ side = .sell)) := by
    rcases rangeStep_cases h with
      ⟨-, rfl⟩ | ⟨-, reach, hreach, ⟨hcovers, hfull⟩ | ⟨hshort, hpartial⟩⟩
    · have hpays : Pays token liquidity.toNat current.toNat ⟨current, 0, 0, 0⟩ := by
        simp [Pays]
      refine ⟨⟨hpos.1, ?_, nearlyPays_of_pays hpos.1 hpays⟩, fun hnot => absurd hpays hnot⟩
      simp
    · obtain ⟨hcarried, hpays⟩ := carried_of_full hpos hahead hreach hfull
      refine ⟨hcarried, fun hnot => ⟨reach, hreach, iff_of_true hcovers ?_⟩⟩
      cases side with
      | sell => rfl
      | buy => exact absurd (hpays rfl) hnot
    · obtain ⟨hcarried, hpays⟩ := carried_of_partial hliquidity hpos.1 hfee hside hpartial
      refine ⟨hcarried, fun hnot => ⟨reach, hreach, iff_of_false (by simp [hshort]) ?_⟩⟩
      intro hsale
      exact hnot (hpays hsale)
  obtain ⟨⟨hnext, hexchanged, hnearly⟩, hkind⟩ := hcarried
  exact ⟨favours_of_pays hnext hexchanged, hkind,
    nearlyFavours_of_nearlyPays hnext hexchanged hnearly⟩

end Steps

/-- A sale that is used up favours the pool, whatever its roundings. -/
theorem rangeStep_favours_used_up_sale :
    let step : RangeStep := ⟨79149409245831077837394523533, ⟨1000, by decide, by decide⟩,
      ⟨-989, by decide, by decide⟩, 5⟩
    rangeStep 1000000 79228162514264337593543950336 59421121885698253195157962752 1000 step.used
        .sell .zero = .ok step ∧
      Favours .zero 1000000 79228162514264337593543950336 step := by
  intro step
  have hstep : rangeStep 1000000 79228162514264337593543950336 59421121885698253195157962752 1000
      step.used .sell .zero = .ok step := by decide +kernel
  have hreach : reachAmount 1000000 79228162514264337593543950336 59421121885698253195157962752
      1000 .sell .zero = .ok ⟨335570, by decide, by decide⟩ := by decide +kernel
  obtain ⟨hfavours, hkind, -⟩ := rangeStep_favours (by decide) (by decide) (by decide) (by decide)
    (by decide) hstep
  refine ⟨hstep, hfavours (by_contra fun hnot => ?_)⟩
  obtain ⟨reach, hother, hcovers⟩ := hkind hnot
  rw [hreach] at hother
  rw [← Except.ok.inj hother] at hcovers
  exact absurd (hcovers.mpr rfl) (by decide)

/-- A purchase that is used up can cost nothing: its price is rounded towards the start, which
takes back the whole move and all that is charged for it. -/
theorem used_up_purchase_costs_nothing :
    ¬ ∀ (liquidity current target fee : Word) (specified : Amount) (side : Side) (token : Token)
      (step : RangeStep), 1 ≤ liquidity.toNat → liquidity.toNat < 2 ^ 129 → fee.toNat < 100000 →
      minSqrtPrice ≤ current → current ≤ maxSqrtPrice → minSqrtPrice ≤ target →
      target ≤ maxSqrtPrice → ¬ Before (travel side token) target.toNat current.toNat →
      specified ≠ 0 → sideOf specified = side →
      rangeStep liquidity current target fee specified side token = .ok step →
      Favours token liquidity.toNat current.toNat step := by
  intro hclaim
  have hfavours := hclaim 1298074214633706907132624082305024 79228162514264337593543950336
    158456325028528675187087900672 1000 ⟨-100, by decide, by decide⟩ .buy .zero
    ⟨79228162514264337593543950336, ⟨-100, by decide, by decide⟩, 0, 0⟩
    (by decide) (by decide) (by decide) (by decide) (by decide) (by decide) (by decide)
    (by decide) (by decide) (by decide) (by decide +kernel)
  have hliquidity : (1298074214633706907132624082305024 : Word).toNat = 2 ^ 110 := by decide
  have hprice : (79228162514264337593543950336 : Word).toNat = 2 ^ 96 := by decide
  rw [favours_iff, hliquidity, hprice] at hfavours
  norm_num [reserve, other] at hfavours

end ReinvestingPool.Proofs.StepProducts
