import ReinvestingPool.Proofs.LargerAmounts

/-!
The divisions of a step. Prices, liquidity and what is left of either after a purchase are positive
wherever they divide, as long as the prices of the step are not far apart. The one divisor that can
be zero is the fee rate itself, by which the fee on a purchase is divided.
-/

namespace ReinvestingPool.Proofs.Divisions

open Failures Words Directions ProductQuotients Scales SquareRoots SignedAmounts RangeSteps
open ExactQuotients ExactRoots RestPrices LargerAmounts

variable {ε α β : Type} {w : Nat}

/-- Whatever a computation fails with, it is not this. -/
def Avoids (failure : ε) (r : Except ε α) : Prop := r ≠ .error failure

section Computations

theorem avoids_ok (failure : ε) (a : α) : Avoids failure (.ok a) := nofun

theorem avoids_bind {failure : ε} {x : Except ε α} {f : α → Except ε β} (hx : Avoids failure x)
    (hf : ∀ a, x = .ok a → Avoids failure (f a)) : Avoids failure (x >>= f) := by
  intro h
  rcases bind_eq_error.mp h with hfails | ⟨a, ha, hfails⟩
  · exact hx hfails
  · exact hf a ha hfails

/-- Where the first part avoids a failure, the second part has it. -/
theorem bind_fails_iff {failure : ε} {x : Except ε α} {f : α → Except ε β}
    (hx : Avoids failure x) :
    x >>= f = .error failure ↔ ∃ a, x = .ok a ∧ f a = .error failure :=
  bind_eq_error.trans (or_iff_right hx)

theorem avoids_addChecked (a b : BitVec w) : Avoids .divisionByZero (addChecked a b) :=
  fun h => nomatch (addChecked_eq_error.mp h).2

theorem avoids_subChecked (a b : BitVec w) : Avoids .divisionByZero (subChecked a b) :=
  fun h => nomatch (subChecked_eq_error.mp h).2

theorem avoids_mulChecked (a b : BitVec w) : Avoids .divisionByZero (mulChecked a b) :=
  fun h => nomatch (mulChecked_eq_error.mp h).2

theorem ne_zero_of_pos {a : BitVec w} (h : 0 < a.toNat) : a ≠ 0 := by
  intro hzero
  rw [hzero] at h
  exact absurd h (by simp)

theorem avoids_divChecked (a : BitVec w) {divisor : BitVec w} (hpos : 0 < divisor.toNat) :
    Avoids .divisionByZero (divChecked a divisor) := by
  unfold divChecked
  rw [if_neg (ne_zero_of_pos hpos)]
  exact avoids_ok _ _

theorem avoids_mulDivFloor (a b : Word) {divisor : Word} (hpos : 0 < divisor.toNat) :
    Avoids .divisionByZero (mulDivFloor a b divisor) := by
  unfold mulDivFloor
  simp only
  split
  · exact avoids_divChecked _ hpos
  · split
    · rw [if_neg (ne_zero_of_pos hpos)]
      exact nofun
    · exact avoids_ok _ _

theorem avoids_mulDivCeil (a b : Word) {divisor : Word} (hpos : 0 < divisor.toNat) :
    Avoids .divisionByZero (mulDivCeil a b divisor) := by
  refine avoids_bind (avoids_mulDivFloor a b hpos) fun quotient _ => ?_
  split
  · exact avoids_ok _ _
  · exact avoids_addChecked _ _

theorem avoids_ofIntOr {failure : ArithmeticFailure} (hother : failure ≠ .divisionByZero)
    (value : Int) : Avoids .divisionByZero (Signed.ofIntOr failure value : Except _ (Signed w)) :=
  fun h => hother (Signed.ofIntOr_eq_error.mp h).2.symm

theorem avoids_inflow (value : Word) : Avoids .divisionByZero (inflow value) :=
  avoids_ofIntOr (by decide) _

theorem avoids_outflow (value : Word) : Avoids .divisionByZero (outflow value) :=
  avoids_bind (avoids_inflow value) fun _ _ => avoids_ofIntOr (by decide) _

theorem avoids_narrowToPrice (a : Word) : Avoids .divisionByZero (narrowToPrice a) := by
  unfold narrowToPrice
  split
  · exact avoids_ok _ _
  · exact nofun

end Computations

variable {liquidity current target next added fee amount : Word} {specified reach : Amount}
variable {side : Side} {token : Token} {step : RangeStep}

theorem priceUnit_pos : 0 < priceUnit.toNat := by decide

section Reserves

theorem avoids_reserveOf (token : Token) (liquidity : Word) (hcurrent : 0 < current.toNat) :
    Avoids .divisionByZero (reserveOf token liquidity current) := by
  cases token with
  | zero => exact avoids_mulDivFloor _ _ hcurrent
  | one => exact avoids_mulDivFloor _ _ priceUnit_pos

theorem avoids_liquidityOf (token : Token) (reserve : Word) (hcurrent : 0 < current.toNat) :
    Avoids .divisionByZero (liquidityOf token reserve current) := by
  cases token with
  | zero => exact avoids_mulDivFloor _ _ priceUnit_pos
  | one => exact avoids_mulDivFloor _ _ hcurrent

theorem avoids_moveReserve (side : Side) (reserve change : Word) :
    Avoids .divisionByZero (moveReserve side reserve change) := by
  cases side with
  | sell => exact avoids_addChecked _ _
  | buy => exact avoids_subChecked _ _

/-- The higher price of a step is at most twice the lower one. -/
def Narrow (direction : Direction) (current target : Word) : Prop :=
  (ascending direction current target).2.toNat ≤ 2 * (ascending direction current target).1.toNat

theorem ascending_pos (direction : Direction) (hcurrent : 0 < current.toNat)
    (htarget : 0 < target.toNat) : 0 < (ascending direction current target).1.toNat := by
  cases direction with
  | rising => exact hcurrent
  | falling => exact htarget

theorem avoids_reachAmount (hcurrent : 0 < current.toNat) (htarget : 0 < target.toNat)
    (hfee : fee.toNat < 100000) (hnarrow : Narrow (travel side token) current target) :
    Avoids .divisionByZero (reachAmount liquidity current target fee side token) := by
  have hlow := ascending_pos (travel side token) hcurrent htarget
  unfold Narrow at hnarrow
  unfold reachAmount
  generalize ascending (travel side token) current target = prices at hlow hnarrow
  obtain ⟨low, high⟩ := prices
  refine avoids_bind (avoids_mulChecked _ _) fun doubled hdoubled => ?_
  refine avoids_bind (avoids_mulChecked _ _) fun charged hcharged => ?_
  refine avoids_bind (avoids_subChecked _ _) fun divisor hdivisor => ?_
  rw [mulChecked_eq_ok] at hdoubled hcharged
  rw [toNat_twoFeeUnits] at hdoubled
  rw [subChecked_eq_ok] at hdivisor
  -- The fee is less than the whole and the prices are close, so it takes less than is there.
  have hpos : 0 < divisor.toNat := by
    have hbound : fee.toNat * high.toNat ≤ 99999 * (2 * low.toNat) :=
      Nat.mul_le_mul (by omega) hnarrow
    simp only at hlow
    omega
  cases side with
  | sell =>
    refine avoids_bind (avoids_mulChecked _ _) fun wide _ => ?_
    refine avoids_bind (avoids_mulDivFloor _ _ hpos) fun share _ => ?_
    exact avoids_bind (avoids_reserveOf token share hcurrent) fun reserve _ => avoids_inflow reserve
  | buy =>
    refine avoids_bind (avoids_mulChecked _ _) fun lost _ => ?_
    refine avoids_bind (avoids_subChecked _ _) fun kept _ => ?_
    cases token with
    | zero =>
      refine avoids_bind (avoids_mulDivFloor _ _ hpos) fun share _ => ?_
      refine avoids_bind (avoids_mulDivFloor _ _ hcurrent) fun moved _ => ?_
      exact avoids_bind (avoids_divChecked _ htarget) fun out _ => avoids_outflow out
    | one =>
      refine avoids_bind (avoids_mulDivFloor _ _ hpos) fun share _ => ?_
      exact avoids_bind (avoids_mulDivFloor _ _ priceUnit_pos) fun out _ => avoids_outflow out

end Reserves

section Steps

/-- Nothing is in reach where there is no liquidity, so no amount falls short of it. -/
theorem reach_of_nothing (h : reachAmount 0 current target fee side token = .ok reach) :
    reach = 0 := by
  have hvalue : ∀ {a b divisor q : Word}, a.toNat = 0 → mulDivFloor a b divisor = .ok q →
      q.toNat = 0 := by
    intro a b divisor q ha hq
    rw [(mulDivFloor_eq_ok.mp hq).2, ha, Nat.zero_mul, Nat.zero_div]
  unfold reachAmount at h
  obtain ⟨doubled, -, h⟩ := bind_eq_ok.mp h
  obtain ⟨charged, -, h⟩ := bind_eq_ok.mp h
  obtain ⟨divisor, -, h⟩ := bind_eq_ok.mp h
  refine Signed.ext ?_
  cases side with
  | sell =>
    obtain ⟨wide, -, h⟩ := bind_eq_ok.mp h
    obtain ⟨share, hshare, h⟩ := bind_eq_ok.mp h
    obtain ⟨reserve, hreserve, h⟩ := bind_eq_ok.mp h
    have hnothing : reserve.toNat = 0 := by
      cases token with
      | zero => exact hvalue (hvalue rfl hshare) hreserve
      | one => exact hvalue (hvalue rfl hshare) hreserve
    rw [inflow_eq_ok.mp h, hnothing]
    rfl
  | buy =>
    obtain ⟨lost, -, h⟩ := bind_eq_ok.mp h
    obtain ⟨kept, -, h⟩ := bind_eq_ok.mp h
    cases token with
    | zero =>
      obtain ⟨share, hshare, h⟩ := bind_eq_ok.mp h
      obtain ⟨moved, hmoved, h⟩ := bind_eq_ok.mp h
      obtain ⟨out, hout, h⟩ := bind_eq_ok.mp h
      obtain ⟨paid, hpaid, h⟩ := outflow_eq_ok.mp h
      have hzero : ((0 : Word) <<< priceBits).toNat = 0 := by decide
      have hnothing : out.toNat = 0 := by
        rw [(divChecked_eq_ok.mp hout).2, hvalue (hvalue hzero hshare) hmoved, Nat.zero_div]
      rw [h, inflow_eq_ok.mp hpaid, hnothing]
      rfl
    | one =>
      obtain ⟨share, hshare, h⟩ := bind_eq_ok.mp h
      obtain ⟨out, hout, h⟩ := bind_eq_ok.mp h
      obtain ⟨paid, hpaid, h⟩ := outflow_eq_ok.mp h
      rw [h, inflow_eq_ok.mp hpaid, hvalue (hvalue rfl hshare) hout]
      rfl

theorem avoids_smallerRoot (b c : Word) {a : Word} (hpos : 0 < a.toNat) :
    Avoids .divisionByZero (smallerRoot a b c) := by
  refine avoids_bind (avoids_mulChecked _ _) fun square _ => ?_
  refine avoids_bind (avoids_mulChecked _ _) fun product _ => ?_
  refine avoids_bind (avoids_subChecked _ _) fun discriminant _ => ?_
  exact avoids_bind (avoids_subChecked _ _) fun rest _ => avoids_divChecked _ hpos

/-- The fee on a purchase is divided by the fee rate. -/
theorem avoids_partialFeeLiquidity (hcurrent : 0 < current.toNat)
    (hpaid : side = .buy → 0 < fee.toNat) :
    Avoids .divisionByZero (partialFeeLiquidity amount liquidity current fee side token) := by
  refine avoids_bind (avoids_mulChecked _ _) fun charged _ => ?_
  cases side with
  | sell =>
    cases token with
    | zero => exact avoids_mulDivFloor _ _ (by decide)
    | one =>
      refine avoids_bind (avoids_mulChecked _ _) fun divisor hdivisor => avoids_mulDivFloor _ _ ?_
      rw [mulChecked_eq_ok.mp hdivisor, toNat_twoFeeUnits]
      omega
  | buy =>
    refine avoids_bind (avoids_subChecked _ _) fun kept _ => ?_
    refine avoids_bind (avoids_mulChecked _ _) fun whole _ => ?_
    refine avoids_bind (avoids_mulChecked _ _) fun product _ => ?_
    refine avoids_bind (avoids_mulChecked _ _) fun taken _ => ?_
    refine avoids_bind (avoids_liquidityOf token taken hcurrent) fun out _ => ?_
    refine avoids_bind (avoids_subChecked _ _) fun half _ => ?_
    refine avoids_bind (avoids_liquidityOf token product hcurrent) fun charge _ => ?_
    exact avoids_smallerRoot _ _ (hpaid rfl)

theorem avoids_fullFeeLiquidity (hcurrent : 0 < current.toNat) (htarget : 0 < target.toNat) :
    Avoids .divisionByZero (fullFeeLiquidity amount liquidity current target side token) := by
  refine avoids_bind (avoids_reserveOf token liquidity hcurrent) fun before _ => ?_
  refine avoids_bind (avoids_moveReserve side _ _) fun reserve _ => ?_
  exact avoids_bind (avoids_liquidityOf token reserve htarget) fun whole _ => avoids_ok _ _

theorem avoids_exchangedAmount (hcurrent : 0 < current.toNat) (hnext : 0 < next.toNat) :
    Avoids .divisionByZero (exchangedAmount liquidity current next added side token) := by
  refine avoids_bind ?_ fun amount _ => avoids_ok _ _
  cases token with
  | zero =>
    refine avoids_bind (avoids_mulDivCeil _ _ priceUnit_pos) fun charge _ => ?_
    refine avoids_bind (avoids_inflow charge) fun fee _ => avoids_bind ?_ fun moved _ => ?_
    · cases side with
      | sell =>
        refine avoids_bind (avoids_subChecked _ _) fun gap _ => ?_
        exact avoids_bind (avoids_mulDivFloor _ _ priceUnit_pos) fun out _ => avoids_outflow out
      | buy =>
        refine avoids_bind (avoids_subChecked _ _) fun gap _ => ?_
        exact avoids_bind (avoids_mulDivCeil _ _ priceUnit_pos) fun paid _ => avoids_inflow paid
    · exact avoids_ofIntOr (by decide) _
  | one =>
    refine avoids_bind (avoids_addChecked _ _) fun grown _ => ?_
    refine avoids_bind (avoids_mulDivCeil _ _ hnext) fun reserve _ => ?_
    refine avoids_bind (avoids_inflow reserve) fun after _ => ?_
    refine avoids_bind (avoids_mulDivFloor _ _ hcurrent) fun held _ => ?_
    exact avoids_bind (avoids_outflow held) fun before _ => avoids_ofIntOr (by decide) _

theorem avoids_fullStep (hcurrent : 0 < current.toNat) (htarget : 0 < target.toNat) :
    Avoids .divisionByZero (fullStep liquidity current target reach side token) := by
  refine avoids_bind (avoids_fullFeeLiquidity hcurrent htarget) fun added _ => ?_
  exact avoids_bind (avoids_exchangedAmount hcurrent htarget) fun exchanged _ => avoids_ok _ _

theorem purchase_fee_pos
    (h : partialFeeLiquidity amount liquidity current fee .buy token = .ok added) :
    0 < fee.toNat := by
  obtain ⟨charged, -, h⟩ := bind_eq_ok.mp h
  obtain ⟨kept, -, h⟩ := bind_eq_ok.mp h
  obtain ⟨whole, -, h⟩ := bind_eq_ok.mp h
  obtain ⟨product, -, h⟩ := bind_eq_ok.mp h
  obtain ⟨taken, -, h⟩ := bind_eq_ok.mp h
  obtain ⟨out, -, h⟩ := bind_eq_ok.mp h
  obtain ⟨half, -, h⟩ := bind_eq_ok.mp h
  obtain ⟨charge, -, h⟩ := bind_eq_ok.mp h
  exact (smallerRoot_eq_ok h).1

/-- What is bought in a step with a fee stands for less than the liquidity of its range: the fee
has to be paid out of the rest. -/
theorem bought_lt (h : partialFeeLiquidity amount liquidity current fee .buy token = .ok added)
    (hpos : 0 < liquidity.toNat) :
    liquidityFor token amount.toNat current.toNat < liquidity.toNat := by
  obtain ⟨charged, -, h⟩ := bind_eq_ok.mp h
  obtain ⟨kept, hkept, h⟩ := bind_eq_ok.mp h
  obtain ⟨whole, hwhole, h⟩ := bind_eq_ok.mp h
  obtain ⟨product, -, h⟩ := bind_eq_ok.mp h
  obtain ⟨taken, htaken, h⟩ := bind_eq_ok.mp h
  obtain ⟨out, hout, h⟩ := bind_eq_ok.mp h
  obtain ⟨half, hhalf, h⟩ := bind_eq_ok.mp h
  obtain ⟨charge, -, h⟩ := bind_eq_ok.mp h
  rw [mulChecked_eq_ok] at hwhole htaken
  rw [subChecked_eq_ok] at hkept hhalf
  rw [toNat_feeUnit] at hkept htaken
  have hfee : 0 < fee.toNat := (smallerRoot_eq_ok h).1
  have hscaled : 100000 * liquidityFor token amount.toNat current.toNat ≤ out.toNat := by
    rw [liquidityOf_eq_ok hout, htaken]
    cases token with
    | zero =>
      simp only [liquidityFor, Nat.mul_assoc]
      exact Nat.mul_div_le_mul_div_assoc _ _ _
    | one =>
      simp only [liquidityFor, Nat.mul_assoc]
      exact Nat.mul_div_le_mul_div_assoc _ _ _
  have hless : kept.toNat * liquidity.toNat < 100000 * liquidity.toNat :=
    Nat.mul_lt_mul_of_pos_right (by omega) hpos
  omega

theorem avoids_finalPrice (hliquidity : 0 < liquidity.toNat) (hcurrent : 0 < current.toNat)
    (hbought : side = .buy → liquidityFor token amount.toNat current.toNat < liquidity.toNat) :
    Avoids .divisionByZero (finalPrice amount liquidity added current side token) := by
  refine avoids_bind (avoids_addChecked _ _) fun grown hgrown => ?_
  refine avoids_bind (avoids_liquidityOf token amount hcurrent) fun change hchange => ?_
  refine avoids_bind (avoids_moveReserve side _ _) fun moved hmoved => ?_
  have hchange := liquidityOf_eq_ok hchange
  have hgrownPos : 0 < grown.toNat := by
    rw [addChecked_eq_ok.mp hgrown]
    omega
  have hmovedPos : 0 < moved.toNat := by
    cases side with
    | sell =>
      rw [addChecked_eq_ok.mp hmoved]
      omega
    | buy =>
      have hrest := subChecked_eq_ok.mp hmoved
      have hless := hbought rfl
      omega
  cases side with
  | sell =>
    cases token with
    | zero => exact avoids_mulDivCeil _ _ hmovedPos
    | one => exact avoids_mulDivFloor _ _ hgrownPos
  | buy =>
    cases token with
    | zero => exact avoids_mulDivFloor _ _ hmovedPos
    | one => exact avoids_mulDivCeil _ _ hgrownPos

theorem restPrice_pos (u : Usage) (hscale : 0 < u.scale.2) (hfirst : 0 < u.scale.1)
    (hprice : 0 < u.price) (hfee : u.fee ≤ 200000) : 0 < u.restPrice := by
  have hforward := restPrice_not_before u hscale hfee
  unfold Before at hforward
  unfold Usage.restPrice at hforward ⊢
  cases hdirection : u.direction with
  | rising =>
    simp only [hdirection] at hforward ⊢
    omega
  | falling =>
    simp only
    have hproduct : 0 < u.scale.1 * u.price := Nat.mul_pos hfirst hprice
    exact Nat.div_pos (by omega) hscale

theorem scale_pos (hliquidity : 0 < liquidity.toNat)
    (hbought : side = .buy →
      liquidityFor token specified.magnitude.toNat current.toNat < liquidity.toNat) :
    0 < (usage liquidity current fee specified side token).scale.1 := by
  rw [toNat_amount_magnitude] at hbought
  cases token with
  | zero => exact Nat.lt_of_lt_of_le hliquidity (Nat.le_add_right _ _)
  | one =>
    cases side with
    | sell => exact Nat.lt_of_lt_of_le hliquidity (Nat.le_add_right _ _)
    | buy => exact Nat.sub_pos_of_lt (hbought rfl)

theorem avoids_partialStep (hliquidity : 0 < liquidity.toNat) (hcurrent : 0 < current.toNat)
    (hfee : fee.toNat ≤ 200000) (hpaid : side = .buy → 0 < fee.toNat) :
    Avoids .divisionByZero (partialStep liquidity current fee specified side token) := by
  refine avoids_bind (avoids_partialFeeLiquidity hcurrent hpaid) fun added hadded => ?_
  have hbought : side = .buy →
      liquidityFor token specified.magnitude.toNat current.toNat < liquidity.toNat := by
    rintro rfl
    exact bought_lt hadded hliquidity
  refine avoids_bind (avoids_finalPrice hliquidity hcurrent hbought) fun price hprice => ?_
  refine avoids_bind (avoids_narrowToPrice price) fun next hnext => ?_
  obtain ⟨rfl, -⟩ := narrowToPrice_eq_ok.mp hnext
  obtain ⟨hscale, hrest⟩ := finalPrice_eq_restPrice hadded hprice
  have hpos := restPrice_pos _ hscale (scale_pos hliquidity hbought) hcurrent hfee
  rw [← hrest] at hpos
  exact avoids_bind (avoids_exchangedAmount hcurrent hpos) fun exchanged _ => avoids_ok _ _

end Steps

section FreeSteps

theorem exists_mulChecked {a b : BitVec w} (h : a.toNat * b.toNat < 2 ^ w) :
    ∃ c, mulChecked a b = .ok c := by
  unfold mulChecked
  rw [if_pos h]
  exact ⟨_, rfl⟩

theorem exists_subChecked {a b : BitVec w} (h : b.toNat ≤ a.toNat) :
    ∃ c, subChecked a b = .ok c := by
  unfold subChecked
  rw [if_pos (BitVec.le_def.mpr h)]
  exact ⟨_, rfl⟩

theorem exists_mulDivFloor {a b divisor : Word} (hpos : 0 < divisor.toNat)
    (h : a.toNat * b.toNat / divisor.toNat < 2 ^ 256) : ∃ q, mulDivFloor a b divisor = .ok q := by
  refine ⟨BitVec.ofNat 256 (a.toNat * b.toNat / divisor.toNat), mulDivFloor_eq_ok.mpr ⟨hpos, ?_⟩⟩
  rw [BitVec.toNat_ofNat, Nat.mod_eq_of_lt h]

theorem exists_liquidityOf {reserve : Word} (hcurrent : 0 < current.toNat)
    (h : liquidityFor token reserve.toNat current.toNat < 2 ^ 256) :
    ∃ whole, liquidityOf token reserve current = .ok whole := by
  cases token with
  | zero => exact exists_mulDivFloor priceUnit_pos (by rw [toNat_priceUnit]; exact h)
  | one => exact exists_mulDivFloor hcurrent (by rw [toNat_priceUnit]; exact h)

/-- A linear equation is divided by its missing coefficient, once the square of the other one fits
its word. -/
theorem smallerRoot_linear_iff (b c : Word) :
    smallerRoot 0 b c = .error .divisionByZero ↔ b.toNat < 2 ^ 128 := by
  constructor
  · intro h
    obtain ⟨square, hsquare, -⟩ := (bind_fails_iff (avoids_mulChecked _ _)).mp h
    rw [mulChecked_eq_ok] at hsquare
    have hfits := square.isLt
    by_contra hlarge
    have hproduct := Nat.mul_le_mul (Nat.not_lt.mp hlarge) (Nat.not_lt.mp hlarge)
    omega
  · intro hsmall
    have hfits : b.toNat * b.toNat < 2 ^ 256 :=
      Nat.mul_lt_mul'' (c := 2 ^ 128) (d := 2 ^ 128) hsmall hsmall
    obtain ⟨square, hsquare⟩ := exists_mulChecked hfits
    have hroot : (sqrtFloor square).toNat = b.toNat := by
      rw [toNat_sqrtFloor, mulChecked_eq_ok.mp hsquare, Nat.sqrt_eq]
    refine bind_eq_error.mpr (Or.inr ⟨square, hsquare, ?_⟩)
    refine bind_eq_error.mpr (Or.inr ⟨0, mulChecked_eq_ok.mpr ?_, ?_⟩)
    · exact (Nat.zero_mul _).symm
    refine bind_eq_error.mpr (Or.inr ⟨square, subChecked_eq_ok.mpr rfl, ?_⟩)
    refine bind_eq_error.mpr (Or.inr ⟨0, subChecked_eq_ok.mpr ?_, rfl⟩)
    rw [hroot]
    exact Nat.zero_add _

/-- What is bought leaves a coefficient of the equation for the fee that can be squared. -/
def Squarable (u : Usage) : Prop :=
  liquidityFor u.token (100000 * u.amount) u.price ≤ 100000 * u.liquidity ∧
    100000 * u.liquidity < liquidityFor u.token (100000 * u.amount) u.price + 2 ^ 128

instance (u : Usage) : Decidable (Squarable u) := by
  unfold Squarable
  infer_instance

theorem liquidityFor_zero (token : Token) (price : Nat) :
    liquidityFor token (0 : Word).toNat price = 0 := by
  cases token with
  | zero => simp [liquidityFor]
  | one => simp [liquidityFor]

/-- Amounts that stand for little enough liquidity fit a word. -/
theorem amount_lt_of_liquidityFor {reserve price : Nat} (hpos : 0 < price) (hprice : price < 2 ^ 160)
    (h : liquidityFor token reserve price < 2 ^ 148) : reserve < 2 ^ 256 := by
  cases token with
  | zero =>
    simp only [liquidityFor] at h
    rw [Nat.div_lt_iff_lt_mul (by decide)] at h
    have hgrows := Nat.le_mul_of_pos_right reserve hpos
    omega
  | one =>
    simp only [liquidityFor] at h
    rw [Nat.div_lt_iff_lt_mul hpos] at h
    omega

theorem partialFeeLiquidity_free_iff (hcurrent : 0 < current.toNat)
    (hprice : current.toNat < 2 ^ 160) (hliquidity : liquidity.toNat < 2 ^ 130) :
    partialFeeLiquidity specified.magnitude liquidity current 0 .buy token =
        .error .divisionByZero ↔
      Squarable (usage liquidity current 0 specified .buy token) := by
  change _ ↔
    liquidityFor token (100000 * specified.toInt.natAbs) current.toNat ≤ 100000 * liquidity.toNat ∧
      100000 * liquidity.toNat <
        liquidityFor token (100000 * specified.toInt.natAbs) current.toNat + 2 ^ 128
  rw [← toNat_amount_magnitude]
  generalize specified.magnitude = amount
  constructor
  · intro h
    obtain ⟨charged, -, h⟩ := (bind_fails_iff (avoids_mulChecked _ _)).mp h
    obtain ⟨kept, hkept, h⟩ := (bind_fails_iff (avoids_subChecked _ _)).mp h
    obtain ⟨whole, hwhole, h⟩ := (bind_fails_iff (avoids_mulChecked _ _)).mp h
    obtain ⟨product, -, h⟩ := (bind_fails_iff (avoids_mulChecked _ _)).mp h
    obtain ⟨taken, htaken, h⟩ := (bind_fails_iff (avoids_mulChecked _ _)).mp h
    obtain ⟨out, hout, h⟩ := (bind_fails_iff (avoids_liquidityOf _ _ hcurrent)).mp h
    obtain ⟨half, hhalf, h⟩ := (bind_fails_iff (avoids_subChecked _ _)).mp h
    obtain ⟨charge, -, h⟩ := (bind_fails_iff (avoids_liquidityOf _ _ hcurrent)).mp h
    have hsmall := (smallerRoot_linear_iff half charge).mp h
    rw [mulChecked_eq_ok] at hwhole htaken
    rw [subChecked_eq_ok] at hkept hhalf
    rw [toNat_feeUnit] at hkept htaken
    have hout := liquidityOf_eq_ok hout
    rw [htaken] at hout
    have hkept : kept.toNat = 100000 := hkept
    rw [hkept] at hwhole
    omega
  · intro h
    obtain ⟨hless, hsmall⟩ := h
    have htakes : 100000 * amount.toNat < 2 ^ 256 :=
      amount_lt_of_liquidityFor hcurrent hprice (Nat.lt_of_le_of_lt hless (by omega))
    have hfee : feeUnit.toNat = 100000 := toNat_feeUnit
    obtain ⟨whole, hwhole⟩ : ∃ whole, mulChecked feeUnit liquidity = .ok whole :=
      exists_mulChecked (by rw [hfee]; omega)
    obtain ⟨taken, htaken⟩ : ∃ taken, mulChecked feeUnit amount = .ok taken :=
      exists_mulChecked (by rw [hfee]; exact htakes)
    have hwholeValue := mulChecked_eq_ok.mp hwhole
    have htakenValue := mulChecked_eq_ok.mp htaken
    rw [hfee] at hwholeValue htakenValue
    obtain ⟨out, hout⟩ : ∃ out, liquidityOf token taken current = .ok out :=
      exists_liquidityOf hcurrent (by rw [htakenValue]; omega)
    have houtValue := liquidityOf_eq_ok hout
    rw [htakenValue] at houtValue
    obtain ⟨half, hhalf⟩ : ∃ half, subChecked whole out = .ok half :=
      exists_subChecked (by omega)
    have hhalfValue := subChecked_eq_ok.mp hhalf
    obtain ⟨charge, hcharge⟩ : ∃ charge, liquidityOf token 0 current = .ok charge :=
      exists_liquidityOf hcurrent (by rw [liquidityFor_zero]; decide)
    refine bind_eq_error.mpr (Or.inr ⟨0, mulChecked_eq_ok.mpr (Nat.mul_zero _).symm, ?_⟩)
    refine bind_eq_error.mpr (Or.inr ⟨feeUnit, subChecked_eq_ok.mpr rfl, ?_⟩)
    refine bind_eq_error.mpr (Or.inr ⟨whole, hwhole, ?_⟩)
    refine bind_eq_error.mpr (Or.inr ⟨0, mulChecked_eq_ok.mpr (Nat.zero_mul _).symm, ?_⟩)
    refine bind_eq_error.mpr (Or.inr ⟨taken, htaken, ?_⟩)
    refine bind_eq_error.mpr (Or.inr ⟨out, hout, ?_⟩)
    refine bind_eq_error.mpr (Or.inr ⟨half, hhalf, ?_⟩)
    refine bind_eq_error.mpr (Or.inr ⟨charge, hcharge, ?_⟩)
    exact (smallerRoot_linear_iff half charge).mpr (by omega)

/-- A step that uses up its amount divides by zero exactly where a purchase pays no fee. -/
theorem partialStep_divides_iff (hpos : 0 < liquidity.toNat) (hliquidity : liquidity.toNat < 2 ^ 130)
    (hcurrent : 0 < current.toNat) (hprice : current.toNat < 2 ^ 160) (hfee : fee.toNat ≤ 200000) :
    partialStep liquidity current fee specified side token = .error .divisionByZero ↔
      fee = 0 ∧ side = .buy ∧ Squarable (usage liquidity current fee specified side token) := by
  by_cases hfree : fee = 0 ∧ side = .buy
  · obtain ⟨rfl, rfl⟩ := hfree
    refine Iff.trans ?_ ((partialFeeLiquidity_free_iff hcurrent hprice hliquidity).trans
      ⟨fun h => ⟨rfl, rfl, h⟩, fun h => h.2.2⟩)
    refine bind_eq_error.trans (or_iff_left ?_)
    rintro ⟨added, hadded, -⟩
    exact absurd (purchase_fee_pos hadded) (Nat.lt_irrefl 0)
  · refine iff_of_false ?_ fun h => hfree ⟨h.1, h.2.1⟩
    refine avoids_partialStep hpos hcurrent hfee fun hside => ?_
    exact Nat.pos_of_ne_zero fun hzero => hfree ⟨BitVec.eq_of_toNat_eq hzero, hside⟩

/-- A range, the prices of a step in it and the fee rate, as a pool that is in order has them. -/
structure Orderly (liquidity current target fee : Word) (direction : Direction) : Prop where
  liquidity_lt : liquidity.toNat < 2 ^ 130
  current_pos : 0 < current.toNat
  current_lt : current.toNat < 2 ^ 160
  target_pos : 0 < target.toNat
  narrow : Narrow direction current target
  fee_lt : fee.toNat < 100000

/-- An amount that does not cover the way to the target has some liquidity to go through. -/
theorem liquidity_pos_of_uncovered (hpart : PartOf side specified specified) (hopen : specified ≠ 0)
    (hreach : reachAmount liquidity current target fee side token = .ok reach)
    (huncovered : covers side specified reach = false) : 0 < liquidity.toNat := by
  refine Nat.pos_of_ne_zero fun hzero => ?_
  obtain rfl : liquidity = 0 := BitVec.eq_of_toNat_eq hzero
  rw [reach_of_nothing hreach] at huncovered
  have hnonzero : specified.toInt ≠ 0 := fun hsame => hopen (Signed.ext hsame)
  unfold PartOf at hpart
  unfold covers at huncovered
  cases side with
  | sell =>
    simp only [Signed.toInt_zero, decide_eq_false_iff_not] at hpart huncovered
    omega
  | buy =>
    simp only [Signed.toInt_zero, decide_eq_false_iff_not] at hpart huncovered
    omega

/-- A step divides by zero exactly where it uses up the amount of a purchase that pays no fee. -/
theorem rangeStep_divides_iff (h : Orderly liquidity current target fee (travel side token))
    (hpart : PartOf side specified specified) (hopen : specified ≠ 0) :
    rangeStep liquidity current target fee specified side token = .error .divisionByZero ↔
      (current ≠ target ∧ ∃ reach,
        reachAmount liquidity current target fee side token = .ok reach ∧
          covers side specified reach = false) ∧
        fee = 0 ∧ side = .buy ∧ Squarable (usage liquidity current fee specified side token) := by
  unfold rangeStep
  by_cases hstay : current = target
  · rw [if_pos hstay]
    exact iff_of_false nofun fun hgiven => hgiven.1.1 hstay
  rw [if_neg hstay,
    bind_fails_iff (avoids_reachAmount h.current_pos h.target_pos h.fee_lt h.narrow)]
  have hfee : fee.toNat ≤ 200000 := Nat.le_trans (Nat.le_of_lt h.fee_lt) (by decide)
  constructor
  · rintro ⟨reach, hreach, hfails⟩
    split at hfails
    · exact absurd hfails (avoids_fullStep h.current_pos h.target_pos)
    · rename_i huncovered
      rw [Bool.not_eq_true] at huncovered
      have hpos := liquidity_pos_of_uncovered hpart hopen hreach huncovered
      exact ⟨⟨hstay, reach, hreach, huncovered⟩, (partialStep_divides_iff hpos h.liquidity_lt
        h.current_pos h.current_lt hfee).mp hfails⟩
  · rintro ⟨⟨-, reach, hreach, huncovered⟩, hfree⟩
    have hpos := liquidity_pos_of_uncovered hpart hopen hreach huncovered
    refine ⟨reach, hreach, ?_⟩
    rw [huncovered, if_neg Bool.false_ne_true]
    exact (partialStep_divides_iff hpos h.liquidity_lt h.current_pos h.current_lt hfee).mpr hfree

end FreeSteps

end ReinvestingPool.Proofs.Divisions
