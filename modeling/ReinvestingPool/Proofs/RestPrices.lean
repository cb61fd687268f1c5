import ReinvestingPool.Proofs.ExactQuotients
import ReinvestingPool.Proofs.ExactRoots
import ReinvestingPool.RangeSteps

/-!
Where the price comes to rest in a step that uses up its amount. The fee's liquidity, the moved
liquidity and the price are rounded one after another, so the place is a formula in natural numbers.
-/

namespace ReinvestingPool.Proofs.RestPrices

open Failures Words Directions Scales SignedAmounts RangeSteps ExactQuotients ExactRoots

/-- Whether a price is passed on the way to another one. -/
def Before (direction : Direction) (a b : Nat) : Prop :=
  match direction with
  | .rising => a < b
  | .falling => b < a

instance (direction : Direction) (a b : Nat) : Decidable (Before direction a b) := by
  cases direction <;> unfold Before <;> infer_instance

/-- The next price after a price. -/
def oneBeyond : Direction → Nat → Nat
  | .rising, price => price + 1
  | .falling, price => price - 1

/-- The liquidity that an amount of a token stands for at a price. -/
def liquidityFor (token : Token) (amount price : Nat) : Nat :=
  match token with
  | .zero => amount * price / 2 ^ 96
  | .one => amount * 2 ^ 96 / price

/-- What the fee on a sale adds: half of the fee's part of the amount. -/
def saleFee (token : Token) (amount price fee : Nat) : Nat :=
  match token with
  | .zero => price * (amount * fee) / (200000 * 2 ^ 96)
  | .one => 2 ^ 96 * (amount * fee) / (200000 * price)

/-- What the fee on a purchase adds: the smaller root of a quadratic equation. -/
def purchaseFee (token : Token) (amount liquidity price fee : Nat) : Nat :=
  let half := (100000 - fee) * liquidity - liquidityFor token (100000 * amount) price
  let product := liquidityFor token (amount * fee * liquidity) price
  (half - (half * half - fee * product).sqrt) / fee

/-- The equation for the fee on a purchase has a root. -/
def HasPurchaseFee (token : Token) (amount liquidity price fee : Nat) : Prop :=
  let half := (100000 - fee) * liquidity - liquidityFor token (100000 * amount) price
  let product := liquidityFor token (amount * fee * liquidity) price
  fee * product ≤ half * half

/-- A range and an amount that is used up in it. -/
structure Usage where
  liquidity : Nat
  price : Nat
  fee : Nat
  amount : Nat
  side : Side
  token : Token

namespace Usage

def direction (u : Usage) : Direction := travel u.side u.token

def grown (u : Usage) : Nat :=
  u.liquidity + match u.side with
    | .sell => saleFee u.token u.amount u.price u.fee
    | .buy => purchaseFee u.token u.amount u.liquidity u.price u.fee

def moved (u : Usage) : Nat :=
  match u.side with
  | .sell => u.liquidity + liquidityFor u.token u.amount u.price
  | .buy => u.liquidity - liquidityFor u.token u.amount u.price

/-- The price moves by the quotient of these two liquidities. -/
def scale (u : Usage) : Nat × Nat :=
  match u.token with
  | .zero => (u.grown, u.moved)
  | .one => (u.moved, u.grown)

/-- Rounding goes towards the price at which the step began. -/
def restPrice (u : Usage) : Nat :=
  match u.direction with
  | .rising => u.scale.1 * u.price / u.scale.2
  | .falling => (u.scale.1 * u.price + (u.scale.2 - 1)) / u.scale.2

/-- The grown liquidity falls short of what the moved liquidity asks for at the target, so that the
price does not stop before it. -/
def Overruns (u : Usage) (target : Nat) : Prop :=
  match u.direction with
  | .rising => target * u.scale.2 ≤ u.scale.1 * u.price
  | .falling => u.scale.1 * u.price ≤ target * u.scale.2

instance (u : Usage) (target : Nat) : Decidable (u.Overruns target) := by
  unfold Overruns
  split <;> infer_instance

theorem before_restPrice_iff (u : Usage) (target : Nat) (h : 0 < u.scale.2) :
    Before u.direction u.restPrice target ↔ ¬ u.Overruns target := by
  unfold Before restPrice Overruns
  cases u.direction with
  | rising =>
    simp only
    rw [Nat.div_lt_iff_lt_mul h, Nat.not_le]
  | falling =>
    simp only
    rw [Nat.not_le, Nat.lt_iff_add_one_le, Nat.le_div_iff_mul_le h, Nat.add_mul, Nat.one_mul]
    omega

theorem restPrice_beyond_iff (u : Usage) (target : Nat) (h : 0 < u.scale.2) (ht : 0 < target) :
    Before u.direction target u.restPrice ↔ u.Overruns (oneBeyond u.direction target) := by
  have hshort := u.before_restPrice_iff (oneBeyond u.direction target) h
  rw [← not_iff_not, ← hshort]
  unfold Before oneBeyond
  cases u.direction with
  | rising =>
    simp only
    omega
  | falling =>
    simp only
    omega

end Usage

theorem toNat_amount_magnitude (a : Amount) : a.magnitude.toNat = a.toInt.natAbs := by
  have hlower := a.lower
  have hupper := a.upper
  rw [Signed.toNat_magnitude]
  exact Nat.mod_eq_of_lt (by omega)

theorem liquidityOf_eq_ok {token : Token} {reserve price liquidity : Word}
    (h : liquidityOf token reserve price = .ok liquidity) :
    liquidity.toNat = liquidityFor token reserve.toNat price.toNat := by
  cases token with
  | zero =>
    obtain ⟨-, h⟩ := mulDivFloor_eq_ok.mp h
    rw [h, toNat_priceUnit]
    rfl
  | one =>
    obtain ⟨-, h⟩ := mulDivFloor_eq_ok.mp h
    rw [h, toNat_priceUnit]
    rfl

theorem partialFeeLiquidity_sale {amount liquidity current fee added : Word} {token : Token}
    (h : partialFeeLiquidity amount liquidity current fee .sell token = .ok added) :
    added.toNat = saleFee token amount.toNat current.toNat fee.toNat := by
  obtain ⟨charged, hcharged, h⟩ := bind_eq_ok.mp h
  rw [mulChecked_eq_ok] at hcharged
  cases token with
  | zero =>
    obtain ⟨-, h⟩ := mulDivFloor_eq_ok.mp h
    have hdivisor : (twoFeeUnits <<< priceBits).toNat = 200000 * 2 ^ 96 := by decide
    rw [h, hcharged, hdivisor]
    rfl
  | one =>
    obtain ⟨divisor, hdivisor, h⟩ := bind_eq_ok.mp h
    rw [mulChecked_eq_ok, toNat_twoFeeUnits] at hdivisor
    obtain ⟨-, h⟩ := mulDivFloor_eq_ok.mp h
    rw [h, hcharged, hdivisor, toNat_priceUnit]
    rfl

theorem partialFeeLiquidity_purchase {amount liquidity current fee added : Word} {token : Token}
    (h : partialFeeLiquidity amount liquidity current fee .buy token = .ok added) :
    HasPurchaseFee token amount.toNat liquidity.toNat current.toNat fee.toNat ∧
      added.toNat = purchaseFee token amount.toNat liquidity.toNat current.toNat fee.toNat := by
  obtain ⟨charged, hcharged, h⟩ := bind_eq_ok.mp h
  obtain ⟨kept, hkept, h⟩ := bind_eq_ok.mp h
  obtain ⟨whole, hwhole, h⟩ := bind_eq_ok.mp h
  obtain ⟨product, hproduct, h⟩ := bind_eq_ok.mp h
  obtain ⟨taken, htaken, h⟩ := bind_eq_ok.mp h
  obtain ⟨out, hout, h⟩ := bind_eq_ok.mp h
  obtain ⟨half, hhalf, h⟩ := bind_eq_ok.mp h
  obtain ⟨charge, hcharge, h⟩ := bind_eq_ok.mp h
  rw [mulChecked_eq_ok] at hcharged hwhole hproduct htaken
  rw [subChecked_eq_ok] at hkept hhalf
  rw [toNat_feeUnit] at hkept htaken
  have hout := liquidityOf_eq_ok hout
  have hcharge := liquidityOf_eq_ok hcharge
  have hhalfValue : half.toNat = (100000 - fee.toNat) * liquidity.toNat -
      liquidityFor token (100000 * amount.toNat) current.toNat := by
    rw [← htaken, ← hout, show 100000 - fee.toNat = kept.toNat by omega, ← hwhole]
    omega
  obtain ⟨-, hroot, hadded⟩ := smallerRoot_eq_ok h
  rw [hcharge, hproduct, hcharged, hhalfValue] at hroot hadded
  exact ⟨hroot, hadded⟩

def usage (liquidity current fee : Word) (specified : Amount) (side : Side) (token : Token) :
    Usage where
  liquidity := liquidity.toNat
  price := current.toNat
  fee := fee.toNat
  amount := specified.toInt.natAbs
  side := side
  token := token

theorem partialFeeLiquidity_grown {liquidity current fee added : Word} {specified : Amount}
    {side : Side} {token : Token}
    (h : partialFeeLiquidity specified.magnitude liquidity current fee side token = .ok added) :
    (usage liquidity current fee specified side token).grown =
      liquidity.toNat + added.toNat := by
  cases side with
  | sell =>
    have hadded := partialFeeLiquidity_sale h
    rw [toNat_amount_magnitude] at hadded
    rw [hadded]
    rfl
  | buy =>
    have hadded := (partialFeeLiquidity_purchase h).2
    rw [toNat_amount_magnitude] at hadded
    rw [hadded]
    rfl

theorem moveReserve_moved {liquidity current fee change moved : Word} {specified : Amount}
    {side : Side} {token : Token}
    (hchange : liquidityOf token specified.magnitude current = .ok change)
    (h : moveReserve side liquidity change = .ok moved) :
    (usage liquidity current fee specified side token).moved = moved.toNat := by
  have hchange := liquidityOf_eq_ok hchange
  rw [toNat_amount_magnitude] at hchange
  cases side with
  | sell =>
    rw [addChecked_eq_ok.mp h, hchange]
    rfl
  | buy =>
    have hmoved := subChecked_eq_ok.mp h
    change liquidity.toNat - liquidityFor token specified.toInt.natAbs current.toNat = _
    omega

theorem finalPrice_eq_restPrice {liquidity current fee added next : Word} {specified : Amount}
    {side : Side} {token : Token}
    (hadded : partialFeeLiquidity specified.magnitude liquidity current fee side token = .ok added)
    (h : finalPrice specified.magnitude liquidity added current side token = .ok next) :
    let u := usage liquidity current fee specified side token
    0 < u.scale.2 ∧ next.toNat = u.restPrice := by
  intro u
  obtain ⟨grown, hgrown, h⟩ := bind_eq_ok.mp h
  obtain ⟨change, hchange, h⟩ := bind_eq_ok.mp h
  obtain ⟨moved, hmoved, h⟩ := bind_eq_ok.mp h
  have hgrown : u.grown = grown.toNat := by
    rw [addChecked_eq_ok.mp hgrown]
    exact partialFeeLiquidity_grown hadded
  have hmoved : u.moved = moved.toNat := moveReserve_moved hchange hmoved
  cases side with
  | sell =>
    cases token with
    | zero =>
      have h := mulDivCeil_eq_ok.mp h
      rw [← hgrown, ← hmoved] at h
      exact h
    | one =>
      have h := mulDivFloor_eq_ok.mp h
      rw [← hgrown, ← hmoved] at h
      exact h
  | buy =>
    cases token with
    | zero =>
      have h := mulDivFloor_eq_ok.mp h
      rw [← hgrown, ← hmoved] at h
      exact h
    | one =>
      have h := mulDivCeil_eq_ok.mp h
      rw [← hgrown, ← hmoved] at h
      exact h

theorem partialStep_eq_ok {liquidity current fee : Word} {specified : Amount} {side : Side}
    {token : Token} {step : RangeStep}
    (h : partialStep liquidity current fee specified side token = .ok step) :
    let u := usage liquidity current fee specified side token
    step.used = specified ∧ 0 < u.scale.2 ∧ step.next.toNat = u.restPrice := by
  intro u
  obtain ⟨added, hadded, h⟩ := bind_eq_ok.mp h
  obtain ⟨price, hprice, h⟩ := bind_eq_ok.mp h
  obtain ⟨next, hnext, h⟩ := bind_eq_ok.mp h
  obtain ⟨exchanged, -, h⟩ := bind_eq_ok.mp h
  cases h
  obtain ⟨rfl, -⟩ := narrowToPrice_eq_ok.mp hnext
  exact ⟨rfl, finalPrice_eq_restPrice hadded hprice⟩

theorem fullStep_eq_ok {liquidity current target : Word} {reach : Amount} {side : Side}
    {token : Token} {step : RangeStep}
    (h : fullStep liquidity current target reach side token = .ok step) :
    step.used = reach ∧ step.next = target := by
  obtain ⟨added, -, h⟩ := bind_eq_ok.mp h
  obtain ⟨exchanged, -, h⟩ := bind_eq_ok.mp h
  cases h
  exact ⟨rfl, rfl⟩

/-- Every step either stays, reaches its target or uses up the specified amount. -/
theorem rangeStep_cases {liquidity current target fee : Word} {specified : Amount} {side : Side}
    {token : Token} {step : RangeStep}
    (h : rangeStep liquidity current target fee specified side token = .ok step) :
    (current = target ∧ step = ⟨current, 0, 0, 0⟩) ∨
    current ≠ target ∧ ∃ reach, reachAmount liquidity current target fee side token = .ok reach ∧
      (covers side specified reach = true ∧
          fullStep liquidity current target reach side token = .ok step ∨
        covers side specified reach = false ∧
          partialStep liquidity current fee specified side token = .ok step) := by
  unfold rangeStep at h
  by_cases hstay : current = target
  · rw [if_pos hstay] at h
    cases h
    exact Or.inl ⟨hstay, rfl⟩
  · rw [if_neg hstay] at h
    obtain ⟨reach, hreach, h⟩ := bind_eq_ok.mp h
    refine Or.inr ⟨hstay, reach, hreach, ?_⟩
    by_cases hcovers : covers side specified reach = true
    · rw [if_pos hcovers] at h
      exact Or.inl ⟨hcovers, h⟩
    · rw [if_neg hcovers] at h
      exact Or.inr ⟨Bool.not_eq_true _ ▸ hcovers, h⟩

theorem part_div_le (a part whole d : Nat) (hpart : part ≤ whole) (hwhole : 0 < whole) :
    a * part / (whole * d) ≤ a / d :=
  calc
    a * part / (whole * d) ≤ whole * a / (whole * d) := by
      rw [Nat.mul_comm whole a]
      exact Nat.div_le_div_right (Nat.mul_le_mul_left a hpart)
    _ = a / d := Nat.mul_div_mul_left a d hwhole

/-- The fee's liquidity is a part of the liquidity that is paid in. -/
theorem saleFee_le (token : Token) (amount price fee : Nat) (hfee : fee ≤ 200000) :
    saleFee token amount price fee ≤ liquidityFor token amount price := by
  cases token with
  | zero =>
    change price * (amount * fee) / (200000 * 2 ^ 96) ≤ amount * price / 2 ^ 96
    rw [← Nat.mul_assoc, Nat.mul_comm price amount]
    exact part_div_le (amount * price) fee 200000 (2 ^ 96) hfee (by omega)
  | one =>
    change 2 ^ 96 * (amount * fee) / (200000 * price) ≤ amount * 2 ^ 96 / price
    rw [← Nat.mul_assoc, Nat.mul_comm (2 ^ 96) amount]
    exact part_div_le (amount * 2 ^ 96) fee 200000 price hfee (by omega)

/-- A purchase overruns the price at which it starts, and a sale does as long as the fee adds no
more than is paid in. -/
theorem overruns_price (u : Usage) (hsale : u.side = .sell → u.grown ≤ u.moved) :
    u.Overruns u.price := by
  obtain ⟨liquidity, price, fee, amount, side, token⟩ := u
  cases side with
  | sell =>
    have hgrown := hsale rfl
    cases token with
    | zero =>
      rw [Usage.Overruns, Nat.mul_comm price]
      exact Nat.mul_le_mul_right price hgrown
    | one =>
      rw [Usage.Overruns, Nat.mul_comm price]
      exact Nat.mul_le_mul_right price hgrown
  | buy =>
    have hmoved := Nat.le_trans (Nat.sub_le liquidity (liquidityFor token amount price))
      (Nat.le_add_right liquidity (purchaseFee token amount liquidity price fee))
    cases token with
    | zero =>
      rw [Usage.Overruns, Nat.mul_comm price]
      exact Nat.mul_le_mul_right price hmoved
    | one =>
      rw [Usage.Overruns, Nat.mul_comm price]
      exact Nat.mul_le_mul_right price hmoved

theorem overruns_start (u : Usage) (hfee : u.fee ≤ 200000) : u.Overruns u.price := by
  refine overruns_price u fun hside => ?_
  obtain ⟨liquidity, price, fee, amount, side, token⟩ := u
  subst hside
  exact Nat.add_le_add_left (saleFee_le token amount price fee hfee) liquidity

/-- A step never moves the price against the direction of travel. -/
theorem restPrice_not_before (u : Usage) (h : 0 < u.scale.2) (hfee : u.fee ≤ 200000) :
    ¬ Before u.direction u.restPrice u.price := by
  rw [u.before_restPrice_iff u.price h, not_not]
  exact overruns_start u hfee

end ReinvestingPool.Proofs.RestPrices
