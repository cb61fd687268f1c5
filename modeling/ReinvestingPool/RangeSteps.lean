import ReinvestingPool.Directions
import ReinvestingPool.ProductQuotients
import ReinvestingPool.Scales
import ReinvestingPool.SignedAmounts
import ReinvestingPool.SquareRoots

/-!
One step of a trade inside a range of constant liquidity. The fee is not taken out of the amount
paid: it stays in the range as additional liquidity, and the step reports how much was added. A step
that is used up ends at a price rounded towards its start, and what the pool receives of the token
that is not named is rounded up.
-/

namespace ReinvestingPool.RangeSteps

open Failures Words Directions ProductQuotients Scales SignedAmounts SquareRoots

/-- The virtual reserve of `token` that `liquidity` stands for at a price. -/
def reserveOf (token : Token) (liquidity price : Word) : Except ArithmeticFailure Word :=
  match token with
  | .zero => mulDivFloor liquidity priceUnit price
  | .one => mulDivFloor liquidity price priceUnit

/-- The liquidity whose virtual reserve of `token` is `reserve` at a price. -/
def liquidityOf (token : Token) (reserve price : Word) : Except ArithmeticFailure Word :=
  match token with
  | .zero => mulDivFloor reserve price priceUnit
  | .one => mulDivFloor reserve priceUnit price

/-- A sale adds to the reserve of the token it names and a purchase takes from it. -/
def moveReserve : Side → Word → Word → Except ArithmeticFailure Word
  | .sell => addChecked
  | .buy => subChecked

/-- The two prices of a step in ascending order, as the direction of travel has them. -/
def ascending : Direction → Word → Word → Word × Word
  | .rising, current, target => (current, target)
  | .falling, current, target => (target, current)

/-- The amount of the named token that moves the price from `current` to `target`, fee included.
It is rounded down, so that slightly less is enough to enter the next range. -/
def reachAmount (liquidity current target fee : Word) (side : Side) (token : Token) :
    Except ArithmeticFailure Amount := do
  let (low, high) := ascending (travel side token) current target
  let gap := distance current target
  let divisor ← subChecked (← mulChecked twoFeeUnits low) (← mulChecked fee high)
  match side with
  | .sell =>
    let share ← mulDivFloor liquidity (← mulChecked twoFeeUnits gap) divisor
    inflow (← reserveOf token share current)
  | .buy =>
    let kept ← subChecked divisor (← mulChecked fee low)
    match token with
    | .zero =>
      let share ← mulDivFloor (liquidity <<< priceBits) kept divisor
      outflow (← divChecked (← mulDivFloor share gap current) target)
    | .one =>
      let share ← mulDivFloor liquidity kept divisor
      outflow (← mulDivFloor share gap priceUnit)

/-- The liquidity that the fee adds in a step which uses up `amount` inside the range. -/
def partialFeeLiquidity (amount liquidity current fee : Word) (side : Side) (token : Token) :
    Except ArithmeticFailure Word := do
  let charged ← mulChecked amount fee
  match side, token with
  | .sell, .zero => mulDivFloor current charged (twoFeeUnits <<< priceBits)
  | .sell, .one => mulDivFloor priceUnit charged (← mulChecked twoFeeUnits current)
  | .buy, token =>
    let whole ← mulChecked (← subChecked feeUnit fee) liquidity
    let product ← mulChecked charged liquidity
    let taken ← mulChecked feeUnit amount
    let half ← subChecked whole (← liquidityOf token taken current)
    smallerRoot fee half (← liquidityOf token product current)

/-- The liquidity that the fee adds in a step from `current` which reaches `next`. It is zero where
rounding leaves less liquidity than there was. -/
def fullFeeLiquidity (amount liquidity current next : Word) (side : Side) (token : Token) :
    Except ArithmeticFailure Word := do
  let reserve ← moveReserve side (← reserveOf token liquidity current) amount
  return subToZero (← liquidityOf token reserve next) liquidity

/-- The price at the end of a step which uses up `amount` inside the range. It is rounded towards
the price at which the step began. -/
def finalPrice (amount liquidity added current : Word) (side : Side) (token : Token) :
    Except ArithmeticFailure Word := do
  let grown ← addChecked liquidity added
  let moved ← moveReserve side liquidity (← liquidityOf token amount current)
  let divide := match travel side token with
    | .rising => mulDivFloor
    | .falling => mulDivCeil
  match token with
  | .zero => divide grown current moved
  | .one => divide moved current grown

/-- What the move of the price exchanges in token one when token zero is named. -/
def priceMove (liquidity current next : Word) : Side → Except ArithmeticFailure Amount
  | .sell => do outflow (← mulDivFloor liquidity (← subChecked current next) priceUnit)
  | .buy => do inflow (← mulDivCeil liquidity (← subChecked next current) priceUnit)

/-- The change of the pool's holding of the token that is not named. In token one it is the fee's
liquidity at the new price and the move of the price. -/
def holdingChange (liquidity current next added : Word) (side : Side) (token : Token) :
    Except ArithmeticFailure Amount :=
  match token with
  | .zero => do
    let fee ← inflow (← mulDivCeil added next priceUnit)
    Signed.addChecked fee (← priceMove liquidity current next side)
  | .one => do
    let after ← inflow (← mulDivCeil (← addChecked liquidity added) priceUnit next)
    let before ← outflow (← mulDivFloor liquidity priceUnit current)
    Signed.addChecked after before

/-- An inflow of one unit against a sale is a trace of rounding and is dropped. -/
def dropTrace (side : Side) (amount : Amount) : Amount :=
  if side = .sell ∧ amount.toInt = 1 then 0 else amount

/-- What a step exchanges in the token that is not named. -/
def exchangedAmount (liquidity current next added : Word) (side : Side) (token : Token) :
    Except ArithmeticFailure Amount := do
  return dropTrace side (← holdingChange liquidity current next added side token)

structure RangeStep where
  /-- The price at the end of the step. -/
  next : Word
  /-- What the step used of the amount that the trade fixes. -/
  used : Amount
  /-- What the step exchanged for it in the other token. -/
  exchanged : Amount
  /-- The liquidity that the fee added. -/
  added : Word
  deriving DecidableEq

/-- Whether an amount covers a step that takes `reach`. A purchase has to exceed it. -/
def covers : Side → Amount → Amount → Bool
  | .sell, specified, reach => reach.toInt ≤ specified.toInt
  | .buy, specified, reach => specified.toInt < reach.toInt

/-- A step that ends at `target`. -/
def fullStep (liquidity current target : Word) (reach : Amount) (side : Side) (token : Token) :
    Except ArithmeticFailure RangeStep := do
  let added ← fullFeeLiquidity reach.magnitude liquidity current target side token
  let exchanged ← exchangedAmount liquidity current target added side token
  return ⟨target, reach, exchanged, added⟩

/-- A step that uses up the specified amount before it reaches its target. -/
def partialStep (liquidity current fee : Word) (specified : Amount) (side : Side) (token : Token) :
    Except ArithmeticFailure RangeStep := do
  let added ← partialFeeLiquidity specified.magnitude liquidity current fee side token
  let next ← narrowToPrice (← finalPrice specified.magnitude liquidity added current side token)
  let exchanged ← exchangedAmount liquidity current next added side token
  return ⟨next, specified, exchanged, added⟩

/-- A step from `current` towards `target`, which it reaches if the specified amount covers it. -/
def rangeStep (liquidity current target fee : Word) (specified : Amount) (side : Side)
    (token : Token) : Except ArithmeticFailure RangeStep :=
  if current = target then
    .ok ⟨current, 0, 0, 0⟩
  else do
    let reach ← reachAmount liquidity current target fee side token
    if covers side specified reach then
      fullStep liquidity current target reach side token
    else
      partialStep liquidity current fee specified side token

end ReinvestingPool.RangeSteps
