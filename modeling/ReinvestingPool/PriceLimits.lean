import ReinvestingPool.Directions
import ReinvestingPool.ProductQuotients
import ReinvestingPool.SignedAmounts
import ReinvestingPool.TickPrices

/-!
The furthest price that a trade accepts. A limit always lies strictly between the lowest and the
highest price; within a tolerance it is the price moved by that many parts in ten thousand.
-/

namespace ReinvestingPool.PriceLimits

open Failures Words Directions ProductQuotients SignedAmounts TickPrices

def tolerancePoints : Nat := 10000

/-- The last price short of the bound in a direction. -/
def furthestLimit : Direction → Word
  | .rising => maxSqrtPrice - 1
  | .falling => minSqrtPrice + 1

/-- The price in parts of ten thousand at the end of a tolerance, as far as 32 bits hold it. -/
def tolerated (direction : Direction) (tolerance : ShortWord) : Nat :=
  match direction with
  | .rising => min (tolerancePoints + tolerance.toNat) (2 ^ 32 - 1)
  | .falling => tolerancePoints - tolerance.toNat

/-- Moves a price strictly between the bounds. -/
def clampLimit (price : Word) : Word :=
  if price < furthestLimit .falling then furthestLimit .falling
  else if furthestLimit .rising < price then furthestLimit .rising
  else price

def limitWithin (sqrtPrice : Word) (direction : Direction) (tolerance : ShortWord) :
    Except ArithmeticFailure Word := do
  let points := BitVec.ofNat 256 (tolerated direction tolerance)
  return clampLimit (← mulDivFloor sqrtPrice points (BitVec.ofNat 256 tolerancePoints))

/-- A request to trade: a positive quantity is sold and a negative one bought. -/
structure Order where
  token : Token
  quantity : Amount
  limit : Word
  deriving DecidableEq

def sideOf (quantity : Amount) : Side := if 0 < quantity.toInt then .sell else .buy

/-- An order with the furthest limit in its direction. -/
def Order.unlimited (token : Token) (quantity : Amount) : Order where
  token
  quantity
  limit := furthestLimit (travel (sideOf quantity) token)

end ReinvestingPool.PriceLimits
