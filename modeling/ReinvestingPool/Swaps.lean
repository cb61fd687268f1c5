import ReinvestingPool.Simulations

/-!
A single trade on a pool. It is filled as far as its limit allows, and the result names what the
pool received and paid and the state that it is left in.
-/

namespace ReinvestingPool.Swaps

open Failures Directions SignedAmounts Pools PriceLimits Runs Simulations

/-- The result of a trade, with both amounts counted from the pool's side. -/
structure Fill where
  amountZero : Amount
  amountOne : Amount
  ticksCrossed : Nat
  phase : Phase
  pool : Pool
  deriving DecidableEq

/-- The amounts of token zero and token one, given that of the named token and that of the other. -/
def byToken : Token → Amount → Amount → Amount × Amount
  | .zero, named, other => (named, other)
  | .one, named, other => (other, named)

/-- The pool in which a run has ended. -/
def poolAfter (pool : Pool) (outcome : Outcome) (nearestTick : Int) : Pool :=
  let final := outcome.final
  { pool with
    sqrtPrice := final.sqrtPrice
    currentTick := final.currentTick
    nearestTick
    baseLiquidity := final.baseLiquidity
    reinvestedLiquidity := final.reinvestedLiquidity
    reinvestedAtMint := final.reinvestedAtMint
    feeGrowth := final.feeGrowth
    secondsPerLiquidity := final.secondsPerLiquidity
    secondsUpdatedAt := final.secondsUpdatedAt
    reinvestmentSupply := final.reinvestmentSupply
    records := outcome.records }

def swap (pool : Pool) (order : Order) : Except Failure Fill := do
  if order.quantity = 0 then throw (.trade .zeroAmount)
  liftPool pool.validate
  let trade ← (Trade.on pool order.token (sideOf order.quantity) (some order.limit)).mapError .trade
  let entry ← liftPool (RunState.enter pool trade.direction order.quantity)
  let outcome ← simulate trade pool.index entry pool.records
  let used ← liftArithmetic (order.quantity.subChecked outcome.final.remaining)
  let (amountZero, amountOne) := byToken order.token used outcome.final.exchanged
  let nearestTick ← liftPool (outcome.final.nearestTick pool.index)
  return {
    amountZero
    amountOne
    ticksCrossed := outcome.final.ticksCrossed
    phase := outcome.final.phase
    pool := poolAfter pool outcome nearestTick
  }

end ReinvestingPool.Swaps
