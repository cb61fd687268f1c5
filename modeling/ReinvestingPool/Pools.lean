import ReinvestingPool.Scales
import ReinvestingPool.SignedAmounts
import ReinvestingPool.TickIndexes

/-!
The state of a pool. Growth is accumulated over the whole pool and, at each initialized tick, for
the side of the tick that the price is not on. A pool may have been read from a text, so it can
disagree with itself; `Pool.validate` rejects those on which no trade can be run.
-/

namespace ReinvestingPool.Pools

open Failures Words Scales SignedAmounts TickMaps TickPrices TickIndexes

structure TickRecord where
  /-- The change of active liquidity where the price rises through the tick. -/
  liquidityNet : LiquidityChange
  feeGrowthOutside : Word
  secondsPerLiquidityOutside : HalfWord
  deriving DecidableEq

structure Pool where
  swapFeeUnits : ShortWord
  sqrtPrice : Word
  currentTick : Int
  /-- The greatest initialized tick at or below the current one. -/
  nearestTick : Int
  baseLiquidity : HalfWord
  reinvestedLiquidity : HalfWord
  /-- The reinvested liquidity at the last minting of reinvestment tokens. -/
  reinvestedAtMint : HalfWord
  feeGrowth : Word
  secondsPerLiquidity : HalfWord
  secondsUpdatedAt : ShortWord
  blockTime : ShortWord
  reinvestmentSupply : Word
  /-- The part of minted fees that goes to the government of the pool. -/
  governmentFeeUnits : ShortWord
  records : TickMap TickRecord
  index : TickIndex
  deriving DecidableEq

/-- The reinvested liquidity that a new pool is locked with. -/
def minLiquidity : HalfWord := 100000

/-- A swap fee is a proper part of the amount. -/
def checkSwapFee (units : ShortWord) : Except PoolFailure Unit :=
  if units.toNat < feeUnit.toNat then .ok () else .error (.feeOutOfRange units.toNat)

/-- A government may take all that is minted. -/
def checkGovernmentFee (units : ShortWord) : Except PoolFailure Unit :=
  if units.toNat ≤ feeUnit.toNat then .ok () else .error (.feeOutOfRange units.toNat)

namespace Pool

/-- A new pool without positions. -/
def create (swapFeeUnits : ShortWord) (sqrtPrice : Word) : Except PoolFailure Pool := do
  checkSwapFee swapFeeUnits
  let currentTick ← tickAt sqrtPrice
  return {
    swapFeeUnits
    sqrtPrice
    currentTick
    nearestTick := minTick
    baseLiquidity := 0
    reinvestedLiquidity := minLiquidity
    reinvestedAtMint := minLiquidity
    feeGrowth := 0
    secondsPerLiquidity := 0
    secondsUpdatedAt := 0
    blockTime := 0
    reinvestmentSupply := widen minLiquidity
    governmentFeeUnits := 0
    records := TickMap.empty
    index := TickIndex.empty
  }

/-- Rejects a pool on which no trade can be run. -/
def validate (pool : Pool) : Except PoolFailure Unit := do
  let _ ← tickAt pool.sqrtPrice
  checkSwapFee pool.swapFeeUnits
  checkGovernmentFee pool.governmentFeeUnits
  pool.index.validate
  if !pool.index.contains pool.nearestTick then throw (.tickNotInitialized pool.nearestTick)

end Pool

end ReinvestingPool.Pools
