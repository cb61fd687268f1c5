import ReinvestingPool.Crossings
import ReinvestingPool.FeeMinting
import ReinvestingPool.PriceLimits
import ReinvestingPool.RangeSteps

/-!
The state of a trade under way. A run begins with the state of the pool, and each step takes from
the remaining amount, moves the price and, at an initialized tick, mints fees and changes the
active liquidity.
-/

namespace ReinvestingPool.Runs

open Failures Words Directions ProductQuotients Scales SignedAmounts TickMaps TickPrices
open TickIndexes Pools FeeMinting PriceLimits RangeSteps Crossings

/-- What stays the same during a trade. -/
structure Trade where
  token : Token
  side : Side
  limit : Word
  swapFee : Word
  governmentFee : Word
  blockTime : ShortWord
  deriving DecidableEq

def Trade.direction (trade : Trade) : Direction := travel trade.side trade.token

/-- Whether a price can move to a limit in a direction, and the limit lies within the bounds. -/
def LimitAhead (direction : Direction) (sqrtPrice limit : Word) : Prop :=
  match direction with
  | .rising => sqrtPrice < limit ∧ limit < maxSqrtPrice
  | .falling => limit < sqrtPrice ∧ minSqrtPrice < limit

instance (direction : Direction) (sqrtPrice limit : Word) :
    Decidable (LimitAhead direction sqrtPrice limit) := by
  cases direction <;> unfold LimitAhead <;> infer_instance

/-- A trade on a pool. Without a limit it may go to the last price short of the bound. -/
def Trade.on (pool : Pool) (token : Token) (side : Side) (limit : Option Word) :
    Except TradeFailure Trade :=
  let direction := travel side token
  let limit := limit.getD (furthestLimit direction)
  if LimitAhead direction pool.sqrtPrice limit then
    .ok {
      token
      side
      limit
      swapFee := widen pool.swapFeeUnits
      governmentFee := widen pool.governmentFeeUnits
      blockTime := pool.blockTime
    }
  else
    .error .badPriceLimit

inductive Phase
  | advancing
  /-- The price reached its limit before the amount was used up. -/
  | limited
  | consumed
  deriving DecidableEq

structure RunState where
  /-- What is left of the amount that the trade fixes. -/
  remaining : Amount
  /-- What has been exchanged for it in the other token. -/
  exchanged : Amount
  sqrtPrice : Word
  currentTick : Int
  /-- The next initialized tick in the direction of travel. -/
  nextTick : Int
  baseLiquidity : HalfWord
  reinvestedLiquidity : HalfWord
  reinvestedAtMint : HalfWord
  feeGrowth : Word
  secondsPerLiquidity : HalfWord
  secondsUpdatedAt : ShortWord
  reinvestmentSupply : Word
  /-- The reinvestment tokens minted for the government so far. -/
  governmentTokens : Word
  /-- The reinvestment tokens minted for the providers of liquidity so far. -/
  providerTokens : Word
  ticksCrossed : Nat
  phase : Phase
  deriving DecidableEq

namespace RunState

/-- The first initialized tick that a trade on a pool may cross. -/
def firstTick (pool : Pool) : Direction → Except PoolFailure Int
  | .rising => pool.index.next pool.nearestTick
  | .falling => .ok pool.nearestTick

/-- The state in which a trade of `quantity` enters a pool. -/
def enter (pool : Pool) (direction : Direction) (quantity : Amount) :
    Except PoolFailure RunState := do
  let nextTick ← firstTick pool direction
  return {
    remaining := quantity
    exchanged := 0
    sqrtPrice := pool.sqrtPrice
    currentTick := pool.currentTick
    nextTick
    baseLiquidity := pool.baseLiquidity
    reinvestedLiquidity := pool.reinvestedLiquidity
    reinvestedAtMint := pool.reinvestedAtMint
    feeGrowth := pool.feeGrowth
    secondsPerLiquidity := pool.secondsPerLiquidity
    secondsUpdatedAt := pool.secondsUpdatedAt
    reinvestmentSupply := pool.reinvestmentSupply
    governmentTokens := 0
    providerTokens := 0
    ticksCrossed := 0
    phase := .advancing
  }

/-- Base and reinvested liquidity trade side by side. -/
def liquidity (s : RunState) : Word := widen s.baseLiquidity + widen s.reinvestedLiquidity

/-- A run is over when its amount is used up or its price is at the limit. -/
def Over (s : RunState) (limit : Word) : Prop := s.remaining = 0 ∨ s.sqrtPrice = limit

instance (s : RunState) (limit : Word) : Decidable (s.Over limit) := by
  unfold Over
  infer_instance

def finish (s : RunState) : RunState :=
  { s with phase := if s.remaining = 0 then .consumed else .limited }

/-- A run that bought or sold nothing of use: it met its limit, or got nothing in exchange. -/
def Fruitless (s : RunState) : Prop := s.phase = .limited ∨ s.exchanged = 0

instance (s : RunState) : Decidable s.Fruitless := by
  unfold Fruitless
  infer_instance

/-- The greatest initialized tick at or below the current one. -/
def nearestTick (s : RunState) (index : TickIndex) : Except PoolFailure Int :=
  if s.currentTick < s.nextTick then index.previous s.nextTick else .ok s.nextTick

/-- Takes the amounts of a step into account. What remains must not change its sign. -/
def settle (s : RunState) (step : RangeStep) : Except Failure RunState := do
  let remaining ← liftArithmetic (s.remaining.subChecked step.used)
  if remaining ≠ 0 ∧ ¬(remaining.toInt < 0 ↔ s.remaining.toInt < 0) then
    throw (.trade .remainderChangedSign)
  let exchanged ← liftArithmetic (s.exchanged.addChecked step.exchanged)
  return { s with
    remaining
    exchanged
    reinvestedLiquidity := s.reinvestedLiquidity + lowHalf step.added
    sqrtPrice := step.next
  }

/-- Finds the current tick after a step that began at `before`. A price that did not move keeps its
tick. -/
def locate (s : RunState) (before : Word) : Except PoolFailure RunState :=
  if s.sqrtPrice = before then
    .ok s
  else do
    let currentTick ← tickAt s.sqrtPrice
    return { s with currentTick }

/-- Accumulates the seconds since the last update, once for each block. -/
def syncSeconds (s : RunState) (blockTime : ShortWord) : RunState :=
  if blockTime ≤ s.secondsUpdatedAt then
    s
  else
    let elapsed := widen (blockTime - s.secondsUpdatedAt) <<< priceBits
    { s with
      secondsUpdatedAt := blockTime
      secondsPerLiquidity :=
        if s.baseLiquidity = 0 then s.secondsPerLiquidity
        else s.secondsPerLiquidity + lowHalf (elapsed / widen s.baseLiquidity) }

/-- Divides newly minted tokens between the government and the providers of liquidity. -/
def distribute (s : RunState) (minted governmentFee : Word) :
    Except ArithmeticFailure RunState := do
  let reinvestmentSupply ← addChecked s.reinvestmentSupply minted
  let share := minted * governmentFee / feeUnit
  let growth ← mulDivFloor (minted - share) priceUnit (widen s.baseLiquidity)
  return { s with
    reinvestmentSupply
    governmentTokens := s.governmentTokens + share
    providerTokens := s.providerTokens + (minted - share)
    feeGrowth := s.feeGrowth + growth
  }

/-- Nothing is divided where nothing is minted. -/
def payOut (s : RunState) (minted governmentFee : Word) : Except ArithmeticFailure RunState :=
  if minted = 0 then .ok s else s.distribute minted governmentFee

/-- Mints reinvestment tokens for the fees since the last minting. -/
def mintFees (s : RunState) (governmentFee : Word) : Except Failure RunState := do
  if s.reinvestmentSupply = 0 then throw (.pool .noReinvestmentSupply)
  let minted ← liftArithmetic <| mintedTokens (widen s.reinvestedLiquidity)
    (widen s.reinvestedAtMint) (widen s.baseLiquidity) s.reinvestmentSupply
  let paid ← liftArithmetic (s.payOut minted governmentFee)
  return { paid with reinvestedAtMint := s.reinvestedLiquidity }

/-- Crosses the next tick. -/
def cross (s : RunState) (direction : Direction) (index : TickIndex)
    (records : TickMap TickRecord) : Except Failure (RunState × TickMap TickRecord) :=
  match crossTick records index s.nextTick s.baseLiquidity s.feeGrowth s.secondsPerLiquidity
      direction with
  | (_, .error failure) => .error failure
  | (flipped, .ok (baseLiquidity, nextTick)) =>
      .ok ({ s with baseLiquidity, nextTick, ticksCrossed := s.ticksCrossed + 1 }, flipped)

theorem syncSeconds_ticks (s : RunState) (blockTime : ShortWord) :
    (s.syncSeconds blockTime).nextTick = s.nextTick ∧
      (s.syncSeconds blockTime).currentTick = s.currentTick := by
  unfold syncSeconds
  split <;> exact ⟨rfl, rfl⟩

theorem payOut_ticks {s t : RunState} {minted governmentFee : Word}
    (h : s.payOut minted governmentFee = .ok t) :
    t.nextTick = s.nextTick ∧ t.currentTick = s.currentTick := by
  unfold payOut at h
  split at h
  · cases h
    exact ⟨rfl, rfl⟩
  · obtain ⟨supply, -, h⟩ := bind_eq_ok.mp h
    obtain ⟨growth, -, h⟩ := bind_eq_ok.mp h
    cases h
    exact ⟨rfl, rfl⟩

theorem mintFees_ticks {s t : RunState} {governmentFee : Word}
    (h : s.mintFees governmentFee = .ok t) :
    t.nextTick = s.nextTick ∧ t.currentTick = s.currentTick := by
  unfold mintFees at h
  split at h
  · cases h
  · obtain ⟨minted, -, h⟩ := bind_eq_ok.mp h
    obtain ⟨paid, hp, h⟩ := bind_eq_ok.mp h
    cases h
    have kept := payOut_ticks (liftArithmetic_eq_ok.mp hp)
    exact kept

theorem cross_eq_ok {s t : RunState} {direction : Direction} {index : TickIndex}
    {records flipped : TickMap TickRecord} :
    s.cross direction index records = .ok (t, flipped) ↔
      ∃ beyond next, crossTick records index s.nextTick s.baseLiquidity s.feeGrowth
          s.secondsPerLiquidity direction = (flipped, .ok (beyond, next)) ∧
        t = { s with
          baseLiquidity := beyond
          nextTick := next
          ticksCrossed := s.ticksCrossed + 1 } := by
  unfold cross
  split
  · rename_i failure h
    simp [h]
  · rename_i changed beyond next h
    simp only [h, Except.ok.injEq, Prod.mk.injEq]
    constructor
    · rintro ⟨rfl, rfl⟩
      exact ⟨beyond, next, ⟨rfl, rfl, rfl⟩, rfl⟩
    · rintro ⟨_, _, ⟨rfl, rfl, rfl⟩, rfl⟩
      exact ⟨rfl, rfl⟩

end RunState

end ReinvestingPool.Runs
