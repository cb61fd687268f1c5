import ReinvestingPool.Pools

/-!
Crossing an initialized tick. The growth recorded at the tick is exchanged for that of its other
side, and the net liquidity of the tick becomes active or ceases to be.
-/

namespace ReinvestingPool.Crossings

open Failures Words Directions SignedAmounts TickMaps TickIndexes Pools

/-- The growth on the other side of the tick, given the growth over the whole pool. -/
def flip (feeGrowth : Word) (secondsPerLiquidity : HalfWord) (record : TickRecord) :
    TickRecord where
  liquidityNet := record.liquidityNet
  feeGrowthOutside := feeGrowth - record.feeGrowthOutside
  secondsPerLiquidityOutside := secondsPerLiquidity - record.secondsPerLiquidityOutside

/-- The active liquidity beyond a tick. The net change is meant for a rising price and counts the
other way for a falling one. -/
def crossLiquidity (liquidity : HalfWord) (net : LiquidityChange) (direction : Direction) :
    Except ArithmeticFailure HalfWord :=
  let adds := match direction with
    | .rising => decide (0 ≤ net.toInt)
    | .falling => decide (net.toInt < 0)
  if adds then addChecked liquidity net.magnitude else subChecked liquidity net.magnitude

/-- Crosses a tick and gives the active liquidity beyond it and the next tick in the direction of
travel. A record that has been flipped stays so, even if the liquidity is refused. -/
def crossTick (records : TickMap TickRecord) (index : TickIndex) (tick : Int) (liquidity : HalfWord)
    (feeGrowth : Word) (secondsPerLiquidity : HalfWord) (direction : Direction) :
    TickMap TickRecord × Except Failure (HalfWord × Int) :=
  match index.advance tick direction with
  | .error failure => (records, .error (.pool failure))
  | .ok next =>
    match records.get? tick with
    | none => (records, .error (.pool (.tickNotInitialized tick)))
    | some record =>
      (records.insert tick (flip feeGrowth secondsPerLiquidity record),
        match crossLiquidity liquidity record.liquidityNet direction with
        | .ok beyond => .ok (beyond, next)
        | .error failure => .error (.arithmetic failure))

@[simp] theorem flip_flip (feeGrowth : Word) (secondsPerLiquidity : HalfWord)
    (record : TickRecord) :
    flip feeGrowth secondsPerLiquidity (flip feeGrowth secondsPerLiquidity record) = record := by
  cases record
  simp only [flip, TickRecord.mk.injEq, true_and]
  constructor <;> bv_omega

theorem crossTick_eq_ok {records flipped : TickMap TickRecord} {index : TickIndex} {tick next : Int}
    {liquidity beyond : HalfWord} {feeGrowth : Word} {secondsPerLiquidity : HalfWord}
    {direction : Direction} :
    crossTick records index tick liquidity feeGrowth secondsPerLiquidity direction =
        (flipped, .ok (beyond, next)) ↔
      index.advance tick direction = .ok next ∧ ∃ record, records.get? tick = some record ∧
        flipped = records.insert tick (flip feeGrowth secondsPerLiquidity record) ∧
        crossLiquidity liquidity record.liquidityNet direction = .ok beyond := by
  unfold crossTick
  cases index.advance tick direction with
  | error failure => simp
  | ok neighbour =>
    cases records.get? tick with
    | none => simp
    | some record =>
      simp only [Prod.mk.injEq, Except.ok.injEq, Option.some.injEq, exists_eq_left']
      cases crossLiquidity liquidity record.liquidityNet direction with
      | error failure => simp
      | ok changed => simp [and_comm, and_assoc, eq_comm]

end ReinvestingPool.Crossings
