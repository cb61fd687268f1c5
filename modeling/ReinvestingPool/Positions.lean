import ReinvestingPool.Pools

/-!
Adding liquidity between two ticks. A position is added in several edits of the pool, and each may
be refused. Edits made before a refusal stay, so the result names the pool in either case.
-/

namespace ReinvestingPool.Positions

open Failures Words SignedAmounts TickMaps TickPrices TickIndexes Pools

/-- The pool after an edit, and whether the edit went through. -/
abbrev Edit := Pool → Pool × Except Failure Unit

namespace Edit

/-- The second edit is made where the first one went through. -/
def andThen (first second : Edit) : Edit := fun pool =>
  match first pool with
  | (edited, .ok ()) => second edited
  | (edited, .error failure) => (edited, .error failure)

def require (accepted : Bool) (failure : Failure) : Edit := fun pool =>
  (pool, if accepted then .ok () else .error failure)

/-- An edit that changes nothing where it is refused. -/
def ofExcept (change : Pool → Except Failure Pool) : Edit := fun pool =>
  match change pool with
  | .ok edited => (edited, .ok ())
  | .error failure => (pool, .error failure)

end Edit

/-- The record of a tick without positions. All growth so far counts as having happened below the
price. -/
def newRecord (pool : Pool) (tick : Int) : TickRecord :=
  if tick ≤ pool.currentTick then ⟨0, pool.feeGrowth, pool.secondsPerLiquidity⟩ else ⟨0, 0, 0⟩

/-- Changes the net liquidity of a tick. A record is made for a tick that has none, and stays even
if the change is refused. -/
def changeNet (tick change : Int) : Edit := fun pool =>
  let record := (pool.records.get? tick).getD (newRecord pool tick)
  let failure := if 0 < change then ArithmeticFailure.overflow else .underflow
  match Signed.ofIntOr failure (record.liquidityNet.toInt + change) with
  | .ok net =>
    let changed := { record with liquidityNet := net }
    ({ pool with records := pool.records.insert tick changed }, .ok ())
  | .error failure =>
    ({ pool with records := pool.records.insert tick record }, .error (.arithmetic failure))

def indexTick (tick : Int) : Edit := Edit.ofExcept fun pool => do
  let (index, _) ← liftPool (pool.index.insert tick)
  return { pool with index }

/-- Changes the net liquidity of an end of a position and sees to it that the end is indexed. -/
def changeEnd (tick change : Int) : Edit := (changeNet tick change).andThen (indexTick tick)

/-- A position around the current tick adds to the active liquidity. -/
def activate (lower upper : Int) (liquidity : HalfWord) : Edit := Edit.ofExcept fun pool =>
  if lower ≤ pool.currentTick ∧ pool.currentTick < upper then do
    let baseLiquidity ← liftArithmetic (addChecked pool.baseLiquidity liquidity)
    return { pool with baseLiquidity }
  else
    return pool

def findNearest : Edit := Edit.ofExcept fun pool => do
  let nearestTick ← liftPool (pool.index.nearest pool.currentTick)
  return { pool with nearestTick }

/-- Whether a position may lie between two ticks. -/
def ValidRange (lower upper : Int) : Prop := lower < upper ∧ minTick < lower ∧ upper < maxTick

instance (lower upper : Int) : Decidable (ValidRange lower upper) := by
  unfold ValidRange
  infer_instance

/-- Adds liquidity from `lower` up to `upper`. -/
def addPosition (lower upper : Int) (liquidity : HalfWord) : Edit :=
  (Edit.require (ValidRange lower upper) (.pool .tickOutOfBounds)).andThen <|
  (Edit.require (liquidity.toNat < 2 ^ 127) (.arithmetic .overflow)).andThen <|
  (changeEnd lower liquidity.toNat).andThen <|
  (changeEnd upper (-liquidity.toNat)).andThen <|
  (activate lower upper liquidity).andThen findNearest

end ReinvestingPool.Positions
