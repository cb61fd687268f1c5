import ReinvestingPool.Simulations

/-!
Quoting a list of rising trade sizes in one pass over the pool. Each size goes on from the
checkpoint of the one before. The first size that the pool cannot fill, and all sizes after it,
are quoted as zero.
-/

namespace ReinvestingPool.Quotes

open Failures Words Directions SignedAmounts TickMaps Pools Runs Simulations

structure Quote where
  output : Word
  /-- The ticks that the whole trade crosses. -/
  ticksCrossed : Nat
  deriving DecidableEq

/-- The quote of a trade that is not filled. -/
def Quote.none : Quote := ⟨0, 0⟩

def signed (side : Side) (amount : Word) : Except ArithmeticFailure Amount :=
  match side with
  | .sell => inflow amount
  | .buy => outflow amount

/-- The amounts from the given position on as quantities of a trade. Apart from zeros none may be
smaller than one before it, of which `largest` is the largest. -/
def quantitiesFrom (side : Side) : Nat → Word → List Word → Except TradeFailure (List Amount)
  | _, _, [] => .ok []
  | position, largest, amount :: rest =>
      if amount = 0 then do
        return 0 :: (← quantitiesFrom side (position + 1) largest rest)
      else if amount < largest then
        .error (.amountsNotAscending position)
      else
        match signed side amount with
        | .error _ => .error (.amountTooLarge position)
        | .ok quantity => do
          return quantity :: (← quantitiesFrom side (position + 1) amount rest)

def quantities (side : Side) (amounts : List Word) : Except TradeFailure (List Amount) :=
  quantitiesFrom side 0 0 amounts

/-- The last filled quantity and the checkpoint of its run. -/
abbrev Resume := Option (Amount × RunState)

/-- The state from which a quantity is traded. What the run up to the checkpoint has used of the
last quantity is used of this one, too. -/
def entryState (pool : Pool) (direction : Direction) (quantity : Amount) :
    Resume → Except Failure RunState
  | none => liftPool (RunState.enter pool direction quantity)
  | some (last, checkpoint) => do
    let used ← liftArithmetic (last.subChecked checkpoint.remaining)
    let remaining ← liftArithmetic (quantity.subChecked used)
    return { checkpoint with remaining }

/-- What is received for a sale, or paid for a purchase. -/
def outputOf (side : Side) (exchanged : Amount) : Except TradeFailure Word :=
  let leg := match side with
    | .sell => -exchanged.toInt
    | .buy => exchanged.toInt
  if 0 ≤ leg ∧ leg < 2 ^ 255 then .ok (BitVec.ofInt 256 leg) else .error .unexpectedSign

/-- Quotes the quantities in turn. The records are those in which the last run left the ticks. -/
def quoteFrom (pool : Pool) (trade : Trade) (resume : Resume) (records : TickMap TickRecord) :
    List Amount → Except Failure (List Quote)
  | [] => .ok []
  | quantity :: rest =>
      if quantity = 0 then do
        return .none :: (← quoteFrom pool trade resume records rest)
      else do
        let entry ← entryState pool trade.direction quantity resume
        let outcome ← simulate trade pool.index entry records
        if outcome.final.Fruitless then
          return .none :: rest.map fun _ => .none
        else
          -- The leg that the quote names is worked out as well, though only the other one is shown.
          let _ ← liftArithmetic (quantity.subChecked outcome.final.remaining)
          let output ← (outputOf trade.side outcome.final.exchanged).mapError .trade
          let resume := some (quantity, outcome.checkpoint)
          let quotes ← quoteFrom pool trade resume outcome.records rest
          return ⟨output, outcome.final.ticksCrossed⟩ :: quotes

/-- Quotes amounts of a token, which are sold or bought. Where all are zero no trade is set up, so
its limit is not looked at. -/
def quote (pool : Pool) (amounts : List Word) (token : Token) (side : Side) :
    Except Failure (List Quote) := do
  liftPool pool.validate
  let quantities ← (quantities side amounts).mapError .trade
  if quantities.all (· = 0) then
    return amounts.map fun _ => .none
  else
    let trade ← (Trade.on pool token side none).mapError .trade
    quoteFrom pool trade none pool.records quantities

end ReinvestingPool.Quotes
