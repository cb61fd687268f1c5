import ReinvestingPool.JsonReading
import ReinvestingPool.Pools

/-!
The text of a pool: a JSON object of its fields. Words are written as hexadecimal texts and all
other numbers as integers, and the maps from ticks are objects. Reading takes every field once, in
any order, ignores names that it does not know and accepts whatever fits the widths of the fields,
whether or not the pool agrees with itself.
-/

namespace ReinvestingPool.PoolText

open Words SignedAmounts TickMaps TickIndexes Pools Numerals JsonTrees JsonReading

def ofNatural {w : Nat} (n : BitVec w) : Json := .number (decimal n.toNat)

def ofInteger (n : Int) : Json := .number (signedDecimal n)

def ofWord (n : Word) : Json := .text (hexadecimal n.toNat)

/-- A map from ticks as an object, whose names are the ticks. -/
def ofTickMap {α : Type} (ofValue : α → Json) (m : TickMap α) : Json :=
  .object (m.entries.map fun (tick, value) => (signedDecimal tick, ofValue value))

/-- A natural number that fits the width. -/
def toNatural? {w : Nat} : Json → Option (BitVec w)
  | .number written => do
    let n ← natural? written
    if n < 2 ^ w then return BitVec.ofNat w n else none
  | _ => none

/-- A tick has 32 bits, and zero has no sign. -/
def tick? (written : List Char) : Option Int := do
  let n ← integer? written
  if -2 ^ 31 ≤ n ∧ n < 2 ^ 31 ∧ written ≠ ['-', '0'] then return n else none

def toTick? : Json → Option Int
  | .number written => tick? written
  | _ => none

def toLiquidityChange? : Json → Option LiquidityChange
  | .number written => do Signed.ofInt? (← integer? written)
  | _ => none

/-- A word is a text with a numeral, or a number of at most 64 bits. -/
def toWord? : Json → Option Word
  | .text written => do
    let n ← numeral? (← unescape written)
    if n < 2 ^ 256 then return BitVec.ofNat 256 n else none
  | .number written => do
    let n ← natural? written
    if n < 2 ^ 64 then return BitVec.ofNat 256 n else none
  | _ => none

/-- An object that gives a value for each tick. Of equal ticks the last one counts. -/
def toTickMap? {α : Type} (toValue? : Json → Option α) : Json → Option (TickMap α)
  | .object members => do
    let entries ← members.mapM fun (name, value) => do return (← tick? name, ← toValue? value)
    return TickMap.ofList entries
  | _ => none

def names (fields : List String) : List (List Char) := fields.map String.toList

def recordFields : List (List Char) :=
  names ["liquidity_net", "fee_growth_outside", "seconds_per_liquidity_outside"]

def linkFields : List (List Char) := names ["previous", "next"]

def poolFields : List (List Char) :=
  names ["swap_fee_units", "sqrt_price", "current_tick", "nearest_current_tick", "base_l",
    "reinvest_l", "reinvest_l_last", "fee_growth_global", "seconds_per_liquidity_global",
    "seconds_per_liquidity_update_time", "block_timestamp", "r_token_supply",
    "government_fee_units", "ticks", "initialized_ticks"]

def recordMembers (record : TickRecord) : List (List Char × Json) :=
  recordFields.zip [ofInteger record.liquidityNet.toInt, ofWord record.feeGrowthOutside,
    ofNatural record.secondsPerLiquidityOutside]

def ofRecord (record : TickRecord) : Json := .object (recordMembers record)

def toRecord? (json : Json) : Option TickRecord := do
  match ← json.fields? recordFields with
  | [net, growth, seconds] =>
    return ⟨← toLiquidityChange? net, ← toWord? growth, ← toNatural? seconds⟩
  | _ => none

def linkMembers (link : TickLink) : List (List Char × Json) :=
  linkFields.zip [ofInteger link.previous, ofInteger link.next]

def ofLink (link : TickLink) : Json := .object (linkMembers link)

def toLink? (json : Json) : Option TickLink := do
  match ← json.fields? linkFields with
  | [previous, next] => return ⟨← toTick? previous, ← toTick? next⟩
  | _ => none

/-- The members of a pool, whose two maps are given as values. -/
def poolMembers (pool : Pool) (records links : Json) : List (List Char × Json) :=
  poolFields.zip [ofNatural pool.swapFeeUnits, ofWord pool.sqrtPrice, ofInteger pool.currentTick,
    ofInteger pool.nearestTick, ofNatural pool.baseLiquidity, ofNatural pool.reinvestedLiquidity,
    ofNatural pool.reinvestedAtMint, ofWord pool.feeGrowth, ofNatural pool.secondsPerLiquidity,
    ofNatural pool.secondsUpdatedAt, ofNatural pool.blockTime, ofWord pool.reinvestmentSupply,
    ofNatural pool.governmentFeeUnits, records, links]

def ofPool (pool : Pool) : Json :=
  .object (poolMembers pool (ofTickMap ofRecord pool.records) (ofTickMap ofLink pool.index.links))

def toPool? (json : Json) : Option Pool := do
  match ← json.fields? poolFields with
  | [swapFee, price, tick, nearest, base, reinvested, atMint, growth, seconds, updated, time,
      supply, governmentFee, records, links] =>
    return {
      swapFeeUnits := ← toNatural? swapFee
      sqrtPrice := ← toWord? price
      currentTick := ← toTick? tick
      nearestTick := ← toTick? nearest
      baseLiquidity := ← toNatural? base
      reinvestedLiquidity := ← toNatural? reinvested
      reinvestedAtMint := ← toNatural? atMint
      feeGrowth := ← toWord? growth
      secondsPerLiquidity := ← toNatural? seconds
      secondsUpdatedAt := ← toNatural? updated
      blockTime := ← toNatural? time
      reinvestmentSupply := ← toWord? supply
      governmentFeeUnits := ← toNatural? governmentFee
      records := ← toTickMap? toRecord? records
      index := ⟨← toTickMap? toLink? links⟩
    }
  | _ => none

def writePool (pool : Pool) : String := String.ofList (ofPool pool).render

def readPool? (text : String) : Option Pool := do toPool? (← readJson? text.toList)

end ReinvestingPool.PoolText
