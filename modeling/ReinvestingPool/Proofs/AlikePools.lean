import ReinvestingPool.Proofs.AlikeRuns
import ReinvestingPool.Proofs.QuoteRuns

/-!
Pools that differ in their accounts only. Where a swap succeeds on both, it trades the same amounts
and leaves them at the same price, and where a quote does, it answers the same.
-/

namespace ReinvestingPool.Proofs.AlikePools

open Failures Words Directions SignedAmounts TickMaps TickIndexes Pools PriceLimits Runs
open Simulations Swaps Quotes Paths SwapRuns Histories AscendingQuotes QuoteRuns AlikeRuns

/-- Two pools that differ in their accounts only, that is in what has been earned, minted or waited
for and in what the government gets of it. -/
structure SameMarket (pool twin : Pool) : Prop where
  swapFeeUnits : twin.swapFeeUnits = pool.swapFeeUnits
  sqrtPrice : twin.sqrtPrice = pool.sqrtPrice
  currentTick : twin.currentTick = pool.currentTick
  nearestTick : twin.nearestTick = pool.nearestTick
  baseLiquidity : twin.baseLiquidity = pool.baseLiquidity
  reinvestedLiquidity : twin.reinvestedLiquidity = pool.reinvestedLiquidity
  index : twin.index = pool.index
  nets : SameNets pool.records twin.records

/-- Two swaps that trade alike. -/
structure SameFill (fill other : Fill) : Prop where
  amountZero : other.amountZero = fill.amountZero
  amountOne : other.amountOne = fill.amountOne
  ticksCrossed : other.ticksCrossed = fill.ticksCrossed
  phase : other.phase = fill.phase
  market : SameMarket fill.pool other.pool

/-- Two checkpoints of the same quantity that a step does not tell apart. -/
inductive AlikeResumes : Resume → Resume → Prop
  | first : AlikeResumes none none
  | resumed {last : Amount} {checkpoint checkpoint' : RunState}
      (halike : Alike checkpoint checkpoint') :
      AlikeResumes (some (last, checkpoint)) (some (last, checkpoint'))

variable {pool twin : Pool} {trade trade' : Trade} {order : Order} {fill other : Fill}
variable {direction : Direction} {quantity : Amount} {entry entry' : RunState}
variable {resume resume' : Resume} {records records' : TickMap TickRecord} {a b : Filled}
variable {pending : List Amount} {quotes quotes' : List Quote} {amounts : List Word}
variable {token : Token} {side : Side}

theorem alike_of_enter (hmarket : SameMarket pool twin)
    (h : RunState.enter pool direction quantity = .ok entry)
    (h' : RunState.enter twin direction quantity = .ok entry') : Alike entry entry' := by
  obtain ⟨hfirst, hentry⟩ := enter_eq_ok.mp h
  obtain ⟨hfirst', hentry'⟩ := enter_eq_ok.mp h'
  have hsame : RunState.firstTick twin direction = RunState.firstTick pool direction := by
    unfold RunState.firstTick
    rw [hmarket.index, hmarket.nearestTick]
  rw [hsame, hfirst] at hfirst'
  rw [hentry, hentry']
  exact {
    remaining := rfl
    exchanged := rfl
    sqrtPrice := hmarket.sqrtPrice
    currentTick := hmarket.currentTick
    nextTick := (Except.ok.inj hfirst').symm
    baseLiquidity := hmarket.baseLiquidity
    reinvestedLiquidity := hmarket.reinvestedLiquidity
    ticksCrossed := rfl }

section Swapping

theorem sameTerms_tradeOf (order : Order) (hmarket : SameMarket pool twin) :
    SameTerms (tradeOf pool order) (tradeOf twin order) :=
  ⟨rfl, rfl, rfl, congrArg widen hmarket.swapFeeUnits⟩

/-- Where a swap succeeds on two pools that differ in their accounts only, it trades alike. -/
theorem sameFill_of_swap (hmarket : SameMarket pool twin) (h : swap pool order = .ok fill)
    (h' : swap twin order = .ok other) : SameFill fill other := by
  obtain ⟨entry, outcome, nearest, used, hrun, hused, rfl⟩ := exists_fillOf h
  obtain ⟨entry', outcome', nearest', used', hrun', hused', rfl⟩ := exists_fillOf h'
  have hentry : AlikePoints (entry, pool.records) (entry', twin.records) :=
    ⟨alike_of_enter hmarket hrun.enter hrun'.enter, hmarket.nets⟩
  have hreaches := hrun'.reaches
  have hends := hrun'.ends
  have hnearest := hrun'.nearest
  rw [hmarket.index] at hreaches hends hnearest
  obtain ⟨⟨-, hrecords⟩, hfinal, hphase⟩ :=
    alike_of_paths hentry (sameTerms_tradeOf order hmarket) hrun.reaches hrun.ends hreaches hends
  rw [hfinal.remaining] at hused'
  obtain rfl := Except.ok.inj (hused.symm.trans hused')
  have hsame : outcome'.final.nearestTick pool.index = outcome.final.nearestTick pool.index := by
    unfold RunState.nearestTick
    rw [hfinal.currentTick, hfinal.nextTick]
  rw [hsame, hrun.nearest] at hnearest
  have hlegs : byToken order.token used outcome'.final.exchanged =
      byToken order.token used outcome.final.exchanged := by
    rw [hfinal.exchanged]
  exact {
    amountZero := congrArg Prod.fst hlegs
    amountOne := congrArg Prod.snd hlegs
    ticksCrossed := hfinal.ticksCrossed
    phase := hphase
    market := {
      swapFeeUnits := hmarket.swapFeeUnits
      sqrtPrice := hfinal.sqrtPrice
      currentTick := hfinal.currentTick
      nearestTick := (Except.ok.inj hnearest).symm
      baseLiquidity := hfinal.baseLiquidity
      reinvestedLiquidity := hfinal.reinvestedLiquidity
      index := hmarket.index
      nets := hrecords } }

end Swapping

section Quoting

theorem alike_of_entryState (hmarket : SameMarket pool twin) (hresume : AlikeResumes resume resume')
    (h : entryState pool direction quantity resume = .ok entry)
    (h' : entryState twin direction quantity resume' = .ok entry') : Alike entry entry' := by
  cases hresume with
  | first => exact alike_of_enter hmarket (liftPool_eq_ok.mp h) (liftPool_eq_ok.mp h')
  | resumed halike =>
    obtain ⟨used, hused, h⟩ := bind_eq_ok.mp h
    obtain ⟨left, hleft, h⟩ := bind_eq_ok.mp h
    obtain ⟨used', hused', h'⟩ := bind_eq_ok.mp h'
    obtain ⟨left', hleft', h'⟩ := bind_eq_ok.mp h'
    rw [halike.remaining, hused] at hused'
    obtain rfl := Except.ok.inj hused'
    obtain rfl := Except.ok.inj (hleft.symm.trans hleft')
    cases h
    cases h'
    exact { halike with remaining := rfl }

theorem alike_of_attempt (hmarket : SameMarket pool twin) (hterms : SameTerms trade trade')
    (hresume : AlikeResumes resume resume') (hnets : SameNets records records')
    (h : attempt pool trade resume records quantity = .ok a)
    (h' : attempt twin trade' resume' records' quantity = .ok b) :
    (Alike a.outcome.checkpoint b.outcome.checkpoint ∧
      SameNets a.outcome.records b.outcome.records) ∧
      Alike a.outcome.final b.outcome.final ∧
      b.outcome.final.phase = a.outcome.final.phase := by
  obtain ⟨entry, outcome, hentry, hrun, rfl⟩ := attempt_eq_ok.mp h
  obtain ⟨entry', outcome', hentry', hrun', rfl⟩ := attempt_eq_ok.mp h'
  rw [hterms.direction] at hentry'
  rw [hmarket.index] at hrun'
  exact alike_of_simulate (alike_of_entryState hmarket hresume hentry hentry') hnets hterms hrun
    hrun'

theorem fruitless_iff {final final' : RunState} (halike : Alike final final')
    (hphase : final'.phase = final.phase) : final'.Fruitless ↔ final.Fruitless := by
  unfold RunState.Fruitless
  rw [hphase, halike.exchanged]

/-- The quantities of a trade are answered alike from checkpoints that are alike. -/
theorem same_of_answered (hmarket : SameMarket pool twin) (hterms : SameTerms trade trade')
    (hresume : AlikeResumes resume resume') (hnets : SameNets records records')
    (h : Answered pool trade resume records pending quotes)
    (h' : Answered twin trade' resume' records' pending quotes') : quotes' = quotes := by
  induction h generalizing resume' records' quotes' with
  | nil =>
    cases h'
    rfl
  | zero _ ih =>
    cases h' with
    | zero hlater' => rw [ih hresume hnets hlater']
    | unfilled _ hnonzero => exact absurd rfl hnonzero
    | filled hnonzero => exact absurd rfl hnonzero
  | unfilled rest hnonzero hattempt hfruitless =>
    cases h' with
    | zero => exact absurd rfl hnonzero
    | unfilled => rfl
    | filled _ hattempt' hfruitful' =>
      obtain ⟨-, hfinal, hphase⟩ :=
        alike_of_attempt hmarket hterms hresume hnets hattempt hattempt'
      exact absurd ((fruitless_iff hfinal hphase).mpr hfruitless) hfruitful'
  | filled hnonzero hattempt hfruitful _ houtput _ ih =>
    cases h' with
    | zero => exact absurd rfl hnonzero
    | unfilled _ _ hattempt' hfruitless' =>
      obtain ⟨-, hfinal, hphase⟩ :=
        alike_of_attempt hmarket hterms hresume hnets hattempt hattempt'
      exact absurd ((fruitless_iff hfinal hphase).mp hfruitless') hfruitful
    | filled _ hattempt' _ _ houtput' hlater' =>
      obtain ⟨⟨hcheckpoint, hrecords⟩, hfinal, -⟩ :=
        alike_of_attempt hmarket hterms hresume hnets hattempt hattempt'
      rw [hterms.side, hfinal.exchanged, houtput] at houtput'
      rw [ih (.resumed hcheckpoint) hrecords hlater', hfinal.ticksCrossed, Except.ok.inj houtput']

theorem same_of_quote (hmarket : SameMarket pool twin)
    (h : quote pool amounts token side = .ok quotes)
    (h' : quote twin amounts token side = .ok quotes') : quotes' = quotes := by
  obtain ⟨-, pending, hpending, -, hanswered⟩ := quote_eq_ok_iff.mp h
  obtain ⟨-, pending', hpending', -, hanswered'⟩ := quote_eq_ok_iff.mp h'
  obtain rfl := Except.ok.inj (hpending.symm.trans hpending')
  have hterms : SameTerms (batchTrade pool token side) (batchTrade twin token side) :=
    ⟨rfl, rfl, rfl, congrArg widen hmarket.swapFeeUnits⟩
  exact same_of_answered hmarket hterms .first hmarket.nets hanswered hanswered'

end Quoting

/-- The accounts of a pool have no influence on a trade or a quote that succeeds. -/
theorem trades_alike (hmarket : SameMarket pool twin) :
    (∀ order fill other, swap pool order = .ok fill → swap twin order = .ok other →
      SameFill fill other) ∧
    ∀ amounts token side quotes quotes', quote pool amounts token side = .ok quotes →
      quote twin amounts token side = .ok quotes' → quotes' = quotes :=
  ⟨fun _ _ _ => sameFill_of_swap hmarket, fun _ _ _ _ _ => same_of_quote hmarket⟩

/-- The pool with other accounts, also at the given tick. -/
def recounted (pool : Pool) (tick : Int) : Pool :=
  { pool with
    reinvestedAtMint := 99999
    feeGrowth := 7
    secondsPerLiquidity := 5
    secondsUpdatedAt := 3
    blockTime := 40
    reinvestmentSupply := 200000
    governmentFeeUnits := 20000
    records := pool.records.modify tick fun record =>
      { record with feeGrowthOutside := 9, secondsPerLiquidityOutside := 2 } }

theorem sameMarket_recounted (pool : Pool) (tick : Int) :
    SameMarket pool (recounted pool tick) where
  swapFeeUnits := rfl
  sqrtPrice := rfl
  currentTick := rfl
  nearestTick := rfl
  baseLiquidity := rfl
  reinvestedLiquidity := rfl
  index := rfl
  nets key := by
    unfold recounted
    rw [TickMap.get?_modify]
    split
    · rw [Option.map_map]
      rfl
    · rfl

/-- A sale that crosses a tick, on a pool and on one with other accounts. The two mint different
amounts of the reinvestment token. -/
theorem trades_alike_recounted :
    ∃ start pool fill other quotes quotes',
      Pool.create 1000 0x1000000000000000000000000 = .ok start ∧
      replay start [.deposit (-60) 60 1000000, .deposit (-120) 120 500000] = .ok pool ∧
      SameMarket pool (recounted pool 60) ∧
      swap pool (Order.unlimited .one ⟨6000, by decide, by decide⟩) = .ok fill ∧
      swap (recounted pool 60) (Order.unlimited .one ⟨6000, by decide, by decide⟩) = .ok other ∧
      quote pool [5000, 6000] .one .sell = .ok quotes ∧
      quote (recounted pool 60) [5000, 6000] .one .sell = .ok quotes' ∧
      fill.ticksCrossed = 1 ∧ fill.pool.reinvestmentSupply = 100021 ∧
      other.pool.reinvestmentSupply = 200044 ∧ SameFill fill other ∧ quotes' = quotes := by
  have hrun : (do
      let start ← liftPool (Pool.create 1000 0x1000000000000000000000000)
      let pool ← replay start [.deposit (-60) 60 1000000, .deposit (-120) 120 500000]
      let fill ← swap pool (Order.unlimited .one ⟨6000, by decide, by decide⟩)
      let other ← swap (recounted pool 60) (Order.unlimited .one ⟨6000, by decide, by decide⟩)
      let _ ← quote pool [5000, 6000] .one .sell
      let _ ← quote (recounted pool 60) [5000, 6000] .one .sell
      return decide (fill.ticksCrossed = 1 ∧ fill.pool.reinvestmentSupply = 100021 ∧
        other.pool.reinvestmentSupply = 200044)) = Except.ok true := by
    decide +kernel
  obtain ⟨start, hstart, hrun⟩ := bind_eq_ok.mp hrun
  obtain ⟨pool, hpool, hrun⟩ := bind_eq_ok.mp hrun
  obtain ⟨fill, hfill, hrun⟩ := bind_eq_ok.mp hrun
  obtain ⟨other, hother, hrun⟩ := bind_eq_ok.mp hrun
  obtain ⟨quotes, hquotes, hrun⟩ := bind_eq_ok.mp hrun
  obtain ⟨quotes', hquotes', hrun⟩ := bind_eq_ok.mp hrun
  obtain ⟨hcount, hsupply, hother'⟩ := of_decide_eq_true (Except.ok.inj hrun)
  have hmarket := sameMarket_recounted pool 60
  obtain ⟨hswaps, hquoted⟩ := trades_alike hmarket
  exact ⟨start, pool, fill, other, quotes, quotes', liftPool_eq_ok.mp hstart, hpool, hmarket, hfill,
    hother, hquotes, hquotes', hcount, hsupply, hother', hswaps _ _ _ hfill hother,
    hquoted _ _ _ _ _ hquotes hquotes'⟩

end ReinvestingPool.Proofs.AlikePools
