import ReinvestingPool.Proofs.Batches
import ReinvestingPool.Proofs.Corridors

/-!
Positions that a swap does not come near. A position both of whose ends lie outside the corridor of
a swap changes neither the entries nor the records that the swap looks at, and it is not active
where the swap begins, so the swap goes the same way with it as without it.
-/

namespace ReinvestingPool.Proofs.DistantPositions

open Failures Words Directions SignedAmounts TickMaps TickPrices TickIndexes Pools Positions
open PriceLimits Runs Simulations Swaps RestPrices StepEnds Paths RunEnds IndexChains Cursors Stops
open TickLadder PriceTicks Histories SwapRuns ActiveLiquidity Deposits CoherentPools Batches Corridors

/-- A range that lies behind the way from one tick to another, or beyond it by more than a step. -/
def OutOfReach (direction : Direction) (first last lower upper : Int) : Prop :=
  match direction with
  | .rising => upper ≤ first ∨ last + maxTickStep < lower
  | .falling => first < lower ∨ upper < last - maxTickStep

/-- Two swaps that trade the same and leave their pools at the same price with the same liquidity
and the same earnings. -/
structure SameTrade (fill other : Fill) : Prop where
  amountZero : other.amountZero = fill.amountZero
  amountOne : other.amountOne = fill.amountOne
  ticksCrossed : other.ticksCrossed = fill.ticksCrossed
  phase : other.phase = fill.phase
  sqrtPrice : other.pool.sqrtPrice = fill.pool.sqrtPrice
  currentTick : other.pool.currentTick = fill.pool.currentTick
  baseLiquidity : other.pool.baseLiquidity = fill.pool.baseLiquidity
  reinvestedLiquidity : other.pool.reinvestedLiquidity = fill.pool.reinvestedLiquidity
  reinvestedAtMint : other.pool.reinvestedAtMint = fill.pool.reinvestedAtMint
  feeGrowth : other.pool.feeGrowth = fill.pool.feeGrowth
  reinvestmentSupply : other.pool.reinvestmentSupply = fill.pool.reinvestmentSupply

instance (direction : Direction) (first last lower upper : Int) :
    Decidable (OutOfReach direction first last lower upper) := by
  cases direction <;> unfold OutOfReach <;> infer_instance

variable {pool last : Pool} {order : Order} {fill : Fill} {trade : Trade} {index : TickIndex}
variable {p c : Point} {final entry entered : RunState} {outcome : Outcome}
variable {direction : Direction} {lower upper tick first goal change nearest : Int}
variable {quantity : Amount} {liquidity : HalfWord}

section Ranges

theorem not_corridor_of_outOfReach (hfar : OutOfReach direction first goal lower upper)
    (hless : lower < upper) (hward : Onward direction first goal)
    (hcorridor : InCorridor direction first goal tick) :
    tick ≠ lower ∧ tick ≠ upper := by
  cases direction with
  | rising =>
    simp only [OutOfReach, Onward, InCorridor] at *
    omega
  | falling =>
    simp only [OutOfReach, Onward, InCorridor] at *
    omega

/-- The position is not active at the tick where the swap begins. -/
theorem not_around_of_outOfReach (hfar : OutOfReach direction first goal lower upper)
    (hward : Onward direction first goal) :
    ¬ (lower ≤ first ∧ first < upper) := by
  cases direction with
  | rising =>
    simp only [OutOfReach, Onward, maxTickStep] at *
    omega
  | falling =>
    simp only [OutOfReach, Onward, maxTickStep] at *
    omega

end Ranges

section Deposits

/-- A tick is an entry of both pools or of neither, and both have the same record for it. -/
def UnchangedAt (tick : Int) (pool last : Pool) : Prop :=
  (last.index.contains tick = true ↔ pool.index.contains tick = true) ∧
    last.records.get? tick = pool.records.get? tick

theorem unchangedAt_of_changeEnd {other : Int} (h : changeEnd tick change pool = (last, .ok ()))
    (hother : other ≠ tick) : UnchangedAt other pool last := by
  obtain ⟨middle, hnet, hindex⟩ := andThen_eq_ok.mp h
  obtain ⟨net, -, rfl⟩ := changeNet_eq_ok hnet
  obtain ⟨grown, added, hinsert, rfl⟩ := indexTick_eq_ok hindex
  constructor
  · exact (contains_insert hinsert).trans (or_iff_left hother)
  · exact (TickMap.get?_insert ..).trans (if_neg hother.symm)

/-- A position changes the pool at its ends only. -/
theorem unchangedAt_of_deposit (h : addPosition lower upper liquidity pool = (last, .ok ()))
    (hlower : tick ≠ lower) (hupper : tick ≠ upper) : UnchangedAt tick pool last := by
  obtain ⟨-, raised, ended, active, hraise, hend, hactive, hfind⟩ := addPosition_edits h
  obtain ⟨base, rfl, -⟩ := activate_eq_ok hactive
  obtain ⟨nearest, -, rfl⟩ := findNearest_eq_ok hfind
  obtain ⟨hentry, hrecord⟩ := unchangedAt_of_changeEnd hraise hlower
  obtain ⟨hentry', hrecord'⟩ := unchangedAt_of_changeEnd hend hupper
  exact ⟨hentry'.trans hentry, hrecord'.trans hrecord⟩

/-- A position that is not active leaves the active liquidity as it is. -/
theorem base_of_deposit (h : addPosition lower upper liquidity pool = (last, .ok ()))
    (haround : ¬ (lower ≤ pool.currentTick ∧ pool.currentTick < upper)) :
    last.baseLiquidity = pool.baseLiquidity := by
  obtain ⟨-, raised, ended, active, hraise, hend, hactive, hfind⟩ := addPosition_eq_ok h
  obtain ⟨base, rfl, hbase⟩ := activate_eq_ok hactive
  obtain ⟨nearest, -, rfl⟩ := findNearest_eq_ok hfind
  have htick : ended.currentTick = pool.currentTick := by
    rw [hend.frame, hraise.frame]
  have hkept : ended.baseLiquidity = pool.baseLiquidity := by
    rw [hend.frame, hraise.frame]
  rw [htick, if_neg haround, hkept] at hbase
  exact BitVec.eq_of_toNat_eq hbase

/-- A trade has the same terms with a position as without it. -/
theorem tradeOf_deposit (order : Order)
    (h : addPosition lower upper liquidity pool = (last, .ok ())) :
    tradeOf last order = tradeOf pool order := by
  rw [addPosition_frame h]
  rfl

/-- A swap sets out in the same state where the position is not active, up to the tick ahead. -/
theorem enter_deposit (h : addPosition lower upper liquidity pool = (last, .ok ()))
    (haround : ¬ (lower ≤ pool.currentTick ∧ pool.currentTick < upper))
    (hentry : RunState.enter pool direction quantity = .ok entry)
    (hentered : RunState.enter last direction quantity = .ok entered) :
    entered = facing entry entered.nextTick := by
  obtain ⟨-, hentry⟩ := enter_eq_ok.mp hentry
  obtain ⟨-, hentered⟩ := enter_eq_ok.mp hentered
  have hframe := addPosition_frame h
  have hbase := base_of_deposit h haround
  rw [hentry, hentered, hbase, hframe]
  rfl

end Deposits

/-- The checkpoint of a run is not past the tick at which the run ends. -/
theorem onward_of_ends (hchained : Chained index) (h : Placed index trade.direction p.1)
    (hshort : p.1.sqrtPrice.toNat < maxSqrtPrice.toNat) (hfee : trade.swapFee.toNat ≤ 200000)
    (hlimit : Before trade.direction p.1.sqrtPrice.toNat trade.limit.toNat)
    (hreaches : Reaches trade index p c) (hends : Ends trade index c final) :
    Onward trade.direction c.1.currentTick final.currentTick := by
  by_cases hover : c.1.Over trade.limit
  · rw [final_of_over hends hover]
    exact onward_self _ _
  · have hplaced := placed_of_reaches hchained h hreaches
    obtain ⟨-, hbelow⟩ := onwards_of_reaches hchained h hshort hreaches
    exact (rests_of_run hchained hplaced hbelow hfee (before_limit hreaches hlimit hover) .refl
      hends).onwards.tick

section Swapping

/-- Where the position lies outside the corridor, the swap sets out abreast of itself. -/
theorem abreast_of_deposit (hpool : Coherent pool)
    (hdeposit : addPosition lower upper liquidity pool = (last, .ok ()))
    (haround : ¬ (lower ≤ pool.currentTick ∧ pool.currentTick < upper))
    (hsame : ∀ tick, InCorridor direction pool.currentTick goal tick → UnchangedAt tick pool last)
    (hentry : RunState.enter pool direction quantity = .ok entry)
    (hentered : RunState.enter last direction quantity = .ok entered) :
    Abreast direction pool.index last.index pool.currentTick goal entry entered.nextTick
      pool.records last.records := by
  have hlast := coherent_of_deposit hpool hdeposit
  have hplaced := placed_of_enter hpool.greatest (bracketed_iff.mp hpool.bracketed) hpool.valid
    hentry
  have htwin := placed_of_enter hlast.greatest (bracketed_iff.mp hlast.bracketed) hlast.valid
    hentered
  rw [enter_deposit hdeposit haround hentry hentered] at htwin
  have hcurrent : entry.currentTick = pool.currentTick := by
    rw [(enter_eq_ok.mp hentry).2]
  refine ⟨hplaced, htwin, ?_, fun tick hcorridor => (hsame tick hcorridor).2⟩
  rw [hcurrent]
  exact onward_self _ _

/-- The checkpoint of a swap is not past the tick at which the swap ends. -/
theorem onward_of_swap (hpool : Coherent pool) (hrun : SwapRun pool order entry outcome nearest) :
    Onward (heading order) outcome.checkpoint.currentTick outcome.final.currentTick := by
  obtain ⟨hchained, -⟩ := validate_eq_ok hrun.valid
  have hplaced : Placed pool.index (tradeOf pool order).direction entry :=
    placed_of_enter hpool.greatest (bracketed_iff.mp hpool.bracketed) hrun.valid hrun.enter
  have hunits := toNat_swapFee hrun
  have hshort : entry.sqrtPrice.toNat < maxSqrtPrice.toNat := by
    obtain ⟨hinside, -⟩ := validate_iff.mp hrun.valid
    rw [(enter_eq_ok.mp hrun.enter).2]
    exact (exists_tickAt_iff.mp hinside).2
  exact onward_of_ends (p := (entry, pool.records)) hchained hplaced hshort (by omega)
    hrun.entry_before_limit hrun.reaches hrun.ends

/-- A swap on a coherent pool does not see a position that it does not come near. -/
theorem swap_unreached (hpool : Coherent pool) (h : swap pool order = .ok fill)
    (hdeposit : addPosition lower upper liquidity pool = (last, .ok ()))
    (hfar : OutOfReach (heading order) pool.currentTick fill.pool.currentTick lower upper) :
    ∃ other, swap last order = .ok other ∧ SameTrade fill other := by
  obtain ⟨-, hward, -⟩ := rests_of_swap hpool h
  obtain ⟨hless, -⟩ := addPosition_edits hdeposit
  have hsame : ∀ tick, InCorridor (heading order) pool.currentTick fill.pool.currentTick tick →
      UnchangedAt tick pool last := by
    intro tick hcorridor
    obtain ⟨hlower, hupper⟩ := not_corridor_of_outOfReach hfar hless hward hcorridor
    exact unchangedAt_of_deposit hdeposit hlower hupper
  obtain ⟨entry, outcome, nearest, used, hrun, hused, rfl⟩ := exists_fillOf h
  have hlast := coherent_of_deposit hpool hdeposit
  obtain ⟨hchained, -⟩ := validate_eq_ok hrun.valid
  obtain ⟨hothers, -⟩ := validate_eq_ok hlast.valid
  obtain ⟨entered, hentered⟩ := exists_enter order.quantity hlast.valid
  have haround := not_around_of_outOfReach hfar hward
  have hentries : SameEntries (tradeOf pool order).direction pool.currentTick
      outcome.final.currentTick pool.index last.index := fun tick hcorridor =>
    (hsame tick hcorridor).1
  obtain ⟨after, left, hreaches, hends⟩ := run_facing (p := (entry, pool.records)) hchained hothers
    hentries (abreast_of_deposit hpool hdeposit haround hsame hrun.enter hentered) hrun.reaches
    hrun.ends (onward_of_swap hpool hrun)
  have hrun' : runFrom (tradeOf last order) last.index entered entered last.records =
      .ok ⟨facing outcome.final after, facing outcome.checkpoint after, left⟩ := by
    rw [tradeOf_deposit order hdeposit, enter_deposit hdeposit haround hrun.enter hentered]
    exact runFrom_eq_ok.mpr ⟨hreaches, hends⟩
  have hahead : LimitAhead (heading order) last.sqrtPrice order.limit := by
    rw [addPosition_frame hdeposit]
    exact hrun.ahead
  obtain ⟨nearest', used', hused', hfill⟩ :=
    fill_of_run hrun.quantity hlast.valid hahead hentered hrun'
  obtain rfl := Except.ok.inj (hused.symm.trans hused')
  exact ⟨_, hfill, ⟨rfl, rfl, rfl, rfl, rfl, rfl, rfl, rfl, rfl, rfl, rfl⟩⟩

end Swapping

/-- A sale that crosses a tick. The next one is the highest tick of all, or just out of reach. -/
theorem swap_unreached_sale :
    ∃ start pool fill last other, Pool.create 1000 0x1000000000000000000000000 = .ok start ∧
      addPosition (-60) 60 1000000 start = (pool, .ok ()) ∧ Coherent pool ∧
      swap pool (.unlimited .one ⟨6000, by decide, by decide⟩) = .ok fill ∧
      fill.ticksCrossed = 1 ∧ fill.pool.currentTick = 584 ∧
      addPosition 1065 1140 3000000 pool = (last, .ok ()) ∧
      OutOfReach .rising pool.currentTick fill.pool.currentTick 1065 1140 ∧
      pool.index.next 60 = .ok maxTick ∧ last.index.next 60 = .ok 1065 ∧
      swap last (.unlimited .one ⟨6000, by decide, by decide⟩) = .ok other ∧
      SameTrade fill other := by
  have hrun : (do
      let start ← liftPool (Pool.create 1000 0x1000000000000000000000000)
      let pool ← Event.apply start (.deposit (-60) 60 1000000)
      let fill ← swap pool (.unlimited .one ⟨6000, by decide, by decide⟩)
      let last ← Event.apply pool (.deposit 1065 1140 3000000)
      return decide (fill.ticksCrossed = 1 ∧ fill.pool.currentTick = 584 ∧
        OutOfReach .rising pool.currentTick fill.pool.currentTick 1065 1140 ∧
        pool.index.next 60 = .ok maxTick ∧ last.index.next 60 = .ok 1065)) = Except.ok true := by
    decide +kernel
  obtain ⟨start, hstart, hrun⟩ := bind_eq_ok.mp hrun
  obtain ⟨pool, hpool, hrun⟩ := bind_eq_ok.mp hrun
  obtain ⟨fill, hfill, hrun⟩ := bind_eq_ok.mp hrun
  obtain ⟨last, hlast, hrun⟩ := bind_eq_ok.mp hrun
  obtain ⟨hcrossed, htick, hfar, hnext, hadded⟩ := of_decide_eq_true (Except.ok.inj hrun)
  rw [liftPool_eq_ok] at hstart
  rw [apply_deposit_eq_ok] at hpool hlast
  have hcoherent := coherent_of_deposit (coherent_of_create hstart) hpool
  obtain ⟨other, hother, hsame⟩ := swap_unreached hcoherent hfill hlast hfar
  exact ⟨start, pool, fill, last, other, hstart, hpool, hcoherent, hfill, hcrossed, htick, hlast,
    hfar, hnext, hadded, hother, hsame⟩

end ReinvestingPool.Proofs.DistantPositions
