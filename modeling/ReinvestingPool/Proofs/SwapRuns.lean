import ReinvestingPool.Proofs.Histories
import ReinvestingPool.Proofs.IndexChains
import ReinvestingPool.Proofs.Detours

/-!
The run that a swap makes. A swap that succeeds has run from the state in which its quantity enters
the pool, and the pool after it is where that run ended. Its price is past the limit exactly where
the step that uses up the quantity overruns the limit.
-/

namespace ReinvestingPool.Proofs.SwapRuns

open Failures Words Directions Scales SignedAmounts TickMaps TickPrices TickIndexes Pools
open PriceLimits Runs Simulations Swaps RestPrices Paths RunEnds LargerAmounts IndexChains Histories

/-- The direction in which an order moves the price. -/
def heading (order : Order) : Direction := travel (sideOf order.quantity) order.token

/-- The trade that an order becomes on a pool. -/
def tradeOf (pool : Pool) (order : Order) : Trade where
  token := order.token
  side := sideOf order.quantity
  limit := order.limit
  swapFee := widen pool.swapFeeUnits
  governmentFee := widen pool.governmentFeeUnits
  blockTime := pool.blockTime

/-- The states that a swap passes through, with the records that it finds there. -/
def Visits (pool : Pool) (order : Order) (q : Point) : Prop :=
  ∃ entry, RunState.enter pool (heading order) order.quantity = .ok entry ∧
    Reaches (tradeOf pool order) pool.index (entry, pool.records) q

variable {pool : Pool} {order : Order} {entry : RunState} {outcome : Outcome} {nearest : Int}
variable {fill : Fill}

theorem tradeOn_eq_ok {trade : Trade} :
    Trade.on pool order.token (sideOf order.quantity) (some order.limit) = .ok trade ↔
      LimitAhead (heading order) pool.sqrtPrice order.limit ∧ trade = tradeOf pool order := by
  unfold Trade.on
  simp only [Option.getD_some]
  split
  · rename_i hahead
    rw [Except.ok.injEq]
    exact ⟨fun h => ⟨hahead, h.symm⟩, fun h => h.2.symm⟩
  · rename_i hnot
    exact iff_of_false (fun h => by cases h) fun h => hnot h.1

theorem enter_eq_ok {direction : Direction} {quantity : Amount} :
    RunState.enter pool direction quantity = .ok entry ↔
      RunState.firstTick pool direction = .ok entry.nextTick ∧
      entry = {
        remaining := quantity
        exchanged := 0
        sqrtPrice := pool.sqrtPrice
        currentTick := pool.currentTick
        nextTick := entry.nextTick
        baseLiquidity := pool.baseLiquidity
        reinvestedLiquidity := pool.reinvestedLiquidity
        reinvestedAtMint := pool.reinvestedAtMint
        feeGrowth := pool.feeGrowth
        secondsPerLiquidity := pool.secondsPerLiquidity
        secondsUpdatedAt := pool.secondsUpdatedAt
        reinvestmentSupply := pool.reinvestmentSupply
        governmentTokens := 0
        providerTokens := 0
        ticksCrossed := 0
        phase := .advancing } := by
  constructor
  · intro h
    obtain ⟨nextTick, hnext, h⟩ := bind_eq_ok.mp h
    cases h
    exact ⟨hnext, rfl⟩
  · intro h
    rcases h with ⟨hnext, hentry⟩
    rw [hentry]
    exact bind_eq_ok.mpr ⟨entry.nextTick, hnext, rfl⟩

theorem simulate_enter {direction : Direction} {quantity : Amount} (trade : Trade)
    (index : TickIndex) (records : TickMap TickRecord)
    (h : RunState.enter pool direction quantity = .ok entry) :
    simulate trade index entry records = runFrom trade index entry entry records := by
  have hphase : { entry with phase := Phase.advancing } = entry := by
    rw [(enter_eq_ok.mp h).2]
  unfold simulate
  rw [hphase]

/-- The run of a swap, from where its quantity enters the pool short of the limit. -/
structure SwapRun (pool : Pool) (order : Order) (entry : RunState) (outcome : Outcome)
    (nearest : Int) : Prop where
  quantity : order.quantity ≠ 0
  valid : pool.validate = .ok ()
  ahead : LimitAhead (heading order) pool.sqrtPrice order.limit
  enter : RunState.enter pool (heading order) order.quantity = .ok entry
  reaches : Reaches (tradeOf pool order) pool.index (entry, pool.records)
    (outcome.checkpoint, outcome.records)
  ends : Ends (tradeOf pool order) pool.index (outcome.checkpoint, outcome.records) outcome.final
  nearest : outcome.final.nearestTick pool.index = .ok nearest

/-- What a swap reports of its run, which has used `used` of the quantity. -/
def fillOf (pool : Pool) (order : Order) (outcome : Outcome) (nearest : Int) (used : Amount) :
    Fill where
  amountZero := (byToken order.token used outcome.final.exchanged).1
  amountOne := (byToken order.token used outcome.final.exchanged).2
  ticksCrossed := outcome.final.ticksCrossed
  phase := outcome.final.phase
  pool := poolAfter pool outcome nearest

theorem exists_fillOf (h : swap pool order = .ok fill) :
    ∃ entry outcome nearest used, SwapRun pool order entry outcome nearest ∧
      order.quantity.subChecked outcome.final.remaining = .ok used ∧
      fill = fillOf pool order outcome nearest used := by
  unfold swap at h
  split at h
  · cases h
  · rename_i hquantity
    obtain ⟨⟨⟩, hvalid, h⟩ := bind_eq_ok.mp h
    obtain ⟨trade, htrade, h⟩ := bind_eq_ok.mp h
    obtain ⟨entry, hentry, h⟩ := bind_eq_ok.mp h
    obtain ⟨outcome, hrun, h⟩ := bind_eq_ok.mp h
    obtain ⟨used, hused, h⟩ := bind_eq_ok.mp h
    obtain ⟨nearest, hnearest, h⟩ := bind_eq_ok.mp h
    cases h
    rw [liftPool_eq_ok] at hvalid hentry hnearest
    rw [liftArithmetic_eq_ok] at hused
    rw [mapError_eq_ok, tradeOn_eq_ok] at htrade
    obtain ⟨hahead, rfl⟩ := htrade
    rw [simulate_enter _ _ _ hentry] at hrun
    obtain ⟨hreaches, hends⟩ := runFrom_eq_ok.mp hrun
    exact ⟨entry, outcome, nearest, used,
      ⟨hquantity, hvalid, hahead, hentry, hreaches, hends, hnearest⟩, hused, rfl⟩

/-- A swap that succeeds leaves the pool where its run has ended. -/
theorem swap_eq_ok (h : swap pool order = .ok fill) :
    ∃ entry outcome nearest, SwapRun pool order entry outcome nearest ∧
      fill.pool = poolAfter pool outcome nearest := by
  obtain ⟨entry, outcome, nearest, used, hrun, -, rfl⟩ := exists_fillOf h
  exact ⟨entry, outcome, nearest, hrun, rfl⟩

/-- A pool is valid where its price, its fees and its index are. -/
theorem validate_iff :
    pool.validate = .ok () ↔
      (∃ tick, tickAt pool.sqrtPrice = .ok tick) ∧ checkSwapFee pool.swapFeeUnits = .ok () ∧
        checkGovernmentFee pool.governmentFeeUnits = .ok () ∧ pool.index.validate = .ok () ∧
        pool.index.contains pool.nearestTick = true := by
  constructor
  · intro h
    obtain ⟨tick, htick, h⟩ := bind_eq_ok.mp h
    obtain ⟨⟨⟩, hfee, h⟩ := bind_eq_ok.mp h
    obtain ⟨⟨⟩, hgovernment, h⟩ := bind_eq_ok.mp h
    obtain ⟨⟨⟩, hindex, h⟩ := bind_eq_ok.mp h
    refine ⟨⟨tick, htick⟩, hfee, hgovernment, hindex, ?_⟩
    by_contra habsent
    rw [Bool.not_eq_true] at habsent
    rw [habsent] at h
    cases h
  · intro h
    rcases h with ⟨⟨tick, htick⟩, hfee, hgovernment, hindex, hnearest⟩
    refine bind_eq_ok.mpr ⟨tick, htick, bind_eq_ok.mpr ⟨(), hfee, ?_⟩⟩
    refine bind_eq_ok.mpr ⟨(), hgovernment, bind_eq_ok.mpr ⟨(), hindex, ?_⟩⟩
    rw [hnearest]
    rfl

theorem validate_eq_ok (h : pool.validate = .ok ()) :
    Chained pool.index ∧ pool.index.contains pool.nearestTick = true ∧
      pool.swapFeeUnits.toNat < 100000 := by
  obtain ⟨-, hfee, -, hindex, hnearest⟩ := validate_iff.mp h
  refine ⟨chained_of_validate hindex, hnearest, ?_⟩
  unfold checkSwapFee at hfee
  split at hfee
  · rename_i hless
    rw [toNat_feeUnit] at hless
    exact hless
  · cases hfee

/-- The tick ahead of a swap is an entry of the index. -/
theorem contains_of_enter {direction : Direction} {quantity : Amount}
    (hvalid : pool.validate = .ok ()) (h : RunState.enter pool direction quantity = .ok entry) :
    pool.index.contains entry.nextTick = true := by
  obtain ⟨hchained, hnearest, -⟩ := validate_eq_ok hvalid
  have hfirst := (enter_eq_ok.mp h).1
  cases direction with
  | rising => exact contains_of_next hchained hfirst
  | falling => exact Except.ok.inj hfirst ▸ hnearest

theorem exists_enter {direction : Direction} (quantity : Amount)
    (hvalid : pool.validate = .ok ()) :
    ∃ entry, RunState.enter pool direction quantity = .ok entry := by
  obtain ⟨-, hnearest, -⟩ := validate_eq_ok hvalid
  have hfirst : ∃ tick, RunState.firstTick pool direction = .ok tick := by
    cases direction with
    | rising => exact next_of_contains hnearest
    | falling => exact ⟨pool.nearestTick, rfl⟩
  obtain ⟨tick, htick⟩ := hfirst
  exact ⟨_, bind_eq_ok.mpr ⟨tick, htick, rfl⟩⟩

theorem enter_holding {direction : Direction} {a : Amount} (b : Amount)
    (h : RunState.enter pool direction a = .ok entry) :
    RunState.enter pool direction b = .ok (holding entry b) := by
  obtain ⟨hfirst, hentry⟩ := enter_eq_ok.mp h
  refine enter_eq_ok.mpr ⟨hfirst, ?_⟩
  rw [hentry]
  rfl

/-- A limit that is ahead of the price is a positive number, and the price is not there yet. -/
theorem limit_of_ahead {direction : Direction} {sqrtPrice limit : Word}
    (h : LimitAhead direction sqrtPrice limit) : 0 < limit.toNat ∧ sqrtPrice ≠ limit := by
  unfold LimitAhead at h
  cases direction with
  | rising =>
    obtain ⟨hprice, -⟩ := h
    rw [BitVec.lt_def] at hprice
    exact ⟨by omega, fun hsame => by rw [hsame] at hprice; omega⟩
  | falling =>
    obtain ⟨hprice, hbound⟩ := h
    rw [BitVec.lt_def] at hprice hbound
    exact ⟨by omega, fun hsame => by rw [hsame] at hprice; omega⟩

theorem SwapRun.entry_not_over (h : SwapRun pool order entry outcome nearest) :
    ¬ entry.Over (tradeOf pool order).limit := by
  rw [(enter_eq_ok.mp h.enter).2]
  intro hgiven
  rcases hgiven with hzero | hlimit
  · exact h.quantity hzero
  · exact (limit_of_ahead h.ahead).2 hlimit

theorem SwapRun.entry_before_limit (h : SwapRun pool order entry outcome nearest) :
    Before (heading order) entry.sqrtPrice.toNat order.limit.toNat := by
  have hahead := h.ahead
  rw [(enter_eq_ok.mp h.enter).2]
  revert hahead
  cases heading order with
  | rising => exact fun hahead => hahead.1
  | falling => exact fun hahead => hahead.1

theorem SwapRun.visits_iff {q : Point} (h : SwapRun pool order entry outcome nearest) :
    Visits pool order q ↔ Reaches (tradeOf pool order) pool.index (entry, pool.records) q := by
  constructor
  · intro hgiven
    rcases hgiven with ⟨other, hother, hreaches⟩
    rw [h.enter] at hother
    obtain rfl := Except.ok.inj hother
    exact hreaches
  · intro hreaches
    exact ⟨entry, h.enter, hreaches⟩

/-- A swap leaves the price past its limit exactly where one of its steps uses up the quantity and
overruns the limit. -/
theorem swap_past_limit_iff (h : swap pool order = .ok fill) :
    Before (heading order) order.limit.toNat fill.pool.sqrtPrice.toNat ↔
      ∃ q, Visits pool order q ∧ ¬ q.1.Over order.limit ∧ UsesUp (tradeOf pool order) q.1 ∧
        (restUsage (tradeOf pool order) q.1).Overruns
          (oneBeyond (heading order) order.limit.toNat) := by
  obtain ⟨entry, outcome, nearest, hrun, hpool⟩ := swap_eq_ok h
  have hpast := past_limit_iff hrun.reaches hrun.ends hrun.entry_not_over
    (limit_of_ahead hrun.ahead).1
  rw [hpool]
  exact Iff.trans hpast (exists_congr fun q => and_congr_left fun _ => hrun.visits_iff.symm)

/-- A sale that does not come near its limit, on a pool without positions. -/
theorem swap_short_of_limit :
    ∃ pool fill, Pool.create 1000 0x1000000000000000000000000 = .ok pool ∧
      swap pool ⟨.zero, ⟨150, by decide, by decide⟩, 79070813169550379477963957859⟩ = .ok fill ∧
      ¬ ∃ q, Visits pool ⟨.zero, ⟨150, by decide, by decide⟩, 79070813169550379477963957859⟩ q ∧
        ¬ q.1.Over 79070813169550379477963957859 ∧
        UsesUp (tradeOf pool
          ⟨.zero, ⟨150, by decide, by decide⟩, 79070813169550379477963957859⟩) q.1 ∧
        (restUsage (tradeOf pool
          ⟨.zero, ⟨150, by decide, by decide⟩, 79070813169550379477963957859⟩) q.1).Overruns
          79070813169550379477963957858 := by
  have hrun : (do
      let pool ← liftPool (Pool.create 1000 0x1000000000000000000000000)
      let fill ← swap pool ⟨.zero, ⟨150, by decide, by decide⟩, 79070813169550379477963957859⟩
      return decide (79070813169550379477963957859 ≤ fill.pool.sqrtPrice.toNat)) =
        Except.ok true := by
    decide +kernel
  obtain ⟨pool, hpool, hrun⟩ := bind_eq_ok.mp hrun
  obtain ⟨fill, hfill, hrun⟩ := bind_eq_ok.mp hrun
  have hkept := of_decide_eq_true (Except.ok.inj hrun)
  exact ⟨pool, fill, liftPool_eq_ok.mp hpool, hfill,
    fun hpast => Nat.not_lt_of_le hkept ((swap_past_limit_iff hfill).mpr hpast)⟩

/-- A sale of one unit more than this one would be stopped at the limit, but its own rest price is
beyond it. -/
theorem swap_passes_limit :
    ¬ ∀ (pool : Pool) (order : Order) (fill : Fill), Reachable pool →
      swap pool order = .ok fill →
      ¬ Before (heading order) order.limit.toNat fill.pool.sqrtPrice.toNat := by
  intro hclaim
  have hrun : (do
      let pool ← liftPool (Pool.create 1000 0x1000000000000000000000000)
      let fill ← swap pool ⟨.zero, ⟨199, by decide, by decide⟩, 79070813169550379477963957859⟩
      return decide (fill.pool.sqrtPrice.toNat < 79070813169550379477963957859)) =
        Except.ok true := by
    decide +kernel
  obtain ⟨pool, hpool, hrun⟩ := bind_eq_ok.mp hrun
  obtain ⟨fill, hfill, hrun⟩ := bind_eq_ok.mp hrun
  have hpast := of_decide_eq_true (Except.ok.inj hrun)
  exact hclaim pool _ fill (reachable_create (liftPool_eq_ok.mp hpool)) hfill hpast

end ReinvestingPool.Proofs.SwapRuns
