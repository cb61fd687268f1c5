import ReinvestingPool.Proofs.Deposits
import ReinvestingPool.Proofs.Histories
import ReinvestingPool.Proofs.IndexInsertions
import ReinvestingPool.Proofs.PoolHistories

/-!
Pools whose price belongs to their current tick and whose nearest tick is the entry below it. A new
pool is of that kind and stays so where positions are added. A swap on such a pool moves price and
tick in its direction only, and leaves a valid pool whose price belongs to its current tick again.
-/

namespace ReinvestingPool.Proofs.CoherentPools

open Failures Words Directions TickMaps TickPrices TickIndexes Pools Positions PriceLimits Runs
open Simulations Swaps RestPrices StepEnds Paths StepFrames RunEnds TickLadder IndexChains
open PriceTicks IndexInsertions RunTicks Cursors Stops Histories SwapRuns ActiveLiquidity Deposits

/-- The price lies between that of the current tick and that of the next one. -/
def Bracketed (pool : Pool) : Prop :=
  ∃ low high, sqrtPriceAt pool.currentTick = .ok low ∧
    sqrtPriceAt (pool.currentTick + 1) = .ok high ∧ low ≤ pool.sqrtPrice ∧ pool.sqrtPrice ≤ high

structure Coherent (pool : Pool) : Prop where
  valid : pool.validate = .ok ()
  bracketed : Bracketed pool
  nearest : pool.nearestTick ≤ pool.currentTick
  next : ∃ next, pool.index.next pool.nearestTick = .ok next ∧ pool.currentTick < next

variable {pool last : Pool} {order : Order} {fill : Fill} {trade : Trade} {index : TickIndex}
variable {s t u moved final : RunState} {p q c : Point} {direction : Direction}
variable {tick change lower upper : Int} {liquidity : HalfWord}

theorem bracketed_iff : Bracketed pool ↔ Within pool.currentTick pool.sqrtPrice := by
  unfold Bracketed
  constructor
  · intro h
    rcases h with ⟨low, high, hlow, hhigh, hreached, hshort⟩
    obtain ⟨⟨hfrom, -⟩, rfl⟩ := sqrtPriceAt_iff.mp hlow
    obtain ⟨⟨-, hto⟩, rfl⟩ := sqrtPriceAt_iff.mp hhigh
    rw [BitVec.le_def, toNat_ratio hfrom (by omega)] at hreached
    rw [BitVec.le_def, toNat_ratio (by omega) hto] at hshort
    exact ⟨hfrom, by omega, hreached, hshort⟩
  · intro h
    obtain ⟨hfrom, hto, hreached, hshort⟩ := h
    refine ⟨_, _, sqrtPriceAt_iff.mpr ⟨⟨hfrom, Int.le_of_lt hto⟩, rfl⟩,
      sqrtPriceAt_iff.mpr ⟨⟨by omega, hto⟩, rfl⟩, ?_, ?_⟩
    · rw [BitVec.le_def, toNat_ratio hfrom (Int.le_of_lt hto)]
      exact hreached
    · rw [BitVec.le_def, toNat_ratio (by omega) hto]
      exact hshort

section Nearest

/-- The nearest tick of a coherent pool is the greatest entry at or below the current one. -/
theorem Coherent.greatest (h : Coherent pool) :
    Greatest pool.index pool.currentTick pool.nearestTick := by
  obtain ⟨hchained, hentry, -⟩ := validate_eq_ok h.valid
  obtain ⟨next, hnext, hless⟩ := h.next
  have hwithin := bracketed_iff.mp h.bracketed
  have hbelow : pool.nearestTick ≠ maxTick :=
    Int.ne_of_lt (Int.lt_of_le_of_lt h.nearest hwithin.high)
  have hadjacent := adjacent_of_next hchained hbelow hnext
  refine ⟨hentry, h.nearest, fun other hother hle => ?_⟩
  by_contra hbeyond
  have hpast := hadjacent.none_between other hother (Int.not_le.mp hbeyond)
  omega

theorem coherent_of_greatest (hvalid : pool.validate = .ok ()) (hbracketed : Bracketed pool)
    (hgreatest : Greatest pool.index pool.currentTick pool.nearestTick) : Coherent pool := by
  obtain ⟨hchained, hentry, -⟩ := validate_eq_ok hvalid
  obtain ⟨next, hnext⟩ := next_of_contains hentry
  refine ⟨hvalid, hbracketed, hgreatest.le, next, hnext, ?_⟩
  have hwithin := bracketed_iff.mp hbracketed
  have hle := hgreatest.le
  have hhigh := hwithin.high
  have hadjacent := adjacent_of_next hchained (by omega) hnext
  by_contra hbehind
  have hback := hgreatest.greatest next hadjacent.right (Int.not_lt.mp hbehind)
  have hlt := hadjacent.lt
  omega

end Nearest

section Beginnings

theorem coherent_of_create {swapFeeUnits : ShortWord} {sqrtPrice : Word}
    (h : Pool.create swapFeeUnits sqrtPrice = .ok pool) : Coherent pool := by
  have haligned := PoolHistories.aligned_of_create h
  refine coherent_of_greatest ?_ (bracketed_iff.mpr haligned.within) haligned.nearest
  obtain ⟨⟨⟩, hfee, h⟩ := bind_eq_ok.mp h
  obtain ⟨tick, htick, h⟩ := bind_eq_ok.mp h
  cases h
  exact validate_iff.mpr ⟨⟨tick, htick⟩, hfee, rfl, validate_of_chained chained_empty, rfl⟩

theorem chained_of_changeEnd (hchained : Chained pool.index)
    (h : changeEnd tick change pool = (last, .ok ())) : Chained last.index := by
  obtain ⟨middle, hnet, hindex⟩ := andThen_eq_ok.mp h
  obtain ⟨net, -, rfl⟩ := changeNet_eq_ok hnet
  obtain ⟨grown, added, hinsert, rfl⟩ := indexTick_eq_ok hindex
  exact chained_of_insert hchained hinsert

/-- A valid pool stays valid with a position, and its nearest tick is found anew. -/
theorem valid_of_deposit (hvalid : pool.validate = .ok ())
    (h : addPosition lower upper liquidity pool = (last, .ok ())) :
    last.validate = .ok () ∧ Greatest last.index last.currentTick last.nearestTick := by
  have hframe := addPosition_frame h
  obtain ⟨-, raised, ended, active, hlower, hupper, hactive, hfind⟩ := addPosition_edits h
  obtain ⟨base, rfl, -⟩ := activate_eq_ok hactive
  obtain ⟨nearest, hgreatest, rfl⟩ := findNearest_eq_ok hfind
  obtain ⟨hprice, hfee, hgovernment, hindex, -⟩ := validate_iff.mp hvalid
  have hchained := chained_of_changeEnd
    (chained_of_changeEnd (chained_of_validate hindex) hlower) hupper
  refine ⟨validate_iff.mpr ⟨?_, ?_, ?_, validate_of_chained hchained, hgreatest.entry⟩, hgreatest⟩
  · rw [hframe]
    exact hprice
  · rw [hframe]
    exact hfee
  · rw [hframe]
    exact hgovernment

theorem coherent_of_deposit (hpool : Coherent pool)
    (h : addPosition lower upper liquidity pool = (last, .ok ())) : Coherent last := by
  obtain ⟨hvalid, hgreatest⟩ := valid_of_deposit hpool.valid h
  refine coherent_of_greatest hvalid ?_ hgreatest
  rw [addPosition_frame h]
  exact hpool.bracketed

end Beginnings

section Runs

/-- The later of two states is not behind the earlier one, in its price or in its tick. -/
structure Onwards (direction : Direction) (s t : RunState) : Prop where
  price : ¬ Before direction t.sqrtPrice.toNat s.sqrtPrice.toNat
  tick : Onward direction s.currentTick t.currentTick

theorem onwards_self (direction : Direction) (s : RunState) : Onwards direction s s :=
  ⟨not_before_self _ _, onward_self _ _⟩

theorem Onwards.trans (hst : Onwards direction s t) (htu : Onwards direction t u) :
    Onwards direction s u := by
  obtain ⟨hfirst, hfrom⟩ := hst
  obtain ⟨hsecond, hto⟩ := htu
  unfold Before at hfirst hsecond
  unfold Onward at hfrom hto
  constructor
  · unfold Before
    cases direction with
    | rising =>
      simp only at hfirst hsecond ⊢
      omega
    | falling =>
      simp only at hfirst hsecond ⊢
      omega
  · unfold Onward
    cases direction with
    | rising => exact Int.le_trans hfrom hto
    | falling => exact Int.le_trans hto hfrom

/-- The price of an edge ahead is not behind a price that belongs to the current tick. -/
theorem edge_not_behind {current edge next : Int} {price : Word} (hwithin : Within current price)
    (hbetween : Between direction current edge next) (hinside : minTick ≤ edge ∧ edge ≤ maxTick) :
    ¬ Before direction (ratio edge) price.toNat := by
  obtain ⟨hfrom, hto, hreached, hshort⟩ := hwithin
  cases direction with
  | rising =>
    have hstep := ratio_mono (a := current + 1) (by omega) hbetween.1 hinside.2
    exact Nat.not_lt.mpr (Nat.le_trans hshort hstep)
  | falling =>
    have hstep := ratio_mono hinside.1 hbetween.2 (Int.le_of_lt hto)
    exact Nat.not_lt.mpr (Nat.le_trans hstep hreached)

/-- An edge ahead is onwards from the current tick, and it is short of the highest price where the
run lands below the highest tick. -/
theorem onwards_of_edge {current edge next : Int} {price : Word} (hwithin : Within current price)
    (hbetween : Between direction current edge next) (hlow : minTick ≤ edge)
    (hland : landingTick direction edge < maxTick) :
    ¬ Before direction (ratio edge) price.toNat ∧
      Onward direction current (landingTick direction edge) ∧
      ratio edge < maxSqrtPrice.toNat := by
  have hhigh := hwithin.high
  cases direction with
  | rising =>
    change edge < maxTick at hland
    exact ⟨edge_not_behind hwithin hbetween ⟨hlow, Int.le_of_lt hland⟩, Int.le_of_lt hbetween.1,
      ratio_lt_top hlow hland⟩
  | falling =>
    have hle : edge ≤ current := hbetween.2
    refine ⟨edge_not_behind hwithin hbetween ⟨hlow, by omega⟩, ?_, ratio_lt_top hlow (by omega)⟩
    show edge - 1 ≤ current
    omega

theorem onwards_of_moves (hchained : Chained index) (h : Placed index trade.direction p.1)
    (hmoves : Moves trade index p q) :
    Onwards trade.direction p.1 q.1 ∧ q.1.sqrtPrice.toNat < maxSqrtPrice.toNat := by
  obtain ⟨moved, hsteps, hedge, hprice, -, -, -, hcurrent⟩ := steps_of_moves hmoves
  have hlanded := price_of_steps hsteps hedge
  rw [← hprice] at hlanded
  have hland := (placed_of_moves hchained h hmoves).within.high
  rw [hcurrent] at hland
  obtain ⟨hforward, honward, hshort⟩ :=
    onwards_of_edge h.within (between_edgeTick h.ahead) hsteps.1.1 hland
  rw [← hlanded] at hforward hshort
  refine ⟨⟨hforward, ?_⟩, hshort⟩
  rw [hcurrent]
  exact honward

theorem onwards_of_reaches (hchained : Chained index) (h : Placed index trade.direction p.1)
    (hshort : p.1.sqrtPrice.toNat < maxSqrtPrice.toNat) (hreaches : Reaches trade index p q) :
    Onwards trade.direction p.1 q.1 ∧ q.1.sqrtPrice.toNat < maxSqrtPrice.toNat := by
  induction hreaches with
  | refl => exact ⟨onwards_self _ _, hshort⟩
  | tail hearlier hmoves ih =>
    obtain ⟨honwards, -⟩ := ih
    have hplaced := placed_of_reaches hchained h hearlier
    obtain ⟨hstep, hbelow⟩ := onwards_of_moves hchained hplaced hmoves
    exact ⟨honwards.trans hstep, hbelow⟩

/-- The place in which a run that began in its place comes to rest. -/
structure Rests (trade : Trade) (s final : RunState) : Prop where
  onwards : Onwards trade.direction s final
  within : Within final.currentTick final.sqrtPrice
  short : final.sqrtPrice.toNat < maxSqrtPrice.toNat

theorem rests_of_stop (h : Stop trade s moved final) (hwithin : Within s.currentTick s.sqrtPrice)
    (hshort : s.sqrtPrice.toNat < maxSqrtPrice.toNat) (hfee : trade.swapFee.toNat ≤ 200000)
    (hlimit : Before trade.direction s.sqrtPrice.toNat trade.limit.toNat) :
    Rests trade s final := by
  have hforward := not_behind h hfee hlimit
  obtain ⟨hlast, honward⟩ := located_within h hwithin hforward
  obtain ⟨hframe, hcase⟩ := locate_eq_ok h.located
  have hprice : final.sqrtPrice = moved.sqrtPrice := by rw [hframe]
  refine ⟨⟨?_, honward⟩, ?_, ?_⟩
  · rw [hprice]
    exact hforward
  · rw [hprice]
    exact hlast
  · rw [hprice]
    rcases hcase with ⟨hstay, -⟩ | ⟨-, htick⟩
    · rw [hstay]
      exact hshort
    · exact (exists_tickAt_iff.mp ⟨_, htick⟩).2

theorem rests_of_run (hchained : Chained index) (h : Placed index trade.direction p.1)
    (hshort : p.1.sqrtPrice.toNat < maxSqrtPrice.toNat) (hfee : trade.swapFee.toNat ≤ 200000)
    (hlimit : Before trade.direction p.1.sqrtPrice.toNat trade.limit.toNat)
    (hreaches : Reaches trade index p c) (hends : Ends trade index c final) :
    Rests trade p.1 final := by
  obtain ⟨honwards, hbelow⟩ := onwards_of_reaches hchained h hshort hreaches
  have hplaced := placed_of_reaches hchained h hreaches
  by_cases hover : c.1.Over trade.limit
  · rw [final_of_over hends hover]
    exact ⟨⟨honwards.price, honwards.tick⟩, hplaced.within, hbelow⟩
  · obtain ⟨moved, last, hstop, rfl⟩ := exists_stop hends hover
    obtain ⟨hlast, hwithin, hend⟩ := rests_of_stop hstop hplaced.within hbelow hfee
      (before_limit hreaches hlimit hover)
    have hwhole := honwards.trans hlast
    exact ⟨⟨hwhole.price, hwhole.tick⟩, hwithin, hend⟩

end Runs

/-- A swap on a coherent pool goes in its direction only and leaves a valid pool with its price
between that of the current tick and that of the next one. -/
theorem rests_of_swap (hpool : Coherent pool) (h : swap pool order = .ok fill) :
    ¬ Before (heading order) fill.pool.sqrtPrice.toNat pool.sqrtPrice.toNat ∧
      Onward (heading order) pool.currentTick fill.pool.currentTick ∧
      fill.pool.validate = .ok () ∧ Bracketed fill.pool := by
  obtain ⟨entry, outcome, nearest, hrun, hlast⟩ := swap_eq_ok h
  obtain ⟨hinside, hfee, hgovernment, hindex, -⟩ := validate_iff.mp hrun.valid
  have hchained := chained_of_validate hindex
  have hplaced : Placed pool.index (tradeOf pool order).direction entry :=
    placed_of_enter hpool.greatest (bracketed_iff.mp hpool.bracketed) hrun.valid hrun.enter
  have hunits := toNat_swapFee hrun
  have hentry := (enter_eq_ok.mp hrun.enter).2
  have hprice := congrArg RunState.sqrtPrice hentry
  have hcurrent := congrArg RunState.currentTick hentry
  change entry.sqrtPrice = pool.sqrtPrice at hprice
  change entry.currentTick = pool.currentTick at hcurrent
  have hshort : entry.sqrtPrice.toNat < maxSqrtPrice.toNat := by
    rw [hprice]
    exact (exists_tickAt_iff.mp hinside).2
  obtain ⟨⟨hforward, honward⟩, hwithin, hend⟩ := rests_of_run (p := (entry, pool.records)) hchained
    hplaced hshort (by omega) hrun.entry_before_limit hrun.reaches hrun.ends
  rw [hprice] at hforward
  rw [hcurrent] at honward
  have hreached := ratio_mono (Int.le_refl minTick) hwithin.low (Int.le_of_lt hwithin.high)
  rw [ratio_minTick] at hreached
  have hahead := contains_of_reaches (p := (entry, pool.records)) hchained hplaced.entry
    hrun.reaches
  rw [← nextTick_of_ends hrun.ends] at hahead
  rw [hlast]
  refine ⟨hforward, honward, validate_iff.mpr ⟨?_, hfee, hgovernment, hindex, ?_⟩,
    bracketed_iff.mpr hwithin⟩
  · exact exists_tickAt_iff.mpr ⟨Nat.le_trans hreached hwithin.reached, hend⟩
  · exact contains_nearestTick hchained hahead hrun.nearest

/-- New pools are coherent, pools stay so where positions are added, and a swap on one goes in its
direction only and leaves a valid pool whose price belongs to its current tick. -/
theorem coherent_pools :
    (∀ (swapFeeUnits : ShortWord) (sqrtPrice : Word) (pool : Pool),
        Pool.create swapFeeUnits sqrtPrice = .ok pool → Coherent pool) ∧
      (∀ (pool last : Pool) (lower upper : Int) (liquidity : HalfWord), Coherent pool →
        addPosition lower upper liquidity pool = (last, .ok ()) → Coherent last) ∧
      ∀ (pool : Pool) (order : Order) (fill : Fill), Coherent pool →
        swap pool order = .ok fill →
        ¬ Before (heading order) fill.pool.sqrtPrice.toNat pool.sqrtPrice.toNat ∧
          Onward (heading order) pool.currentTick fill.pool.currentTick ∧
          fill.pool.validate = .ok () ∧ Bracketed fill.pool := by
  refine ⟨?_, ?_, ?_⟩
  · intro swapFeeUnits sqrtPrice pool h
    exact coherent_of_create h
  · intro pool last lower upper liquidity hpool h
    exact coherent_of_deposit hpool h
  · intro pool order fill hpool h
    exact rests_of_swap hpool h

/-- A sale that crosses the lower end of a position and stops beyond it. -/
theorem coherent_pools_crossed :
    ∃ start pool fill, Pool.create 1000 0x1000000000000000000000000 = .ok start ∧
      addPosition (-60) 60 1000000 start = (pool, .ok ()) ∧ Coherent pool ∧
      swap pool (.unlimited .zero ⟨9000, by decide, by decide⟩) = .ok fill ∧
      fill.ticksCrossed = 1 ∧ fill.pool.sqrtPrice.toNat ≤ pool.sqrtPrice.toNat ∧
      fill.pool.currentTick ≤ pool.currentTick ∧ fill.pool.validate = .ok () ∧
      Bracketed fill.pool := by
  have hrun : (do
      let start ← liftPool (Pool.create 1000 0x1000000000000000000000000)
      let pool ← Event.apply start (.deposit (-60) 60 1000000)
      let fill ← swap pool (.unlimited .zero ⟨9000, by decide, by decide⟩)
      return decide (fill.ticksCrossed = 1)) = Except.ok true := by
    decide +kernel
  obtain ⟨start, hstart, hrun⟩ := bind_eq_ok.mp hrun
  obtain ⟨pool, hpool, hrun⟩ := bind_eq_ok.mp hrun
  obtain ⟨fill, hfill, hrun⟩ := bind_eq_ok.mp hrun
  have hcrossed := of_decide_eq_true (Except.ok.inj hrun)
  rw [liftPool_eq_ok] at hstart
  rw [apply_deposit_eq_ok] at hpool
  obtain ⟨hcreate, hdeposit, hswap⟩ := coherent_pools
  have hcoherent := hdeposit _ _ _ _ _ (hcreate _ _ _ hstart) hpool
  obtain ⟨hforward, honward, hvalid, hbracketed⟩ := hswap _ _ _ hcoherent hfill
  exact ⟨start, pool, fill, hstart, hpool, hcoherent, hfill, hcrossed, Nat.not_lt.mp hforward,
    honward, hvalid, hbracketed⟩

end ReinvestingPool.Proofs.CoherentPools
