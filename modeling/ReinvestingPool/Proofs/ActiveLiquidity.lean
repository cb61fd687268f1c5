import ReinvestingPool.Proofs.Stops
import ReinvestingPool.Proofs.SwapRuns

/-!
Whether a pool agrees with its records. The active liquidity should be what the records at or below
the current tick account for, and the nearest tick the greatest initialized one there. A swap keeps
this exactly where its last step does not come to rest beyond an entry that it has not crossed.
-/

namespace ReinvestingPool.Proofs.ActiveLiquidity

open Words Directions SignedAmounts TickMaps TickPrices TickIndexes Pools PriceLimits Runs
open Simulations Swaps RestPrices Paths StepFrames RunEnds IndexChains NetLiquidity Cursors Stops
open SwapRuns

/-- The greatest entry at or below a tick. -/
structure Greatest (index : TickIndex) (tick nearest : Int) : Prop where
  entry : index.contains nearest = true
  le : nearest ≤ tick
  greatest : ∀ other, index.contains other = true → other ≤ tick → other ≤ nearest

structure Consistent (pool : Pool) : Prop where
  base : (pool.baseLiquidity.toNat : Int) = netBelow pool.records pool.currentTick
  nearest : Greatest pool.index pool.currentTick pool.nearestTick

theorem greatest_iff {index : TickIndex} {tick nearest : Int} :
    Greatest index tick nearest ↔ index.contains nearest = true ∧ nearest ≤ tick ∧
      ∀ other ∈ index.links.ticks, other ≤ tick → other ≤ nearest := by
  constructor
  · intro h
    exact ⟨h.entry, h.le, fun other hother => h.greatest other
      (contains_iff_mem_ticks.mpr hother)⟩
  · intro h
    rcases h with ⟨hentry, hle, hgreatest⟩
    exact ⟨hentry, hle, fun other hother => hgreatest other (contains_iff_mem_ticks.mp hother)⟩

instance (index : TickIndex) (tick nearest : Int) : Decidable (Greatest index tick nearest) :=
  decidable_of_iff _ greatest_iff.symm

instance (pool : Pool) : Decidable (Consistent pool) :=
  decidable_of_iff ((pool.baseLiquidity.toNat : Int) = netBelow pool.records pool.currentTick ∧
      Greatest pool.index pool.currentTick pool.nearestTick)
    ⟨fun h => ⟨h.1, h.2⟩, fun h => ⟨h.base, h.nearest⟩⟩

/-- A consistent pool whose records are indexed and whose price belongs to its current tick. -/
structure Aligned (pool : Pool) : Prop extends Consistent pool where
  indexed : ∀ tick, pool.records.contains tick = true → pool.index.contains tick = true
  within : Within pool.currentTick pool.sqrtPrice

variable {pool : Pool} {order : Order} {fill : Fill} {trade : Trade} {index : TickIndex}
variable {direction : Direction} {s entry moved last : RunState} {outcome : Outcome}
variable {records : TickMap TickRecord} {nearest : Int}

theorem greatest_of_ahead (hchained : Chained index)
    (hahead : Ahead index direction s.currentTick s.nextTick)
    (hentry : index.contains s.nextTick = true) (hlow : minTick ≤ s.currentTick)
    (h : s.nearestTick index = .ok nearest) : Greatest index s.currentTick nearest := by
  unfold RunState.nearestTick at h
  by_cases hless : s.currentTick < s.nextTick
  · rw [if_pos hless] at h
    have hadjacent := adjacent_of_previous hchained (by omega) h
    have hbehind : ∀ other, index.contains other = true → s.currentTick < other →
        s.nextTick ≤ other := by
      cases direction with
      | rising => exact hahead.2
      | falling =>
        have hle := hahead.1
        omega
    refine ⟨hadjacent.left, ?_, fun other hother hle => ?_⟩
    · by_contra hbeyond
      have hpast := hbehind nearest hadjacent.left (Int.not_le.mp hbeyond)
      have hlt := hadjacent.lt
      omega
    · by_contra hbeyond
      have hpast := hadjacent.none_between other hother (Int.not_le.mp hbeyond)
      omega
  · rw [if_neg hless] at h
    obtain rfl := Except.ok.inj h
    cases direction with
    | rising => exact absurd hahead.1 hless
    | falling => exact ⟨hentry, hahead.1, hahead.2⟩

theorem ahead_of_greatest {next : Int} (hchained : Chained index)
    (hgreatest : Greatest index s.currentTick nearest) (hhigh : s.currentTick < maxTick)
    (hnext : index.next nearest = .ok next) : Ahead index .rising s.currentTick next := by
  have hle := hgreatest.le
  have hadjacent := adjacent_of_next hchained (by omega) hnext
  refine ⟨?_, fun other hother hless => hadjacent.none_between other hother (by omega)⟩
  by_contra hbehind
  have hback := hgreatest.greatest next hadjacent.right (Int.not_lt.mp hbehind)
  have hlt := hadjacent.lt
  omega

/-- A swap enters in its place where the nearest tick is the greatest below the price. -/
theorem placed_of_enter {quantity : Amount}
    (hnearest : Greatest pool.index pool.currentTick pool.nearestTick)
    (hwithin : Within pool.currentTick pool.sqrtPrice) (hvalid : pool.validate = .ok ())
    (h : RunState.enter pool direction quantity = .ok entry) :
    Placed pool.index direction entry := by
  obtain ⟨hchained, -, -⟩ := validate_eq_ok hvalid
  have hcontains := contains_of_enter hvalid h
  obtain ⟨hfirst, hentry⟩ := enter_eq_ok.mp h
  have hcurrent := congrArg RunState.currentTick hentry
  have hprice := congrArg RunState.sqrtPrice hentry
  change entry.currentTick = pool.currentTick at hcurrent
  change entry.sqrtPrice = pool.sqrtPrice at hprice
  refine ⟨hcontains, ?_, ?_⟩
  · cases direction with
    | rising =>
      refine ahead_of_greatest hchained ?_ ?_ hfirst
      · rw [hcurrent]
        exact hnearest
      · rw [hcurrent]
        exact hwithin.high
    | falling =>
      have hsame : pool.nearestTick = entry.nextTick := Except.ok.inj hfirst
      rw [hcurrent, ← hsame]
      exact ⟨hnearest.le, hnearest.greatest⟩
  · rw [hcurrent, hprice]
    exact hwithin

/-- A swap enters an aligned pool with its cursor in place. -/
theorem cursor_of_enter {quantity : Amount} (hpool : Aligned pool)
    (hvalid : pool.validate = .ok ())
    (h : RunState.enter pool direction quantity = .ok entry) :
    Cursor pool.index direction (entry, pool.records) := by
  obtain ⟨hcontains, hahead, hwithin⟩ := placed_of_enter hpool.nearest hpool.within hvalid h
  refine ⟨hpool.indexed, hcontains, hahead, ?_, hwithin⟩
  rw [(enter_eq_ok.mp h).2]
  exact hpool.base

/-- A run that ends with its cursor in place leaves an aligned pool. -/
theorem aligned_of_cursor (hchained : Chained pool.index)
    (h : Cursor pool.index direction (outcome.final, outcome.records))
    (hnearest : outcome.final.nearestTick pool.index = .ok nearest) :
    Aligned (poolAfter pool outcome nearest) where
  base := h.base
  nearest := greatest_of_ahead hchained h.ahead h.entry h.within.low hnearest
  indexed := h.indexed
  within := h.within

theorem cursor_finish (h : Cursor index direction (s, records)) :
    Cursor index direction (s.finish, records) :=
  ⟨h.indexed, h.entry, h.ahead, h.base, h.within⟩

theorem stop_frame (h : Stop trade s moved last) :
    last.nextTick = s.nextTick ∧ last.baseLiquidity = s.baseLiquidity ∧
      last.sqrtPrice = moved.sqrtPrice := by
  obtain ⟨-, hnext, hbase, -⟩ := steps_frame h.steps
  obtain ⟨hlast, -⟩ := locate_eq_ok h.located
  rw [hlast]
  exact ⟨hnext, hbase, rfl⟩

/-- A stop that passes no entry keeps the cursor in place. -/
theorem cursor_of_stop (h : Cursor index trade.direction (s, records))
    (hstop : Stop trade s moved last) (hwithin : Within last.currentTick moved.sqrtPrice)
    (honward : Onward trade.direction s.currentTick last.currentTick)
    (hnot : ¬ PastTick trade.direction last.currentTick s.nextTick) :
    Cursor index trade.direction (last, records) := by
  obtain ⟨hnext, hbase, hprice⟩ := stop_frame hstop
  have hahead := h.ahead
  have hmoved : Ahead index trade.direction last.currentTick s.nextTick ∧
      ∀ entry, index.contains entry = true →
        (entry ≤ s.currentTick ↔ entry ≤ last.currentTick) := by
    change Ahead index trade.direction s.currentTick s.nextTick at hahead
    revert hahead honward hnot
    cases trade.direction with
    | rising =>
      rintro honward hnot ⟨hless, hnone⟩
      simp only [Onward, PastTick] at honward hnot
      refine ⟨⟨by omega, fun entry hentry hbeyond => hnone entry hentry (by omega)⟩, ?_⟩
      intro entry hentry
      have hgap := hnone entry hentry
      omega
    | falling =>
      rintro honward hnot ⟨hless, hnone⟩
      simp only [Onward, PastTick] at honward hnot
      refine ⟨⟨by omega, fun entry hentry hbeyond => hnone entry hentry (by omega)⟩, ?_⟩
      intro entry hentry
      have hgap := hnone entry hentry
      omega
  refine ⟨h.indexed, ?_, ?_, ?_, ?_⟩
  · change index.contains last.nextTick = true
    rw [hnext]
    exact h.entry
  · change Ahead index trade.direction last.currentTick last.nextTick
    rw [hnext]
    exact hmoved.1
  · change (last.baseLiquidity.toNat : Int) = netBelow records last.currentTick
    rw [hbase]
    exact h.base.trans (netBelow_of_gap h.indexed hmoved.2)
  · change Within last.currentTick last.sqrtPrice
    rw [hprice]
    exact hwithin

section Past

variable {current next tick base : Int}

/-- A rising price that is past an entry has it as its nearest one if it is past no other. -/
theorem past_rising_iff (hindexed : ∀ tick, records.contains tick = true →
      index.contains tick = true) (hahead : Ahead index .rising current next)
    (hentry : index.contains next = true) (hbase : base = netBelow records current)
    (hpast : next ≤ tick) :
    (base = netBelow records tick ∧ Greatest index tick next) ↔
      netOf records next = 0 ∧
        ∀ entry, index.contains entry = true → next < entry → ¬ entry ≤ tick := by
  have hcross := netBelow_of_cross hindexed hahead
  simp only [landingTick, towards] at hcross
  have hsame : (∀ entry, index.contains entry = true → next < entry → ¬ entry ≤ tick) →
      netBelow records next = netBelow records tick := by
    intro hnone
    refine netBelow_of_gap hindexed fun entry hother => ?_
    have hfar := hnone entry hother
    omega
  constructor
  · intro h
    rcases h with ⟨hsum, hgreatest⟩
    have hnone : ∀ entry, index.contains entry = true → next < entry → ¬ entry ≤ tick := by
      intro entry hother hbeyond hle
      have hback := hgreatest.greatest entry hother hle
      omega
    have hequal := hsame hnone
    exact ⟨by omega, hnone⟩
  · intro h
    rcases h with ⟨hzero, hnone⟩
    have hequal := hsame hnone
    refine ⟨by omega, hentry, hpast, fun other hother hle => ?_⟩
    by_contra hbeyond
    exact hnone other hother (Int.not_le.mp hbeyond) hle

/-- A falling price that is past an entry has the one before it as its nearest one if it is past no
other. -/
theorem past_falling_iff (hindexed : ∀ tick, records.contains tick = true →
      index.contains tick = true) (hahead : Ahead index .falling current next)
    (hadjacent : Adjacent index nearest next) (hbase : base = netBelow records current)
    (hpast : tick < next) :
    (base = netBelow records tick ∧ Greatest index tick nearest) ↔
      netOf records next = 0 ∧
        ∀ entry, index.contains entry = true → entry < next → ¬ tick < entry := by
  have hcross := netBelow_of_cross hindexed hahead
  simp only [landingTick, towards] at hcross
  have hlt := hadjacent.lt
  have hsame : (∀ entry, index.contains entry = true → entry < next → ¬ tick < entry) →
      netBelow records (next - 1) = netBelow records tick := by
    intro hnone
    refine netBelow_of_gap hindexed fun entry hother => ?_
    have hfar := hnone entry hother
    omega
  constructor
  · intro h
    rcases h with ⟨hsum, hgreatest⟩
    have hnone : ∀ entry, index.contains entry = true → entry < next → ¬ tick < entry := by
      intro entry hother hbelow hpassed
      have hle := hgreatest.le
      have hbetween := hadjacent.none_between entry hother (by omega)
      omega
    have hequal := hsame hnone
    exact ⟨by omega, hnone⟩
  · intro h
    rcases h with ⟨hzero, hnone⟩
    have hequal := hsame hnone
    have hle := hnone nearest hadjacent.left hlt
    refine ⟨by omega, hadjacent.left, by omega, fun other hother hbelow => ?_⟩
    by_contra hbeyond
    have hbetween := hadjacent.none_between other hother (Int.not_le.mp hbeyond)
    omega

end Past

/-- Where a stop is past the entry ahead, the pool is consistent only if that entry changes nothing
and no other one has been passed. -/
theorem consistent_past_iff (hchained : Chained index)
    (h : Cursor index trade.direction (s, records)) (hnext : last.nextTick = s.nextTick)
    (hlow : minTick ≤ last.currentTick)
    (hnearest : last.nearestTick index = .ok nearest)
    (hpast : PastTick trade.direction last.currentTick s.nextTick) :
    ((s.baseLiquidity.toNat : Int) = netBelow records last.currentTick ∧
        Greatest index last.currentTick nearest) ↔
      netOf records s.nextTick = 0 ∧ ∀ entry, index.contains entry = true →
        Beyond trade.direction s.nextTick entry →
        ¬ PastTick trade.direction last.currentTick entry := by
  obtain ⟨hindexed, hentry, hahead, hbase, -⟩ := h
  unfold RunState.nearestTick at hnearest
  rw [hnext] at hnearest
  change Ahead index trade.direction s.currentTick s.nextTick at hahead
  revert hahead hpast
  cases trade.direction with
  | rising =>
    intro hpast hahead
    have hpast : s.nextTick ≤ last.currentTick := hpast
    rw [if_neg (by omega)] at hnearest
    obtain rfl := Except.ok.inj hnearest
    exact past_rising_iff hindexed hahead hentry hbase hpast
  | falling =>
    intro hpast hahead
    have hpast : last.currentTick < s.nextTick := hpast
    rw [if_pos hpast] at hnearest
    have hadjacent := adjacent_of_previous hchained (by omega) hnearest
    exact past_falling_iff hindexed hahead hadjacent hbase hpast

/-- What is left of the amount leads past the entry ahead, and that entry changes the active
liquidity or is not the only one to be passed. -/
def SkipsFrom (trade : Trade) (index : TickIndex) (q : Point) : Prop :=
  UsesUp trade q.1 ∧ Passes (restUsage trade q.1) q.1.nextTick ∧
    (netOf q.2 q.1.nextTick ≠ 0 ∨ ∃ tick, index.contains tick = true ∧
      Beyond trade.direction q.1.nextTick tick ∧ Passes (restUsage trade q.1) tick)

/-- A swap comes to rest inside a range, but past an entry that it has not crossed. -/
def Skips (pool : Pool) (order : Order) : Prop :=
  ∃ q, Visits pool order q ∧ ¬ q.1.Over order.limit ∧
    (restUsage (tradeOf pool order) q.1).restPrice ≠ (edgePrice (heading order) q.1).toNat ∧
    SkipsFrom (tradeOf pool order) pool.index q

theorem onward_of_beyond {a b : Int} (h : Beyond direction a b) : Onward direction a b := by
  cases direction with
  | rising => exact Int.le_of_lt h
  | falling => exact Int.le_of_lt h

/-- A stop leaves the pool consistent exactly where its last step does not skip. -/
theorem consistent_stop_iff (hchained : Chained index)
    (h : Cursor index trade.direction (s, records)) (hstop : Stop trade s moved last)
    (hfee : trade.swapFee.toNat ≤ 200000)
    (hlimit : Before trade.direction s.sqrtPrice.toNat trade.limit.toNat)
    (hnearest : last.nearestTick index = .ok nearest) :
    ((s.baseLiquidity.toNat : Int) = netBelow records last.currentTick ∧
        Greatest index last.currentTick nearest) ↔ ¬ SkipsFrom trade index (s, records) := by
  have hforward := not_behind hstop hfee hlimit
  obtain ⟨hwithin, honward⟩ := located_within hstop h.within hforward
  obtain ⟨hlow, hhigh⟩ := hchained.inside s.nextTick h.entry
  obtain ⟨hnext, hbase, -⟩ := stop_frame hstop
  have hself := onward_self trade.direction s.nextTick
  by_cases hpassed : PastTick trade.direction last.currentTick s.nextTick
  · have huses := usesUp_of_past hstop h.within h.ahead hlow hhigh hpassed
    have hpasses := (pastTick_iff_passes hstop h.within h.ahead huses hlow hhigh hself).mp hpassed
    have hbeyond : ∀ tick, index.contains tick = true → Beyond trade.direction s.nextTick tick →
        (PastTick trade.direction last.currentTick tick ↔ Passes (restUsage trade s) tick) := by
      intro tick htick hfar
      obtain ⟨hfrom, hto⟩ := hchained.inside tick htick
      exact pastTick_iff_passes hstop h.within h.ahead huses hfrom hto (onward_of_beyond hfar)
    rw [consistent_past_iff hchained h hnext hwithin.low hnearest hpassed]
    constructor
    · rintro ⟨hzero, hnone⟩ ⟨-, -, hchange | ⟨tick, htick, hfar, hpass⟩⟩
      · exact hchange hzero
      · exact hnone tick htick hfar ((hbeyond tick htick hfar).mpr hpass)
    · intro hnot
      refine ⟨?_, fun tick htick hfar hpast => ?_⟩
      · by_contra hchange
        exact hnot ⟨huses, hpasses, Or.inl hchange⟩
      · have hpass := (hbeyond tick htick hfar).mp hpast
        exact hnot ⟨huses, hpasses, Or.inr ⟨tick, htick, hfar, hpass⟩⟩
  · have hcursor := cursor_of_stop h hstop hwithin honward hpassed
    have hgreatest := greatest_of_ahead hchained hcursor.ahead hcursor.entry hwithin.low hnearest
    refine iff_of_true ⟨?_, hgreatest⟩ ?_
    · rw [← hbase]
      exact hcursor.base
    · intro hgiven
      rcases hgiven with ⟨huses, hpasses, -⟩
      have hpast := pastTick_iff_passes hstop h.within h.ahead huses hlow hhigh hself
      exact hpassed (hpast.mpr hpasses)

/-- A swap that ends at the edge of a range, at its limit or with nothing left, skips nothing. -/
theorem not_skips_of_over (hrun : SwapRun pool order entry outcome nearest)
    (hover : outcome.checkpoint.Over order.limit) : ¬ Skips pool order := by
  intro h
  rcases h with ⟨q, hvisits, hopen, hoff, huses, -⟩
  obtain ⟨other, moved, hlast⟩ := exists_lastStep hrun.reaches hrun.ends hrun.entry_not_over
  obtain rfl := hlast.only q (hrun.visits_iff.mp hvisits) hopen huses
  rcases hlast.ends with hsame | ⟨hmoves, -⟩
  · rw [hsame] at hopen
    exact hopen hover
  · obtain ⟨stepped, hsteps, hedge, -⟩ := steps_of_moves hmoves
    rcases steps_ends hsteps with ⟨hnot, -⟩ | ⟨-, -, -, hrest⟩
    · exact hnot huses
    · rw [hedge] at hrest
      exact hoff hrest.symm

/-- A swap that ends inside a range skips something exactly where its last step does. -/
theorem skips_of_stop_iff (hrun : SwapRun pool order entry outcome nearest)
    (hopen : ¬ outcome.checkpoint.Over order.limit)
    (hstop : Stop (tradeOf pool order) outcome.checkpoint moved last) :
    Skips pool order ↔
      SkipsFrom (tradeOf pool order) pool.index (outcome.checkpoint, outcome.records) := by
  constructor
  · intro h
    rcases h with ⟨q, hvisits, hqOpen, -, hskips⟩
    obtain ⟨other, _, hlast⟩ := exists_lastStep hrun.reaches hrun.ends hrun.entry_not_over
    obtain rfl := hlast.only q (hrun.visits_iff.mp hvisits) hqOpen hskips.1
    rcases hlast.ends with rfl | ⟨-, hover⟩
    · exact hskips
    · exact absurd hover hopen
  · intro hskips
    refine ⟨_, hrun.visits_iff.mpr hrun.reaches, hopen, ?_, hskips⟩
    rcases steps_ends hstop.steps with ⟨hnot, -⟩ | ⟨-, -, -, hrest⟩
    · exact absurd hskips.1 hnot
    · rw [← hrest]
      exact fun hsame => hstop.off (BitVec.eq_of_toNat_eq hsame)

theorem cursor_of_swapRun (hpool : Aligned pool)
    (hrun : SwapRun pool order entry outcome nearest) :
    Cursor pool.index (heading order) (outcome.checkpoint, outcome.records) := by
  obtain ⟨hchained, -, -⟩ := validate_eq_ok hrun.valid
  have hentry : Cursor pool.index (tradeOf pool order).direction (entry, pool.records) :=
    cursor_of_enter hpool hrun.valid hrun.enter
  exact cursor_of_reaches hchained hentry hrun.reaches

theorem aligned_of_over (hpool : Aligned pool)
    (hrun : SwapRun pool order entry outcome nearest)
    (hover : outcome.checkpoint.Over order.limit) : Aligned (poolAfter pool outcome nearest) := by
  obtain ⟨hchained, -, -⟩ := validate_eq_ok hrun.valid
  have hcursor : Cursor pool.index (heading order) (outcome.final, outcome.records) := by
    rw [final_of_over hrun.ends hover]
    exact cursor_finish (cursor_of_swapRun hpool hrun)
  exact aligned_of_cursor hchained hcursor hrun.nearest

theorem toNat_swapFee (hrun : SwapRun pool order entry outcome nearest) :
    (tradeOf pool order).swapFee.toNat < 100000 := by
  obtain ⟨-, -, hfee⟩ := validate_eq_ok hrun.valid
  change (widen pool.swapFeeUnits : Word).toNat < 100000
  rw [toNat_widen pool.swapFeeUnits (by decide)]
  exact hfee

theorem consistent_poolAfter_iff (hfinal : outcome.final = last.finish) :
    Consistent (poolAfter pool outcome nearest) ↔
      (last.baseLiquidity.toNat : Int) = netBelow outcome.records last.currentTick ∧
        Greatest pool.index last.currentTick nearest := by
  unfold poolAfter
  rw [hfinal]
  exact ⟨fun h => ⟨h.base, h.nearest⟩, fun h => ⟨h.1, h.2⟩⟩

/-- A swap on an aligned pool leaves it consistent exactly where it skips nothing. -/
theorem swap_consistent_iff (hpool : Aligned pool) (h : swap pool order = .ok fill) :
    Consistent fill.pool ↔ ¬ Skips pool order := by
  obtain ⟨entry, outcome, nearest, hrun, hafter⟩ := swap_eq_ok h
  rw [hafter]
  by_cases hover : outcome.checkpoint.Over order.limit
  · exact iff_of_true (aligned_of_over hpool hrun hover).toConsistent (not_skips_of_over hrun hover)
  · obtain ⟨moved, last, hstop, hfinal⟩ := exists_stop hrun.ends hover
    obtain ⟨hchained, -, -⟩ := validate_eq_ok hrun.valid
    have hcursor := cursor_of_swapRun hpool hrun
    have hfee := toNat_swapFee hrun
    have hlimit := before_limit hrun.reaches hrun.entry_before_limit hover
    have hnearest := hrun.nearest
    rw [hfinal] at hnearest
    rw [consistent_poolAfter_iff hfinal, (stop_frame hstop).2.1, skips_of_stop_iff hrun hover hstop]
    exact consistent_stop_iff hchained hcursor hstop (by omega) hlimit hnearest

/-- A pool that is still consistent after a swap is aligned. -/
theorem aligned_of_swap (hpool : Aligned pool) (h : swap pool order = .ok fill)
    (hconsistent : Consistent fill.pool) : Aligned fill.pool := by
  obtain ⟨entry, outcome, nearest, hrun, hafter⟩ := swap_eq_ok h
  rw [hafter] at hconsistent ⊢
  by_cases hover : outcome.checkpoint.Over order.limit
  · exact aligned_of_over hpool hrun hover
  · obtain ⟨moved, last, hstop, hfinal⟩ := exists_stop hrun.ends hover
    have hcursor := cursor_of_swapRun hpool hrun
    have hfee := toNat_swapFee hrun
    have hlimit := before_limit hrun.reaches hrun.entry_before_limit hover
    have hforward := not_behind hstop (by omega) hlimit
    obtain ⟨hwithin, -⟩ := located_within hstop hcursor.within hforward
    refine ⟨hconsistent, hcursor.indexed, ?_⟩
    unfold poolAfter
    rw [hfinal]
    change Within last.currentTick last.sqrtPrice
    rw [(stop_frame hstop).2.2]
    exact hwithin

end ReinvestingPool.Proofs.ActiveLiquidity
