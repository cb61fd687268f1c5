import ReinvestingPool.Proofs.CoherentPools
import ReinvestingPool.Proofs.Divisions
import ReinvestingPool.Proofs.MintedSupply

/-!
How far apart the prices of a step are. One step moves the price by few ticks, and over so few ticks
a price grows by less than a fifth. This needs the price to belong to the current tick, which holds
in every pool with a history, even in one whose active liquidity is no longer that of its positions.
-/

namespace ReinvestingPool.Proofs.StepSpans

open Failures Words Directions TickMaps TickPrices TickIndexes Pools PriceLimits Positions RangeSteps
open Runs Simulations Swaps RestPrices Paths StepFrames RunEnds IndexChains RunTicks TickLadder
open PriceTicks Cursors Stops Histories SwapRuns Deposits CoherentPools Divisions

variable {trade : Trade} {index : TickIndex} {direction : Direction} {s moved final : RunState}
variable {p q : Point} {pool last : Pool} {order : Order} {entry : RunState} {fill : Fill}
variable {tick a b : Int} {price : Word}

section Prices

/-- Over a block of ticks and a step beyond it a price grows by less than a fifth. -/
theorem block_le_fifth : ∀ n : Nat, n < 578 →
    5 * ratio (min maxTick (3072 * ((n : Int) - 288) + 480)) ≤
      6 * ratio (max minTick (3072 * ((n : Int) - 289))) := by
  decide +kernel

theorem ratio_le_fifth (hlow : minTick ≤ a) (hab : a ≤ b) (hspan : b ≤ a + 481)
    (hhigh : b ≤ maxTick) : 5 * ratio b ≤ 6 * ratio a := by
  -- The block in which `a` lies is the one with the number `n`.
  obtain ⟨n, hn⟩ : ∃ n : Nat, (n : Int) = a / 3072 + 289 :=
    ⟨(a / 3072 + 289).toNat, by unfold minTick at hlow; omega⟩
  have hblock := block_le_fifth n (by unfold maxTick at hhigh; omega)
  rw [hn] at hblock
  have hbelow := ratio_mono (a := max minTick (3072 * (a / 3072 + 289 - 289))) (b := a)
    (by omega) (by omega) (by omega)
  have habove := ratio_mono (a := b) (b := min maxTick (3072 * (a / 3072 + 289 - 288) + 480))
    (by omega) (by omega) (by omega)
  omega

theorem ratio_le_double (hlow : minTick ≤ a) (hab : a ≤ b) (hspan : b ≤ a + 481)
    (hhigh : b ≤ maxTick) : ratio b ≤ 2 * ratio a := by
  have hfifth := ratio_le_fifth hlow hab hspan hhigh
  omega

end Prices

section Runs

/-- A state whose price belongs to its tick, with an entry ahead that is not the highest tick where
the price falls. -/
structure Seated (index : TickIndex) (direction : Direction) (s : RunState) : Prop where
  entry : index.contains s.nextTick = true
  below : direction = .falling → s.nextTick < maxTick
  within : Within s.currentTick s.sqrtPrice
  short : s.sqrtPrice.toNat < maxSqrtPrice.toNat

theorem edge_inside (hchained : Chained index) (h : Seated index direction s) :
    minTick ≤ edgeTick direction s ∧ edgeTick direction s ≤ maxTick := by
  obtain ⟨hfrom, hto⟩ := hchained.inside _ h.entry
  have hlow := h.within.low
  have hhigh := h.within.high
  unfold edgeTick maxTickStep
  cases direction with
  | rising =>
    simp only
    omega
  | falling =>
    simp only
    omega

/-- An edge that is not the tick ahead lies on the way to it. -/
theorem between_of_ne (h : edgeTick direction s ≠ s.nextTick) :
    Between direction s.currentTick (edgeTick direction s) s.nextTick := by
  unfold Between
  unfold edgeTick maxTickStep at h ⊢
  cases direction with
  | rising =>
    simp only at h ⊢
    omega
  | falling =>
    simp only at h ⊢
    omega

/-- A run that lands below the highest tick lands on an edge below it. -/
theorem edge_lt_top (h : Seated index direction s)
    (hland : landingTick direction (edgeTick direction s) < maxTick) :
    edgeTick direction s < maxTick := by
  have hhigh := h.within.high
  cases direction with
  | rising => exact hland
  | falling =>
    have hbelow := h.below rfl
    unfold edgeTick maxTickStep
    simp only
    omega

/-- Where a move leads among the entries. -/
theorem landing_of_moves (hchained : Chained index) (h : Seated index trade.direction p.1)
    (hmoves : Moves trade index p q) :
    (minTick ≤ landingTick trade.direction (edgeTick trade.direction p.1) ∧
        landingTick trade.direction (edgeTick trade.direction p.1) < maxTick) ∧
      index.contains q.1.nextTick = true ∧
      (trade.direction = .falling → q.1.nextTick < maxTick) := by
  rcases nextTick_of_moves hmoves with ⟨hshort, hsame⟩ | ⟨hreached, hadvance⟩
  · rw [hsame]
    exact ⟨landing_bounds hchained h.entry (between_of_ne hshort) ⟨h.within.low, h.within.high⟩
      hshort, h.entry, h.below⟩
  · have hadjacent := adjacent_of_advance hchained hadvance
    rw [hreached]
    refine ⟨adjacent_bounds hchained hadjacent, contains_of_adjacent hadjacent, fun hfalling => ?_⟩
    rw [hfalling] at hadjacent
    exact Int.lt_of_lt_of_le hadjacent.lt (hchained.inside _ h.entry).2

theorem seated_of_moves (hchained : Chained index) (h : Seated index trade.direction p.1)
    (hmoves : Moves trade index p q) : Seated index trade.direction q.1 := by
  obtain ⟨moved, hsteps, hedge, hprice, -, -, -, hcurrent⟩ := steps_of_moves hmoves
  have hlanded := price_of_steps hsteps hedge
  rw [← hprice] at hlanded
  obtain ⟨⟨hlow, hhigh⟩, hentry, hbelow⟩ := landing_of_moves hchained h hmoves
  refine ⟨hentry, hbelow, ?_, ?_⟩
  · rw [hcurrent]
    exact within_landing hlow hhigh hlanded
  · rw [hlanded]
    exact ratio_lt_top hsteps.1.1 (edge_lt_top h hhigh)

theorem seated_of_reaches (hchained : Chained index) (h : Seated index trade.direction p.1)
    (hreaches : Reaches trade index p q) : Seated index trade.direction q.1 := by
  induction hreaches with
  | refl => exact h
  | tail _ hmoves ih => exact seated_of_moves hchained ih hmoves

/-- A run ends at a price that belongs to its tick: a price that has moved is looked up. -/
theorem within_of_ends (h : Seated index direction p.1) (hends : Ends trade index p final) :
    Within final.currentTick final.sqrtPrice ∧ final.sqrtPrice.toNat < maxSqrtPrice.toNat := by
  cases hends with
  | finished hover => exact ⟨h.within, h.short⟩
  | stop _ hstop =>
    obtain ⟨moved, hsteps, -, hlocate⟩ := advance_stopped_iff.mp hstop
    obtain ⟨hframe, ⟨hstay, htick⟩ | ⟨-, htick⟩⟩ := locate_eq_ok hlocate
    · have hkept := htick.trans (steps_frame hsteps).1
      rw [hframe]
      change Within _ moved.sqrtPrice ∧ moved.sqrtPrice.toNat < _
      rw [hkept, hstay]
      exact ⟨h.within, h.short⟩
    · obtain ⟨⟨hfrom, hto⟩, hat, hnext⟩ := tickAt_eq_ok htick
      rw [hframe]
      exact ⟨⟨hfrom, hto, hat, Nat.le_of_lt hnext⟩, (exists_tickAt_iff.mp ⟨_, htick⟩).2⟩

/-- A step does not aim past its edge. -/
theorem aim_not_past_edge (trade : Trade) (s : RunState) :
    ¬ Before trade.direction (edgePrice trade.direction s).toNat (aim trade s).toNat := by
  unfold aim targetPrice Before
  cases trade.direction with
  | rising =>
    simp only
    split
    · rename_i hlimit
      rw [BitVec.lt_def] at hlimit
      omega
    · omega
  | falling =>
    simp only
    split
    · rename_i hedge
      rw [BitVec.le_def] at hedge
      omega
    · omega

theorem aim_pos (hchained : Chained index) (h : Seated index trade.direction s)
    (hlimit : 0 < trade.limit.toNat) : 0 < (aim trade s).toNat := by
  obtain ⟨hlow, hhigh⟩ := edge_inside hchained h
  by_cases hedge : aim trade s = edgePrice trade.direction s
  · rw [hedge]
    unfold edgePrice
    rw [toNat_ratio hlow hhigh]
    exact ratio_pos hlow hhigh
  · rw [(aim_eq_limit hedge).1]
    exact hlimit

/-- The prices of a step are those of few ticks. -/
theorem narrow_of_seated (hchained : Chained index) (h : Seated index trade.direction s) :
    Narrow trade.direction s.sqrtPrice (aim trade s) := by
  obtain ⟨hlow, hhigh⟩ := edge_inside hchained h
  obtain ⟨hfrom, hto, hreached, hshort⟩ := h.within
  have haim := aim_not_past_edge trade s
  unfold edgePrice at haim
  rw [toNat_ratio hlow hhigh] at haim
  unfold Before at haim
  unfold Narrow ascending
  cases hdirection : trade.direction with
  | rising =>
    simp only [hdirection] at hlow hhigh haim ⊢
    have hspan : edgeTick .rising s ≤ s.currentTick + 481 := by
      unfold edgeTick maxTickStep
      simp only
      omega
    -- The tick ahead may be behind the price, where a run before this one has skipped it.
    have hdouble : ratio (edgeTick .rising s) ≤ 2 * ratio s.currentTick := by
      by_cases hbehind : edgeTick .rising s ≤ s.currentTick
      · have hmono := ratio_mono hlow hbehind (Int.le_of_lt hto)
        omega
      · exact ratio_le_double hfrom (by omega) hspan hhigh
    omega
  | falling =>
    simp only [hdirection] at hlow hhigh haim ⊢
    have hspan : s.currentTick + 1 ≤ edgeTick .falling s + 481 := by
      unfold edgeTick maxTickStep
      simp only
      omega
    have hdouble : ratio (s.currentTick + 1) ≤ 2 * ratio (edgeTick .falling s) := by
      by_cases hbehind : s.currentTick + 1 ≤ edgeTick .falling s
      · have hmono := ratio_mono (a := s.currentTick + 1) (by omega) hbehind hhigh
        omega
      · exact ratio_le_double hlow (by omega) hspan (by omega)
    omega

theorem price_pos (h : Within tick price) : 0 < price.toNat :=
  Nat.lt_of_lt_of_le (ratio_pos h.low (Int.le_of_lt h.high)) h.reached

/-- Two halves of a word do not fill it. -/
theorem liquidity_lt (s : RunState) : s.liquidity.toNat < 2 ^ 130 := by
  have hbase := s.baseLiquidity.isLt
  have hreinvested := s.reinvestedLiquidity.isLt
  unfold RunState.liquidity
  rw [BitVec.toNat_add, toNat_widen _ (by decide), toNat_widen _ (by decide)]
  omega

theorem orderly_of_seated (hchained : Chained index) (h : Seated index trade.direction s)
    (hlimit : 0 < trade.limit.toNat) (hfee : trade.swapFee.toNat < 100000) :
    Orderly s.liquidity s.sqrtPrice (aim trade s) trade.swapFee trade.direction where
  liquidity_lt := liquidity_lt s
  current_pos := price_pos h.within
  current_lt := Nat.lt_trans h.short (by decide)
  target_pos := aim_pos hchained h hlimit
  narrow := narrow_of_seated hchained h
  fee_lt := hfee

end Runs

section Pools

/-- What a pool with a history still has where its nearest tick is not the one below its price. -/
structure Sound (pool : Pool) : Prop where
  valid : pool.validate = .ok ()
  within : Within pool.currentTick pool.sqrtPrice
  nearest : pool.nearestTick < maxTick

theorem sound_of_coherent (h : Coherent pool) : Sound pool := by
  have hwithin := bracketed_iff.mp h.bracketed
  exact ⟨h.valid, hwithin, Int.lt_of_le_of_lt h.nearest hwithin.high⟩

theorem sound_of_deposit {lower upper : Int} {liquidity : HalfWord} (hpool : Sound pool)
    (h : addPosition lower upper liquidity pool = (last, .ok ())) : Sound last := by
  obtain ⟨hvalid, hgreatest⟩ := valid_of_deposit hpool.valid h
  have hwithin : Within last.currentTick last.sqrtPrice := by
    rw [addPosition_frame h]
    exact hpool.within
  exact ⟨hvalid, hwithin, Int.lt_of_le_of_lt hgreatest.le hwithin.high⟩

theorem seated_of_enter (hpool : Sound pool)
    (h : RunState.enter pool direction order.quantity = .ok entry) :
    Seated pool.index direction entry := by
  have hentry := contains_of_enter hpool.valid h
  obtain ⟨hfirst, hframe⟩ := enter_eq_ok.mp h
  obtain ⟨hinside, -⟩ := validate_iff.mp hpool.valid
  refine ⟨hentry, ?_, ?_, ?_⟩
  · rintro rfl
    exact Except.ok.inj hfirst ▸ hpool.nearest
  · rw [hframe]
    exact hpool.within
  · rw [hframe]
    exact (exists_tickAt_iff.mp hinside).2

/-- No link leads back to the highest tick. -/
theorem previous_lt_top (hchained : Chained index) (h : index.previous a = .ok b) :
    b < maxTick := by
  by_cases hend : a = minTick
  · obtain ⟨link, hlink, h⟩ := bind_eq_ok.mp h
    cases h
    rw [hend] at hlink
    rw [hchained.lowEnd link (linkAt_eq_ok.mp hlink)]
    decide
  · have hadjacent := adjacent_of_previous hchained hend h
    exact Int.lt_of_lt_of_le hadjacent.lt (hchained.inside _ hadjacent.right).2

/-- The nearest tick that a run finds is not the highest one. -/
theorem nearestTick_lt_top (hchained : Chained index) (hwithin : Within s.currentTick s.sqrtPrice)
    (h : s.nearestTick index = .ok tick) : tick < maxTick := by
  unfold RunState.nearestTick at h
  have hhigh := hwithin.high
  split at h
  · exact previous_lt_top hchained h
  · obtain rfl := Except.ok.inj h
    omega

theorem sound_of_swap (hpool : Sound pool) (h : swap pool order = .ok fill) : Sound fill.pool := by
  obtain ⟨entry, outcome, nearest, hrun, hlast⟩ := swap_eq_ok h
  obtain ⟨-, hfee, hgovernment, hindex, -⟩ := validate_iff.mp hrun.valid
  have hchained := chained_of_validate hindex
  have hfirst : Seated pool.index (tradeOf pool order).direction entry :=
    seated_of_enter hpool hrun.enter
  have hlastSeated := seated_of_reaches (p := (entry, pool.records)) hchained hfirst hrun.reaches
  obtain ⟨hwithin, hshort⟩ := within_of_ends hlastSeated hrun.ends
  have hentry : pool.index.contains outcome.final.nextTick = true := by
    rw [nextTick_of_ends hrun.ends]
    exact hlastSeated.entry
  have hreached := ratio_mono (Int.le_refl minTick) hwithin.low (Int.le_of_lt hwithin.high)
  rw [ratio_minTick] at hreached
  rw [hlast]
  refine ⟨validate_iff.mpr ⟨?_, hfee, hgovernment, hindex, ?_⟩, hwithin,
    nearestTick_lt_top hchained hwithin hrun.nearest⟩
  · exact exists_tickAt_iff.mpr ⟨Nat.le_trans hreached hwithin.reached, hshort⟩
  · exact contains_nearestTick hchained hentry hrun.nearest

theorem sound_of_event {event : Event} (hpool : Sound pool) (h : event.apply pool = .ok last) :
    Sound last := by
  cases event with
  | deposit lower upper liquidity => exact sound_of_deposit hpool (apply_deposit_eq_ok.mp h)
  | trade order =>
    obtain ⟨fill, hfill, rfl⟩ := apply_trade_eq_ok.mp h
    exact sound_of_swap hpool hfill
  | clock blockTime =>
    cases h
    exact ⟨hpool.valid, hpool.within, hpool.nearest⟩
  | share governmentFeeUnits =>
    obtain ⟨⟨⟩, hshare, h⟩ := bind_eq_ok.mp h
    cases h
    obtain ⟨hprice, hfee, -, hindex, hnearest⟩ := validate_iff.mp hpool.valid
    exact ⟨validate_iff.mpr ⟨hprice, hfee, liftPool_eq_ok.mp hshare, hindex, hnearest⟩,
      hpool.within, hpool.nearest⟩

theorem sound_of_reachable (h : Reachable pool) : Sound pool :=
  h.induction (fun hcreate => sound_of_coherent (coherent_of_create hcreate))
    (fun hpool happly => sound_of_event hpool happly)

end Pools

end ReinvestingPool.Proofs.StepSpans
