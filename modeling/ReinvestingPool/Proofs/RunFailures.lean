import ReinvestingPool.Proofs.Batches
import ReinvestingPool.Proofs.PriceTicks

/-!
What a run can fail with. A run that fails does so in a step from one of the states that it comes
to, and a swap that is not refused at once can fail in no other way. A step is refused as a trade
only where what remains would change its sign, and for want of reinvestment tokens only where the
supply is zero.
-/

namespace ReinvestingPool.Proofs.RunFailures

open Failures Words Directions SignedAmounts TickMaps TickPrices TickIndexes Pools Crossings
open PriceLimits RangeSteps Runs Simulations Swaps Paths StepFrames LargerAmounts RunTicks
open TickLadder PriceTicks SwapRuns QuotedAmounts Batches

variable {trade : Trade} {index : TickIndex} {s t checkpoint : RunState} {p q : Point}
variable {records : TickMap TickRecord} {failure : Failure} {refusal : TradeFailure}
variable {cause : PoolFailure} {tick : Int} {direction : Direction} {pool : Pool} {order : Order}

theorem runFrom_of_fails (hopen : ¬ p.1.Over trade.limit)
    (h : advance trade index p.1 p.2 = .error failure) :
    runFrom trade index p.1 checkpoint p.2 = .error failure := by
  rw [runFrom_eq, if_neg hopen, h]

theorem exists_failing (h : runFrom trade index s checkpoint records = .error failure) :
    ∃ q, Reaches trade index (s, records) q ∧ ¬ q.1.Over trade.limit ∧
      advance trade index q.1 q.2 = .error failure := by
  fun_induction runFrom trade index s checkpoint records with
  | case1 s checkpoint records hover => cases h
  | case2 s checkpoint records hopen other hfails =>
    cases h
    exact ⟨(s, records), .refl, hopen, hfails⟩
  | case3 s checkpoint records hopen last hstops => cases h
  | case4 s checkpoint records hopen t hglides ih =>
    obtain ⟨q, hreaches, hlater⟩ := ih h
    exact ⟨q, .head (.glide hopen hglides) hreaches, hlater⟩
  | case5 s checkpoint records hopen t flipped hcrosses ih =>
    obtain ⟨q, hreaches, hlater⟩ := ih h
    exact ⟨q, .head (.cross hopen hcrosses) hreaches, hlater⟩

/-- A run fails exactly where a path leads to a state from which a step fails. -/
theorem runFrom_eq_error :
    runFrom trade index s s records = .error failure ↔
      ∃ q, Reaches trade index (s, records) q ∧ ¬ q.1.Over trade.limit ∧
        advance trade index q.1 q.2 = .error failure := by
  refine ⟨exists_failing, fun h => ?_⟩
  rcases h with ⟨q, hreaches, hopen, hfails⟩
  exact (runFrom_of_reaches hreaches).trans (runFrom_of_fails hopen hfails)

section Steps

/-- The amounts of a step are refused as those of a trade only where the sign would change. -/
theorem settle_refused {step : RangeStep} (h : s.settle step = .error failure) :
    (∃ cause, .arithmetic cause = failure) ∨
      .trade .remainderChangedSign = failure ∧ ∃ remaining : Amount,
        remaining.toInt = s.remaining.toInt - step.used.toInt ∧ remaining ≠ 0 ∧
        ¬ (remaining.toInt < 0 ↔ s.remaining.toInt < 0) := by
  rcases bind_eq_error.mp h with hused | ⟨remaining, hremaining, h⟩
  · obtain ⟨cause, -, hcause⟩ := liftArithmetic_eq_error.mp hused
    exact Or.inl ⟨cause, hcause⟩
  · split at h
    · rename_i hsign
      rw [liftArithmetic_eq_ok, Signed.subChecked_eq_ok] at hremaining
      exact Or.inr ⟨Except.error.inj h, remaining, hremaining, hsign⟩
    · rcases bind_eq_error.mp h with hexchanged | ⟨exchanged, -, h⟩
      · obtain ⟨cause, -, hcause⟩ := liftArithmetic_eq_error.mp hexchanged
        exact Or.inl ⟨cause, hcause⟩
      · cases h

theorem takeStep_refused {edge : Word} (h : takeStep trade s edge = .error failure) :
    (∃ cause, .arithmetic cause = failure) ∨
      .trade .remainderChangedSign = failure ∧ ∃ (step : RangeStep) (remaining : Amount),
        rangeStep s.liquidity s.sqrtPrice (targetPrice trade.direction edge trade.limit)
          trade.swapFee s.remaining trade.side trade.token = .ok step ∧
        remaining.toInt = s.remaining.toInt - step.used.toInt ∧ remaining ≠ 0 ∧
        ¬ (remaining.toInt < 0 ↔ s.remaining.toInt < 0) := by
  rcases bind_eq_error.mp h with hfails | ⟨step, hstep, h⟩
  · obtain ⟨cause, -, hcause⟩ := liftArithmetic_eq_error.mp hfails
    exact Or.inl ⟨cause, hcause⟩
  · rw [liftArithmetic_eq_ok] at hstep
    rcases settle_refused h with hcause | ⟨hsame, remaining, hremaining⟩
    · exact Or.inl hcause
    · exact Or.inr ⟨hsame, step, remaining, hstep, hremaining⟩

/-- A part of what remains can be taken from it, so no step is refused as a trade. -/
theorem takeStep_not_refused {edge : Word} (hside : PartOf trade.side s.remaining s.remaining) :
    takeStep trade s edge ≠ .error (.trade refusal) := by
  intro h
  rcases takeStep_refused h with ⟨cause, hcause⟩ | ⟨-, step, remaining, hstep, hleft, hopen, hsign⟩
  · cases hcause
  · have hnonzero : remaining.toInt ≠ 0 := fun hzero => hopen (Signed.ext hzero)
    have hused := part_used hside hstep
    apply hsign
    revert hused hside
    unfold PartOf
    cases trade.side with
    | sell =>
      simp only
      omega
    | buy =>
      simp only
      omega

end Steps

section Edges

theorem linkAt_eq_error (h : index.linkAt tick = .error cause) :
    cause = .tickNotInitialized tick := by
  unfold TickIndex.linkAt at h
  split at h
  · cases h
  · exact (Except.error.inj h).symm

theorem advance_tick_eq_error (h : index.advance tick direction = .error cause) :
    cause = .tickNotInitialized tick ∨ cause = .indexExhausted tick direction := by
  rcases bind_eq_error.mp h with hlink | ⟨link, -, h⟩
  · exact Or.inl (linkAt_eq_error hlink)
  · right
    simp only at h
    split at h
    · cases h
    · exact (Except.error.inj h).symm

theorem crossTick_eq_error {flipped : TickMap TickRecord} {liquidity : HalfWord}
    {feeGrowth : Word} {secondsPerLiquidity : HalfWord}
    (h : crossTick records index tick liquidity feeGrowth secondsPerLiquidity direction =
      (flipped, .error failure)) :
    (∃ cause, .arithmetic cause = failure) ∨ .pool (.tickNotInitialized tick) = failure ∨
      .pool (.indexExhausted tick direction) = failure := by
  unfold crossTick at h
  split at h
  · rename_i cause hnext
    cases h
    rcases advance_tick_eq_error hnext with rfl | rfl
    · exact Or.inr (Or.inl rfl)
    · exact Or.inr (Or.inr rfl)
  · split at h
    · cases h
      exact Or.inr (Or.inl rfl)
    · simp only [Prod.mk.injEq] at h
      obtain ⟨-, h⟩ := h
      split at h
      · cases h
      · exact Or.inl ⟨_, Except.error.inj h⟩

theorem mintFees_eq_error {governmentFee : Word} (h : s.mintFees governmentFee = .error failure) :
    (∃ cause, .arithmetic cause = failure) ∨
      .pool .noReinvestmentSupply = failure ∧ s.reinvestmentSupply = 0 := by
  unfold RunState.mintFees at h
  split at h
  · rename_i hempty
    exact Or.inr ⟨Except.error.inj h, hempty⟩
  · left
    rcases bind_eq_error.mp h with hminted | ⟨minted, -, h⟩
    · obtain ⟨cause, -, hcause⟩ := liftArithmetic_eq_error.mp hminted
      exact ⟨cause, hcause⟩
    · rcases bind_eq_error.mp h with hpaid | ⟨paid, -, h⟩
      · obtain ⟨cause, -, hcause⟩ := liftArithmetic_eq_error.mp hpaid
        exact ⟨cause, hcause⟩
      · cases h

theorem leaveRange_eq_error (h : leaveRange trade index s records = .error failure) :
    (∃ cause, .arithmetic cause = failure) ∨
      .pool .noReinvestmentSupply = failure ∧ s.reinvestmentSupply = 0 ∨
      .pool (.tickNotInitialized s.nextTick) = failure ∨
      .pool (.indexExhausted s.nextTick trade.direction) = failure := by
  rcases bind_eq_error.mp h with hminted | ⟨minted, hminted, h⟩
  · rcases mintFees_eq_error hminted with hcause | ⟨hsame, hempty⟩
    · exact Or.inl hcause
    · rw [syncSeconds_frame] at hempty
      exact Or.inr (Or.inl ⟨hsame, hempty⟩)
  · have hnext := congrArg RunState.nextTick (mintFees_frame hminted)
    rw [syncSeconds_frame] at hnext
    change minted.nextTick = s.nextTick at hnext
    unfold RunState.cross at h
    split at h
    · rename_i other hcross
      rw [hnext] at hcross
      rcases crossTick_eq_error hcross with hcause | hsame
      · exact Or.inl (Except.error.inj h ▸ hcause)
      · exact Or.inr (Or.inr (Except.error.inj h ▸ hsame))
    · cases h

end Edges

section Advance

theorem sqrtPriceAt_eq_error (h : sqrtPriceAt tick = .error cause) : cause = .tickOutOfBounds := by
  unfold sqrtPriceAt at h
  split at h
  · cases h
  · exact (Except.error.inj h).symm

theorem locate_eq_error {before : Word} (h : s.locate before = .error cause) :
    cause = .priceOutOfBounds := by
  unfold RunState.locate at h
  split at h
  · cases h
  · rcases bind_eq_error.mp h with htick | ⟨tick, -, h⟩
    · exact tickAt_eq_error htick
    · cases h

/-- A step fails before it starts, in its amounts, where it stops or where it leaves the range. -/
theorem advance_eq_error (h : advance trade index s records = .error failure) :
    .pool .tickOutOfBounds = failure ∨
      takeStep trade s (edgePrice trade.direction s) = .error failure ∨
      .pool .priceOutOfBounds = failure ∨
      ∃ moved, Steps trade s moved ∧
        leaveRange trade index (landed trade.direction s moved) records = .error failure := by
  rcases bind_eq_error.mp h with hedge | ⟨edge, hedge, h⟩
  · obtain ⟨cause, hcause, hsame⟩ := liftPool_eq_error.mp hedge
    rw [sqrtPriceAt_eq_error hcause] at hsame
    exact Or.inl hsame
  obtain ⟨hinside, rfl⟩ := sqrtPriceAt_iff.mp (liftPool_eq_ok.mp hedge)
  right
  rcases bind_eq_error.mp h with hstep | ⟨moved, hmoved, h⟩
  · exact Or.inl hstep
  right
  split at h
  · rcases bind_eq_error.mp h with hlocate | ⟨located, -, h⟩
    · obtain ⟨cause, hcause, hsame⟩ := liftPool_eq_error.mp hlocate
      rw [locate_eq_error hcause] at hsame
      exact Or.inl hsame
    · cases h
  · right
    simp only at h
    split at h
    · cases h
    · rcases bind_eq_error.mp h with hleave | ⟨left, -, h⟩
      · exact ⟨moved, ⟨hinside, hmoved⟩, hleave⟩
      · cases h

/-- Where a step is refused as a trade, it is so in its amounts. -/
theorem advance_refused (h : advance trade index s records = .error (.trade refusal)) :
    takeStep trade s (edgePrice trade.direction s) = .error (.trade refusal) := by
  rcases advance_eq_error h with hedge | hstep | hprice | ⟨moved, -, hleave⟩
  · cases hedge
  · exact hstep
  · cases hprice
  · rcases leaveRange_eq_error hleave with ⟨cause, hcause⟩ | ⟨hsupply, -⟩ | htick | htick
    · cases hcause
    · cases hsupply
    · cases htick
    · cases htick

theorem advance_not_refused (hside : PartOf trade.side s.remaining s.remaining) :
    advance trade index s records ≠ .error (.trade refusal) :=
  fun h => takeStep_not_refused hside (advance_refused h)

/-- No run is refused as a trade for anything but a change of sign of what remains. -/
theorem refusal_of_runFrom
    (h : runFrom trade index s checkpoint records = .error (.trade refusal)) :
    refusal = .remainderChangedSign := by
  obtain ⟨q, -, -, hfails⟩ := exists_failing h
  rcases takeStep_refused (advance_refused hfails) with ⟨cause, hcause⟩ | ⟨hsame, -⟩
  · cases hcause
  · cases hsame
    rfl

/-- A step is refused for want of reinvestment tokens only where there are none. -/
theorem supply_of_advance
    (h : advance trade index s records = .error (.pool .noReinvestmentSupply)) :
    s.reinvestmentSupply = 0 := by
  rcases advance_eq_error h with hedge | hstep | hprice | ⟨moved, hsteps, hleave⟩
  · cases hedge
  · rcases takeStep_refused hstep with ⟨cause, hcause⟩ | ⟨hsame, -⟩
    · cases hcause
    · cases hsame
  · cases hprice
  · rcases leaveRange_eq_error hleave with ⟨cause, hcause⟩ | ⟨-, hempty⟩ | htick | htick
    · cases hcause
    · exact (sameRange_of_steps hsteps).reinvestmentSupply.symm.trans hempty
    · cases htick
    · cases htick

end Advance

section Validation

/-- What an index that is not one chain is rejected for. -/
inductive NotOneChain : PoolFailure → Prop
  | absent (tick : Int) : NotOneChain (.tickNotInitialized tick)
  | unsorted (tick : Int) : NotOneChain (.unsortedIndex tick)
  | broken (tick : Int) : NotOneChain (.brokenLink tick)

theorem walk_eq_error {visited : Nat} (h : index.walk tick visited = .error cause) :
    NotOneChain cause := by
  fun_induction TickIndex.walk index tick visited with
  | case1 => cases h
  | case2 tick =>
    cases h
    exact .absent tick
  | case3 tick =>
    cases h
    exact .unsorted tick
  | case4 =>
    cases h
    exact .absent _
  | case5 visited link successor _ _ _ _ ih => exact ih h
  | case6 =>
    cases h
    exact .broken _

theorem checkEnds_eq_error (h : index.checkEnds = .error cause) : NotOneChain cause := by
  rcases bind_eq_error.mp h with hlowest | ⟨lowest, -, h⟩
  · exact linkAt_eq_error hlowest ▸ .absent _
  rcases bind_eq_error.mp h with hhighest | ⟨highest, -, h⟩
  · exact linkAt_eq_error hhighest ▸ .absent _
  by_cases hlow : lowest.previous = minTick
  · by_cases hhigh : highest.next = maxTick
    · simp only [hlow, hhigh, ne_eq, not_true_eq_false, if_false] at h
      cases h
    · simp only [hlow, hhigh, ne_eq, not_true_eq_false, not_false_eq_true, if_true, if_false] at h
      cases h
      exact .broken _
  · simp only [hlow, ne_eq, not_false_eq_true, if_true] at h
    cases h
    exact .broken _

theorem index_validate_eq_error (h : index.validate = .error cause) : NotOneChain cause := by
  rcases bind_eq_error.mp h with hends | ⟨⟨⟩, -, h⟩
  · exact checkEnds_eq_error hends
  rcases bind_eq_error.mp h with hwalk | ⟨visited, -, h⟩
  · exact walk_eq_error hwalk
  split at h
  · cases h
    exact .broken _
  · cases h

/-- A pool is rejected for its price, a fee rate or its index. -/
theorem validate_eq_error (h : pool.validate = .error cause) :
    cause = .priceOutOfBounds ∨ (∃ units, cause = .feeOutOfRange units) ∨ NotOneChain cause := by
  rcases bind_eq_error.mp h with htick | ⟨tick, -, h⟩
  · exact Or.inl (tickAt_eq_error htick)
  right
  rcases bind_eq_error.mp h with hfee | ⟨⟨⟩, -, h⟩
  · left
    unfold checkSwapFee at hfee
    split at hfee
    · cases hfee
    · exact ⟨_, (Except.error.inj hfee).symm⟩
  rcases bind_eq_error.mp h with hfee | ⟨⟨⟩, -, h⟩
  · left
    unfold checkGovernmentFee at hfee
    split at hfee
    · cases hfee
    · exact ⟨_, (Except.error.inj hfee).symm⟩
  right
  rcases bind_eq_error.mp h with hindex | ⟨⟨⟩, -, h⟩
  · exact index_validate_eq_error hindex
  split at h
  · cases h
    exact .absent _
  · cases h

end Validation

section Swaps

theorem tradeOn_eq_error {token : Token} {side : Side} {limit : Option Word}
    (h : Trade.on pool token side limit = .error refusal) : refusal = .badPriceLimit := by
  unfold Trade.on at h
  simp only at h
  split at h
  · cases h
  · exact (Except.error.inj h).symm

/-- A swap is refused for its order, for a pool that is not valid, or from a state of its run. -/
theorem swap_eq_error (h : swap pool order = .error failure) :
    .trade .zeroAmount = failure ∨ .trade .badPriceLimit = failure ∨
      (∃ cause, pool.validate = .error cause ∧ .pool cause = failure) ∨
      ∃ q, Visits pool order q ∧ ¬ q.1.Over order.limit ∧
        advance (tradeOf pool order) pool.index q.1 q.2 = .error failure := by
  unfold swap at h
  split at h
  · exact Or.inl (Except.error.inj h)
  right
  rcases bind_eq_error.mp h with hvalid | ⟨⟨⟩, hvalid, h⟩
  · exact Or.inr (Or.inl (liftPool_eq_error.mp hvalid))
  rw [liftPool_eq_ok] at hvalid
  rcases bind_eq_error.mp h with htrade | ⟨trade, htrade, h⟩
  · obtain ⟨refusal, hrefusal, hsame⟩ := mapError_eq_error.mp htrade
    rw [tradeOn_eq_error hrefusal] at hsame
    exact Or.inl hsame
  right
  right
  obtain ⟨-, rfl⟩ := tradeOn_eq_ok.mp (mapError_eq_ok.mp htrade)
  have henter : ∃ entry, RunState.enter pool (heading order) order.quantity = .ok entry :=
    exists_enter order.quantity hvalid
  obtain ⟨entry, hentry⟩ := henter
  rcases bind_eq_error.mp h with hfails | ⟨other, hother, h⟩
  · obtain ⟨cause, hcause, -⟩ := liftPool_eq_error.mp hfails
    exact absurd (hentry.symm.trans hcause) (by simp)
  rw [liftPool_eq_ok] at hother
  obtain rfl := Except.ok.inj (hentry.symm.trans hother)
  rcases bind_eq_error.mp h with hruns | ⟨outcome, hrun, h⟩
  · rw [simulate_enter _ _ _ hentry] at hruns
    obtain ⟨q, hreaches, hfails⟩ := runFrom_eq_error.mp hruns
    exact ⟨q, ⟨entry, hentry, hreaches⟩, hfails⟩
  rw [simulate_enter _ _ _ hentry] at hrun
  -- Once the run has succeeded there is nothing left to fail.
  obtain ⟨⟨used, hused⟩, nearest, hnearest⟩ := exists_report hvalid hentry hrun
  rw [hused, hnearest] at h
  cases h

/-- No swap is refused because what is left would change its sign. -/
theorem swap_not_refused : swap pool order ≠ .error (.trade .remainderChangedSign) := by
  intro h
  rcases swap_eq_error h with hzero | hlimit | ⟨cause, -, hcause⟩ | ⟨q, hvisits, -, hfails⟩
  · cases hzero
  · cases hlimit
  · cases hcause
  · rcases hvisits with ⟨entry, hentry, hreaches⟩
    have hleft := part_reaches (p := (entry, pool.records)) (part_of_enter hentry).self_left
      hreaches
    exact advance_not_refused hleft.self_left hfails

end Swaps

end ReinvestingPool.Proofs.RunFailures
