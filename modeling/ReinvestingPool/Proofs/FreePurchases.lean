import ReinvestingPool.Proofs.StepSpans

/-!
Where a swap divides by zero. Settling a step and leaving a range divide only by what a pool with a
history has, so the one way is a step that uses up the amount of a purchase in a pool without a
fee. A sale, and any trade in a pool that charges one, never comes to it.
-/

namespace ReinvestingPool.Proofs.FreePurchases

open Failures Words Directions ProductQuotients SignedAmounts TickMaps TickPrices TickIndexes Pools
open FeeMinting PriceLimits RangeSteps Crossings Runs Simulations Swaps ExactQuotients Paths
open StepFrames RunEnds LargerAmounts IndexChains Histories SwapRuns Batches RunFailures
open TickLadder MintedSupply Divisions StepSpans

variable {trade : Trade} {index : TickIndex} {s : RunState} {records : TickMap TickRecord}
variable {pool : Pool} {order : Order} {q : Point}
variable {now last base supply minted governmentFee : Word}

section Lifts

variable {α : Type} {r : Except ArithmeticFailure α} {cause : ArithmeticFailure}

theorem liftArithmetic_fails_iff :
    liftArithmetic r = .error (.arithmetic cause) ↔ r = .error cause := by
  rw [liftArithmetic_eq_error]
  constructor
  · intro h
    rcases h with ⟨other, hother, hsame⟩
    exact Failure.arithmetic.inj hsame ▸ hother
  · intro h
    exact ⟨cause, h, rfl⟩

theorem avoids_liftArithmetic (h : Avoids cause r) :
    Avoids (.arithmetic cause) (liftArithmetic r) :=
  fun hfails => h (liftArithmetic_fails_iff.mp hfails)

theorem avoids_liftPool (cause : ArithmeticFailure) (r : Except PoolFailure α) :
    Avoids (.arithmetic cause) (liftPool r) := by
  intro h
  obtain ⟨other, -, hsame⟩ := liftPool_eq_error.mp h
  cases hsame

end Lifts

section Edges

theorem avoids_settle (s : RunState) (step : RangeStep) :
    Avoids (.arithmetic .divisionByZero) (s.settle step) := by
  unfold RunState.settle
  refine avoids_bind (avoids_liftArithmetic (avoids_ofIntOr (by decide) _)) fun remaining _ => ?_
  split
  · exact nofun
  · refine avoids_bind (avoids_liftArithmetic (avoids_ofIntOr (by decide) _)) fun exchanged _ => ?_
    exact avoids_ok _ _

/-- The liquidity has not fallen since the last minting, so there is some to share the growth. -/
theorem avoids_mintedTokens (hlast : 0 < last.toNat) :
    Avoids .divisionByZero (mintedTokens now last base supply) := by
  refine avoids_bind ?_ fun share _ => avoids_mulDivFloor _ _ hlast
  unfold baseShare
  refine avoids_bind (avoids_subChecked now last) fun growth hgrowth => ?_
  refine avoids_bind (avoids_addChecked base now) fun whole hwhole => avoids_mulDivFloor _ _ ?_
  rw [subChecked_eq_ok] at hgrowth
  rw [addChecked_eq_ok] at hwhole
  omega

theorem avoids_payOut (hbase : minted ≠ 0 → 0 < s.baseLiquidity.toNat) :
    Avoids .divisionByZero (s.payOut minted governmentFee) := by
  unfold RunState.payOut
  split
  · exact avoids_ok _ _
  · rename_i hminted
    refine avoids_bind (avoids_addChecked _ _) fun supply _ => ?_
    refine avoids_bind (avoids_mulDivFloor _ _ ?_) fun growth _ => avoids_ok _ _
    rw [toNat_widen _ (by decide)]
    exact hbase hminted

theorem avoids_mintFees (hmint : 0 < s.reinvestedAtMint.toNat) :
    Avoids (.arithmetic .divisionByZero) (s.mintFees governmentFee) := by
  unfold RunState.mintFees
  split
  · exact nofun
  · have hlast : 0 < (widen s.reinvestedAtMint).toNat := by
      rw [toNat_widen _ (by decide)]
      exact hmint
    refine avoids_bind (avoids_liftArithmetic (avoids_mintedTokens hlast)) fun minted hminted => ?_
    have hbase : minted ≠ 0 → 0 < s.baseLiquidity.toNat := fun hsome => by
      rw [← toNat_widen s.baseLiquidity (by decide)]
      exact base_pos_of_minted (liftArithmetic_eq_ok.mp hminted) hsome
    exact avoids_bind (avoids_liftArithmetic (avoids_payOut hbase)) fun paid _ => avoids_ok _ _

theorem avoids_crossLiquidity (liquidity : HalfWord) (net : LiquidityChange)
    (direction : Direction) :
    Avoids .divisionByZero (crossLiquidity liquidity net direction) := by
  have hchecked : ∀ adds : Bool, Avoids .divisionByZero
      (if adds then addChecked liquidity net.magnitude else subChecked liquidity net.magnitude) := by
    intro adds
    cases adds with
    | true => exact avoids_addChecked _ _
    | false => exact avoids_subChecked _ _
  exact hchecked _

theorem avoids_cross (s : RunState) (direction : Direction) (index : TickIndex)
    (records : TickMap TickRecord) :
    Avoids (.arithmetic .divisionByZero) (s.cross direction index records) := by
  unfold RunState.cross crossTick
  cases index.advance s.nextTick direction with
  | error cause => exact nofun
  | ok next =>
    cases records.get? s.nextTick with
    | none => exact nofun
    | some record =>
      simp only
      have havoids := avoids_crossLiquidity s.baseLiquidity record.liquidityNet direction
      cases hliquidity : crossLiquidity s.baseLiquidity record.liquidityNet direction with
      | ok beyond => exact avoids_ok _ _
      | error cause =>
        intro hfails
        rw [hliquidity, Failure.arithmetic.inj (Except.error.inj hfails)] at havoids
        exact havoids rfl

theorem avoids_leaveRange (hmint : 0 < s.reinvestedAtMint.toNat) :
    Avoids (.arithmetic .divisionByZero) (leaveRange trade index s records) := by
  refine avoids_bind (avoids_mintFees ?_) fun minted _ => avoids_cross _ _ _ _
  rw [syncSeconds_frame]
  exact hmint

end Edges

section Runs

theorem takeStep_divides_iff :
    takeStep trade s (edgePrice trade.direction s) = .error (.arithmetic .divisionByZero) ↔
      rangeStep s.liquidity s.sqrtPrice (aim trade s) trade.swapFee s.remaining trade.side
        trade.token = .error .divisionByZero := by
  refine bind_eq_error.trans ((or_iff_left ?_).trans liftArithmetic_fails_iff)
  rintro ⟨step, -, hfails⟩
  exact avoids_settle s step hfails

theorem advance_divides_iff_takeStep (hchained : Chained index)
    (h : Seated index trade.direction s) (hmint : 0 < s.reinvestedAtMint.toNat) :
    advance trade index s records = .error (.arithmetic .divisionByZero) ↔
      takeStep trade s (edgePrice trade.direction s) = .error (.arithmetic .divisionByZero) := by
  constructor
  · intro hfails
    rcases advance_eq_error hfails with hedge | hstep | hprice | ⟨moved, hsteps, hleave⟩
    · cases hedge
    · exact hstep
    · cases hprice
    · refine absurd hleave (avoids_leaveRange ?_)
      change 0 < moved.reinvestedAtMint.toNat
      rw [(sameRange_of_steps hsteps).reinvestedAtMint]
      exact hmint
  · intro hfails
    refine bind_eq_error.mpr (Or.inr ⟨edgePrice trade.direction s, ?_, ?_⟩)
    · exact liftPool_eq_ok.mpr (sqrtPriceAt_iff.mpr ⟨edge_inside hchained h, rfl⟩)
    · exact bind_eq_error.mpr (Or.inl hfails)

/-- A state of a run in which no divisor but the fee rate can be zero. -/
structure Divisible (trade : Trade) (index : TickIndex) (s : RunState) : Prop where
  seated : Seated index trade.direction s
  left : PartOf trade.side s.remaining s.remaining
  atMint : 0 < s.reinvestedAtMint.toNat

theorem advance_divides_iff (hchained : Chained index) (h : Divisible trade index s)
    (hlimit : 0 < trade.limit.toNat) (hfee : trade.swapFee.toNat < 100000)
    (hopen : ¬ s.Over trade.limit) :
    advance trade index s records = .error (.arithmetic .divisionByZero) ↔
      UsesUp trade s ∧ trade.swapFee = 0 ∧ trade.side = .buy ∧ Squarable (restUsage trade s) := by
  rw [advance_divides_iff_takeStep hchained h.seated h.atMint, takeStep_divides_iff]
  exact rangeStep_divides_iff (orderly_of_seated hchained h.seated hlimit hfee) h.left
    fun hzero => hopen (Or.inl hzero)

end Runs

section Swaps

theorem divisible_of_visits (hpool : Reachable pool) (h : Visits pool order q) :
    Divisible (tradeOf pool order) pool.index q.1 := by
  have hsound := sound_of_reachable hpool
  have hcovered := covered_of_reachable hpool
  obtain ⟨hchained, -, -⟩ := validate_eq_ok hsound.valid
  obtain ⟨entry, hentry, hreaches⟩ := h
  have hfirst : Seated pool.index (tradeOf pool order).direction entry :=
    seated_of_enter hsound hentry
  refine ⟨seated_of_reaches (p := (entry, pool.records)) hchained hfirst hreaches, ?_, ?_⟩
  · exact (part_reaches (p := (entry, pool.records)) (part_of_enter hentry).self_left
      hreaches).self_left
  · have hgrows := (backed_of_reaches hreaches).atMint
    rw [(enter_eq_ok.mp hentry).2] at hgrows
    change pool.reinvestedAtMint.toNat ≤ q.1.reinvestedAtMint.toNat at hgrows
    have hleast : minLiquidity.toNat ≤ q.1.reinvestedAtMint.toNat :=
      Nat.le_trans (Nat.le_trans hcovered.least hcovered.covered) hgrows
    exact Nat.lt_of_lt_of_le (by decide) hleast

/-- An order whose arithmetic fails has been accepted. -/
theorem accepted_of_swap_fails {cause : ArithmeticFailure}
    (h : swap pool order = .error (.arithmetic cause)) :
    order.quantity ≠ 0 ∧ LimitAhead (heading order) pool.sqrtPrice order.limit := by
  unfold swap at h
  split at h
  · cases h
  rename_i hquantity
  rcases bind_eq_error.mp h with hfails | ⟨⟨⟩, -, h⟩
  · exact absurd hfails (avoids_liftPool cause _)
  rcases bind_eq_error.mp h with hfails | ⟨trade, htrade, -⟩
  · obtain ⟨refusal, -, hsame⟩ := mapError_eq_error.mp hfails
    cases hsame
  · exact ⟨hquantity, (tradeOn_eq_ok.mp (mapError_eq_ok.mp htrade)).1⟩

/-- The arithmetic of a swap fails exactly where the order is accepted and a step fails so. -/
theorem swap_fails_iff {cause : ArithmeticFailure} (hvalid : pool.validate = .ok ()) :
    swap pool order = .error (.arithmetic cause) ↔
      (order.quantity ≠ 0 ∧ LimitAhead (heading order) pool.sqrtPrice order.limit) ∧
        ∃ q, Visits pool order q ∧ ¬ q.1.Over order.limit ∧
          advance (tradeOf pool order) pool.index q.1 q.2 = .error (.arithmetic cause) := by
  constructor
  · intro h
    refine ⟨accepted_of_swap_fails h, ?_⟩
    rcases swap_eq_error h with hzero | hlimit | ⟨other, -, hother⟩ | hstep
    · cases hzero
    · cases hlimit
    · cases hother
    · exact hstep
  · intro h
    rcases h with ⟨⟨hquantity, hahead⟩, q, ⟨entry, hentry, hreaches⟩, hopen, hfails⟩
    unfold swap
    rw [if_neg hquantity]
    refine bind_eq_error.mpr (Or.inr ⟨(), liftPool_eq_ok.mpr hvalid, ?_⟩)
    refine bind_eq_error.mpr (Or.inr ⟨tradeOf pool order, ?_, ?_⟩)
    · exact mapError_eq_ok.mpr (tradeOn_eq_ok.mpr ⟨hahead, rfl⟩)
    refine bind_eq_error.mpr (Or.inr ⟨entry, liftPool_eq_ok.mpr hentry, ?_⟩)
    refine bind_eq_error.mpr (Or.inl ?_)
    rw [simulate_enter _ _ _ hentry]
    exact runFrom_eq_error.mpr ⟨q, hreaches, hopen, hfails⟩

theorem widen_eq_zero_iff {units : ShortWord} : widen units = 0 ↔ units = 0 := by
  constructor
  · intro h
    refine BitVec.eq_of_toNat_eq ?_
    rw [← toNat_widen units (by decide), h]
    rfl
  · intro h
    rw [h]
    rfl

/-- On a pool with a history a swap divides by zero exactly where it is a purchase without a fee
that is used up in a range, while the coefficient of the equation for the fee can be squared. -/
theorem swap_divides_by_zero_iff (hpool : Reachable pool) :
    swap pool order = .error (.arithmetic .divisionByZero) ↔
      (order.quantity ≠ 0 ∧ LimitAhead (heading order) pool.sqrtPrice order.limit) ∧
        pool.swapFeeUnits = 0 ∧ sideOf order.quantity = .buy ∧
        ∃ q, Visits pool order q ∧ ¬ q.1.Over order.limit ∧ UsesUp (tradeOf pool order) q.1 ∧
          Squarable (restUsage (tradeOf pool order) q.1) := by
  have hvalid := (sound_of_reachable hpool).valid
  obtain ⟨hchained, -, hunits⟩ := validate_eq_ok hvalid
  have hfee : (tradeOf pool order).swapFee.toNat < 100000 := by
    change (widen pool.swapFeeUnits).toNat < 100000
    rw [toNat_widen _ (by decide)]
    exact hunits
  rw [swap_fails_iff hvalid]
  refine and_congr_right fun haccepted => ?_
  have hstep : ∀ q, Visits pool order q → ¬ q.1.Over order.limit →
      (advance (tradeOf pool order) pool.index q.1 q.2 = .error (.arithmetic .divisionByZero) ↔
        UsesUp (tradeOf pool order) q.1 ∧ (tradeOf pool order).swapFee = 0 ∧
          (tradeOf pool order).side = .buy ∧ Squarable (restUsage (tradeOf pool order) q.1)) :=
    fun q hvisits hopen => advance_divides_iff hchained (divisible_of_visits hpool hvisits)
      (limit_of_ahead haccepted.2).1 hfee hopen
  constructor
  · intro h
    rcases h with ⟨q, hvisits, hopen, hfails⟩
    obtain ⟨huses, hfree, hbuys, hsquare⟩ := (hstep q hvisits hopen).mp hfails
    exact ⟨widen_eq_zero_iff.mp hfree, hbuys, q, hvisits, hopen, huses, hsquare⟩
  · intro h
    rcases h with ⟨hfree, hbuys, q, hvisits, hopen, huses, hsquare⟩
    exact ⟨q, hvisits, hopen, (hstep q hvisits hopen).mpr
      ⟨huses, widen_eq_zero_iff.mpr hfree, hbuys, hsquare⟩⟩

/-- A purchase of ten units in a pool without a fee, and any trade in a pool that charges one. -/
theorem swap_divides_by_zero_free :
    ∃ free charging, Pool.create 0 0x1000000000000000000000000 = .ok free ∧
      Pool.create 1000 0x1000000000000000000000000 = .ok charging ∧
      (∃ q, Visits free (.unlimited .zero ⟨-10, by decide, by decide⟩) q ∧
        UsesUp (tradeOf free (.unlimited .zero ⟨-10, by decide, by decide⟩)) q.1 ∧
        Squarable
          (restUsage (tradeOf free (.unlimited .zero ⟨-10, by decide, by decide⟩)) q.1)) ∧
      ∀ order, swap charging order ≠ .error (.arithmetic .divisionByZero) := by
  have hrun : (do
      let free ← liftPool (Pool.create 0 0x1000000000000000000000000)
      let charging ← liftPool (Pool.create 1000 0x1000000000000000000000000)
      return decide (swap free (.unlimited .zero ⟨-10, by decide, by decide⟩) =
        .error (.arithmetic .divisionByZero) ∧ charging.swapFeeUnits ≠ 0)) = Except.ok true := by
    decide +kernel
  obtain ⟨free, hfree, hrun⟩ := bind_eq_ok.mp hrun
  obtain ⟨charging, hcharging, hrun⟩ := bind_eq_ok.mp hrun
  obtain ⟨hfails, hfee⟩ := of_decide_eq_true (Except.ok.inj hrun)
  rw [liftPool_eq_ok] at hfree hcharging
  obtain ⟨-, -, -, q, hvisits, -, huses, hsquare⟩ :=
    (swap_divides_by_zero_iff (reachable_create hfree)).mp hfails
  refine ⟨free, charging, hfree, hcharging, ⟨q, hvisits, huses, hsquare⟩, fun order h => ?_⟩
  exact hfee ((swap_divides_by_zero_iff (reachable_create hcharging)).mp h).2.1

/-- The equation for the fee of a purchase has no square term where there is no fee. -/
theorem swap_divides_by_fee :
    ¬ ∀ (pool : Pool) (order : Order), Reachable pool → order.quantity ≠ 0 →
      LimitAhead (heading order) pool.sqrtPrice order.limit →
      swap pool order ≠ .error (.arithmetic .divisionByZero) := by
  intro hclaim
  have hrun : (do
      let pool ← liftPool (Pool.create 0 0x1000000000000000000000000)
      let order := Order.unlimited .zero ⟨-10, by decide, by decide⟩
      return decide (order.quantity ≠ 0 ∧ LimitAhead (heading order) pool.sqrtPrice order.limit ∧
        swap pool order = .error (.arithmetic .divisionByZero))) = Except.ok true := by
    decide +kernel
  obtain ⟨pool, hpool, hrun⟩ := bind_eq_ok.mp hrun
  obtain ⟨hquantity, hahead, hfails⟩ := of_decide_eq_true (Except.ok.inj hrun)
  exact hclaim pool _ (reachable_create (liftPool_eq_ok.mp hpool)) hquantity hahead hfails

end Swaps

end ReinvestingPool.Proofs.FreePurchases
