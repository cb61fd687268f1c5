import ReinvestingPool.Proofs.RunFailures
import ReinvestingPool.Proofs.Stops

/-!
How much of its quantity a swap fills. What is left along a run is a part of the quantity, and a run
that ends with some of it left has come to the limit. So a swap fills the quantity exactly, or it
ends at the limit and fills less.
-/

namespace ReinvestingPool.Proofs.FilledAmounts

open Failures Words Directions SignedAmounts TickIndexes Pools PriceLimits Runs Simulations Swaps
open Paths StepFrames RunEnds Stops LargerAmounts Histories SwapRuns Batches RunFailures

/-- What a fill has in the token that its order names. -/
def namedLeg (token : Token) (fill : Fill) : Amount :=
  match token with
  | .zero => fill.amountZero
  | .one => fill.amountOne

/-- Nothing of a quantity, or less than all of it. -/
def FilledInPart (quantity filled : Amount) : Prop :=
  filled = 0 ∨ filled.toInt.sign = quantity.toInt.sign ∧
    filled.toInt.natAbs < quantity.toInt.natAbs

variable {trade : Trade} {index : TickIndex} {p : Point} {final entry : RunState} {pool : Pool}
variable {order : Order} {outcome : Outcome} {nearest : Int} {used left whole : Amount}

theorem phase_of_ends (h : Ends trade index p final) :
    final.phase = if final.remaining = 0 then .consumed else .limited := by
  cases h with
  | finished => rfl
  | stop => rfl

/-- A run that has some of its amount left has come to the limit. -/
theorem price_of_ends (h : Ends trade index p final) (hleft : final.remaining ≠ 0) :
    final.sqrtPrice = trade.limit := by
  by_cases hover : p.1.Over trade.limit
  · rw [final_of_over h hover] at hleft ⊢
    exact hover.resolve_left hleft
  · obtain ⟨moved, last, hstop, rfl⟩ := exists_stop h hover
    obtain ⟨hframe, -⟩ := locate_eq_ok hstop.located
    have hremaining : last.remaining = moved.remaining := by rw [hframe]
    have hprice : last.sqrtPrice = moved.sqrtPrice := by rw [hframe]
    rcases steps_ends hstop.steps with ⟨-, haim⟩ | ⟨-, hzero, -⟩
    · have hoff := hstop.off
      rw [haim] at hoff
      show last.sqrtPrice = trade.limit
      rw [hprice, haim, (aim_eq_limit hoff).1]
    · exact absurd (hremaining.trans hzero) hleft

/-- Where a part is left, no more than the rest has been filled. -/
theorem filledInPart_of_part (hpart : PartOf (sideOf whole) left whole) (hleft : left ≠ 0)
    (hused : used.toInt = whole.toInt - left.toInt) : FilledInPart whole used := by
  have hnonzero : left.toInt ≠ 0 := fun hzero => hleft (Signed.ext hzero)
  by_cases hnothing : used = 0
  · exact Or.inl hnothing
  have hsome : used.toInt ≠ 0 := fun hzero => hnothing (Signed.ext hzero)
  right
  by_cases hsells : 0 < whole.toInt
  · rw [sideOf, if_pos hsells] at hpart
    obtain ⟨hfrom, hto⟩ := hpart
    have hpos : 0 < used.toInt := by omega
    rw [Int.sign_eq_one_of_pos hpos, Int.sign_eq_one_of_pos hsells]
    omega
  · rw [sideOf, if_neg hsells] at hpart
    obtain ⟨hfrom, hto⟩ := hpart
    have hneg : used.toInt < 0 := by omega
    rw [Int.sign_eq_neg_one_of_neg hneg, Int.sign_eq_neg_one_of_neg (by omega)]
    omega

theorem namedLeg_fillOf : namedLeg order.token (fillOf pool order outcome nearest used) = used := by
  unfold namedLeg fillOf
  cases order.token with
  | zero => rfl
  | one => rfl

theorem filled_of_swap {fill : Fill} (h : swap pool order = .ok fill) :
    fill.phase = .consumed ∧ namedLeg order.token fill = order.quantity ∨
      fill.phase = .limited ∧ fill.pool.sqrtPrice = order.limit ∧
        FilledInPart order.quantity (namedLeg order.token fill) := by
  obtain ⟨entry, outcome, nearest, used, hrun, hused, rfl⟩ := exists_fillOf h
  rw [Signed.subChecked_eq_ok] at hused
  rw [namedLeg_fillOf]
  show outcome.final.phase = _ ∧ _ ∨ outcome.final.phase = _ ∧ outcome.final.sqrtPrice = _ ∧ _
  rw [phase_of_ends hrun.ends]
  by_cases hleft : outcome.final.remaining = 0
  · left
    rw [if_pos hleft]
    rw [hleft] at hused
    exact ⟨rfl, Signed.ext (hused.trans (Int.sub_zero _))⟩
  · right
    rw [if_neg hleft]
    exact ⟨rfl, price_of_ends hrun.ends hleft,
      filledInPart_of_part (part_of_run hrun.enter hrun.reaches hrun.ends) hleft hused⟩

/-- A swap is never refused because what is left would change its sign. It fills its quantity
exactly, or it ends at its limit with some of the quantity left. -/
theorem swap_fills (pool : Pool) (order : Order) :
    swap pool order ≠ .error (.trade .remainderChangedSign) ∧
      ∀ fill, swap pool order = .ok fill →
        fill.phase = .consumed ∧ namedLeg order.token fill = order.quantity ∨
        fill.phase = .limited ∧ fill.pool.sqrtPrice = order.limit ∧
          FilledInPart order.quantity (namedLeg order.token fill) := by
  constructor
  · exact swap_not_refused
  · intro fill h
    exact filled_of_swap h

/-- A sale that is stopped at its limit. -/
theorem swap_fills_in_part :
    ∃ pool fill, Pool.create 1000 0x1000000000000000000000000 = .ok pool ∧
      swap pool ⟨.zero, ⟨5000, by decide, by decide⟩, 79070813169550379477963957859⟩ = .ok fill ∧
      fill.phase = .limited ∧ fill.pool.sqrtPrice = 79070813169550379477963957859 ∧
      FilledInPart ⟨5000, by decide, by decide⟩ fill.amountZero := by
  have hrun : (do
      let pool ← liftPool (Pool.create 1000 0x1000000000000000000000000)
      let fill ← swap pool ⟨.zero, ⟨5000, by decide, by decide⟩, 79070813169550379477963957859⟩
      return decide (fill.phase ≠ .consumed)) = Except.ok true := by
    decide +kernel
  obtain ⟨pool, hpool, hrun⟩ := bind_eq_ok.mp hrun
  obtain ⟨fill, hfill, hrun⟩ := bind_eq_ok.mp hrun
  have hopen := of_decide_eq_true (Except.ok.inj hrun)
  refine ⟨pool, fill, liftPool_eq_ok.mp hpool, hfill, ?_⟩
  exact ((swap_fills pool _).2 fill hfill).resolve_left fun hfilled => hopen hfilled.1

end ReinvestingPool.Proofs.FilledAmounts
