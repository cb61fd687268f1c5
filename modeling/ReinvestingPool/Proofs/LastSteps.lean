import ReinvestingPool.Proofs.StepExchanges

/-!
What a run exchanges from a state on. A run that ends there exchanges what one step does. Where a
larger amount goes on from the same state and is used up in the same range, it exchanges no less
unless it is sold and its fee adds more liquidity.
-/

namespace ReinvestingPool.Proofs.LastSteps

open Failures Directions SignedAmounts TickMaps TickIndexes Pools RangeSteps Runs Simulations
open RestPrices StepEnds Paths StepFrames RunEnds LargerAmounts StepExchanges

def still (s : RunState) : RangeStep := ⟨s.sqrtPrice, 0, 0, 0⟩

/-- The step that a run takes in a state. It takes none with nothing left, or where a step fails. -/
def stepIn (trade : Trade) (s : RunState) : RangeStep :=
  if s.remaining = 0 then
    still s
  else
    match rangeStep s.liquidity s.sqrtPrice (aim trade s) trade.swapFee s.remaining trade.side
        trade.token with
    | .ok step => step
    | .error _ => still s

/-- What the step in a state comes to. -/
def stepLeg (trade : Trade) (s : RunState) : Int :=
  leg trade.side (stepIn trade s).exchanged.toInt

/-- What is exchanged from one state of a run to another. -/
def gained (trade : Trade) (s t : RunState) : Int :=
  leg trade.side (t.exchanged.toInt - s.exchanged.toInt)

/-- The state has nothing left, or a step that succeeds. -/
def Settled (trade : Trade) (s : RunState) : Prop :=
  s.remaining = 0 ∨ rangeStep s.liquidity s.sqrtPrice (aim trade s) trade.swapFee s.remaining
    trade.side trade.token = .ok (stepIn trade s)

instance (trade : Trade) (s : RunState) : Decidable (UsesUp trade s) :=
  decidable_of_iff
    (s.sqrtPrice ≠ aim trade s ∧
      (match reachAmount s.liquidity s.sqrtPrice (aim trade s) trade.swapFee trade.side
          trade.token with
        | .ok reach => !covers trade.side s.remaining reach
        | .error _ => false) = true) <| by
    refine and_congr_right fun _ => ?_
    cases reachAmount s.liquidity s.sqrtPrice (aim trade s) trade.swapFee trade.side
      trade.token with
    | ok reach => simp
    | error failure => simp

variable {trade : Trade} {index : TickIndex} {s moved final : RunState} {p q c : Point}
variable {records : TickMap TickRecord} {x : Amount}

theorem leg_add (side : Side) (x y : Int) : leg side (x + y) = leg side x + leg side y := by
  cases side with
  | sell => exact Int.neg_add
  | buy => rfl

/-- What has been exchanged up to a state, and what is exchanged from there on. -/
theorem leg_of_gained (trade : Trade) (s t : RunState) :
    leg trade.side t.exchanged.toInt = leg trade.side s.exchanged.toInt + gained trade s t := by
  unfold gained
  rw [← leg_add]
  exact congrArg (leg trade.side) (by omega)

theorem stepIn_of_nothing (h : s.remaining = 0) : stepIn trade s = still s := if_pos h

theorem stepIn_of_steps (hopen : s.remaining ≠ 0) (h : Steps trade s moved) :
    rangeStep s.liquidity s.sqrtPrice (aim trade s) trade.swapFee s.remaining trade.side
        trade.token = .ok (stepIn trade s) ∧
      moved.exchanged.toInt = s.exchanged.toInt + (stepIn trade s).exchanged.toInt := by
  obtain ⟨-, step, hstep, hsettle⟩ := steps_iff.mp h
  obtain ⟨remaining, exchanged, -, -, hexchanged, rfl⟩ := settle_eq_ok.mp hsettle
  have hsame : stepIn trade s = step := by
    unfold stepIn
    rw [if_neg hopen, hstep]
  rw [hsame]
  exact ⟨hstep, hexchanged⟩

theorem remaining_of_finish (h : ¬ s.finish.Fruitless) : s.remaining = 0 := by
  by_contra hopen
  exact h (Or.inl (if_neg hopen))

/-- From a state to the one after its step, a run exchanges what the step does. -/
theorem gained_of_steps {t : RunState} (hopen : s.remaining ≠ 0) (h : Steps trade s moved)
    (hgot : t.exchanged = moved.exchanged) : gained trade s t = stepLeg trade s := by
  obtain ⟨-, hexchanged⟩ := stepIn_of_steps hopen h
  apply congrArg (leg trade.side)
  rw [hgot, hexchanged]
  omega

/-- A run that stops in the range ahead exchanges what the step in that range does. -/
theorem gained_of_stop (h : Ends trade index p final) (hopen : ¬ p.1.Over trade.limit) :
    Settled trade p.1 ∧ gained trade p.1 final = stepLeg trade p.1 := by
  cases h with
  | finished hover => exact absurd hover hopen
  | @stop s last records _ h =>
    obtain ⟨moved, hsteps, -, hlocate⟩ := advance_stopped_iff.mp h
    have hleft : s.remaining ≠ 0 := fun hzero => hopen (Or.inl hzero)
    have hlast := congrArg RunState.exchanged (locate_eq_ok hlocate).1
    exact ⟨Or.inr (stepIn_of_steps hleft hsteps).1, gained_of_steps hleft hsteps hlast⟩

/-- A run that ends in a state with a result exchanges what the step in that state does. -/
theorem gained_of_ends (h : Ends trade index p final) (hfruitful : ¬ final.Fruitless) :
    Settled trade p.1 ∧ gained trade p.1 final = stepLeg trade p.1 := by
  by_cases hover : p.1.Over trade.limit
  · rw [final_of_over h hover] at hfruitful ⊢
    have hzero := remaining_of_finish hfruitful
    refine ⟨Or.inl hzero, ?_⟩
    unfold gained stepLeg
    rw [stepIn_of_nothing hzero]
    exact congrArg (leg trade.side) (Int.sub_self _)
  · exact gained_of_stop h hover

/-- An amount that is used up in the range ahead is exchanged in one step, also where that step
comes to rest on the edge of the range. -/
theorem gained_of_usesUp (hreaches : Reaches trade index p c) (hends : Ends trade index c final)
    (hfruitful : ¬ final.Fruitless) (huses : UsesUp trade p.1) :
    gained trade p.1 final = stepLeg trade p.1 := by
  rcases hreaches.cases_head with rfl | ⟨q, hmoves, hlater⟩
  · exact (gained_of_ends hends hfruitful).2
  · have hover := over_of_usesUp hmoves huses
    rcases hlater.cases_head with rfl | ⟨_, hnext, -⟩
    · obtain ⟨moved, hsteps, -, -, -, hgot, -⟩ := steps_of_moves hmoves
      rw [final_of_over hends hover]
      exact gained_of_steps (fun hzero => hmoves.isOpen (Or.inl hzero)) hsteps hgot
    · exact absurd hover hnext.isOpen

theorem settled_of_reaches (hreaches : Reaches trade index p c) (hends : Ends trade index c final)
    (hfruitful : ¬ final.Fruitless) : Settled trade p.1 := by
  rcases hreaches.cases_head with rfl | ⟨q, hmoves, -⟩
  · exact (gained_of_ends hends hfruitful).1
  · obtain ⟨moved, hsteps, -⟩ := steps_of_moves hmoves
    exact Or.inr (stepIn_of_steps (fun hzero => hmoves.isOpen (Or.inl hzero)) hsteps).1

theorem partialStep_of_usesUp {step : RangeStep} (huses : UsesUp trade s)
    (h : rangeStep s.liquidity s.sqrtPrice (aim trade s) trade.swapFee s.remaining trade.side
      trade.token = .ok step) :
    partialStep s.liquidity s.sqrtPrice trade.swapFee s.remaining trade.side trade.token =
      .ok step := by
  obtain ⟨hmove, reach, hreach, huncovered⟩ := huses
  rcases rangeStep_cases h with ⟨hstay, -⟩ | ⟨-, other, hother, hcase⟩
  · exact absurd hstay hmove
  · obtain rfl := Except.ok.inj (hreach.symm.trans hother)
    rcases hcase with ⟨hcovered, -⟩ | ⟨-, hpartial⟩
    · rw [huncovered] at hcovered
      cases hcovered
    · exact hpartial

/-- Where a larger amount is used up in the range ahead, a smaller one is, too. -/
theorem usesUp_of_larger (hpart : PartOf trade.side s.remaining x)
    (huses : UsesUp trade (holding s x)) : UsesUp trade s := by
  obtain ⟨hmove, reach, hreach, huncovered⟩ := huses
  refine ⟨hmove, reach, hreach, ?_⟩
  by_contra hcovered
  have hcovered := covers_larger hpart (Bool.eq_true_of_not_eq_false hcovered)
  exact Bool.false_ne_true (huncovered.symm.trans hcovered)

theorem holding_of_nothing (hpart : PartOf trade.side s.remaining x) (hx : x = 0) :
    holding s x = s := by
  rw [hx] at hpart
  rw [hx, ← hpart.eq_zero]
  rfl

section Larger

/-- With a larger amount, the step ends short of where it ends with the smaller one, or the fee adds
liquidity out of order. -/
def Lags (trade : Trade) (s larger : RunState) : Prop :=
  Before trade.direction (stepIn trade larger).next.toNat (stepIn trade s).next.toNat ∨
    ¬ FeeInOrder trade.side (stepIn trade s).added.toNat (stepIn trade larger).added.toNat

instance (trade : Trade) (s larger : RunState) : Decidable (Lags trade s larger) := by
  unfold Lags
  infer_instance

variable (hpart : PartOf trade.side s.remaining x)
variable (hsmaller : Settled trade s) (hlarger : Settled trade (holding s x))
include hpart hsmaller hlarger

/-- A step with more of the amount left comes to no less, unless it lags. -/
theorem stepLeg_mono (hnot : ¬ Lags trade s (holding s x)) :
    stepLeg trade s ≤ stepLeg trade (holding s x) := by
  obtain ⟨hnext, hfee⟩ := not_or.mp hnot
  rw [not_not] at hfee
  by_cases hzero : x = 0
  · rw [holding_of_nothing hpart hzero]
  have hmore := hlarger.resolve_left hzero
  by_cases hnothing : s.remaining = 0
  · unfold stepLeg
    rw [stepIn_of_nothing hnothing] at hnext hfee ⊢
    have hgain := rangeStep_leg_nonneg hmore hnext hfee
    cases hside : trade.side <;> rw [hside] at hgain <;> exact hgain
  · exact rangeStep_leg_mono (hsmaller.resolve_left hnothing) hmore hnext hfee

/-- Where both amounts are used up in the range, a larger purchase never costs less, and a larger
sale fetches no less unless its fee adds more liquidity. -/
theorem stepLeg_mono_of_usesUp (huses : UsesUp trade (holding s x))
    (hsale : trade.side = .sell →
      (stepIn trade (holding s x)).added.toNat ≤ (stepIn trade s).added.toNat) :
    stepLeg trade s ≤ stepLeg trade (holding s x) := by
  by_cases hx : x = 0
  · rw [holding_of_nothing hpart hx]
  refine stepLeg_mono hpart hsmaller hlarger ?_
  have hpartial := partialStep_of_usesUp huses (hlarger.resolve_left hx)
  by_cases hnothing : s.remaining = 0
  · have hfee : FeeInOrder trade.side 0 (stepIn trade (holding s x)).added.toNat := by
      rw [stepIn_of_nothing hnothing] at hsale
      cases hside : trade.side with
      | sell => exact hsale hside
      | buy => exact Nat.zero_le _
    have hnext := partialStep_onwards hpartial hfee
    unfold Lags
    rw [stepIn_of_nothing hnothing]
    exact not_or.mpr ⟨hnext, not_not.mpr hfee⟩
  · have hless := partialStep_of_usesUp (usesUp_of_larger hpart huses)
      (hsmaller.resolve_left hnothing)
    have hfee := partialStep_fee hpart hless hpartial hsale
    exact not_or.mpr ⟨partialStep_not_short hpart hless hpartial hfee, not_not.mpr hfee⟩

end Larger

/-- Where a larger amount comes to less than the last step of the smaller one, its own first step
lags, or some of what that comes to is lost later. -/
theorem lags_or_loses (hpart : PartOf trade.side s.remaining x) (hsmaller : Settled trade s)
    (hlarger : Settled trade (holding s x))
    (hless : gained trade (holding s x) final < stepLeg trade s) :
    Lags trade s (holding s x) ∨
      gained trade (holding s x) final < stepLeg trade (holding s x) := by
  by_contra hnone
  obtain ⟨hlags, hkept⟩ := not_or.mp hnone
  have hmono := stepLeg_mono hpart hsmaller hlarger hlags
  omega

/-- Where it is used up in the range ahead, it comes to less only if it is sold and its fee adds
more liquidity than that of the smaller one. -/
theorem sale_of_less (hpart : PartOf trade.side s.remaining x) (hsmaller : Settled trade s)
    (hreaches : Reaches trade index (holding s x, records) c) (hends : Ends trade index c final)
    (hfruitful : ¬ final.Fruitless) (huses : UsesUp trade (holding s x))
    (hless : gained trade (holding s x) final < stepLeg trade s) :
    trade.side = .sell ∧
      (stepIn trade s).added.toNat < (stepIn trade (holding s x)).added.toNat := by
  have hlarger : Settled trade (holding s x) := settled_of_reaches hreaches hends hfruitful
  have hwhole : gained trade (holding s x) final = stepLeg trade (holding s x) :=
    gained_of_usesUp hreaches hends hfruitful huses
  by_contra hnone
  have hsale : trade.side = .sell →
      (stepIn trade (holding s x)).added.toNat ≤ (stepIn trade s).added.toNat :=
    fun hside => Nat.not_lt.mp fun hmore => hnone ⟨hside, hmore⟩
  have hmono := stepLeg_mono_of_usesUp hpart hsmaller hlarger huses hsale
  omega

/-- A larger amount that goes on from `checkpoint` as `entry`, and ends in `final`, comes to less
than the step of the smaller one there. What brings that about is a consequence of it. -/
structure Slips (trade : Trade) (checkpoint entry final : RunState) : Prop where
  less : gained trade entry final < stepLeg trade checkpoint
  /-- Its own first step lags, or some of what that comes to is lost later. -/
  cause : Lags trade checkpoint entry ∨ gained trade entry final < stepLeg trade entry
  /-- Where it is used up in the range ahead, it is sold and its fee adds more liquidity. -/
  within : UsesUp trade entry → trade.side = .sell ∧
    (stepIn trade checkpoint).added.toNat < (stepIn trade entry).added.toNat

instance (trade : Trade) (checkpoint entry final : RunState) :
    Decidable (Slips trade checkpoint entry final) :=
  decidable_of_iff
    (gained trade entry final < stepLeg trade checkpoint ∧
      (Lags trade checkpoint entry ∨ gained trade entry final < stepLeg trade entry) ∧
      (UsesUp trade entry → trade.side = .sell ∧
        (stepIn trade checkpoint).added.toNat < (stepIn trade entry).added.toNat))
    ⟨fun h => ⟨h.1, h.2.1, h.2.2⟩, fun h => ⟨h.less, h.cause, h.within⟩⟩

/-- Whenever a larger amount comes to less, there is such a cause. -/
theorem slips_iff (hpart : PartOf trade.side s.remaining x) (hsettled : Settled trade s)
    (hreaches : Reaches trade index (holding s x, records) c)
    (hends : Ends trade index c final) (hfruitful : ¬ final.Fruitless) :
    Slips trade s (holding s x) final ↔ gained trade (holding s x) final < stepLeg trade s := by
  have hlarger : Settled trade (holding s x) := settled_of_reaches hreaches hends hfruitful
  exact ⟨Slips.less, fun hless => ⟨hless, lags_or_loses hpart hsettled hlarger hless,
    fun huses => sale_of_less hpart hsettled hreaches hends hfruitful huses hless⟩⟩

end ReinvestingPool.Proofs.LastSteps
