import ReinvestingPool.Proofs.RunEnds

/-!
Running a larger amount. A step to its target is the same for every amount that covers it, and what
happens between two ranges does not depend on the amount at all. What is left of an amount along a
run is a part of it.
-/

namespace ReinvestingPool.Proofs.LargerAmounts

open Failures Words Directions SignedAmounts TickMaps TickIndexes Pools RangeSteps Runs Simulations
open RestPrices StepEnds Paths StepFrames

/-- An amount of the same sign that is no greater. -/
def PartOf (side : Side) (a b : Amount) : Prop :=
  match side with
  | .sell => 0 ≤ a.toInt ∧ a.toInt ≤ b.toInt
  | .buy => a.toInt ≤ 0 ∧ b.toInt ≤ a.toInt

/-- The state with another amount left. -/
def holding (s : RunState) (remaining : Amount) : RunState := { s with remaining }

theorem PartOf.trans {side : Side} {a b c : Amount} (hab : PartOf side a b)
    (hbc : PartOf side b c) : PartOf side a c := by
  cases side with
  | sell => exact ⟨hab.1, Int.le_trans hab.2 hbc.2⟩
  | buy => exact ⟨hab.1, Int.le_trans hbc.2 hab.2⟩

theorem PartOf.antisymm {side : Side} {a b : Amount} (hab : PartOf side a b)
    (hba : PartOf side b a) : a = b := by
  cases side with
  | sell => exact Signed.ext (Int.le_antisymm hab.2 hba.2)
  | buy => exact Signed.ext (Int.le_antisymm hba.2 hab.2)

theorem PartOf.self_left {side : Side} {a b : Amount} (h : PartOf side a b) : PartOf side a a := by
  cases side with
  | sell => exact ⟨h.1, Int.le_refl _⟩
  | buy => exact ⟨h.1, Int.le_refl _⟩

theorem PartOf.eq_zero {side : Side} {a : Amount} (h : PartOf side a 0) : a = 0 := by
  cases side with
  | sell => exact Signed.ext (Int.le_antisymm h.2 h.1)
  | buy => exact Signed.ext (Int.le_antisymm h.1 h.2)

/-- What a part leaves of an amount is an amount. -/
theorem PartOf.exists_rest {side : Side} {a b c : Amount} (hab : PartOf side a b)
    (hbc : PartOf side b c) : ∃ d : Amount, d.toInt = a.toInt + (c.toInt - b.toInt) ∧
      PartOf side a d ∧ PartOf side d c := by
  have hlower := c.lower
  have hupper := c.upper
  have hbound := a.lower
  have hbound' := a.upper
  cases side with
  | sell =>
    simp only [PartOf] at hab hbc ⊢
    obtain ⟨d, hd⟩ : ∃ d : Amount, d.toInt = a.toInt + (c.toInt - b.toInt) :=
      ⟨⟨_, by omega, by omega⟩, rfl⟩
    exact ⟨d, hd, by omega, by omega⟩
  | buy =>
    simp only [PartOf] at hab hbc ⊢
    obtain ⟨d, hd⟩ : ∃ d : Amount, d.toInt = a.toInt + (c.toInt - b.toInt) :=
      ⟨⟨_, by omega, by omega⟩, rfl⟩
    exact ⟨d, hd, by omega, by omega⟩

section Steps

variable {liquidity current target fee : Word} {specified larger : Amount} {side : Side}
variable {token : Token} {step : RangeStep}

/-- What a step uses is a part of what was specified. -/
theorem part_used (hside : PartOf side specified specified)
    (h : rangeStep liquidity current target fee specified side token = .ok step) :
    PartOf side step.used specified := by
  rcases rangeStep_cases h with ⟨-, rfl⟩ | ⟨-, reach, hreach, ⟨hcovers, hfull⟩ | ⟨-, hpartial⟩⟩
  · cases side with
    | sell => exact ⟨Int.le_refl 0, hside.1⟩
    | buy => exact ⟨Int.le_refl 0, hside.1⟩
  · rw [(fullStep_eq_ok hfull).1]
    cases side with
    | sell => exact ⟨reachAmount_nonneg hreach, of_decide_eq_true hcovers⟩
    | buy => exact ⟨reachAmount_nonpos hreach, Int.le_of_lt (of_decide_eq_true hcovers)⟩
  · rw [(partialStep_eq_ok hpartial).1]
    exact hside

/-- What a run takes over from a step. Of the added liquidity it keeps the low half. -/
def effect (step : RangeStep) : Word × Amount × Amount × HalfWord :=
  (step.next, step.used, step.exchanged, lowHalf step.added)

/-- The amount is used up on the way, and not as a full step would use it. -/
def Deviates (liquidity current target fee : Word) (specified : Amount) (side : Side)
    (token : Token) : Prop :=
  current ≠ target ∧ ∃ reach,
    reachAmount liquidity current target fee side token = .ok reach ∧
    covers side specified reach = false ∧
    (fullStep liquidity current target reach side token).map effect ≠
      (partialStep liquidity current fee specified side token).map effect

theorem covers_larger {reach : Amount} (hpart : PartOf side specified larger)
    (h : covers side specified reach = true) : covers side larger reach = true := by
  cases side with
  | sell => exact decide_eq_true (Int.le_trans (of_decide_eq_true h) hpart.2)
  | buy => exact decide_eq_true (Int.lt_of_le_of_lt hpart.2 (of_decide_eq_true h))

/-- A purchase of exactly the reach amount is the only one that is not full although a larger one
takes no more. -/
theorem covers_of_used_up {reach : Amount} (hpart : PartOf side specified larger)
    (hlarger : larger ≠ specified) (hspecified : specified = reach)
    (h : covers side specified reach = false) : covers side larger reach = true := by
  subst hspecified
  cases side with
  | sell => exact absurd (Int.le_refl _) (of_decide_eq_false h)
  | buy =>
    have hdiffers : larger.toInt ≠ specified.toInt := fun hsame => hlarger (Signed.ext hsame)
    have hmore := hpart.2
    exact decide_eq_true (by omega)

theorem effect_eq_iff {other : RangeStep} :
    effect other = effect step ↔ other.next = step.next ∧ other.used = step.used ∧
      other.exchanged = step.exchanged ∧ lowHalf other.added = lowHalf step.added := by
  unfold effect
  rw [Prod.mk.injEq, Prod.mk.injEq, Prod.mk.injEq]

theorem rangeStep_larger (hpart : PartOf side specified larger)
    (hnot : ¬ Deviates liquidity current target fee specified side token)
    (h : rangeStep liquidity current target fee specified side token = .ok step) :
    ∃ other, rangeStep liquidity current target fee larger side token = .ok other ∧
      effect other = effect step := by
  by_cases hsame : larger = specified
  · rw [hsame]
    exact ⟨step, h, rfl⟩
  rcases rangeStep_cases h with ⟨hstay, rfl⟩ | ⟨hmove, reach, hreach, hcase⟩
  · unfold rangeStep
    rw [if_pos hstay]
    exact ⟨_, rfl, rfl⟩
  · have hfull : covers side larger reach = true ∧ ∃ other,
        fullStep liquidity current target reach side token = .ok other ∧
        effect other = effect step := by
      rcases hcase with ⟨hcovers, hfull⟩ | ⟨huncovered, hpartial⟩
      · exact ⟨covers_larger hpart hcovers, step, hfull, rfl⟩
      · have hagree : (fullStep liquidity current target reach side token).map effect =
            (partialStep liquidity current fee specified side token).map effect := by
          by_contra hdiffers
          exact hnot ⟨hmove, reach, hreach, huncovered, hdiffers⟩
        rw [hpartial] at hagree
        obtain ⟨other, hother, heffect⟩ := map_eq_ok.mp hagree
        have hused := (effect_eq_iff.mp heffect).2.1
        rw [(fullStep_eq_ok hother).1, (partialStep_eq_ok hpartial).1] at hused
        exact ⟨covers_of_used_up hpart hsame hused.symm huncovered, other, hother, heffect⟩
    obtain ⟨hcovers, other, hother, heffect⟩ := hfull
    refine ⟨other, ?_, heffect⟩
    unfold rangeStep
    rw [if_neg hmove]
    refine bind_eq_ok.mpr ⟨reach, hreach, ?_⟩
    rw [if_pos hcovers]
    exact hother

end Steps

variable {trade : Trade} {index : TickIndex} {s t moved : RunState} {p q c : Point}
variable {records flipped : TickMap TickRecord} {final : RunState} {x y : Amount}

theorem syncSeconds_holding (s : RunState) (x : Amount) (blockTime : ShortWord) :
    (holding s x).syncSeconds blockTime = holding (s.syncSeconds blockTime) x := by
  unfold RunState.syncSeconds holding
  simp only
  split
  · rfl
  · rfl

theorem mintFees_holding {governmentFee : Word} (h : s.mintFees governmentFee = .ok t) :
    (holding s x).mintFees governmentFee = .ok (holding t x) := by
  unfold RunState.mintFees at h ⊢
  split at h
  · cases h
  · rename_i hsupply
    obtain ⟨minted, hminted, h⟩ := bind_eq_ok.mp h
    obtain ⟨paid, hpaid, h⟩ := bind_eq_ok.mp h
    cases h
    rw [if_neg (by exact hsupply)]
    refine bind_eq_ok.mpr ⟨minted, hminted, bind_eq_ok.mpr ⟨holding paid x, ?_, rfl⟩⟩
    rw [liftArithmetic_eq_ok] at hpaid ⊢
    unfold RunState.payOut at hpaid ⊢
    split at hpaid
    · cases hpaid
      rw [if_pos (by assumption)]
    · rw [if_neg (by assumption)]
      obtain ⟨supply, hadded, hpaid⟩ := bind_eq_ok.mp hpaid
      obtain ⟨growth, hgrowth, hpaid⟩ := bind_eq_ok.mp hpaid
      cases hpaid
      exact bind_eq_ok.mpr ⟨supply, hadded, bind_eq_ok.mpr ⟨growth, hgrowth, rfl⟩⟩

/-- Leaving a range does not depend on what is left of the amount. -/
theorem leaveRange_holding (h : leaveRange trade index s records = .ok (t, flipped)) :
    leaveRange trade index (holding s x) records = .ok (holding t x, flipped) := by
  obtain ⟨minted, hminted, h⟩ := bind_eq_ok.mp h
  obtain ⟨beyond, next, hcross, rfl⟩ := RunState.cross_eq_ok.mp h
  refine bind_eq_ok.mpr ⟨holding minted x, ?_, ?_⟩
  · rw [syncSeconds_holding]
    exact mintFees_holding hminted
  · exact RunState.cross_eq_ok.mpr ⟨beyond, next, hcross, rfl⟩

/-- What is left after a step is a part of what was left before it. -/
theorem part_steps (hside : PartOf trade.side s.remaining s.remaining) (h : Steps trade s moved) :
    PartOf trade.side moved.remaining s.remaining := by
  obtain ⟨-, step, hstep, hsettle⟩ := steps_iff.mp h
  obtain ⟨remaining, exchanged, hremaining, -, -, rfl⟩ := settle_eq_ok.mp hsettle
  have hused := part_used hside hstep
  revert hused
  change _ → PartOf trade.side remaining s.remaining
  unfold PartOf
  cases trade.side with
  | sell =>
    simp only
    omega
  | buy =>
    simp only
    omega

theorem part_moves (hside : PartOf trade.side p.1.remaining p.1.remaining)
    (h : Moves trade index p q) : PartOf trade.side q.1.remaining p.1.remaining := by
  obtain ⟨moved, hsteps, -, -, hremaining, -⟩ := steps_of_moves h
  rw [hremaining]
  exact part_steps hside hsteps

theorem part_reaches (hside : PartOf trade.side p.1.remaining p.1.remaining)
    (h : Reaches trade index p c) : PartOf trade.side c.1.remaining p.1.remaining := by
  induction h with
  | refl => exact hside
  | tail _ hmoves ih => exact (part_moves ih.self_left hmoves).trans ih

theorem part_ends (hside : PartOf trade.side p.1.remaining p.1.remaining)
    (h : Ends trade index p final) : PartOf trade.side final.remaining p.1.remaining := by
  cases h with
  | finished => exact hside
  | stop _ h =>
    obtain ⟨moved, hsteps, -, hlocate⟩ := advance_stopped_iff.mp h
    have hremaining := congrArg RunState.remaining (locate_eq_ok hlocate).1
    have hpart := part_steps hside hsteps
    rw [← hremaining] at hpart
    exact hpart

/-- A step that does not deviate is the same step for a larger amount. -/
theorem steps_holding (hpart : PartOf trade.side s.remaining x) (hopen : s.remaining ≠ 0)
    (hnot : ¬ Deviates s.liquidity s.sqrtPrice (aim trade s) trade.swapFee s.remaining trade.side
      trade.token)
    (h : Steps trade s moved)
    (hy : y.toInt = moved.remaining.toInt + (x.toInt - s.remaining.toInt)) :
    Steps trade (holding s x) (holding moved y) := by
  have hleft := part_steps hpart.self_left h
  have hnonzero : s.remaining.toInt ≠ 0 := fun hzero => hopen (Signed.ext hzero)
  obtain ⟨hinside, step, hstep, hsettle⟩ := steps_iff.mp h
  obtain ⟨remaining, exchanged, hremaining, -, hexchanged, rfl⟩ := settle_eq_ok.mp hsettle
  obtain ⟨other, hother, heffect⟩ := rangeStep_larger hpart hnot hstep
  refine steps_iff.mpr ⟨hinside, other, hother, ?_⟩
  change PartOf trade.side remaining s.remaining at hleft
  change y.toInt = remaining.toInt + (x.toInt - s.remaining.toInt) at hy
  have hsign : y = 0 ∨ (y.toInt < 0 ↔ x.toInt < 0) := by
    by_cases hzero : y = 0
    · exact Or.inl hzero
    · have hy' : y.toInt ≠ 0 := fun hzero' => hzero (Signed.ext hzero')
      refine Or.inr ?_
      revert hleft hpart
      unfold PartOf
      cases trade.side with
      | sell =>
        simp only
        omega
      | buy =>
        simp only
        omega
  obtain ⟨hnext, hused, hgot, hadded⟩ := effect_eq_iff.mp heffect
  refine settle_eq_ok.mpr ⟨y, exchanged, ?_, hsign, ?_, ?_⟩
  · change y.toInt = x.toInt - other.used.toInt
    rw [hused]
    omega
  · rw [hgot]
    exact hexchanged
  · rw [hadded, hnext]
    rfl

end ReinvestingPool.Proofs.LargerAmounts
