import ReinvestingPool.Proofs.Paths

/-!
What a step of a run changes and what it leaves alone. Its amounts change the price and the
reinvested liquidity of the range; leaving a range changes the active liquidity, the growth and
the next tick, and does not depend on what remains of the amount.
-/

namespace ReinvestingPool.Proofs.StepFrames

open Failures Words SignedAmounts TickMaps TickPrices TickIndexes Pools RangeSteps Crossings Runs
open Simulations Paths

variable {trade : Trade} {index : TickIndex} {s t moved last : RunState} {step : RangeStep}
variable {records flipped : TickMap TickRecord} {p q : Point}

theorem settle_eq_ok :
    s.settle step = .ok t ↔
      ∃ remaining exchanged : Amount,
        remaining.toInt = s.remaining.toInt - step.used.toInt ∧
        (remaining = 0 ∨ (remaining.toInt < 0 ↔ s.remaining.toInt < 0)) ∧
        exchanged.toInt = s.exchanged.toInt + step.exchanged.toInt ∧
        t = { s with
          remaining
          exchanged
          reinvestedLiquidity := s.reinvestedLiquidity + lowHalf step.added
          sqrtPrice := step.next } := by
  unfold RunState.settle
  constructor
  · intro h
    obtain ⟨remaining, hremaining, h⟩ := bind_eq_ok.mp h
    split at h
    · cases h
    · rename_i hsign
      obtain ⟨exchanged, hexchanged, h⟩ := bind_eq_ok.mp h
      rw [liftArithmetic_eq_ok, Signed.subChecked_eq_ok] at hremaining
      rw [liftArithmetic_eq_ok, Signed.addChecked_eq_ok] at hexchanged
      cases h
      have hkept : remaining = 0 ∨ (remaining.toInt < 0 ↔ s.remaining.toInt < 0) := by
        by_cases hzero : remaining = 0
        · exact Or.inl hzero
        · exact Or.inr (Decidable.not_not.mp fun hdiffers => hsign ⟨hzero, hdiffers⟩)
      exact ⟨remaining, exchanged, hremaining, hkept, hexchanged, rfl⟩
  · intro h
    rcases h with ⟨remaining, exchanged, hremaining, hkept, hexchanged, rfl⟩
    refine bind_eq_ok.mpr ⟨remaining, ?_, ?_⟩
    · rw [liftArithmetic_eq_ok, Signed.subChecked_eq_ok]
      exact hremaining
    · have hsign : ¬ (remaining ≠ 0 ∧ ¬ (remaining.toInt < 0 ↔ s.remaining.toInt < 0)) := by
        intro h
        rcases h with ⟨hnonzero, hdiffers⟩
        exact hkept.elim hnonzero hdiffers
      rw [if_neg hsign]
      refine bind_eq_ok.mpr ⟨exchanged, ?_, rfl⟩
      rw [liftArithmetic_eq_ok, Signed.addChecked_eq_ok]
      exact hexchanged

theorem steps_iff :
    Steps trade s moved ↔
      (minTick ≤ edgeTick trade.direction s ∧ edgeTick trade.direction s ≤ maxTick) ∧
      ∃ step, rangeStep s.liquidity s.sqrtPrice (aim trade s) trade.swapFee s.remaining trade.side
        trade.token = .ok step ∧ s.settle step = .ok moved := by
  refine and_congr_right fun _ => ?_
  unfold takeStep
  constructor
  · intro h
    obtain ⟨step, hstep, h⟩ := bind_eq_ok.mp h
    exact ⟨step, liftArithmetic_eq_ok.mp hstep, h⟩
  · intro h
    rcases h with ⟨step, hstep, h⟩
    exact bind_eq_ok.mpr ⟨step, liftArithmetic_eq_ok.mpr hstep, h⟩

/-- The amounts of a step touch neither the ticks nor the active liquidity. -/
theorem steps_frame (h : Steps trade s moved) :
    moved.currentTick = s.currentTick ∧ moved.nextTick = s.nextTick ∧
      moved.baseLiquidity = s.baseLiquidity ∧ moved.phase = s.phase := by
  obtain ⟨-, step, -, hsettle⟩ := steps_iff.mp h
  obtain ⟨remaining, exchanged, -, -, -, rfl⟩ := settle_eq_ok.mp hsettle
  exact ⟨rfl, rfl, rfl, rfl⟩

theorem syncSeconds_frame (s : RunState) (blockTime : ShortWord) :
    s.syncSeconds blockTime = { s with
      secondsUpdatedAt := (s.syncSeconds blockTime).secondsUpdatedAt
      secondsPerLiquidity := (s.syncSeconds blockTime).secondsPerLiquidity } := by
  unfold RunState.syncSeconds
  split
  · rfl
  · rfl

theorem payOut_frame {minted governmentFee : Word} (h : s.payOut minted governmentFee = .ok t) :
    t = { s with
      reinvestmentSupply := t.reinvestmentSupply
      governmentTokens := t.governmentTokens
      providerTokens := t.providerTokens
      feeGrowth := t.feeGrowth } := by
  unfold RunState.payOut at h
  split at h
  · cases h
    rfl
  · obtain ⟨supply, -, h⟩ := bind_eq_ok.mp h
    obtain ⟨growth, -, h⟩ := bind_eq_ok.mp h
    cases h
    rfl

theorem mintFees_frame {governmentFee : Word} (h : s.mintFees governmentFee = .ok t) :
    t = { s with
      reinvestmentSupply := t.reinvestmentSupply
      governmentTokens := t.governmentTokens
      providerTokens := t.providerTokens
      feeGrowth := t.feeGrowth
      reinvestedAtMint := s.reinvestedLiquidity } := by
  unfold RunState.mintFees at h
  split at h
  · cases h
  · obtain ⟨minted, -, h⟩ := bind_eq_ok.mp h
    obtain ⟨paid, hpaid, h⟩ := bind_eq_ok.mp h
    cases h
    rw [payOut_frame (liftArithmetic_eq_ok.mp hpaid)]

/-- Leaving a range flips the record at its edge and adds the net liquidity found there. -/
theorem leaveRange_eq_ok (h : leaveRange trade index s records = .ok (t, flipped)) :
    ∃ record, index.advance s.nextTick trade.direction = .ok t.nextTick ∧
      records.get? s.nextTick = some record ∧
      crossLiquidity s.baseLiquidity record.liquidityNet trade.direction = .ok t.baseLiquidity ∧
      flipped = records.insert s.nextTick (flip t.feeGrowth t.secondsPerLiquidity record) ∧
      t = { s with
        baseLiquidity := t.baseLiquidity
        reinvestedAtMint := s.reinvestedLiquidity
        feeGrowth := t.feeGrowth
        secondsPerLiquidity := t.secondsPerLiquidity
        secondsUpdatedAt := t.secondsUpdatedAt
        reinvestmentSupply := t.reinvestmentSupply
        governmentTokens := t.governmentTokens
        providerTokens := t.providerTokens
        nextTick := t.nextTick
        ticksCrossed := s.ticksCrossed + 1 } := by
  obtain ⟨minted, hminted, h⟩ := bind_eq_ok.mp h
  have hsynced := syncSeconds_frame s trade.blockTime
  have hminted := mintFees_frame hminted
  rw [hsynced] at hminted
  obtain ⟨beyond, next, hcross, rfl⟩ := RunState.cross_eq_ok.mp h
  obtain ⟨hnext, record, hrecord, hflipped, hliquidity⟩ := crossTick_eq_ok.mp hcross
  rw [hminted] at hnext hrecord hflipped hliquidity
  refine ⟨record, hnext, hrecord, hliquidity, ?_, ?_⟩
  · rw [hminted]
    exact hflipped
  · rw [hminted]

theorem locate_eq_ok {before : Word} (h : s.locate before = .ok last) :
    last = { s with currentTick := last.currentTick } ∧
      (s.sqrtPrice = before ∧ last.currentTick = s.currentTick ∨
        s.sqrtPrice ≠ before ∧ tickAt s.sqrtPrice = .ok last.currentTick) := by
  unfold RunState.locate at h
  by_cases hstay : s.sqrtPrice = before
  · rw [if_pos hstay] at h
    cases h
    exact ⟨rfl, Or.inl ⟨hstay, rfl⟩⟩
  · rw [if_neg hstay] at h
    obtain ⟨tick, htick, h⟩ := bind_eq_ok.mp h
    cases h
    exact ⟨rfl, Or.inr ⟨hstay, htick⟩⟩

/-- Two states of a run with no crossing between them. -/
structure SameRange (s t : RunState) : Prop where
  nextTick : t.nextTick = s.nextTick
  baseLiquidity : t.baseLiquidity = s.baseLiquidity
  reinvestedAtMint : t.reinvestedAtMint = s.reinvestedAtMint
  feeGrowth : t.feeGrowth = s.feeGrowth
  secondsPerLiquidity : t.secondsPerLiquidity = s.secondsPerLiquidity
  secondsUpdatedAt : t.secondsUpdatedAt = s.secondsUpdatedAt
  reinvestmentSupply : t.reinvestmentSupply = s.reinvestmentSupply
  governmentTokens : t.governmentTokens = s.governmentTokens
  providerTokens : t.providerTokens = s.providerTokens
  ticksCrossed : t.ticksCrossed = s.ticksCrossed

theorem sameRange_of_steps (h : Steps trade s moved) : SameRange s moved := by
  obtain ⟨-, step, -, hsettle⟩ := steps_iff.mp h
  obtain ⟨remaining, exchanged, -, -, -, rfl⟩ := settle_eq_ok.mp hsettle
  constructor <;> rfl

theorem sameRange_of_glide (h : advance trade index s records = .ok (.glided t)) :
    SameRange s t := by
  obtain ⟨moved, hsteps, -, -, rfl⟩ := advance_glided_iff.mp h
  exact { sameRange_of_steps hsteps with }

/-- The end of a run crosses nothing. -/
theorem sameRange_of_ends {final : RunState} (h : Ends trade index p final) :
    SameRange p.1 final := by
  cases h with
  | finished => constructor <;> rfl
  | stop _ h =>
    obtain ⟨moved, hsteps, -, hlocate⟩ := advance_stopped_iff.mp h
    rw [(locate_eq_ok hlocate).1]
    exact { sameRange_of_steps hsteps with }

/-- Whether it glides or crosses, a move puts the run on the edge that lay ahead. -/
theorem steps_of_moves (h : Moves trade index p q) :
    ∃ moved, Steps trade p.1 moved ∧ moved.sqrtPrice = edgePrice trade.direction p.1 ∧
      q.1.sqrtPrice = moved.sqrtPrice ∧ q.1.remaining = moved.remaining ∧
      q.1.exchanged = moved.exchanged ∧ q.1.reinvestedLiquidity = moved.reinvestedLiquidity ∧
      q.1.currentTick = landingTick trade.direction (edgeTick trade.direction p.1) := by
  cases h with
  | glide _ h =>
    obtain ⟨moved, hsteps, hedge, -, rfl⟩ := advance_glided_iff.mp h
    exact ⟨moved, hsteps, hedge, rfl, rfl, rfl, rfl, rfl⟩
  | cross _ h =>
    obtain ⟨moved, hsteps, hedge, -, hleave⟩ := advance_crossed_iff.mp h
    obtain ⟨record, -, -, -, -, hframe⟩ := leaveRange_eq_ok hleave
    rw [hframe]
    exact ⟨moved, hsteps, hedge, rfl, rfl, rfl, rfl, rfl⟩

/-- A move keeps the tick ahead or, where it has come to it, goes on to the one after it. -/
theorem nextTick_of_moves (h : Moves trade index p q) :
    (edgeTick trade.direction p.1 ≠ p.1.nextTick ∧ q.1.nextTick = p.1.nextTick) ∨
      (edgeTick trade.direction p.1 = p.1.nextTick ∧
        index.advance p.1.nextTick trade.direction = .ok q.1.nextTick) := by
  cases h with
  | glide _ h =>
    obtain ⟨moved, hsteps, -, hnext, rfl⟩ := advance_glided_iff.mp h
    exact Or.inl ⟨hnext, (steps_frame hsteps).2.1⟩
  | cross _ h =>
    obtain ⟨moved, hsteps, -, hnext, hleave⟩ := advance_crossed_iff.mp h
    obtain ⟨record, hadvance, -⟩ := leaveRange_eq_ok hleave
    change index.advance moved.nextTick trade.direction = _ at hadvance
    rw [(steps_frame hsteps).2.1] at hadvance
    exact Or.inr ⟨hnext, hadvance⟩

theorem phase_of_moves (h : Moves trade index p q) : q.1.phase = p.1.phase := by
  cases h with
  | glide _ h =>
    obtain ⟨moved, hsteps, -, -, rfl⟩ := advance_glided_iff.mp h
    exact (steps_frame hsteps).2.2.2
  | cross _ h =>
    obtain ⟨moved, hsteps, -, -, hleave⟩ := advance_crossed_iff.mp h
    obtain ⟨record, -, -, -, -, hframe⟩ := leaveRange_eq_ok hleave
    rw [hframe]
    exact (steps_frame hsteps).2.2.2

theorem phase_of_reaches (h : Reaches trade index p q) : q.1.phase = p.1.phase := by
  induction h with
  | refl => rfl
  | tail _ hmoves ih => exact (phase_of_moves hmoves).trans ih

end ReinvestingPool.Proofs.StepFrames
