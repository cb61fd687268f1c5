import ReinvestingPool.Proofs.ExactQuotients
import ReinvestingPool.Proofs.StepFrames

/-!
The ticks that a run crosses, each with the growth earned in the range that it leaves there. Growth
is counted per unit of active liquidity: the tokens that the crossing mints for the providers, and
the seconds that have passed since the last update.
-/

namespace ReinvestingPool.Proofs.RunCrossings

open Failures Words Scales TickMaps TickIndexes Pools Crossings Runs Simulations ExactQuotients
open Paths StepFrames

structure Crossing where
  tick : Int
  /-- The fees earned by each unit of liquidity. -/
  fees : Word
  /-- The seconds accumulated by each unit of liquidity. -/
  seconds : HalfWord
  deriving DecidableEq

/-- The fees in the tokens that the providers are given between two states. -/
def feesEarned (s t : RunState) : Word :=
  BitVec.ofNat 256 ((t.providerTokens - s.providerTokens).toNat * 2 ^ 96 / s.baseLiquidity.toNat)

/-- The seconds since the last update. There are none where the block is not a later one. -/
def secondsEarned (trade : Trade) (s : RunState) : HalfWord :=
  BitVec.ofNat 128
    ((trade.blockTime.toNat - s.secondsUpdatedAt.toNat) * 2 ^ 96 / s.baseLiquidity.toNat)

/-- The crossing of a step that leads from `s` to `t`. -/
def crossingTo (trade : Trade) (s t : RunState) : Crossing where
  tick := s.nextTick
  fees := feesEarned s t
  seconds := secondsEarned trade s

/-- The crossings of a run that goes on from a state, in the order in which they are made. -/
def crossingsFrom (trade : Trade) (index : TickIndex) (s : RunState)
    (records : TickMap TickRecord) : List Crossing :=
  if s.Over trade.limit then
    []
  else
    match _ : advance trade index s records with
    | .error _ => []
    | .ok (.stopped _) => []
    | .ok (.glided t) => crossingsFrom trade index t records
    | .ok (.crossed t flipped) => crossingTo trade s t :: crossingsFrom trade index t flipped
termination_by stepsLeft trade.direction s
decreasing_by
  · rename_i glides
    exact stepsLeft_lt_of_glided glides
  · rename_i crosses
    exact stepsLeft_lt_of_crossed crosses

/-- The crossings of a run from its first state. -/
def crossings (trade : Trade) (index : TickIndex) (s : RunState) (records : TickMap TickRecord) :
    List Crossing :=
  crossingsFrom trade index { s with phase := .advancing } records

variable {trade : Trade} {index : TickIndex} {s t moved final : RunState}
variable {records flipped : TickMap TickRecord} {p q : Point}

theorem crossingsFrom_eq :
    crossingsFrom trade index s records =
      if s.Over trade.limit then []
      else match advance trade index s records with
        | .error _ => []
        | .ok (.stopped _) => []
        | .ok (.glided t) => crossingsFrom trade index t records
        | .ok (.crossed t flipped) =>
          crossingTo trade s t :: crossingsFrom trade index t flipped := by
  rw [crossingsFrom]
  by_cases hover : s.Over trade.limit
  · rw [if_pos hover, if_pos hover]
  · rw [if_neg hover, if_neg hover]
    split <;> rename_i h <;> rw [h]

theorem crossingsFrom_of_glide (hopen : ¬ s.Over trade.limit)
    (h : advance trade index s records = .ok (.glided t)) :
    crossingsFrom trade index s records = crossingsFrom trade index t records := by
  rw [crossingsFrom_eq, if_neg hopen, h]

theorem crossingsFrom_of_cross (hopen : ¬ s.Over trade.limit)
    (h : advance trade index s records = .ok (.crossed t flipped)) :
    crossingsFrom trade index s records =
      crossingTo trade s t :: crossingsFrom trade index t flipped := by
  rw [crossingsFrom_eq, if_neg hopen, h]

theorem crossingsFrom_of_ends (h : Ends trade index p final) :
    crossingsFrom trade index p.1 p.2 = [] := by
  rw [crossingsFrom_eq]
  cases h with
  | finished hover => rw [if_pos hover]
  | stop hopen h => rw [if_neg hopen, h]

/-- What is paid out to the providers is added to the growth of fees. -/
theorem payOut_growth {minted governmentFee : Word} (h : s.payOut minted governmentFee = .ok t) :
    t.feeGrowth = s.feeGrowth + feesEarned s t := by
  unfold RunState.payOut at h
  split at h
  · cases h
    have hnothing : feesEarned s s = 0#256 := by
      unfold feesEarned
      rw [BitVec.sub_self, BitVec.toNat_zero, Nat.zero_mul, Nat.zero_div]
    rw [hnothing, BitVec.add_zero]
  · obtain ⟨supply, -, h⟩ := bind_eq_ok.mp h
    obtain ⟨growth, hgrowth, h⟩ := bind_eq_ok.mp h
    cases h
    obtain ⟨-, hvalue⟩ := mulDivFloor_eq_ok.mp hgrowth
    rw [toNat_priceUnit, toNat_widen _ (by decide)] at hvalue
    refine congrArg (s.feeGrowth + ·) ?_
    unfold feesEarned
    simp only
    rw [BitVec.add_comm, BitVec.add_sub_cancel, ← hvalue, BitVec.ofNat_toNat, BitVec.setWidth_eq]

theorem mintFees_growth {governmentFee : Word} (h : s.mintFees governmentFee = .ok t) :
    t.feeGrowth = s.feeGrowth + feesEarned s t := by
  unfold RunState.mintFees at h
  split at h
  · cases h
  · obtain ⟨minted, -, h⟩ := bind_eq_ok.mp h
    obtain ⟨paid, hpaid, h⟩ := bind_eq_ok.mp h
    cases h
    have hgrowth := payOut_growth (liftArithmetic_eq_ok.mp hpaid)
    exact hgrowth

theorem syncSeconds_growth (trade : Trade) (s : RunState) :
    (s.syncSeconds trade.blockTime).secondsPerLiquidity =
      s.secondsPerLiquidity + secondsEarned trade s := by
  unfold RunState.syncSeconds secondsEarned
  by_cases hlater : trade.blockTime ≤ s.secondsUpdatedAt
  · rw [if_pos hlater]
    rw [BitVec.le_def] at hlater
    rw [Nat.sub_eq_zero_of_le hlater, Nat.zero_mul, Nat.zero_div]
    exact (BitVec.add_zero _).symm
  · rw [if_neg hlater]
    simp only
    by_cases hempty : s.baseLiquidity = 0
    · rw [if_pos hempty, hempty, show (0 : HalfWord).toNat = 0 from rfl, Nat.div_zero]
      exact (BitVec.add_zero _).symm
    · rw [if_neg hempty]
      rw [BitVec.le_def] at hlater
      refine congrArg (s.secondsPerLiquidity + ·) (BitVec.eq_of_toNat_eq ?_)
      have helapsed : (trade.blockTime - s.secondsUpdatedAt).toNat =
          trade.blockTime.toNat - s.secondsUpdatedAt.toNat :=
        BitVec.toNat_sub_of_le (BitVec.le_def.mpr (by omega))
      have hshort := trade.blockTime.isLt
      have hinside : (trade.blockTime.toNat - s.secondsUpdatedAt.toNat) * 2 ^ 96 < 2 ^ 256 := by
        omega
      rw [toNat_lowHalf, BitVec.toNat_udiv, toNat_widen _ (by decide), BitVec.toNat_shiftLeft,
        toNat_widen _ (by decide), helapsed, Nat.shiftLeft_eq, priceBits,
        Nat.mod_eq_of_lt hinside, BitVec.toNat_ofNat]

/-- Leaving a range adds to both growths what the range has earned. -/
theorem leaveRange_growth (h : leaveRange trade index s records = .ok (t, flipped)) :
    t.feeGrowth = s.feeGrowth + feesEarned s t ∧
      t.secondsPerLiquidity = s.secondsPerLiquidity + secondsEarned trade s := by
  obtain ⟨minted, hminted, h⟩ := bind_eq_ok.mp h
  obtain ⟨beyond, next, -, rfl⟩ := RunState.cross_eq_ok.mp h
  have hseconds := congrArg RunState.secondsPerLiquidity (mintFees_frame hminted)
  have hfees := mintFees_growth hminted
  rw [syncSeconds_frame] at hfees
  exact ⟨hfees, hseconds.trans (syncSeconds_growth trade s)⟩

/-- What a step that crosses a tick does there. -/
structure Crosses (trade : Trade) (index : TickIndex) (s t : RunState)
    (records flipped : TickMap TickRecord) (record : TickRecord) : Prop where
  next : index.advance s.nextTick trade.direction = .ok t.nextTick
  found : records.get? s.nextTick = some record
  liquidity : crossLiquidity s.baseLiquidity record.liquidityNet trade.direction =
    .ok t.baseLiquidity
  flips : flipped = records.insert s.nextTick (flip t.feeGrowth t.secondsPerLiquidity record)
  count : t.ticksCrossed = s.ticksCrossed + 1
  fees : t.feeGrowth = s.feeGrowth + feesEarned s t
  seconds : t.secondsPerLiquidity = s.secondsPerLiquidity + secondsEarned trade s

theorem exists_crosses (h : advance trade index s records = .ok (.crossed t flipped)) :
    ∃ record, Crosses trade index s t records flipped record := by
  obtain ⟨moved, hsteps, -, -, hleave⟩ := advance_crossed_iff.mp h
  have hsame : SameRange s (landed trade.direction s moved) :=
    { sameRange_of_steps hsteps with }
  obtain ⟨record, hnext, hfound, hliquidity, hflipped, hframe⟩ := leaveRange_eq_ok hleave
  obtain ⟨hfees, hseconds⟩ := leaveRange_growth hleave
  have hcount := congrArg RunState.ticksCrossed hframe
  rw [hsame.nextTick] at hnext hfound hflipped
  rw [hsame.baseLiquidity] at hliquidity
  unfold feesEarned at hfees
  unfold secondsEarned at hseconds
  rw [hsame.feeGrowth, hsame.providerTokens, hsame.baseLiquidity] at hfees
  rw [hsame.secondsPerLiquidity, hsame.secondsUpdatedAt, hsame.baseLiquidity] at hseconds
  refine ⟨record, hnext, hfound, hliquidity, hflipped, ?_, hfees, hseconds⟩
  exact hcount.trans (congrArg (· + 1) hsame.ticksCrossed)

end ReinvestingPool.Proofs.RunCrossings
