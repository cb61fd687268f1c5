import Mathlib.Data.BitVec
import ReinvestingPool.Proofs.Histories
import ReinvestingPool.Proofs.Resumptions
import ReinvestingPool.Proofs.RunCrossings
import ReinvestingPool.Proofs.RunTicks

/-!
Where growth is attributed. The growth below a tick is what its record keeps, or what is left of
the total without it. A run adds to it what is earned at the crossings that lie below the tick, and
to the total what is earned at all crossings, whichever kind of growth is counted.
-/

namespace ReinvestingPool.Proofs.GrowthBelow

open Failures Words Directions SignedAmounts TickMaps TickIndexes Pools Crossings Runs Simulations
open Paths StepFrames IndexChains Histories Resumptions RunCrossings RunTicks

/-- A kind of growth: its total, the part that a record keeps and what a crossing earns of it. -/
structure Growth (w : Nat) where
  total : RunState → BitVec w
  outside : TickRecord → BitVec w
  earned : Crossing → BitVec w
  total_of_sameRange : ∀ {s t : RunState}, SameRange s t → total t = total s
  total_of_crosses : ∀ {trade : Trade} {index : TickIndex} {s t : RunState}
    {records flipped : TickMap TickRecord} {record : TickRecord},
    Crosses trade index s t records flipped record →
      total t = total s + earned (crossingTo trade s t)
  outside_flip : ∀ (s : RunState) (record : TickRecord),
    outside (flip s.feeGrowth s.secondsPerLiquidity record) = total s - outside record

/-- Whether a tick is below the cursor of a run that has `next` ahead. -/
def BelowCursor (direction : Direction) (next tick : Int) : Prop :=
  match direction with
  | .rising => tick < next
  | .falling => tick ≤ next

instance (direction : Direction) (next tick : Int) : Decidable (BelowCursor direction next tick) :=
  match direction with
  | .rising => inferInstanceAs (Decidable (tick < next))
  | .falling => inferInstanceAs (Decidable (tick ≤ next))

/-- Whether what is earned at a crossing is growth below a tick. -/
def EarnedBelow (direction : Direction) (tick crossed : Int) : Prop :=
  match direction with
  | .rising => crossed ≤ tick
  | .falling => crossed < tick

instance (direction : Direction) (tick crossed : Int) :
    Decidable (EarnedBelow direction tick crossed) :=
  match direction with
  | .rising => inferInstanceAs (Decidable (crossed ≤ tick))
  | .falling => inferInstanceAs (Decidable (crossed < tick))

namespace Growth

variable {w : Nat}

def fees : Growth 256 where
  total := RunState.feeGrowth
  outside := TickRecord.feeGrowthOutside
  earned := Crossing.fees
  total_of_sameRange h := h.feeGrowth
  total_of_crosses h := h.fees
  outside_flip _ _ := rfl

def seconds : Growth 128 where
  total := RunState.secondsPerLiquidity
  outside := TickRecord.secondsPerLiquidityOutside
  earned := Crossing.seconds
  total_of_sameRange h := h.secondsPerLiquidity
  total_of_crosses h := h.seconds
  outside_flip _ _ := rfl

/-- The growth below a tick with a record, as a run sees it in a state. -/
def below (growth : Growth w) (direction : Direction) (s : RunState) (tick : Int)
    (record : TickRecord) : BitVec w :=
  if BelowCursor direction s.nextTick tick then growth.outside record
  else growth.total s - growth.outside record

/-- What some crossings earn in all. -/
def sum (growth : Growth w) (crossings : List Crossing) : BitVec w :=
  (crossings.map growth.earned).sum

/-- What some crossings earn below a tick. -/
def sumBelow (growth : Growth w) (direction : Direction) (tick : Int)
    (crossings : List Crossing) : BitVec w :=
  growth.sum (crossings.filter fun crossing => EarnedBelow direction tick crossing.tick)

end Growth

variable {w : Nat} (growth : Growth w)
variable {trade : Trade} {index : TickIndex} {direction : Direction} {s t : RunState}
variable {records flipped : TickMap TickRecord} {record kept : TickRecord} {p q c : Point}
variable {final : RunState} {outcome : Outcome} {tick next after : Int}

/-- What is earned at the tick ahead is growth below the ticks that are not below the cursor. -/
theorem earnedBelow_iff : EarnedBelow direction tick next ↔ ¬ BelowCursor direction next tick := by
  cases direction with
  | rising => exact Int.not_lt.symm
  | falling => exact Int.not_le.symm

/-- Another entry does not change its side of the cursor where the tick ahead is crossed. -/
theorem belowCursor_of_adjacent (h : AdjacentToward index direction next after)
    (hentry : index.contains tick = true) (hother : tick ≠ next) :
    BelowCursor direction after tick ↔ BelowCursor direction next tick := by
  cases direction with
  | rising =>
    have hnone := h.none_between tick hentry
    have hless := h.lt
    simp only [BelowCursor]
    omega
  | falling =>
    have hnone := h.none_between tick hentry
    have hless := h.lt
    simp only [BelowCursor]
    omega

theorem below_of_sameRange (h : SameRange s t) :
    growth.below direction t tick record = growth.below direction s tick record := by
  unfold Growth.below
  rw [h.nextTick, growth.total_of_sameRange h]

/-- The record of the tick that is crossed is flipped as the cursor passes over it. -/
theorem below_of_crossed (hchained : Chained index)
    (h : Crosses trade index s t records flipped record) :
    growth.below trade.direction t s.nextTick (flip t.feeGrowth t.secondsPerLiquidity record) =
      growth.below trade.direction s s.nextTick record +
        if EarnedBelow trade.direction s.nextTick s.nextTick then
          growth.earned (crossingTo trade s t) else 0 := by
  have hadjacent := adjacent_of_advance hchained h.next
  have htotal := growth.total_of_crosses h
  unfold Growth.below
  rw [growth.outside_flip]
  cases hdirection : trade.direction with
  | rising =>
    rw [hdirection] at hadjacent
    have hpassed : BelowCursor .rising t.nextTick s.nextTick := hadjacent.lt
    have hahead : ¬ BelowCursor .rising s.nextTick s.nextTick := Int.lt_irrefl _
    rw [if_pos hpassed, if_neg hahead, if_pos (earnedBelow_iff.mpr hahead), htotal,
      sub_add_eq_add_sub]
  | falling =>
    rw [hdirection] at hadjacent
    have hpassed : ¬ BelowCursor .falling t.nextTick s.nextTick := Int.not_le.mpr hadjacent.lt
    have hahead : BelowCursor .falling s.nextTick s.nextTick := Int.le_refl _
    rw [if_neg hpassed, if_pos hahead, if_neg fun hearned => earnedBelow_iff.mp hearned hahead,
      sub_sub_cancel]
    exact (add_zero _).symm

theorem below_of_other (hchained : Chained index)
    (h : Crosses trade index s t records flipped record) (hentry : index.contains tick = true)
    (hother : tick ≠ s.nextTick) :
    growth.below trade.direction t tick kept =
      growth.below trade.direction s tick kept +
        if EarnedBelow trade.direction tick s.nextTick then
          growth.earned (crossingTo trade s t) else 0 := by
  have hsides := belowCursor_of_adjacent (adjacent_of_advance hchained h.next) hentry hother
  unfold Growth.below
  by_cases hbelow : BelowCursor trade.direction s.nextTick tick
  · rw [if_pos (hsides.mpr hbelow), if_pos hbelow,
      if_neg fun hearned => earnedBelow_iff.mp hearned hbelow]
    exact (add_zero _).symm
  · rw [if_neg fun hafter => hbelow (hsides.mp hafter), if_neg hbelow,
      if_pos (earnedBelow_iff.mpr hbelow), growth.total_of_crosses h, sub_add_eq_add_sub]

theorem below_of_crosses (hchained : Chained index)
    (h : Crosses trade index s t records flipped record) (hentry : index.contains tick = true)
    (hkept : records.get? tick = some kept) :
    ∃ left, flipped.get? tick = some left ∧
      growth.below trade.direction t tick left =
        growth.below trade.direction s tick kept +
          if EarnedBelow trade.direction tick s.nextTick then
            growth.earned (crossingTo trade s t) else 0 := by
  rw [h.flips, TickMap.get?_insert]
  by_cases hsame : s.nextTick = tick
  · subst hsame
    obtain rfl := Option.some.inj (h.found.symm.trans hkept)
    rw [if_pos rfl]
    exact ⟨_, rfl, below_of_crossed growth hchained h⟩
  · rw [if_neg hsame]
    exact ⟨kept, hkept, below_of_other growth hchained h hentry (Ne.symm hsame)⟩

theorem sum_nil : growth.sum [] = 0 := rfl

theorem sum_cons (first : Crossing) (rest : List Crossing) :
    growth.sum (first :: rest) = growth.earned first + growth.sum rest := by
  unfold Growth.sum
  rw [List.map_cons, List.sum_cons]

theorem sumBelow_nil : growth.sumBelow direction tick [] = 0 := rfl

theorem sumBelow_cons (first : Crossing) (rest : List Crossing) :
    growth.sumBelow direction tick (first :: rest) =
      (if EarnedBelow direction tick first.tick then growth.earned first else 0) +
        growth.sumBelow direction tick rest := by
  unfold Growth.sumBelow
  by_cases hearned : EarnedBelow direction tick first.tick
  · rw [List.filter_cons, if_pos (decide_eq_true hearned), if_pos hearned, sum_cons]
  · rw [List.filter_cons, if_neg fun hkept => hearned (of_decide_eq_true hkept), if_neg hearned]
    exact (zero_add _).symm

/-- Along a run, the growth below a tick increases by what is earned below it. -/
theorem below_of_run (hchained : Chained index) (hentry : index.contains tick = true)
    (hreaches : Reaches trade index p c) (hends : Ends trade index c final)
    (hrecord : p.2.get? tick = some record) :
    ∃ left, c.2.get? tick = some left ∧
      growth.below trade.direction final tick left =
        growth.below trade.direction p.1 tick record +
          growth.sumBelow trade.direction tick (crossingsFrom trade index p.1 p.2) := by
  induction hreaches using Relation.ReflTransGen.head_induction_on generalizing record with
  | refl =>
    refine ⟨record, hrecord, ?_⟩
    rw [crossingsFrom_of_ends hends, below_of_sameRange growth (sameRange_of_ends hends),
      sumBelow_nil]
    exact (add_zero _).symm
  | head hmoves _ ih =>
    cases hmoves with
    | glide hopen h =>
      obtain ⟨left, hleft, hgrown⟩ := ih hrecord
      refine ⟨left, hleft, ?_⟩
      rw [crossingsFrom_of_glide hopen h, hgrown, below_of_sameRange growth (sameRange_of_glide h)]
    | cross hopen h =>
      obtain ⟨found, hcrosses⟩ := exists_crosses h
      obtain ⟨middle, hmiddle, hfirst⟩ := below_of_crosses growth hchained hcrosses hentry hrecord
      obtain ⟨left, hleft, hgrown⟩ := ih hmiddle
      refine ⟨left, hleft, ?_⟩
      rw [crossingsFrom_of_cross hopen h, sumBelow_cons, hgrown, hfirst, add_assoc]
      rfl

/-- Along a run, the total increases by what is earned at all crossings. -/
theorem total_of_run (hreaches : Reaches trade index p c) (hends : Ends trade index c final) :
    growth.total final = growth.total p.1 + growth.sum (crossingsFrom trade index p.1 p.2) := by
  induction hreaches using Relation.ReflTransGen.head_induction_on with
  | refl =>
    rw [crossingsFrom_of_ends hends, growth.total_of_sameRange (sameRange_of_ends hends), sum_nil]
    exact (add_zero _).symm
  | head hmoves _ ih =>
    cases hmoves with
    | glide hopen h =>
      rw [crossingsFrom_of_glide hopen h, ih, growth.total_of_sameRange (sameRange_of_glide h)]
    | cross hopen h =>
      obtain ⟨found, hcrosses⟩ := exists_crosses h
      rw [crossingsFrom_of_cross hopen h, sum_cons, ih, growth.total_of_crosses hcrosses,
        add_assoc]

/-- A run attributes what is earned at its crossings: the growth below an initialized tick with a
record increases by what is earned below the tick, and the total by all that is earned. This holds
of the fees and of the seconds. -/
theorem simulate_attributes_growth (hindex : index.validate = .ok ())
    (h : simulate trade index s records = .ok outcome) :
    (∀ tick record, index.contains tick = true → records.get? tick = some record →
      ∃ left, outcome.records.get? tick = some left ∧
        Growth.fees.below trade.direction outcome.final tick left -
            Growth.fees.below trade.direction s tick record =
          Growth.fees.sumBelow trade.direction tick (crossings trade index s records) ∧
        Growth.seconds.below trade.direction outcome.final tick left -
            Growth.seconds.below trade.direction s tick record =
          Growth.seconds.sumBelow trade.direction tick (crossings trade index s records)) ∧
    outcome.final.feeGrowth =
      s.feeGrowth + Growth.fees.sum (crossings trade index s records) ∧
    outcome.final.secondsPerLiquidity =
      s.secondsPerLiquidity + Growth.seconds.sum (crossings trade index s records) := by
  have hchained := chained_of_validate hindex
  obtain ⟨hreaches, hends⟩ := path_of_simulate h
  refine ⟨?_, total_of_run Growth.fees hreaches hends, total_of_run Growth.seconds hreaches hends⟩
  intro tick record hentry hrecord
  obtain ⟨left, hleft, hfees⟩ := below_of_run Growth.fees hchained hentry hreaches hends hrecord
  obtain ⟨other, hother, hseconds⟩ :=
    below_of_run Growth.seconds hchained hentry hreaches hends hrecord
  obtain rfl := Option.some.inj (hleft.symm.trans hother)
  exact ⟨left, hleft, sub_eq_of_eq_add' hfees, sub_eq_of_eq_add' hseconds⟩

/-- A purchase that crosses the lower end of a position, which earns growth below the upper end. -/
theorem simulate_attributes_growth_purchase :
    ∃ start pool trade entry outcome record left,
      Pool.create 1000 0x1000000000000000000000000 = .ok start ∧
      replay start [.deposit (-60) 60 1000000, .deposit (-120) 120 500000, .clock 100] =
        .ok pool ∧
      Trade.on pool .one .buy none = .ok trade ∧
      RunState.enter pool trade.direction ⟨-6000, by decide, by decide⟩ = .ok entry ∧
      pool.index.validate = .ok () ∧ simulate trade pool.index entry pool.records = .ok outcome ∧
      pool.index.contains 60 = true ∧ pool.records.get? 60 = some record ∧
      outcome.records.get? 60 = some left ∧
      Growth.fees.below trade.direction outcome.final 60 left -
          Growth.fees.below trade.direction entry 60 record =
        Growth.fees.sumBelow trade.direction 60
          (crossings trade pool.index entry pool.records) ∧
      Growth.fees.sumBelow trade.direction 60
        (crossings trade pool.index entry pool.records) ≠ 0 := by
  have hrun : (do
      let start ← liftPool (Pool.create 1000 0x1000000000000000000000000)
      let pool ← replay start [.deposit (-60) 60 1000000, .deposit (-120) 120 500000, .clock 100]
      let trade ← (Trade.on pool .one .buy none).mapError .trade
      let entry ← liftPool (RunState.enter pool trade.direction ⟨-6000, by decide, by decide⟩)
      liftPool pool.index.validate
      let outcome ← simulate trade pool.index entry pool.records
      return decide (pool.index.contains 60 = true ∧ pool.records.contains 60 = true ∧
        Growth.fees.sumBelow trade.direction 60
          (crossings trade pool.index entry pool.records) ≠ 0)) = Except.ok true := by
    decide +kernel
  obtain ⟨start, hstart, hrun⟩ := bind_eq_ok.mp hrun
  obtain ⟨pool, hpool, hrun⟩ := bind_eq_ok.mp hrun
  obtain ⟨trade, htrade, hrun⟩ := bind_eq_ok.mp hrun
  obtain ⟨entry, henter, hrun⟩ := bind_eq_ok.mp hrun
  obtain ⟨⟨⟩, hindex, hrun⟩ := bind_eq_ok.mp hrun
  obtain ⟨outcome, houtcome, hrun⟩ := bind_eq_ok.mp hrun
  obtain ⟨hentry, hfound, hsum⟩ := of_decide_eq_true (Except.ok.inj hrun)
  obtain ⟨record, hrecord⟩ := Option.isSome_iff_exists.mp hfound
  rw [liftPool_eq_ok] at hstart henter hindex
  rw [mapError_eq_ok] at htrade
  obtain ⟨hticks, -⟩ := simulate_attributes_growth hindex houtcome
  obtain ⟨left, hleft, hfees, -⟩ := hticks 60 record hentry hrecord
  exact ⟨start, pool, trade, entry, outcome, record, left, hstart, hpool, htrade, henter, hindex,
    houtcome, hentry, hrecord, hleft, hfees, hsum⟩

end ReinvestingPool.Proofs.GrowthBelow
