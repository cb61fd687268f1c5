import ReinvestingPool.Crossings
import ReinvestingPool.Proofs.AcceptedIndexes

/-!
Going back over ticks that have been crossed. The liquidity that one direction adds at a tick is
taken off in the other, a record that is flipped twice is the old one, and the link back from a tick
leads to the tick it was reached from. Whatever has been crossed in a row can therefore be crossed
back, as long as the globals stay the same, and nothing of the way remains.
-/

namespace ReinvestingPool.Proofs.ReversedCrossings

open Failures Words Directions SignedAmounts TickMaps TickPrices TickIndexes Pools Crossings
open IndexChains AcceptedIndexes

/-- The tick that is crossed next, with the records and the active liquidity on this side of it. -/
structure Front where
  records : TickMap TickRecord
  liquidity : HalfWord
  tick : Int
  deriving DecidableEq

section Crossing

variable (index : TickIndex) (feeGrowth : Word) (secondsPerLiquidity : HalfWord)
variable (direction : Direction)

def crossFront (front : Front) : Except Failure Front :=
  match crossTick front.records index front.tick front.liquidity feeGrowth secondsPerLiquidity
      direction with
  | (records, .ok (liquidity, tick)) => .ok { records, liquidity, tick }
  | (_, .error failure) => .error failure

/-- Crosses ticks in a row, each the one that the crossing before it has named, and lists them. -/
def crossInARow : Nat → Front → Except Failure (List Int × Front)
  | 0, front => .ok ([], front)
  | count + 1, front => do
    let beyond ← crossFront index feeGrowth secondsPerLiquidity direction front
    let (ticks, last) ← crossInARow count beyond
    return (front.tick :: ticks, last)

end Crossing

section Links

variable {index : TickIndex} {direction : Direction} {a b : Int}

theorem adjacent_reverse (h : AdjacentToward index direction a b) :
    AdjacentToward index direction.reverse b a := by
  cases direction with
  | rising => exact h
  | falling => exact h

theorem contains_of_advance (h : index.advance a direction = .ok b) :
    index.contains a = true := by
  obtain ⟨link, hlink, -⟩ := bind_eq_ok.mp h
  exact contains_of_get? (linkAt_eq_ok.mp hlink)

/-- The neighbour in a direction has a neighbour in the other one. -/
theorem inner_of_advance (hchained : Chained index) (h : index.advance a direction = .ok b) :
    b ≠ outermost direction.reverse :=
  inner_of_adjacent hchained (adjacent_reverse (adjacent_of_advance hchained h))

/-- From the neighbour of a tick the index leads back to the tick. -/
theorem advance_back (hchained : Chained index) (h : index.advance a direction = .ok b) :
    index.advance b direction.reverse = .ok a := by
  have hadjacent := adjacent_of_advance hchained h
  have hinner := inner_of_advance hchained h
  obtain ⟨c, hadvance, hback⟩ :=
    advance_inside hchained (contains_of_adjacent hadjacent) hinner
  rw [hadvance, toward_unique hback (adjacent_reverse hadjacent)]

end Links

section Crossings

variable {index : TickIndex} {feeGrowth : Word} {secondsPerLiquidity liquidity other : HalfWord}
variable {direction : Direction} {front beyond last : Front} {net : LiquidityChange}
variable {count : Nat} {ticks : List Int} {before turn : Int}

/-- The other direction undoes the change of the active liquidity. -/
theorem crossLiquidity_reverse (h : crossLiquidity liquidity net direction = .ok other) :
    crossLiquidity other net direction.reverse = .ok liquidity := by
  have hundo : addChecked liquidity net.magnitude = .ok other ↔
      subChecked other net.magnitude = .ok liquidity := by
    rw [addChecked_eq_ok, subChecked_eq_ok, eq_comm]
  have hredo : subChecked liquidity net.magnitude = .ok other ↔
      addChecked other net.magnitude = .ok liquidity := by
    rw [addChecked_eq_ok, subChecked_eq_ok, eq_comm]
  unfold crossLiquidity at h ⊢
  cases direction with
  | rising =>
    simp only [Direction.reverse, decide_eq_true_eq] at h ⊢
    by_cases hsign : net.toInt < 0
    · rw [if_neg (by omega)] at h
      rw [if_pos hsign]
      exact hredo.mp h
    · rw [if_pos (by omega)] at h
      rw [if_neg hsign]
      exact hundo.mp h
  | falling =>
    simp only [Direction.reverse, decide_eq_true_eq] at h ⊢
    by_cases hsign : net.toInt < 0
    · rw [if_pos hsign] at h
      rw [if_neg (by omega)]
      exact hundo.mp h
    · rw [if_neg hsign] at h
      rw [if_pos (by omega)]
      exact hredo.mp h

theorem crossFront_eq_ok :
    crossFront index feeGrowth secondsPerLiquidity direction front = .ok beyond ↔
      index.advance front.tick direction = .ok beyond.tick ∧
        ∃ record, front.records.get? front.tick = some record ∧
          beyond.records =
            front.records.insert front.tick (flip feeGrowth secondsPerLiquidity record) ∧
          crossLiquidity front.liquidity record.liquidityNet direction =
            .ok beyond.liquidity := by
  rw [← crossTick_eq_ok]
  obtain ⟨records, liquidity, tick⟩ := beyond
  unfold crossFront
  split
  · rename_i flipped value next hcross
    rw [hcross, Except.ok.injEq, Front.mk.injEq, Prod.mk.injEq, Except.ok.injEq, Prod.mk.injEq]
  · rename_i flipped failure hcross
    simp only [hcross, reduceCtorEq, Prod.mk.injEq, and_false]

/-- A tick is crossed back from the tick next to it. -/
theorem crossFront_reverse
    (h : crossFront index feeGrowth secondsPerLiquidity direction front = .ok beyond)
    (hbefore : index.advance front.tick direction.reverse = .ok before) :
    crossFront index feeGrowth secondsPerLiquidity direction.reverse
        { beyond with tick := front.tick } =
      .ok { front with tick := before } := by
  obtain ⟨-, record, hrecord, hrecords, hliquidity⟩ := crossFront_eq_ok.mp h
  refine crossFront_eq_ok.mpr
    ⟨hbefore, flip feeGrowth secondsPerLiquidity record, ?_, ?_, ?_⟩
  · rw [hrecords, TickMap.get?_insert, if_pos rfl]
  · rw [hrecords, Crossings.flip_flip, TickMap.insert_insert,
      TickMap.insert_of_get? hrecord]
  · exact crossLiquidity_reverse hliquidity

theorem crossInARow_succ_eq_ok :
    crossInARow index feeGrowth secondsPerLiquidity direction (count + 1) front =
        .ok (ticks, last) ↔
      ∃ beyond rest, crossFront index feeGrowth secondsPerLiquidity direction front = .ok beyond ∧
        crossInARow index feeGrowth secondsPerLiquidity direction count beyond =
          .ok (rest, last) ∧ ticks = front.tick :: rest := by
  rw [crossInARow, bind_eq_ok]
  constructor
  · intro h
    obtain ⟨beyond, hfirst, h⟩ := h
    obtain ⟨⟨rest, final⟩, hrest, h⟩ := bind_eq_ok.mp h
    cases h
    exact ⟨beyond, rest, hfirst, hrest, rfl⟩
  · intro h
    obtain ⟨beyond, rest, hfirst, hrest, rfl⟩ := h
    exact ⟨beyond, hfirst, bind_eq_ok.mpr ⟨(rest, last), hrest, rfl⟩⟩

/-- The last of several crossings comes after the others. -/
theorem exists_last_crossing
    (h : crossInARow index feeGrowth secondsPerLiquidity direction (count + 1) front =
      .ok (ticks, last)) :
    ∃ earlier middle,
      crossInARow index feeGrowth secondsPerLiquidity direction count front =
        .ok (earlier, middle) ∧
      crossFront index feeGrowth secondsPerLiquidity direction middle = .ok last ∧
      ticks = earlier ++ [middle.tick] := by
  induction count generalizing front ticks with
  | zero =>
    obtain ⟨beyond, rest, hfirst, hrest, rfl⟩ := crossInARow_succ_eq_ok.mp h
    cases hrest
    exact ⟨[], front, rfl, hfirst, rfl⟩
  | succ count ih =>
    obtain ⟨beyond, rest, hfirst, hrest, rfl⟩ := crossInARow_succ_eq_ok.mp h
    obtain ⟨earlier, middle, hearlier, hlast, rfl⟩ := ih hrest
    exact ⟨front.tick :: earlier, middle,
      crossInARow_succ_eq_ok.mpr ⟨beyond, earlier, hfirst, hearlier, rfl⟩, hlast, rfl⟩

/-- Where the first tick can be left backwards, so can every later one. -/
theorem inner_of_crossInARow (hchained : Chained index)
    (hinner : front.tick ≠ outermost direction.reverse)
    (h : crossInARow index feeGrowth secondsPerLiquidity direction count front =
      .ok (ticks, last)) : last.tick ≠ outermost direction.reverse := by
  cases count with
  | zero =>
    cases h
    exact hinner
  | succ count =>
    obtain ⟨earlier, middle, -, hlast, -⟩ := exists_last_crossing h
    exact inner_of_advance hchained (crossFront_eq_ok.mp hlast).1

/-- The way back begins at the tick that was crossed last, which is next to the one reached. The
last crossing is therefore taken off first, and the others follow by induction. -/
theorem crossInARow_reverse (hchained : Chained index)
    (hinner : front.tick ≠ outermost direction.reverse)
    (h : crossInARow index feeGrowth secondsPerLiquidity direction count front =
      .ok (ticks, last))
    (hturn : index.advance last.tick direction.reverse = .ok turn) :
    ∃ before, index.advance front.tick direction.reverse = .ok before ∧
      crossInARow index feeGrowth secondsPerLiquidity direction.reverse count
          { last with tick := turn } =
        .ok (ticks.reverse, { front with tick := before }) := by
  induction count generalizing ticks last turn with
  | zero =>
    cases h
    exact ⟨turn, hturn, rfl⟩
  | succ count ih =>
    obtain ⟨earlier, middle, hearlier, hlast, rfl⟩ := exists_last_crossing h
    have hadvance := (crossFront_eq_ok.mp hlast).1
    have hback := advance_back hchained hadvance
    obtain rfl : middle.tick = turn := Except.ok.inj (hback.symm.trans hturn)
    obtain ⟨target, htarget, -⟩ := advance_inside hchained (contains_of_advance hadvance)
      (inner_of_crossInARow hchained hinner hearlier)
    obtain ⟨before, hbefore, hrest⟩ := ih hearlier htarget
    refine ⟨before, hbefore, crossInARow_succ_eq_ok.mpr
      ⟨{ middle with tick := target }, earlier.reverse, ?_, hrest, ?_⟩⟩
    · exact crossFront_reverse hlast htarget
    · exact List.reverse_concat

/-- Ticks that are crossed in a row from a tick strictly between the outermost ones can be crossed
in the opposite order and direction, each being the tick that the crossing before has named. That
leads back to the records and the active liquidity from before, and to the tick on the far side of
the first one. -/
theorem crossings_undone (hindex : index.validate = .ok ()) (hlow : minTick < front.tick)
    (hhigh : front.tick < maxTick) (hcount : 0 < count)
    (h : crossInARow index feeGrowth secondsPerLiquidity direction count front =
      .ok (ticks, last)) :
    ∃ turn before, ticks.getLast? = some turn ∧
      index.advance front.tick direction.reverse = .ok before ∧
      crossInARow index feeGrowth secondsPerLiquidity direction.reverse count
          { last with tick := turn } =
        .ok (ticks.reverse, { front with tick := before }) := by
  have hchained := chained_of_validate hindex
  have hinner : front.tick ≠ outermost direction.reverse := by
    cases direction <;> simp only [Direction.reverse, outermost] <;> omega
  obtain ⟨fewer, rfl⟩ := Nat.exists_eq_add_one.mpr hcount
  obtain ⟨others, middle, -, hlast, hticks⟩ := exists_last_crossing h
  have hturn := advance_back hchained (crossFront_eq_ok.mp hlast).1
  obtain ⟨before, hbefore, hback⟩ := crossInARow_reverse hchained hinner h hturn
  refine ⟨middle.tick, before, ?_, hbefore, hback⟩
  rw [hticks]
  exact List.getLast?_concat

/-- The liquidity that becomes active at the lower tick is the most that a record can take off, and
the growth outside both ticks is beyond that of the pool. -/
theorem crossings_undone_two_ticks :
    let index : TickIndex := [-60, 60].foldl BuiltIndexes.attempt .empty
    let record (net : LiquidityChange) : TickRecord := ⟨net, 12345, 7⟩
    let front : Front := {
      records := .ofList [
        (-60, record ⟨-0x80000000000000000000000000000000, by decide, by decide⟩),
        (60, record ⟨1000, by decide, by decide⟩)]
      liquidity := 0x80000000000000000000000000000005
      tick := -60 }
    index.validate = .ok () ∧ ∃ last,
      crossInARow index 5 2 .rising 2 front = .ok ([-60, 60], last) ∧
        last.liquidity = 1005 ∧ last.tick = maxTick ∧
        crossInARow index 5 2 .falling 2 { last with tick := 60 } =
          .ok ([60, -60], { front with tick := minTick }) := by
  intro index record front
  have hindex : index.validate = .ok () := by decide +kernel
  have hrun : (do
      let crossed ← crossInARow index 5 2 .rising 2 front
      return decide (crossed.1 = [-60, 60] ∧ crossed.2.liquidity = 1005 ∧
        crossed.2.tick = maxTick ∧ index.advance (-60) .falling = .ok minTick)) =
          Except.ok true := by
    decide +kernel
  obtain ⟨⟨ticks, last⟩, hcross, hrun⟩ := bind_eq_ok.mp hrun
  obtain ⟨rfl, hliquidity, htick, hadvance⟩ := of_decide_eq_true (Except.ok.inj hrun)
  obtain ⟨turn, before, hturn, hbefore, hback⟩ :=
    crossings_undone hindex (by decide) (by decide) (by decide) hcross
  obtain rfl := Option.some.inj hturn
  obtain rfl := Except.ok.inj (hadvance.symm.trans hbefore)
  exact ⟨hindex, last, hcross, hliquidity, htick, hback⟩

end Crossings

end ReinvestingPool.Proofs.ReversedCrossings
