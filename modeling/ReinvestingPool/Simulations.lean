import ReinvestingPool.Runs

/-!
Running a trade through the ranges of a pool. A step either stops inside a range, glides over an
edge that only bounds how far one step may go, or crosses an initialized tick. The state after the
last edge is kept as a checkpoint, from which a larger trade of the same kind can go on.
-/

namespace ReinvestingPool.Simulations

open Failures Words Directions SignedAmounts TickMaps TickPrices TickIndexes Pools RangeSteps
open Crossings Runs

/-- The most ticks that one step may move the price. -/
def maxTickStep : Int := 480

/-- The tick at which the next step ends if the amount suffices. -/
def edgeTick (direction : Direction) (s : RunState) : Int :=
  match direction with
  | .rising => min s.nextTick (s.currentTick + maxTickStep)
  | .falling => max s.nextTick (s.currentTick - maxTickStep)

/-- A step goes to the edge or, if that comes first, to the limit. -/
def targetPrice (direction : Direction) (edge limit : Word) : Word :=
  match direction with
  | .rising => if limit < edge then limit else edge
  | .falling => if edge ≤ limit then limit else edge

/-- The tick of a price that has just reached the edge. A falling price leaves it. -/
def landingTick : Direction → Int → Int
  | .rising, edge => edge
  | .falling, edge => edge - 1

/-- The state after a step of its amounts, before it is known where the step ended. -/
def takeStep (trade : Trade) (s : RunState) (edge : Word) : Except Failure RunState := do
  let step ← liftArithmetic <| rangeStep s.liquidity s.sqrtPrice
    (targetPrice trade.direction edge trade.limit) trade.swapFee s.remaining trade.side trade.token
  s.settle step

/-- Mints what the range just left has earned and crosses its edge. -/
def leaveRange (trade : Trade) (index : TickIndex) (s : RunState)
    (records : TickMap TickRecord) : Except Failure (RunState × TickMap TickRecord) := do
  let minted ← (s.syncSeconds trade.blockTime).mintFees trade.governmentFee
  minted.cross trade.direction index records

inductive Progress
  | stopped (s : RunState)
  | glided (s : RunState)
  | crossed (s : RunState) (records : TickMap TickRecord)

def advance (trade : Trade) (index : TickIndex) (s : RunState) (records : TickMap TickRecord) :
    Except Failure Progress := do
  let tick := edgeTick trade.direction s
  let edge ← liftPool (sqrtPriceAt tick)
  let moved ← takeStep trade s edge
  if moved.sqrtPrice ≠ edge then
    return .stopped (← liftPool (moved.locate s.sqrtPrice))
  else
    let landed := { moved with currentTick := landingTick trade.direction tick }
    if tick ≠ s.nextTick then
      return .glided landed
    else
      let (left, flipped) ← leaveRange trade index landed records
      return .crossed left flipped

theorem sqrtPriceAt_eq_ok {tick : Int} {price : Word} (h : sqrtPriceAt tick = .ok price) :
    minTick ≤ tick ∧ tick ≤ maxTick := by
  unfold sqrtPriceAt at h
  split at h
  · assumption
  · cases h

theorem takeStep_ticks {trade : Trade} {s t : RunState} {edge : Word}
    (h : takeStep trade s edge = .ok t) :
    t.nextTick = s.nextTick ∧ t.currentTick = s.currentTick := by
  obtain ⟨step, -, h⟩ := bind_eq_ok.mp h
  obtain ⟨remaining, -, h⟩ := bind_eq_ok.mp h
  split at h
  · cases h
  · obtain ⟨exchanged, -, h⟩ := bind_eq_ok.mp h
    cases h
    exact ⟨rfl, rfl⟩

theorem leaveRange_ticks {trade : Trade} {index : TickIndex} {s t : RunState}
    {records flipped : TickMap TickRecord}
    (h : leaveRange trade index s records = .ok (t, flipped)) :
    Beyond trade.direction s.nextTick t.nextTick ∧ t.currentTick = s.currentTick := by
  obtain ⟨minted, hm, h⟩ := bind_eq_ok.mp h
  have kept := RunState.mintFees_ticks hm
  have synced := s.syncSeconds_ticks trade.blockTime
  obtain ⟨beyond, next, hc, rfl⟩ := RunState.cross_eq_ok.mp h
  have ahead := TickIndex.beyond_of_advance (crossTick_eq_ok.mp hc).1
  rw [kept.1, synced.1] at ahead
  exact ⟨ahead, kept.2.trans synced.2⟩

/-- A step that glides moves the current tick onwards and keeps the next one. -/
theorem advance_glided {trade : Trade} {index : TickIndex} {s t : RunState}
    {records : TickMap TickRecord} (h : advance trade index s records = .ok (.glided t)) :
    let edge := edgeTick trade.direction s
    (minTick ≤ edge ∧ edge ≤ maxTick) ∧ edge ≠ s.nextTick ∧ t.nextTick = s.nextTick ∧
      t.currentTick = landingTick trade.direction edge := by
  obtain ⟨edge, he, h⟩ := bind_eq_ok.mp h
  obtain ⟨moved, hm, h⟩ := bind_eq_ok.mp h
  split at h
  · obtain ⟨located, -, h⟩ := bind_eq_ok.mp h
    cases h
  · simp only at h
    split at h
    · rename_i differs
      cases h
      exact ⟨sqrtPriceAt_eq_ok (liftPool_eq_ok.mp he), differs, (takeStep_ticks hm).1, rfl⟩
    · obtain ⟨left, -, h⟩ := bind_eq_ok.mp h
      cases h

/-- A step that crosses an initialized tick moves the next tick onwards. -/
theorem advance_crossed {trade : Trade} {index : TickIndex} {s t : RunState}
    {records flipped : TickMap TickRecord}
    (h : advance trade index s records = .ok (.crossed t flipped)) :
    (minTick ≤ s.nextTick ∧ s.nextTick ≤ maxTick) ∧
      Beyond trade.direction s.nextTick t.nextTick := by
  obtain ⟨edge, he, h⟩ := bind_eq_ok.mp h
  obtain ⟨moved, hm, h⟩ := bind_eq_ok.mp h
  split at h
  · obtain ⟨located, -, h⟩ := bind_eq_ok.mp h
    cases h
  · simp only at h
    split at h
    · cases h
    · rename_i differs
      have same : edgeTick trade.direction s = s.nextTick := Decidable.not_not.mp differs
      have inside := sqrtPriceAt_eq_ok (liftPool_eq_ok.mp he)
      rw [same] at inside
      obtain ⟨left, hl, h⟩ := bind_eq_ok.mp h
      cases h
      have ahead := (leaveRange_ticks hl).1
      simp only [(takeStep_ticks hm).1] at ahead
      exact ⟨inside, ahead⟩

/-- How many ticks lie between a tick and the end of the price range. -/
def room : Direction → Int → Nat
  | .rising, tick => (maxTick + 1 - tick).toNat
  | .falling, tick => (tick - (minTick - 1)).toNat

theorem room_lt_of_beyond {direction : Direction} {tick next : Int}
    (inside : minTick ≤ tick ∧ tick ≤ maxTick) (h : Beyond direction tick next) :
    room direction next < room direction tick := by
  obtain ⟨low, high⟩ := inside
  cases direction <;> simp only [Beyond, room] at * <;> omega

/-- The room before a step that can still glide. -/
def fullRoom : Nat := room .rising (minTick - maxTickStep)

/-- Gliding takes the current tick closer to the end of the price range. -/
theorem room_lt_of_glide {direction : Direction} {s : RunState}
    (inside : minTick ≤ edgeTick direction s ∧ edgeTick direction s ≤ maxTick)
    (differs : edgeTick direction s ≠ s.nextTick) :
    room direction (landingTick direction (edgeTick direction s)) < room direction s.currentTick ∧
      room direction s.currentTick ≤ fullRoom := by
  obtain ⟨low, high⟩ := inside
  cases direction <;>
    simp only [edgeTick, landingTick, room, fullRoom, maxTickStep, minTick, maxTick] at * <;> omega

/-- A bound on the steps that a run can still take. Crossing a tick lowers the room beyond the next
tick, and gliding lowers the room beyond the current one. -/
def stepsLeft (direction : Direction) (s : RunState) : Nat :=
  room direction s.nextTick * (fullRoom + 1) + min (room direction s.currentTick) fullRoom

theorem stepsLeft_lt_of_glided {trade : Trade} {index : TickIndex} {s t : RunState}
    {records : TickMap TickRecord} (h : advance trade index s records = .ok (.glided t)) :
    stepsLeft trade.direction t < stepsLeft trade.direction s := by
  obtain ⟨inside, differs, next, current⟩ := advance_glided h
  have closer := room_lt_of_glide inside differs
  simp only [stepsLeft, next, current]
  omega

theorem stepsLeft_lt_of_crossed {trade : Trade} {index : TickIndex} {s t : RunState}
    {records flipped : TickMap TickRecord}
    (h : advance trade index s records = .ok (.crossed t flipped)) :
    stepsLeft trade.direction t < stepsLeft trade.direction s := by
  obtain ⟨inside, ahead⟩ := advance_crossed h
  have closer := Nat.mul_le_mul_right (fullRoom + 1) (room_lt_of_beyond inside ahead)
  rw [Nat.succ_mul] at closer
  simp only [stepsLeft]
  omega

/-- What a run leaves behind. -/
structure Outcome where
  final : RunState
  /-- The state after the last step that reached its edge, or the first state. -/
  checkpoint : RunState
  records : TickMap TickRecord
  deriving DecidableEq

/-- Runs a trade from a state until it is over, given the checkpoint so far. -/
def runFrom (trade : Trade) (index : TickIndex) (s checkpoint : RunState)
    (records : TickMap TickRecord) : Except Failure Outcome :=
  if s.Over trade.limit then
    .ok ⟨s.finish, checkpoint, records⟩
  else
    match _ : advance trade index s records with
    | .error failure => .error failure
    | .ok (.stopped last) => .ok ⟨last.finish, checkpoint, records⟩
    | .ok (.glided t) => runFrom trade index t t records
    | .ok (.crossed t flipped) => runFrom trade index t t flipped
termination_by stepsLeft trade.direction s
decreasing_by
  · rename_i glides
    exact stepsLeft_lt_of_glided glides
  · rename_i crosses
    exact stepsLeft_lt_of_crossed crosses

/-- Runs a trade from its first state. -/
def simulate (trade : Trade) (index : TickIndex) (s : RunState) (records : TickMap TickRecord) :
    Except Failure Outcome :=
  runFrom trade index { s with phase := .advancing } s records

end ReinvestingPool.Simulations
