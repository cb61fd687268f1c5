import ReinvestingPool.Proofs.StepFrames

/-!
Runs come to an end. The loop of a run is taken here turn by turn, with a count of the turns that it
may still take, and a turn after which it goes on brings the current tick or the tick ahead closer
to the end of the prices. None of this asks anything of the index.
-/

namespace ReinvestingPool.Proofs.Terminations

open Failures Words Directions TickMaps TickPrices TickIndexes Pools Runs Simulations Paths
open StepFrames

variable {trade : Trade} {index : TickIndex} {s t checkpoint : RunState} {p q : Point}
variable {records found : TickMap TickRecord} {turns : Nat}

/-- The loop of a run, which is given up after so many turns. -/
def runWithin (trade : Trade) (index : TickIndex) :
    Nat → RunState → RunState → TickMap TickRecord → Option (Except Failure Outcome)
  | 0, _, _, _ => none
  | turns + 1, s, checkpoint, records =>
    if s.Over trade.limit then
      some (.ok ⟨s.finish, checkpoint, records⟩)
    else
      match advance trade index s records with
      | .error failure => some (.error failure)
      | .ok (.stopped last) => some (.ok ⟨last.finish, checkpoint, records⟩)
      | .ok (.glided t) => runWithin trade index turns t t records
      | .ok (.crossed t flipped) => runWithin trade index turns t t flipped

/-- What one turn of the loop can do. -/
inductive Turn (trade : Trade) (index : TickIndex) (s : RunState) (records : TickMap TickRecord) :
    Prop
  | over (h : s.Over trade.limit)
  | failed {failure : Failure} (h : advance trade index s records = .error failure)
  | stopped {last : RunState} (h : advance trade index s records = .ok (.stopped last))
  | glided {t : RunState} (h : advance trade index s records = .ok (.glided t))
      (hnext : t.nextTick = s.nextTick)
      (hcurrent : Beyond trade.direction s.currentTick t.currentTick)
  | crossed {t : RunState} {flipped : TickMap TickRecord}
      (h : advance trade index s records = .ok (.crossed t flipped))
      (hnext : Beyond trade.direction s.nextTick t.nextTick)

/-- An edge short of the tick ahead is a whole step away, so the run lands beyond its tick. -/
theorem beyond_of_glide {direction : Direction} (h : edgeTick direction s ≠ s.nextTick) :
    Beyond direction s.currentTick (landingTick direction (edgeTick direction s)) := by
  unfold Beyond landingTick
  unfold edgeTick maxTickStep at h ⊢
  cases direction with
  | rising =>
    simp only at h ⊢
    omega
  | falling =>
    simp only at h ⊢
    omega

theorem turn_of_advance (trade : Trade) (index : TickIndex) (s : RunState)
    (records : TickMap TickRecord) : Turn trade index s records := by
  cases h : advance trade index s records with
  | error failure => exact .failed h
  | ok progress =>
    cases progress with
    | stopped last => exact .stopped h
    | glided t =>
      obtain ⟨-, hshort, hnext, hcurrent⟩ := advance_glided h
      refine .glided h hnext ?_
      rw [hcurrent]
      exact beyond_of_glide hshort
    | crossed t flipped => exact .crossed h (advance_crossed h).2

/-- The loop needs no more turns than there are steps left, and one to see that it is over. -/
theorem runWithin_of_lt (h : stepsLeft trade.direction s < turns) :
    runWithin trade index turns s checkpoint records =
      some (runFrom trade index s checkpoint records) := by
  induction turns generalizing s checkpoint records with
  | zero => exact absurd h (Nat.not_lt_zero _)
  | succ turns ih =>
    rw [runWithin, runFrom_eq]
    by_cases hover : s.Over trade.limit
    · rw [if_pos hover, if_pos hover]
    · rw [if_neg hover, if_neg hover]
      cases hadvance : advance trade index s records with
      | error failure => rfl
      | ok progress =>
        cases progress with
        | stopped last => rfl
        | glided t =>
          have hfewer := stepsLeft_lt_of_glided hadvance
          exact ih (by omega)
        | crossed t flipped =>
          have hfewer := stepsLeft_lt_of_crossed hadvance
          exact ih (by omega)

/-- A step up or down from the tick is a signed number of 32 bits. -/
def FarFromLimits (tick : Int) : Prop :=
  -2 ^ 31 ≤ tick - (maxTickStep + 1) ∧ tick + (maxTickStep + 1) < 2 ^ 31

instance (tick : Int) : Decidable (FarFromLimits tick) := by
  unfold FarFromLimits
  infer_instance

/-- A run lands on an edge between the ends of the prices, or one tick below it. -/
theorem farFromLimits_of_landing {direction : Direction} {edge : Int}
    (h : minTick ≤ edge ∧ edge ≤ maxTick) : FarFromLimits (landingTick direction edge) := by
  unfold minTick maxTick at h
  unfold FarFromLimits landingTick maxTickStep
  cases direction with
  | rising =>
    simp only
    omega
  | falling =>
    simp only
    omega

theorem farFromLimits_of_moves (h : Moves trade index p q) : FarFromLimits q.1.currentTick := by
  obtain ⟨moved, hsteps, -, -, -, -, -, hcurrent⟩ := steps_of_moves h
  rw [hcurrent]
  exact farFromLimits_of_landing hsteps.1

theorem farFromLimits_of_reaches (hfar : FarFromLimits p.1.currentTick)
    (h : Reaches trade index p q) : FarFromLimits q.1.currentTick := by
  cases h with
  | refl => exact hfar
  | tail _ hmoves => exact farFromLimits_of_moves hmoves

/-- A run ends, whatever its state, its index and its records are. In each turn the loop is over,
fails, stops, takes the current tick onwards and keeps the tick ahead, or takes the tick ahead
onwards; and a current tick that is far from the limits of its type stays so. -/
theorem simulate_terminates (trade : Trade) (index : TickIndex) (s : RunState)
    (records : TickMap TickRecord) :
    (∀ turns, stepsLeft trade.direction s < turns →
        runWithin trade index turns { s with phase := .advancing } s records =
          some (simulate trade index s records)) ∧
      (∀ t found, Turn trade index t found) ∧
      (FarFromLimits s.currentTick → ∀ t found,
        Reaches trade index ({ s with phase := .advancing }, records) (t, found) →
          FarFromLimits t.currentTick) := by
  refine ⟨?_, ?_, ?_⟩
  · intro turns henough
    exact runWithin_of_lt henough
  · intro t found
    exact turn_of_advance trade index t found
  · intro hfar t found hreaches
    exact farFromLimits_of_reaches hfar hreaches

/-- An index that has lost its ends, on which a sale crosses its one entry and ends beyond it. -/
theorem simulate_terminates_broken_index :
    ∃ (trade : Trade) (index : TickIndex) (s : RunState) (records : TickMap TickRecord)
      (outcome : Outcome), index.validate = .error (.tickNotInitialized minTick) ∧
      FarFromLimits s.currentTick ∧
      runWithin trade index (stepsLeft trade.direction s + 1) { s with phase := .advancing } s
        records = some (.ok outcome) ∧
      outcome.final.ticksCrossed = 1 := by
  have hrun : (do
      let outcome ← simulate ⟨.one, .sell, 0x2000000000000000000000000, 1000, 0, 0⟩
        ⟨TickMap.ofList [(60, ⟨0, 120⟩)]⟩
        ⟨⟨500, by decide, by decide⟩, 0, 0x1000000000000000000000000, 0, 60, 1000, 100000, 100000,
          0, 0, 0, 100000, 0, 0, 0, .advancing⟩
        (TickMap.ofList [(60, ⟨⟨-1000, by decide, by decide⟩, 0, 0⟩)])
      return decide (outcome.final.ticksCrossed = 1)) = Except.ok true := by
    decide +kernel
  obtain ⟨outcome, houtcome, hrun⟩ := bind_eq_ok.mp hrun
  obtain ⟨hends, -, -⟩ := simulate_terminates _ _ _ _
  refine ⟨_, _, _, _, outcome, ?_, ?_, (hends _ (Nat.lt_succ_self _)).trans (congrArg some houtcome),
    of_decide_eq_true (Except.ok.inj hrun)⟩
  · decide +kernel
  · decide

end ReinvestingPool.Proofs.Terminations
