import ReinvestingPool.Proofs.Histories
import ReinvestingPool.Proofs.StepFrames

/-!
Going on from the checkpoint of a run. A run sets out under way, and its checkpoint is the state of
its last move together with the records that it left there. So a run from the checkpoint makes the
last step once more, and that step crosses nothing.
-/

namespace ReinvestingPool.Proofs.Resumptions

open Failures Directions SignedAmounts TickMaps TickIndexes Pools Runs Simulations Paths
open StepFrames Histories

/-- A state from which a run sets out. -/
def underWay (s : RunState) : RunState := { s with phase := .advancing }

variable {trade : Trade} {index : TickIndex} {s : RunState} {records : TickMap TickRecord}
variable {outcome : Outcome}

theorem underWay_eq (h : s.phase = .advancing) : underWay s = s := by
  unfold underWay
  rw [← h]

/-- A run that succeeds has a path to its checkpoint, and it ends there. -/
theorem path_of_simulate (h : simulate trade index s records = .ok outcome) :
    Reaches trade index (underWay s, records) (underWay outcome.checkpoint, outcome.records) ∧
      Ends trade index (underWay outcome.checkpoint, outcome.records) outcome.final := by
  rcases reaches_of_runFrom h with ⟨hcheckpoint, hrecords, hends⟩ | ⟨q, hmoves, hreaches, hends⟩
  · rw [hcheckpoint, hrecords]
    exact ⟨.refl, hends⟩
  · have hpath := Relation.ReflTransGen.head hmoves hreaches
    have hphase : outcome.checkpoint.phase = .advancing := phase_of_reaches hpath
    rw [underWay_eq hphase]
    exact ⟨hpath, hends⟩

/-- A run from the checkpoint of a run ends as that run did, and its checkpoint and the records are
the same again. What only a crossing changes is the same at the checkpoint and at the end. -/
theorem simulate_checkpoint (h : simulate trade index s records = .ok outcome) :
    simulate trade index outcome.checkpoint outcome.records =
        .ok ⟨outcome.final, outcome.checkpoint, outcome.records⟩ ∧
      SameRange outcome.checkpoint outcome.final := by
  obtain ⟨-, hends⟩ := path_of_simulate h
  exact ⟨runFrom_of_ends hends, { sameRange_of_ends hends with }⟩

/-- A sale with a checkpoint past the upper end of a position, where some of the amount is left. -/
theorem simulate_checkpoint_after_crossing :
    ∃ start pool trade entry outcome,
      Pool.create 1000 0x1000000000000000000000000 = .ok start ∧
      replay start [.deposit (-60) 60 1000000, .deposit (-120) 120 500000] = .ok pool ∧
      Trade.on pool .one .sell none = .ok trade ∧
      RunState.enter pool trade.direction ⟨6000, by decide, by decide⟩ = .ok entry ∧
      simulate trade pool.index entry pool.records = .ok outcome ∧
      outcome.checkpoint.ticksCrossed = 1 ∧ outcome.checkpoint ≠ outcome.final ∧
      simulate trade pool.index outcome.checkpoint outcome.records =
        .ok ⟨outcome.final, outcome.checkpoint, outcome.records⟩ ∧
      SameRange outcome.checkpoint outcome.final := by
  have hrun : (do
      let start ← liftPool (Pool.create 1000 0x1000000000000000000000000)
      let pool ← replay start [.deposit (-60) 60 1000000, .deposit (-120) 120 500000]
      let trade ← (Trade.on pool .one .sell none).mapError .trade
      let entry ← liftPool (RunState.enter pool trade.direction ⟨6000, by decide, by decide⟩)
      let outcome ← simulate trade pool.index entry pool.records
      return decide (outcome.checkpoint.ticksCrossed = 1 ∧
        outcome.checkpoint ≠ outcome.final)) = Except.ok true := by
    decide +kernel
  obtain ⟨start, hstart, hrun⟩ := bind_eq_ok.mp hrun
  obtain ⟨pool, hpool, hrun⟩ := bind_eq_ok.mp hrun
  obtain ⟨trade, htrade, hrun⟩ := bind_eq_ok.mp hrun
  obtain ⟨entry, henter, hrun⟩ := bind_eq_ok.mp hrun
  obtain ⟨outcome, houtcome, hrun⟩ := bind_eq_ok.mp hrun
  obtain ⟨hcount, hmoved⟩ := of_decide_eq_true (Except.ok.inj hrun)
  rw [liftPool_eq_ok] at hstart henter
  rw [mapError_eq_ok] at htrade
  obtain ⟨hresumed, hsame⟩ := simulate_checkpoint houtcome
  exact ⟨start, pool, trade, entry, outcome, hstart, hpool, htrade, henter, houtcome, hcount,
    hmoved, hresumed, hsame⟩

end ReinvestingPool.Proofs.Resumptions
