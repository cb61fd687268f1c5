import ReinvestingPool.Proofs.IndexChains
import ReinvestingPool.Proofs.StepFrames

/-!
The tick ahead of a run. It stays an entry of the index, since a run leaves an entry only for the
next one in its direction.
-/

namespace ReinvestingPool.Proofs.RunTicks

open Directions TickIndexes Runs Paths StepFrames IndexChains

variable {trade : Trade} {index : TickIndex} {p q c : Point} {final : RunState}

theorem contains_of_moves (hchained : Chained index)
    (hentry : index.contains p.1.nextTick = true) (h : Moves trade index p q) :
    index.contains q.1.nextTick = true := by
  rcases nextTick_of_moves h with ⟨-, hsame⟩ | ⟨-, hadvance⟩
  · rw [hsame]
    exact hentry
  · exact contains_of_adjacent (adjacent_of_advance hchained hadvance)

theorem contains_of_reaches (hchained : Chained index)
    (hentry : index.contains p.1.nextTick = true) (h : Reaches trade index p c) :
    index.contains c.1.nextTick = true := by
  induction h with
  | refl => exact hentry
  | tail _ hmoves ih => exact contains_of_moves hchained ih hmoves

theorem nextTick_of_ends (h : Ends trade index p final) : final.nextTick = p.1.nextTick := by
  cases h with
  | finished => rfl
  | stop _ h =>
    obtain ⟨moved, hsteps, -, hlocate⟩ := advance_stopped_iff.mp h
    have hlocated := congrArg RunState.nextTick (locate_eq_ok hlocate).1
    exact hlocated.trans (steps_frame hsteps).2.1

/-- A run that is over can name the initialized tick below it. -/
theorem exists_nearestTick {s : RunState} (hentry : index.contains s.nextTick = true) :
    ∃ nearest, s.nearestTick index = .ok nearest := by
  unfold RunState.nearestTick
  split
  · exact previous_of_contains hentry
  · exact ⟨s.nextTick, rfl⟩

theorem contains_nearestTick {s : RunState} {nearest : Int} (hchained : Chained index)
    (hentry : index.contains s.nextTick = true) (h : s.nearestTick index = .ok nearest) :
    index.contains nearest = true := by
  unfold RunState.nearestTick at h
  split at h
  · exact contains_of_previous hchained h
  · exact Except.ok.inj h ▸ hentry

end ReinvestingPool.Proofs.RunTicks
