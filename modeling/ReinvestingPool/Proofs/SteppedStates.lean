import ReinvestingPool.Proofs.LastSteps

/-!
The states from which a run takes its steps. What a run exchanges is the sum of what its steps come
to, each of which depends only on the state from which it is taken.
-/

namespace ReinvestingPool.Proofs.SteppedStates

open Failures TickMaps TickIndexes Pools Runs Simulations Paths StepFrames RunEnds StepExchanges
open LastSteps

/-- The states from which a run goes on, the last one where it stops short of its limit included. -/
def stepsFrom (trade : Trade) (index : TickIndex) (s : RunState) (records : TickMap TickRecord) :
    List RunState :=
  if s.Over trade.limit then
    []
  else
    match _ : advance trade index s records with
    | .error _ => []
    | .ok (.stopped _) => [s]
    | .ok (.glided t) => s :: stepsFrom trade index t records
    | .ok (.crossed t flipped) => s :: stepsFrom trade index t flipped
termination_by stepsLeft trade.direction s
decreasing_by
  · rename_i glides
    exact stepsLeft_lt_of_glided glides
  · rename_i crosses
    exact stepsLeft_lt_of_crossed crosses

variable {trade : Trade} {index : TickIndex} {s t u final : RunState}
variable {records : TickMap TickRecord} {p q c : Point}

theorem stepsFrom_eq :
    stepsFrom trade index s records =
      if s.Over trade.limit then []
      else match advance trade index s records with
        | .error _ => []
        | .ok (.stopped _) => [s]
        | .ok (.glided t) => s :: stepsFrom trade index t records
        | .ok (.crossed t flipped) => s :: stepsFrom trade index t flipped := by
  rw [stepsFrom]
  by_cases hover : s.Over trade.limit
  · rw [if_pos hover, if_pos hover]
  · rw [if_neg hover, if_neg hover]
    split <;> rename_i h <;> rw [h]

theorem stepsFrom_of_moves (h : Moves trade index p q) :
    stepsFrom trade index p.1 p.2 = p.1 :: stepsFrom trade index q.1 q.2 := by
  rw [stepsFrom_eq, if_neg h.isOpen]
  cases h with
  | glide _ h => rw [h]
  | cross _ h => rw [h]

theorem stepsFrom_of_over (h : p.1.Over trade.limit) : stepsFrom trade index p.1 p.2 = [] := by
  rw [stepsFrom_eq, if_pos h]

theorem stepsFrom_of_stop (h : Ends trade index p final) (hopen : ¬ p.1.Over trade.limit) :
    stepsFrom trade index p.1 p.2 = [p.1] := by
  rw [stepsFrom_eq, if_neg hopen]
  cases h with
  | finished hover => exact absurd hover hopen
  | stop _ h => rw [h]

/-- Each of these states is one that the run comes to, and it is left by a step. -/
theorem steps_of_mem (h : t ∈ stepsFrom trade index s records) :
    ∃ found, Reaches trade index (s, records) (t, found) ∧ ¬ t.Over trade.limit ∧
      ∃ moved, Steps trade t moved := by
  fun_induction stepsFrom trade index s records with
  | case1 s records hover => cases h
  | case2 s records hopen failure hfails => cases h
  | case3 s records hopen last hstops =>
    obtain rfl := List.mem_singleton.mp h
    obtain ⟨moved, hsteps, -⟩ := advance_stopped_iff.mp hstops
    exact ⟨records, .refl, hopen, moved, hsteps⟩
  | case4 s records hopen next hglides ih =>
    rcases List.mem_cons.mp h with rfl | hlater
    · obtain ⟨moved, hsteps, -⟩ := advance_glided_iff.mp hglides
      exact ⟨records, .refl, hopen, moved, hsteps⟩
    · obtain ⟨found, hreaches, hstep⟩ := ih hlater
      exact ⟨found, .head (.glide hopen hglides) hreaches, hstep⟩
  | case5 s records hopen next flipped hcrosses ih =>
    rcases List.mem_cons.mp h with rfl | hlater
    · obtain ⟨moved, hsteps, -⟩ := advance_crossed_iff.mp hcrosses
      exact ⟨records, .refl, hopen, moved, hsteps⟩
    · obtain ⟨found, hreaches, hstep⟩ := ih hlater
      exact ⟨found, .head (.cross hopen hcrosses) hreaches, hstep⟩

theorem gained_add (trade : Trade) (s t u : RunState) :
    gained trade s u = gained trade s t + gained trade t u := by
  unfold gained
  rw [← leg_add]
  apply congrArg (leg trade.side)
  omega

theorem gained_of_moves (h : Moves trade index p q) : gained trade p.1 q.1 = stepLeg trade p.1 := by
  obtain ⟨moved, hsteps, -, -, -, hgot, -⟩ := steps_of_moves h
  exact gained_of_steps (fun hzero => h.isOpen (Or.inl hzero)) hsteps hgot

theorem gained_self (trade : Trade) (s : RunState) : gained trade s s = 0 := by
  unfold gained
  rw [Int.sub_self]
  cases trade.side with
  | sell => rfl
  | buy => rfl

/-- The steps on the way to a state are the first ones of a run, and the run has exchanged there
what they come to. -/
theorem exists_path (h : Reaches trade index p q) :
    ∃ path, stepsFrom trade index p.1 p.2 = path ++ stepsFrom trade index q.1 q.2 ∧
      gained trade p.1 q.1 = (path.map (stepLeg trade)).sum := by
  induction h using Relation.ReflTransGen.head_induction_on with
  | refl =>
    refine ⟨[], (List.nil_append _).symm, ?_⟩
    rw [gained_self, List.map_nil, List.sum_nil]
  | head hmoves hlater ih =>
    rename_i p c
    obtain ⟨path, hpath, hgained⟩ := ih
    refine ⟨p.1 :: path, ?_, ?_⟩
    · rw [stepsFrom_of_moves hmoves, hpath, List.cons_append]
    · rw [gained_add trade p.1 c.1 q.1, gained_of_moves hmoves, hgained, List.map_cons,
        List.sum_cons]

theorem gained_of_last (h : Ends trade index p final) :
    gained trade p.1 final = ((stepsFrom trade index p.1 p.2).map (stepLeg trade)).sum := by
  by_cases hover : p.1.Over trade.limit
  · rw [final_of_over h hover, stepsFrom_of_over hover, List.map_nil, List.sum_nil]
    exact gained_self trade p.1
  · rw [(gained_of_stop h hover).2, stepsFrom_of_stop h hover, List.map_singleton,
      List.sum_singleton]

/-- A run exchanges what its steps come to. -/
theorem gained_eq_sum (hreaches : Reaches trade index p c) (hends : Ends trade index c final) :
    gained trade p.1 final = ((stepsFrom trade index p.1 p.2).map (stepLeg trade)).sum := by
  obtain ⟨path, hpath, hgained⟩ := exists_path hreaches
  rw [gained_add trade p.1 c.1 final, hgained, gained_of_last hends, hpath, List.map_append,
    List.sum_append]

end ReinvestingPool.Proofs.SteppedStates
