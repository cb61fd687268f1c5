import Mathlib.Logic.Relation
import ReinvestingPool.Simulations
import ReinvestingPool.Proofs.TickLadder

/-!
The states that a run passes through. A step that reaches its edge moves the run on, and the last
step ends it. A run is determined by its first state, and its checkpoint is the last state that
it moves to.
-/

namespace ReinvestingPool.Proofs.Paths

open Failures Words Directions TickMaps TickPrices TickIndexes Pools Runs Simulations
open TickLadder

/-- A state of a run and the records that it finds. -/
abbrev Point := RunState × TickMap TickRecord

/-- The price of the edge ahead. -/
def edgePrice (direction : Direction) (s : RunState) : Word :=
  BitVec.ofNat 256 (ratio (edgeTick direction s))

/-- The price at which a step taken in `s` is full. -/
def aim (trade : Trade) (s : RunState) : Word :=
  targetPrice trade.direction (edgePrice trade.direction s) trade.limit

/-- `moved` is the state after the amounts of a step taken in `s`. -/
def Steps (trade : Trade) (s moved : RunState) : Prop :=
  (minTick ≤ edgeTick trade.direction s ∧ edgeTick trade.direction s ≤ maxTick) ∧
    takeStep trade s (edgePrice trade.direction s) = .ok moved

/-- `moved` on the edge that the step had ahead. -/
def landed (direction : Direction) (s moved : RunState) : RunState :=
  { moved with currentTick := landingTick direction (edgeTick direction s) }

variable {trade : Trade} {index : TickIndex} {s t moved last : RunState}
variable {records flipped : TickMap TickRecord}

theorem advance_eq_ok {progress : Progress} :
    advance trade index s records = .ok progress ↔
      ∃ moved, Steps trade s moved ∧
        (if moved.sqrtPrice ≠ edgePrice trade.direction s then do
            return .stopped (← liftPool (moved.locate s.sqrtPrice))
          else if edgeTick trade.direction s ≠ s.nextTick then
            return .glided (landed trade.direction s moved)
          else do
            let (left, flipped) ← leaveRange trade index (landed trade.direction s moved) records
            return .crossed left flipped) = Except.ok (ε := Failure) progress := by
  unfold advance
  constructor
  · intro h
    obtain ⟨edge, hedge, h⟩ := bind_eq_ok.mp h
    obtain ⟨moved, hmoved, h⟩ := bind_eq_ok.mp h
    obtain ⟨hinside, rfl⟩ := sqrtPriceAt_iff.mp (liftPool_eq_ok.mp hedge)
    exact ⟨moved, ⟨hinside, hmoved⟩, h⟩
  · intro h
    rcases h with ⟨moved, ⟨hinside, hmoved⟩, h⟩
    refine bind_eq_ok.mpr ⟨_, liftPool_eq_ok.mpr (sqrtPriceAt_iff.mpr ⟨hinside, rfl⟩), ?_⟩
    exact bind_eq_ok.mpr ⟨moved, hmoved, h⟩

theorem advance_stopped_iff :
    advance trade index s records = .ok (.stopped last) ↔
      ∃ moved, Steps trade s moved ∧ moved.sqrtPrice ≠ edgePrice trade.direction s ∧
        moved.locate s.sqrtPrice = .ok last := by
  rw [advance_eq_ok]
  refine exists_congr fun moved => and_congr_right fun _ => ?_
  by_cases hedge : moved.sqrtPrice = edgePrice trade.direction s
  · rw [if_neg fun hne => hne hedge]
    refine iff_of_false (fun h => ?_) fun h => h.1 hedge
    split at h
    · cases h
    · obtain ⟨left, -, h⟩ := bind_eq_ok.mp h
      cases h
  · rw [if_pos hedge]
    constructor
    · intro h
      obtain ⟨located, hlocated, h⟩ := bind_eq_ok.mp h
      cases h
      exact ⟨hedge, liftPool_eq_ok.mp hlocated⟩
    · intro h
      rcases h with ⟨-, hlocated⟩
      exact bind_eq_ok.mpr ⟨last, liftPool_eq_ok.mpr hlocated, rfl⟩

theorem advance_glided_iff :
    advance trade index s records = .ok (.glided t) ↔
      ∃ moved, Steps trade s moved ∧ moved.sqrtPrice = edgePrice trade.direction s ∧
        edgeTick trade.direction s ≠ s.nextTick ∧ t = landed trade.direction s moved := by
  rw [advance_eq_ok]
  refine exists_congr fun moved => and_congr_right fun _ => ?_
  by_cases hedge : moved.sqrtPrice = edgePrice trade.direction s
  · rw [if_neg fun hne => hne hedge]
    by_cases hnext : edgeTick trade.direction s = s.nextTick
    · rw [if_neg fun hne => hne hnext]
      refine iff_of_false (fun h => ?_) fun h => h.2.1 hnext
      obtain ⟨left, -, h⟩ := bind_eq_ok.mp h
      cases h
    · rw [if_pos hnext]
      constructor
      · intro h
        cases h
        exact ⟨hedge, hnext, rfl⟩
      · intro h
        rcases h with ⟨-, -, rfl⟩
        rfl
  · rw [if_pos hedge]
    refine iff_of_false (fun h => ?_) fun h => hedge h.1
    obtain ⟨located, -, h⟩ := bind_eq_ok.mp h
    cases h

theorem advance_crossed_iff :
    advance trade index s records = .ok (.crossed t flipped) ↔
      ∃ moved, Steps trade s moved ∧ moved.sqrtPrice = edgePrice trade.direction s ∧
        edgeTick trade.direction s = s.nextTick ∧
        leaveRange trade index (landed trade.direction s moved) records = .ok (t, flipped) := by
  rw [advance_eq_ok]
  refine exists_congr fun moved => and_congr_right fun _ => ?_
  by_cases hedge : moved.sqrtPrice = edgePrice trade.direction s
  · rw [if_neg fun hne => hne hedge]
    by_cases hnext : edgeTick trade.direction s = s.nextTick
    · rw [if_neg fun hne => hne hnext]
      constructor
      · intro h
        obtain ⟨left, hleft, h⟩ := bind_eq_ok.mp h
        cases h
        exact ⟨hedge, hnext, hleft⟩
      · intro h
        rcases h with ⟨-, -, hleft⟩
        exact bind_eq_ok.mpr ⟨(t, flipped), hleft, rfl⟩
    · rw [if_pos hnext]
      exact iff_of_false (fun h => by cases h) fun h => hnext h.2.1
  · rw [if_pos hedge]
    refine iff_of_false (fun h => ?_) fun h => hedge h.1
    obtain ⟨located, -, h⟩ := bind_eq_ok.mp h
    cases h

/-- A step at the end of which the run goes on. -/
inductive Moves (trade : Trade) (index : TickIndex) : Point → Point → Prop
  | glide {s t : RunState} {records : TickMap TickRecord} (hopen : ¬ s.Over trade.limit)
      (h : advance trade index s records = .ok (.glided t)) :
      Moves trade index (s, records) (t, records)
  | cross {s t : RunState} {records flipped : TickMap TickRecord} (hopen : ¬ s.Over trade.limit)
      (h : advance trade index s records = .ok (.crossed t flipped)) :
      Moves trade index (s, records) (t, flipped)

/-- A run that is in the state `s` is over, or its last step stops inside a range. -/
inductive Ends (trade : Trade) (index : TickIndex) : Point → RunState → Prop
  | finished {s : RunState} {records : TickMap TickRecord} (h : s.Over trade.limit) :
      Ends trade index (s, records) s.finish
  | stop {s last : RunState} {records : TickMap TickRecord} (hopen : ¬ s.Over trade.limit)
      (h : advance trade index s records = .ok (.stopped last)) :
      Ends trade index (s, records) last.finish

abbrev Reaches (trade : Trade) (index : TickIndex) : Point → Point → Prop :=
  Relation.ReflTransGen (Moves trade index)

variable {p q c : Point} {final checkpoint : RunState} {outcome : Outcome}

theorem Moves.isOpen (h : Moves trade index p q) : ¬ p.1.Over trade.limit := by
  cases h with
  | glide hopen => exact hopen
  | cross hopen => exact hopen

/-- A step is determined by the state in which it is taken. -/
theorem Moves.unique (hq : Moves trade index p q) (hc : Moves trade index p c) : q = c := by
  cases hq with
  | glide _ h =>
    cases hc with
    | glide _ hother =>
      rw [h] at hother
      cases hother
      rfl
    | cross _ hother =>
      rw [h] at hother
      cases hother
  | cross _ h =>
    cases hc with
    | glide _ hother =>
      rw [h] at hother
      cases hother
    | cross _ hother =>
      rw [h] at hother
      cases hother
      rfl

theorem Ends.not_moves (hends : Ends trade index p final) : ¬ Moves trade index p q := by
  intro hmoves
  cases hends with
  | finished hover => exact hmoves.isOpen hover
  | stop _ h =>
    cases hmoves with
    | glide _ hother =>
      rw [h] at hother
      cases hother
    | cross _ hother =>
      rw [h] at hother
      cases hother

/-- Every state that a run comes to leads on to its end. -/
theorem reaches_of_ends (hreaches : Reaches trade index p q) (hlast : Reaches trade index p c)
    (hends : Ends trade index c final) : Reaches trade index q c := by
  have hunique : Relator.RightUnique (Moves trade index) := fun _ _ _ => Moves.unique
  rcases Relation.ReflTransGen.total_of_right_unique hunique hreaches hlast with hafter | hbefore
  · exact hafter
  · rcases hbefore.cases_head with rfl | ⟨_, hmoves, -⟩
    · exact .refl
    · exact absurd hmoves hends.not_moves

theorem runFrom_eq :
    runFrom trade index s checkpoint records =
      if s.Over trade.limit then .ok ⟨s.finish, checkpoint, records⟩
      else match advance trade index s records with
        | .error failure => .error failure
        | .ok (.stopped last) => .ok ⟨last.finish, checkpoint, records⟩
        | .ok (.glided t) => runFrom trade index t t records
        | .ok (.crossed t flipped) => runFrom trade index t t flipped := by
  rw [runFrom]
  by_cases hover : s.Over trade.limit
  · rw [if_pos hover, if_pos hover]
  · rw [if_neg hover, if_neg hover]
    split
    · rename_i h
      rw [h]
    · rename_i h
      rw [h]
    · rename_i h
      rw [h]
    · rename_i h
      rw [h]

/-- A move hands on to a run from the next state, whose checkpoint that state is. -/
theorem runFrom_of_moves (h : Moves trade index p q) :
    runFrom trade index p.1 checkpoint p.2 = runFrom trade index q.1 q.1 q.2 := by
  rw [runFrom_eq, if_neg h.isOpen]
  cases h with
  | glide _ h => rw [h]
  | cross _ h => rw [h]

theorem runFrom_of_ends (h : Ends trade index p final) :
    runFrom trade index p.1 checkpoint p.2 = .ok ⟨final, checkpoint, p.2⟩ := by
  rw [runFrom_eq]
  cases h with
  | finished hover => rw [if_pos hover]
  | stop hopen h => rw [if_neg hopen, h]

/-- Every state along a run leads to its outcome. -/
theorem runFrom_of_reaches (h : Reaches trade index p q) :
    runFrom trade index p.1 p.1 p.2 = runFrom trade index q.1 q.1 q.2 := by
  induction h with
  | refl => rfl
  | tail _ hmoves ih => exact ih.trans (runFrom_of_moves hmoves)

theorem reaches_of_runFrom
    (h : runFrom trade index s checkpoint records = .ok outcome) :
    (outcome.checkpoint = checkpoint ∧ outcome.records = records ∧
        Ends trade index (s, records) outcome.final) ∨
      ∃ q, Moves trade index (s, records) q ∧
        Reaches trade index q (outcome.checkpoint, outcome.records) ∧
        Ends trade index (outcome.checkpoint, outcome.records) outcome.final := by
  have hgo : ∀ q : Point,
      (outcome.checkpoint = q.1 ∧ outcome.records = q.2 ∧
        Ends trade index q outcome.final) ∨
      (∃ c, Moves trade index q c ∧
        Reaches trade index c (outcome.checkpoint, outcome.records) ∧
        Ends trade index (outcome.checkpoint, outcome.records) outcome.final) →
      Reaches trade index q (outcome.checkpoint, outcome.records) ∧
        Ends trade index (outcome.checkpoint, outcome.records) outcome.final := by
    rintro ⟨state, found⟩ (⟨rfl, rfl, hends⟩ | ⟨c, hmoves, hreaches, hends⟩)
    · exact ⟨.refl, hends⟩
    · exact ⟨.head hmoves hreaches, hends⟩
  fun_induction runFrom trade index s checkpoint records with
  | case1 s checkpoint records hover =>
    cases h
    exact Or.inl ⟨rfl, rfl, .finished hover⟩
  | case2 s checkpoint records hopen failure hfails => cases h
  | case3 s checkpoint records hopen last hstops =>
    cases h
    exact Or.inl ⟨rfl, rfl, .stop hopen hstops⟩
  | case4 s checkpoint records hopen t hglides ih =>
    exact Or.inr ⟨(t, records), .glide hopen hglides, hgo _ (ih h)⟩
  | case5 s checkpoint records hopen t flipped hcrosses ih =>
    exact Or.inr ⟨(t, flipped), .cross hopen hcrosses, hgo _ (ih h)⟩

/-- A run succeeds exactly where a path leads to a state in which it ends. -/
theorem runFrom_eq_ok :
    runFrom trade index s s records = .ok outcome ↔
      Reaches trade index (s, records) (outcome.checkpoint, outcome.records) ∧
        Ends trade index (outcome.checkpoint, outcome.records) outcome.final := by
  constructor
  · intro h
    rcases reaches_of_runFrom h with ⟨hcheckpoint, hrecords, hends⟩ | ⟨q, hmoves, hreaches, hends⟩
    · rw [hcheckpoint, hrecords]
      exact ⟨.refl, hends⟩
    · exact ⟨.head hmoves hreaches, hends⟩
  · intro h
    rcases h with ⟨hreaches, hends⟩
    have hrun := runFrom_of_reaches hreaches
    rw [runFrom_of_ends hends] at hrun
    exact hrun

end ReinvestingPool.Proofs.Paths
