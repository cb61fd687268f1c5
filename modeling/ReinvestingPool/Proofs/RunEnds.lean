import ReinvestingPool.Proofs.RestPrices
import ReinvestingPool.Proofs.StepEnds
import ReinvestingPool.Proofs.StepFrames

/-!
Where a run ends. Steps that go to their target are independent of the amount that is left; the one
step that uses the amount up is the last of its run, and its rest price is the price at the end.
-/

namespace ReinvestingPool.Proofs.RunEnds

open SignedAmounts TickIndexes RangeSteps Runs Simulations RestPrices Paths StepFrames

variable {trade : Trade} {index : TickIndex} {s moved final : RunState} {p q c : Point}

/-- What is left of the amount, used up in the range ahead. -/
def restUsage (trade : Trade) (s : RunState) : Usage :=
  usage s.liquidity s.sqrtPrice trade.swapFee s.remaining trade.side trade.token

/-- What is left of the amount does not cover the way to the end of the step. -/
def UsesUp (trade : Trade) (s : RunState) : Prop :=
  s.sqrtPrice ≠ aim trade s ∧ ∃ reach,
    reachAmount s.liquidity s.sqrtPrice (aim trade s) trade.swapFee trade.side trade.token =
      .ok reach ∧ covers trade.side s.remaining reach = false

/-- A step either goes where it aims at, or it uses up the amount and rests where that leads. -/
theorem steps_ends (h : Steps trade s moved) :
    (¬ UsesUp trade s ∧ moved.sqrtPrice = aim trade s) ∨
      (UsesUp trade s ∧ moved.remaining = 0 ∧ 0 < (restUsage trade s).scale.2 ∧
        moved.sqrtPrice.toNat = (restUsage trade s).restPrice) := by
  obtain ⟨-, step, hstep, hsettle⟩ := steps_iff.mp h
  obtain ⟨remaining, exchanged, hremaining, -, -, rfl⟩ := settle_eq_ok.mp hsettle
  rcases rangeStep_cases hstep with ⟨hstay, rfl⟩ | ⟨hmove, reach, hreach, hcase⟩
  · exact Or.inl ⟨fun huses => huses.1 hstay, hstay⟩
  · rcases hcase with ⟨hcovers, hfull⟩ | ⟨hcovers, hpartial⟩
    · refine Or.inl ⟨?_, (fullStep_eq_ok hfull).2⟩
      intro hgiven
      rcases hgiven with ⟨-, other, hother, huncovered⟩
      rw [hreach] at hother
      obtain rfl := Except.ok.inj hother
      rw [hcovers] at huncovered
      cases huncovered
    · obtain ⟨hused, hscale, hnext⟩ := partialStep_eq_ok hpartial
      refine Or.inr ⟨⟨hmove, reach, hreach, hcovers⟩, Signed.ext ?_, hscale, hnext⟩
      rw [hused, Int.sub_self] at hremaining
      exact hremaining

/-- The step taken in `q`, which leaves `moved`, is the last one of a run from `p` by way of the
checkpoint `c` to `final`. -/
structure LastStep (trade : Trade) (index : TickIndex) (p c q : Point) (moved final : RunState) :
    Prop where
  reaches : Reaches trade index p q
  isOpen : ¬ q.1.Over trade.limit
  steps : Steps trade q.1 moved
  price : final.sqrtPrice = moved.sqrtPrice
  ends : q = c ∨ Moves trade index q c ∧ c.1.Over trade.limit
  /-- No other step uses up what is left. -/
  only : ∀ other, Reaches trade index p other → ¬ other.1.Over trade.limit →
    UsesUp trade other.1 → other = q

theorem final_of_over (h : Ends trade index p final) (hover : p.1.Over trade.limit) :
    final = p.1.finish := by
  cases h with
  | finished => rfl
  | stop hopen => exact absurd hover hopen

theorem lastStep_of_stop (h : Ends trade index p final) (hopen : ¬ p.1.Over trade.limit) :
    ∃ moved, LastStep trade index p p p moved final := by
  have honly : ∀ other, Reaches trade index p other → ¬ other.1.Over trade.limit →
      UsesUp trade other.1 → other = p := by
    intro other hreaches _ _
    rcases hreaches.cases_head with hsame | ⟨q, hmoves, -⟩
    · exact hsame.symm
    · exact absurd hmoves h.not_moves
  cases h with
  | finished hover => exact absurd hover hopen
  | stop _ hstop =>
    obtain ⟨moved, hsteps, -, hlocate⟩ := advance_stopped_iff.mp hstop
    have hprice := congrArg RunState.sqrtPrice (locate_eq_ok hlocate).1
    exact ⟨moved, .refl, hopen, hsteps, hprice, Or.inl rfl, honly⟩

theorem lastStep_of_landing (hmoves : Moves trade index p c) (hover : c.1.Over trade.limit) :
    ∃ moved, LastStep trade index p c p moved c.1.finish := by
  obtain ⟨moved, hsteps, -, hprice, -⟩ := steps_of_moves hmoves
  refine ⟨moved, .refl, hmoves.isOpen, hsteps, hprice, Or.inr ⟨hmoves, hover⟩, ?_⟩
  intro other hreaches hopen _
  rcases hreaches.cases_head with hsame | ⟨next, hnext, hreaches⟩
  · exact hsame.symm
  · obtain rfl := hmoves.unique hnext
    rcases hreaches.cases_head with rfl | ⟨_, hfurther, -⟩
    · exact absurd hover hopen
    · exact absurd hover hfurther.isOpen

theorem over_of_usesUp (h : Moves trade index p q) (huses : UsesUp trade p.1) :
    q.1.Over trade.limit := by
  obtain ⟨moved, hsteps, -, -, hremaining, -⟩ := steps_of_moves h
  rcases steps_ends hsteps with ⟨hnot, -⟩ | ⟨-, hzero, -⟩
  · exact absurd huses hnot
  · exact Or.inl (hremaining.trans hzero)

/-- A run that is not over at once has a last step. -/
theorem exists_lastStep (hreaches : Reaches trade index p c) (hends : Ends trade index c final)
    (hopen : ¬ p.1.Over trade.limit) : ∃ q moved, LastStep trade index p c q moved final := by
  induction hreaches using Relation.ReflTransGen.head_induction_on with
  | refl => exact ⟨c, lastStep_of_stop hends hopen⟩
  | head hmoves hreaches ih =>
    rename_i p q
    by_cases hover : q.1.Over trade.limit
    · rcases hreaches.cases_head with rfl | ⟨_, hnext, -⟩
      · rw [final_of_over hends hover]
        exact ⟨p, lastStep_of_landing hmoves hover⟩
      · exact absurd hover hnext.isOpen
    · obtain ⟨last, moved, hlast⟩ := ih hover
      refine ⟨last, moved, .head hmoves hlast.reaches, hlast.isOpen, hlast.steps, hlast.price,
        hlast.ends, ?_⟩
      intro other hother hotherOpen huses
      rcases hother.cases_head with rfl | ⟨next, hnext, hother⟩
      · exact absurd (over_of_usesUp hmoves huses) hover
      · obtain rfl := hmoves.unique hnext
        exact hlast.only other hother hotherOpen huses

theorem aim_not_past (trade : Trade) (s : RunState) :
    ¬ Before trade.direction trade.limit.toNat (aim trade s).toNat := by
  unfold aim targetPrice Before
  cases trade.direction with
  | rising =>
    simp only
    split
    · omega
    · rename_i hedge
      rw [BitVec.lt_def] at hedge
      exact hedge
  | falling =>
    simp only
    split
    · omega
    · rename_i hedge
      rw [BitVec.le_def] at hedge
      omega

/-- As long as a run goes on, its price has not come to the limit. -/
theorem before_limit (hreaches : Reaches trade index p q)
    (hstart : Before trade.direction p.1.sqrtPrice.toNat trade.limit.toNat)
    (hopen : ¬ q.1.Over trade.limit) :
    Before trade.direction q.1.sqrtPrice.toNat trade.limit.toNat := by
  rcases hreaches.cases_tail with rfl | ⟨r, -, hmoves⟩
  · exact hstart
  · obtain ⟨moved, hsteps, -, hprice, -⟩ := steps_of_moves hmoves
    rcases steps_ends hsteps with ⟨-, haim⟩ | ⟨huses, -⟩
    · have hnotPast := aim_not_past trade r.1
      have hdiffers : q.1.sqrtPrice.toNat ≠ trade.limit.toNat :=
        fun hsame => hopen (Or.inr (BitVec.eq_of_toNat_eq hsame))
      rw [← haim, ← hprice] at hnotPast
      revert hnotPast
      unfold Before
      cases trade.direction with
      | rising =>
        simp only
        omega
      | falling =>
        simp only
        omega
    · exact absurd (over_of_usesUp hmoves huses) hopen

/-- A run comes to lie past its limit exactly where one of its steps uses up the amount and its rest
price overruns the next price after the limit. -/
theorem past_limit_iff (hreaches : Reaches trade index p c) (hends : Ends trade index c final)
    (hopen : ¬ p.1.Over trade.limit) (hlimit : 0 < trade.limit.toNat) :
    Before trade.direction trade.limit.toNat final.sqrtPrice.toNat ↔
      ∃ q, Reaches trade index p q ∧ ¬ q.1.Over trade.limit ∧ UsesUp trade q.1 ∧
        (restUsage trade q.1).Overruns (oneBeyond trade.direction trade.limit.toNat) := by
  obtain ⟨q, moved, hlast⟩ := exists_lastStep hreaches hends hopen
  rw [hlast.price]
  rcases steps_ends hlast.steps with ⟨hnot, haim⟩ | ⟨huses, -, hscale, hrest⟩
  · rw [haim]
    refine iff_of_false (aim_not_past trade q.1) ?_
    intro h
    rcases h with ⟨other, hother, hotherOpen, huses, -⟩
    exact hnot (hlast.only other hother hotherOpen huses ▸ huses)
  · have hbeyond := (restUsage trade q.1).restPrice_beyond_iff trade.limit.toNat hscale hlimit
    rw [hrest]
    constructor
    · intro h
      exact ⟨q, hlast.reaches, hlast.isOpen, huses, hbeyond.mp h⟩
    · intro h
      rcases h with ⟨other, hother, hotherOpen, hotherUses, hover⟩
      rw [hlast.only other hother hotherOpen hotherUses] at hover
      exact hbeyond.mpr hover

end ReinvestingPool.Proofs.RunEnds
