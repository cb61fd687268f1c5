import ReinvestingPool.Proofs.LargerAmounts

/-!
Where the run of a larger amount leaves the run of a smaller one. Both pass the same states until
the smaller amount is used up. If it comes to rest on an edge then, and not as a full step would,
its checkpoint is a state that the larger amount does not pass through.
-/

namespace ReinvestingPool.Proofs.Detours

open SignedAmounts TickIndexes RangeSteps Runs Simulations RestPrices Paths StepFrames RunEnds
open LargerAmounts

variable {trade : Trade} {index : TickIndex} {s t moved : RunState} {p q c : Point}
variable {final : RunState} {x y : Amount}

/-- The step in `s` comes to rest on the edge ahead, but not as a full step would. -/
def TakesDetour (trade : Trade) (s : RunState) : Prop :=
  Deviates s.liquidity s.sqrtPrice (aim trade s) trade.swapFee s.remaining trade.side trade.token ∧
    (restUsage trade s).restPrice = (edgePrice trade.direction s).toNat

theorem not_deviates_of_moves (h : Moves trade index p q) (hnot : ¬ TakesDetour trade p.1) :
    ¬ Deviates p.1.liquidity p.1.sqrtPrice (aim trade p.1) trade.swapFee p.1.remaining trade.side
      trade.token := by
  intro hdeviates
  obtain ⟨hmove, reach, hreach, huncovered, hdiffers⟩ := hdeviates
  obtain ⟨moved, hsteps, hedge, -⟩ := steps_of_moves h
  rcases steps_ends hsteps with ⟨hcovered, -⟩ | ⟨-, -, -, hrest⟩
  · exact hcovered ⟨hmove, reach, hreach, huncovered⟩
  · rw [hedge] at hrest
    exact hnot ⟨⟨hmove, reach, hreach, huncovered, hdiffers⟩, hrest.symm⟩

theorem moves_holding (hpart : PartOf trade.side p.1.remaining x) (hnot : ¬ TakesDetour trade p.1)
    (h : Moves trade index p q)
    (hy : y.toInt = q.1.remaining.toInt + (x.toInt - p.1.remaining.toInt)) :
    Moves trade index (holding p.1 x, p.2) (holding q.1 y, q.2) := by
  have hdeviates := not_deviates_of_moves h hnot
  have hopen := h.isOpen
  have hremaining : p.1.remaining ≠ 0 := fun hzero => hopen (Or.inl hzero)
  have hstill : ¬ (holding p.1 x).Over trade.limit := by
    intro hgiven
    rcases hgiven with hzero | hlimit
    · change x = 0 at hzero
      rw [hzero] at hpart
      exact hremaining hpart.eq_zero
    · exact hopen (Or.inr hlimit)
  cases h with
  | glide _ h =>
    obtain ⟨moved, hsteps, hedge, hnext, rfl⟩ := advance_glided_iff.mp h
    exact .glide hstill (advance_glided_iff.mpr ⟨holding moved y,
      steps_holding hpart hremaining hdeviates hsteps hy, hedge, hnext, rfl⟩)
  | cross _ h =>
    obtain ⟨moved, hsteps, hedge, hnext, hleave⟩ := advance_crossed_iff.mp h
    obtain ⟨record, -, -, -, -, hframe⟩ := leaveRange_eq_ok hleave
    have hleft := congrArg RunState.remaining hframe
    rw [hleft] at hy
    exact .cross hstill (advance_crossed_iff.mpr ⟨holding moved y,
      steps_holding hpart hremaining hdeviates hsteps hy, hedge, hnext,
      leaveRange_holding hleave⟩)

/-- The run of a larger amount passes the same states as long as the smaller one does not detour. -/
theorem reaches_holding (hpart : PartOf trade.side p.1.remaining x)
    (hnot : ∀ q q', Reaches trade index p q → Moves trade index q q' → Reaches trade index q' c →
      ¬ TakesDetour trade q.1)
    (h : Reaches trade index p c) :
    ∃ y, y.toInt = c.1.remaining.toInt + (x.toInt - p.1.remaining.toInt) ∧
      Reaches trade index (holding p.1 x, p.2) (holding c.1 y, c.2) := by
  induction h with
  | refl => exact ⟨x, by omega, .refl⟩
  | tail hreaches hmoves ih =>
    rename_i q c
    obtain ⟨y, hy, hlarger⟩ := ih fun state next hstate hnext hlater =>
      hnot state next hstate hnext (hlater.tail hmoves)
    have hleft := part_reaches hpart.self_left hreaches
    obtain ⟨rest, hrest, hqrest, hrestx⟩ := hleft.exists_rest hpart
    obtain rfl : y = rest := Signed.ext (hy.trans hrest.symm)
    obtain ⟨z, hz, -, -⟩ := (part_moves hleft.self_left hmoves).exists_rest hqrest
    refine ⟨z, by omega, hlarger.tail ?_⟩
    exact moves_holding hqrest (hnot q c hreaches hmoves .refl) hmoves hz

/-- Somewhere on a run, a step comes to rest on the edge ahead, but not as a full step would. -/
def RunDetours (trade : Trade) (index : TickIndex) (p : Point) : Prop :=
  ∃ q, Reaches trade index p q ∧ ¬ q.1.Over trade.limit ∧ TakesDetour trade q.1

theorem usesUp_of_detours (h : TakesDetour trade s) : UsesUp trade s := by
  obtain ⟨⟨hmove, reach, hreach, huncovered, -⟩, -⟩ := h
  exact ⟨hmove, reach, hreach, huncovered⟩

/-- A detour takes a run that succeeds to its end, where nothing is left. -/
theorem moves_of_detours (hreaches : Reaches trade index p c) (hends : Ends trade index c final)
    (hq : Reaches trade index p q) (hopen : ¬ q.1.Over trade.limit) (h : TakesDetour trade q.1) :
    Moves trade index q c := by
  have huses := usesUp_of_detours h
  rcases (reaches_of_ends hq hreaches hends).cases_head with rfl | ⟨other, hmoves, hother⟩
  · cases hends with
    | finished hover => exact absurd hover hopen
    | stop _ hstop =>
      obtain ⟨moved, hsteps, hedge, -⟩ := advance_stopped_iff.mp hstop
      rcases steps_ends hsteps with ⟨hnot, -⟩ | ⟨-, -, -, hrest⟩
      · exact absurd huses hnot
      · exact absurd (BitVec.eq_of_toNat_eq (hrest.trans h.2)) hedge
  · have hover := over_of_usesUp hmoves huses
    rcases hother.cases_head with rfl | ⟨_, hnext, -⟩
    · exact hmoves
    · exact absurd hover hnext.isOpen

/-- A run whose checkpoint has something left took no detour. -/
theorem remaining_of_detours (hreaches : Reaches trade index p c)
    (hends : Ends trade index c final) (h : RunDetours trade index p) : c.1.remaining = 0 := by
  obtain ⟨q, hq, hopen, hdetour⟩ := h
  obtain ⟨moved, hsteps, -, -, hremaining, -⟩ :=
    steps_of_moves (moves_of_detours hreaches hends hq hopen hdetour)
  rcases steps_ends hsteps with ⟨hnot, -⟩ | ⟨-, hzero, -⟩
  · exact absurd (usesUp_of_detours hdetour) hnot
  · exact hremaining.trans hzero

theorem stepsLeft_of_moves (h : Moves trade index p q) :
    stepsLeft trade.direction q.1 < stepsLeft trade.direction p.1 := by
  cases h with
  | glide _ h => exact stepsLeft_lt_of_glided h
  | cross _ h => exact stepsLeft_lt_of_crossed h

theorem stepsLeft_of_reaches (h : Reaches trade index p q) :
    stepsLeft trade.direction q.1 ≤ stepsLeft trade.direction p.1 := by
  induction h with
  | refl => exact Nat.le_refl _
  | tail _ hmoves ih => exact Nat.le_trans (Nat.le_of_lt (stepsLeft_of_moves hmoves)) ih

/-- Whatever is left of the amount, a move leads to the same ticks. -/
theorem ticks_of_moves_holding (h : Moves trade index p q)
    (hother : Moves trade index (holding p.1 x, p.2) c) :
    c.1.currentTick = q.1.currentTick ∧ c.1.nextTick = q.1.nextTick := by
  obtain ⟨-, -, -, -, -, -, -, hcurrent⟩ := steps_of_moves h
  obtain ⟨-, -, -, -, -, -, -, hcurrent'⟩ := steps_of_moves hother
  refine ⟨hcurrent'.trans hcurrent.symm, ?_⟩
  have hfirst := nextTick_of_moves h
  rcases nextTick_of_moves hother with ⟨hglides, hnext⟩ | ⟨hcrosses, hnext⟩
  · change edgeTick trade.direction p.1 ≠ p.1.nextTick at hglides
    rcases hfirst with ⟨-, hsame⟩ | ⟨hcrosses, -⟩
    · exact hnext.trans hsame.symm
    · exact absurd hcrosses hglides
  · change edgeTick trade.direction p.1 = p.1.nextTick at hcrosses
    rcases hfirst with ⟨hglides, -⟩ | ⟨-, hadvance⟩
    · exact absurd hcrosses hglides
    · exact Except.ok.inj (hnext.symm.trans hadvance)

/-- States that agree in all but what is left come from steps of the same effect. -/
theorem effect_of_settled {step other : RangeStep} {t : RunState} (h : s.settle step = .ok moved)
    (hother : (holding s x).settle other = .ok t) (hprice : t.sqrtPrice = moved.sqrtPrice)
    (hleft : t.remaining.toInt = moved.remaining.toInt + (x.toInt - s.remaining.toInt))
    (hexchanged : t.exchanged = moved.exchanged)
    (hreinvested : t.reinvestedLiquidity = moved.reinvestedLiquidity) :
    effect other = effect step := by
  obtain ⟨remaining, exchanged, hremaining, -, hgot, rfl⟩ := settle_eq_ok.mp h
  obtain ⟨remaining', exchanged', hremaining', -, hgot', rfl⟩ := settle_eq_ok.mp hother
  change remaining'.toInt = remaining.toInt + (x.toInt - s.remaining.toInt) at hleft
  change remaining'.toInt = x.toInt - other.used.toInt at hremaining'
  change exchanged' = exchanged at hexchanged
  change exchanged'.toInt = s.exchanged.toInt + other.exchanged.toInt at hgot'
  rw [hexchanged] at hgot'
  exact effect_eq_iff.mpr ⟨hprice, Signed.ext (by omega), Signed.ext (by omega),
    (BitVec.add_right_inj s.reinvestedLiquidity).mp hreinvested⟩

/-- Where a detour rests on an edge, a larger amount does not take the same step. -/
theorem not_moves_of_detour (hlarger : x ≠ q.1.remaining) (hdetour : TakesDetour trade q.1)
    (h : Moves trade index q c)
    (hy : y.toInt = c.1.remaining.toInt + (x.toInt - q.1.remaining.toInt)) :
    ¬ Moves trade index (holding q.1 x, q.2) (holding c.1 y, c.2) := by
  intro hother
  obtain ⟨moved, hsteps, -, hprice, hleft, hgot, hadded, -⟩ := steps_of_moves h
  obtain ⟨moved', hsteps', -, hprice', hleft', hgot', hadded', -⟩ := steps_of_moves hother
  obtain ⟨-, step, hstep, hsettle⟩ := steps_iff.mp hsteps
  obtain ⟨-, step', hstep', hsettle'⟩ := steps_iff.mp hsteps'
  have hsame : effect step' = effect step := by
    refine effect_of_settled hsettle hsettle' (hprice'.symm.trans hprice) ?_
      (hgot'.symm.trans hgot) (hadded'.symm.trans hadded)
    rw [← hleft, ← hleft']
    exact hy
  obtain ⟨⟨hmove, reach, hreach, huncovered, hdiffers⟩, -⟩ := hdetour
  rcases rangeStep_cases hstep with ⟨hstay, -⟩ | ⟨-, found, hfound, hcase⟩
  · exact hmove hstay
  rw [hreach] at hfound
  obtain rfl := Except.ok.inj hfound
  rcases hcase with ⟨hcovered, -⟩ | ⟨-, hpartial⟩
  · rw [huncovered] at hcovered
    cases hcovered
  rcases rangeStep_cases hstep' with ⟨hstay, -⟩ | ⟨-, found, hfound, hcase⟩
  · exact hmove hstay
  have hfound : reach = found := Except.ok.inj (hreach.symm.trans hfound)
  subst hfound
  rcases hcase with ⟨-, hfull⟩ | ⟨-, hother⟩
  · refine hdiffers ?_
    have hfull : fullStep q.1.liquidity q.1.sqrtPrice (aim trade q.1) reach trade.side
      trade.token = .ok step' := hfull
    rw [hfull, hpartial]
    exact congrArg Except.ok hsame
  · have hused := (effect_eq_iff.mp hsame).2.1
    rw [(partialStep_eq_ok hother).1, (partialStep_eq_ok hpartial).1] at hused
    exact hlarger hused

/-- After a detour, the checkpoint with the rest of a larger amount is not on the larger run. -/
theorem not_reaches_of_detours (hreaches : Reaches trade index p c)
    (hends : Ends trade index c final) (hpart : PartOf trade.side p.1.remaining x)
    (hlarger : x ≠ p.1.remaining) (hdetours : RunDetours trade index p)
    (hy : y.toInt = c.1.remaining.toInt + (x.toInt - p.1.remaining.toInt)) :
    ¬ Reaches trade index (holding p.1 x, p.2) (holding c.1 y, c.2) := by
  intro hon
  obtain ⟨q, hq, hopen, hdetour⟩ := hdetours
  have hmoves := moves_of_detours hreaches hends hq hopen hdetour
  have hquiet : ∀ state next, Reaches trade index p state → Moves trade index state next →
      Reaches trade index next q → ¬ TakesDetour trade state.1 := by
    intro state next _ hnext hlater hearly
    have hover := over_of_usesUp hnext (usesUp_of_detours hearly)
    rcases hlater.cases_head with rfl | ⟨_, hmore, -⟩
    · exact hopen hover
    · exact hmore.isOpen hover
  obtain ⟨z, hz, hlifted⟩ := reaches_holding hpart hquiet hq
  have hdrop := stepsLeft_of_moves hmoves
  have hunique : Relator.RightUnique (Moves trade index) := fun _ _ _ => Moves.unique
  rcases Relation.ReflTransGen.total_of_right_unique hunique hlifted hon with hafter | hbefore
  · rcases hafter.cases_head with hsame | ⟨next, hnext, hlater⟩
    · have hticks := congrArg (fun point => stepsLeft trade.direction point.1) hsame
      change stepsLeft trade.direction q.1 = stepsLeft trade.direction c.1 at hticks
      omega
    · obtain ⟨hcurrent, htick⟩ := ticks_of_moves_holding hmoves hnext
      have hlevel : stepsLeft trade.direction next.1 = stepsLeft trade.direction c.1 := by
        unfold stepsLeft
        rw [hcurrent, htick]
      rcases hlater.cases_head with rfl | ⟨_, hmore, hlast⟩
      · refine not_moves_of_detour ?_ hdetour hmoves ?_ hnext
        · intro hequal
          exact hlarger (Signed.ext (by rw [hequal] at hz; omega))
        · omega
      · have hfurther := Nat.lt_of_le_of_lt (stepsLeft_of_reaches hlast) (stepsLeft_of_moves hmore)
        change stepsLeft trade.direction c.1 < stepsLeft trade.direction next.1 at hfurther
        omega
  · have hfurther := stepsLeft_of_reaches hbefore
    change stepsLeft trade.direction q.1 ≤ stepsLeft trade.direction c.1 at hfurther
    omega

/-- The checkpoint of a run lies on the run of a larger amount exactly where it took no detour. -/
theorem resumes_iff (hreaches : Reaches trade index p c) (hends : Ends trade index c final)
    (hpart : PartOf trade.side p.1.remaining x) (hlarger : x ≠ p.1.remaining) :
    (∃ y, y.toInt = c.1.remaining.toInt + (x.toInt - p.1.remaining.toInt) ∧
      Reaches trade index (holding p.1 x, p.2) (holding c.1 y, c.2)) ↔
    ¬ RunDetours trade index p := by
  constructor
  · rintro ⟨y, hy, hon⟩ hdetours
    exact not_reaches_of_detours hreaches hends hpart hlarger hdetours hy hon
  · intro hquiet
    exact reaches_holding hpart
      (fun q _ hq hmoves _ hdetour => hquiet ⟨q, hq, hmoves.isOpen, hdetour⟩) hreaches

end ReinvestingPool.Proofs.Detours
