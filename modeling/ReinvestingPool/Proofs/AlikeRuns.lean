import ReinvestingPool.Proofs.FilledAmounts
import ReinvestingPool.Proofs.Resumptions

/-!
Runs that differ in their accounts only. A step reads what is left of the amount, the price, the
ticks and the active liquidity, and a crossing reads the net change of liquidity. What has been
minted, earned or waited for so far is written along the way and read by neither of them.
-/

namespace ReinvestingPool.Proofs.AlikeRuns

open Failures Words Directions SignedAmounts TickMaps TickIndexes Pools RangeSteps Crossings Runs
open Simulations Paths StepFrames Resumptions FilledAmounts

/-- The terms of two trades, up to the share of the government and the time. -/
structure SameTerms (trade other : Trade) : Prop where
  token : other.token = trade.token
  side : other.side = trade.side
  limit : other.limit = trade.limit
  swapFee : other.swapFee = trade.swapFee

/-- Two states of a run that a step does not tell apart. -/
structure Alike (s t : RunState) : Prop where
  remaining : t.remaining = s.remaining
  exchanged : t.exchanged = s.exchanged
  sqrtPrice : t.sqrtPrice = s.sqrtPrice
  currentTick : t.currentTick = s.currentTick
  nextTick : t.nextTick = s.nextTick
  baseLiquidity : t.baseLiquidity = s.baseLiquidity
  reinvestedLiquidity : t.reinvestedLiquidity = s.reinvestedLiquidity
  ticksCrossed : t.ticksCrossed = s.ticksCrossed

/-- Records at the same ticks, with the same net changes of liquidity. -/
def SameNets (records others : TickMap TickRecord) : Prop :=
  ∀ tick, (others.get? tick).map TickRecord.liquidityNet =
    (records.get? tick).map TickRecord.liquidityNet

/-- Two points that a move does not tell apart. -/
def AlikePoints (p q : Point) : Prop := Alike p.1 q.1 ∧ SameNets p.2 q.2

variable {trade other : Trade} {index : TickIndex} {s t moved shifted last rest : RunState}
variable {left crossed : RunState} {records others flipped changed : TickMap TickRecord}
variable {before : Word}
variable {p q c p' q' c' : Point} {final twin : RunState} {outcome outcome' : Outcome}

theorem SameTerms.symm (h : SameTerms trade other) : SameTerms other trade :=
  ⟨h.token.symm, h.side.symm, h.limit.symm, h.swapFee.symm⟩

theorem SameTerms.direction (h : SameTerms trade other) : other.direction = trade.direction := by
  unfold Trade.direction
  rw [h.side, h.token]

theorem Alike.symm (h : Alike s t) : Alike t s :=
  ⟨h.remaining.symm, h.exchanged.symm, h.sqrtPrice.symm, h.currentTick.symm, h.nextTick.symm,
    h.baseLiquidity.symm, h.reinvestedLiquidity.symm, h.ticksCrossed.symm⟩

theorem AlikePoints.symm (h : AlikePoints p q) : AlikePoints q p :=
  ⟨h.1.symm, fun tick => (h.2 tick).symm⟩

section Steps

theorem Alike.over_iff (h : Alike s t) (hterms : SameTerms trade other) :
    t.Over other.limit ↔ s.Over trade.limit := by
  unfold RunState.Over
  rw [h.remaining, h.sqrtPrice, hterms.limit]

theorem Alike.edgeTick_eq (h : Alike s t) (hterms : SameTerms trade other) :
    edgeTick other.direction t = edgeTick trade.direction s := by
  unfold edgeTick
  rw [hterms.direction, h.nextTick, h.currentTick]

theorem Alike.edgePrice_eq (h : Alike s t) (hterms : SameTerms trade other) :
    edgePrice other.direction t = edgePrice trade.direction s := by
  unfold edgePrice
  rw [h.edgeTick_eq hterms]

theorem Alike.aim_eq (h : Alike s t) (hterms : SameTerms trade other) :
    aim other t = aim trade s := by
  unfold aim
  rw [h.edgePrice_eq hterms, hterms.direction, hterms.limit]

theorem Alike.liquidity_eq (h : Alike s t) : t.liquidity = s.liquidity := by
  unfold RunState.liquidity
  rw [h.baseLiquidity, h.reinvestedLiquidity]

theorem alike_of_steps (halike : Alike s t) (hterms : SameTerms trade other)
    (hs : Steps trade s moved) (ht : Steps other t shifted) : Alike moved shifted := by
  obtain ⟨-, step, hstep, hmoved⟩ := steps_iff.mp hs
  obtain ⟨-, taken, htaken, hshifted⟩ := steps_iff.mp ht
  rw [halike.liquidity_eq, halike.sqrtPrice, halike.aim_eq hterms, hterms.swapFee,
    halike.remaining, hterms.side, hterms.token] at htaken
  obtain rfl := Except.ok.inj (hstep.symm.trans htaken)
  obtain ⟨remaining, exchanged, hremaining, -, hexchanged, rfl⟩ := settle_eq_ok.mp hmoved
  obtain ⟨remaining', exchanged', hremaining', -, hexchanged', rfl⟩ := settle_eq_ok.mp hshifted
  rw [halike.remaining] at hremaining'
  rw [halike.exchanged] at hexchanged'
  exact {
    remaining := Signed.ext (hremaining'.trans hremaining.symm)
    exchanged := Signed.ext (hexchanged'.trans hexchanged.symm)
    sqrtPrice := rfl
    currentTick := halike.currentTick
    nextTick := halike.nextTick
    baseLiquidity := halike.baseLiquidity
    reinvestedLiquidity := congrArg (· + lowHalf step.added) halike.reinvestedLiquidity
    ticksCrossed := halike.ticksCrossed }

theorem alike_landed (halike : Alike s t) (hterms : SameTerms trade other)
    (hmoved : Alike moved shifted) :
    Alike (landed trade.direction s moved) (landed other.direction t shifted) := by
  have htick : (landed other.direction t shifted).currentTick =
      (landed trade.direction s moved).currentTick := by
    show landingTick _ _ = landingTick _ _
    rw [halike.edgeTick_eq hterms, hterms.direction]
  exact { hmoved with currentTick := htick }

theorem alike_of_leaveRange (halike : Alike s t) (hterms : SameTerms trade other)
    (hnets : SameNets records others)
    (hs : leaveRange trade index s records = .ok (left, flipped))
    (ht : leaveRange other index t others = .ok (crossed, changed)) :
    Alike left crossed ∧ SameNets flipped changed := by
  obtain ⟨record, hnext, hrecord, hliquidity, rfl, hframe⟩ := leaveRange_eq_ok hs
  obtain ⟨found, hnext', hfound, hliquidity', rfl, hframe'⟩ := leaveRange_eq_ok ht
  have hnet : found.liquidityNet = record.liquidityNet := by
    have hsame := hnets s.nextTick
    rw [← halike.nextTick, hfound, halike.nextTick, hrecord] at hsame
    exact Option.some.inj hsame
  rw [halike.nextTick, hterms.direction, hnext] at hnext'
  rw [halike.baseLiquidity, hnet, hterms.direction, hliquidity] at hliquidity'
  constructor
  · rw [hframe, hframe']
    exact { halike with
      nextTick := (Except.ok.inj hnext').symm
      baseLiquidity := (Except.ok.inj hliquidity').symm
      ticksCrossed := congrArg (· + 1) halike.ticksCrossed }
  · intro tick
    rw [TickMap.get?_insert, TickMap.get?_insert, halike.nextTick]
    split
    · exact congrArg some hnet
    · exact hnets tick

/-- Where both runs move, they move alike. -/
theorem alike_of_moves (halike : AlikePoints p p') (hterms : SameTerms trade other)
    (h : Moves trade index p q) (h' : Moves other index p' q') : AlikePoints q q' := by
  obtain ⟨hstate, hnets⟩ := halike
  cases h with
  | glide _ h =>
    obtain ⟨moved, hsteps, -, hnext, rfl⟩ := advance_glided_iff.mp h
    cases h' with
    | glide _ h' =>
      obtain ⟨shifted, hsteps', -, -, rfl⟩ := advance_glided_iff.mp h'
      exact ⟨alike_landed hstate hterms (alike_of_steps hstate hterms hsteps hsteps'), hnets⟩
    | cross _ h' =>
      obtain ⟨-, -, -, hnext', -⟩ := advance_crossed_iff.mp h'
      rw [hstate.edgeTick_eq hterms, hstate.nextTick] at hnext'
      exact absurd hnext' hnext
  | cross _ h =>
    obtain ⟨moved, hsteps, -, hnext, hleave⟩ := advance_crossed_iff.mp h
    cases h' with
    | glide _ h' =>
      obtain ⟨-, -, -, hnext', -⟩ := advance_glided_iff.mp h'
      rw [hstate.edgeTick_eq hterms, hstate.nextTick] at hnext'
      exact absurd hnext hnext'
    | cross _ h' =>
      obtain ⟨shifted, hsteps', -, -, hleave'⟩ := advance_crossed_iff.mp h'
      have hlanded := alike_landed hstate hterms (alike_of_steps hstate hterms hsteps hsteps')
      exact alike_of_leaveRange hlanded hterms hnets hleave hleave'

/-- One run does not end where the other one moves. -/
theorem not_ends_of_moves (halike : AlikePoints p p') (hterms : SameTerms trade other)
    (h : Moves trade index p q) : ¬ Ends other index p' twin := by
  obtain ⟨moved, hsteps, hedge, -⟩ := steps_of_moves h
  intro hends
  cases hends with
  | finished hover => exact h.isOpen ((halike.1.over_iff hterms).mp hover)
  | stop _ hstop =>
    obtain ⟨shifted, hsteps', hoff, -⟩ := advance_stopped_iff.mp hstop
    rw [halike.1.edgePrice_eq hterms, (alike_of_steps halike.1 hterms hsteps hsteps').sqrtPrice]
      at hoff
    exact hoff hedge

theorem alike_of_locate (halike : Alike s t) (hs : s.locate before = .ok last)
    (ht : t.locate before = .ok rest) : Alike last rest := by
  obtain ⟨hframe, htick⟩ := locate_eq_ok hs
  obtain ⟨hframe', htick'⟩ := locate_eq_ok ht
  rw [halike.sqrtPrice] at htick'
  have hsame : rest.currentTick = last.currentTick := by
    rcases htick with ⟨hstay, htick⟩ | ⟨hmoved, htick⟩
    · rw [(htick'.resolve_right fun h => h.1 hstay).2, htick, halike.currentTick]
    · have hfound := (htick'.resolve_left fun h => hmoved h.1).2
      exact Except.ok.inj (hfound.symm.trans htick)
  rw [hframe, hframe', hsame]
  exact { halike with currentTick := rfl }

/-- Where both runs end, they end alike. -/
theorem alike_of_ends (halike : AlikePoints p p') (hterms : SameTerms trade other)
    (h : Ends trade index p final) (h' : Ends other index p' twin) :
    Alike final twin ∧ twin.phase = final.phase := by
  have hfinal : Alike final twin := by
    cases h with
    | finished hover =>
      cases h' with
      | finished => exact { halike.1 with }
      | stop hopen => exact absurd ((halike.1.over_iff hterms).mpr hover) hopen
    | stop hopen h =>
      obtain ⟨moved, hsteps, -, hlocate⟩ := advance_stopped_iff.mp h
      cases h' with
      | finished hover => exact absurd ((halike.1.over_iff hterms).mp hover) hopen
      | stop _ h' =>
        obtain ⟨shifted, hsteps', -, hlocate'⟩ := advance_stopped_iff.mp h'
        rw [halike.1.sqrtPrice] at hlocate'
        have hlast := alike_of_locate (alike_of_steps halike.1 hterms hsteps hsteps') hlocate
          hlocate'
        exact { hlast with }
  refine ⟨hfinal, ?_⟩
  rw [phase_of_ends h, phase_of_ends h', hfinal.remaining]

end Steps

section Runs

/-- Two runs that set out alike pass the same points and end alike. -/
theorem alike_of_paths (halike : AlikePoints p p') (hterms : SameTerms trade other)
    (hreaches : Reaches trade index p c) (hends : Ends trade index c final)
    (hreaches' : Reaches other index p' c') (hends' : Ends other index c' twin) :
    AlikePoints c c' ∧ Alike final twin ∧ twin.phase = final.phase := by
  induction hreaches using Relation.ReflTransGen.head_induction_on generalizing p' with
  | refl =>
    rcases hreaches'.cases_head with rfl | ⟨q', hmoves', -⟩
    · exact ⟨halike, alike_of_ends halike hterms hends hends'⟩
    · exact absurd hends (not_ends_of_moves halike.symm hterms.symm hmoves')
  | head hmoves _ ih =>
    rcases hreaches'.cases_head with rfl | ⟨q', hmoves', hrest'⟩
    · exact absurd hends' (not_ends_of_moves halike hterms hmoves)
    · exact ih (alike_of_moves halike hterms hmoves hmoves') hrest'

theorem alike_of_simulate (halike : Alike s t) (hnets : SameNets records others)
    (hterms : SameTerms trade other) (hs : simulate trade index s records = .ok outcome)
    (ht : simulate other index t others = .ok outcome') :
    (Alike outcome.checkpoint outcome'.checkpoint ∧ SameNets outcome.records outcome'.records) ∧
      Alike outcome.final outcome'.final ∧ outcome'.final.phase = outcome.final.phase := by
  obtain ⟨hreaches, hends⟩ := path_of_simulate hs
  obtain ⟨hreaches', hends'⟩ := path_of_simulate ht
  have hstart : AlikePoints (underWay s, records) (underWay t, others) := ⟨{ halike with }, hnets⟩
  obtain ⟨⟨hcheckpoint, hrecords⟩, hfinal⟩ :=
    alike_of_paths hstart hterms hreaches hends hreaches' hends'
  exact ⟨⟨{ hcheckpoint with }, hrecords⟩, hfinal⟩

end Runs

end ReinvestingPool.Proofs.AlikeRuns
