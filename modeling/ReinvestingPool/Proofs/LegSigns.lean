import Mathlib.Algebra.Order.BigOperators.Group.List
import ReinvestingPool.Proofs.CoherentPools
import ReinvestingPool.Proofs.FilledAmounts
import ReinvestingPool.Proofs.QuoteRefusals
import ReinvestingPool.Proofs.SwellingSales

/-!
The signs of the two legs of a swap. The leg that is named has the sign of the quantity. The other
one is what the steps of the run come to, and it has the opposite sign unless some of them lose; a
quote is refused for its sign exactly where one of the amounts that it fills is worth less than
nothing, or more than an amount can be.
-/

namespace ReinvestingPool.Proofs.LegSigns

open Failures Words Directions SignedAmounts TickMaps TickIndexes Pools Positions PriceLimits Runs
open Simulations Swaps Quotes RestPrices StepEnds Paths StepFrames RunEnds TickLadder Cursors Stops
open Histories SwapRuns ActiveLiquidity LargerAmounts QuotedAmounts Batches StepExchanges LastSteps
open AscendingQuotes QuoteRefusals FilledAmounts CoherentPools SteppedStates SwellingSales

/-- Nothing, or of the same sign as a quantity. -/
def Along (quantity leg : Amount) : Prop :=
  leg = 0 ∨ leg.toInt.sign = quantity.toInt.sign

/-- Nothing, or of the opposite sign to that of a quantity. -/
def Against (quantity leg : Amount) : Prop :=
  leg = 0 ∨ leg.toInt.sign = -quantity.toInt.sign

instance (quantity leg : Amount) : Decidable (Against quantity leg) := by
  unfold Against
  infer_instance

/-- The states in which a swap takes its steps. -/
def stepsOf (pool : Pool) (order : Order) : List RunState :=
  match RunState.enter pool (heading order) order.quantity with
  | .ok entry => stepsFrom (tradeOf pool order) pool.index entry pool.records
  | .error _ => []

/-- The states in which a quantity of a quote takes its steps. -/
def stepsFor (trade : Trade) (index : TickIndex) (a : Filled) : List RunState :=
  stepsFrom trade index a.entry a.records

variable {pool : Pool} {order : Order} {fill : Fill} {trade : Trade} {index : TickIndex}
variable {s moved : RunState} {records : TickMap TickRecord}
variable {quantity other : Amount} {pending : List Amount} {a : Filled}
variable {amounts : List Word} {token : Token} {side : Side}

section Swaps

theorem stepsOf_eq {entry : RunState} {outcome : Outcome} {nearest : Int}
    (h : SwapRun pool order entry outcome nearest) :
    stepsOf pool order = stepsFrom (tradeOf pool order) pool.index entry pool.records := by
  unfold stepsOf
  rw [h.enter]

theorem against_iff (hquantity : quantity ≠ 0) :
    Against quantity other ↔ 0 ≤ leg (sideOf quantity) other.toInt := by
  have hnonzero : quantity.toInt ≠ 0 := fun hzero => hquantity (Signed.ext hzero)
  have hnothing : other = 0 ↔ other.toInt = 0 :=
    ⟨congrArg Signed.toInt, fun hzero => Signed.ext hzero⟩
  unfold Against
  rw [hnothing]
  unfold sideOf
  split
  · rename_i hpos
    rw [Int.sign_eq_one_of_pos hpos, Int.sign_eq_neg_one_iff_neg]
    simp only [leg]
    omega
  · rename_i hneg
    have hless : quantity.toInt < 0 := by omega
    rw [Int.sign_eq_neg_one_of_neg hless, Int.neg_neg, Int.sign_eq_one_iff_pos]
    simp only [leg]
    omega

theorem along_of_swap (h : swap pool order = .ok fill) :
    Along order.quantity (namedLeg order.token fill) := by
  rcases filled_of_swap h with ⟨-, hwhole⟩ | ⟨-, -, hnothing | ⟨hsign, -⟩⟩
  · exact Or.inr (by rw [hwhole])
  · exact Or.inl hnothing
  · exact Or.inr hsign

/-- The leg that is not named is what the steps of the swap come to. -/
theorem otherLeg_of_swap (h : swap pool order = .ok fill) :
    leg (sideOf order.quantity) (otherLeg order.token fill).toInt =
      ((stepsOf pool order).map (stepLeg (tradeOf pool order))).sum := by
  obtain ⟨entry, outcome, nearest, used, hrun, -, rfl⟩ := exists_fillOf h
  have hsum := gained_eq_sum (p := (entry, pool.records)) hrun.reaches hrun.ends
  have hnothing := congrArg RunState.exchanged (enter_eq_ok.mp hrun.enter).2
  change entry.exchanged = 0 at hnothing
  unfold gained at hsum
  rw [show (entry, pool.records).1.exchanged = 0 from hnothing, Signed.toInt_zero,
    Int.sub_zero] at hsum
  rw [otherLeg_fillOf, stepsOf_eq hrun]
  exact hsum

/-- Steps of which none loses come to something. -/
theorem sum_nonneg {part : List RunState}
    (h : ∀ t ∈ stepsFrom trade index s records, ¬ Loses trade t)
    (hpart : part ⊆ stepsFrom trade index s records) : 0 ≤ (part.map (stepLeg trade)).sum := by
  apply List.sum_nonneg
  intro value hvalue
  obtain ⟨t, ht, rfl⟩ := List.mem_map.mp hvalue
  obtain ⟨found, -, hopen, moved, hsteps⟩ := steps_of_mem (hpart ht)
  have hloses := loses_iff (fun hzero => hopen (Or.inl hzero)) hsteps
  by_contra hless
  exact h t (hpart ht) (hloses.mpr (Int.not_le.mp hless))

theorem losing_of_swap (h : swap pool order = .ok fill)
    (hnot : ¬ Against order.quantity (otherLeg order.token fill)) :
    ∃ s ∈ stepsOf pool order, Loses (tradeOf pool order) s := by
  obtain ⟨entry, outcome, nearest, used, hrun, -⟩ := exists_fillOf h
  rw [against_iff hrun.quantity, otherLeg_of_swap h, stepsOf_eq hrun] at hnot
  rw [stepsOf_eq hrun]
  by_contra hnone
  apply hnot
  exact sum_nonneg (fun t ht hloses => hnone ⟨t, ht, hloses⟩) (List.Subset.refl _)

/-- A step that is taken in its place, short of the limit, does not aim backwards. -/
theorem not_retreats (h : Placed index trade.direction s) (hsteps : Steps trade s moved)
    (hlimit : Before trade.direction s.sqrtPrice.toNat trade.limit.toNat) :
    ¬ Retreats trade s := by
  have hedge := edge_not_behind h.within (between_edgeTick h.ahead) hsteps.1
  rw [← toNat_ratio hsteps.1.1 hsteps.1.2] at hedge
  unfold Retreats
  by_cases haim : aim trade s = edgePrice trade.direction s
  · rw [haim]
    exact hedge
  · rw [(aim_eq_limit haim).1]
    exact not_before_of_before hlimit

theorem not_retreats_of_swap (hpool : Coherent pool) (h : swap pool order = .ok fill) :
    ∀ s ∈ stepsOf pool order, ¬ Retreats (tradeOf pool order) s := by
  obtain ⟨entry, outcome, nearest, used, hrun, -⟩ := exists_fillOf h
  have hplaced : Placed pool.index (tradeOf pool order).direction entry :=
    placed_of_enter hpool.greatest (bracketed_iff.mp hpool.bracketed) hrun.valid hrun.enter
  obtain ⟨hchained, -⟩ := validate_eq_ok hrun.valid
  intro s hs
  rw [stepsOf_eq hrun] at hs
  obtain ⟨found, hreaches, hopen, moved, hsteps⟩ := steps_of_mem hs
  exact not_retreats (placed_of_reaches (p := (entry, pool.records)) hchained hplaced hreaches)
    hsteps (before_limit hreaches hrun.entry_before_limit hopen)

end Swaps

section Worths

/-- Where no step of a run loses, it has exchanged something at its checkpoint and at its end. -/
theorem gained_nonneg_of_fills (ha : Fills trade index a)
    (hkept : ∀ s ∈ stepsFor trade index a, ¬ Loses trade s) :
    0 ≤ gained trade a.entry a.outcome.checkpoint ∧ 0 ≤ gained trade a.entry a.outcome.final := by
  obtain ⟨hreaches, hends⟩ := ha.path
  obtain ⟨path, hpath, hgained⟩ := exists_path hreaches
  have hwhole := gained_eq_sum hreaches hends
  change gained trade a.entry _ = _ at hgained hwhole
  change stepsFrom trade index a.entry a.records = _ at hpath
  rw [hgained, hwhole]
  refine ⟨sum_nonneg hkept ?_, sum_nonneg hkept (List.Subset.refl _)⟩
  show path ⊆ stepsFrom trade index a.entry a.records
  rw [hpath]
  exact List.subset_append_left _ _

theorem worths_of_fills (ha : Fills trade index a)
    (hentry : 0 ≤ leg trade.side a.entry.exchanged.toInt)
    (hkept : ∀ s ∈ stepsFor trade index a, ¬ Loses trade s) :
    0 ≤ leg trade.side a.outcome.checkpoint.exchanged.toInt ∧ 0 ≤ a.worth trade := by
  obtain ⟨hcheckpoint, hfinal⟩ := gained_nonneg_of_fills ha hkept
  have hlater := leg_of_gained trade a.entry a.outcome.checkpoint
  have hworth := worth_eq trade a a.entry
  omega

/-- Quantities that follow one another are worth something, as long as none of their steps loses. -/
theorem worth_nonneg_of_chain {later : List Filled}
    (hchain : (a :: later).IsChain (Follows trade index)) (ha : Fills trade index a)
    (hentry : 0 ≤ leg trade.side a.entry.exchanged.toInt)
    (hkept : ∀ b ∈ a :: later, ∀ s ∈ stepsFor trade index b, ¬ Loses trade s) :
    ∀ b ∈ a :: later, 0 ≤ b.worth trade := by
  induction later generalizing a with
  | nil =>
    intro b hb
    obtain rfl := List.mem_singleton.mp hb
    exact (worths_of_fills ha hentry (hkept b (.head _))).2
  | cons next later ih =>
    obtain ⟨hfollows, hrest⟩ := List.isChain_cons_cons.mp hchain
    obtain ⟨hcheckpoint, hworth⟩ := worths_of_fills ha hentry (hkept a (.head _))
    have hnext : 0 ≤ leg trade.side next.entry.exchanged.toInt := by
      rw [hfollows.entry]
      exact hcheckpoint
    intro b hb
    rcases List.mem_cons.mp hb with rfl | hb
    · exact hworth
    · exact ih hrest hfollows.after hnext (fun c hc => hkept c (.tail _ hc)) b hb

/-- Where something that a quote fills is worth less than nothing, a step of it or of one before
has lost. -/
theorem losing_of_fills (ha : a ∈ fills pool amounts token side)
    (hless : a.worth (batchTrade pool token side) < 0) :
    ∃ b ∈ fills pool amounts token side,
      ∃ s ∈ stepsFor (batchTrade pool token side) pool.index b,
        Loses (batchTrade pool token side) s := by
  cases hpending : quantities side amounts with
  | error cause =>
    unfold fills at ha
    rw [hpending] at ha
    cases ha
  | ok pending =>
    obtain ⟨hside, -⟩ := ordered_of_quantities hpending
    have hchain : (fills pool amounts token side).IsChain
        (Follows (batchTrade pool token side) pool.index) := isChain_fills hpending
    rw [fills_eq hpending] at ha hchain ⊢
    by_contra hnone
    apply Int.not_lt.mpr _ hless
    cases hfilled : fillsFrom pool (batchTrade pool token side) none pool.records pending with
    | nil =>
      rw [hfilled] at ha
      cases ha
    | cons first later =>
      obtain ⟨hfirst, hentry⟩ := fills_of_head hside hfilled
      rw [hfilled] at ha hchain hnone
      refine worth_nonneg_of_chain hchain hfirst ?_ ?_ a ha
      · rw [hentry]
        exact Int.le_of_eq (leg_zero _).symm
      · intro b hb s hs hloses
        exact hnone ⟨b, hb, s, hs, hloses⟩

end Worths

/-- The leg that a swap names has the sign of its quantity. The other one has the opposite sign
exactly where the steps come to something, which fails only if one of them loses; on a coherent
pool none of them goes backwards. A quote is refused for a sign exactly where it fills something
that is worth less than nothing, or more than an amount, and again only steps that lose lead to
less than nothing. -/
theorem signs_of_legs (pool : Pool) :
    (∀ (order : Order) (fill : Fill), swap pool order = .ok fill →
      Along order.quantity (namedLeg order.token fill) ∧
      (Against order.quantity (otherLeg order.token fill) ↔
        0 ≤ ((stepsOf pool order).map (stepLeg (tradeOf pool order))).sum) ∧
      (¬ Against order.quantity (otherLeg order.token fill) →
        ∃ s ∈ stepsOf pool order, Loses (tradeOf pool order) s) ∧
      (Coherent pool → ∀ s ∈ stepsOf pool order, ¬ Retreats (tradeOf pool order) s)) ∧
    ∀ (amounts : List Word) (token : Token) (side : Side),
      (quote pool amounts token side = .error (.trade .unexpectedSign) ↔
        pool.validate = .ok () ∧
          LimitAhead (travel side token) pool.sqrtPrice (furthestLimit (travel side token)) ∧
          ∃ a ∈ fills pool amounts token side, ¬ Answerable (batchTrade pool token side) a) ∧
      ∀ a ∈ fills pool amounts token side, a.worth (batchTrade pool token side) < 0 →
        ∃ b ∈ fills pool amounts token side,
          ∃ s ∈ stepsFor (batchTrade pool token side) pool.index b,
            Loses (batchTrade pool token side) s := by
  constructor
  · intro order fill h
    obtain ⟨entry, outcome, nearest, used, hrun, -⟩ := exists_fillOf h
    refine ⟨along_of_swap h, ?_, losing_of_swap h, fun hpool => not_retreats_of_swap hpool h⟩
    rw [against_iff hrun.quantity, otherLeg_of_swap h]
  · intro amounts token side
    refine ⟨quote_unexpected_iff, ?_⟩
    intro a ha hless
    exact losing_of_fills ha hless

/-- A sale into a range with much liquidity. The price is rounded back to where it was, and the fee
is taken in the other token, so that the pool receives both; a quote of the sale is refused. -/
theorem signs_of_legs_both_received :
    ∃ start pool order fill, Pool.create 1000 0x1000000000000000000000000 = .ok start ∧
      addPosition (-20000) 20000 (2 ^ 127 - 1) start = (pool, .ok ()) ∧
      order = Order.unlimited .zero ⟨2147483648, by decide, by decide⟩ ∧
      swap pool order = .ok fill ∧
      Along order.quantity fill.amountZero ∧ 0 < fill.amountOne.toInt ∧
      (∃ s ∈ stepsOf pool order, SwellsIn (tradeOf pool order) s) ∧
      quote pool [2147483648] .zero .sell = .error (.trade .unexpectedSign) ∧
      ∃ b ∈ fills pool [2147483648] .zero .sell,
        ∃ s ∈ stepsFor (batchTrade pool .zero .sell) pool.index b,
          Loses (batchTrade pool .zero .sell) s := by
  have hrun : (do
      let start ← liftPool (Pool.create 1000 0x1000000000000000000000000)
      let pool ← Event.apply start (.deposit (-20000) 20000 (2 ^ 127 - 1))
      let fill ← swap pool (.unlimited .zero ⟨2147483648, by decide, by decide⟩)
      return decide (0 < fill.amountOne.toInt ∧
        LimitAhead .falling pool.sqrtPrice (furthestLimit .falling) ∧
        ∃ a ∈ fills pool [2147483648] .zero .sell, a.worth (batchTrade pool .zero .sell) < 0)) =
          Except.ok true := by
    decide +kernel
  obtain ⟨start, hstart, hrun⟩ := bind_eq_ok.mp hrun
  obtain ⟨pool, hpool, hrun⟩ := bind_eq_ok.mp hrun
  obtain ⟨fill, hfill, hrun⟩ := bind_eq_ok.mp hrun
  obtain ⟨hreceived, hahead, a, ha, hless⟩ := of_decide_eq_true (Except.ok.inj hrun)
  rw [liftPool_eq_ok] at hstart
  rw [apply_deposit_eq_ok] at hpool
  have hcoherent := coherent_of_deposit (coherent_of_create hstart) hpool
  obtain ⟨hswaps, hquotes⟩ := signs_of_legs pool
  obtain ⟨halong, -, hlosing, hforward⟩ := hswaps _ _ hfill
  obtain ⟨hrefused, hworth⟩ := hquotes [2147483648] .zero .sell
  have hboth : ¬ Against ⟨2147483648, by decide, by decide⟩ fill.amountOne := by
    rw [against_iff (by decide)]
    show ¬ 0 ≤ -fill.amountOne.toInt
    omega
  obtain ⟨s, hs, hloses⟩ := hlosing hboth
  have hswells := hloses.cause.resolve_left (hforward hcoherent s hs)
  exact ⟨start, pool, _, fill, hstart, hpool, rfl, hfill, halong, hreceived, ⟨s, hs, hswells⟩,
    hrefused.mpr ⟨hcoherent.valid, hahead, a, ha, fun hanswer => Int.not_lt.mpr hanswer.1 hless⟩,
    hworth a ha hless⟩

/-- The two legs of this sale have the same sign. -/
theorem swap_charges_both_tokens :
    ¬ ∀ (pool : Pool) (order : Order) (fill : Fill), Reachable pool →
      swap pool order = .ok fill →
      Along order.quantity (namedLeg order.token fill) ∧
        Against order.quantity (otherLeg order.token fill) := by
  intro hclaim
  have hrun : (do
      let start ← liftPool (Pool.create 1000 0x1000000000000000000000000)
      let pool ← Event.apply start (.deposit (-20000) 20000 (2 ^ 127 - 1))
      let fill ← swap pool (.unlimited .zero ⟨2147483648, by decide, by decide⟩)
      return decide (0 < fill.amountOne.toInt)) = Except.ok true := by
    decide +kernel
  obtain ⟨start, hstart, hrun⟩ := bind_eq_ok.mp hrun
  obtain ⟨pool, hpool, hrun⟩ := bind_eq_ok.mp hrun
  obtain ⟨fill, hfill, hrun⟩ := bind_eq_ok.mp hrun
  have hreceived := of_decide_eq_true (Except.ok.inj hrun)
  have hreplay : replay start [.deposit (-20000) 20000 (2 ^ 127 - 1)] = .ok pool :=
    replay_cons_eq_ok.mpr ⟨pool, hpool, rfl⟩
  have hreachable : Reachable pool := ⟨_, _, start, _, liftPool_eq_ok.mp hstart, hreplay⟩
  obtain ⟨-, hagainst⟩ := hclaim pool _ fill hreachable hfill
  rw [against_iff (by decide)] at hagainst
  change 0 ≤ -fill.amountOne.toInt at hagainst
  omega

end ReinvestingPool.Proofs.LegSigns
