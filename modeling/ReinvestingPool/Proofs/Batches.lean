import ReinvestingPool.Proofs.QuotedAmounts
import ReinvestingPool.Proofs.RunTicks
import ReinvestingPool.Proofs.SwapRuns

/-!
Quoting in one pass against trading each amount alone. Each amount goes on from the checkpoint of
the one before, which lies on its own run as long as no smaller amount has made a detour.
-/

namespace ReinvestingPool.Proofs.Batches

open Failures Words Directions SignedAmounts TickMaps TickIndexes Pools PriceLimits Runs Simulations
open Swaps Quotes Paths StepFrames LargerAmounts Detours RunTicks Histories SwapRuns QuotedAmounts

/-- What a fill has in the token that its order does not name. -/
def otherLeg (token : Token) (fill : Fill) : Amount :=
  match token with
  | .zero => fill.amountOne
  | .one => fill.amountZero

/-- The run of an order on a pool makes a detour. -/
def OrderDetours (pool : Pool) (order : Order) : Prop :=
  ∃ entry, RunState.enter pool (heading order) order.quantity = .ok entry ∧
    RunDetours (tradeOf pool order) pool.index (entry, pool.records)

variable {pool : Pool} {order : Order} {trade : Trade} {index : TickIndex} {entry first : RunState}
variable {outcome : Outcome} {records : TickMap TickRecord} {resume : Resume}
variable {past quantities : List Amount} {quantity : Amount} {quotes : List Quote} {quoted : Quote}

/-- What a part leaves of an amount was used of it. -/
theorem exists_used {side : Side} {a b : Amount} (h : PartOf side a b) :
    ∃ used, b.subChecked a = .ok used := by
  have hlower := b.lower
  have hupper := b.upper
  have hinside : -((2 ^ (256 - 1) : Nat) : Int) ≤ b.toInt - a.toInt ∧
      b.toInt - a.toInt < (2 ^ (256 - 1) : Nat) := by
    revert h
    unfold PartOf
    cases side with
    | sell =>
      simp only
      omega
    | buy =>
      simp only
      omega
  exact ⟨⟨_, hinside.1, hinside.2⟩, Signed.subChecked_eq_ok.mpr rfl⟩

theorem part_of_enter (h : RunState.enter pool (heading order) order.quantity = .ok entry) :
    PartOf (sideOf order.quantity) entry.remaining order.quantity := by
  rw [(enter_eq_ok.mp h).2]
  exact part_sideOf order.quantity

/-- What a run leaves of its quantity is a part of it. -/
theorem part_of_run {c : Point} {final : RunState}
    (hentry : RunState.enter pool (heading order) order.quantity = .ok entry)
    (hreaches : Reaches (tradeOf pool order) index (entry, records) c)
    (hends : Ends (tradeOf pool order) index c final) :
    PartOf (sideOf order.quantity) final.remaining order.quantity := by
  have hentered := part_of_enter hentry
  have hleft : PartOf (sideOf order.quantity) c.1.remaining entry.remaining :=
    part_reaches hentered.self_left hreaches
  exact ((part_ends hleft.self_left hends).trans hleft).trans hentered

/-- After a run of the quantity it is known what was used and which entry is below the price. -/
theorem exists_report (hvalid : pool.validate = .ok ())
    (hentry : RunState.enter pool (heading order) order.quantity = .ok entry)
    (hrun : runFrom (tradeOf pool order) pool.index entry entry pool.records = .ok outcome) :
    (∃ used, order.quantity.subChecked outcome.final.remaining = .ok used) ∧
      ∃ nearest, outcome.final.nearestTick pool.index = .ok nearest := by
  obtain ⟨hchained, -⟩ := validate_eq_ok hvalid
  obtain ⟨hreaches, hends⟩ := runFrom_eq_ok.mp hrun
  have hnext := contains_of_reaches (p := (entry, pool.records)) hchained
    (contains_of_enter hvalid hentry) hreaches
  rw [← nextTick_of_ends hends] at hnext
  exact ⟨exists_used (part_of_run hentry hreaches hends), exists_nearestTick hnext⟩

theorem otherLeg_fillOf {nearest : Int} {used : Amount} :
    otherLeg order.token (fillOf pool order outcome nearest used) = outcome.final.exchanged := by
  unfold fillOf otherLeg
  cases order.token with
  | zero => rfl
  | one => rfl

/-- A run of the quantity through the pool makes a swap. -/
theorem fill_of_run (hquantity : order.quantity ≠ 0) (hvalid : pool.validate = .ok ())
    (hahead : LimitAhead (heading order) pool.sqrtPrice order.limit)
    (hentry : RunState.enter pool (heading order) order.quantity = .ok entry)
    (hrun : runFrom (tradeOf pool order) pool.index entry entry pool.records = .ok outcome) :
    ∃ nearest used, order.quantity.subChecked outcome.final.remaining = .ok used ∧
      swap pool order = .ok (fillOf pool order outcome nearest used) := by
  obtain ⟨⟨used, hused⟩, nearest, hnearest⟩ := exists_report hvalid hentry hrun
  refine ⟨nearest, used, hused, ?_⟩
  unfold swap
  rw [if_neg hquantity]
  refine bind_eq_ok.mpr ⟨(), liftPool_eq_ok.mpr hvalid, ?_⟩
  refine bind_eq_ok.mpr ⟨_, mapError_eq_ok.mpr (tradeOn_eq_ok.mpr ⟨hahead, rfl⟩), ?_⟩
  refine bind_eq_ok.mpr ⟨entry, liftPool_eq_ok.mpr hentry, ?_⟩
  rw [simulate_enter _ _ _ hentry]
  refine bind_eq_ok.mpr ⟨outcome, hrun, ?_⟩
  refine bind_eq_ok.mpr ⟨used, liftArithmetic_eq_ok.mpr hused, ?_⟩
  exact bind_eq_ok.mpr ⟨nearest, liftPool_eq_ok.mpr hnearest, rfl⟩

/-- A run of the quantity through the pool makes a swap, which reports what the run exchanged. -/
theorem swap_of_run (hquantity : order.quantity ≠ 0) (hvalid : pool.validate = .ok ())
    (hahead : LimitAhead (heading order) pool.sqrtPrice order.limit)
    (hentry : RunState.enter pool (heading order) order.quantity = .ok entry)
    (hrun : runFrom (tradeOf pool order) pool.index entry entry pool.records = .ok outcome) :
    ∃ fill, swap pool order = .ok fill ∧
      otherLeg order.token fill = outcome.final.exchanged ∧
      fill.ticksCrossed = outcome.final.ticksCrossed := by
  obtain ⟨nearest, used, -, hfill⟩ := fill_of_run hquantity hvalid hahead hentry hrun
  exact ⟨_, hfill, otherLeg_fillOf, rfl⟩

/-- All amounts quoted before are parts of this one, and the smaller ones made no detour. -/
def Undisturbed (trade : Trade) (index : TickIndex) (first : Point) (past : List Amount)
    (larger : Amount) : Prop :=
  ∀ a ∈ past, PartOf trade.side a larger ∧
    (a ≠ larger → ¬ RunDetours trade index (holding first.1 a, first.2))

/-- The checkpoint that is handed on lies on the run of every amount that is still undisturbed. -/
def Resumable (trade : Trade) (index : TickIndex) (first : Point) (past : List Amount)
    (resume : Resume) (records : TickMap TickRecord) : Prop :=
  match resume with
  | none => records = first.2
  | some (last, checkpoint) => ∀ larger, Undisturbed trade index first past larger →
      ∃ rest, rest.toInt = larger.toInt - (last.toInt - checkpoint.remaining.toInt) ∧
        Reaches trade index (holding first.1 larger, first.2) (holding checkpoint rest, records)

theorem reaches_entryState (hfirst : RunState.enter pool trade.direction 0 = .ok first)
    (hresumable : Resumable trade pool.index (first, pool.records) past resume records)
    (hquiet : Undisturbed trade pool.index (first, pool.records) past quantity)
    (h : entryState pool trade.direction quantity resume = .ok entry) :
    Reaches trade pool.index (holding first quantity, pool.records) (entry, records) := by
  cases resume with
  | none =>
    have hsame := (liftPool_eq_ok.mp h).symm.trans (enter_holding quantity hfirst)
    obtain rfl := Except.ok.inj hsame
    change records = pool.records at hresumable
    rw [hresumable]
  | some pair =>
    obtain ⟨last, checkpoint⟩ := pair
    obtain ⟨used, hused, h⟩ := bind_eq_ok.mp h
    obtain ⟨remaining, hremaining, h⟩ := bind_eq_ok.mp h
    cases h
    rw [liftArithmetic_eq_ok, Signed.subChecked_eq_ok] at hused hremaining
    obtain ⟨rest, hrest, hreaches⟩ := hresumable quantity hquiet
    obtain rfl : rest = remaining := Signed.ext (by omega)
    exact hreaches

/-- A run from a state on the way of the quantity's own run has the same outcome. -/
theorem runFrom_of_resumed (hfirst : first.phase = .advancing)
    (hreaches : Reaches trade index (holding first quantity, pool.records) (entry, records))
    (h : simulate trade index entry records = .ok outcome) :
    runFrom trade index (holding first quantity) (holding first quantity) pool.records =
      .ok outcome := by
  have hphase : { entry with phase := Phase.advancing } = entry := by
    have hkept := (phase_of_reaches hreaches).trans hfirst
    change entry.phase = Phase.advancing at hkept
    rw [← hkept]
  unfold simulate at h
  rw [hphase] at h
  exact (runFrom_of_reaches hreaches).trans h

theorem resumable_of_run
    (hrun : runFrom trade index (holding first quantity) (holding first quantity) records =
      .ok outcome) :
    Resumable trade index (first, records) (quantity :: past)
      (some (quantity, outcome.checkpoint)) outcome.records := by
  intro larger hquiet
  obtain ⟨hpart, hclean⟩ := hquiet quantity List.mem_cons_self
  obtain ⟨hreaches, -⟩ := runFrom_eq_ok.mp hrun
  by_cases hsame : quantity = larger
  · subst hsame
    exact ⟨outcome.checkpoint.remaining, by omega, hreaches⟩
  · obtain ⟨rest, hrest, hlarger⟩ := reaches_holding (p := (holding first quantity, records))
      hpart (fun q _ hq hmoves _ hdetour => hclean hsame ⟨q, hq, hmoves.isOpen, hdetour⟩) hreaches
    change rest.toInt = outcome.checkpoint.remaining.toInt + (larger.toInt - quantity.toInt)
      at hrest
    exact ⟨rest, by omega, hlarger⟩

/-- An amount quoted earlier that is not smaller than this one is this one, so whatever disturbs one
of the amounts in between disturbs this one. -/
theorem undisturbed_of_later {head : Amount}
    (hpast : ∀ a ∈ past, PartOf trade.side a head) (hpart : PartOf trade.side head quantity)
    (hclean : ∀ a ∈ past, a ≠ quantity →
      ¬ RunDetours trade index (holding first a, records)) :
    Undisturbed trade index (first, records) past head := by
  intro a ha
  refine ⟨hpast a ha, fun hsmaller => hclean a ha fun hsame => hsmaller ?_⟩
  subst hsame
  exact (hpast a ha).antisymm hpart

/-- Quoting passes over a zero, ends with a run that has no result, or goes on from the checkpoint
of the run of its first quantity. -/
theorem quoteFrom_cases {head : Amount} {rest : List Amount}
    (h : quoteFrom pool trade resume records (head :: rest) = .ok quotes) :
    (head = 0 ∧ ∃ later, quoteFrom pool trade resume records rest = .ok later ∧
      quotes = Quote.none :: later) ∨
    head ≠ 0 ∧ ∃ entry outcome, entryState pool trade.direction head resume = .ok entry ∧
      simulate trade pool.index entry records = .ok outcome ∧
      (outcome.final.Fruitless ∧ quotes = (head :: rest).map (fun _ => Quote.none) ∨
        ¬ outcome.final.Fruitless ∧
        (∃ used, head.subChecked outcome.final.remaining = .ok used) ∧ ∃ output later,
        outputOf trade.side outcome.final.exchanged = .ok output ∧
        quoteFrom pool trade (some (head, outcome.checkpoint)) outcome.records rest = .ok later ∧
        quotes = ⟨output, outcome.final.ticksCrossed⟩ :: later) := by
  unfold quoteFrom at h
  split at h
  · rename_i hzero
    obtain ⟨later, hlater, h⟩ := bind_eq_ok.mp h
    cases h
    exact Or.inl ⟨hzero, later, hlater, rfl⟩
  · rename_i hnot
    obtain ⟨entry, hentry, h⟩ := bind_eq_ok.mp h
    obtain ⟨outcome, hrun, h⟩ := bind_eq_ok.mp h
    refine Or.inr ⟨hnot, entry, outcome, hentry, hrun, ?_⟩
    split at h
    · rename_i hfruitless
      cases h
      exact Or.inl ⟨hfruitless, rfl⟩
    · rename_i hfruitful
      obtain ⟨used, hused, h⟩ := bind_eq_ok.mp h
      obtain ⟨output, houtput, h⟩ := bind_eq_ok.mp h
      obtain ⟨later, hlater, h⟩ := bind_eq_ok.mp h
      cases h
      exact Or.inr ⟨hfruitful, ⟨used, liftArithmetic_eq_ok.mp hused⟩, output, later,
        mapError_eq_ok.mp houtput, hlater, rfl⟩

/-- A quote of a quantity that no smaller one has disturbed is what the quantity's own run
exchanges. -/
theorem quoteFrom_get (hfirst : RunState.enter pool trade.direction 0 = .ok first)
    (hresumable : Resumable trade pool.index (first, pool.records) past resume records)
    (h : quoteFrom pool trade resume records quantities = .ok quotes) {i : Nat}
    (hquantity : quantities[i]? = some quantity) (hquoted : quotes[i]? = some quoted)
    (hnonzero : quantity ≠ 0) (houtput : quoted.output ≠ 0)
    (hside : PartOf trade.side quantity quantity) (hascending : Ascending trade.side quantities)
    (hpast : ∀ a ∈ past, ∀ b ∈ quantities, b ≠ 0 → PartOf trade.side a b)
    (hpastClean : ∀ a ∈ past, a ≠ quantity →
      ¬ RunDetours trade pool.index (holding first a, pool.records))
    (hclean : ∀ a ∈ quantities.take i, a ≠ 0 → a ≠ quantity →
      ¬ RunDetours trade pool.index (holding first a, pool.records)) :
    ∃ outcome, runFrom trade pool.index (holding first quantity) (holding first quantity)
        pool.records = .ok outcome ∧
      outputOf trade.side outcome.final.exchanged = .ok quoted.output ∧
      quoted.ticksCrossed = outcome.final.ticksCrossed := by
  induction quantities generalizing past resume records quotes i with
  | nil => cases hquantity
  | cons head rest ih =>
    obtain ⟨hhead, hrest⟩ := List.pairwise_cons.mp hascending
    rcases quoteFrom_cases h with
      ⟨hzero, later, hlater, rfl⟩ | ⟨hnot, entry, outcome, hentry, hrun, hcase⟩
    · cases i with
      | zero =>
        obtain rfl := Option.some.inj hquantity
        exact absurd hzero hnonzero
      | succ i =>
        refine ih hresumable hlater hquantity hquoted hrest ?_ hpastClean ?_
        · intro a ha b hb
          exact hpast a ha b (.tail _ hb)
        · intro a ha
          exact hclean a (.tail _ ha)
    · have hpart : PartOf trade.side head quantity := by
        rcases List.mem_cons.mp (List.mem_of_getElem? hquantity) with hsame | hlater
        · exact hsame ▸ hside
        · exact hhead quantity hlater hnot hnonzero
      have hquiet : Undisturbed trade pool.index (first, pool.records) past head :=
        undisturbed_of_later (fun a ha => hpast a ha head (.head _) hnot) hpart hpastClean
      have hphase := congrArg RunState.phase (enter_eq_ok.mp hfirst).2
      have hown := runFrom_of_resumed hphase
        (reaches_entryState hfirst hresumable hquiet hentry) hrun
      rcases hcase with ⟨-, rfl⟩ | ⟨-, -, output, later, houtputs, hlater, rfl⟩
      · exact absurd (output_of_none hquoted) houtput
      · cases i with
        | zero =>
          obtain rfl := Option.some.inj hquantity
          obtain rfl := Option.some.inj hquoted
          exact ⟨outcome, hown, houtputs, rfl⟩
        | succ i =>
          have hresumed : Resumable trade pool.index (first, pool.records) (head :: past)
              (some (head, outcome.checkpoint)) outcome.records := resumable_of_run hown
          refine ih hresumed hlater hquantity hquoted hrest ?_ ?_ ?_
          · intro a ha b hb
            rcases List.mem_cons.mp ha with rfl | ha
            · exact hhead b hb hnot
            · exact hpast a ha b (.tail _ hb)
          · intro a ha
            rcases List.mem_cons.mp ha with rfl | ha
            · exact hclean a (.head _) hnot
            · exact hpastClean a ha
          · intro a ha
            exact hclean a (.tail _ ha)

/-- A batch trades under the same terms as an order with the furthest limit. -/
theorem tradeOn_furthest {token : Token} {side : Side} (hside : sideOf quantity = side)
    (h : Trade.on pool token side none = .ok trade) :
    LimitAhead (heading (Order.unlimited token quantity)) pool.sqrtPrice
        (Order.unlimited token quantity).limit ∧
      trade = tradeOf pool (Order.unlimited token quantity) := by
  subst hside
  exact tradeOn_eq_ok.mp h

theorem orderDetours_of_run {token : Token} {smaller : Amount}
    (hside : sideOf smaller = sideOf quantity)
    (hfirst : RunState.enter pool (heading (Order.unlimited token quantity)) 0 = .ok first)
    (h : RunDetours (tradeOf pool (Order.unlimited token quantity)) pool.index
      (holding first smaller, pool.records)) :
    OrderDetours pool (Order.unlimited token smaller) := by
  have hheading : heading (Order.unlimited token smaller) =
      heading (Order.unlimited token quantity) := by
    change travel (sideOf smaller) token = travel (sideOf quantity) token
    rw [hside]
  have htrade : tradeOf pool (Order.unlimited token smaller) =
      tradeOf pool (Order.unlimited token quantity) := by
    unfold tradeOf Order.unlimited
    simp only [hside]
  refine ⟨holding first smaller, ?_, ?_⟩
  · rw [hheading]
    exact enter_holding smaller hfirst
  · rw [htrade]
    exact h

theorem runDetours_of_order
    (hentry : RunState.enter pool (heading order) order.quantity = .ok entry)
    (h : OrderDetours pool order) :
    RunDetours (tradeOf pool order) pool.index (entry, pool.records) := by
  obtain ⟨other, hother, hdetours⟩ := h
  obtain rfl := Except.ok.inj (hentry.symm.trans hother)
  exact hdetours

/-- The run of a larger quantity passes through the state at which a batch goes on from an order. -/
def CheckpointOn (pool : Pool) (order : Order) (larger : Amount) : Prop :=
  ∃ entry outcome left, RunState.enter pool (heading order) order.quantity = .ok entry ∧
    runFrom (tradeOf pool order) pool.index entry entry pool.records = .ok outcome ∧
    left.toInt = outcome.checkpoint.remaining.toInt + (larger.toInt - order.quantity.toInt) ∧
    Reaches (tradeOf pool order) pool.index (holding entry larger, pool.records)
      (holding outcome.checkpoint left, outcome.records)

theorem checkpointOn_iff {larger : Amount}
    (hentry : RunState.enter pool (heading order) order.quantity = .ok entry)
    (hrun : runFrom (tradeOf pool order) pool.index entry entry pool.records = .ok outcome)
    (hpart : PartOf (sideOf order.quantity) order.quantity larger)
    (hlarger : larger ≠ order.quantity) :
    CheckpointOn pool order larger ↔ ¬ OrderDetours pool order := by
  have hremaining := congrArg RunState.remaining (enter_eq_ok.mp hentry).2
  change entry.remaining = order.quantity at hremaining
  obtain ⟨hreaches, hends⟩ := runFrom_eq_ok.mp hrun
  have hentered : PartOf (tradeOf pool order).side entry.remaining larger := by
    rw [hremaining]
    exact hpart
  rw [← hremaining] at hlarger
  have hresumes := resumes_iff (p := (entry, pool.records)) hreaches hends hentered hlarger
  have hdetours : OrderDetours pool order ↔
      RunDetours (tradeOf pool order) pool.index (entry, pool.records) :=
    ⟨runDetours_of_order hentry, fun h => ⟨entry, hentry, h⟩⟩
  rw [hdetours, ← hresumes]
  constructor
  · intro h
    rcases h with ⟨other, found, left, hother, hfound, hleft, hon⟩
    obtain rfl := Except.ok.inj (hentry.symm.trans hother)
    obtain rfl := Except.ok.inj (hrun.symm.trans hfound)
    exact ⟨left, hremaining ▸ hleft, hon⟩
  · intro h
    rcases h with ⟨left, hleft, hon⟩
    exact ⟨entry, outcome, left, hentry, hrun, hremaining ▸ hleft, hon⟩

section Quoting

variable {token : Token} {side : Side} {amounts : List Word} {amount largest : Word} {i : Nat}

/-- Quantities make no detour where the amounts that they stand for make none as orders. -/
theorem runs_without_detours
    (hnamed : List.Forall₂ (StandsFor (sideOf quantity) largest) amounts quantities)
    (hsigned : signed (sideOf quantity) amount = .ok quantity)
    (hfirst : RunState.enter pool (heading (Order.unlimited token quantity)) 0 = .ok first)
    (hclean : ∀ j other smaller, j < i → amounts[j]? = some other → other ≠ 0 → other ≠ amount →
      signed (sideOf quantity) other = .ok smaller →
      ¬ OrderDetours pool (Order.unlimited token smaller)) :
    ∀ a ∈ quantities.take i, a ≠ 0 → a ≠ quantity →
      ¬ RunDetours (tradeOf pool (Order.unlimited token quantity)) pool.index
        (holding first a, pool.records) := by
  intro a ha hnonzero hdiffers hdetours
  obtain ⟨j, hj⟩ := List.mem_iff_getElem?.mp ha
  rw [List.getElem?_take] at hj
  obtain ⟨hless, hj⟩ := Option.ite_none_right_eq_some.mp hj
  obtain ⟨other, hother, hstands⟩ := forall₂_getElem? hnamed.flip hj
  rcases hstands with ⟨-, hzero⟩ | ⟨hotherNonzero, -, hotherSigned⟩
  · exact hnonzero hzero
  · have hotherSide := (sideOf_signed hotherSigned hotherNonzero).2
    refine hclean j other a hless hother hotherNonzero ?_ hotherSigned
      (orderDetours_of_run hotherSide hfirst hdetours)
    rintro rfl
    rw [hsigned] at hotherSigned
    exact hdiffers (Except.ok.inj hotherSigned).symm

/-- A quote is what a swap of its amount alone exchanges, and counts the ticks that the swap
crosses, unless a smaller amount before it has made a detour. The amount makes one itself exactly
where its checkpoint is not on the run of a larger one that goes on from there. -/
theorem quote_eq_swap (h : quote pool amounts token side = .ok quotes)
    (hamount : amounts[i]? = some amount) (hquoted : quotes[i]? = some quoted)
    (hnonzero : amount ≠ 0) (houtput : quoted.output ≠ 0)
    (hclean : ∀ j other smaller, j < i → amounts[j]? = some other → other ≠ 0 → other ≠ amount →
      signed side other = .ok smaller → ¬ OrderDetours pool (Order.unlimited token smaller)) :
    ∃ quantity fill, signed side amount = .ok quantity ∧
      swap pool (Order.unlimited token quantity) = .ok fill ∧
      (otherLeg token fill).toInt = -received side quoted.output.toNat ∧
      fill.ticksCrossed = quoted.ticksCrossed ∧
      ∀ larger, PartOf side quantity larger → larger ≠ quantity →
        (CheckpointOn pool (Order.unlimited token quantity) larger ↔
          ¬ OrderDetours pool (Order.unlimited token quantity)) := by
  obtain ⟨⟨⟩, hvalid, h⟩ := bind_eq_ok.mp h
  obtain ⟨quantities, hquantities, h⟩ := bind_eq_ok.mp h
  rw [liftPool_eq_ok] at hvalid
  obtain ⟨hnamed, hascending⟩ := quantitiesFrom_eq_ok (mapError_eq_ok.mp hquantities)
  obtain ⟨quantity, hquantity, hsigned⟩ := exists_quantity hnamed hamount hnonzero
  obtain ⟨hquantityNonzero, hside⟩ := sideOf_signed hsigned hnonzero
  subst hside
  split at h
  · cases h
    exact absurd (output_of_none hquoted) houtput
  · obtain ⟨trade, htrade, h⟩ := bind_eq_ok.mp h
    obtain ⟨hahead, rfl⟩ := tradeOn_furthest rfl (mapError_eq_ok.mp htrade)
    obtain ⟨first, hfirst⟩ : ∃ first,
        RunState.enter pool (heading (Order.unlimited token quantity)) 0 = .ok first :=
      exists_enter 0 hvalid
    have hquiet := runs_without_detours hnamed hsigned hfirst hclean
    have hresumable : Resumable (tradeOf pool (Order.unlimited token quantity)) pool.index
        (first, pool.records) [] none pool.records := rfl
    obtain ⟨outcome, hrun, houtputs, hcrossed⟩ := quoteFrom_get hfirst hresumable h hquantity
      hquoted hquantityNonzero houtput (part_sideOf quantity) hascending
      (fun a ha => absurd ha List.not_mem_nil) (fun a ha => absurd ha List.not_mem_nil) hquiet
    have hentry : RunState.enter pool (heading (Order.unlimited token quantity))
        (Order.unlimited token quantity).quantity = .ok (holding first quantity) :=
      enter_holding quantity hfirst
    obtain ⟨fill, hfill, hleg, hticks⟩ := swap_of_run hquantityNonzero hvalid hahead hentry hrun
    refine ⟨quantity, fill, hsigned, hfill, ?_, hticks.trans hcrossed.symm, ?_⟩
    · have hvalue := toInt_of_outputOf houtputs
      change otherLeg token fill = outcome.final.exchanged at hleg
      rw [hleg]
      exact hvalue
    · intro larger hpart hlarger
      exact checkpointOn_iff hentry hrun hpart hlarger

end Quoting

theorem remaining_of_orderDetours
    (hentry : RunState.enter pool (heading order) order.quantity = .ok entry)
    (hrun : runFrom (tradeOf pool order) pool.index entry entry pool.records = .ok outcome)
    (h : OrderDetours pool order) : outcome.checkpoint.remaining = 0 := by
  obtain ⟨hreaches, hends⟩ := runFrom_eq_ok.mp hrun
  exact remaining_of_detours hreaches hends (runDetours_of_order hentry h)

/-- The first of two sales leaves a position, and the second one goes on from there and leaves
another one. -/
theorem quote_eq_swap_two_sales :
    ∃ start pool quotes quoted first quantity entry outcome fill,
      Pool.create 1000 0x1000000000000000000000000 = .ok start ∧
      replay start [.deposit (-60) 60 1000000000000000000,
        .deposit (-600) 600 1000000000000000000,
        .deposit (-6000) 6000 1000000000000000000] = .ok pool ∧
      quote pool [10000000000000000, 100000000000000000] .zero .sell = .ok quotes ∧
      quotes[1]? = some quoted ∧ quoted.output ≠ 0 ∧
      signed .sell 10000000000000000 = .ok first ∧ signed .sell 100000000000000000 = .ok quantity ∧
      RunState.enter pool .falling first = .ok entry ∧
      runFrom (tradeOf pool (Order.unlimited .zero first)) pool.index entry entry pool.records =
        .ok outcome ∧
      outcome.checkpoint.ticksCrossed = 1 ∧ quoted.ticksCrossed = 2 ∧
      CheckpointOn pool (Order.unlimited .zero first) quantity ∧
      swap pool (Order.unlimited .zero quantity) = .ok fill ∧
      (otherLeg .zero fill).toInt = -received .sell quoted.output.toNat ∧
      fill.ticksCrossed = quoted.ticksCrossed := by
  have hrun : (do
      let start ← liftPool (Pool.create 1000 0x1000000000000000000000000)
      let pool ← replay start [.deposit (-60) 60 1000000000000000000,
        .deposit (-600) 600 1000000000000000000, .deposit (-6000) 6000 1000000000000000000]
      let quotes ← quote pool [10000000000000000, 100000000000000000] .zero .sell
      let entry ← liftPool (RunState.enter pool .falling ⟨10000000000000000, by decide, by decide⟩)
      let outcome ← runFrom
        (tradeOf pool (Order.unlimited .zero ⟨10000000000000000, by decide, by decide⟩))
        pool.index entry entry pool.records
      return decide (quotes = [⟨9866992075270602, 1⟩, ⟨94016618072665160, 2⟩] ∧
        outcome.checkpoint.ticksCrossed = 1 ∧ outcome.checkpoint.remaining ≠ 0)) =
          Except.ok true := by
    decide +kernel
  obtain ⟨start, hstart, hrun⟩ := bind_eq_ok.mp hrun
  obtain ⟨pool, hpool, hrun⟩ := bind_eq_ok.mp hrun
  obtain ⟨quotes, hquotes, hrun⟩ := bind_eq_ok.mp hrun
  obtain ⟨entry, hentry, hrun⟩ := bind_eq_ok.mp hrun
  obtain ⟨outcome, houtcome, hrun⟩ := bind_eq_ok.mp hrun
  obtain ⟨hanswers, hcrossed, hleft⟩ := of_decide_eq_true (Except.ok.inj hrun)
  subst hanswers
  have hquiet : ¬ OrderDetours pool
      (Order.unlimited .zero ⟨10000000000000000, by decide, by decide⟩) := fun hdetours =>
    hleft (remaining_of_orderDetours (liftPool_eq_ok.mp hentry) houtcome hdetours)
  obtain ⟨first, -, hfirst, -, -, -, hresumes⟩ :=
    quote_eq_swap hquotes (i := 0) rfl rfl (by decide) (by decide)
      fun j _ _ hj => absurd hj (Nat.not_lt_zero j)
  obtain rfl : first = ⟨10000000000000000, by decide, by decide⟩ :=
    Signed.ext (toInt_of_signed hfirst)
  have hclean : ∀ j other smaller, j < 1 →
      ([10000000000000000, 100000000000000000] : List Word)[j]? = some other → other ≠ 0 →
      other ≠ 100000000000000000 → signed .sell other = .ok smaller →
      ¬ OrderDetours pool (Order.unlimited .zero smaller) := by
    intro j other smaller hj hother _ _ hsmaller
    obtain rfl : j = 0 := by omega
    obtain rfl := Option.some.inj hother
    obtain rfl := Except.ok.inj (hsmaller.symm.trans hfirst)
    exact hquiet
  obtain ⟨quantity, fill, hsigned, hfill, hleg, hticks, -⟩ :=
    quote_eq_swap hquotes (i := 1) rfl rfl (by decide) (by decide) hclean
  obtain rfl : quantity = ⟨100000000000000000, by decide, by decide⟩ :=
    Signed.ext (toInt_of_signed hsigned)
  have hlarger := part_of_signed hfirst hsigned (by decide)
  have hcheckpoint := (hresumes _ hlarger (by decide)).mpr hquiet
  exact ⟨start, pool, _, _, _, _, entry, outcome, fill, liftPool_eq_ok.mp hstart, hpool, hquotes,
    rfl, by decide, hfirst, hsigned, liftPool_eq_ok.mp hentry, houtcome, hcrossed, rfl,
    hcheckpoint, hfill, hleg, hticks⟩

/-- The smaller of two sales is one unit short of the edge of its step and yet rests on it. The
larger one goes on from there without the liquidity that its own fee would have added. -/
theorem quote_differs_from_swap :
    ¬ ∀ (pool : Pool) (amounts : List Word) (token : Token) (side : Side) (quotes : List Quote),
      Reachable pool → quote pool amounts token side = .ok quotes →
      ∀ (i : Nat) (amount : Word) (quoted : Quote), amounts[i]? = some amount →
        quotes[i]? = some quoted → amount ≠ 0 → quoted.output ≠ 0 →
        ∃ quantity fill, signed side amount = .ok quantity ∧
          swap pool (Order.unlimited token quantity) = .ok fill ∧
          (otherLeg token fill).toInt = -received side quoted.output.toNat ∧
          fill.ticksCrossed = quoted.ticksCrossed := by
  intro hclaim
  have hrun : (do
      let start ← liftPool (Pool.create 50000 78335081585343415174882724554)
      let pool ← replay start [.deposit (-20000) 20000 (1000000000000000000000000000000 - 100000)]
      let quotes ← quote pool [33040495517169532499072051337, 33040495517169532499072051346]
        .zero .sell
      let fill ← swap pool (Order.unlimited .zero
        ⟨33040495517169532499072051346, by decide, by decide⟩)
      return decide ((quotes[1]?.map Quote.output).getD 0 ≠ 0 ∧ (otherLeg .zero fill).toInt ≠
        -received .sell ((quotes[1]?.map Quote.output).getD 0).toNat)) = Except.ok true := by
    decide +kernel
  obtain ⟨start, hstart, hrun⟩ := bind_eq_ok.mp hrun
  obtain ⟨pool, hpool, hrun⟩ := bind_eq_ok.mp hrun
  obtain ⟨quotes, hquotes, hrun⟩ := bind_eq_ok.mp hrun
  obtain ⟨other, hother, hrun⟩ := bind_eq_ok.mp hrun
  obtain ⟨houtput, hdiffers⟩ := of_decide_eq_true (Except.ok.inj hrun)
  cases hquoted : quotes[1]? with
  | none =>
    rw [hquoted] at houtput
    exact houtput rfl
  | some quoted =>
    rw [hquoted] at houtput hdiffers
    obtain ⟨quantity, fill, hsigned, hfill, hleg, -⟩ := hclaim pool _ _ _ quotes
      ⟨_, _, start, _, liftPool_eq_ok.mp hstart, hpool⟩ hquotes 1 _ quoted rfl hquoted (by decide)
      houtput
    obtain rfl : quantity = ⟨33040495517169532499072051346, by decide, by decide⟩ :=
      Signed.ext (toInt_of_signed hsigned)
    obtain rfl := Except.ok.inj (hother.symm.trans hfill)
    exact hdiffers hleg

end ReinvestingPool.Proofs.Batches
