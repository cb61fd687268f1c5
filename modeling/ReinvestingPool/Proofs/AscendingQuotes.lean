import ReinvestingPool.Proofs.Batches
import ReinvestingPool.Proofs.LastSteps
import ReinvestingPool.Proofs.Resumptions

/-!
Whether a quote answers larger amounts with outputs that are no smaller. Each amount that is filled
goes on from the checkpoint of the one before. The outputs are in order exactly where none of them
slips there behind the last step of the one before.
-/

namespace ReinvestingPool.Proofs.AscendingQuotes

open Failures Words Directions SignedAmounts TickMaps TickIndexes Pools PriceLimits Runs
open Simulations Quotes Paths StepFrames RunEnds LargerAmounts Histories QuotedAmounts Batches
open StepExchanges Resumptions LastSteps

/-- Over the amounts that are filled, a larger one has no smaller output. -/
def InOrder (amounts : List Word) (quotes : List Quote) : Prop :=
  ∀ (i j : Nat) (amount larger : Word) (quoted further : Quote),
    amounts[i]? = some amount → quotes[i]? = some quoted → amount ≠ 0 → quoted.output ≠ 0 →
    amounts[j]? = some larger → quotes[j]? = some further → larger ≠ 0 → further.output ≠ 0 →
    amount ≤ larger → quoted.output ≤ further.output

/-- A quantity that is filled, by a run from `entry`. -/
structure Filled where
  quantity : Amount
  entry : RunState
  records : TickMap TickRecord
  outcome : Outcome

/-- The terms of a quote. -/
def batchTrade (pool : Pool) (token : Token) (side : Side) : Trade where
  token
  side
  limit := furthestLimit (travel side token)
  swapFee := widen pool.swapFeeUnits
  governmentFee := widen pool.governmentFeeUnits
  blockTime := pool.blockTime

/-- Runs a quantity from where the one before has left off. -/
def attempt (pool : Pool) (trade : Trade) (resume : Resume) (records : TickMap TickRecord)
    (quantity : Amount) : Except Failure Filled := do
  let entry ← entryState pool trade.direction quantity resume
  let outcome ← simulate trade pool.index entry records
  return ⟨quantity, entry, records, outcome⟩

/-- The quantities that are filled in turn, up to the first one that is not. -/
def fillsFrom (pool : Pool) (trade : Trade) (resume : Resume) (records : TickMap TickRecord) :
    List Amount → List Filled
  | [] => []
  | quantity :: rest =>
      if quantity = 0 then
        fillsFrom pool trade resume records rest
      else
        match attempt pool trade resume records quantity with
        | .error _ => []
        | .ok a =>
          if a.outcome.final.Fruitless then
            []
          else
            a :: fillsFrom pool trade (some (quantity, a.outcome.checkpoint)) a.outcome.records rest

/-- The amounts that a quote fills. -/
def fills (pool : Pool) (amounts : List Word) (token : Token) (side : Side) : List Filled :=
  match quantities side amounts with
  | .ok quantities => fillsFrom pool (batchTrade pool token side) none pool.records quantities
  | .error _ => []

/-- What the run of a quantity comes to. -/
def Filled.worth (trade : Trade) (a : Filled) : Int :=
  leg trade.side a.outcome.final.exchanged.toInt

/-- A quantity slips behind the one before it, from whose checkpoint it goes on. -/
def SlipsBehind (trade : Trade) (a b : Filled) : Prop :=
  Slips trade a.outcome.checkpoint b.entry b.outcome.final

instance (trade : Trade) : DecidableRel (SlipsBehind trade) :=
  fun a b => inferInstanceAs (Decidable (Slips trade a.outcome.checkpoint b.entry b.outcome.final))

/-- A run that fills a quantity. -/
structure Fills (trade : Trade) (index : TickIndex) (a : Filled) : Prop where
  left : PartOf trade.side a.entry.remaining a.quantity
  phase : a.entry.phase = .advancing
  run : simulate trade index a.entry a.records = .ok a.outcome
  fruitful : ¬ a.outcome.final.Fruitless

/-- A quantity is filled by going on from the checkpoint of one that it is no smaller than. -/
structure Follows (trade : Trade) (index : TickIndex) (a b : Filled) : Prop where
  before : Fills trade index a
  after : Fills trade index b
  larger : PartOf trade.side a.quantity b.quantity
  rest : b.entry.remaining.toInt =
    a.outcome.checkpoint.remaining.toInt + (b.quantity.toInt - a.quantity.toInt)
  entry : b.entry = holding a.outcome.checkpoint b.entry.remaining
  records : b.records = a.outcome.records

variable {pool : Pool} {trade : Trade} {index : TickIndex} {a b : Filled} {resume : Resume}
variable {records : TickMap TickRecord} {amounts : List Word} {pending : List Amount}
variable {quotes : List Quote} {quantity : Amount} {quoted : Quote} {token : Token} {side : Side}

section Pairs

theorem Fills.path (h : Fills trade index a) :
    Reaches trade index (a.entry, a.records) (a.outcome.checkpoint, a.outcome.records) ∧
      Ends trade index (a.outcome.checkpoint, a.outcome.records) a.outcome.final := by
  have hrun := h.run
  unfold simulate at hrun
  rw [← h.phase] at hrun
  exact runFrom_eq_ok.mp hrun

/-- What is left at the checkpoint is a part of the quantity. -/
theorem Fills.left_checkpoint (h : Fills trade index a) :
    PartOf trade.side a.outcome.checkpoint.remaining a.quantity := by
  have hside : PartOf trade.side a.entry.remaining a.entry.remaining := h.left.self_left
  exact (part_reaches (p := (a.entry, a.records)) hside h.path.1).trans h.left

/-- What was used of the quantity is an amount. -/
theorem Fills.exists_used (h : Fills trade index a) :
    ∃ used, a.quantity.subChecked a.outcome.final.remaining = .ok used := by
  have hleft := h.left_checkpoint
  have hfinal : PartOf trade.side a.outcome.final.remaining a.outcome.checkpoint.remaining :=
    part_ends hleft.self_left h.path.2
  exact Batches.exists_used (hfinal.trans hleft)

theorem worth_eq (trade : Trade) (a : Filled) (s : RunState) :
    a.worth trade = leg trade.side s.exchanged.toInt + gained trade s a.outcome.final :=
  leg_of_gained trade s a.outcome.final

/-- The larger quantity goes on with no less than the smaller one has left. -/
theorem Follows.part (h : Follows trade index a b) :
    PartOf trade.side a.outcome.checkpoint.remaining b.entry.remaining := by
  obtain ⟨rest, hrest, hless, -⟩ := h.before.left_checkpoint.exists_rest h.larger
  obtain rfl : rest = b.entry.remaining := Signed.ext (hrest.trans h.rest.symm)
  exact hless

theorem Follows.settled (h : Follows trade index a b) : Settled trade a.outcome.checkpoint :=
  (gained_of_ends h.before.path.2 h.before.fruitful).1

theorem Follows.reaches (h : Follows trade index a b) :
    Reaches trade index (holding a.outcome.checkpoint b.entry.remaining, b.records)
      (b.outcome.checkpoint, b.outcome.records) := by
  rw [← h.entry]
  exact h.after.path.1

/-- The larger quantity is worth less exactly where it comes to less than the last step of the
smaller one, whose other steps they share. -/
theorem Follows.less_iff (h : Follows trade index a b) :
    b.worth trade < a.worth trade ↔
      gained trade b.entry b.outcome.final < stepLeg trade a.outcome.checkpoint := by
  have hlast : gained trade a.outcome.checkpoint a.outcome.final =
      stepLeg trade a.outcome.checkpoint :=
    (gained_of_ends h.before.path.2 h.before.fruitful).2
  have hsame : b.entry.exchanged = a.outcome.checkpoint.exchanged := by
    rw [h.entry]
    rfl
  have hfirst := worth_eq trade a a.outcome.checkpoint
  have hsecond := worth_eq trade b b.entry
  rw [hsame] at hsecond
  omega

/-- Of two quantities in a row, the larger one is worth no less exactly unless it slips. -/
theorem Follows.worth_le_iff (h : Follows trade index a b) :
    a.worth trade ≤ b.worth trade ↔ ¬ SlipsBehind trade a b := by
  have hslips := slips_iff h.part h.settled h.reaches h.after.path.2 h.after.fruitful
  rw [← h.entry] at hslips
  unfold SlipsBehind
  rw [hslips, ← h.less_iff, Int.not_lt]

/-- Of two quantities in a row, the larger one is worth less only if its first step lags behind the
last one of the smaller, or some of what that step comes to is lost later. -/
theorem Follows.cause_of_less (h : Follows trade index a b)
    (hless : b.worth trade < a.worth trade) :
    Lags trade a.outcome.checkpoint b.entry ∨
      gained trade b.entry b.outcome.final < stepLeg trade b.entry := by
  have hlarger := settled_of_reaches h.reaches h.after.path.2 h.after.fruitful
  rw [h.less_iff, h.entry] at hless
  have hcause := lags_or_loses h.part h.settled hlarger hless
  rwa [← h.entry] at hcause

/-- Where it is used up in the range ahead, that takes a sale whose fee adds more liquidity. -/
theorem Follows.sale_of_less (h : Follows trade index a b) (huses : UsesUp trade b.entry)
    (hless : b.worth trade < a.worth trade) :
    trade.side = .sell ∧
      (stepIn trade a.outcome.checkpoint).added.toNat < (stepIn trade b.entry).added.toNat := by
  rw [h.less_iff, h.entry] at hless
  rw [h.entry] at huses
  have hsale := LastSteps.sale_of_less h.part h.settled h.reaches h.after.path.2 h.after.fruitful
    huses hless
  rwa [← h.entry] at hsale

/-- The same quantity once more is worth the same. -/
theorem Follows.worth_eq_of_quantity (h : Follows trade index a b)
    (hsame : a.quantity = b.quantity) : a.worth trade = b.worth trade := by
  have hrest := h.rest
  rw [hsame, Int.sub_self, Int.add_zero] at hrest
  have hentry : b.entry = a.outcome.checkpoint := by
    rw [h.entry, Signed.ext hrest]
    rfl
  have hagain := (simulate_checkpoint h.before.run).1
  have hrun := h.after.run
  rw [hentry, h.records, hagain] at hrun
  unfold Filled.worth
  rw [← Except.ok.inj hrun]

end Pairs

/-- No smaller and worth no less; the same quantity is worth the same. -/
def Ranked (trade : Trade) (a b : Filled) : Prop :=
  PartOf trade.side a.quantity b.quantity ∧ a.worth trade ≤ b.worth trade ∧
    (a.quantity = b.quantity → b.worth trade ≤ a.worth trade)

theorem Ranked.trans {c : Filled} (hab : Ranked trade a b) (hbc : Ranked trade b c) :
    Ranked trade a c := by
  obtain ⟨hfirst, hless, hback⟩ := hab
  obtain ⟨hsecond, hmore, hforth⟩ := hbc
  refine ⟨hfirst.trans hsecond, Int.le_trans hless hmore, fun hsame => ?_⟩
  have hmiddle : a.quantity = b.quantity := hfirst.antisymm (hsame ▸ hsecond)
  exact Int.le_trans (hforth (hmiddle.symm.trans hsame)) (hback hmiddle)

instance : Trans (Ranked trade) (Ranked trade) (Ranked trade) := ⟨Ranked.trans⟩

/-- Quantities that follow one another are in order exactly where none slips. -/
theorem isChain_iff_ordered {filled : List Filled} (h : filled.IsChain (Follows trade index)) :
    (∀ a ∈ filled, ∀ b ∈ filled, PartOf trade.side a.quantity b.quantity →
        a.worth trade ≤ b.worth trade) ↔
      filled.IsChain fun a b => ¬ SlipsBehind trade a b := by
  constructor
  · intro hordered
    refine List.isChain_iff_getElem.mpr fun i hi => ?_
    have hpair := h.getElem i hi
    exact hpair.worth_le_iff.mp
      (hordered _ (List.getElem_mem _) _ (List.getElem_mem _) hpair.larger)
  · intro hnone
    have hchain : filled.IsChain (Ranked trade) := by
      refine List.isChain_iff_getElem.mpr fun i hi => ?_
      have hpair := h.getElem i hi
      exact ⟨hpair.larger, hpair.worth_le_iff.mpr (hnone.getElem i hi),
        fun hsame => Int.le_of_eq (hpair.worth_eq_of_quantity hsame).symm⟩
    -- An equal quantity may also stand before, which is why the ranks go both ways.
    exact List.Pairwise.forall_of_forall_of_flip (fun a _ _ => Int.le_refl _)
      (hchain.pairwise.imp fun hranked _ => hranked.2.1)
      (hchain.pairwise.imp fun hranked hback => hranked.2.2 (hranked.1.antisymm hback))

section Filling

theorem attempt_eq_ok :
    attempt pool trade resume records quantity = .ok a ↔
      ∃ entry outcome, entryState pool trade.direction quantity resume = .ok entry ∧
        simulate trade pool.index entry records = .ok outcome ∧
        a = ⟨quantity, entry, records, outcome⟩ := by
  constructor
  · intro h
    obtain ⟨entry, hentry, h⟩ := bind_eq_ok.mp h
    obtain ⟨outcome, hrun, h⟩ := bind_eq_ok.mp h
    cases h
    exact ⟨entry, outcome, hentry, hrun, rfl⟩
  · intro h
    rcases h with ⟨entry, outcome, hentry, hrun, rfl⟩
    exact bind_eq_ok.mpr ⟨entry, hentry, bind_eq_ok.mpr ⟨outcome, hrun, rfl⟩⟩

theorem quantity_of_attempt (h : attempt pool trade resume records quantity = .ok a) :
    a.quantity = quantity := by
  obtain ⟨entry, outcome, -, -, rfl⟩ := attempt_eq_ok.mp h
  rfl

theorem fillsFrom_of_zero (rest : List Amount) (hzero : quantity = 0) :
    fillsFrom pool trade resume records (quantity :: rest) =
      fillsFrom pool trade resume records rest := by
  rw [fillsFrom, if_pos hzero]

theorem fillsFrom_of_ok (rest : List Amount) (hnonzero : quantity ≠ 0)
    (h : attempt pool trade resume records quantity = .ok a) :
    fillsFrom pool trade resume records (quantity :: rest) =
      if a.outcome.final.Fruitless then []
      else a :: fillsFrom pool trade (some (quantity, a.outcome.checkpoint)) a.outcome.records
        rest := by
  rw [fillsFrom, if_neg hnonzero, h]

theorem fillsFrom_of_fruitful (rest : List Amount) (hnonzero : quantity ≠ 0)
    (h : attempt pool trade resume records quantity = .ok a)
    (hfruitful : ¬ a.outcome.final.Fruitless) :
    fillsFrom pool trade resume records (quantity :: rest) =
      a :: fillsFrom pool trade (some (quantity, a.outcome.checkpoint)) a.outcome.records rest := by
  rw [fillsFrom_of_ok rest hnonzero h, if_neg hfruitful]

/-- The quantity ahead is passed over, not filled, or filled and followed by those that go on from
its checkpoint. -/
theorem fillsFrom_cases (pool : Pool) (trade : Trade) (resume : Resume)
    (records : TickMap TickRecord) (quantity : Amount) (rest : List Amount) :
    quantity = 0 ∧ fillsFrom pool trade resume records (quantity :: rest) =
        fillsFrom pool trade resume records rest ∨
      quantity ≠ 0 ∧ (fillsFrom pool trade resume records (quantity :: rest) = [] ∨
        ∃ a, attempt pool trade resume records quantity = .ok a ∧ ¬ a.outcome.final.Fruitless ∧
          fillsFrom pool trade resume records (quantity :: rest) =
            a :: fillsFrom pool trade (some (quantity, a.outcome.checkpoint)) a.outcome.records
              rest) := by
  by_cases hzero : quantity = 0
  · exact Or.inl ⟨hzero, fillsFrom_of_zero rest hzero⟩
  · refine Or.inr ⟨hzero, ?_⟩
    cases h : attempt pool trade resume records quantity with
    | error failure => exact Or.inl (by rw [fillsFrom, if_neg hzero, h])
    | ok a =>
      by_cases hfruitless : a.outcome.final.Fruitless
      · exact Or.inl (by rw [fillsFrom_of_ok rest hzero h, if_pos hfruitless])
      · exact Or.inr ⟨a, rfl, hfruitless, fillsFrom_of_fruitful rest hzero h hfruitless⟩

theorem fills_of_entered (hquantity : PartOf trade.side quantity quantity)
    (h : attempt pool trade none records quantity = .ok a)
    (hfruitful : ¬ a.outcome.final.Fruitless) :
    Fills trade pool.index a ∧ a.quantity = quantity := by
  obtain ⟨entry, outcome, hentry, hrun, rfl⟩ := attempt_eq_ok.mp h
  obtain ⟨-, hframe⟩ := SwapRuns.enter_eq_ok.mp (liftPool_eq_ok.mp hentry)
  refine ⟨⟨?_, ?_, hrun, hfruitful⟩, rfl⟩
  · rw [hframe]
    exact hquantity
  · rw [hframe]

/-- A quantity that is filled from the checkpoint of another one follows it. -/
theorem follows_of_resumed (ha : Fills trade pool.index a)
    (hlarger : PartOf trade.side a.quantity quantity)
    (h : attempt pool trade (some (a.quantity, a.outcome.checkpoint)) a.outcome.records quantity =
      .ok b)
    (hfruitful : ¬ b.outcome.final.Fruitless) :
    Follows trade pool.index a b ∧ b.quantity = quantity := by
  obtain ⟨entry, outcome, hentry, hrun, rfl⟩ := attempt_eq_ok.mp h
  obtain ⟨used, hused, hentry⟩ := bind_eq_ok.mp hentry
  obtain ⟨remaining, hremaining, hentry⟩ := bind_eq_ok.mp hentry
  cases hentry
  rw [liftArithmetic_eq_ok, Signed.subChecked_eq_ok] at hused hremaining
  have hrest : remaining.toInt = a.outcome.checkpoint.remaining.toInt +
      (quantity.toInt - a.quantity.toInt) := by
    omega
  obtain ⟨rest, hequal, -, hpart⟩ := ha.left_checkpoint.exists_rest hlarger
  obtain rfl : rest = remaining := Signed.ext (hequal.trans hrest.symm)
  have hphase : a.outcome.checkpoint.phase = .advancing :=
    (phase_of_reaches ha.path.1).trans ha.phase
  exact ⟨⟨ha, ⟨hpart, hphase, hrun, hfruitful⟩, hlarger, hrest, rfl, rfl⟩, rfl⟩

theorem isChain_fillsFrom_resumed (ha : Fills trade pool.index a)
    (hlarger : ∀ b ∈ pending, b ≠ 0 → PartOf trade.side a.quantity b)
    (hascending : Ascending trade.side pending) :
    (a :: fillsFrom pool trade (some (a.quantity, a.outcome.checkpoint)) a.outcome.records
      pending).IsChain (Follows trade pool.index) := by
  induction pending generalizing a with
  | nil => exact .singleton a
  | cons quantity rest ih =>
    obtain ⟨hhead, hrest⟩ := List.pairwise_cons.mp hascending
    rcases fillsFrom_cases pool trade (some (a.quantity, a.outcome.checkpoint)) a.outcome.records
      quantity rest with ⟨-, hsame⟩ | ⟨hnonzero, hnone | ⟨b, hattempt, hfruitful, hcons⟩⟩
    · rw [hsame]
      exact ih ha (fun b hb => hlarger b (.tail _ hb)) hrest
    · rw [hnone]
      exact .singleton a
    · obtain ⟨hfollows, hquantity⟩ :=
        follows_of_resumed ha (hlarger quantity (.head _) hnonzero) hattempt hfruitful
      rw [hcons]
      refine List.isChain_cons_cons.mpr ⟨hfollows, ?_⟩
      rw [← hquantity] at hhead hnonzero ⊢
      exact ih hfollows.after (fun c hc => hhead c hc hnonzero) hrest

theorem isChain_fillsFrom (hside : ∀ a ∈ pending, a ≠ 0 → PartOf trade.side a a)
    (hascending : Ascending trade.side pending) :
    (fillsFrom pool trade none records pending).IsChain (Follows trade pool.index) := by
  induction pending with
  | nil => exact .nil
  | cons quantity rest ih =>
    obtain ⟨hhead, hrest⟩ := List.pairwise_cons.mp hascending
    rcases fillsFrom_cases pool trade none records quantity rest with
      ⟨-, hsame⟩ | ⟨hnonzero, hnone | ⟨a, hattempt, hfruitful, hcons⟩⟩
    · rw [hsame]
      exact ih (fun b hb => hside b (.tail _ hb)) hrest
    · rw [hnone]
      exact .nil
    · obtain ⟨hfills, hquantity⟩ :=
        fills_of_entered (hside quantity (.head _) hnonzero) hattempt hfruitful
      rw [hcons]
      rw [← hquantity] at hhead hnonzero ⊢
      exact isChain_fillsFrom_resumed hfills (fun b hb => hhead b hb hnonzero) hrest

/-- The first quantity that is filled enters the pool with nothing exchanged. -/
theorem fills_of_head {later : List Filled}
    (hside : ∀ quantity ∈ pending, quantity ≠ 0 → PartOf trade.side quantity quantity)
    (h : fillsFrom pool trade none records pending = a :: later) :
    Fills trade pool.index a ∧ a.entry.exchanged = 0 := by
  induction pending with
  | nil => cases h
  | cons quantity rest ih =>
    rcases fillsFrom_cases pool trade none records quantity rest with
      ⟨-, hsame⟩ | ⟨hnonzero, hnone | ⟨b, hattempt, hfruitful, hcons⟩⟩
    · rw [hsame] at h
      exact ih (fun c hc => hside c (.tail _ hc)) h
    · rw [hnone] at h
      cases h
    · rw [hcons] at h
      cases h
      obtain ⟨hfills, -⟩ :=
        fills_of_entered (hside quantity (.head _) hnonzero) hattempt hfruitful
      obtain ⟨entry, outcome, hentry, -, rfl⟩ := attempt_eq_ok.mp hattempt
      have hentered := (SwapRuns.enter_eq_ok.mp (liftPool_eq_ok.mp hentry)).2
      exact ⟨hfills, congrArg RunState.exchanged hentered⟩

/-- Every quantity of a chain is filled if the first one is. -/
theorem fills_of_isChain {later : List Filled} (ha : Fills trade index a)
    (h : (a :: later).IsChain (Follows trade index)) : ∀ b ∈ a :: later, Fills trade index b := by
  induction later generalizing a with
  | nil => exact List.forall_mem_singleton.mpr ha
  | cons next later ih =>
    obtain ⟨hfollows, hrest⟩ := List.isChain_cons_cons.mp h
    exact List.forall_mem_cons.mpr ⟨ha, ih hfollows.after hrest⟩

theorem fills_of_mem_fillsFrom (hside : ∀ b ∈ pending, b ≠ 0 → PartOf trade.side b b)
    (hascending : Ascending trade.side pending)
    (ha : a ∈ fillsFrom pool trade none records pending) : Fills trade pool.index a := by
  have hchain : (fillsFrom pool trade none records pending).IsChain (Follows trade pool.index) :=
    isChain_fillsFrom hside hascending
  cases hfilled : fillsFrom pool trade none records pending with
  | nil =>
    rw [hfilled] at ha
    cases ha
  | cons first later =>
    rw [hfilled] at ha hchain
    exact fills_of_isChain (fills_of_head hside hfilled).1 hchain a ha

end Filling

section Quoting

theorem leg_of_output {exchanged : Amount} {output : Word}
    (h : outputOf side exchanged = .ok output) : leg side exchanged.toInt = output.toNat := by
  have hvalue := toInt_of_outputOf h
  cases side with
  | sell =>
    simp only [received] at hvalue
    simp only [leg]
    omega
  | buy =>
    simp only [received] at hvalue
    simp only [leg]
    omega

theorem worth_of_output {output : Word}
    (h : outputOf trade.side a.outcome.final.exchanged = .ok output) :
    a.worth trade = output.toNat :=
  leg_of_output h

theorem output_ne_zero {final : RunState} {output : Word} (hfruitful : ¬ final.Fruitless)
    (h : outputOf side final.exchanged = .ok output) : output ≠ 0 := by
  intro hzero
  have hvalue := leg_of_output h
  rw [hzero] at hvalue
  refine hfruitful (Or.inr (Signed.ext ?_))
  cases side with
  | sell => exact Int.neg_eq_zero.mp hvalue
  | buy => exact hvalue

/-- Where a quantity has an output, it is filled. -/
theorem exists_filled {i : Nat} (h : quoteFrom pool trade resume records pending = .ok quotes)
    (hquantity : pending[i]? = some quantity) (hquoted : quotes[i]? = some quoted)
    (hnonzero : quantity ≠ 0) (houtput : quoted.output ≠ 0) :
    ∃ a ∈ fillsFrom pool trade resume records pending, a.quantity = quantity ∧
      outputOf trade.side a.outcome.final.exchanged = .ok quoted.output := by
  induction pending generalizing resume records quotes i with
  | nil => cases hquantity
  | cons head rest ih =>
    rcases quoteFrom_cases h with
      ⟨hzero, later, hlater, rfl⟩ | ⟨hnot, entry, outcome, hentry, hrun, hcase⟩
    · rw [fillsFrom_of_zero rest hzero]
      cases i with
      | zero =>
        obtain rfl := Option.some.inj hquantity
        exact absurd hzero hnonzero
      | succ i => exact ih hlater hquantity hquoted
    · have hattempt := attempt_eq_ok.mpr ⟨entry, outcome, hentry, hrun, rfl⟩
      rw [fillsFrom_of_ok rest hnot hattempt]
      rcases hcase with ⟨-, rfl⟩ | ⟨hfruitful, -, output, later, houtputs, hlater, rfl⟩
      · exact absurd (output_of_none hquoted) houtput
      · rw [if_neg hfruitful]
        cases i with
        | zero =>
          obtain rfl := Option.some.inj hquantity
          obtain rfl := Option.some.inj hquoted
          exact ⟨_, .head _, rfl, houtputs⟩
        | succ i =>
          obtain ⟨a, ha, hfilled⟩ := ih hlater hquantity hquoted
          exact ⟨a, .tail _ ha, hfilled⟩

/-- What is filled is quoted with an output. -/
theorem exists_quoted (h : quoteFrom pool trade resume records pending = .ok quotes)
    (ha : a ∈ fillsFrom pool trade resume records pending) :
    ∃ (i : Nat) (quoted : Quote), pending[i]? = some a.quantity ∧ quotes[i]? = some quoted ∧
      a.quantity ≠ 0 ∧ quoted.output ≠ 0 ∧
      outputOf trade.side a.outcome.final.exchanged = .ok quoted.output := by
  induction pending generalizing resume records quotes with
  | nil => cases ha
  | cons head rest ih =>
    rcases quoteFrom_cases h with
      ⟨hzero, later, hlater, rfl⟩ | ⟨hnot, entry, outcome, hentry, hrun, hcase⟩
    · rw [fillsFrom_of_zero rest hzero] at ha
      obtain ⟨i, quoted, hfound⟩ := ih hlater ha
      exact ⟨i + 1, quoted, hfound⟩
    · have hattempt := attempt_eq_ok.mpr ⟨entry, outcome, hentry, hrun, rfl⟩
      rw [fillsFrom_of_ok rest hnot hattempt] at ha
      rcases hcase with ⟨hfruitless, -⟩ | ⟨hfruitful, -, output, later, houtputs, hlater, rfl⟩
      · rw [if_pos hfruitless] at ha
        cases ha
      · rw [if_neg hfruitful] at ha
        rcases List.mem_cons.mp ha with rfl | ha
        · exact ⟨0, _, rfl, rfl, hnot, output_ne_zero hfruitful houtputs, houtputs⟩
        · obtain ⟨i, quoted, hfound⟩ := ih hlater ha
          exact ⟨i + 1, quoted, hfound⟩

theorem quoteFrom_of_zeros (pool : Pool) (trade : Trade) (resume : Resume)
    (records : TickMap TickRecord) (hzeros : ∀ a ∈ pending, a = 0) :
    quoteFrom pool trade resume records pending = .ok (pending.map fun _ => Quote.none) := by
  induction pending with
  | nil => rfl
  | cons head rest ih =>
    unfold quoteFrom
    rw [if_pos (hzeros head (.head _)), ih fun a ha => hzeros a (.tail _ ha)]
    rfl

theorem tradeOn_batch_eq_ok :
    Trade.on pool token side none = .ok trade ↔
      LimitAhead (travel side token) pool.sqrtPrice (furthestLimit (travel side token)) ∧
        trade = batchTrade pool token side := by
  unfold Trade.on
  simp only [Option.getD_none]
  split
  · rename_i hahead
    rw [Except.ok.injEq]
    exact ⟨fun h => ⟨hahead, h.symm⟩, fun h => h.2.symm⟩
  · rename_i hnot
    exact iff_of_false (fun h => by cases h) fun h => hnot h.1

/-- A quote runs its quantities in turn on the terms of the pool. -/
theorem quote_eq_ok (h : quote pool amounts token side = .ok quotes) :
    ∃ pending, quantities side amounts = .ok pending ∧
      quoteFrom pool (batchTrade pool token side) none pool.records pending = .ok quotes := by
  obtain ⟨⟨⟩, -, h⟩ := bind_eq_ok.mp h
  obtain ⟨pending, hpending, h⟩ := bind_eq_ok.mp h
  rw [mapError_eq_ok] at hpending
  refine ⟨pending, hpending, ?_⟩
  split at h
  · rename_i hall
    have hzeros : ∀ a ∈ pending, a = 0 := fun a ha =>
      of_decide_eq_true (List.all_eq_true.mp hall a ha)
    obtain ⟨hnamed, -⟩ := quantitiesFrom_eq_ok hpending
    rw [quoteFrom_of_zeros _ _ _ _ hzeros, List.map_const', ← hnamed.length_eq]
    cases h
    rw [List.map_const']
  · obtain ⟨trade, htrade, h⟩ := bind_eq_ok.mp h
    obtain ⟨-, rfl⟩ := tradeOn_batch_eq_ok.mp (mapError_eq_ok.mp htrade)
    exact h

/-- The quantities of a quote are of its side and in ascending order. -/
theorem ordered_of_quantities (h : quantities side amounts = .ok pending) :
    (∀ a ∈ pending, a ≠ 0 → PartOf side a a) ∧ Ascending side pending := by
  obtain ⟨hnamed, hascending⟩ := quantitiesFrom_eq_ok h
  refine ⟨fun a ha hnonzero => ?_, hascending⟩
  obtain ⟨i, hi⟩ := List.mem_iff_getElem?.mp ha
  obtain ⟨amount, -, hstands⟩ := forall₂_getElem? hnamed.flip hi
  obtain ⟨-, -, hsigned⟩ := hstands.resolve_left fun hzero => hnonzero hzero.2
  exact part_of_signed hsigned hsigned (BitVec.le_refl amount)

theorem fills_eq (hpending : quantities side amounts = .ok pending) :
    fills pool amounts token side =
      fillsFrom pool (batchTrade pool token side) none pool.records pending := by
  unfold fills
  rw [hpending]

theorem le_of_part {smaller : Amount} {other amount : Word}
    (hsmaller : signed side other = .ok smaller) (hlarger : signed side amount = .ok quantity)
    (h : PartOf side smaller quantity) : other ≤ amount := by
  have hsmaller := toInt_of_signed hsmaller
  have hlarger := toInt_of_signed hlarger
  rw [BitVec.le_def]
  revert h
  unfold PartOf
  cases side with
  | sell =>
    simp only [received] at hsmaller hlarger ⊢
    omega
  | buy =>
    simp only [received] at hsmaller hlarger ⊢
    omega

/-- The outputs are in order exactly where what is filled is. -/
theorem inOrder_iff_fills (hpending : quantities side amounts = .ok pending)
    (h : quoteFrom pool (batchTrade pool token side) none pool.records pending = .ok quotes) :
    InOrder amounts quotes ↔ ∀ a ∈ fills pool amounts token side,
      ∀ b ∈ fills pool amounts token side, PartOf side a.quantity b.quantity →
        a.worth (batchTrade pool token side) ≤ b.worth (batchTrade pool token side) := by
  obtain ⟨hnamed, -⟩ := quantitiesFrom_eq_ok hpending
  rw [fills_eq hpending]
  constructor
  · intro horder a ha b hb hpart
    obtain ⟨i, quoted, hi, hquoted, hnonzero, houtput, hworth⟩ := exists_quoted h ha
    obtain ⟨j, further, hj, hfurther, hnonzero', houtput', hworth'⟩ := exists_quoted h hb
    obtain ⟨amount, hamount, hstands⟩ := forall₂_getElem? hnamed.flip hi
    obtain ⟨larger, hlarger, hstands'⟩ := forall₂_getElem? hnamed.flip hj
    obtain ⟨hamountNonzero, -, hsigned⟩ := hstands.resolve_left fun hzero => hnonzero hzero.2
    obtain ⟨hlargerNonzero, -, hsigned'⟩ := hstands'.resolve_left fun hzero => hnonzero' hzero.2
    have hle := horder i j amount larger quoted further hamount hquoted hamountNonzero houtput
      hlarger hfurther hlargerNonzero houtput' (le_of_part hsigned hsigned' hpart)
    rw [worth_of_output hworth, worth_of_output hworth']
    exact Int.ofNat_le.mpr (BitVec.le_def.mp hle)
  · intro hordered i j amount larger quoted further hamount hquoted hnonzero houtput hlarger
      hfurther hnonzero' houtput' hle
    obtain ⟨first, hi, hsigned⟩ := exists_quantity hnamed hamount hnonzero
    obtain ⟨second, hj, hsigned'⟩ := exists_quantity hnamed hlarger hnonzero'
    obtain ⟨a, ha, rfl, hworth⟩ :=
      exists_filled h hi hquoted (sideOf_signed hsigned hnonzero).1 houtput
    obtain ⟨b, hb, rfl, hworth'⟩ :=
      exists_filled h hj hfurther (sideOf_signed hsigned' hnonzero').1 houtput'
    have hworths := hordered a ha b hb (part_of_signed hsigned hsigned' hle)
    rw [worth_of_output hworth, worth_of_output hworth'] at hworths
    exact BitVec.le_def.mpr (Int.ofNat_le.mp hworths)

theorem isChain_fills (hpending : quantities side amounts = .ok pending) :
    (fills pool amounts token side).IsChain
      (Follows (batchTrade pool token side) pool.index) := by
  obtain ⟨hside, hascending⟩ := ordered_of_quantities hpending
  rw [fills_eq hpending]
  exact isChain_fillsFrom hside hascending

/-- Outputs that are out of order have a cause at two amounts in a row. The first step of the larger
one lags, or some of what it comes to is lost later, and if that amount is used up in the range
ahead, it is sold and its fee adds more liquidity. -/
theorem exists_cause_of_disorder (h : quote pool amounts token side = .ok quotes)
    (hnot : ¬ InOrder amounts quotes) :
    ∃ i a b, (fills pool amounts token side)[i]? = some a ∧
      (fills pool amounts token side)[i + 1]? = some b ∧
      b.worth (batchTrade pool token side) < a.worth (batchTrade pool token side) ∧
      (Lags (batchTrade pool token side) a.outcome.checkpoint b.entry ∨
        gained (batchTrade pool token side) b.entry b.outcome.final <
          stepLeg (batchTrade pool token side) b.entry) ∧
      (UsesUp (batchTrade pool token side) b.entry → side = .sell ∧
        (stepIn (batchTrade pool token side) a.outcome.checkpoint).added.toNat <
          (stepIn (batchTrade pool token side) b.entry).added.toNat) := by
  obtain ⟨pending, hpending, hquoted⟩ := quote_eq_ok h
  have hchain : (fills pool amounts token side).IsChain
      (Follows (batchTrade pool token side) pool.index) := isChain_fills hpending
  have horder : InOrder amounts quotes ↔ _ :=
    (inOrder_iff_fills hpending hquoted).trans (isChain_iff_ordered hchain)
  rw [horder, List.isChain_iff_getElem] at hnot
  simp only [not_forall, not_not] at hnot
  obtain ⟨i, hi, hslips⟩ := hnot
  have hpair := hchain.getElem i hi
  have hless := Int.not_le.mp fun hle => hpair.worth_le_iff.mp hle hslips
  exact ⟨i, _, _, List.getElem?_eq_getElem (Nat.lt_of_succ_lt hi), List.getElem?_eq_getElem hi,
    hless, hpair.cause_of_less hless, fun huses => hpair.sale_of_less huses hless⟩

/-- Outputs are in order as long as every amount after the first is used up in the range in which it
goes on, and no sale adds more liquidity by its fee than the one before. Purchases need only the
range. -/
theorem inOrder_of_usedUp (h : quote pool amounts token side = .ok quotes)
    (huses : ∀ b ∈ (fills pool amounts token side).tail,
      UsesUp (batchTrade pool token side) b.entry)
    (hfees : side = .sell → (fills pool amounts token side).IsChain fun a b =>
      (stepIn (batchTrade pool token side) b.entry).added.toNat ≤
        (stepIn (batchTrade pool token side) a.outcome.checkpoint).added.toNat) :
    InOrder amounts quotes := by
  by_contra hnot
  obtain ⟨i, a, b, ha, hb, -, -, hsale⟩ := exists_cause_of_disorder h hnot
  rw [← List.getElem?_tail] at hb
  obtain ⟨hside, hmore⟩ := hsale (huses b (List.mem_of_getElem? hb))
  rw [List.getElem?_tail] at hb
  obtain ⟨hi, rfl⟩ := List.getElem?_eq_some_iff.mp hb
  obtain ⟨_, rfl⟩ := List.getElem?_eq_some_iff.mp ha
  exact Nat.not_lt.mpr ((hfees hside).getElem i hi) hmore

/-- Two purchases in one range on a pool without positions. -/
theorem inOrder_two_purchases :
    ∃ pool quotes, Pool.create 1000 0x1000000000000000000000000 = .ok pool ∧
      quote pool [100, 200] .zero .buy = .ok quotes ∧
      (fills pool [100, 200] .zero .buy).length = 2 ∧ InOrder [100, 200] quotes := by
  have hrun : (do
      let pool ← liftPool (Pool.create 1000 0x1000000000000000000000000)
      let _ ← quote pool [100, 200] .zero .buy
      return decide ((fills pool [100, 200] .zero .buy).length = 2 ∧
        ∀ b ∈ (fills pool [100, 200] .zero .buy).tail,
          UsesUp (batchTrade pool .zero .buy) b.entry)) = Except.ok true := by
    decide +kernel
  obtain ⟨pool, hpool, hrun⟩ := bind_eq_ok.mp hrun
  obtain ⟨quotes, hquotes, hrun⟩ := bind_eq_ok.mp hrun
  obtain ⟨hfilled, huses⟩ := of_decide_eq_true (Except.ok.inj hrun)
  exact ⟨pool, quotes, liftPool_eq_ok.mp hpool, hquotes, hfilled,
    inOrder_of_usedUp hquotes huses nofun⟩

/-- A quote answers larger amounts with outputs that are no smaller, exactly unless an amount that
it fills slips behind the one before. In one range no purchase does, and a sale only where its fee
adds more liquidity. -/
theorem quote_inOrder_iff (h : quote pool amounts token side = .ok quotes) :
    InOrder amounts quotes ↔ (fills pool amounts token side).IsChain fun a b =>
      ¬ SlipsBehind (batchTrade pool token side) a b := by
  obtain ⟨pending, hpending, hquoted⟩ := quote_eq_ok h
  exact (inOrder_iff_fills hpending hquoted).trans (isChain_iff_ordered (isChain_fills hpending))

end Quoting

/-- Two sales in one range on a pool without positions. The fee adds as little for both. -/
theorem quote_inOrder_two_sales :
    ∃ pool quotes, Pool.create 1000 0x1000000000000000000000000 = .ok pool ∧
      quote pool [100, 199] .zero .sell = .ok quotes ∧ quotes.map Quote.output = [99, 198] ∧
      InOrder [100, 199] quotes := by
  have hrun : (do
      let pool ← liftPool (Pool.create 1000 0x1000000000000000000000000)
      let quotes ← quote pool [100, 199] .zero .sell
      return decide (quotes.map Quote.output = [99, 198] ∧
        (fills pool [100, 199] .zero .sell).IsChain fun a b =>
          ¬ SlipsBehind (batchTrade pool .zero .sell) a b)) = Except.ok true := by
    decide +kernel
  obtain ⟨pool, hpool, hrun⟩ := bind_eq_ok.mp hrun
  obtain ⟨quotes, hquotes, hrun⟩ := bind_eq_ok.mp hrun
  obtain ⟨houtputs, hnone⟩ := of_decide_eq_true (Except.ok.inj hrun)
  exact ⟨pool, quotes, liftPool_eq_ok.mp hpool, hquotes, houtputs,
    (quote_inOrder_iff hquotes).mpr hnone⟩

/-- The larger of two sales pays a fee that adds one unit of liquidity, where the smaller one adds
none, and fetches one unit less. -/
theorem quote_out_of_order :
    ¬ ∀ (pool : Pool) (amounts : List Word) (token : Token) (side : Side) (quotes : List Quote),
      Reachable pool → quote pool amounts token side = .ok quotes → InOrder amounts quotes := by
  intro hclaim
  have hrun : (do
      let pool ← liftPool (Pool.create 1000 0x1000000000000000000000000)
      let quotes ← quote pool [199, 200] .zero .sell
      return decide (quotes = [⟨198, 0⟩, ⟨197, 0⟩])) = Except.ok true := by
    decide +kernel
  obtain ⟨pool, hpool, hrun⟩ := bind_eq_ok.mp hrun
  obtain ⟨quotes, hquotes, hrun⟩ := bind_eq_ok.mp hrun
  have houtputs := of_decide_eq_true (Except.ok.inj hrun)
  subst houtputs
  have horder := hclaim pool _ _ _ _ (reachable_create (liftPool_eq_ok.mp hpool)) hquotes
  exact absurd (horder 0 1 199 200 ⟨198, 0⟩ ⟨197, 0⟩ rfl rfl (by decide) (by decide) rfl rfl
    (by decide) (by decide) (by decide)) (by decide)

end ReinvestingPool.Proofs.AscendingQuotes
