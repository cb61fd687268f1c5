import ReinvestingPool.Proofs.QuoteRefusals

/-!
Quoting as a relation between quantities and their answers. A zero is passed over, a quantity that
is filled hands its checkpoint on to the others, and the first one that is not filled ends the run.
-/

namespace ReinvestingPool.Proofs.QuoteRuns

open Failures Words Directions SignedAmounts TickMaps Pools PriceLimits Runs Quotes QuotedAmounts
open Batches AscendingQuotes QuoteRefusals

/-- The answers to quantities that are quoted from a checkpoint on. -/
inductive Answered (pool : Pool) (trade : Trade) :
    Resume → TickMap TickRecord → List Amount → List Quote → Prop
  | nil {resume : Resume} {records : TickMap TickRecord} : Answered pool trade resume records [] []
  | zero {resume : Resume} {records : TickMap TickRecord} {rest : List Amount}
      {quotes : List Quote} (hlater : Answered pool trade resume records rest quotes) :
      Answered pool trade resume records (0 :: rest) (.none :: quotes)
  | unfilled {resume : Resume} {records : TickMap TickRecord} {quantity : Amount} {a : Filled}
      (rest : List Amount) (hnonzero : quantity ≠ 0)
      (hattempt : attempt pool trade resume records quantity = .ok a)
      (hfruitless : a.outcome.final.Fruitless) :
      Answered pool trade resume records (quantity :: rest) (.none :: rest.map fun _ => .none)
  | filled {resume : Resume} {records : TickMap TickRecord} {quantity : Amount} {a : Filled}
      {output : Word} {rest : List Amount} {quotes : List Quote} (hnonzero : quantity ≠ 0)
      (hattempt : attempt pool trade resume records quantity = .ok a)
      (hfruitful : ¬ a.outcome.final.Fruitless)
      (htold : ∃ used, quantity.subChecked a.outcome.final.remaining = .ok used)
      (houtput : outputOf trade.side a.outcome.final.exchanged = .ok output)
      (hlater : Answered pool trade (some (quantity, a.outcome.checkpoint)) a.outcome.records rest
        quotes) :
      Answered pool trade resume records (quantity :: rest)
        (⟨output, a.outcome.final.ticksCrossed⟩ :: quotes)

variable {pool : Pool} {trade : Trade} {resume : Resume} {records : TickMap TickRecord}
variable {pending : List Amount} {quotes : List Quote} {amounts : List Word} {token : Token}
variable {side : Side}

theorem answered_of_quoteFrom (h : quoteFrom pool trade resume records pending = .ok quotes) :
    Answered pool trade resume records pending quotes := by
  induction pending generalizing resume records quotes with
  | nil =>
    cases h
    exact .nil
  | cons quantity rest ih =>
    rcases quoteFrom_cases h with
      ⟨rfl, later, hlater, rfl⟩ | ⟨hnonzero, entry, outcome, hentry, hrun, hcase⟩
    · exact .zero (ih hlater)
    · have hattempt := attempt_eq_ok.mpr ⟨entry, outcome, hentry, hrun, rfl⟩
      rcases hcase with ⟨hfruitless, rfl⟩ | ⟨hfruitful, htold, output, later, houtput, hlater, rfl⟩
      · exact .unfilled rest hnonzero hattempt hfruitless
      · exact .filled hnonzero hattempt hfruitful htold houtput (ih hlater)

theorem Answered.quoteFrom_eq (h : Answered pool trade resume records pending quotes) :
    quoteFrom pool trade resume records pending = .ok quotes := by
  induction h with
  | nil => rfl
  | zero _ ih =>
    rw [quoteFrom, if_pos rfl, ih]
    rfl
  | unfilled rest hnonzero hattempt hfruitless =>
    rw [quoteFrom_of_nonzero rest hnonzero]
    refine bind_eq_ok.mpr ⟨_, hattempt, ?_⟩
    rw [if_pos hfruitless]
    rfl
  | @filled _ _ _ _ _ rest _ hnonzero hattempt hfruitful htold houtput _ ih =>
    obtain ⟨used, hused⟩ := htold
    rw [quoteFrom_of_nonzero rest hnonzero]
    refine bind_eq_ok.mpr ⟨_, hattempt, ?_⟩
    rw [if_neg hfruitful]
    refine bind_eq_ok.mpr ⟨used, liftArithmetic_eq_ok.mpr hused, ?_⟩
    exact bind_eq_ok.mpr ⟨_, mapError_eq_ok.mpr houtput, bind_eq_ok.mpr ⟨_, ih, rfl⟩⟩

theorem quoteFrom_eq_ok :
    quoteFrom pool trade resume records pending = .ok quotes ↔
      Answered pool trade resume records pending quotes :=
  ⟨answered_of_quoteFrom, Answered.quoteFrom_eq⟩

/-- A quote answers the quantities of a valid pool in turn. It needs room to the bound unless all of
them are zero. -/
theorem quote_eq_ok_iff :
    quote pool amounts token side = .ok quotes ↔
      pool.validate = .ok () ∧ ∃ pending, quantities side amounts = .ok pending ∧
        ((∃ a ∈ pending, a ≠ 0) →
          LimitAhead (travel side token) pool.sqrtPrice (furthestLimit (travel side token))) ∧
        Answered pool (batchTrade pool token side) none pool.records pending quotes := by
  constructor
  · intro h
    obtain ⟨pending, hpending, hquotes⟩ := quote_eq_ok h
    obtain ⟨⟨⟩, hvalid, h⟩ := bind_eq_ok.mp h
    obtain ⟨others, hothers, h⟩ := bind_eq_ok.mp h
    obtain rfl := Except.ok.inj ((mapError_eq_ok.mp hothers).symm.trans hpending)
    refine ⟨liftPool_eq_ok.mp hvalid, others, hpending, ?_, quoteFrom_eq_ok.mp hquotes⟩
    rintro ⟨a, ha, hnonzero⟩
    rw [if_neg (by simpa using ⟨a, ha, hnonzero⟩)] at h
    obtain ⟨trade, htrade, -⟩ := bind_eq_ok.mp h
    exact (tradeOn_batch_eq_ok.mp (mapError_eq_ok.mp htrade)).1
  · rintro ⟨hvalid, pending, hpending, hahead, hanswered⟩
    refine bind_eq_ok.mpr ⟨(), liftPool_eq_ok.mpr hvalid, ?_⟩
    refine bind_eq_ok.mpr ⟨pending, mapError_eq_ok.mpr hpending, ?_⟩
    have hquotes := hanswered.quoteFrom_eq
    split
    · rename_i hall
      have hzeros : ∀ a ∈ pending, a = 0 := by simpa using hall
      obtain ⟨hnamed, -⟩ := quantitiesFrom_eq_ok hpending
      rw [quoteFrom_of_zeros _ _ _ _ hzeros, List.map_const', ← hnamed.length_eq] at hquotes
      rw [List.map_const']
      exact hquotes
    · rename_i hsome
      have hsome : ∃ a ∈ pending, a ≠ 0 := by simpa using hsome
      refine bind_eq_ok.mpr ⟨_, mapError_eq_ok.mpr ?_, hquotes⟩
      exact tradeOn_batch_eq_ok.mpr ⟨hahead hsome, rfl⟩

end ReinvestingPool.Proofs.QuoteRuns
