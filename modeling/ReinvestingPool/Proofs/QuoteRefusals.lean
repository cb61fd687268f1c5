import ReinvestingPool.Proofs.AscendingQuotes
import ReinvestingPool.Proofs.RunFailures

/-!
Where a quote is refused for a sign. Neither its amounts nor their runs are refused for one, and
what was used of an amount can always be told, so this happens only where something is filled whose
worth is no output: it is less than nothing, or more than an amount can be.
-/

namespace ReinvestingPool.Proofs.QuoteRefusals

open Failures Words Directions SignedAmounts TickMaps Pools PriceLimits Runs Simulations Quotes
open QuotedAmounts Batches StepExchanges AscendingQuotes RunFailures

/-- What a quantity is worth can be answered as an output. -/
def Answerable (trade : Trade) (a : Filled) : Prop :=
  0 ≤ a.worth trade ∧ a.worth trade < 2 ^ 255

instance (trade : Trade) (a : Filled) : Decidable (Answerable trade a) := by
  unfold Answerable
  infer_instance

variable {pool : Pool} {trade : Trade} {resume : Resume} {records : TickMap TickRecord}
variable {quantity : Amount} {pending : List Amount} {a : Filled} {amounts : List Word}
variable {token : Token} {side : Side}

theorem outputOf_eq_error {exchanged : Amount} {refusal : TradeFailure} :
    outputOf side exchanged = .error refusal ↔
      refusal = .unexpectedSign ∧ ¬ (0 ≤ leg side exchanged.toInt ∧
        leg side exchanged.toInt < 2 ^ 255) := by
  have hleg : outputOf side exchanged =
      if 0 ≤ leg side exchanged.toInt ∧ leg side exchanged.toInt < 2 ^ 255 then
        .ok (BitVec.ofInt 256 (leg side exchanged.toInt))
      else .error .unexpectedSign := by
    cases side with
    | sell => rfl
    | buy => rfl
  rw [hleg]
  split
  · rename_i hinside
    exact iff_of_false nofun fun h => h.2 hinside
  · rename_i houtside
    rw [Except.error.injEq]
    exact ⟨fun h => ⟨h.symm, houtside⟩, fun h => h.1.symm⟩

/-- A quantity that cannot be run is not refused for its sign. -/
theorem attempt_not_unexpected :
    attempt pool trade resume records quantity ≠ .error (.trade .unexpectedSign) := by
  intro h
  rcases bind_eq_error.mp h with hentry | ⟨entry, -, h⟩
  · cases resume with
    | none =>
      obtain ⟨cause, -, hcause⟩ := liftPool_eq_error.mp hentry
      cases hcause
    | some pair =>
      obtain ⟨last, checkpoint⟩ := pair
      rcases bind_eq_error.mp hentry with hused | ⟨used, -, hentry⟩
      · obtain ⟨cause, -, hcause⟩ := liftArithmetic_eq_error.mp hused
        cases hcause
      · rcases bind_eq_error.mp hentry with hleft | ⟨left, -, hentry⟩
        · obtain ⟨cause, -, hcause⟩ := liftArithmetic_eq_error.mp hleft
          cases hcause
        · cases hentry
  · rcases bind_eq_error.mp h with hrun | ⟨outcome, -, h⟩
    · cases refusal_of_runFrom hrun
    · cases h

/-- A quantity that is not zero is run, answered and followed by the others. -/
theorem quoteFrom_of_nonzero (rest : List Amount) (hnonzero : quantity ≠ 0) :
    quoteFrom pool trade resume records (quantity :: rest) =
      (do
        let a ← attempt pool trade resume records quantity
        if a.outcome.final.Fruitless then
          return .none :: rest.map fun _ => .none
        else
          let _ ← liftArithmetic (quantity.subChecked a.outcome.final.remaining)
          let output ← (outputOf trade.side a.outcome.final.exchanged).mapError .trade
          let quotes ← quoteFrom pool trade (some (quantity, a.outcome.checkpoint))
            a.outcome.records rest
          return ⟨output, a.outcome.final.ticksCrossed⟩ :: quotes) := by
  rw [quoteFrom, if_neg hnonzero]
  simp only [attempt, bind_assoc, pure_bind]

theorem answer_refused_iff :
    (outputOf trade.side a.outcome.final.exchanged).mapError Failure.trade =
      .error (.trade .unexpectedSign) ↔ ¬ Answerable trade a := by
  rw [mapError_eq_error]
  constructor
  · intro h
    obtain ⟨cause, hcause, -⟩ := h
    exact (outputOf_eq_error.mp hcause).2
  · intro h
    exact ⟨.unexpectedSign, outputOf_eq_error.mpr ⟨rfl, h⟩, rfl⟩

theorem exists_answer (h : Answerable trade a) :
    ∃ output, outputOf trade.side a.outcome.final.exchanged = .ok output := by
  cases houtput : outputOf trade.side a.outcome.final.exchanged with
  | ok output => exact ⟨output, rfl⟩
  | error refusal => exact absurd h (outputOf_eq_error.mp houtput).2

theorem quoteFrom_unexpected_of_nonzero (rest : List Amount) (hnonzero : quantity ≠ 0)
    (htold : ∀ a, attempt pool trade resume records quantity = .ok a →
      ¬ a.outcome.final.Fruitless →
      ∃ used, quantity.subChecked a.outcome.final.remaining = .ok used) :
    quoteFrom pool trade resume records (quantity :: rest) = .error (.trade .unexpectedSign) ↔
      ∃ a, attempt pool trade resume records quantity = .ok a ∧ ¬ a.outcome.final.Fruitless ∧
        (¬ Answerable trade a ∨ quoteFrom pool trade (some (quantity, a.outcome.checkpoint))
          a.outcome.records rest = .error (.trade .unexpectedSign)) := by
  rw [quoteFrom_of_nonzero rest hnonzero, bind_eq_error, or_iff_right attempt_not_unexpected]
  refine exists_congr fun a => and_congr_right fun hattempt => ?_
  by_cases hfruitless : a.outcome.final.Fruitless
  · rw [if_pos hfruitless]
    exact iff_of_false nofun fun h => h.1 hfruitless
  obtain ⟨used, hused⟩ := htold a hattempt hfruitless
  rw [if_neg hfruitless, and_iff_right hfruitless]
  constructor
  · intro h
    rcases bind_eq_error.mp h with huntold | ⟨-, -, h⟩
    · rw [hused] at huntold
      cases huntold
    rcases bind_eq_error.mp h with hfirst | ⟨output, -, h⟩
    · exact Or.inl (answer_refused_iff.mp hfirst)
    · rcases bind_eq_error.mp h with hlater | ⟨quotes, -, h⟩
      · exact Or.inr hlater
      · cases h
  · intro h
    refine bind_eq_error.mpr (Or.inr ⟨used, liftArithmetic_eq_ok.mpr hused, ?_⟩)
    by_cases hfirst : Answerable trade a
    · obtain ⟨output, houtput⟩ := exists_answer hfirst
      refine bind_eq_error.mpr (Or.inr ⟨output, mapError_eq_ok.mpr houtput, ?_⟩)
      exact bind_eq_error.mpr (Or.inl (h.resolve_left (not_not.mpr hfirst)))
    · exact bind_eq_error.mpr (Or.inl (answer_refused_iff.mpr hfirst))

theorem not_exists_nil : ¬ ∃ a ∈ ([] : List Filled), ¬ Answerable trade a := by
  simp

/-- Quoting is refused for a sign exactly where something that is filled cannot be answered, as long
as it can be told what was used. -/
theorem quoteFrom_unexpected_iff
    (htold : ∀ a ∈ fillsFrom pool trade resume records pending,
      ∃ used, a.quantity.subChecked a.outcome.final.remaining = .ok used) :
    quoteFrom pool trade resume records pending = .error (.trade .unexpectedSign) ↔
      ∃ a ∈ fillsFrom pool trade resume records pending, ¬ Answerable trade a := by
  induction pending generalizing resume records with
  | nil => exact iff_of_false nofun not_exists_nil
  | cons head rest ih =>
    by_cases hzero : head = 0
    · rw [fillsFrom_of_zero rest hzero] at htold ⊢
      rw [← ih htold, quoteFrom, if_pos hzero]
      constructor
      · intro h
        rcases bind_eq_error.mp h with hlater | ⟨later, -, h⟩
        · exact hlater
        · cases h
      · intro h
        exact bind_eq_error.mpr (Or.inl h)
    have hhead : ∀ a, attempt pool trade resume records head = .ok a →
        ¬ a.outcome.final.Fruitless →
        ∃ used, head.subChecked a.outcome.final.remaining = .ok used := by
      intro a hattempt hfruitful
      rw [fillsFrom_of_fruitful rest hzero hattempt hfruitful] at htold
      rw [← quantity_of_attempt hattempt]
      exact htold a (.head _)
    have hlater : ∀ a, attempt pool trade resume records head = .ok a →
        ¬ a.outcome.final.Fruitless →
        (quoteFrom pool trade (some (head, a.outcome.checkpoint)) a.outcome.records rest =
            .error (.trade .unexpectedSign) ↔
          ∃ b ∈ fillsFrom pool trade (some (head, a.outcome.checkpoint)) a.outcome.records rest,
            ¬ Answerable trade b) := by
      intro a hattempt hfruitful
      rw [fillsFrom_of_fruitful rest hzero hattempt hfruitful] at htold
      exact ih fun b hb => htold b (.tail _ hb)
    rw [quoteFrom_unexpected_of_nonzero rest hzero hhead]
    constructor
    · intro h
      obtain ⟨a, hattempt, hfruitful, hcase⟩ := h
      rw [fillsFrom_of_fruitful rest hzero hattempt hfruitful, List.exists_mem_cons_iff]
      exact hcase.imp_right (hlater a hattempt hfruitful).mp
    · intro h
      rcases fillsFrom_cases pool trade resume records head rest with
        ⟨hsame, -⟩ | ⟨-, hnone | ⟨a, hattempt, hfruitful, hcons⟩⟩
      · exact absurd hsame hzero
      · rw [hnone] at h
        exact absurd h not_exists_nil
      · rw [hcons, List.exists_mem_cons_iff] at h
        exact ⟨a, hattempt, hfruitful, h.imp_right (hlater a hattempt hfruitful).mpr⟩

theorem quantities_not_unexpected {position : Nat} {largest : Word} :
    quantitiesFrom side position largest amounts ≠ .error .unexpectedSign := by
  induction amounts generalizing position largest with
  | nil => exact nofun
  | cons amount rest ih =>
    intro h
    unfold quantitiesFrom at h
    split at h
    · rcases bind_eq_error.mp h with hlater | ⟨later, -, h⟩
      · exact ih hlater
      · cases h
    · split at h
      · cases h
      · split at h
        · cases h
        · rcases bind_eq_error.mp h with hlater | ⟨later, -, h⟩
          · exact ih hlater
          · cases h

/-- Of every amount that a quote fills it can be told what was used. -/
theorem told_of_quantities (pool : Pool) (token : Token)
    (h : quantities side amounts = .ok pending) :
    ∀ a ∈ fillsFrom pool (batchTrade pool token side) none pool.records pending,
      ∃ used, a.quantity.subChecked a.outcome.final.remaining = .ok used := by
  intro a ha
  obtain ⟨hside, hascending⟩ := ordered_of_quantities h
  have hfills : Fills (batchTrade pool token side) pool.index a :=
    fills_of_mem_fillsFrom hside hascending ha
  exact hfills.exists_used

/-- A quote is refused for a sign exactly where a valid pool with room to its bound fills something
that cannot be answered. -/
theorem quote_unexpected_iff :
    quote pool amounts token side = .error (.trade .unexpectedSign) ↔
      pool.validate = .ok () ∧
        LimitAhead (travel side token) pool.sqrtPrice (furthestLimit (travel side token)) ∧
        ∃ a ∈ fills pool amounts token side, ¬ Answerable (batchTrade pool token side) a := by
  constructor
  · intro h
    rcases bind_eq_error.mp h with hinvalid | ⟨⟨⟩, hvalid, h⟩
    · obtain ⟨cause, -, hcause⟩ := liftPool_eq_error.mp hinvalid
      cases hcause
    rcases bind_eq_error.mp h with hrefused | ⟨pending, hpending, h⟩
    · obtain ⟨cause, hcause, hsame⟩ := mapError_eq_error.mp hrefused
      cases hsame
      exact absurd hcause quantities_not_unexpected
    split at h
    · cases h
    rcases bind_eq_error.mp h with hrefused | ⟨trade, htrade, h⟩
    · obtain ⟨cause, hcause, hsame⟩ := mapError_eq_error.mp hrefused
      cases hsame
      cases tradeOn_eq_error hcause
    obtain ⟨hahead, rfl⟩ := tradeOn_batch_eq_ok.mp (mapError_eq_ok.mp htrade)
    rw [fills_eq (mapError_eq_ok.mp hpending)]
    have htold := told_of_quantities pool token (mapError_eq_ok.mp hpending)
    exact ⟨liftPool_eq_ok.mp hvalid, hahead, (quoteFrom_unexpected_iff htold).mp h⟩
  · intro h
    obtain ⟨hvalid, hahead, hfilled⟩ := h
    cases hpending : quantities side amounts with
    | error cause =>
      unfold fills at hfilled
      rw [hpending] at hfilled
      exact absurd hfilled not_exists_nil
    | ok pending =>
      rw [fills_eq hpending] at hfilled
      have htold := told_of_quantities pool token hpending
      have hrefused := (quoteFrom_unexpected_iff htold).mpr hfilled
      have hsome : ¬ pending.all (· = 0) = true := by
        intro hall
        have hzeros : ∀ a ∈ pending, a = 0 := fun a ha =>
          of_decide_eq_true (List.all_eq_true.mp hall a ha)
        rw [quoteFrom_of_zeros _ _ _ _ hzeros] at hrefused
        cases hrefused
      refine bind_eq_error.mpr (Or.inr ⟨(), liftPool_eq_ok.mpr hvalid, ?_⟩)
      refine bind_eq_error.mpr (Or.inr ⟨pending, mapError_eq_ok.mpr hpending, ?_⟩)
      rw [if_neg hsome]
      have htrade := tradeOn_batch_eq_ok.mpr ⟨hahead, rfl⟩
      exact bind_eq_error.mpr (Or.inr ⟨_, mapError_eq_ok.mpr htrade, hrefused⟩)

end ReinvestingPool.Proofs.QuoteRefusals
