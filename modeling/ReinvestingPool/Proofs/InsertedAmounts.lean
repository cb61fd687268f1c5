import ReinvestingPool.Proofs.QuoteRuns

/-!
Quotes of longer lists. A zero may stand anywhere, and an amount may be asked for twice in a row:
the second run goes on from the checkpoint of the first, makes its last step once more and leaves
the same checkpoint behind. The answers to the other amounts stay the same.
-/

namespace ReinvestingPool.Proofs.InsertedAmounts

open Failures Words Directions SignedAmounts TickMaps TickIndexes Pools PriceLimits Runs
open Simulations Quotes LargerAmounts Histories QuotedAmounts Resumptions Batches
open AscendingQuotes QuoteRuns

variable {pool : Pool} {trade : Trade} {resume : Resume} {records : TickMap TickRecord}
variable {amounts : List Word} {pending : List Amount} {quotes : List Quote} {amount largest : Word}
variable {quantity : Amount} {a : Filled} {token : Token} {side : Side} {i position : Nat}

section Quantities

/-- The largest amount so far, once another one is accepted. -/
def largestWith (largest amount : Word) : Word := if amount = 0 then largest else amount

theorem largestWith_twice (largest amount : Word) :
    largestWith (largestWith largest amount) amount = largestWith largest amount := by
  unfold largestWith
  split
  · rfl
  · rfl

theorem standsFor_again (h : StandsFor side largest amount quantity) :
    StandsFor side (largestWith largest amount) amount quantity := by
  rcases h with hzero | ⟨hnonzero, -, hsigned⟩
  · exact Or.inl hzero
  · refine Or.inr ⟨hnonzero, ?_, hsigned⟩
    rw [largestWith, if_neg hnonzero]
    exact BitVec.le_refl amount

theorem quantitiesFrom_cons_eq_ok {rest : List Word} :
    quantitiesFrom side position largest (amount :: rest) = .ok pending ↔
      ∃ quantity later, StandsFor side largest amount quantity ∧
        quantitiesFrom side (position + 1) (largestWith largest amount) rest = .ok later ∧
        pending = quantity :: later := by
  unfold largestWith
  constructor
  · intro h
    unfold quantitiesFrom at h
    split at h
    · rename_i hzero
      obtain ⟨later, hlater, h⟩ := bind_eq_ok.mp h
      cases h
      exact ⟨0, later, Or.inl ⟨hzero, rfl⟩, by rwa [if_pos hzero], rfl⟩
    · rename_i hnonzero
      split at h
      · cases h
      · rename_i hlarger
        split at h
        · cases h
        · rename_i quantity hsigned
          obtain ⟨later, hlater, h⟩ := bind_eq_ok.mp h
          cases h
          exact ⟨quantity, later, Or.inr ⟨hnonzero, BitVec.not_lt.mp hlarger, hsigned⟩,
            by rwa [if_neg hnonzero], rfl⟩
  · rintro ⟨quantity, later, ⟨hzero, rfl⟩ | ⟨hnonzero, hlarger, hsigned⟩, hlater, rfl⟩
    · rw [if_pos hzero] at hlater
      rw [quantitiesFrom, if_pos hzero, hlater]
      rfl
    · rw [if_neg hnonzero] at hlater
      rw [quantitiesFrom, if_neg hnonzero, if_neg (BitVec.not_lt.mpr hlarger), hsigned]
      exact bind_eq_ok.mpr ⟨later, hlater, rfl⟩

/-- The quantities of amounts do not depend on their positions. -/
theorem quantitiesFrom_elsewhere (other : Nat)
    (h : quantitiesFrom side position largest amounts = .ok pending) :
    quantitiesFrom side other largest amounts = .ok pending := by
  induction amounts generalizing position other largest pending with
  | nil => exact h
  | cons amount rest ih =>
    obtain ⟨quantity, later, hstands, hlater, hpending⟩ := quantitiesFrom_cons_eq_ok.mp h
    exact quantitiesFrom_cons_eq_ok.mpr ⟨quantity, later, hstands, ih _ hlater, hpending⟩

theorem quantitiesFrom_insert_zero (i : Nat)
    (h : quantitiesFrom side position largest amounts = .ok pending) :
    quantitiesFrom side position largest (amounts.insertIdx i 0) =
      .ok (pending.insertIdx i 0) := by
  induction i generalizing position largest amounts pending with
  | zero =>
    exact quantitiesFrom_cons_eq_ok.mpr
      ⟨0, pending, Or.inl ⟨rfl, rfl⟩, quantitiesFrom_elsewhere _ h, rfl⟩
  | succ i ih =>
    cases amounts with
    | nil =>
      cases h
      rfl
    | cons amount rest =>
      obtain ⟨quantity, later, hstands, hlater, rfl⟩ := quantitiesFrom_cons_eq_ok.mp h
      exact quantitiesFrom_cons_eq_ok.mpr ⟨quantity, _, hstands, ih hlater, rfl⟩

theorem quantitiesFrom_insert_copy (hamount : amounts[i]? = some amount)
    (h : quantitiesFrom side position largest amounts = .ok pending) :
    ∃ quantity, pending[i]? = some quantity ∧
      quantitiesFrom side position largest (amounts.insertIdx (i + 1) amount) =
        .ok (pending.insertIdx (i + 1) quantity) := by
  induction amounts generalizing i position largest pending with
  | nil => cases hamount
  | cons first rest ih =>
    obtain ⟨quantity, later, hstands, hlater, rfl⟩ := quantitiesFrom_cons_eq_ok.mp h
    cases i with
    | zero =>
      obtain rfl := Option.some.inj hamount
      refine ⟨quantity, rfl, quantitiesFrom_cons_eq_ok.mpr ⟨quantity, _, hstands, ?_, rfl⟩⟩
      refine quantitiesFrom_cons_eq_ok.mpr ⟨quantity, later, standsFor_again hstands, ?_, rfl⟩
      rw [largestWith_twice]
      exact quantitiesFrom_elsewhere _ hlater
    | succ i =>
      obtain ⟨copied, hcopied, hmore⟩ := ih hamount hlater
      exact ⟨copied, hcopied, quantitiesFrom_cons_eq_ok.mpr ⟨quantity, _, hstands, hmore, rfl⟩⟩

end Quantities

section Answers

theorem answered_insert_zero (i : Nat)
    (h : Answered pool trade resume records pending quotes) :
    Answered pool trade resume records (pending.insertIdx i 0) (quotes.insertIdx i .none) := by
  induction h generalizing i with
  | nil =>
    cases i with
    | zero => exact .zero .nil
    | succ i => exact .nil
  | zero hlater ih =>
    cases i with
    | zero => exact .zero (.zero hlater)
    | succ i => exact .zero (ih i)
  | unfilled rest hnonzero hattempt hfruitless =>
    cases i with
    | zero => exact .zero (.unfilled rest hnonzero hattempt hfruitless)
    | succ i =>
      rw [List.insertIdx_succ_cons, List.insertIdx_succ_cons, ← List.map_insertIdx]
      exact .unfilled _ hnonzero hattempt hfruitless
  | filled hnonzero hattempt hfruitful htold houtput hlater ih =>
    cases i with
    | zero => exact .zero (.filled hnonzero hattempt hfruitful htold houtput hlater)
    | succ i => exact .filled hnonzero hattempt hfruitful htold houtput (ih i)

/-- The quantities are those of a trade, and no smaller than the one whose run has left the
checkpoint and the records. -/
inductive TakenUp (trade : Trade) (index : TickIndex) :
    Resume → TickMap TickRecord → List Amount → Prop
  | first {records : TickMap TickRecord} {pending : List Amount}
      (hside : ∀ b ∈ pending, b ≠ 0 → PartOf trade.side b b) :
      TakenUp trade index none records pending
  | resumed {a : Filled} {pending : List Amount} (hfills : Fills trade index a)
      (hlarger : ∀ b ∈ pending, b ≠ 0 → PartOf trade.side a.quantity b) :
      TakenUp trade index (some (a.quantity, a.outcome.checkpoint)) a.outcome.records pending

theorem TakenUp.later {rest : List Amount}
    (h : TakenUp trade index resume records (quantity :: rest)) :
    TakenUp trade index resume records rest := by
  cases h with
  | first hside => exact .first fun b hb => hside b (.tail _ hb)
  | resumed hfills hlarger => exact .resumed hfills fun b hb => hlarger b (.tail _ hb)

theorem TakenUp.fills {rest : List Amount}
    (h : TakenUp trade pool.index resume records (quantity :: rest)) (hnonzero : quantity ≠ 0)
    (hattempt : attempt pool trade resume records quantity = .ok a)
    (hfruitful : ¬ a.outcome.final.Fruitless) :
    Fills trade pool.index a ∧ a.quantity = quantity := by
  cases h with
  | first hside => exact fills_of_entered (hside quantity (.head _) hnonzero) hattempt hfruitful
  | resumed hfills hlarger =>
    obtain ⟨hfollows, hquantity⟩ :=
      follows_of_resumed hfills (hlarger quantity (.head _) hnonzero) hattempt hfruitful
    exact ⟨hfollows.after, hquantity⟩

/-- The run of a quantity that is asked for again starts at the checkpoint and ends as before. -/
theorem attempt_again (h : Fills trade pool.index a) :
    attempt pool trade (some (a.quantity, a.outcome.checkpoint)) a.outcome.records a.quantity =
      .ok ⟨a.quantity, a.outcome.checkpoint, a.outcome.records, a.outcome⟩ := by
  obtain ⟨used, hused⟩ := exists_used h.left_checkpoint
  have hvalue := Signed.subChecked_eq_ok.mp hused
  have hleft : a.quantity.subChecked used = .ok a.outcome.checkpoint.remaining :=
    Signed.subChecked_eq_ok.mpr (by omega)
  refine attempt_eq_ok.mpr ⟨a.outcome.checkpoint, a.outcome, ?_, (simulate_checkpoint h.run).1, rfl⟩
  exact bind_eq_ok.mpr ⟨used, liftArithmetic_eq_ok.mpr hused,
    bind_eq_ok.mpr ⟨_, liftArithmetic_eq_ok.mpr hleft, rfl⟩⟩

/-- The answer to a quantity may be given twice in a row. -/
theorem answered_insert_copy (h : Answered pool trade resume records pending quotes)
    (htaken : TakenUp trade pool.index resume records pending)
    (hascending : Ascending trade.side pending) (hquantity : pending[i]? = some quantity) :
    ∃ quoted, quotes[i]? = some quoted ∧
      Answered pool trade resume records (pending.insertIdx (i + 1) quantity)
        (quotes.insertIdx (i + 1) quoted) := by
  induction h generalizing i with
  | nil => cases hquantity
  | zero hlater ih =>
    cases i with
    | zero =>
      obtain rfl := Option.some.inj hquantity
      exact ⟨.none, rfl, .zero (.zero hlater)⟩
    | succ i =>
      obtain ⟨-, hrest⟩ := List.pairwise_cons.mp hascending
      obtain ⟨quoted, hquoted, hcopy⟩ := ih htaken.later hrest hquantity
      exact ⟨quoted, hquoted, .zero hcopy⟩
  | @unfilled _ _ first _ rest hnonzero hattempt hfruitless =>
    have hquoted : ((first :: rest).map fun _ => Quote.none)[i]? = some .none := by
      rw [List.getElem?_map, hquantity]
      rfl
    refine ⟨.none, hquoted, ?_⟩
    rw [List.insertIdx_succ_cons, List.insertIdx_succ_cons, ← List.map_insertIdx]
    exact .unfilled _ hnonzero hattempt hfruitless
  | filled hnonzero hattempt hfruitful htold houtput hlater ih =>
    obtain ⟨hfills, rfl⟩ := htaken.fills hnonzero hattempt hfruitful
    cases i with
    | zero =>
      obtain rfl := Option.some.inj hquantity
      have hcopy := Answered.filled hnonzero (attempt_again hfills) hfruitful htold houtput hlater
      exact ⟨_, rfl, .filled hnonzero hattempt hfruitful htold houtput hcopy⟩
    | succ i =>
      obtain ⟨hhead, hrest⟩ := List.pairwise_cons.mp hascending
      have hnext := TakenUp.resumed hfills fun b hb => hhead b hb hnonzero
      obtain ⟨quoted, hquoted, hcopy⟩ := ih hnext hrest hquantity
      exact ⟨quoted, hquoted, .filled hnonzero hattempt hfruitful htold houtput hcopy⟩

end Answers

/-- A zero that is inserted is not filled, and a copy right after an amount is answered like it. The
other answers stay the same. -/
theorem quote_inserted (h : quote pool amounts token side = .ok quotes) :
    (∀ i, quote pool (amounts.insertIdx i 0) token side = .ok (quotes.insertIdx i .none)) ∧
      ∀ i amount, amounts[i]? = some amount → ∃ quoted, quotes[i]? = some quoted ∧
        quote pool (amounts.insertIdx (i + 1) amount) token side =
          .ok (quotes.insertIdx (i + 1) quoted) := by
  obtain ⟨hvalid, pending, hpending, hahead, hanswered⟩ := quote_eq_ok_iff.mp h
  constructor
  · intro i
    refine quote_eq_ok_iff.mpr ⟨hvalid, _, quantitiesFrom_insert_zero i hpending, ?_,
      answered_insert_zero i hanswered⟩
    rintro ⟨b, hb, hnonzero⟩
    rcases List.eq_or_mem_of_mem_insertIdx hb with hzero | hamong
    · exact absurd hzero hnonzero
    · exact hahead ⟨b, hamong, hnonzero⟩
  · intro i amount hamount
    obtain ⟨hside, hascending⟩ := ordered_of_quantities hpending
    obtain ⟨quantity, hquantity, hcopied⟩ := quantitiesFrom_insert_copy hamount hpending
    obtain ⟨quoted, hquoted, hcopy⟩ :=
      answered_insert_copy hanswered (.first hside) hascending hquantity
    refine ⟨quoted, hquoted, quote_eq_ok_iff.mpr ⟨hvalid, _, hcopied, ?_, hcopy⟩⟩
    rintro ⟨b, hb, hnonzero⟩
    rcases List.eq_or_mem_of_mem_insertIdx hb with rfl | hamong
    · exact hahead ⟨b, List.mem_of_getElem? hquantity, hnonzero⟩
    · exact hahead ⟨b, hamong, hnonzero⟩

/-- The second of two sales leaves a position. A third one meets the lowest price, and is answered
alike before and after a copy of it. -/
theorem quote_inserted_limited_sale :
    ∃ start pool quotes, Pool.create 1000 4305879456 = .ok start ∧
      replay start [.deposit (-887240) (-887200) (2 ^ 100),
        .deposit (-887260) (-887200) (2 ^ 100)] = .ok pool ∧
      quote pool [2 ^ 153, 2 ^ 155, 2 ^ 156] .zero .sell = .ok quotes ∧
      quotes = [⟨33379703, 0⟩, ⟨133420312, 1⟩, .none] ∧
      quote pool [2 ^ 153, 0, 2 ^ 155, 2 ^ 156] .zero .sell =
        .ok [⟨33379703, 0⟩, .none, ⟨133420312, 1⟩, .none] ∧
      quote pool [2 ^ 153, 2 ^ 155, 2 ^ 155, 2 ^ 156] .zero .sell =
        .ok [⟨33379703, 0⟩, ⟨133420312, 1⟩, ⟨133420312, 1⟩, .none] := by
  have hrun : (do
      let start ← liftPool (Pool.create 1000 4305879456)
      let pool ← replay start [.deposit (-887240) (-887200) (2 ^ 100),
        .deposit (-887260) (-887200) (2 ^ 100)]
      let quotes ← quote pool [2 ^ 153, 2 ^ 155, 2 ^ 156] .zero .sell
      return decide (quotes = [⟨33379703, 0⟩, ⟨133420312, 1⟩, .none])) = Except.ok true := by
    decide +kernel
  obtain ⟨start, hstart, hrun⟩ := bind_eq_ok.mp hrun
  obtain ⟨pool, hpool, hrun⟩ := bind_eq_ok.mp hrun
  obtain ⟨quotes, hquotes, hrun⟩ := bind_eq_ok.mp hrun
  have hanswers := of_decide_eq_true (Except.ok.inj hrun)
  subst hanswers
  obtain ⟨hzero, hcopy⟩ := quote_inserted hquotes
  obtain ⟨quoted, hquoted, hcopied⟩ := hcopy 1 (2 ^ 155) rfl
  obtain rfl := Option.some.inj hquoted
  exact ⟨start, pool, _, liftPool_eq_ok.mp hstart, hpool, hquotes, rfl, hzero 1, hcopied⟩

end ReinvestingPool.Proofs.InsertedAmounts
