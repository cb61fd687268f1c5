import ReinvestingPool.Proofs.QuoteRuns
import ReinvestingPool.Proofs.RunCrossings

/-!
The shape of a quote. Every amount has an answer. Up to some position all amounts but zeros are
filled, each one crossing no fewer ticks than those before it, and from there on none is filled.
-/

namespace ReinvestingPool.Proofs.FilledPrefixes

open Failures Words Directions SignedAmounts TickMaps TickIndexes Pools Runs Simulations Quotes
open Paths StepFrames RunCrossings Histories QuotedAmounts Resumptions AscendingQuotes QuoteRuns

/-- The amounts before position `k` are filled, zeros apart, and none from there on is. -/
structure FilledUpTo (k : Nat) (amounts : List Word) (quotes : List Quote) : Prop where
  length : quotes.length = amounts.length
  zeros : ∀ e ∈ amounts.zip quotes, e.1 = 0 → e.2 = .none
  positive : ∀ e ∈ (amounts.zip quotes).take k, e.1 ≠ 0 → 0 < e.2.output
  unfilled : ∀ e ∈ (amounts.zip quotes).drop k, e.2 = .none
  counts : ((amounts.zip quotes).take k).Pairwise fun a b =>
    a.1 ≠ 0 → b.1 ≠ 0 → a.2.ticksCrossed ≤ b.2.ticksCrossed

/-- The nonzero amounts before position `k` cross at least so many ticks. -/
def AtLeast (least k : Nat) (amounts : List Word) (quotes : List Quote) : Prop :=
  ∀ e ∈ (amounts.zip quotes).take k, e.1 ≠ 0 → least ≤ e.2.ticksCrossed

/-- The ticks that have been crossed up to a checkpoint. -/
def crossedBefore : Resume → Nat
  | none => 0
  | some (_, checkpoint) => checkpoint.ticksCrossed

variable {trade : Trade} {index : TickIndex} {p q : Point} {pool : Pool} {resume : Resume}
variable {records : TickMap TickRecord} {quantity last : Amount} {checkpoint entry : RunState}
variable {a : Filled} {amounts : List Word} {pending : List Amount} {quotes : List Quote}
variable {amount : Word} {quoted : Quote} {least k : Nat} {token : Token} {side : Side}

section Counts

theorem ticksCrossed_of_moves (h : Moves trade index p q) :
    p.1.ticksCrossed ≤ q.1.ticksCrossed := by
  cases h with
  | glide _ h => exact Nat.le_of_eq (sameRange_of_glide h).ticksCrossed.symm
  | cross _ h =>
    obtain ⟨record, hcrosses⟩ := exists_crosses h
    rw [hcrosses.count]
    exact Nat.le_succ _

theorem ticksCrossed_of_reaches (h : Reaches trade index p q) :
    p.1.ticksCrossed ≤ q.1.ticksCrossed := by
  induction h with
  | refl => exact Nat.le_refl _
  | tail _ hmoves ih => exact Nat.le_trans ih (ticksCrossed_of_moves hmoves)

theorem ticksCrossed_of_entryState {direction : Direction}
    (h : entryState pool direction quantity (some (last, checkpoint)) = .ok entry) :
    entry.ticksCrossed = checkpoint.ticksCrossed := by
  obtain ⟨used, -, h⟩ := bind_eq_ok.mp h
  obtain ⟨remaining, -, h⟩ := bind_eq_ok.mp h
  cases h
  rfl

/-- A quantity crosses the ticks of the one from whose checkpoint it goes on, and hands its own
count on. -/
theorem ticksCrossed_of_attempt (h : attempt pool trade resume records quantity = .ok a) :
    a.outcome.checkpoint.ticksCrossed = a.outcome.final.ticksCrossed ∧
      crossedBefore resume ≤ a.outcome.final.ticksCrossed := by
  obtain ⟨entry, outcome, hentry, hrun, rfl⟩ := attempt_eq_ok.mp h
  have hkept := (simulate_checkpoint hrun).2.ticksCrossed
  refine ⟨hkept.symm, ?_⟩
  cases resume with
  | none => exact Nat.zero_le _
  | some handed =>
    have hgrows : entry.ticksCrossed ≤ outcome.checkpoint.ticksCrossed :=
      ticksCrossed_of_reaches (path_of_simulate hrun).1
    rw [ticksCrossed_of_entryState hentry] at hgrows
    exact Nat.le_trans hgrows (Nat.le_of_eq hkept.symm)

end Counts

theorem filledUpTo_of_none (amounts : List Word) :
    FilledUpTo 0 amounts (amounts.map fun _ => .none) := by
  have hnone : ∀ e ∈ amounts.zip (amounts.map fun _ => Quote.none), e.2 = .none := by
    intro e he
    have hquoted := (List.of_mem_zip he).2
    simp only [List.mem_map] at hquoted
    obtain ⟨-, -, hsame⟩ := hquoted
    exact hsame.symm
  exact ⟨by simp, fun e he _ => hnone e he, by simp, by simpa using hnone, by simp⟩

theorem FilledUpTo.cons_zero (h : FilledUpTo k amounts quotes) :
    FilledUpTo (k + 1) (0 :: amounts) (.none :: quotes) where
  length := by simp [h.length]
  zeros := by simpa using h.zeros
  positive := by simpa using h.positive
  unfilled := by simpa using h.unfilled
  counts := by simpa using h.counts

/-- An amount may be filled before others that cross no fewer ticks. -/
theorem FilledUpTo.cons_filled (h : FilledUpTo k amounts quotes) (hnonzero : amount ≠ 0)
    (hpositive : 0 < quoted.output) (hleast : AtLeast quoted.ticksCrossed k amounts quotes) :
    FilledUpTo (k + 1) (amount :: amounts) (quoted :: quotes) where
  length := by simp [h.length]
  zeros := List.forall_mem_cons.mpr ⟨fun hzero => absurd hzero hnonzero, h.zeros⟩
  positive := List.forall_mem_cons.mpr ⟨fun _ => hpositive, h.positive⟩
  unfilled := by simpa using h.unfilled
  counts := List.pairwise_cons.mpr ⟨fun b hb _ hother => hleast b hb hother, h.counts⟩

/-- The ticks that an amount crosses bound those of others that cross no fewer. -/
theorem AtLeast.cons (h : AtLeast quoted.ticksCrossed k amounts quotes)
    (hleast : least ≤ quoted.ticksCrossed) :
    AtLeast least (k + 1) (amount :: amounts) (quoted :: quotes) := by
  refine List.forall_mem_cons.mpr ⟨fun _ => hleast, fun e he hother => ?_⟩
  exact Nat.le_trans hleast (h e he hother)

/-- What is answered from a checkpoint on is filled up to some position, and crosses at least the
ticks of that checkpoint. -/
theorem filledUpTo_of_answered (h : Answered pool trade resume records pending quotes)
    (hnamed : List.Forall₂ (fun amount quantity => amount = 0 ↔ quantity = 0) amounts pending) :
    ∃ k, FilledUpTo k amounts quotes ∧ AtLeast (crossedBefore resume) k amounts quotes := by
  induction h generalizing amounts with
  | nil =>
    cases hnamed
    exact ⟨0, filledUpTo_of_none [], by simp [AtLeast]⟩
  | zero _ ih =>
    cases hnamed with
    | cons hhead hrest =>
      obtain rfl := hhead.mpr rfl
      obtain ⟨k, hfilled, hleast⟩ := ih hrest
      exact ⟨k + 1, hfilled.cons_zero, by simpa [AtLeast] using hleast⟩
  | @unfilled _ _ quantity _ rest _ _ _ =>
    refine ⟨0, ?_, by simp [AtLeast]⟩
    have hsame : (quantity :: rest).map (fun _ => Quote.none) =
        amounts.map fun _ => Quote.none := by
      rw [List.map_const', List.map_const', hnamed.length_eq]
    show FilledUpTo 0 amounts ((quantity :: rest).map fun _ => Quote.none)
    rw [hsame]
    exact filledUpTo_of_none amounts
  | @filled _ _ _ a output _ _ hnonzero hattempt hfruitful _ houtput _ ih =>
    cases hnamed with
    | cons hhead hrest =>
      obtain ⟨hhanded, hgrows⟩ := ticksCrossed_of_attempt hattempt
      obtain ⟨k, hfilled, hleast⟩ := ih hrest
      change AtLeast a.outcome.checkpoint.ticksCrossed _ _ _ at hleast
      rw [hhanded] at hleast
      have hamount := fun hzero => hnonzero (hhead.mp hzero)
      have hpositive : 0 < output :=
        BitVec.toNat_pos_of_ne_zero (output_ne_zero hfruitful houtput)
      exact ⟨k + 1, hfilled.cons_filled hamount hpositive hleast, hleast.cons hgrows⟩

/-- A quote answers every amount. Up to some position it fills all amounts but zeros, with tick
counts that do not fall, and from there on it fills none. -/
theorem quote_filledUpTo (h : quote pool amounts token side = .ok quotes) :
    ∃ k, FilledUpTo k amounts quotes := by
  obtain ⟨-, pending, hpending, -, hanswered⟩ := quote_eq_ok_iff.mp h
  obtain ⟨hnamed, -⟩ := quantitiesFrom_eq_ok hpending
  have hzeros : List.Forall₂ (fun (amount : Word) quantity => amount = 0 ↔ quantity = 0) amounts
      pending := by
    refine hnamed.imp fun amount quantity hstands => ?_
    rcases hstands with ⟨hamount, hquantity⟩ | ⟨hnonzero, -, hsigned⟩
    · exact iff_of_true hamount hquantity
    · exact iff_of_false hnonzero (sideOf_signed hsigned hnonzero).1
  obtain ⟨k, hfilled, -⟩ := filledUpTo_of_answered hanswered hzeros
  exact ⟨k, hfilled⟩

/-- Sales of which the second one leaves a position and the third one meets the lowest price. -/
theorem quote_filledUpTo_limited_sale :
    ∃ start pool quotes, Pool.create 1000 4305879456 = .ok start ∧
      replay start [.deposit (-887240) (-887200) (2 ^ 100),
        .deposit (-887260) (-887200) (2 ^ 100)] = .ok pool ∧
      quote pool [0, 2 ^ 153, 2 ^ 155, 0, 2 ^ 156, 2 ^ 157] .zero .sell = .ok quotes ∧
      quotes = [.none, ⟨33379703, 0⟩, ⟨133420312, 1⟩, .none, .none, .none] ∧
      ∃ k, FilledUpTo k [0, 2 ^ 153, 2 ^ 155, 0, 2 ^ 156, 2 ^ 157] quotes := by
  have hrun : (do
      let start ← liftPool (Pool.create 1000 4305879456)
      let pool ← replay start [.deposit (-887240) (-887200) (2 ^ 100),
        .deposit (-887260) (-887200) (2 ^ 100)]
      let quotes ← quote pool [0, 2 ^ 153, 2 ^ 155, 0, 2 ^ 156, 2 ^ 157] .zero .sell
      return decide (quotes = [.none, ⟨33379703, 0⟩, ⟨133420312, 1⟩, .none, .none, .none])) =
        Except.ok true := by
    decide +kernel
  obtain ⟨start, hstart, hrun⟩ := bind_eq_ok.mp hrun
  obtain ⟨pool, hpool, hrun⟩ := bind_eq_ok.mp hrun
  obtain ⟨quotes, hquotes, hrun⟩ := bind_eq_ok.mp hrun
  have hanswers := of_decide_eq_true (Except.ok.inj hrun)
  exact ⟨start, pool, quotes, liftPool_eq_ok.mp hstart, hpool, hquotes, hanswers,
    quote_filledUpTo hquotes⟩

end ReinvestingPool.Proofs.FilledPrefixes
