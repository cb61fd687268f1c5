import ReinvestingPool.Proofs.ExactRoots

/-!
The search for a square root, with every sum and every quotient checked and the number of its turns
bounded. A guess stays at or above the root, and each turn at least halves its distance from it.
-/

namespace ReinvestingPool.Proofs.HalvingGuesses

open Failures Words SquareRoots ExactRoots

variable {y best guess : Word} {turns : Nat}

/-- The guess after a guess, refused where its quotient or its sum is not exact. -/
def nextChecked (y guess : Word) : Except ArithmeticFailure Word := do
  let quotient ← divChecked y guess
  let sum ← addChecked quotient guess
  return sum >>> 1

/-- The loop of a search, which is given up after so many turns. -/
def averageWithin (y : Word) : Nat → Word → Word → Option (Except ArithmeticFailure Word)
  | 0, _, _ => none
  | turns + 1, best, guess =>
    if guess < best then
      match nextChecked y guess with
      | .error failure => some (.error failure)
      | .ok next => averageWithin y turns guess next
    else
      some (.ok best)

/-- The square root, rounded down, by a checked search of so many turns. -/
def sqrtWithin (turns : Nat) (y : Word) : Option (Except ArithmeticFailure Word) :=
  if 3 < y then
    match addChecked (y >>> 1) 1 with
    | .error failure => some (.error failure)
    | .ok guess => averageWithin y turns y guess
  else
    some (.ok (if y = 0 then 0 else 1))

/-- What holds whenever a search compares its best guess with the next one. -/
structure Closing (y best guess : Word) : Prop where
  root_le_best : y.toNat.sqrt ≤ best.toNat
  root_le_guess : y.toNat.sqrt ≤ guess.toNat
  /-- Short of the root, the next guess is at most half as far from it. -/
  halves : y.toNat.sqrt < best.toNat → 2 * guess.toNat ≤ best.toNat + y.toNat.sqrt
  guess_le : guess.toNat ≤ y.toNat / 2 + 1

theorem two_le_root (hlarge : 3 < y.toNat) : 2 ≤ y.toNat.sqrt :=
  Nat.le_sqrt.mpr hlarge

/-- Above the root the quotient is not above it. -/
theorem quotient_le_root {n guess : Nat} (h : n.sqrt < guess) : n / guess ≤ n.sqrt := by
  rw [← Nat.lt_succ_iff, Nat.div_lt_iff_lt_mul (by omega)]
  calc
    n < (n.sqrt + 1) * (n.sqrt + 1) := Nat.lt_succ_sqrt n
    _ ≤ (n.sqrt + 1) * guess := Nat.mul_le_mul_left _ h

theorem root_le_average (n guess : Nat) (hpos : 0 < guess) :
    n.sqrt ≤ (n / guess + guess) / 2 :=
  Nat.lt_succ_iff.mp (Nat.sqrt_lt.mpr (lt_average_square n guess hpos))

theorem closing_start (hlarge : 3 < y.toNat) : Closing y y ((y >>> 1) + 1) := by
  have hy := y.isLt
  have hroot := two_le_root hlarge
  have hguess : ((y >>> 1) + 1).toNat = y.toNat / 2 + 1 := by bv_omega
  refine ⟨Nat.sqrt_le_self _, ?_, ?_, ?_⟩
  · have haverage := root_le_average y.toNat 1 Nat.one_pos
    rw [Nat.div_one] at haverage
    omega
  · omega
  · omega

namespace Closing

theorem two_le (hlarge : 3 < y.toNat) (h : Closing y best guess) : 2 ≤ guess.toNat :=
  Nat.le_trans (two_le_root hlarge) h.root_le_guess

theorem quotient_le (hlarge : 3 < y.toNat) (h : Closing y best guess) :
    y.toNat / guess.toNat ≤ y.toNat / 2 :=
  Nat.div_le_div_left (h.two_le hlarge) (by decide)

theorem step (hlarge : 3 < y.toNat) (h : Closing y best guess) :
    Closing y guess ((y / guess + guess) >>> 1) := by
  have hlow := h.two_le hlarge
  have hnext := toNat_average y guess hlow h.guess_le
  refine ⟨h.root_le_guess, ?_, ?_, ?_⟩
  · rw [hnext]
    exact root_le_average _ _ (by omega)
  · intro habove
    have hquotient := quotient_le_root habove
    omega
  · have hquotient := h.quotient_le hlarge
    have hguess := h.guess_le
    omega

/-- A guess is never zero, and its quotient leaves room for it. -/
theorem nextChecked_eq (hlarge : 3 < y.toNat) (h : Closing y best guess) :
    nextChecked y guess = .ok ((y / guess + guess) >>> 1) := by
  have hy := y.isLt
  have hlow := h.two_le hlarge
  have hguess := h.guess_le
  have hquotient := h.quotient_le hlarge
  have hnonzero : guess ≠ 0 := by
    rintro rfl
    exact absurd hlow (by decide)
  rw [← BitVec.toNat_udiv] at hquotient
  refine bind_eq_ok.mpr ⟨y / guess, divChecked_eq_ok.mpr ⟨hnonzero, BitVec.toNat_udiv⟩, ?_⟩
  refine bind_eq_ok.mpr ⟨y / guess + guess, addChecked_eq_ok.mpr ?_, rfl⟩
  rw [BitVec.toNat_add, Nat.mod_eq_of_lt (by omega)]

/-- The distance from the root bounds the turns: where it is below a power of two, one turn more
than the exponent is enough. -/
theorem averageWithin_eq (hlarge : 3 < y.toNat) (h : Closing y best guess)
    (hdistance : best.toNat - y.toNat.sqrt < 2 ^ turns) :
    averageWithin y (turns + 1) best guess = some (.ok (averageDown y best guess)) := by
  induction turns generalizing best guess with
  | zero =>
    -- The best guess is the root, and no guess is below it.
    have hroot := h.root_le_best
    have hguess := h.root_le_guess
    have hstop : ¬ guess < best := by
      rw [BitVec.lt_def]
      omega
    rw [averageWithin, averageDown, if_neg hstop, if_neg hstop]
  | succ turns ih =>
    rw [averageWithin, averageDown]
    by_cases hlt : guess < best
    · rw [if_pos hlt, if_pos hlt, h.nextChecked_eq hlarge]
      -- A guess below the best one leaves that one above the root, so the distance halves.
      apply ih (h.step hlarge)
      have hguess := h.root_le_guess
      have hhalves := h.halves
      rw [BitVec.lt_def] at hlt
      rw [Nat.pow_succ] at hdistance
      omega
    · rw [if_neg hlt, if_neg hlt]

end Closing

theorem sqrtWithin_eq (y : Word) : sqrtWithin 257 y = some (.ok (sqrtFloor y)) := by
  have hy := y.isLt
  unfold sqrtWithin sqrtFloor
  by_cases hlarge : 3 < y
  · rw [if_pos hlarge, if_pos hlarge]
    rw [BitVec.lt_def] at hlarge
    have hsum : addChecked (y >>> 1) 1 = .ok ((y >>> 1) + 1) := by
      rw [addChecked_eq_ok]
      bv_omega
    rw [hsum]
    exact (closing_start hlarge).averageWithin_eq hlarge (by omega)
  · rw [if_neg hlarge, if_neg hlarge]

/-- For every word, the search ends within 257 comparisons of its guesses. No sum on the way leaves
the word, nothing is divided by zero, and what it ends with is the square root, rounded down. -/
theorem sqrtFloor_checked (y : Word) :
    sqrtWithin 257 y = some (.ok (sqrtFloor y)) ∧
      (sqrtFloor y).toNat ^ 2 ≤ y.toNat ∧ y.toNat < ((sqrtFloor y).toNat + 1) ^ 2 := by
  refine ⟨sqrtWithin_eq y, ?_⟩
  rw [toNat_sqrtFloor]
  exact ⟨Nat.sqrt_le' _, Nat.lt_succ_sqrt' _⟩

/-- The search for the root of the largest word ends with the 136th comparison. -/
example : sqrtWithin 135 (BitVec.allOnes 256) = none ∧
    sqrtWithin 136 (BitVec.allOnes 256) = some (.ok 0xffffffffffffffffffffffffffffffff) := by
  decide +kernel

end ReinvestingPool.Proofs.HalvingGuesses
