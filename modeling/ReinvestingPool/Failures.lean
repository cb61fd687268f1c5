import ReinvestingPool.Directions

/-!
Everything that a computation on a pool can refuse. Arithmetic refuses results outside their
width, the pool refuses prices, ticks and fees that it cannot hold, and a trade refuses amounts
and limits that make no sense. Each cause has one wording.
-/

namespace ReinvestingPool.Failures

open Directions

inductive ArithmeticFailure
  | overflow
  | underflow
  | divisionByZero
  deriving DecidableEq

inductive PoolFailure
  | priceOutOfBounds
  | tickOutOfBounds
  | tickNotInitialized (tick : Int)
  /-- The link of `tick` does not lead further in the direction of travel. -/
  | indexExhausted (tick : Int) (direction : Direction)
  | unsortedIndex (tick : Int)
  | brokenLink (tick : Int)
  | noReinvestmentSupply
  | feeOutOfRange (units : Nat)
  deriving DecidableEq

inductive TradeFailure
  | zeroAmount
  | badPriceLimit
  | amountsNotAscending (position : Nat)
  | amountTooLarge (position : Nat)
  | unexpectedSign
  | remainderChangedSign
  deriving DecidableEq

inductive Failure
  | arithmetic (cause : ArithmeticFailure)
  | pool (cause : PoolFailure)
  | trade (cause : TradeFailure)
  deriving DecidableEq

def ArithmeticFailure.message : ArithmeticFailure → String
  | .overflow => "Math error - overflow"
  | .underflow => "Math error - underflow"
  | .divisionByZero => "Math error - division by zero"

def risingText : Direction → String
  | .rising => "true"
  | .falling => "false"

def PoolFailure.message : PoolFailure → String
  | .priceOutOfBounds => "State error - sqrtPrice out of bounds"
  | .tickOutOfBounds => "State error - tick out of bounds"
  | .tickNotInitialized tick => "State error - tick " ++ toString tick ++ " is not initialized"
  | .indexExhausted tick direction =>
      "State error - tick index has no initialized tick past " ++ toString tick ++
        " (rising: " ++ risingText direction ++ ")"
  | .unsortedIndex tick =>
      "State error - tick index is not sorted ascending at tick " ++ toString tick
  | .brokenLink tick => "State error - tick index link at " ++ toString tick ++ " is not symmetric"
  | .noReinvestmentSupply => "State error - reinvestment token supply is 0"
  | .feeOutOfRange units => "State error - fee units " ++ toString units ++ " out of range"

def TradeFailure.message : TradeFailure → String
  | .zeroAmount => "Swap error - amount specified is 0"
  | .badPriceLimit => "Swap error - bad limit sqrtP"
  | .amountsNotAscending position =>
      "Swap error - amount at index " ++ toString position ++ " is smaller than a previous amount"
  | .amountTooLarge position =>
      "Swap error - amount at index " ++ toString position ++
        " does not fit in a signed 256-bit integer"
  | .unexpectedSign => "Swap error - token leg has an unexpected sign"
  | .remainderChangedSign => "Swap error - remaining specified amount changed sign"

def Failure.message : Failure → String
  | .arithmetic cause => cause.message
  | .pool cause => cause.message
  | .trade cause => cause.message

instance decidableEqExcept {ε α : Type} [DecidableEq ε] [DecidableEq α] :
    DecidableEq (Except ε α)
  | .ok _, .ok _ => decidable_of_iff (_ = _) (Except.ok.injEq ..).symm.to_iff
  | .error _, .error _ => decidable_of_iff _ (Except.error.injEq ..).symm.to_iff
  | .ok _, .error _ => isFalse nofun
  | .error _, .ok _ => isFalse nofun

/-- A computation that can fail in its arithmetic only, within one that can fail in any way. -/
def liftArithmetic {α : Type} : Except ArithmeticFailure α → Except Failure α :=
  Except.mapError .arithmetic

def liftPool {α : Type} : Except PoolFailure α → Except Failure α :=
  Except.mapError .pool

theorem bind_eq_ok {ε α β : Type} {x : Except ε α} {f : α → Except ε β} {b : β} :
    x >>= f = .ok b ↔ ∃ a, x = .ok a ∧ f a = .ok b := by
  cases x <;> simp [bind, Except.bind]

theorem bind_eq_error {ε α β : Type} {x : Except ε α} {f : α → Except ε β} {e : ε} :
    x >>= f = .error e ↔ x = .error e ∨ ∃ a, x = .ok a ∧ f a = .error e := by
  cases x <;> simp [bind, Except.bind]

theorem map_eq_ok {ε α β : Type} {f : α → β} {r : Except ε α} {b : β} :
    r.map f = .ok b ↔ ∃ a, r = .ok a ∧ f a = b := by
  cases r <;> simp [Except.map]

@[simp] theorem mapError_eq_ok {ε δ α : Type} {f : ε → δ} {r : Except ε α} {a : α} :
    r.mapError f = .ok a ↔ r = .ok a := by
  cases r with
  | ok b =>
    change (Except.ok b : Except δ α) = .ok a ↔ _
    rw [Except.ok.injEq, Except.ok.injEq]
  | error e => exact iff_of_false nofun nofun

theorem mapError_eq_error {ε δ α : Type} {f : ε → δ} {r : Except ε α} {e : δ} :
    r.mapError f = .error e ↔ ∃ cause, r = .error cause ∧ f cause = e := by
  cases r with
  | ok a =>
    refine iff_of_false nofun fun h => ?_
    obtain ⟨cause, hcause, -⟩ := h
    cases hcause
  | error cause =>
    change (Except.error (f cause) : Except δ α) = .error e ↔ _
    rw [Except.error.injEq]
    constructor
    · intro h
      exact ⟨cause, rfl, h⟩
    · intro h
      obtain ⟨other, hother, h⟩ := h
      cases hother
      exact h

@[simp] theorem liftArithmetic_eq_ok {α : Type} {r : Except ArithmeticFailure α} {a : α} :
    liftArithmetic r = .ok a ↔ r = .ok a :=
  mapError_eq_ok

@[simp] theorem liftPool_eq_ok {α : Type} {r : Except PoolFailure α} {a : α} :
    liftPool r = .ok a ↔ r = .ok a :=
  mapError_eq_ok

theorem liftArithmetic_eq_error {α : Type} {r : Except ArithmeticFailure α} {e : Failure} :
    liftArithmetic r = .error e ↔ ∃ cause, r = .error cause ∧ .arithmetic cause = e :=
  mapError_eq_error

theorem liftPool_eq_error {α : Type} {r : Except PoolFailure α} {e : Failure} :
    liftPool r = .error e ↔ ∃ cause, r = .error cause ∧ .pool cause = e :=
  mapError_eq_error

end ReinvestingPool.Failures
