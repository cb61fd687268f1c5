import ReinvestingPool.Words

/-!
The integer square root by averaging a guess with its quotient, and the smaller root of a quadratic
equation, which a fee that compounds during a purchase has to solve.
-/

namespace ReinvestingPool.SquareRoots

open Failures Words

/-- Replaces `best` by the next guess for the root of `y` as long as the guesses fall. -/
def averageDown (y best guess : Word) : Word :=
  if guess < best then averageDown y guess ((y / guess + guess) >>> 1) else best
termination_by best.toNat
decreasing_by
  rename_i h
  exact h

/-- The square root, rounded down. -/
def sqrtFloor (y : Word) : Word :=
  if 3 < y then averageDown y y ((y >>> 1) + 1) else if y = 0 then 0 else 1

/-- The smaller root of `a * x ^ 2 - 2 * b * x + c = 0`, rounded down after the square root. -/
def smallerRoot (a b c : Word) : Except ArithmeticFailure Word := do
  let discriminant ← subChecked (← mulChecked b b) (← mulChecked a c)
  divChecked (← subChecked b (sqrtFloor discriminant)) a

end ReinvestingPool.SquareRoots
