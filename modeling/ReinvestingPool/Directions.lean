/-!
A trade names one of the two tokens of a pool and fixes either the amount paid in or the amount
taken out. These two choices decide whether the price of token zero rises or falls.
-/

namespace ReinvestingPool.Directions

inductive Token
  | zero
  | one
  deriving DecidableEq

/-- The leg that a trade fixes: a sale fixes what is paid in, a purchase what is taken out. -/
inductive Side
  | sell
  | buy
  deriving DecidableEq

inductive Direction
  | rising
  | falling
  deriving DecidableEq

/-- Paying token one in, or taking token zero out, raises the price of token zero. -/
def travel : Side → Token → Direction
  | .sell, .one => .rising
  | .buy, .zero => .rising
  | .sell, .zero => .falling
  | .buy, .one => .falling

def Direction.reverse : Direction → Direction
  | .rising => .falling
  | .falling => .rising

@[simp] theorem Direction.reverse_reverse (d : Direction) : d.reverse.reverse = d := by
  cases d <;> rfl

end ReinvestingPool.Directions
