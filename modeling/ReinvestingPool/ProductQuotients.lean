import ReinvestingPool.Words

/-!
The quotient of a product, exact also where the product needs two words. The product is kept as a
high and a low word. Its remainder is taken off, the powers of two common to the divisor are
shifted out, and the odd part of the divisor is undone by its inverse modulo the word size.
-/

namespace ReinvestingPool.ProductQuotients

open Failures Words

/-- The product modulo `m`, of the unbounded product. -/
def mulMod (a b m : Word) : Word := BitVec.ofNat 256 (a.toNat * b.toNat % m.toNat)

/-- The high and the low word of a product. The product modulo `2 ^ 256 - 1` is the sum of both
words up to one end-around carry, so the high word is what remains after the low one. -/
def fullProduct (a b : Word) : Word × Word :=
  let low := a * b
  let folded := mulMod a b (BitVec.allOnes 256)
  (folded - low - (if folded < low then 1 else 0), low)

/-- One Newton step doubles the number of low bits on which `x * odd` agrees with one. -/
def refineInverse (odd x : Word) : Word := x * (2 - odd * x)

/-- The inverse of an odd word: a start right in four bits, doubled six times. -/
def oddInverse (odd : Word) : Word :=
  Nat.repeat (refineInverse odd) 6 ((3 * odd) ^^^ 2)

/-- The quotient of the two-word product of `a` and `b`, where it needs a high word and the
divisor exceeds that word. -/
def longQuotient (a b divisor high low : Word) : Word :=
  let remainder := mulMod a b divisor
  let high := high - (if low < remainder then 1 else 0)
  let low := low - remainder
  let twos := -divisor &&& divisor
  let moved := high * (-twos / twos + 1)
  (low / twos ||| moved) * oddInverse (divisor / twos)

/-- The product of `a` and `b` divided by `divisor`, rounded down. -/
def mulDivFloor (a b divisor : Word) : Except ArithmeticFailure Word :=
  let (high, low) := fullProduct a b
  if high = 0 then
    divChecked low divisor
  else if divisor ≤ high then
    .error (if divisor = 0 then .divisionByZero else .overflow)
  else
    .ok (longQuotient a b divisor high low)

/-- The product of `a` and `b` divided by `divisor`, rounded up. -/
def mulDivCeil (a b divisor : Word) : Except ArithmeticFailure Word := do
  let quotient ← mulDivFloor a b divisor
  if mulMod a b divisor = 0 then return quotient else addChecked quotient 1

end ReinvestingPool.ProductQuotients
