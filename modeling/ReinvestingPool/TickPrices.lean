import ReinvestingPool.Words

/-!
A tick is an integer exponent of the base 1.0001, and its price is kept as a square root with 96
fractional bits. Between two ticks the price belongs to the lower one. The way back goes through a
binary logarithm of a few bits, which leaves two ticks to choose from at most.
-/

namespace ReinvestingPool.TickPrices

open Failures Words

def minTick : Int := -887272

def maxTick : Int := 887272

/-- The square-root price of `minTick`. -/
def minSqrtPrice : Word := 4295128739

/-- The square-root price of `maxTick`. -/
def maxSqrtPrice : Word := 1461446703485210103287273052203988822378723970342

/-- The powers `1.0001 ^ -(2 ^ i / 2)` with 128 fractional bits, for `i` from zero. -/
def halfPowers : List Nat := [
  0xfffcb933bd6fad37aa2d162d1a594001, 0xfff97272373d413259a46990580e213a,
  0xfff2e50f5f656932ef12357cf3c7fdcc, 0xffe5caca7e10e4e61c3624eaa0941cd0,
  0xffcb9843d60f6159c9db58835c926644, 0xff973b41fa98c081472e6896dfb254c0,
  0xff2ea16466c96a3843ec78b326b52861, 0xfe5dee046a99a2a811c461f1969c3053,
  0xfcbe86c7900a88aedcffc83b479aa3a4, 0xf987a7253ac413176f2b074cf7815e54,
  0xf3392b0822b70005940c7a398e4b70f3, 0xe7159475a2c29b7443b29c7fa6e889d9,
  0xd097f3bdfd2022b8845ad8f792aa5825, 0xa9f746462d870fdf8a65dc1f90e061e5,
  0x70d869a156d2a1b890bb3df62baf32f7, 0x31be135f97d08fd981231505542fcfa6,
  0x9aa508b5b7a84e1c677de54f3e99bc9, 0x5d6af8dedb81196699c329225ee604,
  0x2216e584f5fa1ea926041bedfe98, 0x48a170391f7dc42444e8fa2]

/-- Multiplies `ratio` by the powers that the binary digits of `exponent` select, lowest first. -/
def scaleDown : List Nat → Nat → Nat → Nat
  | [], _, ratio => ratio
  | power :: powers, exponent, ratio =>
      scaleDown powers (exponent / 2) (if exponent % 2 = 1 then ratio * power / 2 ^ 128 else ratio)

/-- The square-root price of a tick with 128 fractional bits. -/
def longRatio (tick : Int) : Nat :=
  let below := scaleDown halfPowers tick.natAbs (2 ^ 128)
  if 0 < tick then (2 ^ 256 - 1) / below else below

/-- The square-root price of a tick with 96 fractional bits, rounded up. -/
def ratio (tick : Int) : Nat := (longRatio tick + (2 ^ 32 - 1)) / 2 ^ 32

def sqrtPriceAt (tick : Int) : Except PoolFailure Word :=
  if minTick ≤ tick ∧ tick ≤ maxTick then .ok (BitVec.ofNat 256 (ratio tick))
  else .error .tickOutOfBounds

/-- The leading 128 bits of a number, filled up with zeros where it has fewer. -/
def mantissa (n : Nat) : Nat :=
  if 128 ≤ n.log2 then n / 2 ^ (n.log2 - 127) else n * 2 ^ (127 - n.log2)

/-- The first fractional bits of the binary logarithm of a mantissa with 127 fractional bits. Its
square carries into the next power of two where the next bit is set. -/
def fractionBits : Nat → Nat → Nat
  | 0, _ => 0
  | bits + 1, m =>
      let square := m * m / 2 ^ 127
      let carry := square / 2 ^ 128
      carry * 2 ^ bits + fractionBits bits (square / 2 ^ carry)

/-- The binary logarithm of a square-root price with 64 fractional bits, the first 14 of which are
computed. -/
def binaryLog (price : Nat) : Int :=
  let long := price * 2 ^ 32
  (long.log2 - 128) * 2 ^ 64 + fractionBits 14 (mantissa long) * 2 ^ 50

/-- How many ticks double a square-root price, with 64 fractional bits. -/
def ticksPerDoubling : Int := 255738958999603826347141

/-- The lowest tick that a price can belong to by its logarithm. -/
def lowGuess (price : Nat) : Int :=
  (binaryLog price * ticksPerDoubling - 3402992956809132418596140100660247210) / 2 ^ 128

/-- The highest tick that a price can belong to by its logarithm. -/
def highGuess (price : Nat) : Int :=
  (binaryLog price * ticksPerDoubling + 291339464771989622907027621153398088495) / 2 ^ 128

/-- The greatest tick whose square-root price is at most `price`. -/
def tickAt (price : Word) : Except PoolFailure Int :=
  if minSqrtPrice ≤ price ∧ price < maxSqrtPrice then
    let low := lowGuess price.toNat
    let high := highGuess price.toNat
    if low = high then
      .ok low
    else do
      return if price < (← sqrtPriceAt high) then low else high
  else
    .error .priceOutOfBounds

end ReinvestingPool.TickPrices
