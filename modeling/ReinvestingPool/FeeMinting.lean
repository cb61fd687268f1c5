import ReinvestingPool.ProductQuotients

/-!
Reinvestment tokens are minted for the liquidity that fees have added. The growth belongs to base
and reinvested liquidity alike, and only the share of base liquidity is minted, at the rate at
which the supply stands to the reinvested liquidity of the last minting.
-/

namespace ReinvestingPool.FeeMinting

open Failures Words ProductQuotients

/-- The share of `base` liquidity in the growth of reinvested liquidity from `last` to `now`. -/
def baseShare (now last base : Word) : Except ArithmeticFailure Word := do
  mulDivFloor base (← subChecked now last) (← addChecked base now)

def mintedTokens (now last base supply : Word) : Except ArithmeticFailure Word := do
  mulDivFloor supply (← baseShare now last base) last

end ReinvestingPool.FeeMinting
