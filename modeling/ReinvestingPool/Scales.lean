import ReinvestingPool.Words

/-!
Fixed-point scales. A square-root price carries 96 fractional bits, and a fee rate counts parts in
one hundred thousand.
-/

namespace ReinvestingPool.Scales

open Words

def priceBits : Nat := 96

/-- The square-root price one. -/
def priceUnit : Word := 0x1000000000000000000000000

/-- The fee rate one. -/
def feeUnit : Word := 100000

def twoFeeUnits : Word := 200000

@[simp] theorem toNat_priceUnit : priceUnit.toNat = 2 ^ 96 := by decide

@[simp] theorem toNat_feeUnit : feeUnit.toNat = 100000 := by decide

@[simp] theorem toNat_twoFeeUnits : twoFeeUnits.toNat = 200000 := by decide

end ReinvestingPool.Scales
