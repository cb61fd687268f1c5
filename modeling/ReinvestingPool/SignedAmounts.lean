import ReinvestingPool.Words

/-!
Signed numbers of a fixed width. An amount is counted from the pool's side: what flows in is
positive and what flows out is negative. A sum or difference outside the width is refused.
-/

namespace ReinvestingPool.SignedAmounts

open Failures Words

structure Signed (w : Nat) where
  toInt : Int
  lower : -((2 ^ (w - 1) : Nat) : Int) ≤ toInt
  upper : toInt < (2 ^ (w - 1) : Nat)
  deriving DecidableEq

/-- A token amount. -/
abbrev Amount := Signed 256

/-- A change of active liquidity. -/
abbrev LiquidityChange := Signed 128

namespace Signed

variable {w : Nat}

@[ext] theorem ext {a b : Signed w} (h : a.toInt = b.toInt) : a = b := by
  cases a
  cases b
  cases h
  rfl

instance : Zero (Signed w) where
  zero := {
    toInt := 0
    lower := Int.neg_nonpos_of_nonneg (Int.natCast_nonneg _)
    upper := Int.natCast_pos.mpr (Nat.two_pow_pos _)
  }

@[simp] theorem toInt_zero : (0 : Signed w).toInt = 0 := rfl

def ofInt? (value : Int) : Option (Signed w) :=
  if h : -((2 ^ (w - 1) : Nat) : Int) ≤ value ∧ value < (2 ^ (w - 1) : Nat) then
    some ⟨value, h.1, h.2⟩
  else
    none

theorem ofInt?_eq_some {value : Int} {a : Signed w} :
    ofInt? value = some a ↔ a.toInt = value := by
  unfold ofInt?
  constructor
  · intro h
    split at h
    · cases h
      rfl
    · cases h
  · rintro rfl
    rw [dif_pos ⟨a.lower, a.upper⟩]

theorem ofInt?_eq_none {value : Int} :
    (ofInt? value : Option (Signed w)) = none ↔
      value < -((2 ^ (w - 1) : Nat) : Int) ∨ ((2 ^ (w - 1) : Nat) : Int) ≤ value := by
  unfold ofInt?
  split
  · simp only [reduceCtorEq, false_iff]
    omega
  · simp only [true_iff]
    omega

/-- `value` itself where it fits, and `failure` elsewhere. -/
def ofIntOr (failure : ArithmeticFailure) (value : Int) : Except ArithmeticFailure (Signed w) :=
  match ofInt? value with
  | some a => .ok a
  | none => .error failure

def addChecked (a b : Signed w) : Except ArithmeticFailure (Signed w) :=
  ofIntOr .overflow (a.toInt + b.toInt)

def subChecked (a b : Signed w) : Except ArithmeticFailure (Signed w) :=
  ofIntOr .underflow (a.toInt - b.toInt)

/-- The absolute value, which always fits because it is read without a sign. -/
def magnitude (a : Signed w) : BitVec w := BitVec.ofNat w a.toInt.natAbs

theorem ofIntOr_eq_ok {failure : ArithmeticFailure} {value : Int} {a : Signed w} :
    ofIntOr failure value = .ok a ↔ a.toInt = value := by
  unfold ofIntOr
  split
  · rename_i b h
    rw [ofInt?_eq_some] at h
    rw [Except.ok.injEq, ← h]
    exact ⟨fun e => by rw [e], fun e => ext e.symm⟩
  · rename_i h
    simp only [reduceCtorEq, false_iff]
    intro e
    rw [← ofInt?_eq_some, h] at e
    cases e

theorem ofIntOr_eq_error {failure e : ArithmeticFailure} {value : Int} :
    (ofIntOr failure value : Except ArithmeticFailure (Signed w)) = .error e ↔
      (value < -((2 ^ (w - 1) : Nat) : Int) ∨ ((2 ^ (w - 1) : Nat) : Int) ≤ value) ∧
        e = failure := by
  rw [← ofInt?_eq_none]
  unfold ofIntOr
  split <;> rename_i h <;> simp [h, eq_comm]

theorem addChecked_eq_ok {a b c : Signed w} :
    addChecked a b = .ok c ↔ c.toInt = a.toInt + b.toInt :=
  ofIntOr_eq_ok

theorem subChecked_eq_ok {a b c : Signed w} :
    subChecked a b = .ok c ↔ c.toInt = a.toInt - b.toInt :=
  ofIntOr_eq_ok

theorem toNat_magnitude (a : Signed w) : a.magnitude.toNat = a.toInt.natAbs % 2 ^ w :=
  BitVec.toNat_ofNat ..

end Signed

/-- `value` flowing into the pool. -/
def inflow (value : Word) : Except ArithmeticFailure Amount :=
  Signed.ofIntOr .overflow value.toNat

/-- `value` flowing out of the pool. -/
def outflow (value : Word) : Except ArithmeticFailure Amount := do
  let paid ← inflow value
  Signed.ofIntOr .overflow (-paid.toInt)

theorem inflow_eq_ok {value : Word} {a : Amount} :
    inflow value = .ok a ↔ a.toInt = value.toNat :=
  Signed.ofIntOr_eq_ok

theorem outflow_eq_ok {value : Word} {a : Amount} :
    outflow value = .ok a ↔ ∃ b, inflow value = .ok b ∧ a.toInt = -b.toInt := by
  unfold outflow
  cases inflow value with
  | error e => simp [bind, Except.bind]
  | ok b => simp [bind, Except.bind, Signed.ofIntOr_eq_ok]

end ReinvestingPool.SignedAmounts
