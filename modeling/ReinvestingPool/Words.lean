import ReinvestingPool.Failures

/-!
Unsigned numbers of a fixed width. A checked operation gives the exact result or refuses, so each
one is described by an equation between natural numbers. The operators of the fixed widths wrap
around and serve where an accumulator is meant to.
-/

namespace ReinvestingPool.Words

open Failures

/-- Prices, amounts without a sign and accumulated growth. -/
abbrev Word := BitVec 256

/-- Liquidity and accumulated seconds. -/
abbrev HalfWord := BitVec 128

/-- Fee rates and times. -/
abbrev ShortWord := BitVec 32

-- The bounds of a width are powers as the core library has them, whatever else is imported.
instance (priority := 1100) powNat : Pow Nat Nat := instPowNat

attribute [default_instance 20000] instPowNat

variable {w : Nat}

def addChecked (a b : BitVec w) : Except ArithmeticFailure (BitVec w) :=
  if a.toNat + b.toNat < 2 ^ w then .ok (a + b) else .error .overflow

def subChecked (a b : BitVec w) : Except ArithmeticFailure (BitVec w) :=
  if b ≤ a then .ok (a - b) else .error .underflow

def mulChecked (a b : BitVec w) : Except ArithmeticFailure (BitVec w) :=
  if a.toNat * b.toNat < 2 ^ w then .ok (a * b) else .error .overflow

def divChecked (a b : BitVec w) : Except ArithmeticFailure (BitVec w) :=
  if b = 0 then .error .divisionByZero else .ok (a / b)

def distance (a b : BitVec w) : BitVec w :=
  if a ≤ b then b - a else a - b

def subToZero (a b : BitVec w) : BitVec w :=
  if b ≤ a then a - b else 0

def widen (a : BitVec w) : Word := a.setWidth 256

/-- The low half of a word; what lies above it is dropped. -/
def lowHalf (a : Word) : HalfWord := a.setWidth 128

/-- The largest word of 160 bits, in which a square-root price is kept. -/
def maxPriceWord : Word := 0xffffffffffffffffffffffffffffffffffffffff

def narrowToPrice (a : Word) : Except ArithmeticFailure Word :=
  if a ≤ maxPriceWord then .ok a else .error .overflow

theorem addChecked_eq_ok {a b c : BitVec w} :
    addChecked a b = .ok c ↔ c.toNat = a.toNat + b.toNat := by
  unfold addChecked
  have hc := c.isLt
  split
  · rename_i h
    rw [Except.ok.injEq, ← BitVec.toNat_inj, BitVec.toNat_add, Nat.mod_eq_of_lt h]
    exact eq_comm
  · simp only [reduceCtorEq, false_iff]
    omega

theorem addChecked_eq_error {a b : BitVec w} {e : ArithmeticFailure} :
    addChecked a b = .error e ↔ 2 ^ w ≤ a.toNat + b.toNat ∧ e = .overflow := by
  unfold addChecked
  split
  · simp only [reduceCtorEq, false_iff]
    omega
  · rw [Except.error.injEq]
    constructor
    · rintro rfl
      exact ⟨by omega, rfl⟩
    · exact fun h => h.2.symm

theorem subChecked_eq_ok {a b c : BitVec w} :
    subChecked a b = .ok c ↔ c.toNat + b.toNat = a.toNat := by
  unfold subChecked
  split
  · rename_i h
    rw [Except.ok.injEq, ← BitVec.toNat_inj, BitVec.toNat_sub_of_le h]
    rw [BitVec.le_def] at h
    omega
  · rename_i h
    rw [BitVec.le_def] at h
    simp only [reduceCtorEq, false_iff]
    omega

theorem subChecked_eq_error {a b : BitVec w} {e : ArithmeticFailure} :
    subChecked a b = .error e ↔ a.toNat < b.toNat ∧ e = .underflow := by
  unfold subChecked
  split <;> rename_i h <;> rw [BitVec.le_def] at h
  · simp only [reduceCtorEq, false_iff]
    omega
  · rw [Except.error.injEq]
    constructor
    · rintro rfl
      exact ⟨by omega, rfl⟩
    · exact fun h => h.2.symm

theorem mulChecked_eq_ok {a b c : BitVec w} :
    mulChecked a b = .ok c ↔ c.toNat = a.toNat * b.toNat := by
  unfold mulChecked
  have hc := c.isLt
  split
  · rename_i h
    rw [Except.ok.injEq, ← BitVec.toNat_inj, BitVec.toNat_mul, Nat.mod_eq_of_lt h]
    exact eq_comm
  · simp only [reduceCtorEq, false_iff]
    omega

theorem mulChecked_eq_error {a b : BitVec w} {e : ArithmeticFailure} :
    mulChecked a b = .error e ↔ 2 ^ w ≤ a.toNat * b.toNat ∧ e = .overflow := by
  unfold mulChecked
  split
  · simp only [reduceCtorEq, false_iff]
    omega
  · rw [Except.error.injEq]
    constructor
    · rintro rfl
      exact ⟨by omega, rfl⟩
    · exact fun h => h.2.symm

theorem divChecked_eq_ok {a b c : BitVec w} :
    divChecked a b = .ok c ↔ b ≠ 0 ∧ c.toNat = a.toNat / b.toNat := by
  unfold divChecked
  split
  · simp_all
  · simp_all only [Except.ok.injEq, ← BitVec.toNat_inj, BitVec.toNat_udiv, ne_eq,
      not_false_eq_true, true_and]
    exact eq_comm

theorem toNat_distance (a b : BitVec w) :
    (distance a b).toNat = (a.toNat - b.toNat) + (b.toNat - a.toNat) := by
  unfold distance
  split
  · rename_i h
    rw [BitVec.toNat_sub_of_le h]
    rw [BitVec.le_def] at h
    omega
  · rename_i h
    rw [BitVec.le_def] at h
    rw [BitVec.toNat_sub_of_le (BitVec.le_def.mpr (by omega))]
    omega

theorem toNat_subToZero (a b : BitVec w) : (subToZero a b).toNat = a.toNat - b.toNat := by
  unfold subToZero
  split
  · rename_i h
    exact BitVec.toNat_sub_of_le h
  · rename_i h
    rw [BitVec.le_def] at h
    simp only [BitVec.ofNat_eq_ofNat, BitVec.toNat_ofNat, Nat.zero_mod]
    omega

theorem toNat_widen (a : BitVec w) (h : w ≤ 256) : (widen a).toNat = a.toNat := by
  rw [widen, BitVec.toNat_setWidth]
  exact Nat.mod_eq_of_lt (Nat.lt_of_lt_of_le a.isLt (Nat.pow_le_pow_right (by decide) h))

theorem toNat_lowHalf (a : Word) : (lowHalf a).toNat = a.toNat % 2 ^ 128 :=
  BitVec.toNat_setWidth ..

theorem toNat_maxPriceWord : maxPriceWord.toNat = 2 ^ 160 - 1 := by decide

theorem narrowToPrice_eq_ok {a c : Word} :
    narrowToPrice a = .ok c ↔ c = a ∧ a.toNat < 2 ^ 160 := by
  have width := toNat_maxPriceWord
  unfold narrowToPrice
  split <;> rename_i h <;> rw [BitVec.le_def] at h
  · rw [Except.ok.injEq, eq_comm]
    exact ⟨fun e => ⟨e, by omega⟩, fun e => e.1⟩
  · simp only [reduceCtorEq, false_iff]
    omega

end ReinvestingPool.Words
