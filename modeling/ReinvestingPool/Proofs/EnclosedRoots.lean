import Mathlib.Analysis.Real.Sqrt
import Mathlib.Tactic.LinearCombination
import ReinvestingPool.Proofs.ExactRoots

/-!
The smaller root of a quadratic equation next to its real root. The square root is rounded down and
the quotient is, too, which leaves the result between the two roundings of the real root. What is
refused is refused for one reason, the first one that applies.
-/

namespace ReinvestingPool.Proofs.EnclosedRoots

open Failures Words SquareRoots ExactRoots

section RealRoots

variable {a b c t : ℝ}

/-- The smaller root of `a * t ^ 2 - 2 * b * t + c = 0`. -/
noncomputable def realRoot (a b c : ℝ) : ℝ := (b - √(b ^ 2 - a * c)) / a

theorem realRoot_root (ha : a ≠ 0) (hreal : a * c ≤ b ^ 2) :
    a * realRoot a b c ^ 2 - 2 * b * realRoot a b c + c = 0 := by
  have hsquare := Real.sq_sqrt (sub_nonneg.mpr hreal)
  unfold realRoot
  generalize √(b ^ 2 - a * c) = s at hsquare
  field_simp
  linear_combination hsquare

/-- The square of `b - a * t` is the discriminant at every root. -/
theorem realRoot_le (ha : 0 < a) (ht : a * t ^ 2 - 2 * b * t + c = 0) : realRoot a b c ≤ t := by
  have hsquare : b ^ 2 - a * c = (b - a * t) ^ 2 := by linear_combination (-a) * ht
  rw [realRoot, div_le_iff₀ ha, hsquare, Real.sqrt_sq_eq_abs]
  linarith [le_abs_self (b - a * t)]

theorem isLeast_realRoot (ha : 0 < a) (hreal : a * c ≤ b ^ 2) :
    IsLeast {t : ℝ | a * t ^ 2 - 2 * b * t + c = 0} (realRoot a b c) :=
  ⟨realRoot_root ha.ne' hreal, fun _ ht => realRoot_le ha ht⟩

end RealRoots

section Roundings

variable {a b c : ℕ}

theorem sqrt_discriminant_le (b product : ℕ) : (b * b - product).sqrt ≤ b :=
  calc
    (b * b - product).sqrt ≤ (b * b).sqrt := Nat.sqrt_le_sqrt (Nat.sub_le _ _)
    _ = b := Nat.sqrt_eq b

/-- The root of the equation as it is computed. -/
def roundedRoot (a b c : ℕ) : ℕ := (b - (b * b - a * c).sqrt) / a

theorem sqrt_discriminant_between (hreal : a * c ≤ b * b) :
    ((b * b - a * c).sqrt : ℝ) ≤ √((b : ℝ) ^ 2 - a * c) ∧
      √((b : ℝ) ^ 2 - a * c) < (b * b - a * c).sqrt + 1 := by
  have hcast : (b : ℝ) ^ 2 - a * c = ((b * b - a * c : ℕ) : ℝ) := by
    push_cast [hreal]
    ring
  rw [hcast]
  exact ⟨Real.nat_sqrt_le_real_sqrt, Real.real_sqrt_lt_nat_sqrt_succ⟩

/-- What is left of `b` lies within one multiple of `a`. -/
theorem roundedRoot_bounds (b c : ℕ) (ha : 0 < a) :
    a * roundedRoot a b c + (b * b - a * c).sqrt ≤ b ∧
      b < a * (roundedRoot a b c + 1) + (b * b - a * c).sqrt := by
  have hroot := sqrt_discriminant_le b (a * c)
  have hleast : a * roundedRoot a b c ≤ b - (b * b - a * c).sqrt := Nat.mul_div_le _ a
  have hnext : b - (b * b - a * c).sqrt < a * (roundedRoot a b c + 1) := Nat.lt_mul_div_succ _ ha
  omega

theorem roundedRoot_between (ha : 0 < a) (hreal : a * c ≤ b * b) :
    ⌊realRoot a b c⌋ ≤ roundedRoot a b c ∧ (roundedRoot a b c : ℤ) ≤ ⌈realRoot a b c⌉ := by
  obtain ⟨hlow, hhigh⟩ := sqrt_discriminant_between hreal
  obtain ⟨hleast, hnext⟩ := roundedRoot_bounds b c ha
  have hone : (1 : ℝ) ≤ a := by exact_mod_cast ha
  have hleast : (a : ℝ) * roundedRoot a b c + (b * b - a * c).sqrt ≤ b := by exact_mod_cast hleast
  have hnext : (b : ℝ) < a * (roundedRoot a b c + 1) + (b * b - a * c).sqrt := by
    exact_mod_cast hnext
  constructor
  · rw [Int.floor_le_iff, realRoot, div_lt_iff₀ (by linarith)]
    push_cast
    linarith
  · rw [Int.le_ceil_iff, realRoot, lt_div_iff₀ (by linarith)]
    push_cast
    linarith

end Roundings

section Refusals

variable {a b c discriminant : Word}

/-- Both terms of the discriminant fit their words. -/
def Fits (a b c : Word) : Prop := b.toNat * b.toNat < 2 ^ 256 ∧ a.toNat * c.toNat < 2 ^ 256

instance (a b c : Word) : Decidable (Fits a b c) := by
  unfold Fits
  infer_instance

theorem not_fits_iff :
    ¬ Fits a b c ↔ 2 ^ 256 ≤ b.toNat * b.toNat ∨ 2 ^ 256 ≤ a.toNat * c.toNat := by
  unfold Fits
  rw [not_and_or, Nat.not_lt, Nat.not_lt]

/-- The discriminant of the equation, which is taken first. -/
def discriminantOf (a b c : Word) : Except ArithmeticFailure Word := do
  subChecked (← mulChecked b b) (← mulChecked a c)

theorem smallerRoot_eq_bind (a b c : Word) :
    smallerRoot a b c = discriminantOf a b c >>= fun discriminant =>
      subChecked b (sqrtFloor discriminant) >>= fun rest => divChecked rest a := by
  unfold smallerRoot discriminantOf
  simp only [bind_assoc]

theorem discriminantOf_overflows (h : ¬ Fits a b c) :
    discriminantOf a b c = .error .overflow := by
  by_cases hsquare : b.toNat * b.toNat < 2 ^ 256
  · have hproduct : 2 ^ 256 ≤ a.toNat * c.toNat := Nat.not_lt.mp fun hlt => h ⟨hsquare, hlt⟩
    refine bind_eq_error.mpr (Or.inr ⟨b * b, if_pos hsquare, ?_⟩)
    exact bind_eq_error.mpr (Or.inl (mulChecked_eq_error.mpr ⟨hproduct, rfl⟩))
  · exact bind_eq_error.mpr (Or.inl (mulChecked_eq_error.mpr ⟨Nat.not_lt.mp hsquare, rfl⟩))

theorem discriminantOf_of_fits (h : Fits a b c) :
    discriminantOf a b c = subChecked (b * b) (a * c) := by
  unfold discriminantOf mulChecked
  rw [if_pos h.1, if_pos h.2]
  rfl

theorem discriminantOf_underflows (h : Fits a b c)
    (hnone : b.toNat * b.toNat < a.toNat * c.toNat) :
    discriminantOf a b c = .error .underflow := by
  rw [discriminantOf_of_fits h, subChecked_eq_error, BitVec.toNat_mul, BitVec.toNat_mul,
    Nat.mod_eq_of_lt h.1, Nat.mod_eq_of_lt h.2]
  exact ⟨hnone, rfl⟩

theorem exists_discriminant (h : Fits a b c) (hreal : a.toNat * c.toNat ≤ b.toNat * b.toNat) :
    ∃ discriminant, discriminantOf a b c = .ok discriminant := by
  have hle : a * c ≤ b * b := by
    rw [BitVec.le_def, BitVec.toNat_mul, BitVec.toNat_mul, Nat.mod_eq_of_lt h.1,
      Nat.mod_eq_of_lt h.2]
    exact hreal
  rw [discriminantOf_of_fits h]
  exact ⟨_, if_pos hle⟩

/-- The square root of a discriminant can be taken off. -/
theorem sqrtFloor_le (h : discriminantOf a b c = .ok discriminant) :
    sqrtFloor discriminant ≤ b := by
  obtain ⟨square, hsquare, h⟩ := bind_eq_ok.mp h
  obtain ⟨product, -, h⟩ := bind_eq_ok.mp h
  rw [mulChecked_eq_ok] at hsquare
  rw [subChecked_eq_ok] at h
  rw [BitVec.le_def, toNat_sqrtFloor, show discriminant.toNat =
    b.toNat * b.toNat - product.toNat by omega]
  exact sqrt_discriminant_le _ _

theorem exists_rest (h : discriminantOf a b c = .ok discriminant) :
    ∃ rest, subChecked b (sqrtFloor discriminant) = .ok rest :=
  ⟨_, if_pos (sqrtFloor_le h)⟩

/-- Where the terms of the discriminant fit and it has a root, the division alone can be refused. -/
theorem smallerRoot_of_real (h : Fits a b c) (hreal : a.toNat * c.toNat ≤ b.toNat * b.toNat) :
    ∃ rest, smallerRoot a b c = divChecked rest a := by
  obtain ⟨discriminant, hdiscriminant⟩ := exists_discriminant h hreal
  obtain ⟨rest, hrest⟩ := exists_rest hdiscriminant
  refine ⟨rest, ?_⟩
  rw [smallerRoot_eq_bind, hdiscriminant]
  change subChecked b (sqrtFloor discriminant) >>= _ = _
  rw [hrest]
  rfl

/-- What the smaller root comes to, or the first reason to refuse it. -/
theorem smallerRoot_eq (a b c : Word) :
    smallerRoot a b c =
      if ¬ Fits a b c then .error .overflow
      else if b.toNat * b.toNat < a.toNat * c.toNat then .error .underflow
      else if a = 0 then .error .divisionByZero
      else .ok (BitVec.ofNat 256 (roundedRoot a.toNat b.toNat c.toNat)) := by
  split
  next h =>
    rw [smallerRoot_eq_bind, discriminantOf_overflows h]
    rfl
  next h =>
    have hfits := not_not.mp h
    split
    next hnone =>
      rw [smallerRoot_eq_bind, discriminantOf_underflows hfits hnone]
      rfl
    next hreal =>
      obtain ⟨rest, hroot⟩ := smallerRoot_of_real hfits (Nat.not_lt.mp hreal)
      split
      next hzero => rw [hroot, divChecked, if_pos hzero]
      next hnonzero =>
        rw [divChecked, if_neg hnonzero] at hroot
        rw [hroot, Except.ok.injEq]
        apply BitVec.eq_of_toNat_eq
        have hx := (rest / a).isLt
        rw [(smallerRoot_eq_ok hroot).2.2] at hx ⊢
        exact (Nat.mod_eq_of_lt hx).symm

end Refusals

section Enclosures

variable {a b c x : Word}

theorem smallerRoot_between (h : smallerRoot a b c = .ok x) :
    ⌊realRoot a.toNat b.toNat c.toNat⌋ ≤ x.toNat ∧
      (x.toNat : ℤ) ≤ ⌈realRoot a.toNat b.toNat c.toNat⌉ := by
  obtain ⟨hpos, hreal, hvalue⟩ := smallerRoot_eq_ok h
  rw [hvalue]
  exact roundedRoot_between hpos hreal

theorem isLeast_of_smallerRoot (h : smallerRoot a b c = .ok x) :
    IsLeast {t : ℝ | a.toNat * t ^ 2 - 2 * b.toNat * t + c.toNat = 0}
      (realRoot a.toNat b.toNat c.toNat) := by
  obtain ⟨hpos, hreal, -⟩ := smallerRoot_eq_ok h
  refine isLeast_realRoot (Nat.cast_pos.mpr hpos) ?_
  rw [sq]
  exact_mod_cast hreal

end Enclosures

/-- The smaller root is refused with an overflow where a term of the discriminant does not fit its
word, else with an underflow where there is no root, else with a division by zero where the
equation is linear. The square root is never too much to take off. In every other case the result
lies between the two roundings of the least real root. -/
theorem smallerRoot_exact (a b c : Word) :
    (smallerRoot a b c = .error .overflow ↔
      2 ^ 256 ≤ b.toNat * b.toNat ∨ 2 ^ 256 ≤ a.toNat * c.toNat) ∧
    (smallerRoot a b c = .error .underflow ↔
      Fits a b c ∧ b.toNat * b.toNat < a.toNat * c.toNat) ∧
    (smallerRoot a b c = .error .divisionByZero ↔
      Fits a b c ∧ a.toNat * c.toNat ≤ b.toNat * b.toNat ∧ a = 0) ∧
    (∀ discriminant, discriminantOf a b c = .ok discriminant →
      ∃ rest, subChecked b (sqrtFloor discriminant) = .ok rest) ∧
    (Fits a b c → a.toNat * c.toNat ≤ b.toNat * b.toNat → a ≠ 0 →
      ∃ x, smallerRoot a b c = .ok x ∧
        IsLeast {t : ℝ | a.toNat * t ^ 2 - 2 * b.toNat * t + c.toNat = 0}
          (realRoot a.toNat b.toNat c.toNat) ∧
        ⌊realRoot a.toNat b.toNat c.toNat⌋ ≤ x.toNat ∧
        (x.toNat : ℤ) ≤ ⌈realRoot a.toNat b.toNat c.toNat⌉) := by
  have hroot := smallerRoot_eq a b c
  refine ⟨?_, ?_, ?_, fun _ => exists_rest, ?_⟩
  · rw [hroot, ← not_fits_iff]
    split_ifs <;> simp_all
  · rw [hroot]
    split_ifs <;> simp_all
  · rw [hroot]
    split_ifs <;> simp_all
  · intro hfits hreal hnonzero
    rw [if_neg (not_not.mpr hfits), if_neg (Nat.not_lt.mpr hreal), if_neg hnonzero] at hroot
    exact ⟨_, hroot, isLeast_of_smallerRoot hroot, smallerRoot_between hroot⟩

/-- The root of this discriminant is irrational, and what is left of `b` once it is rounded down is
a multiple of three, so the result is the real root rounded up. -/
theorem smallerRoot_exact_rounded_up :
    let a : Word := 3
    let b : Word := 0x80000000000000000000000000000000
    let c : Word := 0x100000000000000000000000000000002aaaaaaaaaaaaaaaaaaaaaaaaaaaaaab
    let x : Word := 28356863910078205288614550619314017622
    Fits a b c ∧ a.toNat * c.toNat ≤ b.toNat * b.toNat ∧ a ≠ 0 ∧
      (∃ discriminant rest, discriminantOf a b c = .ok discriminant ∧
        subChecked b (sqrtFloor discriminant) = .ok rest) ∧
      smallerRoot a b c = .ok x ∧
      ⌊realRoot a.toNat b.toNat c.toNat⌋ ≤ x.toNat ∧
      (x.toNat : ℤ) ≤ ⌈realRoot a.toNat b.toNat c.toNat⌉ := by
  intro a b c x
  have hfits : Fits a b c := by decide +kernel
  have hreal : a.toNat * c.toNat ≤ b.toNat * b.toNat := by decide +kernel
  have hnonzero : a ≠ 0 := by decide
  have hvalue : smallerRoot a b c = .ok x := by decide +kernel
  obtain ⟨-, -, -, hrests, hresult⟩ := smallerRoot_exact a b c
  obtain ⟨discriminant, hdiscriminant⟩ := exists_discriminant hfits hreal
  obtain ⟨rest, hrest⟩ := hrests discriminant hdiscriminant
  obtain ⟨y, hroot, -, hbetween⟩ := hresult hfits hreal hnonzero
  rw [hvalue, Except.ok.injEq] at hroot
  subst hroot
  exact ⟨hfits, hreal, hnonzero, ⟨discriminant, rest, hdiscriminant, hrest⟩, hvalue, hbetween⟩

end ReinvestingPool.Proofs.EnclosedRoots
