import Mathlib.Data.Nat.Sqrt
import Mathlib.Tactic.Linarith
import ReinvestingPool.SquareRoots

/-!
Averaging a guess with its quotient ends at the square root, rounded down. The smaller root of a
quadratic equation is refused where its coefficients do not fit or it has no root.
-/

namespace ReinvestingPool.Proofs.ExactRoots

open Failures Words SquareRoots

/-- The average of a guess and its quotient is not below the root. -/
theorem lt_average_square (n guess : Nat) (hguess : 0 < guess) :
    n < ((n / guess + guess) / 2 + 1) * ((n / guess + guess) / 2 + 1) := by
  have hquotient : n < guess * (n / guess + 1) := by
    have hsplit := Nat.div_add_mod n guess
    have hlt := Nat.mod_lt n hguess
    rw [Nat.mul_add, Nat.mul_one]
    omega
  generalize n / guess = a at *
  have hhalf : a + guess + 1 ≤ 2 * ((a + guess) / 2 + 1) := by omega
  generalize (a + guess) / 2 + 1 = h at *
  have hsquare := Nat.mul_le_mul hhalf hhalf
  nlinarith [sq_nonneg ((guess : Int) - a - 1)]

theorem square_le_of_average (n best : Nat) (hbest : 0 < best)
    (hstop : best ≤ (n / best + best) / 2) : best * best ≤ n := by
  have hle : best ≤ n / best := by omega
  rw [Nat.le_div_iff_mul_le hbest] at hle
  exact hle

theorem toNat_average (y guess : Word) (hlow : 2 ≤ guess.toNat)
    (hhigh : guess.toNat ≤ y.toNat / 2 + 1) :
    ((y / guess + guess) >>> 1).toNat = (y.toNat / guess.toNat + guess.toNat) / 2 := by
  have hy := y.isLt
  have hquotient : y.toNat / guess.toNat ≤ y.toNat / 2 := Nat.div_le_div_left hlow (by omega)
  rw [BitVec.toNat_ushiftRight, BitVec.toNat_add, BitVec.toNat_udiv,
    Nat.mod_eq_of_lt (by omega), Nat.shiftRight_eq_div_pow, Nat.pow_one]

theorem two_le_of_lt_square {n guess : Nat} (hlarge : 3 < n)
    (habove : n < (guess + 1) * (guess + 1)) : 2 ≤ guess := by
  by_contra hsmall
  have hone : guess + 1 ≤ 2 := by omega
  have hsquare := Nat.mul_le_mul hone hone
  omega

/-- Each guess stays at or above the root, and the last one is not above it. -/
theorem averageDown_root (y best guess : Word) (hlarge : 3 < y.toNat)
    (hbest : y.toNat < (best.toNat + 1) * (best.toNat + 1)) (hhigh : best.toNat ≤ y.toNat / 2 + 1)
    (hguess : guess.toNat = (y.toNat / best.toNat + best.toNat) / 2) :
    (averageDown y best guess).toNat = y.toNat.sqrt := by
  induction best, guess using averageDown.induct (y := y) with
  | case1 best guess hlt ih =>
    have hbestLow := two_le_of_lt_square hlarge hbest
    have habove := lt_average_square y.toNat best.toNat (by omega)
    rw [← hguess] at habove
    have hlow := two_le_of_lt_square hlarge habove
    rw [averageDown, if_pos hlt]
    rw [BitVec.lt_def] at hlt
    exact ih habove (by omega) (toNat_average y guess hlow (by omega))
  | case2 best guess hstop =>
    have hbestLow := two_le_of_lt_square hlarge hbest
    rw [averageDown, if_neg hstop]
    rw [BitVec.lt_def] at hstop
    have hsquare := square_le_of_average y.toNat best.toNat (by omega) (by omega)
    exact Nat.eq_sqrt.mpr ⟨hsquare, hbest⟩

theorem toNat_sqrtFloor (y : Word) : (sqrtFloor y).toNat = y.toNat.sqrt := by
  have hy := y.isLt
  unfold sqrtFloor
  by_cases hlarge : 3 < y
  · rw [if_pos hlarge]
    rw [BitVec.lt_def] at hlarge
    change 3 < y.toNat at hlarge
    have hstart : ((y >>> 1) + 1).toNat = y.toNat / 2 + 1 := by bv_omega
    have hbelow : (y >>> 1) + 1 < y := by
      rw [BitVec.lt_def, hstart]
      omega
    have habove : y.toNat < (y.toNat / 2 + 1 + 1) * (y.toNat / 2 + 1 + 1) := by
      generalize hhalf : y.toNat / 2 = half
      have hle : y.toNat ≤ 2 * half + 1 := by omega
      nlinarith
    rw [averageDown, if_pos hbelow]
    apply averageDown_root y _ _ hlarge
    · rw [hstart]
      exact habove
    · rw [hstart]
    · exact toNat_average y _ (by omega) (by omega)
  · rw [if_neg hlarge]
    rw [BitVec.lt_def] at hlarge
    change ¬ 3 < y.toNat at hlarge
    by_cases hzero : y = 0
    · rw [if_pos hzero, hzero]
      decide
    · rw [if_neg hzero]
      have hpos : 0 < y.toNat := Nat.pos_of_ne_zero fun h => hzero (BitVec.eq_of_toNat_eq h)
      exact Nat.eq_sqrt.mpr ⟨hpos, by change y.toNat < 4; omega⟩

/-- The discriminant and both products have to fit, and the leading coefficient is not zero. -/
theorem smallerRoot_eq_ok {a b c x : Word} (h : smallerRoot a b c = .ok x) :
    0 < a.toNat ∧ a.toNat * c.toNat ≤ b.toNat * b.toNat ∧
      x.toNat =
        (b.toNat - (b.toNat * b.toNat - a.toNat * c.toNat).sqrt) / a.toNat := by
  obtain ⟨square, hsquare, h⟩ := bind_eq_ok.mp h
  obtain ⟨product, hproduct, h⟩ := bind_eq_ok.mp h
  obtain ⟨discriminant, hdiscriminant, h⟩ := bind_eq_ok.mp h
  obtain ⟨rest, hrest, h⟩ := bind_eq_ok.mp h
  rw [mulChecked_eq_ok] at hsquare hproduct
  rw [subChecked_eq_ok] at hdiscriminant hrest
  rw [divChecked_eq_ok] at h
  rw [toNat_sqrtFloor] at hrest
  have hpos : 0 < a.toNat :=
    Nat.pos_of_ne_zero fun hzero => h.1 (BitVec.eq_of_toNat_eq hzero)
  have hd : discriminant.toNat = b.toNat * b.toNat - a.toNat * c.toNat := by omega
  refine ⟨hpos, by omega, ?_⟩
  rw [h.2, ← hd]
  congr 1
  omega

end ReinvestingPool.Proofs.ExactRoots
