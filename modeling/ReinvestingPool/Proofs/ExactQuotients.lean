import Mathlib.Data.BitVec
import Mathlib.Tactic.Ring
import ReinvestingPool.ProductQuotients

/-!
The quotient of a product, computed with two words and an inverse modulo the word size, is the
quotient of the natural numbers. A product is refused exactly where its divisor is zero or its
quotient does not fit in a word.
-/

namespace ReinvestingPool.Proofs.ExactQuotients

open Failures Words ProductQuotients

theorem toNat_pos (a : Word) (h : a ≠ 0) : 0 < a.toNat :=
  Nat.pos_of_ne_zero fun hzero => h (BitVec.eq_of_toNat_eq hzero)

theorem toNat_mulMod (a b m : Word) (hm : m ≠ 0) :
    (mulMod a b m).toNat = a.toNat * b.toNat % m.toNat := by
  have hlt := Nat.mod_lt (a.toNat * b.toNat) (toNat_pos m hm)
  have hm' := m.isLt
  rw [mulMod, BitVec.toNat_ofNat]
  exact Nat.mod_eq_of_lt (by omega)

/-- A high word is recovered from the sum of both words with an end-around carry. -/
theorem toNat_unfold (high : Nat) (low folded : Word) (hhigh : high ≤ 2 ^ 256 - 2)
    (hfolded : folded.toNat = (high + low.toNat) % (2 ^ 256 - 1)) :
    (folded - low - (if folded < low then 1 else 0)).toNat = high := by
  have hlow := low.isLt
  by_cases hsum : high + low.toNat < 2 ^ 256 - 1
  · rw [Nat.mod_eq_of_lt hsum] at hfolded
    have hle : ¬ folded < low := by
      rw [BitVec.lt_def]
      omega
    rw [if_neg hle]
    bv_omega
  · rw [Nat.mod_eq_sub_mod (by omega), Nat.mod_eq_of_lt (by omega)] at hfolded
    have hlt : folded < low := by
      rw [BitVec.lt_def]
      omega
    rw [if_pos hlt]
    bv_omega

theorem fullProduct_high (a b : Word) :
    (fullProduct a b).1.toNat = a.toNat * b.toNat / 2 ^ 256 := by
  have hproduct : a.toNat * b.toNat ≤ (2 ^ 256 - 1) * (2 ^ 256 - 1) :=
    Nat.mul_le_mul (by omega) (by omega)
  have hlow : (a * b).toNat = a.toNat * b.toNat % 2 ^ 256 := BitVec.toNat_mul a b
  apply toNat_unfold
  · omega
  · rw [toNat_mulMod a b _ (by decide), BitVec.toNat_allOnes, hlow]
    omega

/-- An inverse of an odd word up to `m` gives one up to the square of `m`. -/
theorem dvd_refineInverse (odd x m : Word) (h : m ∣ 1 - odd * x) :
    m * m ∣ 1 - odd * refineInverse odd x := by
  obtain ⟨c, hc⟩ := h
  refine ⟨c * c, ?_⟩
  calc
    1 - odd * refineInverse odd x = (1 - odd * x) * (1 - odd * x) := by
      unfold refineInverse
      ring
    _ = m * m * (c * c) := by
      rw [hc]
      ring

theorem dvd_startInverse (odd : Word) (h : odd.getLsbD 0 = true) :
    16 ∣ 1 - odd * ((3 * odd) ^^^ 2) := by
  have hnibble : ∀ o : BitVec 4, o.getLsbD 0 = true → 1 + -(o * ((3 * o) ^^^ 2)) = 0 := by
    decide
  have hlow : (1 - odd * ((3 * odd) ^^^ 2)).setWidth 4 = 0 := by
    have ho : (odd.setWidth 4).getLsbD 0 = true := by simpa using h
    rw [BitVec.sub_eq_add_neg, BitVec.setWidth_add _ _ (by omega),
      BitVec.setWidth_neg_of_le (by omega), BitVec.setWidth_mul _ _ (by omega),
      BitVec.setWidth_xor, BitVec.setWidth_mul _ _ (by omega)]
    exact hnibble _ ho
  generalize 1 - odd * ((3 * odd) ^^^ 2) = t at hlow
  refine ⟨t >>> 4, ?_⟩
  have hzero := congrArg BitVec.toNat hlow
  rw [BitVec.toNat_setWidth] at hzero
  bv_omega

theorem odd_mul_oddInverse (odd : Word) (h : odd.getLsbD 0 = true) :
    odd * oddInverse odd = 1 := by
  have h1 := dvd_refineInverse odd _ _ (dvd_startInverse odd h)
  have h2 := dvd_refineInverse odd _ _ h1
  have h3 := dvd_refineInverse odd _ _ h2
  have h4 := dvd_refineInverse odd _ _ h3
  have h5 := dvd_refineInverse odd _ _ h4
  obtain ⟨c, hc⟩ := dvd_refineInverse odd _ _ h5
  change 1 - odd * oddInverse odd = 0 * c at hc
  rw [zero_mul] at hc
  exact (sub_eq_zero.mp hc).symm

/-- Negation keeps the lowest one of a word and flips every bit above it. -/
theorem neg_and_self (d : Word) (k : Nat) (hk : k < 256) (hone : d.getLsbD k = true)
    (hzero : ∀ j < k, d.getLsbD j = false) : -d &&& d = BitVec.twoPow 256 k := by
  apply BitVec.eq_of_getLsbD_eq
  intro i hi
  rw [BitVec.getLsbD_and, BitVec.getLsbD_neg, BitVec.getLsbD_twoPow]
  rcases Nat.lt_trichotomy i k with hlt | rfl | hgt
  · simp [hzero i hlt, Nat.ne_of_gt hlt]
  · have hnone : ¬ ∃ j < i, d.getLsbD j = true := by
      intro h
      rcases h with ⟨j, hj, hbit⟩
      rw [hzero j hj] at hbit
      cases hbit
    simp [hnone, hone, hi]
  · have hsome : ∃ j < i, d.getLsbD j = true := ⟨k, hgt, hone⟩
    simp [hsome, hi, Nat.ne_of_lt hgt]

theorem exists_lowest_one (d : Word) (h : d ≠ 0) :
    ∃ k < 256, d.getLsbD k = true ∧ ∀ j < k, d.getLsbD j = false := by
  have hsome : ∃ k, d.getLsbD k = true := by
    by_contra hnone
    apply h
    apply BitVec.eq_of_getLsbD_eq
    intro i hi
    simpa using fun hbit => hnone ⟨i, hbit⟩
  classical
  refine ⟨Nat.find hsome, ?_, Nat.find_spec hsome, fun j hj => ?_⟩
  · exact BitVec.lt_of_getLsbD (Nat.find_spec hsome)
  · simpa using Nat.find_min hsome hj

theorem two_pow_dvd_of_zeros (d : Word) (k : Nat) (hzero : ∀ j < k, d.getLsbD j = false) :
    2 ^ k ∣ d.toNat := by
  apply Nat.dvd_of_mod_eq_zero
  apply Nat.eq_of_testBit_eq
  intro i
  rw [Nat.testBit_mod_two_pow, Nat.zero_testBit]
  by_cases hi : i < k
  · have hbit := hzero i hi
    rw [BitVec.getLsbD] at hbit
    simp [hbit]
  · simp [hi]

/-- The factor by which the high word is moved once `2 ^ k` is shifted out. -/
theorem toNat_moved (high : Word) (k : Nat) (hk : k < 256) :
    (high * (-BitVec.twoPow 256 k / BitVec.twoPow 256 k + 1)).toNat =
      2 ^ (256 - k) * (high.toNat % 2 ^ k) := by
  have hpow : (2 : Nat) ^ k < 2 ^ 256 := Nat.pow_lt_pow_right (by omega) hk
  have hpos : 0 < (2 : Nat) ^ k := Nat.two_pow_pos k
  have hsplit : (2 : Nat) ^ 256 = 2 ^ (256 - k) * 2 ^ k := by
    rw [← Nat.pow_add]
    congr 1
    omega
  have hneg : (-BitVec.twoPow 256 k).toNat = 2 ^ 256 - 2 ^ k := by
    rw [BitVec.toNat_neg, BitVec.toNat_twoPow_of_lt hk]
    exact Nat.mod_eq_of_lt (by omega)
  have hquotient : (2 ^ 256 - 2 ^ k) / 2 ^ k + 1 = 2 ^ (256 - k) := by
    have hpos' : 0 < (2 : Nat) ^ (256 - k) := Nat.two_pow_pos _
    rw [hsplit, show 2 ^ (256 - k) * 2 ^ k - 2 ^ k = (2 ^ (256 - k) - 1) * 2 ^ k by
      rw [Nat.sub_mul, Nat.one_mul], Nat.mul_div_cancel _ hpos]
    omega
  have hfactor : (-BitVec.twoPow 256 k / BitVec.twoPow 256 k + 1).toNat =
      2 ^ (256 - k) % 2 ^ 256 := by
    rw [BitVec.toNat_add, BitVec.toNat_udiv, hneg, BitVec.toNat_twoPow_of_lt hk]
    simp only [BitVec.ofNat_eq_ofNat, BitVec.toNat_ofNat, hquotient]
  rw [BitVec.toNat_mul, hfactor, Nat.mul_mod_mod, Nat.mul_comm]
  conv_lhs => rw [hsplit]
  exact Nat.mul_mod_mul_left ..

/-- Shifting out the powers of two joins what is left of both words. -/
theorem joined_words (high low : Word) (k m : Nat) (hk : k < 256)
    (hvalue : high.toNat * 2 ^ 256 + low.toNat = m) :
    low / BitVec.twoPow 256 k |||
        high * (-BitVec.twoPow 256 k / BitVec.twoPow 256 k + 1) = BitVec.ofNat 256 (m / 2 ^ k) := by
  have hpos : 0 < (2 : Nat) ^ k := Nat.two_pow_pos k
  have hsplit : (2 : Nat) ^ 256 = 2 ^ k * 2 ^ (256 - k) := by
    rw [← Nat.pow_add]
    congr 1
    omega
  have hsmall : low.toNat / 2 ^ k < 2 ^ (256 - k) := by
    rw [Nat.div_lt_iff_lt_mul hpos, Nat.mul_comm, ← hsplit]
    exact low.isLt
  have hshifted : m / 2 ^ k = 2 ^ (256 - k) * high.toNat + low.toNat / 2 ^ k := by
    rw [← hvalue, hsplit, show high.toNat * (2 ^ k * 2 ^ (256 - k)) =
      2 ^ (256 - k) * high.toNat * 2 ^ k by ring, Nat.add_comm, Nat.add_mul_div_right _ _ hpos,
      Nat.add_comm]
  apply BitVec.eq_of_toNat_eq
  rw [BitVec.toNat_or, BitVec.toNat_udiv, BitVec.toNat_twoPow_of_lt hk, toNat_moved high k hk,
    Nat.or_comm, ← Nat.two_pow_add_eq_or_of_lt hsmall, BitVec.toNat_ofNat, hshifted]
  have hmod : 2 ^ (256 - k) * high.toNat % 2 ^ 256 = 2 ^ (256 - k) * (high.toNat % 2 ^ k) := by
    rw [hsplit, Nat.mul_comm (2 ^ k)]
    exact Nat.mul_mod_mul_left ..
  have hbound : 2 ^ (256 - k) * (high.toNat % 2 ^ k) + low.toNat / 2 ^ k < 2 ^ 256 := by
    have hlt := Nat.mod_lt high.toNat hpos
    calc
      _ < 2 ^ (256 - k) * (high.toNat % 2 ^ k) + 2 ^ (256 - k) := by omega
      _ = 2 ^ (256 - k) * (high.toNat % 2 ^ k + 1) := by ring
      _ ≤ 2 ^ (256 - k) * 2 ^ k := Nat.mul_le_mul_left _ (by omega)
      _ = 2 ^ 256 := by rw [hsplit, Nat.mul_comm]
  rw [← Nat.mod_add_mod, hmod, Nat.mod_eq_of_lt hbound]

/-- Both words of a product without its remainder, which may borrow from the high word. -/
theorem reduced_value (high low remainder : Word)
    (hle : remainder.toNat ≤ high.toNat * 2 ^ 256 + low.toNat) :
    (high - (if low < remainder then 1 else 0)).toNat * 2 ^ 256 + (low - remainder).toNat =
      high.toNat * 2 ^ 256 + low.toNat - remainder.toNat := by
  have hhigh := high.isLt
  have hlow := low.isLt
  have hremainder := remainder.isLt
  by_cases hborrow : low < remainder
  · rw [if_pos hborrow]
    rw [BitVec.lt_def] at hborrow
    have h1 : (high - 1).toNat = high.toNat - 1 := by bv_omega
    have h2 : (low - remainder).toNat = 2 ^ 256 + low.toNat - remainder.toNat := by bv_omega
    omega
  · rw [if_neg hborrow]
    rw [BitVec.lt_def] at hborrow
    have h1 : (high - 0).toNat = high.toNat := by bv_omega
    have h2 : (low - remainder).toNat = low.toNat - remainder.toNat := by bv_omega
    omega

theorem longQuotient_eq (a b divisor high low : Word) (hdivisor : divisor ≠ 0)
    (hvalue : high.toNat * 2 ^ 256 + low.toNat = a.toNat * b.toNat) :
    longQuotient a b divisor high low =
      BitVec.ofNat 256 (a.toNat * b.toNat / divisor.toNat) := by
  obtain ⟨k, hk, hone, hzero⟩ := exists_lowest_one divisor hdivisor
  have htwos := neg_and_self divisor k hk hone hzero
  obtain ⟨odd, hodd⟩ := two_pow_dvd_of_zeros divisor k hzero
  have hpos : 0 < (2 : Nat) ^ k := Nat.two_pow_pos k
  have hremainder := toNat_mulMod a b divisor hdivisor
  have hreduced := reduced_value high low (mulMod a b divisor) (by
    rw [hremainder, hvalue]
    exact Nat.mod_le _ _)
  rw [hvalue, hremainder] at hreduced
  have hexact : a.toNat * b.toNat - a.toNat * b.toNat % divisor.toNat =
      2 ^ k * (a.toNat * b.toNat / divisor.toNat * odd) := by
    have hdiv := Nat.div_add_mod (a.toNat * b.toNat) divisor.toNat
    calc
      _ = divisor.toNat * (a.toNat * b.toNat / divisor.toNat) := by omega
      _ = 2 ^ k * (a.toNat * b.toNat / divisor.toNat * odd) := by
        generalize a.toNat * b.toNat / divisor.toNat = q
        rw [hodd]
        ring
  have hjoined := joined_words _ _ k _ hk hreduced
  rw [hexact, Nat.mul_div_cancel_left _ hpos] at hjoined
  have hrest : divisor / BitVec.twoPow 256 k = BitVec.ofNat 256 odd := by
    apply BitVec.eq_of_toNat_eq
    rw [BitVec.toNat_udiv, BitVec.toNat_twoPow_of_lt hk, hodd, Nat.mul_div_cancel_left _ hpos,
      BitVec.toNat_ofNat]
    have hlt := divisor.isLt
    have hle : odd ≤ 2 ^ k * odd := Nat.le_mul_of_pos_left _ hpos
    exact (Nat.mod_eq_of_lt (by omega)).symm
  have hbit : (BitVec.ofNat 256 odd).getLsbD 0 = true := by
    rw [← hrest, BitVec.udiv_twoPow_eq_of_lt hk, BitVec.getLsbD_ushiftRight]
    exact hone
  have hinverse := odd_mul_oddInverse _ hbit
  simp only [longQuotient, htwos, hrest, hjoined]
  rw [BitVec.ofNat_mul, mul_assoc, hinverse, mul_one]

theorem mulDivFloor_eq_ok {a b divisor q : Word} :
    mulDivFloor a b divisor = .ok q ↔
      0 < divisor.toNat ∧ q.toNat = a.toNat * b.toNat / divisor.toNat := by
  have hq := q.isLt
  have hhigh := fullProduct_high a b
  have hlow : (a * b).toNat = a.toNat * b.toNat % 2 ^ 256 := BitVec.toNat_mul a b
  have hvalue : (fullProduct a b).1.toNat * 2 ^ 256 + (a * b).toNat = a.toNat * b.toNat := by
    omega
  have hunfold : mulDivFloor a b divisor =
      if (fullProduct a b).1 = 0 then divChecked (a * b) divisor
      else if divisor ≤ (fullProduct a b).1 then
        .error (if divisor = 0 then .divisionByZero else .overflow)
      else .ok (longQuotient a b divisor (fullProduct a b).1 (a * b)) := rfl
  rw [hunfold]
  generalize (fullProduct a b).1 = high at *
  have hnonzero : divisor ≠ 0 ↔ 0 < divisor.toNat :=
    ⟨toNat_pos divisor, fun hpos hzero => by simp [hzero] at hpos⟩
  by_cases hshort : high = 0
  · subst hshort
    have hword : (a * b).toNat = a.toNat * b.toNat := by simpa using hvalue
    rw [if_pos rfl, divChecked_eq_ok, hnonzero, hword]
  · rw [if_neg hshort]
    by_cases hwide : divisor ≤ high
    · rw [if_pos hwide]
      simp only [reduceCtorEq, false_iff, not_and]
      intro hpos hquotient
      have hfits : a.toNat * b.toNat < 2 ^ 256 * divisor.toNat := by
        rw [← Nat.div_lt_iff_lt_mul hpos, ← hquotient]
        exact hq
      rw [BitVec.le_def] at hwide
      omega
    · rw [if_neg hwide, Except.ok.injEq]
      rw [BitVec.le_def] at hwide
      have hpos : 0 < divisor.toNat := by omega
      have hfits : a.toNat * b.toNat / divisor.toNat < 2 ^ 256 := by
        rw [Nat.div_lt_iff_lt_mul hpos]
        omega
      rw [longQuotient_eq a b divisor high (a * b) (hnonzero.mpr hpos) hvalue,
        ← BitVec.toNat_inj, BitVec.toNat_ofNat, Nat.mod_eq_of_lt hfits]
      exact ⟨fun h => ⟨hpos, h.symm⟩, fun h => h.2.symm⟩

theorem ceil_quotient (p d : Nat) (hd : 0 < d) :
    (p + (d - 1)) / d = p / d + if p % d = 0 then 0 else 1 := by
  have hsplit := Nat.div_add_mod p d
  have hlt := Nat.mod_lt p hd
  generalize p / d = q at *
  generalize p % d = r at *
  rw [← hsplit, Nat.add_assoc, Nat.mul_add_div hd]
  congr 1
  by_cases hr : r = 0
  · rw [if_pos hr, hr, Nat.zero_add]
    exact Nat.div_eq_of_lt (by omega)
  · rw [if_neg hr]
    exact Nat.div_eq_of_lt_le (by omega) (by omega)

theorem mulDivCeil_eq_ok {a b divisor q : Word} :
    mulDivCeil a b divisor = .ok q ↔
      0 < divisor.toNat ∧ q.toNat = (a.toNat * b.toNat + (divisor.toNat - 1)) / divisor.toNat := by
  have hrounds : ∀ floor : Word, 0 < divisor.toNat →
      floor.toNat = a.toNat * b.toNat / divisor.toNat →
      ((if mulMod a b divisor = 0 then (return floor) else addChecked floor 1) = .ok q ↔
        q.toNat = (a.toNat * b.toNat + (divisor.toNat - 1)) / divisor.toNat) := by
    intro floor hpos hfloor
    have hdivisor : divisor ≠ 0 := fun hzero => by simp [hzero] at hpos
    have hexact : mulMod a b divisor = 0 ↔ a.toNat * b.toNat % divisor.toNat = 0 := by
      rw [← BitVec.toNat_inj, toNat_mulMod a b divisor hdivisor]
      rfl
    rw [ceil_quotient _ _ hpos, ← hfloor]
    by_cases hzero : a.toNat * b.toNat % divisor.toNat = 0
    · rw [if_pos (hexact.mpr hzero), if_pos hzero, Nat.add_zero]
      change Except.ok floor = .ok q ↔ _
      rw [Except.ok.injEq, ← BitVec.toNat_inj]
      exact eq_comm
    · rw [if_neg (fun h => hzero (hexact.mp h)), if_neg hzero]
      exact addChecked_eq_ok
  unfold mulDivCeil
  rw [bind_eq_ok]
  constructor
  · intro h
    rcases h with ⟨floor, hfloor, h⟩
    obtain ⟨hpos, hvalue⟩ := mulDivFloor_eq_ok.mp hfloor
    exact ⟨hpos, (hrounds floor hpos hvalue).mp h⟩
  · intro h
    rcases h with ⟨hpos, hvalue⟩
    have hq := q.isLt
    have hfits : a.toNat * b.toNat / divisor.toNat < 2 ^ 256 := by
      have hle : a.toNat * b.toNat / divisor.toNat ≤ q.toNat := by
        rw [hvalue]
        exact Nat.div_le_div_right (Nat.le_add_right _ _)
      omega
    have hfloor : (BitVec.ofNat 256 (a.toNat * b.toNat / divisor.toNat)).toNat =
        a.toNat * b.toNat / divisor.toNat := by
      rw [BitVec.toNat_ofNat, Nat.mod_eq_of_lt hfits]
    exact ⟨_, mulDivFloor_eq_ok.mpr ⟨hpos, hfloor⟩, (hrounds _ hpos hfloor).mpr hvalue⟩

end ReinvestingPool.Proofs.ExactQuotients
