import Mathlib.Data.List.TakeWhile
import ReinvestingPool.JsonReading

/-!
A number is read back from its digits. A decimal numeral has no leading zero, so it is both a
natural number to its reader and a number of a JSON text.
-/

namespace ReinvestingPool.Proofs.WrittenNumerals

open Numerals JsonReading

variable {base value n d : Nat} {digits : List Char} {c : Char}

theorem digitValue_digitChar (h : d < 16) : digitValue (Nat.digitChar d) = some d := by
  have hall : ∀ d < 16, digitValue (Nat.digitChar d) = some d := by decide
  exact hall d h

theorem readDigits_snoc (hn : readDigits base value digits = some n)
    (hc : digitValue c = some d) (hd : d < base) :
    readDigits base value (digits ++ [c]) = some (base * n + d) := by
  induction digits generalizing value with
  | nil =>
    cases hn
    simp only [List.nil_append, readDigits, hc, if_pos hd]
  | cons first rest ih =>
    simp only [readDigits] at hn
    split at hn
    · rename_i digit hdigit
      split at hn
      · rename_i hless
        simp only [List.cons_append, readDigits, hdigit, if_pos hless]
        exact ih hn
      · cases hn
    · cases hn

/-- The digits of a number are those of its quotient by the base, and the last one. -/
theorem readDigits_toDigits (hbase : 1 < base) (hletters : base ≤ 16) (n : Nat) :
    readDigits base 0 (Nat.toDigits base n) = some n := by
  induction n using Nat.strongRecOn with
  | ind n ih =>
    rw [Nat.toDigits_eq_if hbase]
    split
    · rename_i hsmall
      simp only [readDigits, digitValue_digitChar (Nat.lt_of_lt_of_le hsmall hletters),
        if_pos hsmall, Nat.mul_zero, Nat.zero_add]
    · rename_i hlarge
      have hless : n / base < n := Nat.div_lt_self (by omega) hbase
      have hlast : n % base < base := Nat.mod_lt n (by omega)
      rw [readDigits_snoc (ih _ hless) (digitValue_digitChar (by omega)) hlast, Nat.div_add_mod]

theorem toDigits_head (hbase : 1 < base) (hn : n ≠ 0) :
    ∃ c digits, Nat.toDigits base n = c :: digits ∧ c ≠ '0' := by
  induction n using Nat.strongRecOn with
  | ind n ih =>
    rw [Nat.toDigits_eq_if hbase]
    split
    · exact ⟨_, [], rfl, mt Nat.digitChar_eq_zero.mp hn⟩
    · rename_i hlarge
      have hquotient : n / base ≠ 0 := by
        have hpos := Nat.div_pos (Nat.not_lt.mp hlarge) (by omega)
        omega
      obtain ⟨c, digits, hdigits, hc⟩ := ih _ (Nat.div_lt_self (by omega) hbase) hquotient
      exact ⟨c, digits ++ [(n % base).digitChar], by rw [hdigits]; rfl, hc⟩

theorem exists_digit_of_mem (hbase : 1 < base) (h : c ∈ Nat.toDigits base n) :
    ∃ d < base, c = Nat.digitChar d := by
  induction n using Nat.strongRecOn with
  | ind n ih =>
    rw [Nat.toDigits_eq_if hbase] at h
    split at h
    · rename_i hsmall
      exact ⟨n, hsmall, List.mem_singleton.mp h⟩
    · rename_i hlarge
      rcases List.mem_append.mp h with h | h
      · exact ih _ (Nat.div_lt_self (by omega) hbase) h
      · exact ⟨n % base, Nat.mod_lt n (by omega), List.mem_singleton.mp h⟩

theorem isDigit_of_mem_decimal (h : c ∈ decimal n) : isDigit c = true := by
  have hdigit := Nat.isDigit_of_mem_toDigits (by omega) (by omega) h
  simp only [Char.isDigit, Bool.and_eq_true, decide_eq_true_eq] at hdigit
  exact decide_eq_true hdigit

theorem natural?_of_head (hc : c ≠ '0') :
    natural? (c :: digits) = readDigits 10 0 (c :: digits) := by
  unfold natural?
  split <;> simp_all

theorem decimal_head (hn : n ≠ 0) : ∃ c digits, decimal n = c :: digits ∧ c ≠ '0' :=
  toDigits_head (by omega) hn

theorem natural?_decimal (n : Nat) : natural? (decimal n) = some n := by
  by_cases hn : n = 0
  · subst hn
    rfl
  · obtain ⟨c, digits, hdigits, hc⟩ := decimal_head hn
    rw [hdigits, natural?_of_head hc, ← hdigits]
    exact readDigits_toDigits (by omega) (by omega) n

theorem decimal_ne_nil (n : Nat) : decimal n ≠ [] := Nat.toDigits_ne_nil

theorem integer?_of_digits (hdigits : ∀ c ∈ digits, isDigit c = true) :
    integer? digits = (natural? digits).map fun n => (n : Int) := by
  unfold integer?
  split
  · exact absurd (hdigits '-' List.mem_cons_self) (by decide)
  · rfl

theorem integer?_signedDecimal (n : Int) : integer? (signedDecimal n) = some n := by
  unfold signedDecimal
  split
  · have hvalue : -(n.natAbs : Int) = n := by omega
    rw [integer?, natural?_decimal]
    exact congrArg some hvalue
  · have hvalue : (n.natAbs : Int) = n := by omega
    rw [integer?_of_digits fun c hc => isDigit_of_mem_decimal hc, natural?_decimal]
    exact congrArg some hvalue

/-- Zero is written without a sign. -/
theorem signedDecimal_ne_minus_zero (n : Int) : signedDecimal n ≠ ['-', '0'] := by
  intro h
  have hread := integer?_signedDecimal n
  rw [h] at hread
  have hzero : n = 0 := (Option.some.inj hread).symm
  subst hzero
  cases h

theorem numeral?_hexadecimal (n : Nat) : numeral? (hexadecimal n) = some n := by
  have hgroups : ∀ d < 16, Nat.digitChar d ≠ '_' := by decide
  have hplain : (Nat.toDigits 16 n).filter (· ≠ '_') = Nat.toDigits 16 n := by
    refine List.filter_eq_self.mpr fun c hc => ?_
    obtain ⟨d, hd, rfl⟩ := exists_digit_of_mem (by omega) hc
    exact decide_eq_true (hgroups d hd)
  simp only [hexadecimal, numeral?]
  rw [hplain, readDigits_toDigits (by omega) (by omega)]

theorem validMagnitude_decimal (n : Nat) : validMagnitude (decimal n) = true := by
  have hall : ∀ c ∈ decimal n, isDigit c = true := fun c hc => isDigit_of_mem_decimal hc
  unfold validMagnitude
  rw [List.takeWhile_eq_self_iff.mpr hall, List.dropWhile_eq_nil_iff.mpr hall]
  split
  · exact absurd ‹_› (decimal_ne_nil n)
  · rename_i hzero
    exfalso
    by_cases hn : n = 0
    · subst hn
      cases hzero
    · obtain ⟨c, digits, hdigits, hc⟩ := decimal_head hn
      rw [hdigits] at hzero
      exact hc (List.cons.inj hzero).1
  · rfl

theorem validNumber_of_digits (hdigits : ∀ c ∈ digits, isDigit c = true) :
    validNumber digits = validMagnitude digits := by
  unfold validNumber
  split
  · exact absurd (hdigits '-' List.mem_cons_self) (by decide)
  · rfl

theorem validNumber_decimal (n : Nat) : validNumber (decimal n) = true := by
  rw [validNumber_of_digits fun c hc => isDigit_of_mem_decimal hc]
  exact validMagnitude_decimal n

theorem validNumber_signedDecimal (n : Int) : validNumber (signedDecimal n) = true := by
  unfold signedDecimal
  split
  · exact validMagnitude_decimal n.natAbs
  · exact validNumber_decimal n.natAbs

theorem inNumber_of_isDigit (h : isDigit c = true) : inNumber c = true := by
  simp only [inNumber, h, true_or, decide_true]

theorem inNumber_of_mem_signedDecimal {n : Int} (h : c ∈ signedDecimal n) : inNumber c = true := by
  unfold signedDecimal at h
  split at h
  · rcases List.mem_cons.mp h with rfl | h
    · decide
    · exact inNumber_of_isDigit (isDigit_of_mem_decimal h)
  · exact inNumber_of_isDigit (isDigit_of_mem_decimal h)

end ReinvestingPool.Proofs.WrittenNumerals
