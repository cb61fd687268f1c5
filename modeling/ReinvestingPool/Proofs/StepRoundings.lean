import ReinvestingPool.Proofs.ReachShortfalls

/-!
The roundings of a step that is used up inside a range. The price at its end is rounded towards the
start: the liquidity that the amount stands for is rounded down first, and the quotient is then
rounded the way in which that one has gone. What is exchanged is rounded up twice, and an inflow of
one unit against a sale is dropped.
-/

namespace ReinvestingPool.Proofs.StepRoundings

open Failures Words Directions ProductQuotients Scales SignedAmounts RangeSteps ExactQuotients
open RestPrices StepExchanges StepProducts ReachShortfalls

/-- The liquidity whose reserve of the named token is an amount, without rounding. -/
def exactLiquidity (amount price : ℚ) (token : Token) : ℚ :=
  match token with
  | .zero => amount * price / 2 ^ 96
  | .one => amount * 2 ^ 96 / price

/-- The liquidity whose reserve of the named token is what there is once the amount is moved. -/
def exactMoved (amount liquidity current : ℚ) (side : Side) (token : Token) : ℚ :=
  match side with
  | .sell => liquidity + exactLiquidity amount current token
  | .buy => liquidity - exactLiquidity amount current token

/-- The price at the end of a step that uses up an amount, without rounding. -/
def exactEnd (amount liquidity added current : ℚ) (side : Side) (token : Token) : ℚ :=
  match token with
  | .zero => (liquidity + added) * current / exactMoved amount liquidity current side .zero
  | .one => exactMoved amount liquidity current side .one * current / (liquidity + added)

/-- All that the end of a step is divided by is positive. -/
def HasEnd (amount liquidity added current : ℚ) (side : Side) (token : Token) : Prop :=
  match token with
  | .zero => 0 < exactMoved amount liquidity current side .zero
  | .one => 0 < current ∧ 0 < liquidity + added

/-- A price does not lie beyond an exact one, as the direction of travel goes. -/
def NotBeyond (direction : Direction) (exact : ℚ) (price : Nat) : Prop :=
  match direction with
  | .rising => price ≤ exact
  | .falling => exact ≤ price

/-- The change of the pool's holding of the token that is not named, without rounding. -/
def exactHolding (liquidity current next added : ℚ) (token : Token) : ℚ :=
  match token with
  | .zero => added * next / 2 ^ 96 + liquidity * (next - current) / 2 ^ 96
  | .one => (liquidity + added) * 2 ^ 96 / next - liquidity * 2 ^ 96 / current

/-- A whole number is no less than an exact one, and less than some excess above it. -/
structure Exceeds (excess exact : ℚ) (n : Int) : Prop where
  le : exact ≤ n
  lt : n < exact + excess

section Ceilings

variable {loss excess more exact other : ℚ} {m n : Int} {k d : Nat}

theorem exceeds_roundedUp (k : Nat) (hd : 0 < d) : Exceeds 1 (k / d) (roundedUp k d) := by
  refine ⟨le_roundedUp k hd, ?_⟩
  have hpos : (0 : ℚ) < d := Nat.cast_pos.mpr hd
  have hceil : (roundedUp k d : ℚ) ≤ ((k + (d - 1) : Nat) : ℚ) / d := Nat.cast_div_le
  refine hceil.trans_lt ?_
  rw [div_add_one hpos.ne', div_lt_div_iff_of_pos_right hpos]
  exact_mod_cast (by omega : k + (d - 1) < k + d)

theorem exceeds_neg (h : FallsShort loss exact k) : Exceeds loss (-exact) (-k) := by
  have hle := h.le
  have hlt := h.lt
  refine ⟨?_, ?_⟩
  · rw [Int.cast_neg, Int.cast_natCast]
    exact neg_le_neg hle
  · rw [Int.cast_neg, Int.cast_natCast]
    linarith

theorem Exceeds.add (h : Exceeds excess exact m) (hother : Exceeds more other n) :
    Exceeds (excess + more) (exact + other) (m + n) := by
  have hlt := h.lt
  have hmore := hother.lt
  refine ⟨?_, ?_⟩
  · rw [Int.cast_add]
    exact add_le_add h.le hother.le
  · rw [Int.cast_add]
    linarith

end Ceilings

variable {amount liquidity added current next change moved price : Word} {exchanged : Amount}
variable {side : Side} {token : Token}

section Ends

theorem floor_le {a b divisor q : Word} (h : mulDivFloor a b divisor = .ok q) :
    (q.toNat : ℚ) ≤ a.toNat * b.toNat / divisor.toNat := by
  rw [(mulDivFloor_eq_ok.mp h).2, ← Nat.cast_mul]
  exact Nat.cast_div_le

theorem le_ceil {a b divisor q : Word} (h : mulDivCeil a b divisor = .ok q) :
    (a.toNat * b.toNat / divisor.toNat : ℚ) ≤ q.toNat := by
  obtain ⟨hpos, hvalue⟩ := mulDivCeil_eq_ok.mp h
  rw [hvalue, ← Nat.cast_mul]
  exact le_roundedUp _ hpos

theorem liquidityOf_falls_short (h : liquidityOf token amount current = .ok change) :
    FallsShort 1 (exactLiquidity amount.toNat current.toNat token) change.toNat := by
  cases token with
  | zero =>
    obtain ⟨hpos, hvalue⟩ := mulDivFloor_eq_ok.mp h
    have hshort := fallsShort_div (amount.toNat * current.toNat) hpos
    rw [← hvalue, toNat_priceUnit] at hshort
    simpa only [exactLiquidity, Nat.cast_mul, Nat.cast_pow, Nat.cast_ofNat] using hshort
  | one =>
    obtain ⟨hpos, hvalue⟩ := mulDivFloor_eq_ok.mp h
    have hshort := fallsShort_div (amount.toNat * priceUnit.toNat) hpos
    rw [← hvalue, toNat_priceUnit] at hshort
    simpa only [exactLiquidity, Nat.cast_mul, Nat.cast_pow, Nat.cast_ofNat] using hshort

/-- A sale moves the liquidity no further than the amount does, and so does a purchase. -/
theorem moved_not_beyond (hchange : liquidityOf token amount current = .ok change)
    (h : moveReserve side liquidity change = .ok moved) :
    match side with
    | .sell => (moved.toNat : ℚ) ≤ exactMoved amount.toNat liquidity.toNat current.toNat .sell token
    | .buy => exactMoved amount.toNat liquidity.toNat current.toNat .buy token ≤ moved.toNat := by
  have hshort := (liquidityOf_falls_short hchange).le
  cases side with
  | sell =>
    rw [addChecked_eq_ok.mp h, Nat.cast_add]
    exact add_le_add_right hshort _
  | buy =>
    have hsplit : (moved.toNat : ℚ) + change.toNat = liquidity.toNat := by
      exact_mod_cast subChecked_eq_ok.mp h
    simp only [exactMoved]
    linarith

/-- The exact liquidity is positive where the rounded one is, which is at least one and less than
one away from it. -/
theorem exactMoved_pos (hchange : liquidityOf token amount current = .ok change)
    (h : moveReserve side liquidity change = .ok moved) (hpos : 0 < moved.toNat) :
    0 < exactMoved amount.toNat liquidity.toNat current.toNat side token := by
  have hleast : (1 : ℚ) ≤ moved.toNat := by exact_mod_cast hpos
  cases side with
  | sell => exact (zero_lt_one.trans_le hleast).trans_le (moved_not_beyond hchange h)
  | buy =>
    have hsplit : (moved.toNat : ℚ) + change.toNat = liquidity.toNat := by
      exact_mod_cast subChecked_eq_ok.mp h
    have hshort := (liquidityOf_falls_short hchange).lt
    simp only [exactMoved]
    linarith

theorem finalPrice_not_beyond
    (h : finalPrice amount liquidity added current side token = .ok price) :
    HasEnd amount.toNat liquidity.toNat added.toNat current.toNat side token ∧
      NotBeyond (travel side token)
        (exactEnd amount.toNat liquidity.toNat added.toNat current.toNat side token)
        price.toNat := by
  obtain ⟨grown, hgrown, h⟩ := bind_eq_ok.mp h
  obtain ⟨change, hchange, h⟩ := bind_eq_ok.mp h
  obtain ⟨moved, hmoved, h⟩ := bind_eq_ok.mp h
  have hgrown : (grown.toNat : ℚ) = liquidity.toNat + added.toNat := by
    rw [addChecked_eq_ok.mp hgrown, Nat.cast_add]
  have hbound := moved_not_beyond hchange hmoved
  cases token with
  | zero =>
    have hvalue : (0 : ℚ) ≤ (liquidity.toNat + added.toNat) * current.toNat := by positivity
    cases side with
    | sell =>
      have hpos := (mulDivCeil_eq_ok.mp h).1
      have hprice := le_ceil h
      rw [hgrown] at hprice
      refine ⟨exactMoved_pos hchange hmoved hpos, le_trans ?_ hprice⟩
      exact div_le_div_of_nonneg_left hvalue (Nat.cast_pos.mpr hpos) hbound
    | buy =>
      have hpos := (mulDivFloor_eq_ok.mp h).1
      have hexact := exactMoved_pos hchange hmoved hpos
      have hprice := floor_le h
      rw [hgrown] at hprice
      exact ⟨hexact, hprice.trans (div_le_div_of_nonneg_left hvalue hexact hbound)⟩
  | one =>
    have hcurrent : (0 : ℚ) < current.toNat := Nat.cast_pos.mpr (mulDivFloor_eq_ok.mp hchange).1
    cases side with
    | sell =>
      have hpos : (0 : ℚ) < grown.toNat := Nat.cast_pos.mpr (mulDivFloor_eq_ok.mp h).1
      have hprice := floor_le h
      rw [hgrown] at hpos hprice
      refine ⟨⟨hcurrent, hpos⟩, hprice.trans ?_⟩
      exact div_le_div_of_nonneg_right (mul_le_mul_of_nonneg_right hbound hcurrent.le) hpos.le
    | buy =>
      have hpos : (0 : ℚ) < grown.toNat := Nat.cast_pos.mpr (mulDivCeil_eq_ok.mp h).1
      have hprice := le_ceil h
      rw [hgrown] at hpos hprice
      refine ⟨⟨hcurrent, hpos⟩, le_trans ?_ hprice⟩
      exact div_le_div_of_nonneg_right (mul_le_mul_of_nonneg_right hbound hcurrent.le) hpos.le

end Ends

section Exchanges

theorem moveAt_exceeds (liquidity : Nat) {price next : Nat}
    (honward : ¬ Before (travel side .zero) next price) :
    Exceeds 1 (liquidity * ((next : ℚ) - price) / 2 ^ 96) (moveAt side liquidity price next) := by
  cases side with
  | sell =>
    have hle := Nat.not_lt.mp honward
    have hmove := exceeds_neg
      (fallsShort_div (liquidity * (price - next)) (Nat.two_pow_pos 96))
    rw [Nat.cast_mul, Nat.cast_sub hle, ← neg_div, ← mul_neg, neg_sub] at hmove
    exact_mod_cast hmove
  | buy =>
    have hle := Nat.not_lt.mp honward
    have hmove := exceeds_roundedUp (liquidity * (next - price)) (Nat.two_pow_pos 96)
    rw [Nat.cast_mul, Nat.cast_sub hle] at hmove
    exact_mod_cast hmove

theorem holdingAt_exceeds (liquidity added : Nat) {price next : Nat}
    (hpos : token = .one → 0 < price ∧ 0 < next)
    (honward : token = .zero → ¬ Before (travel side .zero) next price) :
    Exceeds 2 (exactHolding liquidity price next added token)
      (holdingAt side token liquidity price next added) := by
  cases token with
  | zero =>
    have hfee := exceeds_roundedUp (added * next) (Nat.two_pow_pos 96)
    have hsum := hfee.add (moveAt_exceeds liquidity (honward rfl))
    rw [one_add_one_eq_two] at hsum
    simpa only [exactHolding, holdingAt, Nat.cast_mul, Nat.cast_pow, Nat.cast_ofNat] using hsum
  | one =>
    obtain ⟨hprice, hnext⟩ := hpos rfl
    have hafter := exceeds_roundedUp ((liquidity + added) * 2 ^ 96) hnext
    have hsum := hafter.add (exceeds_neg (fallsShort_div (liquidity * 2 ^ 96) hprice))
    rw [one_add_one_eq_two, ← sub_eq_add_neg, ← sub_eq_add_neg] at hsum
    simpa only [exactHolding, holdingAt, Nat.cast_mul, Nat.cast_add, Nat.cast_pow,
      Nat.cast_ofNat] using hsum

/-- A step that exchanges token one does not move the price backwards. -/
theorem holdingChange_onward
    (h : holdingChange liquidity current next added side .zero = .ok exchanged) :
    ¬ Before (travel side .zero) next.toNat current.toNat := by
  obtain ⟨charge, -, h⟩ := bind_eq_ok.mp h
  obtain ⟨kept, -, h⟩ := bind_eq_ok.mp h
  obtain ⟨moved, hmoved, -⟩ := bind_eq_ok.mp h
  cases side with
  | sell =>
    obtain ⟨gap, hgap, -⟩ := bind_eq_ok.mp hmoved
    exact Nat.not_lt.mpr (Nat.le.intro (Nat.add_comm _ _ ▸ subChecked_eq_ok.mp hgap))
  | buy =>
    obtain ⟨gap, hgap, -⟩ := bind_eq_ok.mp hmoved
    exact Nat.not_lt.mpr (Nat.le.intro (Nat.add_comm _ _ ▸ subChecked_eq_ok.mp hgap))

theorem exchangedAmount_exceeds
    (h : exchangedAmount liquidity current next added side token = .ok exchanged) :
    (token = .one → 0 < current.toNat ∧ 0 < next.toNat) ∧
    (Exceeds 2 (exactHolding liquidity.toNat current.toNat next.toNat added.toNat token)
        exchanged.toInt ∨
      side = .sell ∧ exchanged.toInt = 0 ∧
        Exceeds 2 (exactHolding liquidity.toNat current.toNat next.toNat added.toNat token) 1) := by
  obtain ⟨change, hchange, h⟩ := bind_eq_ok.mp h
  cases h
  obtain ⟨hpos, hvalue⟩ := holdingChange_eq_ok hchange
  have honward : token = .zero → ¬ Before (travel side .zero) next.toNat current.toNat := by
    rintro rfl
    exact holdingChange_onward hchange
  have hexceeds := holdingAt_exceeds liquidity.toNat added.toNat hpos honward
  rw [← hvalue] at hexceeds
  refine ⟨hpos, ?_⟩
  unfold dropTrace
  split
  · rename_i htrace
    rw [htrace.2] at hexceeds
    exact Or.inr ⟨htrace.1, rfl, hexceeds⟩
  · exact Or.inl hexceeds

end Exchanges

/-- The price at the end of a step does not lie beyond the exact one, which there is. What the step
exchanges exceeds the exact change of the holding by less than two units, or does so before an
inflow of one unit against a sale is dropped. -/
theorem step_roundings (amount liquidity current next added : Word) (side : Side) (token : Token) :
    (∀ price, finalPrice amount liquidity added current side token = .ok price →
      HasEnd amount.toNat liquidity.toNat added.toNat current.toNat side token ∧
      NotBeyond (travel side token)
        (exactEnd amount.toNat liquidity.toNat added.toNat current.toNat side token)
        price.toNat) ∧
    ∀ exchanged, exchangedAmount liquidity current next added side token = .ok exchanged →
      (token = .one → 0 < current.toNat ∧ 0 < next.toNat) ∧
      (Exceeds 2 (exactHolding liquidity.toNat current.toNat next.toNat added.toNat token)
          exchanged.toInt ∨
        side = .sell ∧ exchanged.toInt = 0 ∧
          Exceeds 2
            (exactHolding liquidity.toNat current.toNat next.toNat added.toNat token) 1) :=
  ⟨fun _ h => finalPrice_not_beyond h, fun _ h => exchangedAmount_exceeds h⟩

/-- A sale at the price one that is used up. -/
theorem step_roundings_used_up_sale :
    let current : Word := 0x1000000000000000000000000
    let price : Word := 79149409245831077837394523533
    let exchanged : Amount := ⟨-989, by decide, by decide⟩
    finalPrice 1000 1000000 5 current .sell .zero = .ok price ∧
      exactEnd 1000 1000000 5 current.toNat .sell .zero ≤ price.toNat ∧
      exchangedAmount 1000000 current price 5 .sell .zero = .ok exchanged ∧
      Exceeds 2 (exactHolding 1000000 current.toNat price.toNat 5 .zero) (-989) := by
  intro current price exchanged
  have hprice : finalPrice 1000 1000000 5 current .sell .zero = .ok price := by decide +kernel
  have hexchanged : exchangedAmount 1000000 current price 5 .sell .zero = .ok exchanged := by
    decide +kernel
  obtain ⟨hend, hholding⟩ := step_roundings 1000 1000000 current price 5 .sell .zero
  refine ⟨hprice, (hend price hprice).2, hexchanged, ?_⟩
  rcases (hholding exchanged hexchanged).2 with hexceeds | ⟨-, hdropped, -⟩
  · exact hexceeds
  · exact absurd hdropped (by decide)

end ReinvestingPool.Proofs.StepRoundings
