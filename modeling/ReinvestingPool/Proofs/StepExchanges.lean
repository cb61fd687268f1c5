import ReinvestingPool.Proofs.LargerAmounts

/-!
What a step exchanges. It follows from the price at which the step ends and the liquidity that the
fee has added there. A purchase that ends inside a range never costs less than a smaller one; a sale
fetches no less than a smaller one as long as the fee adds no more liquidity.
-/

namespace ReinvestingPool.Proofs.StepExchanges

open Failures Words Directions Scales SignedAmounts RangeSteps ExactQuotients ExactRoots RestPrices
open StepEnds LargerAmounts

/-- What an exchange comes to in the token that is not named: received for a sale and paid for a
purchase. -/
def leg (side : Side) (exchanged : Int) : Int :=
  match side with
  | .sell => -exchanged
  | .buy => exchanged

def roundedUp (n d : Nat) : Nat := (n + (d - 1)) / d

/-- What the move of the price changes the holding of token one by. -/
def moveAt (side : Side) (liquidity price next : Nat) : Int :=
  match side with
  | .sell => -(liquidity * (price - next) / 2 ^ 96 : Nat)
  | .buy => roundedUp (liquidity * (next - price)) (2 ^ 96)

/-- The change of the pool's holding of the token that is not named, in a step from `price` to
`next` on which the fee adds `added`. -/
def holdingAt (side : Side) (token : Token) (liquidity price next added : Nat) : Int :=
  match token with
  | .zero => roundedUp (added * next) (2 ^ 96) + moveAt side liquidity price next
  | .one => roundedUp ((liquidity + added) * 2 ^ 96) next - (liquidity * 2 ^ 96 / price : Nat)

/-- What such a step comes to for the trader. -/
def legAt (side : Side) (token : Token) (liquidity price next added : Nat) : Int :=
  match side with
  | .sell =>
    if holdingAt .sell token liquidity price next added = 1 then 0
    else -holdingAt .sell token liquidity price next added
  | .buy => holdingAt .buy token liquidity price next added

/-- The fee on a larger amount adds no more liquidity in a sale, and no less in a purchase. -/
def FeeInOrder (side : Side) (smaller larger : Nat) : Prop :=
  match side with
  | .sell => larger ≤ smaller
  | .buy => smaller ≤ larger

instance (side : Side) (smaller larger : Nat) : Decidable (FeeInOrder side smaller larger) :=
  match side with
  | .sell => inferInstanceAs (Decidable (larger ≤ smaller))
  | .buy => inferInstanceAs (Decidable (smaller ≤ larger))

theorem roundedUp_le {n d k : Nat} (hd : 0 < d) (h : n ≤ k * d) : roundedUp n d ≤ k := by
  have hless : (n + (d - 1)) / d < k + 1 := by
    rw [Nat.div_lt_iff_lt_mul hd, Nat.add_mul, Nat.one_mul]
    omega
  exact Nat.lt_succ_iff.mp hless

theorem le_roundedUp_mul (n : Nat) {d : Nat} (hd : 0 < d) : n ≤ roundedUp n d * d := by
  have hlast := Nat.lt_mul_div_succ (n + (d - 1)) hd
  rw [Nat.mul_add, Nat.mul_one, Nat.mul_comm] at hlast
  unfold roundedUp
  omega

theorem roundedUp_mono {m n d e : Nat} (hle : m ≤ n) (hed : e ≤ d) (he : 0 < e) :
    roundedUp m d ≤ roundedUp n e :=
  roundedUp_le (Nat.lt_of_lt_of_le he hed) <|
    calc
      m ≤ n := hle
      _ ≤ roundedUp n e * e := le_roundedUp_mul n he
      _ ≤ roundedUp n e * d := Nat.mul_le_mul_left _ hed

theorem roundedUp_le_succ (n d : Nat) (hd : 0 < d) : roundedUp n d ≤ n / d + 1 := by
  refine roundedUp_le hd ?_
  rw [Nat.mul_comm]
  exact Nat.le_of_lt (Nat.lt_mul_div_succ n hd)

section Ends

variable {side : Side} {token : Token} {liquidity price next further added larger : Nat}

theorem moveAt_mono (hnext : next ≤ further) :
    moveAt side liquidity price next ≤ moveAt side liquidity price further := by
  cases side with
  | sell =>
    have hmove : liquidity * (price - further) / 2 ^ 96 ≤ liquidity * (price - next) / 2 ^ 96 :=
      Nat.div_le_div_right (Nat.mul_le_mul_left _ (Nat.sub_le_sub_left hnext price))
    exact Int.neg_le_neg (Int.ofNat_le.mpr hmove)
  | buy =>
    have hmove : roundedUp (liquidity * (next - price)) (2 ^ 96) ≤
        roundedUp (liquidity * (further - price)) (2 ^ 96) :=
      roundedUp_mono (Nat.mul_le_mul_left _ (Nat.sub_le_sub_right hnext price)) (Nat.le_refl _)
        (Nat.two_pow_pos 96)
    exact Int.ofNat_le.mpr hmove

theorem holdingAt_zero_mono (hnext : next ≤ further) (hadded : added ≤ larger) :
    holdingAt side .zero liquidity price next added ≤
      holdingAt side .zero liquidity price further larger := by
  have hfee : roundedUp (added * next) (2 ^ 96) ≤ roundedUp (larger * further) (2 ^ 96) :=
    roundedUp_mono (Nat.mul_le_mul hadded hnext) (Nat.le_refl _) (Nat.two_pow_pos 96)
  exact Int.add_le_add (Int.ofNat_le.mpr hfee) (moveAt_mono hnext)

theorem holdingAt_one_mono (hpos : 0 < further) (hnext : further ≤ next) (hadded : added ≤ larger) :
    holdingAt side .one liquidity price next added ≤
      holdingAt side .one liquidity price further larger := by
  have hafter : roundedUp ((liquidity + added) * 2 ^ 96) next ≤
      roundedUp ((liquidity + larger) * 2 ^ 96) further :=
    roundedUp_mono (Nat.mul_le_mul_right _ (Nat.add_le_add_left hadded _)) hnext hpos
  exact Int.sub_le_sub_right (Int.ofNat_le.mpr hafter) _

/-- What is received falls as the holding rises, also where a trace of rounding is dropped. -/
theorem legAt_sell_of_holdingAt
    (h : holdingAt .sell token liquidity price further larger ≤
      holdingAt .sell token liquidity price next added) :
    legAt .sell token liquidity price next added ≤
      legAt .sell token liquidity price further larger := by
  simp only [legAt]
  split <;> split <;> omega

/-- Ending further on comes to no less, if the liquidity that the fee adds is in order. -/
theorem legAt_mono (hpos : token = .one → 0 < next ∧ 0 < further)
    (hnext : ¬ Before (travel side token) further next) (hfee : FeeInOrder side added larger) :
    legAt side token liquidity price next added ≤
      legAt side token liquidity price further larger := by
  cases side with
  | sell =>
    apply legAt_sell_of_holdingAt
    cases token with
    | zero => exact holdingAt_zero_mono (Nat.not_lt.mp hnext) hfee
    | one => exact holdingAt_one_mono (hpos rfl).1 (Nat.not_lt.mp hnext) hfee
  | buy =>
    change holdingAt .buy token _ _ _ _ ≤ holdingAt .buy token _ _ _ _
    cases token with
    | zero => exact holdingAt_zero_mono (Nat.not_lt.mp hnext) hfee
    | one => exact holdingAt_one_mono (hpos rfl).2 (Nat.not_lt.mp hnext) hfee

/-- A sale that costs the pool nothing but a trace of rounding is worth nothing. -/
theorem legAt_sell_nonneg (h : holdingAt .sell token liquidity price next added ≤ 1) :
    0 ≤ legAt .sell token liquidity price next added := by
  simp only [legAt]
  split <;> omega

theorem holdingAt_zero_start : holdingAt side .zero liquidity price price 0 = 0 := by
  cases side <;> simp [holdingAt, moveAt, roundedUp]

theorem holdingAt_one_start (hpos : 0 < price) :
    0 ≤ holdingAt side .one liquidity price price 0 ∧
      holdingAt side .one liquidity price price 0 ≤ 1 := by
  have hlow := roundedUp_le_succ (liquidity * 2 ^ 96) price hpos
  have hhigh := le_roundedUp_mul (liquidity * 2 ^ 96) hpos
  have hfloor := Nat.div_le_of_le_mul (Nat.mul_comm price _ ▸ hhigh)
  simp only [holdingAt, Nat.add_zero]
  omega

/-- Where the price stays and no fee is taken, there is nothing to lose. -/
theorem legAt_start (hpos : token = .one → 0 < price) :
    0 ≤ legAt side token liquidity price price 0 := by
  have hholding : 0 ≤ holdingAt side token liquidity price price 0 ∧
      holdingAt side token liquidity price price 0 ≤ 1 := by
    cases token with
    | zero =>
      rw [holdingAt_zero_start]
      exact ⟨Int.le_refl 0, Int.zero_le_ofNat 1⟩
    | one => exact holdingAt_one_start (hpos rfl)
  cases side with
  | sell => exact legAt_sell_nonneg hholding.2
  | buy => exact hholding.1

end Ends

section Amounts

variable {token : Token} {amount larger liquidity price fee : Nat}

theorem liquidityFor_mono (hle : amount ≤ larger) :
    liquidityFor token amount price ≤ liquidityFor token larger price := by
  cases token with
  | zero => exact Nat.div_le_div_right (Nat.mul_le_mul_right price hle)
  | one => exact Nat.div_le_div_right (Nat.mul_le_mul_right (2 ^ 96) hle)

/-- The smaller root grows as the half of the linear coefficient falls and the product rises. -/
theorem smaller_root_mono {half low product more : Nat} (hlow : low ≤ half)
    (hmore : product ≤ more) (hroot : more ≤ low * low) :
    half - (half * half - product).sqrt ≤ low - (low * low - more).sqrt := by
  obtain ⟨drop, rfl⟩ := Nat.exists_eq_add_of_le hlow
  generalize hs : (low * low - more).sqrt = s
  have hsquare : s * s + more ≤ low * low := by
    have hle := Nat.sqrt_le (low * low - more)
    rw [hs] at hle
    omega
  have hsmall : s ≤ low := Nat.mul_self_le_mul_self_iff.mp (Nat.le_of_add_right_le hsquare)
  have hcross : s * drop ≤ low * drop := Nat.mul_le_mul_right drop hsmall
  have hkept : s + drop ≤ ((low + drop) * (low + drop) - product).sqrt := by
    rw [Nat.le_sqrt]
    have hleft : (s + drop) * (s + drop) = s * s + 2 * (s * drop) + drop * drop := by ring
    have hright : (low + drop) * (low + drop) = low * low + 2 * (low * drop) + drop * drop := by
      ring
    omega
  omega

/-- A larger purchase pays a fee that adds no less liquidity. -/
theorem purchaseFee_mono (hle : amount ≤ larger)
    (hroot : HasPurchaseFee token larger liquidity price fee) :
    purchaseFee token amount liquidity price fee ≤ purchaseFee token larger liquidity price fee :=
  Nat.div_le_div_right <| smaller_root_mono
    (Nat.sub_le_sub_left (liquidityFor_mono (Nat.mul_le_mul_left _ hle)) _)
    (Nat.mul_le_mul_left fee (liquidityFor_mono
      (Nat.mul_le_mul_right _ (Nat.mul_le_mul_right fee hle)))) hroot

end Amounts

section Steps

variable {liquidity current target fee next added : Word} {specified more exchanged reach : Amount}
variable {side : Side} {token : Token} {x y step : RangeStep}

theorem priceMove_eq_ok (h : priceMove liquidity current next side = .ok exchanged) :
    exchanged.toInt = moveAt side liquidity.toNat current.toNat next.toNat := by
  cases side with
  | sell =>
    obtain ⟨gap, hgap, h⟩ := bind_eq_ok.mp h
    obtain ⟨value, hvalue, h⟩ := bind_eq_ok.mp h
    obtain ⟨paid, hpaid, h⟩ := outflow_eq_ok.mp h
    rw [inflow_eq_ok, (mulDivFloor_eq_ok.mp hvalue).2, toNat_priceUnit] at hpaid
    rw [subChecked_eq_ok] at hgap
    rw [h, hpaid, Nat.eq_sub_of_add_eq hgap]
    rfl
  | buy =>
    obtain ⟨gap, hgap, h⟩ := bind_eq_ok.mp h
    obtain ⟨value, hvalue, h⟩ := bind_eq_ok.mp h
    rw [inflow_eq_ok, (mulDivCeil_eq_ok.mp hvalue).2, toNat_priceUnit] at h
    rw [subChecked_eq_ok] at hgap
    rw [h, Nat.eq_sub_of_add_eq hgap]
    rfl

/-- The prices that token one is divided by are not zero. -/
theorem holdingChange_eq_ok
    (h : holdingChange liquidity current next added side token = .ok exchanged) :
    (token = .one → 0 < current.toNat ∧ 0 < next.toNat) ∧
      exchanged.toInt =
        holdingAt side token liquidity.toNat current.toNat next.toNat added.toNat := by
  cases token with
  | zero =>
    obtain ⟨charge, hcharge, h⟩ := bind_eq_ok.mp h
    obtain ⟨kept, hkept, h⟩ := bind_eq_ok.mp h
    obtain ⟨moved, hmoved, h⟩ := bind_eq_ok.mp h
    rw [Signed.addChecked_eq_ok] at h
    rw [inflow_eq_ok, (mulDivCeil_eq_ok.mp hcharge).2, toNat_priceUnit] at hkept
    refine ⟨fun hone => (nomatch hone), ?_⟩
    rw [h, hkept, priceMove_eq_ok hmoved]
    rfl
  | one =>
    obtain ⟨grown, hgrown, h⟩ := bind_eq_ok.mp h
    obtain ⟨value, hvalue, h⟩ := bind_eq_ok.mp h
    obtain ⟨after, hafter, h⟩ := bind_eq_ok.mp h
    obtain ⟨reserve, hreserve, h⟩ := bind_eq_ok.mp h
    obtain ⟨before, hbefore, h⟩ := bind_eq_ok.mp h
    rw [Signed.addChecked_eq_ok] at h
    obtain ⟨hnext, hvalue⟩ := mulDivCeil_eq_ok.mp hvalue
    obtain ⟨hcurrent, hreserve⟩ := mulDivFloor_eq_ok.mp hreserve
    obtain ⟨paid, hpaid, hbefore⟩ := outflow_eq_ok.mp hbefore
    rw [inflow_eq_ok, hvalue, addChecked_eq_ok.mp hgrown, toNat_priceUnit] at hafter
    rw [inflow_eq_ok, hreserve, toNat_priceUnit] at hpaid
    refine ⟨fun _ => ⟨hcurrent, hnext⟩, ?_⟩
    rw [h, hafter, hbefore, hpaid]
    rfl

theorem exchangedAmount_eq_ok
    (h : exchangedAmount liquidity current next added side token = .ok exchanged) :
    (token = .one → 0 < current.toNat ∧ 0 < next.toNat) ∧
      leg side exchanged.toInt =
        legAt side token liquidity.toNat current.toNat next.toNat added.toNat := by
  obtain ⟨change, hchange, h⟩ := bind_eq_ok.mp h
  cases h
  obtain ⟨hpos, hvalue⟩ := holdingChange_eq_ok hchange
  refine ⟨hpos, ?_⟩
  cases side with
  | sell =>
    simp only [leg, legAt, dropTrace, ← hvalue, true_and]
    split <;> rfl
  | buy => exact hvalue

theorem partialStep_parts
    (h : partialStep liquidity current fee specified side token = .ok step) :
    partialFeeLiquidity specified.magnitude liquidity current fee side token = .ok step.added ∧
      exchangedAmount liquidity current step.next step.added side token = .ok step.exchanged := by
  obtain ⟨added, hadded, h⟩ := bind_eq_ok.mp h
  obtain ⟨price, -, h⟩ := bind_eq_ok.mp h
  obtain ⟨next, -, h⟩ := bind_eq_ok.mp h
  obtain ⟨exchanged, hexchanged, h⟩ := bind_eq_ok.mp h
  cases h
  exact ⟨hadded, hexchanged⟩

/-- A step that moves exchanges what its end stands for. -/
theorem rangeStep_exchanged (hmove : current ≠ target)
    (h : rangeStep liquidity current target fee specified side token = .ok step) :
    exchangedAmount liquidity current step.next step.added side token = .ok step.exchanged := by
  rcases rangeStep_cases h with ⟨hstay, -⟩ | ⟨-, reach, -, ⟨-, hfull⟩ | ⟨-, hpartial⟩⟩
  · exact absurd hstay hmove
  · obtain ⟨added, -, h⟩ := bind_eq_ok.mp hfull
    obtain ⟨exchanged, hexchanged, h⟩ := bind_eq_ok.mp h
    cases h
    exact hexchanged
  · exact (partialStep_parts hpartial).2

/-- Of two steps from one state, the one that ends further on comes to no less, if the liquidity
that the fee adds is in order. -/
theorem rangeStep_leg_mono
    (hx : rangeStep liquidity current target fee specified side token = .ok x)
    (hy : rangeStep liquidity current target fee more side token = .ok y)
    (hnext : ¬ Before (travel side token) y.next.toNat x.next.toNat)
    (hfee : FeeInOrder side x.added.toNat y.added.toNat) :
    leg side x.exchanged.toInt ≤ leg side y.exchanged.toInt := by
  by_cases hstay : current = target
  · unfold rangeStep at hx hy
    rw [if_pos hstay] at hx hy
    rw [← Except.ok.inj (hx.symm.trans hy)]
  · obtain ⟨hfirst, hx⟩ := exchangedAmount_eq_ok (rangeStep_exchanged hstay hx)
    obtain ⟨hsecond, hy⟩ := exchangedAmount_eq_ok (rangeStep_exchanged hstay hy)
    rw [hx, hy]
    exact legAt_mono (fun hone => ⟨(hfirst hone).2, (hsecond hone).2⟩) hnext hfee

/-- A step onwards comes to something, if the liquidity that the fee adds is in order with none. -/
theorem rangeStep_leg_nonneg
    (h : rangeStep liquidity current target fee specified side token = .ok step)
    (hnext : ¬ Before (travel side token) step.next.toNat current.toNat)
    (hfee : FeeInOrder side 0 step.added.toNat) : 0 ≤ leg side step.exchanged.toInt := by
  by_cases hstay : current = target
  · unfold rangeStep at h
    rw [if_pos hstay] at h
    cases h
    cases side <;> exact Int.le_refl 0
  · obtain ⟨hpos, hstep⟩ := exchangedAmount_eq_ok (rangeStep_exchanged hstay h)
    rw [hstep]
    exact Int.le_trans (legAt_start fun hone => (hpos hone).1) (legAt_mono hpos hnext hfee)

theorem partialStep_added
    (h : partialStep liquidity current fee specified side token = .ok step) :
    (usage liquidity current fee specified side token).grown =
      liquidity.toNat + step.added.toNat :=
  partialFeeLiquidity_grown (partialStep_parts h).1

theorem natAbs_le_of_part (h : PartOf side specified more) :
    specified.toInt.natAbs ≤ more.toInt.natAbs := by
  cases side with
  | sell =>
    obtain ⟨hpos, hle⟩ := h
    omega
  | buy =>
    obtain ⟨hneg, hle⟩ := h
    omega

/-- A sale moves more liquidity for a larger amount, and a purchase leaves less. -/
theorem moved_mono (hpart : PartOf side specified more) :
    FeeInOrder side (usage liquidity current fee more side token).moved
      (usage liquidity current fee specified side token).moved := by
  have hless : liquidityFor token specified.toInt.natAbs current.toNat ≤
      liquidityFor token more.toInt.natAbs current.toNat :=
    liquidityFor_mono (natAbs_le_of_part hpart)
  cases side with
  | sell => exact Nat.add_le_add_left hless _
  | buy => exact Nat.sub_le_sub_left hless _

/-- A larger amount overruns what a smaller one does, if the liquidity that the fee adds is in
order. -/
theorem overruns_larger {price : Nat} (hpart : PartOf side specified more)
    (hgrown : FeeInOrder side (usage liquidity current fee specified side token).grown
      (usage liquidity current fee more side token).grown)
    (h : (usage liquidity current fee specified side token).Overruns price) :
    (usage liquidity current fee more side token).Overruns price := by
  have hmoved : FeeInOrder side (usage liquidity current fee more side token).moved
    (usage liquidity current fee specified side token).moved := moved_mono hpart
  cases side with
  | sell =>
    cases token with
    | zero =>
      exact Nat.le_trans (Nat.mul_le_mul_right _ hgrown)
        (Nat.le_trans h (Nat.mul_le_mul_left _ hmoved))
    | one =>
      exact Nat.le_trans (Nat.mul_le_mul_left _ hgrown)
        (Nat.le_trans h (Nat.mul_le_mul_right _ hmoved))
  | buy =>
    cases token with
    | zero =>
      exact Nat.le_trans (Nat.mul_le_mul_left _ hmoved)
        (Nat.le_trans h (Nat.mul_le_mul_right _ hgrown))
    | one =>
      exact Nat.le_trans (Nat.mul_le_mul_right _ hmoved)
        (Nat.le_trans h (Nat.mul_le_mul_left _ hgrown))

theorem partialStep_not_short (hpart : PartOf side specified more)
    (hx : partialStep liquidity current fee specified side token = .ok x)
    (hy : partialStep liquidity current fee more side token = .ok y)
    (hfee : FeeInOrder side x.added.toNat y.added.toNat) :
    ¬ Before (travel side token) y.next.toNat x.next.toNat := by
  obtain ⟨-, hscale, hnext⟩ := partialStep_eq_ok hx
  obtain ⟨-, hlargerScale, hlargerNext⟩ := partialStep_eq_ok hy
  rw [hnext, hlargerNext]
  have hgrown : FeeInOrder side (usage liquidity current fee specified side token).grown
      (usage liquidity current fee more side token).grown := by
    rw [partialStep_added hx, partialStep_added hy]
    cases side with
    | sell => exact Nat.add_le_add_left hfee _
    | buy => exact Nat.add_le_add_left hfee _
  have hrests := (Usage.before_restPrice_iff (usage liquidity current fee specified side token) _
    hscale).not.mp (not_before_self _ _)
  exact (Usage.before_restPrice_iff (usage liquidity current fee more side token) _
    hlargerScale).not.mpr (not_not.mpr (overruns_larger hpart hgrown (not_not.mp hrests)))

/-- The fee on a larger purchase is always in order. -/
theorem partialStep_fee (hpart : PartOf side specified more)
    (hx : partialStep liquidity current fee specified side token = .ok x)
    (hy : partialStep liquidity current fee more side token = .ok y)
    (hsale : side = .sell → y.added.toNat ≤ x.added.toNat) :
    FeeInOrder side x.added.toNat y.added.toNat := by
  cases side with
  | sell => exact hsale rfl
  | buy =>
    obtain ⟨-, hadded⟩ := partialFeeLiquidity_purchase (partialStep_parts hx).1
    obtain ⟨hroot, hlarger⟩ := partialFeeLiquidity_purchase (partialStep_parts hy).1
    change x.added.toNat ≤ y.added.toNat
    rw [hadded, hlarger]
    refine purchaseFee_mono ?_ hroot
    rw [toNat_amount_magnitude, toNat_amount_magnitude]
    exact natAbs_le_of_part hpart

/-- A step that uses up its amount goes onwards, if the liquidity that the fee adds is in order with
none. -/
theorem partialStep_onwards
    (h : partialStep liquidity current fee specified side token = .ok step)
    (hfee : FeeInOrder side 0 step.added.toNat) :
    ¬ Before (travel side token) step.next.toNat current.toNat := by
  obtain ⟨-, hscale, hnext⟩ := partialStep_eq_ok h
  rw [hnext]
  refine (Usage.before_restPrice_iff (usage liquidity current fee specified side token) _
    hscale).not.mpr (not_not.mpr (overruns_price _ fun hside => ?_))
  change side = .sell at hside
  subst hside
  have hadded : step.added.toNat = 0 := Nat.le_zero.mp hfee
  rw [partialStep_added h, hadded]
  exact Nat.le_add_right _ _

end Steps

end ReinvestingPool.Proofs.StepExchanges
