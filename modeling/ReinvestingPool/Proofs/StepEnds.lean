import ReinvestingPool.PriceLimits
import ReinvestingPool.Proofs.RestPrices

/-!
Where a step ends with respect to its target. Whether a step is full is decided by one rounded
amount and its end by others, so a step that the amount does not suffice for can still come to rest
at its target or beyond it. This happens exactly where the rest price overruns the target.
-/

namespace ReinvestingPool.Proofs.StepEnds

open Failures Words Directions SignedAmounts TickPrices PriceLimits RangeSteps RestPrices

theorem inflow_nonneg {value : Word} {a : Amount} (h : inflow value = .ok a) : 0 ≤ a.toInt := by
  rw [inflow_eq_ok.mp h]
  exact Int.natCast_nonneg _

theorem outflow_nonpos {value : Word} {a : Amount} (h : outflow value = .ok a) :
    a.toInt ≤ 0 := by
  obtain ⟨paid, hpaid, ha⟩ := outflow_eq_ok.mp h
  have hnonneg := inflow_nonneg hpaid
  omega

theorem reachAmount_nonneg {liquidity current target fee : Word} {token : Token} {reach : Amount}
    (h : reachAmount liquidity current target fee .sell token = .ok reach) : 0 ≤ reach.toInt := by
  obtain ⟨twice, -, h⟩ := bind_eq_ok.mp h
  obtain ⟨part, -, h⟩ := bind_eq_ok.mp h
  obtain ⟨divisor, -, h⟩ := bind_eq_ok.mp h
  obtain ⟨gap, -, h⟩ := bind_eq_ok.mp h
  obtain ⟨share, -, h⟩ := bind_eq_ok.mp h
  obtain ⟨reserve, -, h⟩ := bind_eq_ok.mp h
  exact inflow_nonneg h

theorem reachAmount_nonpos {liquidity current target fee : Word} {token : Token} {reach : Amount}
    (h : reachAmount liquidity current target fee .buy token = .ok reach) : reach.toInt ≤ 0 := by
  obtain ⟨twice, -, h⟩ := bind_eq_ok.mp h
  obtain ⟨part, -, h⟩ := bind_eq_ok.mp h
  obtain ⟨divisor, -, h⟩ := bind_eq_ok.mp h
  obtain ⟨charge, -, h⟩ := bind_eq_ok.mp h
  obtain ⟨kept, -, h⟩ := bind_eq_ok.mp h
  cases token with
  | zero =>
    obtain ⟨share, -, h⟩ := bind_eq_ok.mp h
    obtain ⟨value, -, h⟩ := bind_eq_ok.mp h
    obtain ⟨amount, -, h⟩ := bind_eq_ok.mp h
    exact outflow_nonpos h
  | one =>
    obtain ⟨share, -, h⟩ := bind_eq_ok.mp h
    obtain ⟨amount, -, h⟩ := bind_eq_ok.mp h
    exact outflow_nonpos h

/-- A sale is full from the reach amount on, and a purchase only above it. -/
def Suffices (side : Side) (amount reach : Nat) : Prop :=
  match side with
  | .sell => reach ≤ amount
  | .buy => reach < amount

theorem covers_iff_suffices {liquidity current target fee : Word} {specified reach : Amount}
    {side : Side} {token : Token} (hspecified : specified ≠ 0) (hside : sideOf specified = side)
    (hreach : reachAmount liquidity current target fee side token = .ok reach) :
    covers side specified reach = true ↔
      Suffices side specified.toInt.natAbs reach.toInt.natAbs := by
  have hnonzero : specified.toInt ≠ 0 := fun h => hspecified (Signed.ext h)
  unfold sideOf at hside
  cases side with
  | sell =>
    have hpos : 0 < specified.toInt := by
      by_contra hneg
      rw [if_neg hneg] at hside
      cases hside
    have hreach := reachAmount_nonneg hreach
    simp only [covers, Suffices, decide_eq_true_eq]
    omega
  | buy =>
    have hneg : ¬ 0 < specified.toInt := by
      intro hpos
      rw [if_pos hpos] at hside
      cases hside
    have hreach := reachAmount_nonpos hreach
    simp only [covers, Suffices, decide_eq_true_eq]
    omega

/-- A step that falls short of the reach amount, and yet its rest price is not short of the target.
A purchase of exactly the reach amount may come to rest at the target, but not beyond it. -/
def Oversteps (u : Usage) (target reach : Nat) : Prop :=
  u.amount < reach ∧ u.Overruns target ∨
    u.amount = reach ∧ u.side = .buy ∧ u.Overruns (oneBeyond u.direction target)

instance (u : Usage) (target reach : Nat) : Decidable (Oversteps u target reach) := by
  unfold Oversteps
  infer_instance

theorem not_before_self (direction : Direction) (price : Nat) :
    ¬ Before direction price price := by
  cases direction <;> exact Nat.lt_irrefl price

theorem not_before_of_before {direction : Direction} {a b : Nat} (h : Before direction a b) :
    ¬ Before direction b a := by
  cases direction <;> exact Nat.lt_asymm h

/-- Neither before the price where a step began nor beyond its target. -/
def StaysWithin (direction : Direction) (current target next : Nat) : Prop :=
  ¬ Before direction next current ∧ ¬ Before direction target next

instance (direction : Direction) (current target next : Nat) :
    Decidable (StaysWithin direction current target next) := by
  unfold StaysWithin
  infer_instance

/-- For an amount that does not make a step full, both halves of the claim on its end come down to
the overrun of its rest price. -/
theorem rest_within_iff (u : Usage) (target reach : Nat) (hscale : 0 < u.scale.2)
    (hfee : u.fee ≤ 200000) (htarget : 0 < target)
    (hreach : u.amount < reach ∨ u.amount = reach ∧ u.side = .buy) :
    (StaysWithin u.direction u.price target u.restPrice ∧
      (u.amount < reach → Before u.direction u.restPrice target)) ↔ ¬ Oversteps u target reach := by
  have hstart := restPrice_not_before u hscale hfee
  have hshort := u.before_restPrice_iff target hscale
  have hbeyond := u.restPrice_beyond_iff target hscale htarget
  rcases hreach with hless | ⟨hequal, hbuy⟩
  · have honly : Oversteps u target reach ↔ u.Overruns target := by
      constructor
      · intro h
        rcases h with ⟨-, hover⟩ | ⟨hequal, -, -⟩
        · exact hover
        · omega
      · intro hover
        exact Or.inl ⟨hless, hover⟩
    rw [honly, ← hshort]
    constructor
    · intro h
      exact h.2 hless
    · intro h
      exact ⟨⟨hstart, not_before_of_before h⟩, fun _ => h⟩
  · have honly : Oversteps u target reach ↔ u.Overruns (oneBeyond u.direction target) := by
      constructor
      · intro h
        rcases h with ⟨hless, -⟩ | ⟨-, -, hover⟩
        · omega
        · exact hover
      · intro hover
        exact Or.inr ⟨hequal, hbuy, hover⟩
    rw [honly, ← hbeyond]
    constructor
    · intro h
      exact h.1.2
    · intro h
      exact ⟨⟨hstart, h⟩, fun hless => absurd hless (by omega)⟩

section Within

variable {liquidity current target fee : Word} {specified reach : Amount} {side : Side}
variable {token : Token} {step : RangeStep}

theorem forall_reach_iff {P : Amount → Prop}
    (hreach : reachAmount liquidity current target fee side token = .ok reach) :
    (∀ other, reachAmount liquidity current target fee side token = .ok other → P other) ↔
      P reach := by
  constructor
  · intro h
    exact h reach hreach
  · intro h other hother
    obtain rfl := Except.ok.inj (hreach.symm.trans hother)
    exact h

/-- A full step ends at its target, and an amount that covers the reach amount oversteps nothing. -/
theorem full_within_iff
    (hahead : ¬ Before (travel side token) target.toNat current.toNat)
    (hfull : Suffices side specified.toInt.natAbs reach.toInt.natAbs) :
    (StaysWithin (travel side token) current.toNat target.toNat target.toNat ∧
      (specified.toInt.natAbs < reach.toInt.natAbs →
        Before (travel side token) target.toNat target.toNat)) ↔
    ¬ Oversteps (usage liquidity current fee specified side token) target.toNat
      reach.toInt.natAbs := by
  have henough : reach.toInt.natAbs ≤ specified.toInt.natAbs := by
    cases side with
    | sell => exact hfull
    | buy => exact Nat.le_of_lt hfull
  refine iff_of_true ⟨⟨hahead, not_before_self _ _⟩, fun hless => ?_⟩ ?_
  · exact absurd hless (Nat.not_lt_of_le henough)
  · intro h
    rcases h with ⟨hless, -⟩ | ⟨hequal, hbuy, -⟩
    · exact Nat.not_lt_of_le henough hless
    · change side = .buy at hbuy
      subst hbuy
      exact Nat.ne_of_gt hfull hequal

/-- A step stays between its start and its target, and short of the target for less than the reach
amount, exactly unless its rest price oversteps the target. -/
theorem rangeStep_within_iff (hfee : fee.toNat < 100000) (htarget : minSqrtPrice ≤ target)
    (hahead : ¬ Before (travel side token) target.toNat current.toNat)
    (hspecified : specified ≠ 0) (hside : sideOf specified = side)
    (h : rangeStep liquidity current target fee specified side token = .ok step) :
    (StaysWithin (travel side token) current.toNat target.toNat step.next.toNat ∧
      (current ≠ target → ∀ reach,
        reachAmount liquidity current target fee side token = .ok reach →
        specified.toInt.natAbs < reach.toInt.natAbs →
        Before (travel side token) step.next.toNat target.toNat)) ↔
    (current ≠ target → ∀ reach,
      reachAmount liquidity current target fee side token = .ok reach →
      ¬ Oversteps (usage liquidity current fee specified side token) target.toNat
        reach.toInt.natAbs) := by
  have hpos : 0 < target.toNat := by
    rw [BitVec.le_def] at htarget
    exact Nat.lt_of_lt_of_le (by decide) htarget
  rcases rangeStep_cases h with ⟨hstay, rfl⟩ | ⟨hmove, reach, hreach, hcase⟩
  · subst hstay
    refine iff_of_true ⟨⟨not_before_self _ _, not_before_self _ _⟩, ?_⟩ ?_
    · intro hne
      exact absurd rfl hne
    · intro hne
      exact absurd rfl hne
  · have hcovers := covers_iff_suffices hspecified hside hreach
    rw [forall_prop_of_true hmove, forall_prop_of_true hmove, forall_reach_iff hreach,
      forall_reach_iff hreach]
    rcases hcase with ⟨hfull, hstep⟩ | ⟨hpartial, hstep⟩
    · obtain ⟨-, hnext⟩ := fullStep_eq_ok hstep
      rw [hnext]
      exact full_within_iff hahead (hcovers.mp hfull)
    · obtain ⟨-, hscale, hnext⟩ := partialStep_eq_ok hstep
      have hless : specified.toInt.natAbs < reach.toInt.natAbs ∨
          specified.toInt.natAbs = reach.toInt.natAbs ∧ side = .buy := by
        have hpartial := mt hcovers.mpr (Bool.eq_false_iff.mp hpartial)
        cases side with
        | sell => exact Or.inl (Nat.lt_of_not_le hpartial)
        | buy => exact (Nat.lt_or_eq_of_le (Nat.le_of_not_lt hpartial)).imp_right (⟨·, rfl⟩)
      have hbound : fee.toNat ≤ 200000 := by omega
      rw [hnext]
      exact rest_within_iff (usage liquidity current fee specified side token) target.toNat
        reach.toInt.natAbs hscale hbound hpos hless

end Within

theorem rangeStep_within_purchase :
    let step : RangeStep := ⟨476323054482361720404745943, ⟨-5000, by decide, by decide⟩,
      ⟨2, by decide, by decide⟩, 1⟩
    rangeStep 8825476 476321381369997487489818790 476325015935544575215673510 1 step.used
        .buy .zero = .ok step ∧
      StaysWithin .rising 476321381369997487489818790 476325015935544575215673510
        step.next.toNat ∧
      Before .rising step.next.toNat 476325015935544575215673510 := by
  intro step
  have hstep : rangeStep 8825476 476321381369997487489818790 476325015935544575215673510 1
      step.used .buy .zero = .ok step := by decide +kernel
  have hreach : reachAmount 8825476 476321381369997487489818790 476325015935544575215673510 1
      .buy .zero = .ok ⟨-11201, by decide, by decide⟩ := by decide +kernel
  have hends := (rangeStep_within_iff (by decide) (by decide) (by decide) (by decide) (by decide)
    hstep).mpr (by
      intro _ reach hother
      rw [hreach] at hother
      obtain rfl := Except.ok.inj hother
      decide +kernel)
  exact ⟨hstep, hends.1, hends.2 (by decide) _ hreach (by decide)⟩

/-- A sale of one unit less than the reach amount can end beyond the target: its price part was
rounded down before it was compared, and its fee is rounded down by as much as one unit. -/
theorem rangeStep_leaves_range :
    ¬ ∀ (liquidity current target fee : Word) (specified : Amount) (side : Side) (token : Token)
      (step : RangeStep), 1 ≤ liquidity.toNat → liquidity.toNat < 2 ^ 129 → fee.toNat < 100000 →
      minSqrtPrice ≤ current → current ≤ maxSqrtPrice → minSqrtPrice ≤ target →
      target ≤ maxSqrtPrice → ¬ Before (travel side token) target.toNat current.toNat →
      specified ≠ 0 → sideOf specified = side →
      rangeStep liquidity current target fee specified side token = .ok step →
      StaysWithin (travel side token) current.toNat target.toNat step.next.toNat ∧
        (current ≠ target → ∀ reach,
          reachAmount liquidity current target fee side token = .ok reach →
          specified.toInt.natAbs < reach.toInt.natAbs →
          Before (travel side token) step.next.toNat target.toNat) := by
  intro hclaim
  have hstays := hclaim 100000 0x1000000000000000000000000 79070813169550379477963957859 1000
    ⟨199, by decide, by decide⟩ .sell .zero
    ⟨79070811599181965482234304071, ⟨199, by decide, by decide⟩, ⟨-198, by decide, by decide⟩, 0⟩
    (by decide) (by decide) (by decide) (by decide) (by decide) (by decide) (by decide)
    (by decide) (by decide) (by decide) (by decide +kernel)
  exact absurd hstays.1 (by decide)

end ReinvestingPool.Proofs.StepEnds
