import ReinvestingPool.Proofs.ExactQuotients
import ReinvestingPool.Proofs.RestPrices
import ReinvestingPool.Runs

/-!
The limit of a tolerance. From every price between the bounds it is a limit that a trade can have,
wherever a trade in its direction can have one at all. A wider tolerance leaves no less room.
-/

namespace ReinvestingPool.Proofs.ToleratedLimits

open Failures Words Directions ProductQuotients TickPrices PriceLimits Pools Runs ExactQuotients
open RestPrices

variable {direction : Direction} {price limit : Word} {tolerance wider : ShortWord}
variable {n aim further : Nat}

section Aims

theorem tolerated_lt (direction : Direction) (tolerance : ShortWord) :
    tolerated direction tolerance < 2 ^ 32 := by
  unfold tolerated tolerancePoints
  cases direction <;> simp only <;> omega

theorem before_tolerated (direction : Direction) (htolerance : 1 ≤ tolerance.toNat) :
    Before direction tolerancePoints (tolerated direction tolerance) := by
  unfold tolerated tolerancePoints
  cases direction <;> simp only [Before] <;> omega

theorem tolerated_wider (direction : Direction) (hwider : tolerance.toNat ≤ wider.toNat) :
    ¬ Before direction (tolerated direction wider) (tolerated direction tolerance) := by
  unfold tolerated
  cases direction <;> simp only [Before] <;> omega

/-- The price at the end of a tolerance, wherever that is. -/
def aimedPrice (price : Nat) (direction : Direction) (tolerance : ShortWord) : Nat :=
  price * tolerated direction tolerance / tolerancePoints

/-- One part in ten thousand of a price is a whole unit, so the aim lies ahead even rounded down. -/
theorem before_aimedPrice (hprice : 10000 ≤ n) (htolerance : 1 ≤ tolerance.toNat) :
    Before direction n (aimedPrice n direction tolerance) := by
  have hahead := before_tolerated direction htolerance
  unfold aimedPrice
  generalize tolerated direction tolerance = points at hahead
  unfold tolerancePoints at hahead ⊢
  cases direction with
  | rising =>
    change n + 1 ≤ n * points / 10000
    rw [Nat.le_div_iff_mul_le (by decide)]
    calc
      (n + 1) * 10000 ≤ n * 10001 := by omega
      _ ≤ n * points := Nat.mul_le_mul_left n hahead
  | falling =>
    change n * points / 10000 < n
    rw [Nat.div_lt_iff_lt_mul (by decide)]
    exact Nat.mul_lt_mul_of_pos_left hahead (by omega)

theorem aimedPrice_wider (n : Nat) (direction : Direction)
    (hwider : tolerance.toNat ≤ wider.toNat) :
    ¬ Before direction (aimedPrice n direction wider) (aimedPrice n direction tolerance) := by
  have hpoints := tolerated_wider direction hwider
  unfold aimedPrice
  cases direction with
  | rising =>
    exact Nat.not_lt.mpr (Nat.div_le_div_right (Nat.mul_le_mul_left n (Nat.not_lt.mp hpoints)))
  | falling =>
    exact Nat.not_lt.mpr (Nat.div_le_div_right (Nat.mul_le_mul_left n (Nat.not_lt.mp hpoints)))

theorem aimedPrice_lt (hprice : n < 2 ^ 160) (direction : Direction) (tolerance : ShortWord) :
    aimedPrice n direction tolerance < 2 ^ 256 :=
  calc
    aimedPrice n direction tolerance ≤ n * tolerated direction tolerance := Nat.div_le_self _ _
    _ ≤ 2 ^ 160 * 2 ^ 32 := Nat.mul_le_mul hprice.le (tolerated_lt direction tolerance).le
    _ < 2 ^ 256 := by decide

end Aims

section Clamps

/-- The price strictly between the bounds that is closest to a price. -/
def clamped (n : Nat) : Nat := max (minSqrtPrice.toNat + 1) (min n (maxSqrtPrice.toNat - 1))

theorem toNat_furthestLimit (direction : Direction) :
    (furthestLimit direction).toNat =
      match direction with
      | .rising => maxSqrtPrice.toNat - 1
      | .falling => minSqrtPrice.toNat + 1 := by
  cases direction <;> decide

theorem furthestLimits_ordered : minSqrtPrice.toNat + 1 ≤ maxSqrtPrice.toNat - 1 := by decide

theorem toNat_clampLimit (price : Word) : (clampLimit price).toNat = clamped price.toNat := by
  have hordered := furthestLimits_ordered
  have hlow := toNat_furthestLimit .falling
  have hhigh := toNat_furthestLimit .rising
  simp only at hlow hhigh
  unfold clampLimit clamped
  simp only [BitVec.lt_def, hlow, hhigh]
  split
  · rw [hlow]
    omega
  · split
    · rw [hhigh]
      omega
    · omega

theorem clamped_between (n : Nat) :
    minSqrtPrice.toNat < clamped n ∧ clamped n < maxSqrtPrice.toNat := by
  have hordered := furthestLimits_ordered
  unfold clamped
  omega

theorem clamped_mono (h : ¬ Before direction further aim) :
    ¬ Before direction (clamped further) (clamped aim) := by
  unfold clamped
  cases direction <;> simp only [Before] at h ⊢ <;> omega

/-- An aim ahead of a price stays ahead of it, unless nothing between the bounds is. -/
theorem before_clamped_iff (hprice : minSqrtPrice.toNat ≤ n ∧ n < maxSqrtPrice.toNat)
    (hahead : Before direction n aim) :
    Before direction n (clamped aim) ↔ Before direction n (furthestLimit direction).toNat := by
  have hordered := furthestLimits_ordered
  rw [toNat_furthestLimit]
  unfold clamped
  cases direction <;> simp only [Before] at hahead ⊢ <;> omega

/-- At the lower bound, a falling limit lies behind the price, but always at the same place. -/
theorem clamped_distance (hprice : minSqrtPrice.toNat ≤ n ∧ n < maxSqrtPrice.toNat)
    (hahead : Before direction n aim) (hfurther : ¬ Before direction further aim) :
    (n - clamped aim) + (clamped aim - n) ≤ (n - clamped further) + (clamped further - n) := by
  have hordered := furthestLimits_ordered
  unfold clamped
  cases direction <;> simp only [Before] at hahead hfurther <;> omega

end Clamps

section Limits

theorem exists_limitWithin (hprice : price.toNat < 2 ^ 160) (direction : Direction)
    (tolerance : ShortWord) :
    ∃ limit, limitWithin price direction tolerance = .ok limit ∧
      limit.toNat = clamped (aimedPrice price.toNat direction tolerance) := by
  have hpoints : (BitVec.ofNat 256 (tolerated direction tolerance)).toNat =
      tolerated direction tolerance := by
    have hlt := tolerated_lt direction tolerance
    rw [BitVec.toNat_ofNat, Nat.mod_eq_of_lt (by omega)]
  have haim : (BitVec.ofNat 256 (aimedPrice price.toNat direction tolerance)).toNat =
      aimedPrice price.toNat direction tolerance := by
    rw [BitVec.toNat_ofNat, Nat.mod_eq_of_lt (aimedPrice_lt hprice direction tolerance)]
  have hquotient : mulDivFloor price (BitVec.ofNat 256 (tolerated direction tolerance))
      (BitVec.ofNat 256 tolerancePoints) =
        .ok (BitVec.ofNat 256 (aimedPrice price.toNat direction tolerance)) := by
    rw [mulDivFloor_eq_ok, hpoints, haim]
    exact ⟨by decide, rfl⟩
  refine ⟨_, bind_eq_ok.mpr ⟨_, hquotient, rfl⟩, ?_⟩
  rw [toNat_clampLimit, haim]

theorem limitAhead_iff (hbetween : minSqrtPrice.toNat < limit.toNat ∧
    limit.toNat < maxSqrtPrice.toNat) :
    LimitAhead direction price limit ↔ Before direction price.toNat limit.toNat := by
  cases direction with
  | rising => exact and_iff_left hbetween.2
  | falling => exact and_iff_left hbetween.1

theorem furthestLimit_between (direction : Direction) :
    minSqrtPrice.toNat < (furthestLimit direction).toNat ∧
      (furthestLimit direction).toNat < maxSqrtPrice.toNat := by
  cases direction <;> decide

/-- Whether a trade on a pool can have a limit. -/
def Accepts (pool : Pool) (token : Token) (side : Side) (limit : Word) : Prop :=
  ∃ trade, Trade.on pool token side (some limit) = .ok trade

theorem accepts_iff {pool : Pool} {token : Token} {side : Side} :
    Accepts pool token side limit ↔ LimitAhead (travel side token) pool.sqrtPrice limit := by
  unfold Accepts Trade.on
  simp only [Option.getD_some]
  split
  · rename_i hahead
    exact iff_of_true ⟨_, rfl⟩ hahead
  · rename_i hnot
    exact iff_of_false nofun hnot

end Limits

/-- From a price between the bounds, the limit of a tolerance lies strictly between them. A trade on
a pool at that price can have it exactly where it can have the furthest limit, and a wider tolerance
takes the limit no closer to the price. -/
theorem limitWithin_valid (price : Word) (direction : Direction) (tolerance : ShortWord)
    (hprice : minSqrtPrice ≤ price ∧ price < maxSqrtPrice) (htolerance : 1 ≤ tolerance) :
    ∃ limit, limitWithin price direction tolerance = .ok limit ∧
      (minSqrtPrice < limit ∧ limit < maxSqrtPrice) ∧
      (∀ (pool : Pool) (token : Token) (side : Side), pool.sqrtPrice = price →
        travel side token = direction →
        (Accepts pool token side limit ↔ Accepts pool token side (furthestLimit direction))) ∧
      ∀ wider, tolerance ≤ wider → ∃ further, limitWithin price direction wider = .ok further ∧
        ¬ Before direction further.toNat limit.toNat ∧
        distance price limit ≤ distance price further := by
  have hbounds : minSqrtPrice.toNat ≤ price.toNat ∧ price.toNat < maxSqrtPrice.toNat := hprice
  have hmin : 10000 ≤ minSqrtPrice.toNat := by decide
  have hmax : maxSqrtPrice.toNat < 2 ^ 160 := by decide
  have hfits : price.toNat < 2 ^ 160 := by omega
  have hahead : Before direction price.toNat (aimedPrice price.toNat direction tolerance) :=
    before_aimedPrice (by omega) htolerance
  obtain ⟨limit, hlimit, hvalue⟩ := exists_limitWithin hfits direction tolerance
  have hbetween := clamped_between (aimedPrice price.toNat direction tolerance)
  rw [← hvalue] at hbetween
  refine ⟨limit, hlimit, hbetween, ?_, ?_⟩
  · rintro pool token side rfl rfl
    rw [accepts_iff, accepts_iff, limitAhead_iff hbetween,
      limitAhead_iff (furthestLimit_between _), hvalue]
    exact before_clamped_iff hbounds hahead
  · intro wider hwider
    obtain ⟨further, hfurther, hend⟩ := exists_limitWithin hfits direction wider
    have hwider := aimedPrice_wider price.toNat direction hwider
    refine ⟨further, hfurther, ?_, ?_⟩
    · rw [hend, hvalue]
      exact clamped_mono hwider
    · rw [BitVec.le_def, toNat_distance, toNat_distance, hend, hvalue]
      exact clamped_distance hbounds hahead hwider

/-- Two units below the upper bound, where the least and the largest tolerance end alike. -/
theorem limitWithin_valid_near_bound :
    ∃ pool limit further, Pool.create 1000 (maxSqrtPrice - 2) = .ok pool ∧
      limitWithin (maxSqrtPrice - 2) .rising 1 = .ok limit ∧
      (minSqrtPrice < limit ∧ limit < maxSqrtPrice) ∧ Accepts pool .one .sell limit ∧
      limitWithin (maxSqrtPrice - 2) .rising 4294967295 = .ok further ∧
      ¬ Before .rising further.toNat limit.toNat ∧
      distance (maxSqrtPrice - 2) limit ≤ distance (maxSqrtPrice - 2) further := by
  have hrun : (do
      let pool ← Pool.create 1000 (maxSqrtPrice - 2)
      return decide (pool.sqrtPrice = maxSqrtPrice - 2 ∧
        LimitAhead .rising pool.sqrtPrice (furthestLimit .rising))) = Except.ok true := by
    decide +kernel
  obtain ⟨pool, hpool, hrun⟩ := bind_eq_ok.mp hrun
  obtain ⟨hprice, hahead⟩ := of_decide_eq_true (Except.ok.inj hrun)
  obtain ⟨limit, hlimit, hbetween, haccepts, hwider⟩ :=
    limitWithin_valid (maxSqrtPrice - 2) .rising 1 (by decide) (by decide)
  obtain ⟨further, hfurther, hends⟩ := hwider 4294967295 (by decide)
  have haccepted := (haccepts pool .one .sell hprice rfl).mpr (accepts_iff.mpr hahead)
  exact ⟨pool, limit, further, hpool, hlimit, hbetween, haccepted, hfurther, hends⟩

end ReinvestingPool.Proofs.ToleratedLimits
