import Mathlib.Algebra.Ring.Int.Defs
import Mathlib.Tactic.ByContra
import ReinvestingPool.Crossings
import ReinvestingPool.Proofs.IndexChains

/-!
The liquidity that the records account for. The net changes of all ticks at or below a tick add up
to the liquidity that is active just above it; crossing a tick adds its net change to the sum or
takes it off again, and flipping a record leaves the sum alone.
-/

namespace ReinvestingPool.Proofs.NetLiquidity

open Words Directions SignedAmounts TickMaps Pools Crossings IndexChains

/-- The net change of liquidity that a list of records has at a tick. -/
def netIn (tick : Int) (entries : List (Int × TickRecord)) : Int :=
  match find? tick entries with
  | some record => record.liquidityNet.toInt
  | none => 0

/-- The net change of liquidity at a tick. -/
def netOf (records : TickMap TickRecord) (tick : Int) : Int := netIn tick records.entries

/-- The sum of the net changes of a list of records. -/
def total (entries : List (Int × TickRecord)) : Int :=
  (entries.map (·.2.liquidityNet.toInt)).sum

/-- The net changes of all records at or below a tick. -/
def netBelow (records : TickMap TickRecord) (tick : Int) : Int :=
  total (records.entries.filter (·.1 ≤ tick))

theorem netIn_cons (tick key : Int) (record : TickRecord) (rest : List (Int × TickRecord)) :
    netIn tick ((key, record) :: rest) =
      if key = tick then record.liquidityNet.toInt else netIn tick rest := by
  unfold netIn
  rw [find?]
  by_cases hsame : key = tick
  · rw [if_pos hsame, if_pos hsame]
  · rw [if_neg hsame, if_neg hsame]

theorem netIn_eq_zero {tick : Int} {entries : List (Int × TickRecord)}
    (h : ∀ entry ∈ entries, tick < entry.1) : netIn tick entries = 0 := by
  unfold netIn
  rw [find?_eq_none_of_lt h]

theorem total_filter_cons (tick key : Int) (record : TickRecord)
    (rest : List (Int × TickRecord)) :
    total (((key, record) :: rest).filter (·.1 ≤ tick)) =
      (if key ≤ tick then record.liquidityNet.toInt else 0) +
        total (rest.filter (·.1 ≤ tick)) := by
  unfold total
  by_cases hle : key ≤ tick
  · simp only [List.filter_cons, hle, decide_true, if_true, List.map_cons, List.sum_cons]
  · simp only [List.filter_cons, hle, decide_false, Bool.false_eq_true, if_false, Int.zero_add]

theorem total_filter_eq_zero {tick : Int} {entries : List (Int × TickRecord)}
    (h : ∀ entry ∈ entries, tick < entry.1) : total (entries.filter (·.1 ≤ tick)) = 0 := by
  have hnone : entries.filter (·.1 ≤ tick) = [] := by
    refine List.filter_eq_nil_iff.mpr fun entry hentry => ?_
    have hhigher := h entry hentry
    simp only [decide_eq_true_eq]
    omega
  rw [hnone]
  rfl

/-- A record put at a tick counts in place of the one that was there. -/
theorem total_put {tick key : Int} {record : TickRecord} {entries : List (Int × TickRecord)}
    (h : Rising entries) :
    total ((put tick record entries).filter (·.1 ≤ key)) =
      total (entries.filter (·.1 ≤ key)) +
        if tick ≤ key then record.liquidityNet.toInt - netIn tick entries else 0 := by
  induction entries with
  | nil =>
    rw [put, total_filter_cons, netIn_eq_zero (by simp)]
    omega
  | cons head rest ih =>
    obtain ⟨other, found⟩ := head
    have htail := ih (List.pairwise_cons.mp h).2
    have habove := above_of_rising h
    rw [put]
    split
    · rename_i hlower
      have habsent : netIn tick ((other, found) :: rest) = 0 := by
        refine netIn_eq_zero fun entry hentry => ?_
        rcases List.mem_cons.mp hentry with rfl | hentry
        · exact hlower
        · exact Int.lt_trans hlower (habove entry hentry)
      rw [total_filter_cons, habsent]
      omega
    · rename_i hnotLower
      split
      · rename_i hhigher
        have hlater : netIn tick ((other, found) :: rest) = netIn tick rest := by
          rw [netIn_cons, if_neg (by omega)]
        rw [total_filter_cons, total_filter_cons, htail, hlater]
        omega
      · rename_i hnotHigher
        have hsame : tick = other := by omega
        subst hsame
        rw [total_filter_cons, total_filter_cons, netIn_cons, if_pos rfl]
        omega

theorem netBelow_insert (records : TickMap TickRecord) (tick key : Int) (record : TickRecord) :
    netBelow (records.insert tick record) key = netBelow records key +
      if tick ≤ key then record.liquidityNet.toInt - netOf records tick else 0 :=
  total_put records.rising

theorem total_filter_succ {tick : Int} {entries : List (Int × TickRecord)} (h : Rising entries) :
    total (entries.filter (·.1 ≤ tick)) =
      total (entries.filter (·.1 ≤ tick - 1)) + netIn tick entries := by
  induction entries with
  | nil => rfl
  | cons head rest ih =>
    obtain ⟨key, record⟩ := head
    have htail := ih (List.pairwise_cons.mp h).2
    have habove := above_of_rising h
    rw [total_filter_cons, total_filter_cons, netIn_cons]
    rcases Int.lt_trichotomy key tick with hlower | rfl | hhigher
    · rw [if_pos (by omega), if_pos (by omega), if_neg (by omega), htail]
      omega
    · rw [total_filter_eq_zero habove,
        total_filter_eq_zero fun entry hentry => by have hlater := habove entry hentry; omega]
      rw [if_pos (Int.le_refl _), if_neg (by omega), if_pos rfl]
      omega
    · rw [if_neg (by omega), if_neg (by omega), if_neg (by omega), htail]
      omega

theorem netBelow_succ (records : TickMap TickRecord) (tick : Int) :
    netBelow records tick = netBelow records (tick - 1) + netOf records tick :=
  total_filter_succ records.rising

/-- Where no record lies between two ticks, the sums there are the same. -/
theorem netBelow_congr {records : TickMap TickRecord} {a b : Int}
    (h : ∀ tick, records.contains tick = true → (tick ≤ a ↔ tick ≤ b)) :
    netBelow records a = netBelow records b := by
  unfold netBelow
  congr 1
  refine List.filter_congr fun entry hentry => ?_
  have hpresent : records.contains entry.1 = true :=
    contains_iff_mem_ticks.mpr (List.mem_map.mpr ⟨entry, hentry, rfl⟩)
  exact decide_eq_decide.mpr (h entry.1 hpresent)

theorem netOf_eq_zero {records : TickMap TickRecord} {tick : Int}
    (h : records.contains tick ≠ true) : netOf records tick = 0 := by
  unfold netOf netIn
  cases hfound : find? tick records.entries with
  | none => rfl
  | some record =>
    refine absurd ?_ h
    change (find? tick records.entries).isSome = true
    rw [hfound]
    rfl

theorem netOf_of_get? {records : TickMap TickRecord} {tick : Int} {record : TickRecord}
    (h : records.get? tick = some record) : netOf records tick = record.liquidityNet.toInt := by
  unfold netOf netIn
  change find? tick records.entries = some record at h
  rw [h]

theorem netOf_insert (records : TickMap TickRecord) (tick key : Int) (record : TickRecord) :
    netOf (records.insert tick record) key =
      if tick = key then record.liquidityNet.toInt else netOf records key := by
  unfold netOf netIn
  change (match find? key (put tick record records.entries) with
    | some record => record.liquidityNet.toInt
    | none => 0) = _
  rw [find?_put records.rising]
  by_cases hsame : tick = key
  · rw [if_pos hsame, if_pos hsame]
  · rw [if_neg hsame, if_neg hsame]

/-- Flipping a record changes no sum. -/
theorem netBelow_flip {records : TickMap TickRecord} {tick : Int} {record : TickRecord}
    (h : records.get? tick = some record) (feeGrowth : Word) (secondsPerLiquidity : HalfWord)
    (key : Int) :
    netBelow (records.insert tick (flip feeGrowth secondsPerLiquidity record)) key =
      netBelow records key := by
  rw [netBelow_insert, netOf_of_get? h]
  simp only [Crossings.flip, Int.sub_self, ite_self, Int.add_zero]

/-- The sign with which the net change of a tick counts when the tick is crossed. -/
def towards (direction : Direction) (net : Int) : Int :=
  match direction with
  | .rising => net
  | .falling => -net

theorem toNat_change_magnitude (net : LiquidityChange) :
    net.magnitude.toNat = net.toInt.natAbs := by
  have hlower := net.lower
  have hupper := net.upper
  rw [Signed.toNat_magnitude]
  exact Nat.mod_eq_of_lt (by omega)

/-- Crossing a tick changes the active liquidity by the net change of the tick. -/
theorem crossLiquidity_eq_ok {liquidity beyond : HalfWord} {net : LiquidityChange}
    {direction : Direction} (h : crossLiquidity liquidity net direction = .ok beyond) :
    (beyond.toNat : Int) = liquidity.toNat + towards direction net.toInt := by
  have hmagnitude := toNat_change_magnitude net
  unfold crossLiquidity at h
  cases direction with
  | rising =>
    simp only [decide_eq_true_eq] at h
    split at h
    · have hsum := addChecked_eq_ok.mp h
      simp only [towards]
      omega
    · have hdifference := subChecked_eq_ok.mp h
      simp only [towards]
      omega
  | falling =>
    simp only [decide_eq_true_eq] at h
    split at h
    · have hsum := addChecked_eq_ok.mp h
      simp only [towards]
      omega
    · have hdifference := subChecked_eq_ok.mp h
      simp only [towards]
      omega

end ReinvestingPool.Proofs.NetLiquidity
