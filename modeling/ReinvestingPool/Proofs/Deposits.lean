import ReinvestingPool.Positions
import ReinvestingPool.Proofs.ActiveLiquidity

/-!
Positions keep a pool aligned. The two ends of a position change the sums of net changes at the
ticks between them, and the active liquidity changes with the sum at the current tick.
-/

namespace ReinvestingPool.Proofs.Deposits

open Failures Words SignedAmounts TickMaps Pools Positions IndexChains NetLiquidity Cursors
open ActiveLiquidity

variable {pool middle last : Pool} {first second : Edit} {tick lower upper change : Int}
variable {liquidity : HalfWord}

theorem andThen_eq_ok :
    first.andThen second pool = (last, .ok ()) ↔
      ∃ middle, first pool = (middle, .ok ()) ∧ second middle = (last, .ok ()) := by
  unfold Edit.andThen
  generalize first pool = result
  obtain ⟨edited, outcome⟩ := result
  cases outcome with
  | ok =>
    constructor
    · intro h
      exact ⟨edited, rfl, h⟩
    · intro h
      rcases h with ⟨other, hsame, h⟩
      cases hsame
      exact h
  | error failure =>
    refine iff_of_false (fun h => ?_) ?_
    · cases h
    · intro h
      rcases h with ⟨other, hsame, -⟩
      cases hsame

theorem require_eq_ok {accepted : Bool} {failure : Failure} :
    Edit.require accepted failure pool = (last, .ok ()) ↔ accepted = true ∧ last = pool := by
  unfold Edit.require
  cases accepted with
  | true => exact ⟨fun h => ⟨rfl, (congrArg Prod.fst h).symm⟩, fun h => by rw [h.2]; rfl⟩
  | false => exact iff_of_false (fun h => by cases h) (fun h => by cases h.1)

theorem ofExcept_eq_ok {edit : Pool → Except Failure Pool} :
    Edit.ofExcept edit pool = (last, .ok ()) ↔ edit pool = .ok last := by
  unfold Edit.ofExcept
  cases edit pool with
  | ok edited =>
    constructor
    · intro h
      cases h
      rfl
    · intro h
      cases h
      rfl
  | error failure => exact iff_of_false (fun h => by cases h) (fun h => by cases h)

/-- Indexed records, whose sums are those of another pool but for a change from a tick on. -/
structure EndChanged (tick change : Int) (pool last : Pool) : Prop where
  frame : last = { pool with records := last.records, index := last.index }
  sums : ∀ key, netBelow last.records key =
    netBelow pool.records key + if tick ≤ key then change else 0
  indexed : (∀ other, pool.records.contains other = true → pool.index.contains other = true) →
    ∀ other, last.records.contains other = true → last.index.contains other = true

theorem netOf_getD (records : TickMap TickRecord) (tick : Int) :
    ((records.get? tick).getD (newRecord pool tick)).liquidityNet.toInt = netOf records tick := by
  cases hfound : records.get? tick with
  | some record => exact (netOf_of_get? hfound).symm
  | none =>
    have habsent : records.contains tick ≠ true := by
      change (records.get? tick).isSome ≠ true
      rw [hfound]
      exact Bool.false_ne_true
    rw [netOf_eq_zero habsent]
    unfold newRecord
    by_cases hbelow : tick ≤ pool.currentTick
    · rw [if_pos hbelow]
      rfl
    · rw [if_neg hbelow]
      rfl

/-- The record of a tick, a new one where it has none, with another net change. -/
def recordWith (pool : Pool) (tick : Int) (net : LiquidityChange) : TickRecord :=
  { (pool.records.get? tick).getD (newRecord pool tick) with liquidityNet := net }

@[simp] theorem recordWith_liquidityNet (pool : Pool) (tick : Int) (net : LiquidityChange) :
    (recordWith pool tick net).liquidityNet = net := rfl

theorem changeNet_eq_ok (h : changeNet tick change pool = (last, .ok ())) :
    ∃ net : LiquidityChange, net.toInt = netOf pool.records tick + change ∧
      last = { pool with records := pool.records.insert tick (recordWith pool tick net) } := by
  unfold changeNet at h
  simp only at h
  split at h
  · rename_i net hnet
    obtain rfl := congrArg Prod.fst h
    rw [Signed.ofIntOr_eq_ok, netOf_getD] at hnet
    exact ⟨_, hnet, rfl⟩
  · cases h

theorem indexTick_eq_ok (h : indexTick tick pool = (last, .ok ())) :
    ∃ grown added, pool.index.insert tick = .ok (grown, added) ∧
      last = { pool with index := grown } := by
  obtain ⟨⟨grown, added⟩, hinsert, h⟩ := bind_eq_ok.mp (ofExcept_eq_ok.mp h)
  cases h
  exact ⟨grown, added, liftPool_eq_ok.mp hinsert, rfl⟩

/-- An end of a position changes the sums from its tick on. -/
theorem changeEnd_eq_ok (h : changeEnd tick change pool = (last, .ok ())) :
    EndChanged tick change pool last := by
  obtain ⟨middle, hnet, hindex⟩ := andThen_eq_ok.mp h
  obtain ⟨net, hsum, rfl⟩ := changeNet_eq_ok hnet
  obtain ⟨grown, added, hinsert, rfl⟩ := indexTick_eq_ok hindex
  refine ⟨rfl, fun key => ?_, fun hindexed other hother => ?_⟩
  · change netBelow (pool.records.insert tick (recordWith pool tick net)) key = _
    rw [netBelow_insert, recordWith_liquidityNet, hsum]
    by_cases hle : tick ≤ key
    · rw [if_pos hle, if_pos hle]
      omega
    · rw [if_neg hle, if_neg hle]
  · change grown.contains other = true
    rw [contains_insert hinsert]
    rcases contains_insert_iff.mp hother with hold | hnew
    · exact Or.inl (hindexed other hold)
    · exact Or.inr hnew

theorem activate_eq_ok (h : activate lower upper liquidity pool = (last, .ok ())) :
    ∃ base, last = { pool with baseLiquidity := base } ∧
      base.toNat = pool.baseLiquidity.toNat +
        if lower ≤ pool.currentTick ∧ pool.currentTick < upper then liquidity.toNat else 0 := by
  have h := ofExcept_eq_ok.mp h
  by_cases haround : lower ≤ pool.currentTick ∧ pool.currentTick < upper
  · rw [if_pos haround] at h ⊢
    obtain ⟨base, hbase, h⟩ := bind_eq_ok.mp h
    cases h
    exact ⟨base, rfl, addChecked_eq_ok.mp (liftArithmetic_eq_ok.mp hbase)⟩
  · rw [if_neg haround] at h ⊢
    cases h
    exact ⟨pool.baseLiquidity, rfl, rfl⟩

theorem findNearest_eq_ok (h : findNearest pool = (last, .ok ())) :
    ∃ nearest, Greatest pool.index pool.currentTick nearest ∧
      last = { pool with nearestTick := nearest } := by
  obtain ⟨nearest, hnearest, h⟩ := bind_eq_ok.mp (ofExcept_eq_ok.mp h)
  cases h
  obtain ⟨hentry, hle, hgreatest⟩ := nearest_eq_ok (liftPool_eq_ok.mp hnearest)
  exact ⟨nearest, ⟨hentry, hle, hgreatest⟩, rfl⟩

/-- A position is added in four edits, if its range and its liquidity are accepted. -/
theorem addPosition_edits (h : addPosition lower upper liquidity pool = (last, .ok ())) :
    lower < upper ∧ ∃ raised ended active,
      changeEnd lower liquidity.toNat pool = (raised, .ok ()) ∧
      changeEnd upper (-liquidity.toNat) raised = (ended, .ok ()) ∧
      activate lower upper liquidity ended = (active, .ok ()) ∧
      findNearest active = (last, .ok ()) := by
  obtain ⟨checked, hchecked, h⟩ := andThen_eq_ok.mp h
  obtain ⟨hrange, hsame⟩ := require_eq_ok.mp hchecked
  obtain ⟨bounded, hbounded, h⟩ := andThen_eq_ok.mp h
  obtain ⟨-, hkept⟩ := require_eq_ok.mp hbounded
  obtain ⟨raised, hlower, h⟩ := andThen_eq_ok.mp h
  obtain ⟨ended, hupper, h⟩ := andThen_eq_ok.mp h
  obtain ⟨active, hactive, hnearest⟩ := andThen_eq_ok.mp h
  rw [hkept, hsame] at hlower
  have hless : lower < upper := (of_decide_eq_true hrange).1
  exact ⟨hless, raised, ended, active, hlower, hupper, hactive, hnearest⟩

theorem addPosition_eq_ok (h : addPosition lower upper liquidity pool = (last, .ok ())) :
    lower < upper ∧ ∃ raised ended active,
      EndChanged lower liquidity.toNat pool raised ∧
      EndChanged upper (-liquidity.toNat) raised ended ∧
      activate lower upper liquidity ended = (active, .ok ()) ∧
      findNearest active = (last, .ok ()) := by
  obtain ⟨hless, raised, ended, active, hlower, hupper, hactive, hnearest⟩ := addPosition_edits h
  exact ⟨hless, raised, ended, active, changeEnd_eq_ok hlower, changeEnd_eq_ok hupper, hactive,
    hnearest⟩

/-- A position changes the ticks and the active liquidity, and nothing else. -/
theorem addPosition_frame (h : addPosition lower upper liquidity pool = (last, .ok ())) :
    last = { pool with
      records := last.records
      index := last.index
      baseLiquidity := last.baseLiquidity
      nearestTick := last.nearestTick } := by
  obtain ⟨-, raised, ended, active, hlower, hupper, hactive, hfind⟩ := addPosition_eq_ok h
  obtain ⟨base, rfl, -⟩ := activate_eq_ok hactive
  obtain ⟨nearest, -, rfl⟩ := findNearest_eq_ok hfind
  rw [hupper.frame, hlower.frame]

/-- A pool stays aligned where a position is added. -/
theorem aligned_of_deposit (hpool : Aligned pool)
    (h : addPosition lower upper liquidity pool = (last, .ok ())) : Aligned last := by
  obtain ⟨hless, raised, ended, active, hlower, hupper, hactive, hfind⟩ := addPosition_eq_ok h
  obtain ⟨base, rfl, hbase⟩ := activate_eq_ok hactive
  obtain ⟨nearest, hgreatest, rfl⟩ := findNearest_eq_ok hfind
  have htick : ended.currentTick = pool.currentTick := by
    rw [hupper.frame, hlower.frame]
  have hold : ended.baseLiquidity = pool.baseLiquidity := by
    rw [hupper.frame, hlower.frame]
  have hprice : ended.sqrtPrice = pool.sqrtPrice := by
    rw [hupper.frame, hlower.frame]
  refine ⟨⟨?_, hgreatest⟩, hupper.indexed (hlower.indexed hpool.indexed), ?_⟩
  · change (base.toNat : Int) = netBelow ended.records ended.currentTick
    rw [hbase, hupper.sums, hlower.sums, htick, hold]
    have hsum := hpool.base
    split <;> split <;> split <;> omega
  · change Within ended.currentTick ended.sqrtPrice
    rw [htick, hprice]
    exact hpool.within

end ReinvestingPool.Proofs.Deposits
