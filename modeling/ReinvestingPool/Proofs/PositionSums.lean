import ReinvestingPool.Proofs.BuiltIndexes
import ReinvestingPool.Proofs.CoherentPools
import ReinvestingPool.Proofs.Histories

/-!
A pool whose positions are all there is to its history. Every part of it that depends on the ticks
is a sum over the positions or is determined by their ends, so the order in which the positions were
added leaves no trace.
-/

namespace ReinvestingPool.Proofs.PositionSums

open Failures Words SignedAmounts TickMaps TickPrices TickIndexes Pools Positions
open IndexChains IndexInsertions NetLiquidity ActiveLiquidity SwapRuns Deposits Histories
open BuiltIndexes CoherentPools

/-- Liquidity from `lower` up to `upper`. -/
structure Position where
  lower : Int
  upper : Int
  liquidity : HalfWord
  deriving DecidableEq

def Position.event (p : Position) : Event := .deposit p.lower p.upper p.liquidity

/-- The liquidity of the positions with a property. -/
def liquidityWhere (P : Position → Bool) (positions : List Position) : Nat :=
  ((positions.filter P).map (·.liquidity.toNat)).sum

/-- The liquidity that starts at a tick, less what ends there. -/
def netAt (positions : List Position) (tick : Int) : Int :=
  (liquidityWhere (·.lower = tick) positions : Int) - liquidityWhere (·.upper = tick) positions

/-- The liquidity of the positions around a tick; a position ends below its upper end. -/
def around (positions : List Position) (tick : Int) : Nat :=
  liquidityWhere (fun p => p.lower ≤ tick ∧ tick < p.upper) positions

def IsEnd (positions : List Position) (tick : Int) : Prop :=
  ∃ p ∈ positions, tick = p.lower ∨ tick = p.upper

variable {pool start last other : Pool} {p : Position} {done positions reordered : List Position}
variable {tick change : Int}

section Sums

theorem liquidityWhere_concat (P : Position → Bool) (positions : List Position) (p : Position) :
    liquidityWhere P (positions ++ [p]) =
      liquidityWhere P positions + if P p then p.liquidity.toNat else 0 := by
  unfold liquidityWhere
  rw [List.filter_append, List.map_append, List.sum_append, List.filter_singleton]
  cases P p with
  | true => rfl
  | false => rfl

theorem liquidityWhere_perm (P : Position → Bool) (h : reordered.Perm positions) :
    liquidityWhere P reordered = liquidityWhere P positions :=
  ((h.filter P).map _).sum_nat

theorem netAt_concat (positions : List Position) (p : Position) (tick : Int) :
    netAt (positions ++ [p]) tick = netAt positions tick +
      (if p.lower = tick then (p.liquidity.toNat : Int) else 0) +
      if p.upper = tick then -(p.liquidity.toNat : Int) else 0 := by
  unfold netAt
  simp only [liquidityWhere_concat, decide_eq_true_eq]
  split <;> split <;> omega

theorem isEnd_concat :
    IsEnd (positions ++ [p]) tick ↔ (IsEnd positions tick ∨ tick = p.lower) ∨ tick = p.upper := by
  unfold IsEnd
  simp only [List.mem_append, List.mem_singleton, or_and_right, exists_or, exists_eq_left, or_assoc]

end Sums

section Ends

/-- Every record of a pool is one that another pool would make, but for its net change. -/
def Made (start pool : Pool) : Prop := ∀ tick record, pool.records.get? tick = some record →
  record = { newRecord start tick with liquidityNet := record.liquidityNet }

theorem recordWith_of_made (hmade : Made start pool)
    (hnew : newRecord pool tick = newRecord start tick) (net : LiquidityChange) :
    recordWith pool tick net = { newRecord start tick with liquidityNet := net } := by
  unfold recordWith
  cases hrecord : pool.records.get? tick with
  | none => rw [Option.getD_none, hnew]
  | some record => rw [Option.getD_some, hmade tick record hrecord]

/-- What an end of a position does at each tick. -/
structure EndAdded (tick change : Int) (pool last : Pool) : Prop where
  nets : ∀ key, netOf last.records key =
    netOf pool.records key + if tick = key then change else 0
  records : ∀ key, last.records.contains key = true ↔
    pool.records.contains key = true ∨ key = tick
  entries : ∀ key, last.index.contains key = true ↔ pool.index.contains key = true ∨ key = tick
  chained : Chained pool.index → Chained last.index
  made : ∀ start, Made start pool → (∀ key, newRecord pool key = newRecord start key) →
    Made start last

theorem endAdded_of_changeEnd (h : changeEnd tick change pool = (last, .ok ())) :
    EndAdded tick change pool last := by
  have hchained := fun hpool => chained_of_changeEnd hpool h
  obtain ⟨middle, hnet, hindex⟩ := andThen_eq_ok.mp h
  obtain ⟨net, hsum, rfl⟩ := changeNet_eq_ok hnet
  obtain ⟨grown, added, hinsert, rfl⟩ := indexTick_eq_ok hindex
  refine ⟨?_, ?_, ?_, hchained, ?_⟩
  · intro key
    change netOf (pool.records.insert tick (recordWith pool tick net)) key = _
    rw [netOf_insert, recordWith_liquidityNet, hsum]
    by_cases hsame : tick = key
    · rw [if_pos hsame, if_pos hsame, hsame]
    · rw [if_neg hsame, if_neg hsame, Int.add_zero]
  · intro key
    exact contains_insert_iff
  · intro key
    exact contains_insert hinsert
  · intro start hmade hnew key record hrecord
    change (pool.records.insert tick (recordWith pool tick net)).get? key = some record at hrecord
    rw [TickMap.get?_insert] at hrecord
    split at hrecord
    · rename_i hsame
      cases hrecord
      rw [recordWith_liquidityNet, recordWith_of_made hmade (hnew tick), hsame]
    · exact hmade key record hrecord

end Ends

section Histories

/-- The pool that the positions make of a pool without any. -/
structure Summed (start : Pool) (positions : List Position) (pool : Pool) : Prop where
  frame : pool = { start with
    records := pool.records
    index := pool.index
    baseLiquidity := pool.baseLiquidity
    nearestTick := pool.nearestTick }
  nets : ∀ tick, netOf pool.records tick = netAt positions tick
  base : pool.baseLiquidity.toNat = around positions start.currentTick
  records : ∀ tick, pool.records.contains tick = true ↔ IsEnd positions tick
  entries : ∀ tick, pool.index.contains tick = true ↔
    (tick = minTick ∨ tick = maxTick) ∨ IsEnd positions tick
  chained : Chained pool.index
  nearest : Greatest pool.index start.currentTick pool.nearestTick
  made : Made start pool

theorem not_isEnd_nil : ¬ IsEnd [] tick := by
  rintro ⟨p, hp, -⟩
  cases hp

theorem summed_of_create {swapFeeUnits : ShortWord} {sqrtPrice : Word}
    (h : Pool.create swapFeeUnits sqrtPrice = .ok start) : Summed start [] start := by
  have hnearest := (PoolHistories.aligned_of_create h).nearest
  obtain ⟨⟨⟩, -, h⟩ := bind_eq_ok.mp h
  obtain ⟨tick, htick, h⟩ := bind_eq_ok.mp h
  cases h
  refine ⟨rfl, fun key => rfl, rfl, ?_, ?_, chained_empty, hnearest, ?_⟩
  · intro key
    exact iff_of_false nofun not_isEnd_nil
  · intro key
    exact contains_empty.trans (or_iff_left not_isEnd_nil).symm
  · intro key record hrecord
    cases hrecord

/-- One more position. -/
theorem summed_of_deposit (h : Summed start done pool)
    (hdeposit : addPosition p.lower p.upper p.liquidity pool = (last, .ok ())) :
    Summed start (done ++ [p]) last := by
  have hframe := addPosition_frame hdeposit
  obtain ⟨-, raised, ended, active, hraise, hend, hactive, hfind⟩ := addPosition_edits hdeposit
  obtain ⟨base, rfl, hbase⟩ := activate_eq_ok hactive
  obtain ⟨nearest, hgreatest, rfl⟩ := findNearest_eq_ok hfind
  have hraised := (changeEnd_eq_ok hraise).frame
  have hended := (changeEnd_eq_ok hend).frame
  have hfirst := endAdded_of_changeEnd hraise
  have hsecond := endAdded_of_changeEnd hend
  have hnew : ∀ key, newRecord pool key = newRecord start key := by
    intro key
    rw [h.frame]
    rfl
  have hnewRaised : ∀ key, newRecord raised key = newRecord start key := by
    intro key
    rw [hraised, ← hnew key]
    rfl
  have htick : ended.currentTick = start.currentTick := by
    rw [hended, hraised, h.frame]
  have hkept : ended.baseLiquidity = pool.baseLiquidity := by
    rw [hended, hraised]
  refine ⟨?_, ?_, ?_, ?_, ?_, ?_, ?_, ?_⟩
  · rw [hframe, h.frame]
  · intro key
    change netOf ended.records key = _
    rw [hsecond.nets, hfirst.nets, h.nets, netAt_concat]
  · change base.toNat = _
    unfold around
    rw [hbase, hkept, htick, h.base, liquidityWhere_concat]
    simp only [decide_eq_true_eq]
    rfl
  · intro key
    change ended.records.contains key = true ↔ _
    rw [hsecond.records, hfirst.records, h.records, isEnd_concat]
  · intro key
    change ended.index.contains key = true ↔ _
    rw [hsecond.entries, hfirst.entries, h.entries, isEnd_concat]
    simp only [or_assoc]
  · exact hsecond.chained (hfirst.chained h.chained)
  · rw [← htick]
    exact hgreatest
  · exact hsecond.made start (hfirst.made start h.made hnew) hnewRaised

theorem summed_of_replay (h : Summed start done pool)
    (hreplay : replay pool (positions.map Position.event) = .ok last) :
    Summed start (done ++ positions) last := by
  induction positions generalizing done pool with
  | nil =>
    cases hreplay
    rw [List.append_nil]
    exact h
  | cons p rest ih =>
    obtain ⟨next, hnext, hrest⟩ := replay_cons_eq_ok.mp hreplay
    have hlater := ih (summed_of_deposit h (apply_deposit_eq_ok.mp hnext)) hrest
    rw [List.append_assoc] at hlater
    exact hlater

end Histories

section Orders

theorem netAt_perm (h : reordered.Perm positions) : netAt reordered tick = netAt positions tick := by
  unfold netAt
  rw [liquidityWhere_perm _ h, liquidityWhere_perm _ h]

theorem isEnd_perm (h : reordered.Perm positions) :
    IsEnd reordered tick ↔ IsEnd positions tick :=
  exists_congr fun _ => and_congr_left' h.mem_iff

/-- The records are determined by which ticks have one and by the net changes there. -/
theorem records_unique (hpool : Made start pool) (hother : Made start other)
    (hsame : ∀ tick, pool.records.contains tick = true ↔ other.records.contains tick = true)
    (hnets : ∀ tick, netOf pool.records tick = netOf other.records tick) :
    pool.records = other.records := by
  refine TickMap.ext fun tick => ?_
  cases hfirst : pool.records.get? tick with
  | none =>
    cases hsecond : other.records.get? tick with
    | none => rfl
    | some second =>
      have hpresent := (hsame tick).mpr (Option.isSome_of_eq_some hsecond)
      change (pool.records.get? tick).isSome = true at hpresent
      rw [hfirst] at hpresent
      cases hpresent
  | some first =>
    obtain ⟨second, hsecond⟩ :=
      Option.isSome_iff_exists.mp ((hsame tick).mp (Option.isSome_of_eq_some hfirst))
    have hnet : first.liquidityNet = second.liquidityNet := by
      refine Signed.ext ?_
      rw [← netOf_of_get? hfirst, ← netOf_of_get? hsecond]
      exact hnets tick
    rw [hsecond, hpool tick first hfirst, hother tick second hsecond, hnet]

theorem greatest_unique {index : TickIndex} {a b : Int} (ha : Greatest index tick a)
    (hb : Greatest index tick b) : a = b :=
  Int.le_antisymm (hb.greatest a ha.entry ha.le) (ha.greatest b hb.entry hb.le)

/-- The same positions in another order make the same pool. -/
theorem summed_unique (hlast : Summed start positions last)
    (hother : Summed start reordered other) (hperm : reordered.Perm positions) : other = last := by
  have hrecords : other.records = last.records := by
    refine records_unique hother.made hlast.made (fun tick => ?_) (fun tick => ?_)
    · exact (hother.records tick).trans ((isEnd_perm hperm).trans (hlast.records tick).symm)
    · exact (hother.nets tick).trans ((netAt_perm hperm).trans (hlast.nets tick).symm)
  have hindex : other.index = last.index := by
    refine chained_ext hother.chained hlast.chained fun tick => ?_
    rw [hother.entries, hlast.entries, isEnd_perm hperm]
  have hbase : other.baseLiquidity = last.baseLiquidity := by
    refine BitVec.eq_of_toNat_eq ?_
    rw [hother.base, hlast.base]
    exact liquidityWhere_perm _ hperm
  have hnearest : other.nearestTick = last.nearestTick :=
    greatest_unique hother.nearest (hindex ▸ hlast.nearest)
  rw [hother.frame, hrecords, hindex, hbase, hnearest]
  exact hlast.frame.symm

end Orders

theorem valid_of_summed (hstart : start.validate = .ok ()) (h : Summed start positions pool) :
    pool.validate = .ok () := by
  obtain ⟨hprice, hfee, hgovernment, -, -⟩ := validate_iff.mp hstart
  refine validate_iff.mpr ⟨?_, ?_, ?_, validate_of_chained h.chained, h.nearest.entry⟩
  · rw [h.frame]
    exact hprice
  · rw [h.frame]
    exact hfee
  · rw [h.frame]
    exact hgovernment

/-- What a new pool has become once positions were added: its net changes and its active liquidity
are sums over the positions, its ticks are their ends, it is valid, and it does not depend on the
order in which they were added. -/
theorem positions_add_up {swapFeeUnits : ShortWord} {sqrtPrice : Word}
    (hstart : Pool.create swapFeeUnits sqrtPrice = .ok start)
    (h : replay start (positions.map Position.event) = .ok last) :
    (∀ tick record, last.records.get? tick = some record →
        record.liquidityNet.toInt = netAt positions tick) ∧
      last.baseLiquidity.toNat = around positions last.currentTick ∧
      (∀ tick, last.records.contains tick = true ↔ IsEnd positions tick) ∧
      (∀ tick, last.index.contains tick = true ↔
        (tick = minTick ∨ tick = maxTick) ∨ IsEnd positions tick) ∧
      Greatest last.index last.currentTick last.nearestTick ∧
      last.validate = .ok () ∧
      ∀ (reordered : List Position) (other : Pool), reordered.Perm positions →
        replay start (reordered.map Position.event) = .ok other → other = last := by
  have hfirst := summed_of_create hstart
  have hlast := summed_of_replay hfirst h
  rw [List.nil_append] at hlast
  have htick : last.currentTick = start.currentTick := by rw [hlast.frame]
  refine ⟨?_, ?_, hlast.records, hlast.entries, ?_, ?_, ?_⟩
  · intro tick record hrecord
    rw [← netOf_of_get? hrecord]
    exact hlast.nets tick
  · rw [htick]
    exact hlast.base
  · rw [htick]
    exact hlast.nearest
  · exact valid_of_summed (coherent_of_create hstart).valid hlast
  · intro reordered other hperm hreplay
    exact summed_unique hlast (summed_of_replay hfirst hreplay) hperm

/-- Three positions that share ends and overlap, added in two orders. -/
theorem positions_add_up_overlapping :
    ∃ start last other,
      Pool.create 1000 0x1000000000000000000000000 = .ok start ∧
      replay start (List.map Position.event
        [⟨-60, 60, 5000⟩, ⟨0, 60, 700⟩, ⟨60, 120, 5700⟩]) = .ok last ∧
      replay start (List.map Position.event
        [⟨60, 120, 5700⟩, ⟨0, 60, 700⟩, ⟨-60, 60, 5000⟩]) = .ok other ∧
      last.baseLiquidity = 5700 ∧ last.nearestTick = 0 ∧ last.validate = .ok () ∧
      other = last := by
  have hrun : (do
      let start ← liftPool (Pool.create 1000 0x1000000000000000000000000)
      let last ← replay start (List.map Position.event
        [⟨-60, 60, 5000⟩, ⟨0, 60, 700⟩, ⟨60, 120, 5700⟩])
      let _ ← replay start (List.map Position.event
        [⟨60, 120, 5700⟩, ⟨0, 60, 700⟩, ⟨-60, 60, 5000⟩])
      return decide (last.baseLiquidity = 5700 ∧ last.nearestTick = 0)) = Except.ok true := by
    decide +kernel
  obtain ⟨start, hstart, hrun⟩ := bind_eq_ok.mp hrun
  obtain ⟨last, hlast, hrun⟩ := bind_eq_ok.mp hrun
  obtain ⟨other, hother, hrun⟩ := bind_eq_ok.mp hrun
  obtain ⟨hbase, hnearest⟩ := of_decide_eq_true (Except.ok.inj hrun)
  rw [liftPool_eq_ok] at hstart
  obtain ⟨-, -, -, -, -, hvalid, hunique⟩ := positions_add_up hstart hlast
  exact ⟨start, last, other, hstart, hlast, hother, hbase, hnearest, hvalid,
    hunique _ other (by decide) hother⟩

end ReinvestingPool.Proofs.PositionSums
