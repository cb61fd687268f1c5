import Mathlib.Data.List.Sort
import ReinvestingPool.Proofs.Histories
import ReinvestingPool.Proofs.NetLiquidity
import ReinvestingPool.Proofs.Resumptions
import ReinvestingPool.Proofs.RunCrossings
import ReinvestingPool.Proofs.RunTicks

/-!
Which ticks a run crosses. They are the entries of the index from the tick ahead on, one after the
other and none twice. The active liquidity changes by the sum of their net changes, and no other
record is touched.
-/

namespace ReinvestingPool.Proofs.CrossedTicks

open Failures Words Directions SignedAmounts TickMaps TickIndexes Pools Crossings Runs Simulations
open Paths StepFrames IndexChains RunTicks NetLiquidity RunCrossings Resumptions Histories

/-- The entries of an index from a tick on, in the direction of travel. -/
def entriesFrom (index : TickIndex) (direction : Direction) (tick : Int) : List Int :=
  match direction with
  | .rising => index.links.ticks.filter (tick ≤ ·)
  | .falling => (index.links.ticks.filter (· ≤ tick)).reverse

variable {trade : Trade} {index : TickIndex} {direction : Direction} {s t : RunState}
variable {records flipped : TickMap TickRecord} {record : TickRecord} {p q r c : Point}
variable {final : RunState} {outcome : Outcome} {tick other a b : Int}
variable {crossed further : List Int}

theorem mem_entriesFrom :
    other ∈ entriesFrom index direction tick ↔
      index.contains other = true ∧ (other = tick ∨ Beyond direction tick other) := by
  have hticks : other ∈ index.links.ticks ↔ index.contains other = true :=
    contains_iff_mem_ticks.symm
  cases direction with
  | rising =>
    change other ∈ index.links.ticks.filter _ ↔ _ ∧ (_ ∨ tick < other)
    rw [List.mem_filter, hticks, decide_eq_true_eq]
    exact and_congr_right fun _ => by omega
  | falling =>
    change other ∈ (index.links.ticks.filter _).reverse ↔ _ ∧ (_ ∨ other < tick)
    rw [List.mem_reverse, List.mem_filter, hticks, decide_eq_true_eq]
    exact and_congr_right fun _ => by omega

theorem pairwise_entriesFrom :
    (entriesFrom index direction tick).Pairwise (Beyond direction) := by
  have hsorted : index.links.ticks.Pairwise (· < ·) := List.pairwise_map.mpr index.links.rising
  cases direction with
  | rising => exact hsorted.filter _
  | falling => exact List.pairwise_reverse.mpr (hsorted.filter _)

theorem beyond_trans (hab : Beyond direction a b) (hbc : Beyond direction b tick) :
    Beyond direction a tick := by
  cases direction with
  | rising => exact Int.lt_trans hab hbc
  | falling => exact Int.lt_trans hbc hab

theorem beyond_asymm (hab : Beyond direction a b) : ¬ Beyond direction b a := by
  cases direction with
  | rising => exact Int.not_lt.mpr (Int.le_of_lt hab)
  | falling => exact Int.not_lt.mpr (Int.le_of_lt hab)

/-- Between two neighbours in the direction of travel there is no other entry. -/
theorem beyond_iff_of_adjacent (h : AdjacentToward index direction a b)
    (hentry : index.contains tick = true) :
    Beyond direction a tick ↔ tick = b ∨ Beyond direction b tick := by
  cases direction with
  | rising =>
    have hnone := h.none_between tick hentry
    have hless := h.lt
    simp only [Beyond]
    omega
  | falling =>
    have hnone := h.none_between tick hentry
    have hless := h.lt
    simp only [Beyond]
    omega

theorem left_of_adjacent (h : AdjacentToward index direction a b) : index.contains a = true := by
  cases direction with
  | rising => exact h.left
  | falling => exact h.right

theorem entriesFrom_of_adjacent (h : AdjacentToward index direction a b) :
    entriesFrom index direction a = a :: entriesFrom index direction b := by
  have hfirst := beyond_of_adjacent h
  have hlater : ∀ tick ∈ entriesFrom index direction b, Beyond direction a tick := by
    intro tick htick
    rcases (mem_entriesFrom.mp htick).2 with rfl | hbeyond
    · exact hfirst
    · exact beyond_trans hfirst hbeyond
  have : Std.Asymm (Beyond direction) := ⟨fun _ _ => beyond_asymm⟩
  refine pairwise_entriesFrom.eq_of_mem_iff
    (List.pairwise_cons.mpr ⟨hlater, pairwise_entriesFrom⟩) fun tick => ?_
  rw [List.mem_cons, mem_entriesFrom, mem_entriesFrom]
  constructor
  · rintro ⟨hentry, rfl | hbeyond⟩
    · exact Or.inl rfl
    · exact Or.inr ⟨hentry, (beyond_iff_of_adjacent h hentry).mp hbeyond⟩
  · rintro (rfl | ⟨hentry, hbeyond⟩)
    · exact ⟨left_of_adjacent h, Or.inl rfl⟩
    · exact ⟨hentry, Or.inr ((beyond_iff_of_adjacent h hentry).mpr hbeyond)⟩

theorem netOf_congr {others : TickMap TickRecord}
    (h : (others.get? tick).map TickRecord.liquidityNet =
      (records.get? tick).map TickRecord.liquidityNet) :
    netOf others tick = netOf records tick := by
  cases hrecord : records.get? tick with
  | none =>
    rw [hrecord, Option.map_none, Option.map_eq_none_iff] at h
    rw [netOf_eq_zero (by rw [TickMap.contains, h]; decide),
      netOf_eq_zero (by rw [TickMap.contains, hrecord]; decide)]
  | some record =>
    rw [hrecord, Option.map_some, Option.map_eq_some_iff] at h
    obtain ⟨other, hother, hsame⟩ := h
    rw [netOf_of_get? hrecord, netOf_of_get? hother, hsame]

/-- What a run has done on its way from `p` to `q` where it crossed some ticks. -/
structure Passage (index : TickIndex) (direction : Direction) (p q : Point)
    (crossed : List Int) : Prop where
  entries : entriesFrom index direction p.1.nextTick =
    crossed ++ entriesFrom index direction q.1.nextTick
  count : q.1.ticksCrossed = p.1.ticksCrossed + crossed.length
  recorded : ∀ tick ∈ crossed, p.2.contains tick = true
  base : (q.1.baseLiquidity.toNat : Int) =
    p.1.baseLiquidity.toNat + towards direction (crossed.map (netOf p.2)).sum
  nets : ∀ tick, (q.2.get? tick).map TickRecord.liquidityNet =
    (p.2.get? tick).map TickRecord.liquidityNet
  kept : ∀ tick, tick ∉ crossed → q.2.get? tick = p.2.get? tick

theorem towards_zero (direction : Direction) : towards direction 0 = 0 := by
  cases direction with
  | rising => rfl
  | falling => rfl

theorem towards_add (direction : Direction) (m n : Int) :
    towards direction (m + n) = towards direction m + towards direction n := by
  cases direction with
  | rising => rfl
  | falling =>
    simp only [towards]
    omega

/-- Between two crossings a run passes no entry. -/
theorem passage_of_sameRange (h : SameRange s t) :
    Passage index direction (s, records) (t, records) [] := by
  refine ⟨?_, h.ticksCrossed, fun _ hnone => absurd hnone List.not_mem_nil, ?_, fun _ => rfl,
    fun _ _ => rfl⟩
  · rw [h.nextTick, List.nil_append]
  · rw [h.baseLiquidity, List.map_nil, List.sum_nil, towards_zero, Int.add_zero]

theorem passage_of_crosses (hchained : Chained index)
    (h : Crosses trade index s t records flipped record) :
    Passage index trade.direction (s, records) (t, flipped) [s.nextTick] := by
  have hother : ∀ tick, tick ≠ s.nextTick → flipped.get? tick = records.get? tick := by
    intro tick hdiffers
    rw [h.flips, TickMap.get?_insert, if_neg (Ne.symm hdiffers)]
  refine ⟨entriesFrom_of_adjacent (adjacent_of_advance hchained h.next), h.count, ?_, ?_, ?_, ?_⟩
  · intro tick htick
    obtain rfl := List.mem_singleton.mp htick
    exact Option.isSome_of_eq_some h.found
  · rw [List.map_singleton, List.sum_singleton, netOf_of_get? h.found]
    exact crossLiquidity_eq_ok h.liquidity
  · intro tick
    by_cases hsame : tick = s.nextTick
    · change (flipped.get? tick).map _ = (records.get? tick).map _
      rw [hsame, h.flips, TickMap.get?_insert, if_pos rfl, h.found]
      rfl
    · exact congrArg _ (hother tick hsame)
  · intro tick hnot
    exact hother tick fun hsame => hnot (List.mem_singleton.mpr hsame)

theorem Passage.trans (hpq : Passage index direction p q crossed)
    (hqr : Passage index direction q r further) :
    Passage index direction p r (crossed ++ further) := by
  have hnets : further.map (netOf q.2) = further.map (netOf p.2) :=
    List.map_congr_left fun tick _ => netOf_congr (hpq.nets tick)
  refine ⟨?_, ?_, ?_, ?_, fun tick => (hqr.nets tick).trans (hpq.nets tick), ?_⟩
  · rw [hpq.entries, hqr.entries, List.append_assoc]
  · rw [hqr.count, hpq.count, List.length_append, Nat.add_assoc]
  · intro tick htick
    rcases List.mem_append.mp htick with hearlier | hlater
    · exact hpq.recorded tick hearlier
    · have hfound := congrArg Option.isSome (hpq.nets tick)
      rw [Option.isSome_map, Option.isSome_map] at hfound
      exact hfound.symm.trans (hqr.recorded tick hlater)
  · rw [hqr.base, hpq.base, hnets, List.map_append, List.sum_append, towards_add, Int.add_assoc]
  · intro tick hnot
    rw [List.mem_append, not_or] at hnot
    exact (hqr.kept tick hnot.2).trans (hpq.kept tick hnot.1)

/-- The ticks that a run crosses from a state on. -/
def crossedFrom (trade : Trade) (index : TickIndex) (p : Point) : List Int :=
  (crossingsFrom trade index p.1 p.2).map Crossing.tick

theorem passage_of_moves (hchained : Chained index) (h : Moves trade index p q) :
    ∃ crossed, Passage index trade.direction p q crossed ∧
      crossedFrom trade index p = crossed ++ crossedFrom trade index q := by
  cases h with
  | glide hopen h =>
    refine ⟨[], passage_of_sameRange (sameRange_of_glide h), ?_⟩
    unfold crossedFrom
    rw [crossingsFrom_of_glide hopen h, List.nil_append]
  | cross hopen h =>
    obtain ⟨record, hcrosses⟩ := exists_crosses h
    refine ⟨_, passage_of_crosses hchained hcrosses, ?_⟩
    unfold crossedFrom
    rw [crossingsFrom_of_cross hopen h, List.map_cons, List.singleton_append]
    rfl

theorem passage_of_run (hchained : Chained index) (hreaches : Reaches trade index p c)
    (hends : Ends trade index c final) :
    Passage index trade.direction p (final, c.2) (crossedFrom trade index p) := by
  induction hreaches using Relation.ReflTransGen.head_induction_on with
  | refl =>
    unfold crossedFrom
    rw [crossingsFrom_of_ends hends]
    exact passage_of_sameRange (sameRange_of_ends hends)
  | head hmoves _ ih =>
    obtain ⟨crossed, hfirst, hcrossed⟩ := passage_of_moves hchained hmoves
    rw [hcrossed]
    exact hfirst.trans ih

/-- The ticks that a run crosses from its first state, in the order in which it crosses them. -/
def crossedTicks (trade : Trade) (index : TickIndex) (s : RunState)
    (records : TickMap TickRecord) : List Int :=
  crossedFrom trade index (underWay s, records)

theorem nodup_entriesFrom : (entriesFrom index direction tick).Nodup := by
  refine pairwise_entriesFrom.imp fun hbeyond hsame => ?_
  subst hsame
  exact beyond_asymm hbeyond hbeyond

theorem entriesFrom_head (h : index.contains tick = true) :
    (entriesFrom index direction tick)[0]? = some tick := by
  have hmem : tick ∈ entriesFrom index direction tick := mem_entriesFrom.mpr ⟨h, Or.inl rfl⟩
  have hsorted : (entriesFrom index direction tick).Pairwise (Beyond direction) :=
    pairwise_entriesFrom
  cases hentries : entriesFrom index direction tick with
  | nil =>
    rw [hentries] at hmem
    exact absurd hmem List.not_mem_nil
  | cons first rest =>
    have hfirst : first ∈ entriesFrom index direction tick := hentries ▸ List.mem_cons_self
    rw [hentries] at hmem hsorted
    rcases (mem_entriesFrom.mp hfirst).2 with rfl | hbeyond
    · rfl
    · rcases List.mem_cons.mp hmem with rfl | hrest
      · rfl
      · exact absurd hbeyond (beyond_asymm ((List.pairwise_cons.mp hsorted).1 tick hrest))

/-- A run crosses as many entries as it counts, one after the other from the tick ahead on, and the
entry after them is ahead at the end. Their net changes are what the active liquidity changes by,
no record changes its net liquidity, and the record of a tick that is not crossed stays. -/
theorem simulate_crosses_entries (hindex : index.validate = .ok ())
    (hentry : index.contains s.nextTick = true) (hstart : s.ticksCrossed = 0)
    (h : simulate trade index s records = .ok outcome) :
    (crossedTicks trade index s records =
        (entriesFrom index trade.direction s.nextTick).take outcome.final.ticksCrossed ∧
      (crossedTicks trade index s records).length = outcome.final.ticksCrossed ∧
      (crossedTicks trade index s records).Nodup ∧
      (entriesFrom index trade.direction s.nextTick)[outcome.final.ticksCrossed]? =
        some outcome.final.nextTick) ∧
    ((∀ tick ∈ crossedTicks trade index s records, records.contains tick = true) ∧
      (outcome.final.baseLiquidity.toNat : Int) = s.baseLiquidity.toNat +
        towards trade.direction ((crossedTicks trade index s records).map (netOf records)).sum) ∧
    (∀ tick, (outcome.records.get? tick).map TickRecord.liquidityNet =
      (records.get? tick).map TickRecord.liquidityNet) ∧
    ∀ tick, tick ∉ crossedTicks trade index s records →
      outcome.records.get? tick = records.get? tick := by
  have hchained := chained_of_validate hindex
  obtain ⟨hreaches, hends⟩ := path_of_simulate h
  have hrun := passage_of_run hchained hreaches hends
  have hnext : index.contains outcome.final.nextTick = true := by
    rw [nextTick_of_ends hends]
    exact contains_of_reaches hchained hentry hreaches
  have hcount : (crossedTicks trade index s records).length = outcome.final.ticksCrossed := by
    have hgrown := hrun.count
    change outcome.final.ticksCrossed = s.ticksCrossed + _ at hgrown
    rw [hgrown, hstart, Nat.zero_add]
    rfl
  have hentries : entriesFrom index trade.direction s.nextTick =
      crossedTicks trade index s records ++
        entriesFrom index trade.direction outcome.final.nextTick := hrun.entries
  refine ⟨⟨?_, hcount, ?_, ?_⟩, ⟨hrun.recorded, hrun.base⟩, hrun.nets, hrun.kept⟩
  · rw [hentries, ← hcount, List.take_left]
  · have hnodup : (entriesFrom index trade.direction s.nextTick).Nodup := nodup_entriesFrom
    rw [hentries] at hnodup
    exact (List.nodup_append.mp hnodup).1
  · rw [hentries, ← hcount, List.getElem?_append_right (Nat.le_refl _), Nat.sub_self]
    exact entriesFrom_head hnext

/-- A sale that crosses the upper ends of two positions. -/
theorem simulate_crosses_two_entries :
    ∃ start pool trade entry outcome,
      Pool.create 1000 0x1000000000000000000000000 = .ok start ∧
      replay start [.deposit (-60) 60 1000000, .deposit (-120) 120 500000] = .ok pool ∧
      Trade.on pool .one .sell none = .ok trade ∧
      RunState.enter pool trade.direction ⟨7000, by decide, by decide⟩ = .ok entry ∧
      pool.index.validate = .ok () ∧ pool.index.contains entry.nextTick = true ∧
      entry.ticksCrossed = 0 ∧ simulate trade pool.index entry pool.records = .ok outcome ∧
      outcome.final.ticksCrossed = 2 ∧ trade.direction = .rising ∧
      crossedTicks trade pool.index entry pool.records =
        (entriesFrom pool.index .rising entry.nextTick).take 2 ∧
      (outcome.final.baseLiquidity.toNat : Int) = entry.baseLiquidity.toNat +
        ((crossedTicks trade pool.index entry pool.records).map (netOf pool.records)).sum := by
  have hrun : (do
      let start ← liftPool (Pool.create 1000 0x1000000000000000000000000)
      let pool ← replay start [.deposit (-60) 60 1000000, .deposit (-120) 120 500000]
      let trade ← (Trade.on pool .one .sell none).mapError .trade
      let entry ← liftPool (RunState.enter pool trade.direction ⟨7000, by decide, by decide⟩)
      liftPool pool.index.validate
      let outcome ← simulate trade pool.index entry pool.records
      return decide (pool.index.contains entry.nextTick = true ∧ entry.ticksCrossed = 0 ∧
        outcome.final.ticksCrossed = 2 ∧ trade.direction = .rising)) = Except.ok true := by
    decide +kernel
  obtain ⟨start, hstart, hrun⟩ := bind_eq_ok.mp hrun
  obtain ⟨pool, hpool, hrun⟩ := bind_eq_ok.mp hrun
  obtain ⟨trade, htrade, hrun⟩ := bind_eq_ok.mp hrun
  obtain ⟨entry, henter, hrun⟩ := bind_eq_ok.mp hrun
  obtain ⟨⟨⟩, hindex, hrun⟩ := bind_eq_ok.mp hrun
  obtain ⟨outcome, houtcome, hrun⟩ := bind_eq_ok.mp hrun
  obtain ⟨hentry, hzero, htwo, hrising⟩ := of_decide_eq_true (Except.ok.inj hrun)
  rw [liftPool_eq_ok] at hstart henter hindex
  rw [mapError_eq_ok] at htrade
  obtain ⟨⟨hcrossed, -⟩, ⟨-, hbase⟩, -⟩ :=
    simulate_crosses_entries hindex hentry hzero houtcome
  rw [htwo, hrising] at hcrossed
  rw [hrising] at hbase
  exact ⟨start, pool, trade, entry, outcome, hstart, hpool, htrade, henter, hindex, hentry, hzero,
    houtcome, htwo, hrising, hcrossed, hbase⟩

end ReinvestingPool.Proofs.CrossedTicks
