import ReinvestingPool.Proofs.NetLiquidity
import ReinvestingPool.Proofs.RunTicks
import ReinvestingPool.Proofs.TickLadder

/-!
Where a run stands among the initialized ticks. No entry lies between its current tick and the tick
ahead, its price belongs to the current tick, and its active liquidity is what the records below
the price account for. Every move keeps this, whatever amount it uses.
-/

namespace ReinvestingPool.Proofs.Cursors

open Words Directions TickMaps TickPrices TickIndexes Pools Crossings Runs Simulations Paths
open StepFrames IndexChains RunTicks NetLiquidity TickLadder

/-- The tick ahead is the first entry in the direction of travel. -/
def Ahead (index : TickIndex) (direction : Direction) (current next : Int) : Prop :=
  match direction with
  | .rising => current < next ∧
      ∀ entry, index.contains entry = true → current < entry → next ≤ entry
  | .falling => next ≤ current ∧
      ∀ entry, index.contains entry = true → entry ≤ current → entry ≤ next

/-- A price between that of a tick and that of the next one. -/
structure Within (tick : Int) (price : Word) : Prop where
  low : minTick ≤ tick
  high : tick < maxTick
  reached : ratio tick ≤ price.toNat
  short : price.toNat ≤ ratio (tick + 1)

structure Cursor (index : TickIndex) (direction : Direction) (p : Point) : Prop where
  indexed : ∀ tick, p.2.contains tick = true → index.contains tick = true
  entry : index.contains p.1.nextTick = true
  ahead : Ahead index direction p.1.currentTick p.1.nextTick
  base : (p.1.baseLiquidity.toNat : Int) = netBelow p.2 p.1.currentTick
  within : Within p.1.currentTick p.1.sqrtPrice

variable {trade : Trade} {index : TickIndex} {direction : Direction} {p q : Point}
variable {s t moved : RunState} {records flipped : TickMap TickRecord} {current next : Int}

/-- A tick that lies ahead, and not beyond the next entry. -/
def Between (direction : Direction) (current edge next : Int) : Prop :=
  match direction with
  | .rising => current < edge ∧ edge ≤ next
  | .falling => next ≤ edge ∧ edge ≤ current

theorem between_edgeTick (h : Ahead index direction s.currentTick s.nextTick) :
    Between direction s.currentTick (edgeTick direction s) s.nextTick := by
  cases direction with
  | rising =>
    obtain ⟨hless, -⟩ := h
    simp only [Between, edgeTick, maxTickStep]
    omega
  | falling =>
    obtain ⟨hless, -⟩ := h
    simp only [Between, edgeTick, maxTickStep]
    omega

/-- Landing short of the next entry passes none. -/
theorem ahead_of_glide {edge : Int} (h : Ahead index direction current next)
    (hbetween : Between direction current edge next) (hshort : edge ≠ next) :
    Ahead index direction (landingTick direction edge) next ∧
      ∀ entry, index.contains entry = true →
        (entry ≤ current ↔ entry ≤ landingTick direction edge) := by
  cases direction with
  | rising =>
    obtain ⟨-, hnone⟩ := h
    obtain ⟨hfrom, hto⟩ := hbetween
    refine ⟨⟨?_, fun entry hentry hless => ?_⟩, fun entry hentry => ?_⟩
    · change edge < next
      omega
    · change edge < entry at hless
      exact hnone entry hentry (by omega)
    · change entry ≤ current ↔ entry ≤ edge
      have hbeyond := hnone entry hentry
      omega
  | falling =>
    obtain ⟨-, hnone⟩ := h
    obtain ⟨hto, hfrom⟩ := hbetween
    refine ⟨⟨?_, fun entry hentry hless => ?_⟩, fun entry hentry => ?_⟩
    · change next ≤ edge - 1
      omega
    · change entry ≤ edge - 1 at hless
      exact hnone entry hentry (by omega)
    · change entry ≤ current ↔ entry ≤ edge - 1
      have hbeyond := hnone entry hentry
      omega

/-- Landing on the next entry makes the one after it the next. -/
theorem ahead_of_cross {after : Int} (hadjacent : AdjacentToward index direction next after) :
    Ahead index direction (landingTick direction next) after := by
  cases direction with
  | rising => exact ⟨hadjacent.lt, hadjacent.none_between⟩
  | falling =>
    have hless := hadjacent.lt
    refine ⟨?_, fun entry hentry hle => ?_⟩
    · change after ≤ next - 1
      omega
    · change entry ≤ next - 1 at hle
      by_contra hbetween
      have hbeyond := hadjacent.none_between entry hentry (by omega)
      omega

/-- Moving the current tick within a gap between entries changes no sum. -/
theorem netBelow_of_gap (hindexed : ∀ tick, records.contains tick = true →
      index.contains tick = true) {a b : Int}
    (hgap : ∀ entry, index.contains entry = true → (entry ≤ a ↔ entry ≤ b)) :
    netBelow records a = netBelow records b :=
  netBelow_congr fun tick htick => hgap tick (hindexed tick htick)

/-- Crossing the next entry passes its net change and no other. -/
theorem netBelow_of_cross (hindexed : ∀ tick, records.contains tick = true →
      index.contains tick = true) (h : Ahead index direction current next) :
    netBelow records (landingTick direction next) =
      netBelow records current + towards direction (netOf records next) := by
  have hstep := netBelow_succ records next
  cases direction with
  | rising =>
    obtain ⟨hless, hnone⟩ := h
    have hgap : netBelow records current = netBelow records (next - 1) :=
      netBelow_of_gap hindexed fun entry hentry => by
        have hbeyond := hnone entry hentry
        omega
    simp only [landingTick, towards]
    omega
  | falling =>
    obtain ⟨hless, hnone⟩ := h
    have hgap : netBelow records current = netBelow records next :=
      netBelow_of_gap hindexed fun entry hentry => by
        have hbeyond := hnone entry hentry
        omega
    simp only [landingTick, towards]
    omega

/-- A price that has just reached an edge belongs to the tick on the far side. -/
theorem within_landing {edge : Int} {price : Word}
    (hlow : minTick ≤ landingTick direction edge) (hhigh : landingTick direction edge < maxTick)
    (hprice : price.toNat = ratio edge) : Within (landingTick direction edge) price := by
  have hstep := ratio_le_succ hlow hhigh
  refine ⟨hlow, hhigh, ?_, ?_⟩
  · cases direction with
    | rising => exact Nat.le_of_eq hprice.symm
    | falling =>
      change ratio (edge - 1) ≤ _
      change ratio (edge - 1) ≤ ratio (edge - 1 + 1) at hstep
      rw [Int.sub_add_cancel] at hstep
      rw [hprice]
      exact hstep
  · cases direction with
    | rising =>
      rw [hprice]
      exact hstep
    | falling =>
      change _ ≤ ratio (edge - 1 + 1)
      rw [Int.sub_add_cancel]
      exact Nat.le_of_eq hprice

theorem landing_bounds {edge : Int} (hchained : Chained index)
    (hentry : index.contains next = true) (hbetween : Between direction current edge next)
    (hwithin : minTick ≤ current ∧ current < maxTick) (hshort : edge ≠ next) :
    minTick ≤ landingTick direction edge ∧ landingTick direction edge < maxTick := by
  obtain ⟨hlow, hhigh⟩ := hchained.inside next hentry
  cases direction with
  | rising =>
    simp only [Between, landingTick] at hbetween ⊢
    omega
  | falling =>
    simp only [Between, landingTick] at hbetween ⊢
    omega

theorem adjacent_bounds {after : Int} (hchained : Chained index)
    (hadjacent : AdjacentToward index direction next after) :
    minTick ≤ landingTick direction next ∧ landingTick direction next < maxTick := by
  cases direction with
  | rising =>
    have hleft := hchained.inside next hadjacent.left
    have hright := hchained.inside after hadjacent.right
    have hless := hadjacent.lt
    simp only [landingTick]
    omega
  | falling =>
    have hleft := hchained.inside after hadjacent.left
    have hright := hchained.inside next hadjacent.right
    have hless := hadjacent.lt
    simp only [landingTick]
    omega

theorem price_of_steps (hsteps : Steps trade s moved)
    (hedge : moved.sqrtPrice = edgePrice trade.direction s) :
    moved.sqrtPrice.toNat = ratio (edgeTick trade.direction s) := by
  obtain ⟨hinside, -⟩ := hsteps
  rw [hedge]
  exact toNat_ratio hinside.1 hinside.2

/-- The place of a run, whatever its liquidity and the records are. -/
structure Placed (index : TickIndex) (direction : Direction) (s : RunState) : Prop where
  entry : index.contains s.nextTick = true
  ahead : Ahead index direction s.currentTick s.nextTick
  within : Within s.currentTick s.sqrtPrice

theorem placed_of_cursor (h : Cursor index direction p) : Placed index direction p.1 :=
  ⟨h.entry, h.ahead, h.within⟩

theorem placed_of_glide (hchained : Chained index) (h : Placed index trade.direction s)
    (hsteps : Steps trade s moved) (hedge : moved.sqrtPrice = edgePrice trade.direction s)
    (hnext : edgeTick trade.direction s ≠ s.nextTick) :
    Placed index trade.direction (landed trade.direction s moved) := by
  obtain ⟨-, hsame, -, -⟩ := steps_frame hsteps
  have hbetween := between_edgeTick h.ahead
  obtain ⟨hahead, -⟩ := ahead_of_glide h.ahead hbetween hnext
  obtain ⟨hlow, hhigh⟩ := landing_bounds hchained h.entry hbetween
    ⟨h.within.low, h.within.high⟩ hnext
  have hprice := price_of_steps hsteps hedge
  refine ⟨?_, ?_, within_landing hlow hhigh hprice⟩
  · change index.contains moved.nextTick = true
    rw [hsame]
    exact h.entry
  · change Ahead index trade.direction _ moved.nextTick
    rw [hsame]
    exact hahead

/-- A run that leaves a range is on the far side of the entry that was ahead. -/
theorem placed_of_cross (hchained : Chained index) (hsteps : Steps trade s moved)
    (hedge : moved.sqrtPrice = edgePrice trade.direction s)
    (hnext : edgeTick trade.direction s = s.nextTick)
    (hleave : leaveRange trade index (landed trade.direction s moved) records =
      .ok (t, flipped)) :
    Placed index trade.direction t ∧ t.currentTick = landingTick trade.direction s.nextTick := by
  obtain ⟨-, hsame, -, -⟩ := steps_frame hsteps
  obtain ⟨record, hadvance, -, -, -, hframe⟩ := leaveRange_eq_ok hleave
  change index.advance moved.nextTick trade.direction = _ at hadvance
  rw [hsame] at hadvance
  have hcurrent : t.currentTick = landingTick trade.direction s.nextTick := by
    rw [hframe]
    change landingTick trade.direction (edgeTick trade.direction s) = _
    rw [hnext]
  have hprice : t.sqrtPrice.toNat = ratio s.nextTick := by
    have hlanded := price_of_steps hsteps hedge
    rw [hnext] at hlanded
    rw [hframe]
    exact hlanded
  have hadjacent := adjacent_of_advance hchained hadvance
  obtain ⟨hlow, hhigh⟩ := adjacent_bounds hchained hadjacent
  refine ⟨⟨contains_of_adjacent hadjacent, ?_, ?_⟩, hcurrent⟩
  · rw [hcurrent]
    exact ahead_of_cross hadjacent
  · rw [hcurrent]
    exact within_landing hlow hhigh hprice

/-- A move keeps the run in its place. -/
theorem placed_of_moves (hchained : Chained index) (h : Placed index trade.direction p.1)
    (hmoves : Moves trade index p q) : Placed index trade.direction q.1 := by
  cases hmoves with
  | glide _ hglides =>
    obtain ⟨moved, hsteps, hedge, hnext, rfl⟩ := advance_glided_iff.mp hglides
    exact placed_of_glide hchained h hsteps hedge hnext
  | cross _ hcrosses =>
    obtain ⟨moved, hsteps, hedge, hnext, hleave⟩ := advance_crossed_iff.mp hcrosses
    exact (placed_of_cross hchained hsteps hedge hnext hleave).1

theorem placed_of_reaches (hchained : Chained index) (h : Placed index trade.direction p.1)
    (hreaches : Reaches trade index p q) : Placed index trade.direction q.1 := by
  induction hreaches with
  | refl => exact h
  | tail _ hmoves ih => exact placed_of_moves hchained ih hmoves

theorem cursor_of_glide (hchained : Chained index) (h : Cursor index trade.direction (s, records))
    (hsteps : Steps trade s moved) (hedge : moved.sqrtPrice = edgePrice trade.direction s)
    (hnext : edgeTick trade.direction s ≠ s.nextTick) :
    Cursor index trade.direction (landed trade.direction s moved, records) := by
  obtain ⟨-, -, hbase, -⟩ := steps_frame hsteps
  obtain ⟨-, hgap⟩ := ahead_of_glide h.ahead (between_edgeTick h.ahead) hnext
  obtain ⟨hentry, hahead, hwithin⟩ :=
    placed_of_glide hchained (placed_of_cursor h) hsteps hedge hnext
  refine ⟨h.indexed, hentry, hahead, ?_, hwithin⟩
  change (moved.baseLiquidity.toNat : Int) = netBelow records _
  rw [hbase]
  exact h.base.trans (netBelow_of_gap h.indexed hgap)

theorem cursor_of_cross (hchained : Chained index) (h : Cursor index trade.direction (s, records))
    (hsteps : Steps trade s moved) (hedge : moved.sqrtPrice = edgePrice trade.direction s)
    (hnext : edgeTick trade.direction s = s.nextTick)
    (hleave : leaveRange trade index (landed trade.direction s moved) records =
      .ok (t, flipped)) : Cursor index trade.direction (t, flipped) := by
  obtain ⟨-, hsame, hbase, -⟩ := steps_frame hsteps
  obtain ⟨record, -, hrecord, hliquidity, hflipped, -⟩ := leaveRange_eq_ok hleave
  change records.get? moved.nextTick = _ at hrecord
  change crossLiquidity moved.baseLiquidity record.liquidityNet trade.direction = _ at hliquidity
  change flipped = records.insert moved.nextTick _ at hflipped
  rw [hsame] at hrecord hflipped
  rw [hbase] at hliquidity
  obtain ⟨⟨hentry, hahead, hwithin⟩, hcurrent⟩ :=
    placed_of_cross hchained hsteps hedge hnext hleave
  refine ⟨?_, hentry, hahead, ?_, hwithin⟩
  · intro tick htick
    rw [hflipped] at htick
    rcases contains_insert_iff.mp htick with hold | rfl
    · exact h.indexed tick hold
    · exact h.entry
  · change (t.baseLiquidity.toNat : Int) = netBelow flipped t.currentTick
    rw [hflipped, netBelow_flip hrecord, hcurrent, netBelow_of_cross h.indexed h.ahead,
      netOf_of_get? hrecord, crossLiquidity_eq_ok hliquidity]
    exact congrArg (· + _) h.base

/-- A move keeps the run in its place among the initialized ticks. -/
theorem cursor_of_moves (hchained : Chained index) (h : Cursor index trade.direction p)
    (hmoves : Moves trade index p q) : Cursor index trade.direction q := by
  cases hmoves with
  | glide _ hglides =>
    obtain ⟨moved, hsteps, hedge, hnext, rfl⟩ := advance_glided_iff.mp hglides
    exact cursor_of_glide hchained h hsteps hedge hnext
  | cross _ hcrosses =>
    obtain ⟨moved, hsteps, hedge, hnext, hleave⟩ := advance_crossed_iff.mp hcrosses
    exact cursor_of_cross hchained h hsteps hedge hnext hleave

theorem cursor_of_reaches (hchained : Chained index) (h : Cursor index trade.direction p)
    (hreaches : Reaches trade index p q) : Cursor index trade.direction q := by
  induction hreaches with
  | refl => exact h
  | tail _ hmoves ih => exact cursor_of_moves hchained ih hmoves

end ReinvestingPool.Proofs.Cursors
