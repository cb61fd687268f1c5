import ReinvestingPool.Proofs.CoherentPools

/-!
What a run sees of the index. A step aims at most so many ticks ahead, so a run looks at the entries
in a corridor only, which goes from the tick where it begins to that distance beyond the tick where
it ends. An index and records that are the same there lead through the same states, up to a tick
ahead that is out of reach.
-/

namespace ReinvestingPool.Proofs.Corridors

open Failures Words Directions TickMaps TickPrices TickIndexes Pools Crossings Runs Simulations
open Paths StepFrames RunEnds IndexChains RunTicks Cursors Stops CoherentPools

/-- The ticks at which a step may aim on the way from one tick to another. -/
def InCorridor (direction : Direction) (first last tick : Int) : Prop :=
  match direction with
  | .rising => first < tick ∧ tick ≤ last + maxTickStep
  | .falling => last - maxTickStep ≤ tick ∧ tick ≤ first

/-- Two indexes have the same entries in a corridor. -/
def SameEntries (direction : Direction) (first last : Int) (index others : TickIndex) : Prop :=
  ∀ tick, InCorridor direction first last tick →
    (others.contains tick = true ↔ index.contains tick = true)

/-- The same records are found in a corridor. -/
def SameRecords (direction : Direction) (first last : Int)
    (records others : TickMap TickRecord) : Prop :=
  ∀ tick, InCorridor direction first last tick → others.get? tick = records.get? tick

/-- A state with another tick ahead. -/
def facing (s : RunState) (tick : Int) : RunState := { s with nextTick := tick }

/-- A run that has begun at `first`, and one in the same state but for the tick ahead. -/
structure Abreast (direction : Direction) (index others : TickIndex) (first last : Int)
    (s : RunState) (next : Int) (records found : TickMap TickRecord) : Prop where
  placed : Placed index direction s
  twin : Placed others direction (facing s next)
  begun : Onward direction first s.currentTick
  records : SameRecords direction first last records found

variable {trade : Trade} {index others : TickIndex} {direction : Direction} {p q c : Point}
variable {s t moved final : RunState} {records found flipped : TickMap TickRecord}
variable {first last next tick after : Int} {before : Word}

theorem onward_trans {a b c : Int} (hab : Onward direction a b) (hbc : Onward direction b c) :
    Onward direction a c := by
  cases direction with
  | rising => exact Int.le_trans hab hbc
  | falling => exact Int.le_trans hbc hab

section Steps

theorem edgePrice_facing (hedge : edgeTick direction (facing s next) = edgeTick direction s) :
    edgePrice direction (facing s next) = edgePrice direction s := by
  unfold edgePrice
  rw [hedge]

theorem steps_facing (hedge : edgeTick trade.direction (facing s next) = edgeTick trade.direction s)
    (h : Steps trade s moved) : Steps trade (facing s next) (facing moved next) := by
  obtain ⟨hinside, step, hstep, hsettle⟩ := steps_iff.mp h
  refine steps_iff.mpr ⟨hedge ▸ hinside, step, ?_, ?_⟩
  · unfold aim
    rw [edgePrice_facing hedge]
    exact hstep
  · obtain ⟨remaining, exchanged, hremaining, hkept, hexchanged, rfl⟩ := settle_eq_ok.mp hsettle
    exact settle_eq_ok.mpr ⟨remaining, exchanged, hremaining, hkept, hexchanged, rfl⟩

theorem locate_facing (h : s.locate before = .ok t) :
    (facing s next).locate before = .ok (facing t next) := by
  unfold RunState.locate at h ⊢
  by_cases hstay : s.sqrtPrice = before
  · rw [if_pos hstay] at h
    cases h
    exact if_pos hstay
  · rw [if_neg hstay] at h
    obtain ⟨tick, htick, h⟩ := bind_eq_ok.mp h
    cases h
    refine (if_neg hstay).trans ?_
    exact bind_eq_ok.mpr ⟨tick, htick, rfl⟩

/-- Crossing an entry does the same where the same record is found, and goes on to the tick that
comes after it in the index. -/
theorem leaveRange_elsewhere (h : leaveRange trade index s records = .ok (t, flipped))
    (hrecord : found.get? s.nextTick = records.get? s.nextTick)
    (hnext : others.advance s.nextTick trade.direction = .ok next) :
    ∃ record, flipped = records.insert s.nextTick record ∧
      leaveRange trade others s found = .ok (facing t next, found.insert s.nextTick record) := by
  obtain ⟨minted, hminted, h⟩ := bind_eq_ok.mp h
  obtain ⟨beyond, ahead, hcross, rfl⟩ := RunState.cross_eq_ok.mp h
  obtain ⟨-, record, hget, hflipped, hliquidity⟩ := crossTick_eq_ok.mp hcross
  obtain ⟨hkept, -⟩ := RunState.mintFees_ticks hminted
  rw [(RunState.syncSeconds_ticks s trade.blockTime).1] at hkept
  rw [hkept] at hget hflipped
  refine ⟨_, hflipped, bind_eq_ok.mpr ⟨minted, hminted, RunState.cross_eq_ok.mpr ?_⟩⟩
  refine ⟨beyond, next, crossTick_eq_ok.mpr ?_, rfl⟩
  rw [hkept]
  exact ⟨hnext, record, hrecord.trans hget, rfl, hliquidity⟩

end Steps

section Edges

/-- A step aims inside the corridor. -/
theorem inCorridor_edge (hahead : Ahead index direction s.currentTick s.nextTick)
    (hfirst : Onward direction first s.currentTick)
    (hlast : Onward direction s.currentTick last) :
    InCorridor direction first last (edgeTick direction s) := by
  cases direction with
  | rising =>
    have hless := hahead.1
    simp only [InCorridor, Onward, edgeTick, maxTickStep] at *
    omega
  | falling =>
    have hless := hahead.1
    simp only [InCorridor, Onward, edgeTick, maxTickStep] at *
    omega

/-- The tick ahead is the same in both indexes, or in both out of reach of a step. -/
theorem edge_facing (hentries : SameEntries direction first last index others)
    (h : Abreast direction index others first last s next records found)
    (hlast : Onward direction s.currentTick last) :
    edgeTick direction (facing s next) = edgeTick direction s ∧
      (edgeTick direction s = s.nextTick → next = s.nextTick) ∧
      (edgeTick direction s ≠ s.nextTick → edgeTick direction s ≠ next) := by
  have hown := hentries s.nextTick
  have hother := hentries next
  have hentry := h.placed.entry
  have hentry' : others.contains next = true := h.twin.entry
  have hbegun := h.begun
  cases direction with
  | rising =>
    obtain ⟨hless, hnone⟩ := h.placed.ahead
    obtain ⟨hless', hnone'⟩ : s.currentTick < next ∧ ∀ entry, others.contains entry = true →
      s.currentTick < entry → next ≤ entry := h.twin.ahead
    simp only [InCorridor, Onward, edgeTick, facing, maxTickStep] at *
    have hforth := fun hreach => hnone' s.nextTick ((hown hreach).mpr hentry) hless
    have hback := fun hreach => hnone next ((hother hreach).mp hentry') hless'
    omega
  | falling =>
    obtain ⟨hless, hnone⟩ := h.placed.ahead
    obtain ⟨hless', hnone'⟩ : next ≤ s.currentTick ∧ ∀ entry, others.contains entry = true →
      entry ≤ s.currentTick → entry ≤ next := h.twin.ahead
    simp only [InCorridor, Onward, edgeTick, facing, maxTickStep] at *
    have hforth := fun hreach => hnone' s.nextTick ((hown hreach).mpr hentry) hless
    have hback := fun hreach => hnone next ((hother hreach).mp hentry') hless'
    omega

/-- Where a run can go on from an entry, it can in every chain that has the entry. -/
theorem exists_advance (hchained : Chained index) (hothers : Chained others)
    (h : index.advance tick direction = .ok after) (hentry : others.contains tick = true) :
    ∃ next, others.advance tick direction = .ok next := by
  obtain ⟨link, hlink⟩ := exists_link hentry
  have hadjacent := adjacent_of_advance hchained h
  have hbeyond : Beyond direction tick (link.toward direction) := by
    cases direction with
    | rising =>
      have hless := hadjacent.lt
      have hinside := hchained.inside after hadjacent.right
      exact (hothers.next tick link hlink (by omega)).lt
    | falling =>
      have hless := hadjacent.lt
      have hinside := hchained.inside after hadjacent.left
      exact (hothers.previous tick link hlink (by omega)).lt
  exact ⟨_, bind_eq_ok.mpr ⟨link, linkAt_eq_ok.mpr hlink, if_pos hbeyond⟩⟩

theorem SameRecords.insert {record : TickRecord}
    (h : SameRecords direction first last records found) (tick : Int) :
    SameRecords direction first last (records.insert tick record) (found.insert tick record) := by
  intro key hkey
  rw [TickMap.get?_insert, TickMap.get?_insert, h key hkey]

end Edges

section Moves

variable (hentries : SameEntries trade.direction first last index others)
variable (h : Abreast trade.direction index others first last s next records found)
variable (hlast : Onward trade.direction s.currentTick last)
include hentries h hlast

theorem stop_facing (hstop : advance trade index s records = .ok (.stopped t)) :
    advance trade others (facing s next) found = .ok (.stopped (facing t next)) := by
  obtain ⟨hedge, -⟩ := edge_facing hentries h hlast
  obtain ⟨moved, hsteps, hoff, hlocate⟩ := advance_stopped_iff.mp hstop
  refine advance_stopped_iff.mpr ⟨_, steps_facing hedge hsteps, ?_, locate_facing hlocate⟩
  rw [edgePrice_facing hedge]
  exact hoff

theorem glide_facing (hglide : advance trade index s records = .ok (.glided t)) :
    advance trade others (facing s next) found = .ok (.glided (facing t next)) := by
  obtain ⟨hedge, -, hshort⟩ := edge_facing hentries h hlast
  obtain ⟨moved, hsteps, hprice, hnext, rfl⟩ := advance_glided_iff.mp hglide
  refine advance_glided_iff.mpr ⟨_, steps_facing hedge hsteps, ?_, ?_, ?_⟩
  · rw [edgePrice_facing hedge]
    exact hprice
  · rw [hedge]
    exact hshort hnext
  · unfold landed
    rw [hedge]
    rfl

/-- An entry that one run crosses is ahead of the other one, too, and has the same record there. -/
theorem cross_facing (hchained : Chained index) (hothers : Chained others)
    (hcross : advance trade index s records = .ok (.crossed t flipped)) :
    ∃ after left, advance trade others (facing s next) found =
        .ok (.crossed (facing t after) left) ∧
      SameRecords trade.direction first last flipped left := by
  obtain ⟨-, hsame, -⟩ := edge_facing hentries h hlast
  obtain ⟨moved, hsteps, hprice, hnext, hleave⟩ := advance_crossed_iff.mp hcross
  obtain rfl := hsame hnext
  have hkept : moved.nextTick = s.nextTick := (steps_frame hsteps).2.1
  have hreach := inCorridor_edge h.placed.ahead h.begun hlast
  rw [hnext, ← hkept] at hreach
  have hentry : others.contains moved.nextTick = true := hkept ▸ h.twin.entry
  obtain ⟨-, hadvance, -⟩ := leaveRange_eq_ok hleave
  obtain ⟨after, hafter⟩ := exists_advance hchained hothers hadvance hentry
  obtain ⟨record, rfl, hleave'⟩ := leaveRange_elsewhere hleave (h.records _ hreach) hafter
  refine ⟨after, _, ?_, h.records.insert _⟩
  -- The tick ahead is the same, so this is the state itself.
  show advance trade others s found = _
  exact advance_crossed_iff.mpr ⟨moved, hsteps, hprice, hnext, hleave'⟩

end Moves

section Runs

variable (hchained : Chained index) (hothers : Chained others)
variable (hentries : SameEntries trade.direction first last index others)

include hchained hothers hentries in
/-- What one run does in a move the other one does, too, and they stay abreast. -/
theorem abreast_of_moves
    (h : Abreast trade.direction index others first last p.1 next p.2 found)
    (hlast : Onward trade.direction p.1.currentTick last) (hmoves : Moves trade index p q) :
    ∃ after left, Moves trade others (facing p.1 next, found) (facing q.1 after, left) ∧
      Abreast trade.direction index others first last q.1 after q.2 left := by
  have htwin : ∃ after left,
      Moves trade others (facing p.1 next, found) (facing q.1 after, left) ∧
      SameRecords trade.direction first last q.2 left := by
    cases hmoves with
    | @glide s _ _ hopen hglide =>
      have hopen : ¬ (facing s next).Over trade.limit := hopen
      exact ⟨next, found, .glide hopen (glide_facing hentries h hlast hglide), h.records⟩
    | @cross s _ _ _ hopen hcross =>
      have hopen : ¬ (facing s next).Over trade.limit := hopen
      obtain ⟨after, left, hcross', hrecords⟩ :=
        cross_facing hentries h hlast hchained hothers hcross
      exact ⟨after, left, .cross hopen hcross', hrecords⟩
  obtain ⟨after, left, hmoves', hrecords⟩ := htwin
  have honward := (onwards_of_moves hchained h.placed hmoves).1.tick
  exact ⟨after, left, hmoves', placed_of_moves hchained h.placed hmoves,
    placed_of_moves hothers h.twin hmoves', onward_trans h.begun honward, hrecords⟩

include hchained hothers hentries in
/-- Two runs that set out abreast stay so as far as one of them goes. -/
theorem abreast_of_reaches
    (h : Abreast trade.direction index others first last p.1 next p.2 found)
    (hreaches : Reaches trade index p c) (hlast : Onward trade.direction c.1.currentTick last) :
    ∃ after left, Reaches trade others (facing p.1 next, found) (facing c.1 after, left) ∧
      Abreast trade.direction index others first last c.1 after c.2 left := by
  induction hreaches with
  | refl => exact ⟨next, found, .refl, h⟩
  | tail hearlier hmoves ih =>
    have hplaced := placed_of_reaches hchained h.placed hearlier
    have honward := onward_trans (onwards_of_moves hchained hplaced hmoves).1.tick hlast
    obtain ⟨between, held, hreaches', hbetween⟩ := ih honward
    obtain ⟨after, left, hmoves', hafter⟩ :=
      abreast_of_moves hchained hothers hentries hbetween honward hmoves
    exact ⟨after, left, hreaches'.tail hmoves', hafter⟩

include hentries in
theorem ends_facing (h : Abreast trade.direction index others first last p.1 next p.2 found)
    (hlast : Onward trade.direction p.1.currentTick last) (hends : Ends trade index p final) :
    Ends trade others (facing p.1 next, found) (facing final next) := by
  cases hends with
  | finished hover => exact .finished hover
  | @stop s _ _ hopen hstop =>
    have hopen : ¬ (facing s next).Over trade.limit := hopen
    exact .stop hopen (stop_facing hentries h hlast hstop)

include hchained hothers hentries in
/-- Two runs that set out abreast pass the same states and end in the same one, up to the tick
ahead. -/
theorem run_facing (h : Abreast trade.direction index others first last p.1 next p.2 found)
    (hreaches : Reaches trade index p c) (hends : Ends trade index c final)
    (hlast : Onward trade.direction c.1.currentTick last) :
    ∃ after left, Reaches trade others (facing p.1 next, found) (facing c.1 after, left) ∧
      Ends trade others (facing c.1 after, left) (facing final after) := by
  obtain ⟨after, left, hreaches', hafter⟩ :=
    abreast_of_reaches hchained hothers hentries h hreaches hlast
  exact ⟨after, left, hreaches', ends_facing hentries hafter hlast hends⟩

end Runs

end ReinvestingPool.Proofs.Corridors
