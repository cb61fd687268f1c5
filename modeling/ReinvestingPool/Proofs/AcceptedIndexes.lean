import ReinvestingPool.Proofs.BuiltIndexes

/-!
Which indexes are accepted, whatever their entries and links are. The walk that checks an index is
taken here turn by turn: every turn goes on to a higher entry, so that an index is accepted or
refused after no more turns than it has entries. Exactly the chains are accepted, and from an entry
of a chain the index leads on in either direction as far as the outermost tick.
-/

namespace ReinvestingPool.Proofs.AcceptedIndexes

open Failures Directions TickMaps TickPrices TickIndexes IndexChains IndexInsertions BuiltIndexes

variable {index : TickIndex} {tick next : Int} {visited turns : Nat} {link : TickLink}
variable {direction : Direction} {failure : PoolFailure}

section Termination

/-- The walk up an index, which is given up after so many turns. -/
def walkWithin (index : TickIndex) : Nat → Int → Nat → Option (Except PoolFailure Nat)
  | 0, _, _ => none
  | turns + 1, tick, visited =>
    if tick = maxTick then
      some (.ok visited)
    else
      match index.get? tick with
      | none => some (.error (.tickNotInitialized tick))
      | some link =>
        if link.next ≤ tick then
          some (.error (.unsortedIndex tick))
        else
          match index.get? link.next with
          | none => some (.error (.tickNotInitialized link.next))
          | some successor =>
            if successor.previous = tick then walkWithin index turns link.next (visited + 1)
            else some (.error (.brokenLink link.next))

/-- The check of an index, the walk of which is given up after so many turns. -/
def validateWithin (index : TickIndex) (turns : Nat) : Option (Except PoolFailure Unit) :=
  match index.checkEnds with
  | .error failure => some (.error failure)
  | .ok () => (walkWithin index turns minTick 1).map fun walked => do
      let visited ← walked
      if visited ≠ index.size then throw (.brokenLink (index.stray?.getD maxTick))

/-- The walk needs no more turns than there are entries from where it is, because every turn leaves
at least one of them behind. -/
theorem walkWithin_of_le (hentry : index.contains tick = true)
    (hturns : index.links.countFrom tick ≤ turns + 1) :
    walkWithin index (turns + 1) tick visited = some (index.walk tick visited) := by
  fun_induction TickIndex.walk index tick visited generalizing turns with
  | case1 visited => rw [walkWithin, if_pos rfl]
  | case2 tick visited hbelow hnone =>
    obtain ⟨link, hlink⟩ := exists_link hentry
    exact absurd (hlink.symm.trans hnone) (by simp)
  | case3 tick visited hbelow link hlink hfalls =>
    change index.get? tick = some link at hlink
    simp only [walkWithin, hbelow, hlink, hfalls, if_true, if_false]
  | case4 tick visited hbelow link hlink hrises hnone =>
    change index.get? tick = some link at hlink
    change index.get? link.next = none at hnone
    simp only [walkWithin, hbelow, hlink, hrises, hnone, if_false]
  | case5 visited link successor hsuccessor hbelow hlink hrises ih =>
    have hfewer := TickMap.countFrom_lt hlink (Int.not_le.mp hrises)
    change index.get? successor.previous = some link at hlink
    change index.get? link.next = some successor at hsuccessor
    have hright := contains_of_get? hsuccessor
    have hpos := countFrom_pos hright
    obtain ⟨rest, rfl⟩ : ∃ rest, turns = rest + 1 := ⟨turns - 1, by omega⟩
    have hrest : index.links.countFrom link.next ≤ rest + 1 := by omega
    rw [walkWithin, if_neg hbelow]
    simp only [hlink, hrises, hsuccessor, if_true, if_false]
    exact ih hright hrest
  | case6 tick visited hbelow link hlink hrises successor hsuccessor hback =>
    change index.get? tick = some link at hlink
    change index.get? link.next = some successor at hsuccessor
    simp only [walkWithin, hbelow, hlink, hrises, hsuccessor, hback, if_false]

/-- Whatever the links are, an index is accepted or refused after as many turns as it has
entries. -/
theorem validateWithin_of_le (h : index.size ≤ turns) :
    validateWithin index turns = some index.validate := by
  unfold validateWithin TickIndex.validate
  cases hends : index.checkEnds with
  | error failure => rfl
  | ok checked =>
    obtain ⟨lowest, highest, hlowest, -, -, -⟩ := checkEnds_eq_ok hends
    have hlow := contains_of_get? hlowest
    have hpos := countFrom_pos hlow
    have hsize : index.links.countFrom minTick ≤ index.size := List.countP_le_length
    obtain ⟨rest, rfl⟩ : ∃ rest, turns = rest + 1 := ⟨turns - 1, by omega⟩
    simp only [walkWithin_of_le hlow (Nat.le_trans hsize h), Option.map_some]
    rfl

end Termination

section Advancing

theorem validate_iff_chained : index.validate = .ok () ↔ Chained index :=
  ⟨chained_of_validate, validate_of_chained⟩

theorem toward_unique {other : Int} (h : AdjacentToward index direction tick next)
    (hother : AdjacentToward index direction tick other) : next = other := by
  cases direction with
  | rising => exact right_unique h hother
  | falling => exact left_unique h hother

/-- Nothing is next to an outermost tick on its outer side. -/
theorem inner_of_adjacent (hchained : Chained index)
    (h : AdjacentToward index direction tick next) : tick ≠ outermost direction := by
  cases direction with
  | rising =>
    have hinside := hchained.inside next h.right
    have hless := h.lt
    simp only [outermost]
    omega
  | falling =>
    have hinside := hchained.inside next h.left
    have hless := h.lt
    simp only [outermost]
    omega

/-- From an entry that is not outermost a chain leads on to the next one. -/
theorem advance_inside (hchained : Chained index) (hentry : index.contains tick = true)
    (hinside : tick ≠ outermost direction) :
    ∃ next, index.advance tick direction = .ok next ∧
      AdjacentToward index direction tick next := by
  obtain ⟨link, hlink⟩ := exists_link hentry
  have hadjacent := (toward_of_chained hchained hlink).1 hinside
  exact ⟨_, (advance_of_link hlink).trans (if_pos (beyond_of_adjacent hadjacent)), hadjacent⟩

/-- At an outermost entry the index is exhausted. -/
theorem advance_outermost (hchained : Chained index) (hentry : index.contains tick = true)
    (hend : tick = outermost direction) :
    index.advance tick direction = .error (.indexExhausted tick direction) := by
  obtain ⟨link, hlink⟩ := exists_link hentry
  rw [advance_of_link hlink, (toward_of_chained hchained hlink).2 hend]
  exact if_neg not_beyond_self

end Advancing

/-- The check of an index ends after no more turns than there are entries, whatever these are, and
accepts exactly the indexes in which both outermost ticks are entries, every entry lies between
them and every link leads to the entries next to it. From an entry of an index that is accepted,
the neighbour in a direction is found, and none exactly at the outermost tick. -/
theorem accepted_indexes (index : TickIndex) :
    (∀ turns, index.size ≤ turns → validateWithin index turns = some index.validate) ∧
      (index.validate = .ok () ↔ Chained index) ∧
      (index.validate = .ok () → ∀ direction tick, index.contains tick = true →
        (∀ next, index.advance tick direction = .ok next ↔
          AdjacentToward index direction tick next) ∧
        ∀ failure, index.advance tick direction = .error failure ↔
          tick = outermost direction ∧ failure = .indexExhausted tick direction) := by
  refine ⟨fun turns => validateWithin_of_le, validate_iff_chained, ?_⟩
  intro hvalid direction tick hentry
  have hchained := chained_of_validate hvalid
  by_cases hend : tick = outermost direction
  · have hexhausted := advance_outermost hchained hentry hend
    refine ⟨fun next => ⟨adjacent_of_advance hchained, fun hadjacent => ?_⟩, fun failure => ?_⟩
    · exact absurd hend (inner_of_adjacent hchained hadjacent)
    · rw [hexhausted, Except.error.injEq]
      exact ⟨fun hsame => ⟨hend, hsame.symm⟩, fun hsame => hsame.2.symm⟩
  · obtain ⟨next, hadvance, hadjacent⟩ := advance_inside hchained hentry hend
    refine ⟨fun other => ⟨adjacent_of_advance hchained, fun hother => ?_⟩, fun failure => ?_⟩
    · rw [hadvance, toward_unique hadjacent hother]
    · rw [hadvance]
      exact ⟨nofun, fun hsame => absurd hsame.1 hend⟩

/-- An index with two ticks between the outermost ones, followed upwards to its end. -/
theorem accepted_indexes_upwards :
    ∃ index, TickIndex.ofTicks [60, -60] = .ok index ∧
      validateWithin index 4 = some (.ok ()) ∧ Chained index ∧
      AdjacentToward index .rising (-60) 60 ∧ index.advance (-60) .rising = .ok 60 ∧
      index.advance maxTick .rising = .error (.indexExhausted maxTick .rising) := by
  refine ⟨[-60, 60].foldl attempt .empty, by decide +kernel, ?_⟩
  obtain ⟨hends, hexact, hleads⟩ := accepted_indexes ([-60, 60].foldl attempt .empty)
  have hvalid : ([-60, 60].foldl attempt .empty).validate = .ok () := by decide +kernel
  obtain ⟨hinner, -⟩ := hleads hvalid .rising (-60) (by decide +kernel)
  obtain ⟨-, houter⟩ := hleads hvalid .rising maxTick (by decide +kernel)
  have hadvance : ([-60, 60].foldl attempt .empty).advance (-60) .rising = .ok 60 := by
    decide +kernel
  refine ⟨?_, hexact.mp hvalid, (hinner 60).mp hadvance, hadvance, ?_⟩
  · rw [hends 4 (by decide +kernel), hvalid]
  · exact (houter _).mpr ⟨rfl, rfl⟩

/-- An entry that no other one leads to, however plausible its own links are. -/
example :
    (TickIndex.mk (.ofList [(minTick, ⟨minTick, maxTick⟩), (60, ⟨minTick, maxTick⟩),
      (maxTick, ⟨minTick, maxTick⟩)])).validate = .error (.brokenLink 60) := by
  decide +kernel

end ReinvestingPool.Proofs.AcceptedIndexes
