import Mathlib.Tactic.ByContra
import ReinvestingPool.TickIndexes

/-!
The entries of an index as a chain. An index that is accepted has every link lead to the entry next
to it, because the walk up from the lowest tick meets as many entries as there are and can therefore
pass over none.
-/

namespace ReinvestingPool.Proofs.IndexChains

open Failures Directions TickMaps TickPrices TickIndexes

variable {index : TickIndex} {tick entry a b visited total : Int} {link : TickLink}

/-- Two entries with no entry between them. -/
structure Adjacent (index : TickIndex) (a b : Int) : Prop where
  left : index.contains a = true
  right : index.contains b = true
  lt : a < b
  none_between : ∀ entry, index.contains entry = true → a < entry → b ≤ entry

theorem contains_of_get? (h : index.get? tick = some link) : index.contains tick = true := by
  change (index.get? tick).isSome = true
  rw [h]
  rfl

theorem exists_link (h : index.contains tick = true) : ∃ link, index.get? tick = some link :=
  Option.isSome_iff_exists.mp h

theorem linkAt_eq_ok : index.linkAt tick = .ok link ↔ index.get? tick = some link := by
  unfold TickIndex.linkAt
  cases index.get? tick with
  | none => simp
  | some found => simp

/-- A chain of links up to the highest tick, each of which leads to the next entry and back. -/
inductive Chain (index : TickIndex) : Int → Prop
  | top (hentry : index.contains maxTick = true)
      (hhighest : ∀ entry, index.contains entry = true → entry ≤ maxTick) : Chain index maxTick
  | step {tick : Int} {link successor : TickLink} (hlink : index.get? tick = some link)
      (hnext : Adjacent index tick link.next) (hsuccessor : index.get? link.next = some successor)
      (hback : successor.previous = tick) (hrest : Chain index link.next) : Chain index tick

theorem countFrom_pos (h : index.contains tick = true) : 0 < index.links.countFrom tick := by
  obtain ⟨link, hlink⟩ := exists_link h
  refine List.countP_pos_iff.mpr ⟨(tick, link), mem_of_find? hlink, ?_⟩
  simp only [decide_eq_true_eq, Int.le_refl]

/-- Where the count drops by one from an entry to a higher one, there is none between them. -/
theorem adjacent_of_countFrom (hlink : index.get? a = some link) (hright : index.contains b = true)
    (hlt : a < b) (hcount : index.links.countFrom a ≤ index.links.countFrom b + 1) :
    Adjacent index a b := by
  refine ⟨contains_of_get? hlink, hright, hlt, fun entry hentry hbeyond => ?_⟩
  by_contra hbetween
  obtain ⟨middle, hmiddle⟩ := exists_link hentry
  have hfirst := TickMap.countFrom_lt hlink hbeyond
  have hsecond := TickMap.countFrom_lt hmiddle (Int.not_le.mp hbetween)
  omega

/-- A walk counts no more entries than there are. -/
theorem walk_le {visited total : Nat} (hentry : index.contains tick = true)
    (h : index.walk tick visited = .ok total) :
    total + 1 ≤ visited + index.links.countFrom tick := by
  fun_induction TickIndex.walk index tick visited with
  | case1 visited =>
    cases h
    have hpos := countFrom_pos hentry
    omega
  | case2 => cases h
  | case3 => cases h
  | case4 => cases h
  | case5 visited link successor hsuccessor _ hlink hrises ih =>
    have hrest := ih (contains_of_get? hsuccessor) h
    have hfewer := TickMap.countFrom_lt hlink (Int.not_le.mp hrises)
    omega
  | case6 => cases h

/-- A walk that counts all entries from where it began has followed a chain. -/
theorem chain_of_walk {visited total : Nat} (hentry : index.contains tick = true)
    (h : index.walk tick visited = .ok total)
    (hall : visited + index.links.countFrom tick ≤ total + 1) : Chain index tick := by
  fun_induction TickIndex.walk index tick visited with
  | case1 visited =>
    cases h
    obtain ⟨link, hlink⟩ := exists_link hentry
    refine .top hentry fun entry hother => ?_
    by_contra hhigher
    have hfewer := TickMap.countFrom_lt hlink (Int.not_le.mp hhigher)
    have hpos := countFrom_pos hother
    omega
  | case2 => cases h
  | case3 => cases h
  | case4 => cases h
  | case5 visited link successor hsuccessor _ hlink hrises ih =>
    have hright := contains_of_get? hsuccessor
    have hrest := walk_le hright h
    have hfewer := TickMap.countFrom_lt hlink (Int.not_le.mp hrises)
    refine .step hlink ?_ hsuccessor rfl (ih hright h (by omega))
    exact adjacent_of_countFrom hlink hright (Int.not_le.mp hrises) (by omega)
  | case6 => cases h

/-- An index in which every link leads to the entry next to it. -/
structure Chained (index : TickIndex) : Prop where
  low : index.contains minTick = true
  high : index.contains maxTick = true
  inside : ∀ tick, index.contains tick = true → minTick ≤ tick ∧ tick ≤ maxTick
  next : ∀ tick link, index.get? tick = some link → tick ≠ maxTick →
    Adjacent index tick link.next
  previous : ∀ tick link, index.get? tick = some link → tick ≠ minTick →
    Adjacent index link.previous tick
  lowEnd : ∀ link, index.get? minTick = some link → link.previous = minTick
  highEnd : ∀ link, index.get? maxTick = some link → link.next = maxTick

theorem Chain.le_top (h : Chain index tick) (hentry : index.contains entry = true) :
    entry ≤ maxTick := by
  induction h with
  | top _ hhighest => exact hhighest entry hentry
  | step _ _ _ _ _ ih => exact ih

theorem Chain.contains_top (h : Chain index tick) : index.contains maxTick = true := by
  induction h with
  | top hentry => exact hentry
  | step _ _ _ _ _ ih => exact ih

theorem Chain.next (h : Chain index tick) (hlink : index.get? entry = some link)
    (hfrom : tick ≤ entry) (hbelow : entry ≠ maxTick) : Adjacent index entry link.next := by
  induction h with
  | top _ hhighest =>
    have hentry := hhighest entry (contains_of_get? hlink)
    omega
  | step hfirst hnext _ _ _ ih =>
    rcases Int.lt_or_eq_of_le hfrom with hlater | rfl
    · exact ih (hnext.none_between entry (contains_of_get? hlink) hlater)
    · rw [hlink] at hfirst
      obtain rfl := Option.some.inj hfirst
      exact hnext

theorem Chain.previous (h : Chain index tick) (hlink : index.get? entry = some link)
    (hfrom : tick < entry) : Adjacent index link.previous entry := by
  induction h with
  | top _ hhighest =>
    have hentry := hhighest entry (contains_of_get? hlink)
    omega
  | step hfirst hnext hsuccessor hback _ ih =>
    have hlater := hnext.none_between entry (contains_of_get? hlink) hfrom
    rcases Int.lt_or_eq_of_le hlater with hlater | rfl
    · exact ih hlater
    · rw [hlink] at hsuccessor
      obtain rfl := Option.some.inj hsuccessor
      rw [hback]
      exact hnext

theorem checkEnds_eq_ok (h : index.checkEnds = .ok ()) :
    ∃ lowest highest, index.get? minTick = some lowest ∧ lowest.previous = minTick ∧
      index.get? maxTick = some highest ∧ highest.next = maxTick := by
  unfold TickIndex.checkEnds at h
  obtain ⟨lowest, hlowest, h⟩ := bind_eq_ok.mp h
  obtain ⟨highest, hhighest, h⟩ := bind_eq_ok.mp h
  rw [linkAt_eq_ok] at hlowest hhighest
  by_cases hlow : lowest.previous = minTick
  · by_cases hhigh : highest.next = maxTick
    · exact ⟨lowest, highest, hlowest, hlow, hhighest, hhigh⟩
    · simp only [hlow, hhigh, ne_eq, not_true_eq_false, not_false_eq_true, if_true, if_false] at h
      cases h
  · simp only [hlow, ne_eq, not_false_eq_true, if_true] at h
    cases h

/-- An index that is accepted is a chain of all its entries. -/
theorem chained_of_validate (h : index.validate = .ok ()) : Chained index := by
  obtain ⟨⟨⟩, hends, h⟩ := bind_eq_ok.mp h
  obtain ⟨visited, hwalk, h⟩ := bind_eq_ok.mp h
  obtain ⟨lowest, highest, hlowest, hlowEnd, hhighest, hhighEnd⟩ := checkEnds_eq_ok hends
  have hlow := contains_of_get? hlowest
  have hcounted := walk_le hlow hwalk
  have hsize : index.links.countFrom minTick ≤ index.size := List.countP_le_length
  have hvisited : visited = index.size := by
    by_contra hdiffers
    rw [if_pos hdiffers] at h
    cases h
  have hchain := chain_of_walk hlow hwalk (by omega)
  have hnone_below : ∀ tick, index.contains tick = true → minTick ≤ tick := by
    intro tick hentry
    have hall : index.links.countFrom minTick = index.links.entries.length :=
      Nat.le_antisymm hsize (by change index.size ≤ _; omega)
    obtain ⟨link, hlink⟩ := exists_link hentry
    have hcount := List.countP_eq_length.mp hall (tick, link) (mem_of_find? hlink)
    exact of_decide_eq_true hcount
  refine ⟨hlow, hchain.contains_top, ?_, ?_, ?_, ?_, ?_⟩
  · intro tick hentry
    exact ⟨hnone_below tick hentry, hchain.le_top hentry⟩
  · intro tick link hlink hbelow
    exact hchain.next hlink (hnone_below tick (contains_of_get? hlink)) hbelow
  · intro tick link hlink hnotLow
    have hfrom := hnone_below tick (contains_of_get? hlink)
    exact hchain.previous hlink (by omega)
  · intro link hlink
    rw [hlowest] at hlink
    obtain rfl := Option.some.inj hlink
    exact hlowEnd
  · intro link hlink
    rw [hhighest] at hlink
    obtain rfl := Option.some.inj hlink
    exact hhighEnd

/-- One tick after the other in the direction of travel. -/
def AdjacentToward (index : TickIndex) : Direction → Int → Int → Prop
  | .rising, a, b => Adjacent index a b
  | .falling, a, b => Adjacent index b a

section Advancing

variable {direction : Direction}

/-- The tick beyond which no price lies in a direction. -/
def outermost : Direction → Int
  | .rising => maxTick
  | .falling => minTick

theorem beyond_of_adjacent (h : AdjacentToward index direction a b) :
    Beyond direction a b := by
  cases direction with
  | rising => exact h.lt
  | falling => exact h.lt

theorem contains_of_adjacent (h : AdjacentToward index direction a b) :
    index.contains b = true := by
  cases direction with
  | rising => exact h.right
  | falling => exact h.left

theorem not_beyond_self : ¬ Beyond direction tick tick := by
  cases direction with
  | rising => exact Int.lt_irrefl tick
  | falling => exact Int.lt_irrefl tick

theorem advance_of_link (hlink : index.get? tick = some link) :
    index.advance tick direction =
      if Beyond direction tick (link.toward direction) then .ok (link.toward direction)
      else .error (.indexExhausted tick direction) := by
  unfold TickIndex.advance
  rw [linkAt_eq_ok.mpr hlink]
  rfl

/-- Inside a chain a link leads to the neighbours, and at an outermost tick to the tick itself. -/
theorem toward_of_chained (hchained : Chained index) (hlink : index.get? tick = some link) :
    (tick ≠ outermost direction → AdjacentToward index direction tick (link.toward direction)) ∧
      (tick = outermost direction → link.toward direction = tick) := by
  cases direction with
  | rising =>
    refine ⟨hchained.next tick link hlink, fun hend => ?_⟩
    subst hend
    exact hchained.highEnd link hlink
  | falling =>
    refine ⟨hchained.previous tick link hlink, fun hend => ?_⟩
    subst hend
    exact hchained.lowEnd link hlink

/-- The tick to which a run goes on is the next entry in its direction. -/
theorem adjacent_of_advance (hchained : Chained index) (h : index.advance a direction = .ok b) :
    AdjacentToward index direction a b := by
  obtain ⟨link, hlink, -⟩ := bind_eq_ok.mp h
  rw [linkAt_eq_ok] at hlink
  rw [advance_of_link hlink] at h
  split at h
  · rename_i hbeyond
    cases h
    refine (toward_of_chained hchained hlink).1 fun houter => ?_
    rw [(toward_of_chained hchained hlink).2 houter] at hbeyond
    exact not_beyond_self hbeyond
  · cases h

end Advancing

theorem adjacent_of_previous (hchained : Chained index) (hnotLow : b ≠ minTick)
    (h : index.previous b = .ok a) : Adjacent index a b := by
  obtain ⟨link, hlink, h⟩ := bind_eq_ok.mp h
  cases h
  exact hchained.previous b link (linkAt_eq_ok.mp hlink) hnotLow

theorem adjacent_of_next (hchained : Chained index) (hnotHigh : a ≠ maxTick)
    (h : index.next a = .ok b) : Adjacent index a b := by
  obtain ⟨link, hlink, h⟩ := bind_eq_ok.mp h
  cases h
  exact hchained.next a link (linkAt_eq_ok.mp hlink) hnotHigh

theorem contains_of_next (hchained : Chained index) (h : index.next a = .ok b) :
    index.contains b = true := by
  by_cases hend : a = maxTick
  · obtain ⟨link, hlink, h⟩ := bind_eq_ok.mp h
    cases h
    subst hend
    rw [hchained.highEnd link (linkAt_eq_ok.mp hlink)]
    exact hchained.high
  · exact (adjacent_of_next hchained hend h).right

theorem contains_of_previous (hchained : Chained index) (h : index.previous b = .ok a) :
    index.contains a = true := by
  by_cases hend : b = minTick
  · obtain ⟨link, hlink, h⟩ := bind_eq_ok.mp h
    cases h
    subst hend
    rw [hchained.lowEnd link (linkAt_eq_ok.mp hlink)]
    exact hchained.low
  · exact (adjacent_of_previous hchained hend h).left

theorem next_of_contains (h : index.contains a = true) : ∃ b, index.next a = .ok b := by
  obtain ⟨link, hlink⟩ := exists_link h
  exact ⟨link.next, bind_eq_ok.mpr ⟨link, linkAt_eq_ok.mpr hlink, rfl⟩⟩

theorem previous_of_contains (h : index.contains a = true) :
    ∃ b, index.previous a = .ok b := by
  obtain ⟨link, hlink⟩ := exists_link h
  exact ⟨link.previous, bind_eq_ok.mpr ⟨link, linkAt_eq_ok.mpr hlink, rfl⟩⟩

theorem contains_iff_mem_ticks {α : Type} {m : TickMap α} {tick : Int} :
    m.contains tick = true ↔ tick ∈ m.ticks := by
  constructor
  · intro h
    obtain ⟨a, ha⟩ := Option.isSome_iff_exists.mp h
    exact List.mem_map.mpr ⟨(tick, a), mem_of_find? ha, rfl⟩
  · intro h
    obtain ⟨⟨key, a⟩, hmem, hkey⟩ := List.mem_map.mp h
    change (m.get? tick).isSome = true
    rw [← hkey]
    exact Option.isSome_of_eq_some (find?_of_mem m.rising hmem)

theorem contains_insert_iff {α : Type} {m : TickMap α} {tick key : Int} {a : α} :
    (m.insert tick a).contains key = true ↔ m.contains key = true ∨ key = tick := by
  change ((m.insert tick a).get? key).isSome = true ↔ _
  rw [TickMap.get?_insert]
  by_cases hsame : tick = key
  · simp only [hsame, if_true, Option.isSome_some, or_true]
  · have hdiffers : ¬ key = tick := fun h => hsame h.symm
    simp only [hsame, hdiffers, if_false, or_false]
    rfl

theorem contains_empty : TickIndex.empty.contains tick = true ↔ tick = minTick ∨ tick = maxTick := by
  change (find? tick [(minTick, _), (maxTick, _)]).isSome = true ↔ _
  simp only [find?, eq_comm (a := tick)]
  by_cases hlow : minTick = tick
  · simp only [hlow, if_true, Option.isSome_some, true_or]
  · by_cases hhigh : maxTick = tick
    · simp only [hhigh, if_true, ite_self, Option.isSome_some, or_true]
    · simp only [hlow, hhigh, if_false, Option.isSome_none, Bool.false_eq_true, or_self]

/-- In an ascending list the ticks up to a bound come first. -/
theorem takeWhile_eq_filter {ticks : List Int} (bound : Int) (h : ticks.Pairwise (· < ·)) :
    ticks.takeWhile (· ≤ bound) = ticks.filter (· ≤ bound) := by
  induction ticks with
  | nil => rfl
  | cons tick rest ih =>
    obtain ⟨habove, hrest⟩ := List.pairwise_cons.mp h
    by_cases hle : tick ≤ bound
    · simp only [List.takeWhile_cons, List.filter_cons, hle, decide_true, if_true, ih hrest]
    · simp only [List.takeWhile_cons, List.filter_cons, hle, decide_false, Bool.false_eq_true,
        if_false]
      refine (List.filter_eq_nil_iff.mpr fun other hother => ?_).symm
      have hhigher := habove other hother
      simp only [decide_eq_true_eq]
      omega

/-- The nearest entry is the greatest one at or below a tick. -/
theorem nearest_eq_ok (h : index.nearest tick = .ok entry) :
    index.contains entry = true ∧ entry ≤ tick ∧
      ∀ other, index.contains other = true → other ≤ tick → other ≤ entry := by
  have hsorted : index.links.ticks.Pairwise (· < ·) := List.pairwise_map.mpr index.links.rising
  unfold TickIndex.nearest at h
  split at h
  · split at h
    · rename_i found hfound
      cases h
      unfold TickMap.floor? at hfound
      rw [takeWhile_eq_filter tick hsorted] at hfound
      obtain ⟨before, hbefore⟩ := List.getLast?_eq_some_iff.mp hfound
      have hmem := List.mem_filter.mp (List.mem_of_getLast? hfound)
      refine ⟨contains_iff_mem_ticks.mpr hmem.1, of_decide_eq_true hmem.2, ?_⟩
      intro other hother hle
      have hkept : other ∈ index.links.ticks.filter (· ≤ tick) :=
        List.mem_filter.mpr ⟨contains_iff_mem_ticks.mp hother, decide_eq_true hle⟩
      have hascending := hsorted.filter (· ≤ tick)
      rw [hbefore] at hkept hascending
      rcases List.mem_append.mp hkept with hearlier | hlast
      · have hlt := (List.pairwise_append.mp hascending).2.2 other hearlier entry
          (List.mem_singleton_self entry)
        exact Int.le_of_lt hlt
      · exact Int.le_of_eq (List.mem_singleton.mp hlast)
    · cases h
  · cases h

/-- Adding a tick makes an entry of it and of no other tick. -/
theorem contains_insert {grown : TickIndex} {added : Bool}
    (h : index.insert tick = .ok (grown, added)) :
    grown.contains entry = true ↔ index.contains entry = true ∨ entry = tick := by
  unfold TickIndex.insert at h
  split at h
  · cases h
  · split at h
    · rename_i hpresent
      cases h
      constructor
      · exact Or.inl
      · intro hgiven
        rcases hgiven with hentry | rfl
        · exact hentry
        · exact hpresent
    · obtain ⟨previous, -, h⟩ := bind_eq_ok.mp h
      obtain ⟨next, -, h⟩ := bind_eq_ok.mp h
      cases h
      change ((index.splice previous tick next).links.get? entry).isSome = true ↔ _
      unfold TickIndex.splice
      rw [TickMap.get?_modify, TickMap.get?_modify, TickMap.get?_insert]
      change _ ↔ (index.links.get? entry).isSome = true ∨ _
      by_cases hsame : tick = entry
      · subst hsame
        simp only [if_true, or_true, iff_true]
        split <;> split <;> rfl
      · rw [if_neg hsame]
        have hdiffers : ¬ entry = tick := fun h => hsame h.symm
        simp only [hdiffers, or_false]
        split <;> split <;> simp only [Option.isSome_map]

end ReinvestingPool.Proofs.IndexChains
