import ReinvestingPool.Proofs.IndexInsertions

/-!
Indexes that arise from ticks, whether they are added one by one or linked all at once. The links of
an index that is one chain are determined by its entries, so the order in which ticks are added
leaves no trace, and the walk over an index lists its entries from the lowest to the highest.
-/

namespace ReinvestingPool.Proofs.BuiltIndexes

open Failures Directions TickMaps TickPrices TickIndexes IndexChains IndexInsertions

variable {α : Type} {index other grown : TickIndex} {tick entry previous a b c : Int}
variable {link : TickLink} {ticks order : List Int} {added : Bool}

section Determined

theorem right_unique (hab : Adjacent index a b) (hac : Adjacent index a c) : b = c := by
  have hfirst := hab.none_between c hac.right hac.lt
  have hsecond := hac.none_between b hab.right hab.lt
  omega

theorem adjacent_congr (h : Adjacent index a b)
    (hsame : ∀ entry, index.contains entry = true ↔ other.contains entry = true) :
    Adjacent other a b :=
  ⟨(hsame a).mp h.left, (hsame b).mp h.right, h.lt,
    fun entry hentry hbeyond => h.none_between entry ((hsame entry).mpr hentry) hbeyond⟩

/-- Two chains of the same entries link them in the same way. -/
theorem link_unique {first second : TickLink} (hindex : Chained index) (hother : Chained other)
    (hsame : ∀ entry, index.contains entry = true ↔ other.contains entry = true)
    (hfirst : index.get? tick = some first) (hsecond : other.get? tick = some second) :
    first = second := by
  have hnext : first.next = second.next := by
    by_cases hhigh : tick = maxTick
    · subst hhigh
      rw [hindex.highEnd first hfirst, hother.highEnd second hsecond]
    · have hadjacent := adjacent_congr (hindex.next tick first hfirst hhigh) hsame
      exact right_unique hadjacent (hother.next tick second hsecond hhigh)
  have hprevious : first.previous = second.previous := by
    by_cases hlow : tick = minTick
    · subst hlow
      rw [hindex.lowEnd first hfirst, hother.lowEnd second hsecond]
    · have hadjacent := adjacent_congr (hindex.previous tick first hfirst hlow) hsame
      exact left_unique hadjacent (hother.previous tick second hsecond hlow)
  cases first
  cases second
  exact congr (congrArg TickLink.mk hprevious) hnext

/-- A chain is determined by its entries. -/
theorem chained_ext (hindex : Chained index) (hother : Chained other)
    (hsame : ∀ entry, index.contains entry = true ↔ other.contains entry = true) :
    index = other := by
  obtain ⟨links⟩ := index
  obtain ⟨others⟩ := other
  congr 1
  refine TickMap.ext fun tick => ?_
  cases hfirst : links.get? tick with
  | none =>
    cases hsecond : others.get? tick with
    | none => rfl
    | some second =>
      change (TickIndex.mk others).get? tick = some second at hsecond
      obtain ⟨first, hfound⟩ := exists_link ((hsame tick).mpr (contains_of_get? hsecond))
      exact absurd (hfound.symm.trans hfirst) (by simp)
  | some first =>
    change (TickIndex.mk links).get? tick = some first at hfirst
    obtain ⟨second, hsecond⟩ := exists_link ((hsame tick).mp (contains_of_get? hfirst))
    rw [link_unique hindex hother hsame hfirst hsecond]
    exact hsecond.symm

end Determined

section Walks

theorem ticksFrom_of_link (h : index.get? tick = some link) :
    index.ticksFrom tick = tick :: if tick < link.next then index.ticksFrom link.next else [] := by
  rw [TickIndex.ticksFrom]
  split
  · rename_i found hfound
    change index.links.get? tick = some link at h
    obtain rfl := Option.some.inj (hfound.symm.trans h)
    rfl
  · rename_i hnone
    exact absurd (h.symm.trans hnone) (by simp)

/-- The walk up a chain meets the entries from where it sets out, in ascending order. -/
theorem ticksFrom_of_chained (hchained : Chained index) (hentry : index.contains tick = true) :
    (index.ticksFrom tick).Pairwise (· < ·) ∧
      ∀ met, met ∈ index.ticksFrom tick ↔ index.contains met = true ∧ tick ≤ met := by
  induction tick using TickIndex.ticksFrom.induct index with
  | case1 tick ih =>
    obtain ⟨link, hlink⟩ := exists_link hentry
    rw [ticksFrom_of_link hlink]
    by_cases hend : tick = maxTick
    · subst hend
      have hlast := hchained.highEnd link hlink
      rw [if_neg (by omega)]
      refine ⟨List.pairwise_singleton _ _, fun met => List.mem_singleton.trans ?_⟩
      constructor
      · rintro rfl
        exact ⟨hentry, Int.le_refl _⟩
      · rintro ⟨hmet, hle⟩
        exact Int.le_antisymm (hchained.inside met hmet).2 hle
    · have hnext := hchained.next tick link hlink hend
      obtain ⟨hrising, hmeets⟩ := ih link hlink hnext.lt hnext.right
      rw [if_pos hnext.lt]
      refine ⟨List.pairwise_cons.mpr ⟨fun met hmet => ?_, hrising⟩, fun met => ?_⟩
      · exact Int.lt_of_lt_of_le hnext.lt ((hmeets met).mp hmet).2
      · rw [List.mem_cons, hmeets]
        constructor
        · rintro (rfl | ⟨hmet, hle⟩)
          · exact ⟨hentry, Int.le_refl _⟩
          · exact ⟨hmet, Int.le_trans (Int.le_of_lt hnext.lt) hle⟩
        · rintro ⟨hmet, hle⟩
          rcases Int.lt_or_eq_of_le hle with hbeyond | hsame
          · exact Or.inr ⟨hmet, hnext.none_between met hmet hbeyond⟩
          · exact Or.inl hsame.symm

/-- The ticks of a chain are its entries in ascending order. -/
theorem ticks_of_chained (hchained : Chained index) :
    index.ticks.Pairwise (· < ·) ∧ ∀ met, met ∈ index.ticks ↔ index.contains met = true := by
  unfold TickIndex.ticks
  rw [if_pos hchained.low]
  obtain ⟨hrising, hmeets⟩ := ticksFrom_of_chained hchained hchained.low
  refine ⟨hrising, fun met => (hmeets met).trans ⟨fun h => h.1, fun hmet => ⟨hmet, ?_⟩⟩⟩
  exact (hchained.inside met hmet).1

end Walks

section Linking

/-- Two neighbours in a list of ticks, with no tick of the list between them. -/
structure Successive (ticks : List Int) (a b : Int) : Prop where
  left : a ∈ ticks
  right : b ∈ ticks
  lt : a < b
  none_between : ∀ entry ∈ ticks, a < entry → b ≤ entry

/-- A lower tick in front changes no neighbours. -/
theorem Successive.cons (h : Successive ticks a b) (hlower : ∀ entry ∈ ticks, tick < entry) :
    Successive (tick :: ticks) a b := by
  refine ⟨List.mem_cons_of_mem _ h.left, List.mem_cons_of_mem _ h.right, h.lt, ?_⟩
  intro entry hentry hbeyond
  rcases List.mem_cons.mp hentry with rfl | hentry
  · have hfirst := hlower a h.left
    omega
  · exact h.none_between entry hentry hbeyond

theorem successive_head (hrising : (a :: b :: ticks).Pairwise (· < ·)) :
    Successive (a :: b :: ticks) a b := by
  obtain ⟨habove, hrest⟩ := List.pairwise_cons.mp hrising
  refine ⟨List.mem_cons_self, List.mem_cons_of_mem _ List.mem_cons_self,
    habove b List.mem_cons_self, fun entry hentry hbeyond => ?_⟩
  rcases List.mem_cons.mp hentry with rfl | hentry
  · exact absurd hbeyond (Int.lt_irrefl _)
  · rcases List.mem_cons.mp hentry with rfl | hentry
    · exact Int.le_refl _
    · exact Int.le_of_lt ((List.pairwise_cons.mp hrest).1 entry hentry)

theorem linkAll_ticks (previous : Int) (ticks : List Int) :
    (linkAll previous ticks).map (·.1) = ticks := by
  fun_induction linkAll previous ticks with
  | case1 => rfl
  | case2 => rfl
  | case3 previous tick next rest ih => exact congrArg (tick :: ·) ih

theorem linkAll_rising (previous : Int) (hrising : ticks.Pairwise (· < ·)) :
    Rising (linkAll previous ticks) := by
  rw [← linkAll_ticks previous ticks] at hrising
  exact List.pairwise_map.mp hrising

theorem mem_of_linkAll (h : find? tick (linkAll previous ticks) = some link) : tick ∈ ticks := by
  rw [← linkAll_ticks previous ticks]
  exact List.mem_map_of_mem (mem_of_find? h)

/-- Each tick is linked to the one after it, and the last one to itself. -/
theorem next_of_linkAll (hrising : ticks.Pairwise (· < ·))
    (h : find? tick (linkAll previous ticks) = some link) :
    Successive ticks tick link.next ∨ link.next = tick ∧ ∀ entry ∈ ticks, entry ≤ tick := by
  fun_induction linkAll previous ticks with
  | case1 => cases h
  | case2 previous last =>
    simp only [find?] at h
    split at h
    · rename_i hsame
      cases h
      refine Or.inr ⟨hsame, fun entry hentry => ?_⟩
      exact Int.le_of_eq ((List.mem_singleton.mp hentry).trans hsame)
    · cases h
  | case3 previous first next rest ih =>
    obtain ⟨habove, hrest⟩ := List.pairwise_cons.mp hrising
    rw [find?] at h
    split at h
    · rename_i hsame
      cases h
      subst hsame
      exact Or.inl (successive_head hrising)
    · rcases ih hrest h with hnext | ⟨hlast, hall⟩
      · exact Or.inl (hnext.cons habove)
      · refine Or.inr ⟨hlast, fun entry hentry => ?_⟩
        rcases List.mem_cons.mp hentry with rfl | hentry
        · exact Int.le_of_lt (habove tick (mem_of_linkAll h))
        · exact hall entry hentry

/-- Each tick is linked to the one before it, and the first one to the given tick. -/
theorem previous_of_linkAll (hrising : ticks.Pairwise (· < ·))
    (h : find? tick (linkAll previous ticks) = some link) :
    Successive ticks link.previous tick ∨
      link.previous = previous ∧ ∀ entry ∈ ticks, tick ≤ entry := by
  fun_induction linkAll previous ticks with
  | case1 => cases h
  | case2 previous last =>
    simp only [find?] at h
    split at h
    · rename_i hsame
      cases h
      refine Or.inr ⟨rfl, fun entry hentry => ?_⟩
      exact Int.le_of_eq ((List.mem_singleton.mp hentry).trans hsame).symm
    · cases h
  | case3 previous first next rest ih =>
    obtain ⟨habove, hrest⟩ := List.pairwise_cons.mp hrising
    rw [find?] at h
    split at h
    · rename_i hsame
      cases h
      subst hsame
      refine Or.inr ⟨rfl, fun entry hentry => ?_⟩
      rcases List.mem_cons.mp hentry with rfl | hentry
      · exact Int.le_refl _
      · exact Int.le_of_lt (habove entry hentry)
    · have hmember := mem_of_linkAll h
      rcases ih hrest h with hprevious | ⟨hfirst, hall⟩
      · exact Or.inl (hprevious.cons habove)
      · left
        rw [hfirst]
        refine ⟨List.mem_cons_self, List.mem_cons_of_mem _ hmember, habove tick hmember, ?_⟩
        intro entry hentry hbeyond
        rcases List.mem_cons.mp hentry with rfl | hentry
        · exact absurd hbeyond (Int.lt_irrefl _)
        · exact hall entry hentry

end Linking

section Maps

theorem contains_foldl_insert {m : TickMap α} {entries : List (Int × α)} :
    (entries.foldl (fun m e => m.insert e.1 e.2) m).contains tick = true ↔
      m.contains tick = true ∨ tick ∈ entries.map (·.1) := by
  induction entries generalizing m with
  | nil => simp
  | cons head rest ih =>
    rw [List.foldl_cons, ih, contains_insert_iff, List.map_cons, List.mem_cons, or_assoc]

theorem contains_ofList {entries : List (Int × α)} :
    (TickMap.ofList entries).contains tick = true ↔ tick ∈ entries.map (·.1) := by
  unfold TickMap.ofList
  rw [contains_foldl_insert]
  exact or_iff_right nofun

theorem get?_foldl_insert {m : TickMap α} {entries : List (Int × α)} (hrising : Rising entries) :
    (entries.foldl (fun m e => m.insert e.1 e.2) m).get? tick =
      (find? tick entries).or (m.get? tick) := by
  induction entries generalizing m with
  | nil => rfl
  | cons head rest ih =>
    obtain ⟨key, a⟩ := head
    rw [List.foldl_cons, ih (List.pairwise_cons.mp hrising).2, TickMap.get?_insert, find?]
    by_cases hsame : key = tick
    · subst hsame
      rw [if_pos rfl, if_pos rfl, find?_eq_none_of_lt (above_of_rising hrising)]
      rfl
    · rw [if_neg hsame, if_neg hsame]

/-- A list in ascending order is the list of the entries of its map. -/
theorem get?_ofList {entries : List (Int × α)} (hrising : Rising entries) :
    (TickMap.ofList entries).get? tick = find? tick entries := by
  unfold TickMap.ofList
  rw [get?_foldl_insert hrising]
  exact Option.or_none

end Maps

section Ticks

/-- The ticks that are linked to make an index. -/
def present (ticks : List Int) : List Int :=
  (TickMap.ofList ((minTick :: maxTick :: ticks).map (·, ()))).ticks

theorem present_rising (ticks : List Int) : (present ticks).Pairwise (· < ·) :=
  List.pairwise_map.mpr (TickMap.rising _)

theorem mem_present : tick ∈ present ticks ↔ tick = minTick ∨ tick = maxTick ∨ tick ∈ ticks := by
  unfold present
  rw [← contains_iff_mem_ticks, contains_ofList, List.map_map]
  change tick ∈ (minTick :: maxTick :: ticks).map id ↔ _
  rw [List.map_id, List.mem_cons, List.mem_cons]

/-- The given ticks and the two ends, each linked to the next one on either side. -/
def linked (ticks : List Int) : TickIndex := ⟨TickMap.ofList (linkAll minTick (present ticks))⟩

theorem ofTicks_eq_ok :
    TickIndex.ofTicks ticks = .ok index ↔
      (∀ tick ∈ ticks, minTick ≤ tick ∧ tick ≤ maxTick) ∧ index = linked ticks := by
  unfold TickIndex.ofTicks
  split
  · rename_i hinside
    rw [List.all_eq_true] at hinside
    rw [Except.ok.injEq]
    constructor
    · intro h
      exact ⟨fun tick htick => of_decide_eq_true (hinside tick htick), h.symm⟩
    · intro h
      exact h.2.symm
  · rename_i houtside
    refine iff_of_false (fun h => by cases h) fun h => houtside ?_
    exact List.all_eq_true.mpr fun tick htick => decide_eq_true (h.1 tick htick)

theorem get?_linked :
    (linked ticks).get? tick = find? tick (linkAll minTick (present ticks)) :=
  get?_ofList (linkAll_rising minTick (present_rising ticks))

theorem contains_linked : (linked ticks).contains tick = true ↔ tick ∈ present ticks :=
  contains_ofList.trans (by rw [linkAll_ticks])

theorem adjacent_linked (h : Successive (present ticks) a b) : Adjacent (linked ticks) a b :=
  ⟨contains_linked.mpr h.left, contains_linked.mpr h.right, h.lt,
    fun entry hentry => h.none_between entry (contains_linked.mp hentry)⟩

theorem present_inside (hbounds : ∀ tick ∈ ticks, minTick ≤ tick ∧ tick ≤ maxTick)
    (h : tick ∈ present ticks) : minTick ≤ tick ∧ tick ≤ maxTick := by
  rcases mem_present.mp h with rfl | rfl | hgiven
  · decide
  · decide
  · exact hbounds tick hgiven

theorem chained_linked (hbounds : ∀ tick ∈ ticks, minTick ≤ tick ∧ tick ≤ maxTick) :
    Chained (linked ticks) := by
  have hrising := present_rising ticks
  have hlow : minTick ∈ present ticks := mem_present.mpr (Or.inl rfl)
  have hhigh : maxTick ∈ present ticks := mem_present.mpr (Or.inr (Or.inl rfl))
  refine ⟨contains_linked.mpr hlow, contains_linked.mpr hhigh, ?_, ?_, ?_, ?_, ?_⟩
  · intro tick htick
    exact present_inside hbounds (contains_linked.mp htick)
  · intro tick link hlink hbelow
    rw [get?_linked] at hlink
    rcases next_of_linkAll hrising hlink with hnext | ⟨-, hall⟩
    · exact adjacent_linked hnext
    · have htick := present_inside hbounds (mem_of_linkAll hlink)
      exact absurd (Int.le_antisymm htick.2 (hall maxTick hhigh)) hbelow
  · intro tick link hlink habove
    rw [get?_linked] at hlink
    rcases previous_of_linkAll hrising hlink with hprevious | ⟨-, hall⟩
    · exact adjacent_linked hprevious
    · have htick := present_inside hbounds (mem_of_linkAll hlink)
      exact absurd (Int.le_antisymm (hall minTick hlow) htick.1) habove
  · intro link hlink
    rw [get?_linked] at hlink
    rcases previous_of_linkAll hrising hlink with hprevious | ⟨hsame, -⟩
    · exact absurd hprevious.lt (Int.not_lt.mpr (present_inside hbounds hprevious.left).1)
    · exact hsame
  · intro link hlink
    rw [get?_linked] at hlink
    rcases next_of_linkAll hrising hlink with hnext | ⟨hsame, -⟩
    · exact absurd hnext.lt (Int.not_lt.mpr (present_inside hbounds hnext.right).2)
    · exact hsame

/-- The index of a list of ticks is a chain of these ticks and the two ends. -/
theorem chained_of_ofTicks (h : TickIndex.ofTicks ticks = .ok index) :
    Chained index ∧ ∀ entry, index.contains entry = true ↔
      entry = minTick ∨ entry = maxTick ∨ entry ∈ ticks := by
  obtain ⟨hbounds, rfl⟩ := ofTicks_eq_ok.mp h
  exact ⟨chained_linked hbounds, fun entry => contains_linked.trans mem_present⟩

end Ticks

section Attempts

/-- The index after an attempt to add a tick. One that is refused leaves it as it was. -/
def attempt (index : TickIndex) (tick : Int) : TickIndex :=
  match index.insert tick with
  | .ok (grown, _) => grown
  | .error _ => index

theorem exists_nearest {entry : Int} (hentry : index.contains entry = true) (hle : entry ≤ tick)
    (hinside : minTick ≤ tick ∧ tick ≤ maxTick) : ∃ nearest, index.nearest tick = .ok nearest := by
  have hsorted : index.links.ticks.Pairwise (· < ·) := List.pairwise_map.mpr index.links.rising
  have hfloor : (index.links.floor? tick).isSome = true := by
    unfold TickMap.floor?
    rw [takeWhile_eq_filter tick hsorted, List.getLast?_isSome]
    refine List.ne_nil_of_mem (a := entry) (List.mem_filter.mpr ⟨?_, decide_eq_true hle⟩)
    exact contains_iff_mem_ticks.mp hentry
  obtain ⟨nearest, hnearest⟩ := Option.isSome_iff_exists.mp hfloor
  refine ⟨nearest, ?_⟩
  unfold TickIndex.nearest
  rw [if_pos hinside, hnearest]

/-- A tick that is absent and strictly between the two ends is added. -/
theorem insert_absent (hchained : Chained index) (hinside : minTick < tick ∧ tick < maxTick)
    (habsent : index.contains tick = false) : ∃ grown, index.insert tick = .ok (grown, true) := by
  obtain ⟨hfrom, hto⟩ := hinside
  obtain ⟨nearest, hnearest⟩ :=
    exists_nearest hchained.low (Int.le_of_lt hfrom) ⟨Int.le_of_lt hfrom, Int.le_of_lt hto⟩
  obtain ⟨next, hnext⟩ := next_of_contains (nearest_eq_ok hnearest).1
  refine ⟨index.splice nearest tick next, ?_⟩
  unfold TickIndex.insert
  rw [if_neg (by omega), habsent, if_neg Bool.false_ne_true, hnearest]
  change (index.next nearest >>= fun next => .ok (index.splice nearest tick next, true)) = _
  rw [hnext]
  rfl

/-- Any other tick leaves the index as it is. -/
theorem insert_other (h : ¬ ((minTick < tick ∧ tick < maxTick) ∧ index.contains tick = false)) :
    index.insert tick = .ok (index, false) ∨ index.insert tick = .error .tickOutOfBounds := by
  unfold TickIndex.insert
  by_cases houtside : tick ≤ minTick ∨ maxTick ≤ tick
  · rw [if_pos houtside]
    exact Or.inr rfl
  · have hpresent : index.contains tick = true := by
      by_contra habsent
      exact h ⟨by omega, Bool.eq_false_iff.mpr habsent⟩
    rw [if_neg houtside, if_pos hpresent]
    exact Or.inl rfl

theorem attempt_of_insert (h : index.insert tick = .ok (grown, added)) :
    attempt index tick = grown := by
  unfold attempt
  rw [h]

theorem attempt_other (h : ¬ ((minTick < tick ∧ tick < maxTick) ∧ index.contains tick = false)) :
    attempt index tick = index := by
  unfold attempt
  rcases insert_other h with hkept | hrefused
  · rw [hkept]
  · rw [hrefused]

theorem chained_of_attempt (hchained : Chained index) : Chained (attempt index tick) := by
  unfold attempt
  split
  · rename_i hinsert
    exact chained_of_insert hchained hinsert
  · exact hchained

theorem contains_attempt (hchained : Chained index) (hinside : minTick < tick ∧ tick < maxTick) :
    (attempt index tick).contains entry = true ↔ index.contains entry = true ∨ entry = tick := by
  by_cases habsent : index.contains tick = false
  · obtain ⟨grown, hgrown⟩ := insert_absent hchained hinside habsent
    rw [attempt_of_insert hgrown]
    exact contains_insert hgrown
  · rw [Bool.not_eq_false] at habsent
    rw [attempt_other fun h => by rw [habsent] at h; exact Bool.noConfusion h.2]
    refine ⟨Or.inl, fun h => ?_⟩
    rcases h with hentry | rfl
    · exact hentry
    · exact habsent

/-- Ticks strictly between the two ends, added one by one to a chain, become its entries. -/
theorem foldl_attempt (hchained : Chained index)
    (hinside : ∀ tick ∈ ticks, minTick < tick ∧ tick < maxTick) :
    Chained (ticks.foldl attempt index) ∧ ∀ entry,
      (ticks.foldl attempt index).contains entry = true ↔
        index.contains entry = true ∨ entry ∈ ticks := by
  induction ticks generalizing index with
  | nil => exact ⟨hchained, fun entry => (or_iff_left (List.not_mem_nil)).symm⟩
  | cons tick rest ih =>
    obtain ⟨hgrown, hentries⟩ := ih (chained_of_attempt hchained)
      fun other hother => hinside other (List.mem_cons_of_mem _ hother)
    refine ⟨hgrown, fun entry => ?_⟩
    rw [List.foldl_cons, hentries,
      contains_attempt hchained (hinside tick List.mem_cons_self), List.mem_cons, or_assoc]

/-- Indexes made from ticks all at once or one by one. -/
inductive Built : TickIndex → Prop
  | empty : Built .empty
  | ofTicks {ticks : List Int} {index : TickIndex} (h : TickIndex.ofTicks ticks = .ok index) :
      Built index
  | attempt {index : TickIndex} (tick : Int) (h : Built index) : Built (attempt index tick)

theorem chained_of_built (h : Built index) : Chained index := by
  induction h with
  | empty => exact chained_empty
  | ofTicks h => exact (chained_of_ofTicks h).1
  | attempt tick _ ih => exact chained_of_attempt ih

/-- Whether a tick can be added: it lies strictly between the two ends and is not an entry yet. -/
def Addable (index : TickIndex) (tick : Int) : Prop :=
  (minTick < tick ∧ tick < maxTick) ∧ index.contains tick = false

theorem insert_added_iff (hchained : Chained index) :
    index.insert tick = .ok (attempt index tick, true) ↔ Addable index tick := by
  constructor
  · intro h
    by_contra hnot
    rcases insert_other hnot with hkept | hrefused
    · rw [h] at hkept
      cases congrArg Prod.snd (Except.ok.inj hkept)
    · rw [h] at hrefused
      cases hrefused
  · intro h
    obtain ⟨hinside, habsent⟩ := h
    obtain ⟨grown, hgrown⟩ := insert_absent hchained hinside habsent
    rw [attempt_of_insert hgrown]
    exact hgrown

/-- The same ticks make the same index, whether linked at once or added in any order. -/
theorem ofTicks_eq_foldl (hbounds : ∀ tick ∈ ticks, minTick ≤ tick ∧ tick ≤ maxTick)
    (horder : ∀ tick, tick ∈ order ↔ tick ∈ ticks ∧ tick ≠ minTick ∧ tick ≠ maxTick) :
    TickIndex.ofTicks ticks = .ok (order.foldl attempt .empty) := by
  have hlinked := ofTicks_eq_ok.mpr ⟨hbounds, rfl⟩
  obtain ⟨hchained, hentries⟩ := chained_of_ofTicks hlinked
  have hinside : ∀ tick ∈ order, minTick < tick ∧ tick < maxTick := by
    intro tick htick
    obtain ⟨hgiven, hlow, hhigh⟩ := (horder tick).mp htick
    have hbetween := hbounds tick hgiven
    omega
  obtain ⟨hgrown, hadded⟩ := foldl_attempt chained_empty hinside
  rw [hlinked, chained_ext hchained hgrown fun entry => ?_]
  rw [hentries, hadded, contains_empty, horder, or_assoc]
  constructor
  · rintro (hlow | hhigh | hgiven)
    · exact Or.inl hlow
    · exact Or.inr (Or.inl hhigh)
    · by_cases hlow : entry = minTick
      · exact Or.inl hlow
      · by_cases hhigh : entry = maxTick
        · exact Or.inr (Or.inl hhigh)
        · exact Or.inr (Or.inr ⟨hgiven, hlow, hhigh⟩)
  · rintro (hlow | hhigh | ⟨hgiven, -⟩)
    · exact Or.inl hlow
    · exact Or.inr (Or.inl hhigh)
    · exact Or.inr (Or.inr hgiven)

end Attempts

/-- An index made from ticks links each entry to the next one on either side. Exactly the ticks that
can be added are, and all others change nothing; the walk upwards lists the entries. The same ticks
make the same index in any order. -/
theorem built_indexes :
    (∀ index, Built index →
      Chained index ∧
      (∀ tick,
        (index.insert tick = .ok (attempt index tick, true) ↔ Addable index tick) ∧
        (Addable index tick → ∀ entry, (attempt index tick).contains entry = true ↔
          index.contains entry = true ∨ entry = tick) ∧
        (¬ Addable index tick → attempt index tick = index)) ∧
      index.ticks.Pairwise (· < ·) ∧
      ∀ entry, entry ∈ index.ticks ↔ index.contains entry = true) ∧
    ∀ ticks order : List Int, (∀ tick ∈ ticks, minTick ≤ tick ∧ tick ≤ maxTick) →
      (∀ tick, tick ∈ order ↔ tick ∈ ticks ∧ tick ≠ minTick ∧ tick ≠ maxTick) →
      TickIndex.ofTicks ticks = .ok (order.foldl attempt .empty) := by
  constructor
  · intro index hbuilt
    have hchained := chained_of_built hbuilt
    refine ⟨hchained, fun tick => ⟨insert_added_iff hchained, fun haddable entry => ?_,
      attempt_other⟩, ticks_of_chained hchained⟩
    exact contains_attempt hchained haddable.1
  · intro ticks order hbounds horder
    exact ofTicks_eq_foldl hbounds horder

/-- An index that is linked from two ticks and then has a third one put between them. -/
theorem built_indexes_between :
    ∃ index, TickIndex.ofTicks [600, -60, 600] = .ok index ∧
      index = [-60, 600].foldl attempt .empty ∧ Built (attempt index 60) ∧
      index.insert 60 = .ok (attempt index 60, true) ∧
      attempt (attempt index 60) (-60) = attempt index 60 ∧
      Chained (attempt index 60) ∧ (attempt index 60).ticks.Pairwise (· < ·) ∧
      (60 : Int) ∈ (attempt index 60).ticks := by
  obtain ⟨hbuilt, horders⟩ := built_indexes
  have hlinked : TickIndex.ofTicks [600, -60, 600] = .ok ([-60, 600].foldl attempt .empty) := by
    refine horders [600, -60, 600] [-60, 600] (by decide) fun tick => ?_
    simp only [List.mem_cons, List.not_mem_nil, or_false, minTick, maxTick]
    omega
  have haddable : Addable ([-60, 600].foldl attempt .empty) 60 :=
    ⟨by decide, by decide +kernel⟩
  have hfirst := Built.ofTicks hlinked
  have hsecond := Built.attempt 60 hfirst
  obtain ⟨-, hinserts, -⟩ := hbuilt _ hfirst
  obtain ⟨hadded, hentries, -⟩ := hinserts 60
  obtain ⟨hchained, hothers, hrising, hmeets⟩ := hbuilt _ hsecond
  refine ⟨_, hlinked, rfl, hsecond, hadded.mpr haddable, (hothers (-60)).2.2 ?_, hchained, hrising,
    (hmeets 60).mpr ((hentries haddable 60).mpr (Or.inr rfl))⟩
  intro hagain
  have hpresent : (attempt ([-60, 600].foldl attempt .empty) 60).contains (-60) = true := by
    decide +kernel
  exact Bool.false_ne_true (hagain.2.symm.trans hpresent)

end ReinvestingPool.Proofs.BuiltIndexes
