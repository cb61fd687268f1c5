import ReinvestingPool.Proofs.IndexChains

/-!
Adding ticks to an index. An index whose links lead from each entry to the next one is accepted, the
index of a new pool is of that kind, and so is every index that a tick has been added to.
-/

namespace ReinvestingPool.Proofs.IndexInsertions

open Failures Directions TickMaps TickPrices TickIndexes IndexChains

variable {index grown : TickIndex} {tick previous next key entry a b c : Int} {visited : Nat}
variable {link : TickLink} {added : Bool}

section Validation

/-- An entry makes one more from it on than there are beyond it. -/
theorem countFrom_succ (hlink : index.get? a = some link) (hlt : a < b)
    (hnone : ∀ entry, index.contains entry = true → a < entry → b ≤ entry) :
    index.links.countFrom a = index.links.countFrom b + 1 := by
  obtain ⟨before, after, hsplit⟩ := List.append_of_mem (mem_of_find? hlink)
  have hrising := index.links.rising
  unfold Rising at hrising
  rw [hsplit] at hrising
  obtain ⟨-, hlater, hbelow⟩ := List.pairwise_append.mp hrising
  obtain ⟨habove, -⟩ := List.pairwise_cons.mp hlater
  have hmember : ∀ e ∈ after, b ≤ e.1 := by
    intro e he
    refine hnone e.1 (contains_iff_mem_ticks.mpr (List.mem_map_of_mem ?_)) (habove e he)
    rw [hsplit]
    exact List.mem_append_right _ (List.mem_cons_of_mem _ he)
  have hbefore : ∀ bound, a ≤ bound → before.countP (bound ≤ ·.1) = 0 := by
    intro bound hbound
    refine List.countP_eq_zero.mpr fun e he => ?_
    have hless := hbelow e he (a, link) List.mem_cons_self
    simp only [decide_eq_true_eq] at hless ⊢
    omega
  have hafter : ∀ bound, bound ≤ b → after.countP (bound ≤ ·.1) = after.length := by
    intro bound hbound
    refine List.countP_eq_length.mpr fun e he => ?_
    have hmore := hmember e he
    simp only [decide_eq_true_eq]
    omega
  have hnot : ¬ b ≤ a := by omega
  unfold TickMap.countFrom
  rw [hsplit, List.countP_append, List.countP_append, List.countP_cons, List.countP_cons,
    hbefore a (Int.le_refl a), hbefore b (Int.le_of_lt hlt), hafter a (Int.le_of_lt hlt),
    hafter b (Int.le_refl b)]
  simp only [Int.le_refl, hnot, decide_true, decide_false, if_true, Bool.false_eq_true, if_false]
  omega

theorem left_unique (hac : Adjacent index a c) (hbc : Adjacent index b c) : a = b := by
  have hfirst := hac.none_between b hbc.left
  have hsecond := hbc.none_between a hac.left
  have hless := hac.lt
  have hlater := hbc.lt
  omega

/-- The walk up a chain meets every entry from where it sets out. -/
theorem walk_of_chained (hchained : Chained index) (hentry : index.contains tick = true) :
    index.walk tick visited = .ok (visited + index.links.countFrom tick - 1) := by
  fun_induction TickIndex.walk index tick visited with
  | case1 visited =>
    obtain ⟨link, hlink⟩ := exists_link hentry
    have hcount : index.links.countFrom maxTick = index.links.countFrom (maxTick + 1) + 1 :=
      countFrom_succ hlink (by omega) fun entry _ hhigher => hhigher
    have hnone : index.links.countFrom (maxTick + 1) = 0 := by
      refine List.countP_eq_zero.mpr fun e he => ?_
      have hinside := hchained.inside e.1 (contains_iff_mem_ticks.mpr (List.mem_map_of_mem he))
      simp only [decide_eq_true_eq]
      omega
    rw [hcount, hnone]
    rfl
  | case2 tick visited hbelow hnone =>
    obtain ⟨link, hlink⟩ := exists_link hentry
    exact absurd (hlink.symm.trans hnone) (by simp)
  | case3 tick visited hbelow link hlink hfalls =>
    have hnext := hchained.next tick link hlink hbelow
    exact absurd hnext.lt (Int.not_lt.mpr hfalls)
  | case4 tick visited hbelow link hlink hrises hnone =>
    have hnext := hchained.next tick link hlink hbelow
    obtain ⟨successor, hsuccessor⟩ := exists_link hnext.right
    exact absurd (hsuccessor.symm.trans hnone) (by simp)
  | case5 visited link successor hsuccessor hbelow hlink hrises ih =>
    have hnext := hchained.next _ link hlink hbelow
    have hcount := countFrom_succ hlink hnext.lt hnext.none_between
    rw [ih hnext.right, hcount]
    have hpos := countFrom_pos hnext.right
    congr 1
    omega
  | case6 tick visited hbelow link hlink hrises successor hsuccessor hback =>
    have hnext := hchained.next tick link hlink hbelow
    have hprevious := hchained.previous link.next successor hsuccessor fun hlow => ?_
    · exact absurd (left_unique hprevious hnext) hback
    · have hinside := hchained.inside tick hentry
      have hless := hnext.lt
      omega

/-- An index whose links lead from each entry to the next one is accepted. -/
theorem validate_of_chained (hchained : Chained index) : index.validate = .ok () := by
  obtain ⟨lowest, hlowest⟩ := exists_link hchained.low
  obtain ⟨highest, hhighest⟩ := exists_link hchained.high
  have hends : index.checkEnds = .ok () := by
    refine bind_eq_ok.mpr ⟨lowest, linkAt_eq_ok.mpr hlowest, ?_⟩
    refine bind_eq_ok.mpr ⟨highest, linkAt_eq_ok.mpr hhighest, ?_⟩
    simp only [hchained.lowEnd lowest hlowest, hchained.highEnd highest hhighest, ne_eq,
      not_true_eq_false, if_false]
    rfl
  have hall : index.links.countFrom minTick = index.size := by
    refine List.countP_eq_length.mpr fun e he => ?_
    have hinside := hchained.inside e.1 (contains_iff_mem_ticks.mpr (List.mem_map_of_mem he))
    exact decide_eq_true hinside.1
  refine bind_eq_ok.mpr ⟨(), hends, bind_eq_ok.mpr ⟨_, walk_of_chained hchained hchained.low, ?_⟩⟩
  have hvisited : 1 + index.links.countFrom minTick - 1 = index.size := by omega
  rw [if_neg fun hdiffers => hdiffers hvisited]
  rfl

end Validation

section Insertion

/-- Besides the new entry, only the links between its neighbours change. -/
theorem link_of_splice (hprevious : previous < tick) (hnext : tick < next)
    (h : (index.splice previous tick next).get? key = some link) :
    key = tick ∧ link = ⟨previous, next⟩ ∨
      key ≠ tick ∧ ∃ old, index.get? key = some old ∧
        link.next = (if key = previous then tick else old.next) ∧
        link.previous = (if key = next then tick else old.previous) := by
  unfold TickIndex.get? TickIndex.splice at h
  simp only at h
  rw [TickMap.get?_modify, TickMap.get?_modify, TickMap.get?_insert] at h
  by_cases hnew : key = tick
  · subst hnew
    rw [if_neg (by omega), if_neg (by omega), if_pos rfl] at h
    exact Or.inl ⟨rfl, (Option.some.inj h).symm⟩
  · right
    refine ⟨hnew, ?_⟩
    rw [if_neg (Ne.symm hnew)] at h
    by_cases hleft : key = previous
    · subst hleft
      rw [if_neg (by omega), if_pos rfl] at h
      obtain ⟨old, hold, hlink⟩ := Option.map_eq_some_iff.mp h
      refine ⟨old, hold, ?_, ?_⟩
      · rw [if_pos rfl, ← hlink]
      · rw [if_neg (by omega), ← hlink]
    · by_cases hright : key = next
      · subst hright
        rw [if_pos rfl, if_neg (by omega)] at h
        obtain ⟨old, hold, hlink⟩ := Option.map_eq_some_iff.mp h
        refine ⟨old, hold, ?_, ?_⟩
        · rw [if_neg hleft, ← hlink]
        · rw [if_pos rfl, ← hlink]
      · rw [if_neg (Ne.symm hright), if_neg (Ne.symm hleft)] at h
        exact ⟨link, h, by rw [if_neg hleft], by rw [if_neg hright]⟩

section Neighbours

variable (hadjacent : Adjacent index previous next) (hprevious : previous < tick)
variable (hnext : tick < next)
variable (hgrown : ∀ entry, grown.contains entry = true ↔
  index.contains entry = true ∨ entry = tick)
include hadjacent hprevious hnext hgrown

theorem adjacent_lower : Adjacent grown previous tick := by
  refine ⟨(hgrown _).mpr (Or.inl hadjacent.left), (hgrown _).mpr (Or.inr rfl), hprevious, ?_⟩
  intro entry hentry hbeyond
  rcases (hgrown entry).mp hentry with hold | rfl
  · exact Int.le_trans (Int.le_of_lt hnext) (hadjacent.none_between entry hold hbeyond)
  · exact Int.le_refl _

theorem adjacent_upper : Adjacent grown tick next := by
  refine ⟨(hgrown _).mpr (Or.inr rfl), (hgrown _).mpr (Or.inl hadjacent.right), hnext, ?_⟩
  intro entry hentry hbeyond
  rcases (hgrown entry).mp hentry with hold | rfl
  · exact hadjacent.none_between entry hold (by omega)
  · exact absurd hbeyond (Int.lt_irrefl _)

/-- All other neighbours stay neighbours. -/
theorem adjacent_other (h : Adjacent index a b) (hother : a ≠ previous ∨ b ≠ next) :
    Adjacent grown a b := by
  refine ⟨(hgrown a).mpr (Or.inl h.left), (hgrown b).mpr (Or.inl h.right), h.lt, ?_⟩
  intro entry hentry hbeyond
  rcases (hgrown entry).mp hentry with hold | rfl
  · exact h.none_between entry hold hbeyond
  · have hbelow := h.none_between previous hadjacent.left
    have habove := h.none_between next hadjacent.right
    have hbefore := hadjacent.none_between a h.left
    have hafter := hadjacent.none_between b h.right
    omega

end Neighbours

/-- An index stays a chain where a tick is put between two neighbours. -/
theorem chained_of_splice (hchained : Chained index) (hadjacent : Adjacent index previous next)
    (hprevious : previous < tick) (hnext : tick < next)
    (hgrown : ∀ entry, (index.splice previous tick next).contains entry = true ↔
      index.contains entry = true ∨ entry = tick) :
    Chained (index.splice previous tick next) := by
  obtain ⟨hfrom, -⟩ := hchained.inside previous hadjacent.left
  obtain ⟨-, hto⟩ := hchained.inside next hadjacent.right
  have hlower := adjacent_lower hadjacent hprevious hnext hgrown
  have hupper := adjacent_upper hadjacent hprevious hnext hgrown
  refine ⟨(hgrown _).mpr (Or.inl hchained.low), (hgrown _).mpr (Or.inl hchained.high), ?_, ?_, ?_,
    ?_, ?_⟩
  · intro entry hentry
    rcases (hgrown entry).mp hentry with hold | rfl
    · exact hchained.inside entry hold
    · omega
  · intro entry link hlink hbelow
    rcases link_of_splice hprevious hnext hlink with ⟨rfl, rfl⟩ | ⟨-, old, hold, hlater, -⟩
    · exact hupper
    · rw [hlater]
      by_cases hleft : entry = previous
      · rw [if_pos hleft, hleft]
        exact hlower
      · rw [if_neg hleft]
        exact adjacent_other hadjacent hprevious hnext hgrown (hchained.next entry old hold hbelow)
          (Or.inl hleft)
  · intro entry link hlink habove
    rcases link_of_splice hprevious hnext hlink with ⟨rfl, rfl⟩ | ⟨-, old, hold, -, hbefore⟩
    · exact hlower
    · rw [hbefore]
      by_cases hright : entry = next
      · rw [if_pos hright, hright]
        exact hupper
      · rw [if_neg hright]
        exact adjacent_other hadjacent hprevious hnext hgrown
          (hchained.previous entry old hold habove) (Or.inr hright)
  · intro link hlink
    rcases link_of_splice hprevious hnext hlink with ⟨hsame, -⟩ | ⟨-, old, hold, -, hbefore⟩
    · omega
    · rw [hbefore, if_neg (by omega)]
      exact hchained.lowEnd old hold
  · intro link hlink
    rcases link_of_splice hprevious hnext hlink with ⟨hsame, -⟩ | ⟨-, old, hold, hlater, -⟩
    · omega
    · rw [hlater, if_neg (by omega)]
      exact hchained.highEnd old hold

/-- An index stays a chain where a tick is added. -/
theorem chained_of_insert (hchained : Chained index)
    (h : index.insert tick = .ok (grown, added)) : Chained grown := by
  have hgrown : ∀ entry, grown.contains entry = true ↔
      index.contains entry = true ∨ entry = tick := fun entry => contains_insert h
  unfold TickIndex.insert at h
  split at h
  · cases h
  · rename_i hinside
    split at h
    · cases h
      exact hchained
    · rename_i habsent
      obtain ⟨previous, hnearest, h⟩ := bind_eq_ok.mp h
      obtain ⟨next, hnext, h⟩ := bind_eq_ok.mp h
      cases h
      obtain ⟨hentry, hle, hgreatest⟩ := nearest_eq_ok hnearest
      have hadjacent := adjacent_of_next hchained (by omega) hnext
      have hdiffers : previous ≠ tick := fun hsame => habsent (hsame ▸ hentry)
      refine chained_of_splice hchained hadjacent (by omega) ?_ hgrown
      by_contra hbehind
      have hback := hgreatest next hadjacent.right (Int.not_lt.mp hbehind)
      have hlt := hadjacent.lt
      omega

end Insertion

/-- The index of a new pool is a chain. -/
theorem chained_empty : Chained TickIndex.empty :=
  chained_of_validate (by decide +kernel)

end ReinvestingPool.Proofs.IndexInsertions
