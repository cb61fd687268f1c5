import ReinvestingPool.Proofs.PositionSums

/-!
Positions that are refused. The range, the liquidity and the change at the lower end are checked
before anything is written. The upper end, the active liquidity and the nearest tick come later, and
a position that is refused there leaves its lower end behind, which counts as liquidity that nobody
has added.
-/

namespace ReinvestingPool.Proofs.RefusedDeposits

open Failures Words SignedAmounts TickMaps TickPrices TickIndexes Pools Positions IndexChains
open BuiltIndexes NetLiquidity Deposits PositionSums

/-- Some entry lies at a tick or below it. -/
def HasFloor (index : TickIndex) (tick : Int) : Prop :=
  ∃ entry, index.contains entry = true ∧ entry ≤ tick

/-- The net change at a tick can still change by so much. -/
def NetFits (records : TickMap TickRecord) (tick change : Int) : Prop :=
  -2 ^ 127 ≤ netOf records tick + change ∧ netOf records tick + change < 2 ^ 127

instance (records : TickMap TickRecord) (tick change : Int) :
    Decidable (NetFits records tick change) := by
  unfold NetFits
  infer_instance

/-- A position that is refused before anything is written. -/
def Rejected (pool : Pool) (lower upper : Int) (liquidity : HalfWord) : Prop :=
  ¬ ValidRange lower upper ∨ 2 ^ 127 ≤ liquidity.toNat ∨
    ¬ NetFits pool.records lower liquidity.toNat

/-- A position that is refused once its lower end is written: the lower end has no entry below it
to be linked to, the upper end or the active liquidity has no room, or no entry is nearest to the
current tick. -/
def Interrupted (pool : Pool) (lower upper : Int) (liquidity : HalfWord) : Prop :=
  ¬ HasFloor pool.index lower ∨ ¬ NetFits pool.records upper (-liquidity.toNat) ∨
    ((lower ≤ pool.currentTick ∧ pool.currentTick < upper) ∧
      2 ^ 128 ≤ pool.baseLiquidity.toNat + liquidity.toNat) ∨
    ¬ ((minTick ≤ pool.currentTick ∧ pool.currentTick ≤ maxTick) ∧
      (HasFloor pool.index pool.currentTick ∨ lower ≤ pool.currentTick))

/-- A position without liquidity, whose ends have all that is made before it is refused. -/
def AddsNothing (pool : Pool) (lower upper : Int) (liquidity : HalfWord) : Prop :=
  liquidity = 0 ∧ pool.records.contains lower = true ∧
    (HasFloor pool.index lower → pool.index.contains lower = true ∧
      pool.records.contains upper = true ∧ pool.index.contains upper = true)

/-- An edit goes through. -/
def Passes (edit : Edit) (pool : Pool) : Prop := ∃ last, edit pool = (last, .ok ())

/-- An edit is refused and leaves a pool behind. -/
def Leaves (edit : Edit) (pool left : Pool) : Prop := ∃ failure, edit pool = (left, .error failure)

variable {pool left last middle : Pool} {edit first second : Edit} {index : TickIndex}
variable {tick lower upper change : Int} {liquidity : HalfWord}

section Edits

theorem exists_leaves_iff : (∃ left, Leaves edit pool left) ↔ ¬ Passes edit pool := by
  unfold Leaves Passes
  generalize edit pool = result
  obtain ⟨edited, outcome⟩ := result
  cases outcome with
  | ok =>
    refine iff_of_false ?_ (not_not.mpr ⟨edited, rfl⟩)
    rintro ⟨left, failure, h⟩
    cases h
  | error failure =>
    refine iff_of_true ⟨edited, failure, rfl⟩ ?_
    rintro ⟨last, h⟩
    cases h

theorem passes_andThen_iff :
    Passes (first.andThen second) pool ↔
      ∃ middle, first pool = (middle, .ok ()) ∧ Passes second middle := by
  unfold Passes
  simp only [andThen_eq_ok]
  constructor
  · rintro ⟨last, middle, hfirst, hsecond⟩
    exact ⟨middle, hfirst, last, hsecond⟩
  · rintro ⟨middle, hfirst, last, hsecond⟩
    exact ⟨last, middle, hfirst, hsecond⟩

theorem leaves_andThen_iff :
    Leaves (first.andThen second) pool left ↔
      Leaves first pool left ∨
        ∃ middle, first pool = (middle, .ok ()) ∧ Leaves second middle left := by
  unfold Leaves Edit.andThen
  generalize first pool = result
  obtain ⟨edited, outcome⟩ := result
  cases outcome with
  | ok =>
    constructor
    · intro h
      exact Or.inr ⟨edited, rfl, h⟩
    · rintro (⟨failure, h⟩ | ⟨middle, hsame, h⟩)
      · cases h
      · cases hsame
        exact h
  | error failure =>
    constructor
    · intro h
      exact Or.inl h
    · rintro (h | ⟨middle, hsame, -⟩)
      · exact h
      · cases hsame

theorem passes_require_iff {accepted : Bool} {failure : Failure} :
    Passes ((Edit.require accepted failure).andThen second) pool ↔
      accepted = true ∧ Passes second pool := by
  rw [passes_andThen_iff]
  constructor
  · rintro ⟨middle, hrequire, hsecond⟩
    obtain ⟨haccepted, rfl⟩ := require_eq_ok.mp hrequire
    exact ⟨haccepted, hsecond⟩
  · rintro ⟨haccepted, hsecond⟩
    exact ⟨pool, require_eq_ok.mpr ⟨haccepted, rfl⟩, hsecond⟩

theorem leaves_require_iff {accepted : Bool} {failure : Failure} :
    Leaves ((Edit.require accepted failure).andThen second) pool left ↔
      accepted = false ∧ left = pool ∨ accepted = true ∧ Leaves second pool left := by
  cases accepted with
  | true => exact ⟨fun h => Or.inr ⟨rfl, h⟩, fun h => h.elim (fun h => nomatch h.1) (·.2)⟩
  | false =>
    constructor
    · rintro ⟨cause, h⟩
      cases h
      exact Or.inl ⟨rfl, rfl⟩
    · rintro (⟨-, rfl⟩ | ⟨haccepted, -⟩)
      · exact ⟨failure, rfl⟩
      · cases haccepted

theorem left_of_ofExcept {edit : Pool → Except Failure Pool}
    (h : Leaves (Edit.ofExcept edit) pool left) : left = pool := by
  obtain ⟨failure, h⟩ := h
  unfold Edit.ofExcept at h
  split at h
  · cases h
  · cases h
    rfl

theorem passes_ofExcept_iff {edit : Pool → Except Failure Pool} :
    Passes (Edit.ofExcept edit) pool ↔ ∃ last, edit pool = .ok last := by
  unfold Passes
  simp only [ofExcept_eq_ok]

end Edits

section Entries

theorem exists_nearest_iff :
    (∃ nearest, index.nearest tick = .ok nearest) ↔
      (minTick ≤ tick ∧ tick ≤ maxTick) ∧ HasFloor index tick := by
  constructor
  · rintro ⟨nearest, h⟩
    obtain ⟨hentry, hle, -⟩ := nearest_eq_ok h
    refine ⟨?_, nearest, hentry, hle⟩
    by_contra houtside
    unfold TickIndex.nearest at h
    rw [if_neg houtside] at h
    cases h
  · rintro ⟨hinside, entry, hentry, hle⟩
    exact exists_nearest hentry hle hinside

/-- A tick strictly between the outermost ones is linked exactly where there is an entry at it or
below it. -/
theorem exists_insert_iff (hinside : minTick < tick ∧ tick < maxTick) :
    (∃ grown, index.insert tick = .ok grown) ↔ HasFloor index tick := by
  have hbounds : ¬ (tick ≤ minTick ∨ maxTick ≤ tick) := by omega
  unfold TickIndex.insert
  rw [if_neg hbounds]
  by_cases hpresent : index.contains tick = true
  · rw [if_pos hpresent]
    exact iff_of_true ⟨_, rfl⟩ ⟨tick, hpresent, Int.le_refl tick⟩
  · rw [if_neg hpresent]
    constructor
    · rintro ⟨grown, h⟩
      obtain ⟨nearest, hnearest, -⟩ := bind_eq_ok.mp h
      exact (exists_nearest_iff.mp ⟨nearest, hnearest⟩).2
    · intro hfloor
      obtain ⟨nearest, hnearest⟩ :=
        exists_nearest_iff.mpr ⟨⟨Int.le_of_lt hinside.1, Int.le_of_lt hinside.2⟩, hfloor⟩
      obtain ⟨next, hnext⟩ := next_of_contains (nearest_eq_ok hnearest).1
      exact ⟨_, bind_eq_ok.mpr ⟨nearest, hnearest, bind_eq_ok.mpr ⟨next, hnext, rfl⟩⟩⟩

end Entries

section Ends

theorem netFits_zero (pool : Pool) (tick : Int) : NetFits pool.records tick 0 := by
  unfold NetFits
  rw [Int.add_zero, ← @netOf_getD pool]
  exact ⟨Signed.lower _, Signed.upper _⟩

theorem passes_changeNet_iff :
    Passes (changeNet tick change) pool ↔ NetFits pool.records tick change := by
  constructor
  · rintro ⟨last, h⟩
    obtain ⟨net, hnet, -⟩ := changeNet_eq_ok h
    unfold NetFits
    rw [← hnet]
    exact ⟨net.lower, net.upper⟩
  · intro hfits
    let net : LiquidityChange := ⟨netOf pool.records tick + change, hfits.1, hfits.2⟩
    refine ⟨{ pool with records := pool.records.insert tick (recordWith pool tick net) }, ?_⟩
    have hnet : ∀ failure, Signed.ofIntOr failure (netOf pool.records tick + change) = .ok net :=
      fun failure => Signed.ofIntOr_eq_ok.mpr rfl
    unfold changeNet
    simp only [netOf_getD, hnet]
    rfl

/-- A change that a new record could take on is refused by an old one only, which stays as it is. -/
theorem left_of_changeNet (hchange : -2 ^ 127 ≤ change ∧ change < 2 ^ 127)
    (h : Leaves (changeNet tick change) pool left) : left = pool := by
  cases hfound : pool.records.get? tick with
  | none =>
    -- The record made for the tick would be new, but it has room for the change.
    refine absurd (passes_changeNet_iff.mpr ?_) (exists_leaves_iff.mp ⟨left, h⟩)
    have habsent : netOf pool.records tick = 0 := by
      refine netOf_eq_zero ?_
      change ¬ (pool.records.get? tick).isSome = true
      rw [hfound]
      exact Bool.false_ne_true
    unfold NetFits
    rw [habsent, Int.zero_add]
    exact hchange
  | some record =>
    obtain ⟨failure, h⟩ := h
    unfold changeNet at h
    simp only [hfound, Option.getD_some] at h
    split at h
    · cases h
    · obtain rfl := congrArg Prod.fst h
      rw [TickMap.insert_of_get? hfound]

theorem passes_indexTick_iff (hinside : minTick < tick ∧ tick < maxTick) :
    Passes (indexTick tick) pool ↔ HasFloor pool.index tick := by
  rw [← exists_insert_iff hinside]
  unfold indexTick
  rw [passes_ofExcept_iff]
  constructor
  · rintro ⟨last, h⟩
    obtain ⟨grown, hgrown, -⟩ := bind_eq_ok.mp h
    exact ⟨grown, liftPool_eq_ok.mp hgrown⟩
  · rintro ⟨grown, hgrown⟩
    exact ⟨_, bind_eq_ok.mpr ⟨grown, liftPool_eq_ok.mpr hgrown, rfl⟩⟩

theorem passes_changeEnd_iff (hinside : minTick < tick ∧ tick < maxTick) :
    Passes (changeEnd tick change) pool ↔
      NetFits pool.records tick change ∧ HasFloor pool.index tick := by
  unfold changeEnd
  rw [passes_andThen_iff, ← passes_changeNet_iff]
  constructor
  · rintro ⟨recorded, hrecorded, hindex⟩
    obtain ⟨net, -, rfl⟩ := changeNet_eq_ok hrecorded
    have hfloor := (passes_indexTick_iff hinside).mp hindex
    exact ⟨⟨_, hrecorded⟩, hfloor⟩
  · rintro ⟨⟨recorded, hrecorded⟩, hfloor⟩
    refine ⟨recorded, hrecorded, (passes_indexTick_iff hinside).mpr ?_⟩
    obtain ⟨net, -, rfl⟩ := changeNet_eq_ok hrecorded
    exact hfloor

/-- An end that is refused is recorded or not, depending on which of its two edits is refused. -/
theorem leaves_changeEnd (hinside : minTick < tick ∧ tick < maxTick)
    (hchange : -2 ^ 127 ≤ change ∧ change < 2 ^ 127)
    (h : Leaves (changeEnd tick change) pool left) :
    (¬ NetFits pool.records tick change ∧ left = pool) ∨
      NetFits pool.records tick change ∧ ¬ HasFloor pool.index tick ∧
        changeNet tick change pool = (left, .ok ()) := by
  rcases leaves_andThen_iff.mp h with hnet | ⟨recorded, hrecorded, hindex⟩
  · refine Or.inl ⟨?_, left_of_changeNet hchange hnet⟩
    rw [← passes_changeNet_iff]
    exact exists_leaves_iff.mp ⟨left, hnet⟩
  · obtain rfl := left_of_ofExcept hindex
    refine Or.inr ⟨passes_changeNet_iff.mp ⟨_, hrecorded⟩, ?_, hrecorded⟩
    intro hfloor
    refine exists_leaves_iff.mp ⟨_, hindex⟩ ((passes_indexTick_iff hinside).mpr ?_)
    obtain ⟨net, -, rfl⟩ := changeNet_eq_ok hrecorded
    exact hfloor

theorem passes_activate_iff :
    Passes (activate lower upper liquidity) pool ↔
      (lower ≤ pool.currentTick ∧ pool.currentTick < upper →
        pool.baseLiquidity.toNat + liquidity.toNat < 2 ^ 128) := by
  unfold activate
  rw [passes_ofExcept_iff]
  by_cases haround : lower ≤ pool.currentTick ∧ pool.currentTick < upper
  · rw [if_pos haround]
    constructor
    · rintro ⟨last, h⟩ -
      obtain ⟨base, hbase, -⟩ := bind_eq_ok.mp h
      rw [← addChecked_eq_ok.mp (liftArithmetic_eq_ok.mp hbase)]
      exact base.isLt
    · intro hroom
      have hbase : addChecked pool.baseLiquidity liquidity =
          .ok (pool.baseLiquidity + liquidity) := if_pos (hroom haround)
      exact ⟨_, bind_eq_ok.mpr ⟨_, liftArithmetic_eq_ok.mpr hbase, rfl⟩⟩
  · rw [if_neg haround]
    exact iff_of_true ⟨pool, rfl⟩ fun h => absurd h haround

theorem passes_findNearest_iff :
    Passes findNearest pool ↔
      (minTick ≤ pool.currentTick ∧ pool.currentTick ≤ maxTick) ∧
        HasFloor pool.index pool.currentTick := by
  rw [← exists_nearest_iff]
  unfold findNearest
  rw [passes_ofExcept_iff]
  constructor
  · rintro ⟨last, h⟩
    obtain ⟨nearest, hnearest, -⟩ := bind_eq_ok.mp h
    exact ⟨nearest, liftPool_eq_ok.mp hnearest⟩
  · rintro ⟨nearest, hnearest⟩
    exact ⟨_, bind_eq_ok.mpr ⟨nearest, liftPool_eq_ok.mpr hnearest, rfl⟩⟩

/-- An end without liquidity changes nothing exactly where it is recorded and indexed. -/
theorem changeNet_zero_eq_iff (h : changeNet tick 0 pool = (last, .ok ())) :
    last = pool ↔ pool.records.contains tick = true := by
  obtain ⟨net, hnet, rfl⟩ := changeNet_eq_ok h
  constructor
  · intro hsame
    rw [← hsame]
    exact contains_insert_iff.mpr (Or.inr rfl)
  · intro hrecorded
    obtain ⟨record, hrecord⟩ := Option.isSome_iff_exists.mp hrecorded
    have hkept : recordWith pool tick net = record := by
      rw [Int.add_zero, netOf_of_get? hrecord] at hnet
      unfold recordWith
      rw [hrecord, Option.getD_some, Signed.ext hnet]
    rw [hkept, TickMap.insert_of_get? hrecord]

theorem changeEnd_zero_eq_iff (h : changeEnd tick 0 pool = (last, .ok ())) :
    last = pool ↔ pool.records.contains tick = true ∧ pool.index.contains tick = true := by
  have hadded := endAdded_of_changeEnd h
  constructor
  · intro hsame
    rw [hsame] at hadded
    exact ⟨(hadded.records tick).mpr (Or.inr rfl), (hadded.entries tick).mpr (Or.inr rfl)⟩
  · rintro ⟨hrecorded, hindexed⟩
    obtain ⟨middle, hnet, hindex⟩ := andThen_eq_ok.mp h
    obtain rfl := (changeNet_zero_eq_iff hnet).mpr hrecorded
    obtain ⟨grown, added, hinsert, rfl⟩ := indexTick_eq_ok hindex
    have hkept : middle.index.insert tick = .ok (middle.index, false) ∨
        middle.index.insert tick = .error .tickOutOfBounds :=
      insert_other fun h => absurd (hindexed.symm.trans h.2) Bool.true_eq_false.mp
    rcases hkept with hkept | hrefused
    · cases hinsert.symm.trans hkept
      rfl
    · cases hinsert.symm.trans hrefused

/-- Two ends without liquidity change nothing exactly where both are recorded and indexed. -/
theorem changeEnds_zero_eq_iff {raised : Pool}
    (hlower : changeEnd lower 0 pool = (raised, .ok ()))
    (hupper : changeEnd upper 0 raised = (last, .ok ())) :
    last = pool ↔ (pool.records.contains lower = true ∧ pool.index.contains lower = true) ∧
      pool.records.contains upper = true ∧ pool.index.contains upper = true := by
  have hfirst := endAdded_of_changeEnd hlower
  have hsecond := endAdded_of_changeEnd hupper
  constructor
  · rintro rfl
    exact ⟨⟨(hsecond.records lower).mpr (Or.inl ((hfirst.records lower).mpr (Or.inr rfl))),
        (hsecond.entries lower).mpr (Or.inl ((hfirst.entries lower).mpr (Or.inr rfl)))⟩,
      (hsecond.records upper).mpr (Or.inr rfl), (hsecond.entries upper).mpr (Or.inr rfl)⟩
  · rintro ⟨hlow, hhigh⟩
    obtain rfl := (changeEnd_zero_eq_iff hlower).mpr hlow
    exact (changeEnd_zero_eq_iff hupper).mpr hhigh

end Ends

section Positions

/-- What the two ends leave for the other edits of a position. -/
structure BothEnds (pool ended : Pool) (lower upper : Int) : Prop where
  currentTick : ended.currentTick = pool.currentTick
  baseLiquidity : ended.baseLiquidity = pool.baseLiquidity
  floor : HasFloor ended.index pool.currentTick ↔
    HasFloor pool.index pool.currentTick ∨ lower ≤ pool.currentTick

theorem hasFloor_of_changeEnd (h : changeEnd tick change pool = (last, .ok ())) (bound : Int) :
    HasFloor last.index bound ↔ HasFloor pool.index bound ∨ tick ≤ bound := by
  have hentries := (endAdded_of_changeEnd h).entries
  constructor
  · rintro ⟨entry, hentry, hle⟩
    rcases (hentries entry).mp hentry with hold | rfl
    · exact Or.inl ⟨entry, hold, hle⟩
    · exact Or.inr hle
  · rintro (⟨entry, hentry, hle⟩ | hle)
    · exact ⟨entry, (hentries entry).mpr (Or.inl hentry), hle⟩
    · exact ⟨tick, (hentries tick).mpr (Or.inr rfl), hle⟩

theorem netFits_of_changeEnd {other more : Int} (hother : tick ≠ other)
    (h : changeEnd tick change pool = (last, .ok ())) :
    NetFits last.records other more ↔ NetFits pool.records other more := by
  unfold NetFits
  rw [(endAdded_of_changeEnd h).nets, if_neg hother, Int.add_zero]

theorem bothEnds_of_changeEnds {more : Int} {raised ended : Pool} (hless : lower < upper)
    (hlower : changeEnd lower change pool = (raised, .ok ()))
    (hupper : changeEnd upper more raised = (ended, .ok ())) : BothEnds pool ended lower upper := by
  have hframe := (changeEnd_eq_ok hlower).frame
  refine ⟨?_, ?_, ?_⟩
  · rw [(changeEnd_eq_ok hupper).frame, hframe]
  · rw [(changeEnd_eq_ok hupper).frame, hframe]
  · rw [hasFloor_of_changeEnd hupper, hasFloor_of_changeEnd hlower, or_assoc]
    exact or_congr_right ⟨fun h => h.elim id (Int.le_trans (Int.le_of_lt hless)), Or.inl⟩

theorem passes_rest_iff {ended : Pool} (hends : BothEnds pool ended lower upper) :
    Passes ((activate lower upper liquidity).andThen findNearest) ended ↔
      (lower ≤ pool.currentTick ∧ pool.currentTick < upper →
        pool.baseLiquidity.toNat + liquidity.toNat < 2 ^ 128) ∧
      (minTick ≤ pool.currentTick ∧ pool.currentTick ≤ maxTick) ∧
        (HasFloor pool.index pool.currentTick ∨ lower ≤ pool.currentTick) := by
  rw [← hends.floor, ← hends.baseLiquidity, ← hends.currentTick, ← passes_activate_iff,
    ← passes_findNearest_iff, passes_andThen_iff]
  constructor
  · rintro ⟨active, hactive, hnearest⟩
    obtain ⟨base, rfl, -⟩ := activate_eq_ok hactive
    have hfound := passes_findNearest_iff.mp hnearest
    exact ⟨⟨_, hactive⟩, passes_findNearest_iff.mpr hfound⟩
  · rintro ⟨⟨active, hactive⟩, hnearest⟩
    refine ⟨active, hactive, ?_⟩
    have hfound := passes_findNearest_iff.mp hnearest
    obtain ⟨base, rfl, -⟩ := activate_eq_ok hactive
    exact passes_findNearest_iff.mpr hfound

theorem not_rejected_iff :
    ¬ Rejected pool lower upper liquidity ↔
      ValidRange lower upper ∧ liquidity.toNat < 2 ^ 127 ∧
        NetFits pool.records lower liquidity.toNat := by
  unfold Rejected
  rw [not_or, not_or, not_not, not_not, Nat.not_le]

theorem not_interrupted_iff :
    ¬ Interrupted pool lower upper liquidity ↔
      (HasFloor pool.index lower ∧ NetFits pool.records upper (-liquidity.toNat)) ∧
        (lower ≤ pool.currentTick ∧ pool.currentTick < upper →
          pool.baseLiquidity.toNat + liquidity.toNat < 2 ^ 128) ∧
        (minTick ≤ pool.currentTick ∧ pool.currentTick ≤ maxTick) ∧
          (HasFloor pool.index pool.currentTick ∨ lower ≤ pool.currentTick) := by
  unfold Interrupted
  rw [not_or, not_or, not_or, not_not, not_not, not_not, ← and_assoc]
  refine and_congr_right fun _ => and_congr_left fun _ => ?_
  rw [not_and, Nat.not_le]

/-- A position goes through exactly where it is neither rejected nor interrupted. -/
theorem passes_addPosition_iff :
    Passes (addPosition lower upper liquidity) pool ↔
      ¬ Rejected pool lower upper liquidity ∧ ¬ Interrupted pool lower upper liquidity := by
  rw [not_interrupted_iff, not_rejected_iff]
  unfold addPosition
  rw [passes_require_iff, passes_require_iff, passes_andThen_iff, decide_eq_true_eq,
    decide_eq_true_eq]
  constructor
  · rintro ⟨hrange, hwidth, raised, hlower, hrest⟩
    obtain ⟨ended, hupper, hrest⟩ := passes_andThen_iff.mp hrest
    obtain ⟨hless, hlow, hhigh⟩ := hrange
    obtain ⟨hfits, hfloor⟩ := (passes_changeEnd_iff ⟨hlow, by omega⟩).mp ⟨raised, hlower⟩
    have hfitsUpper := ((passes_changeEnd_iff ⟨by omega, hhigh⟩).mp ⟨ended, hupper⟩).1
    rw [netFits_of_changeEnd (Int.ne_of_lt hless) hlower] at hfitsUpper
    exact ⟨⟨⟨hless, hlow, hhigh⟩, hwidth, hfits⟩, ⟨hfloor, hfitsUpper⟩,
      (passes_rest_iff (bothEnds_of_changeEnds hless hlower hupper)).mp hrest⟩
  · rintro ⟨⟨hrange, hwidth, hfits⟩, ⟨hfloor, hfitsUpper⟩, hrest⟩
    obtain ⟨hless, hlow, hhigh⟩ := hrange
    obtain ⟨raised, hlower⟩ := (passes_changeEnd_iff ⟨hlow, by omega⟩).mpr ⟨hfits, hfloor⟩
    rw [← netFits_of_changeEnd (Int.ne_of_lt hless) hlower] at hfitsUpper
    have hfloorUpper := (hasFloor_of_changeEnd hlower upper).mpr (Or.inr (Int.le_of_lt hless))
    obtain ⟨ended, hupper⟩ :=
      (passes_changeEnd_iff ⟨by omega, hhigh⟩).mpr ⟨hfitsUpper, hfloorUpper⟩
    exact ⟨⟨hless, hlow, hhigh⟩, hwidth, raised, hlower, passes_andThen_iff.mpr ⟨ended, hupper,
      (passes_rest_iff (bothEnds_of_changeEnds hless hlower hupper)).mpr hrest⟩⟩

/-- What is left of a position that is refused once its lower end is written: the record of the
lower end, or the whole of it, or both ends. -/
inductive Remains (pool left : Pool) (lower upper : Int) (liquidity : HalfWord) : Prop
  | recorded (hfloor : ¬ HasFloor pool.index lower)
      (hnet : changeNet lower liquidity.toNat pool = (left, .ok ()))
  | lowerEnd (hlower : changeEnd lower liquidity.toNat pool = (left, .ok ()))
      (hupper : ¬ NetFits pool.records upper (-liquidity.toNat))
  | bothEnds {raised ended : Pool} {base : HalfWord} (hfloor : HasFloor pool.index lower)
      (hlower : changeEnd lower liquidity.toNat pool = (raised, .ok ()))
      (hupper : changeEnd upper (-liquidity.toNat) raised = (ended, .ok ()))
      (hleft : left = { ended with baseLiquidity := base })
      (hbase : liquidity = 0 → base = pool.baseLiquidity)

/-- A rejected position leaves the pool as it was, and any other one that is refused leaves what
was written. -/
theorem leaves_addPosition (h : Leaves (addPosition lower upper liquidity) pool left) :
    (Rejected pool lower upper liquidity ∧ left = pool) ∨
      ¬ Rejected pool lower upper liquidity ∧ Remains pool left lower upper liquidity := by
  unfold addPosition at h
  rcases leaves_require_iff.mp h with ⟨hrange, rfl⟩ | ⟨hrange, h⟩
  · exact Or.inl ⟨Or.inl (of_decide_eq_false hrange), rfl⟩
  rcases leaves_require_iff.mp h with ⟨hwidth, rfl⟩ | ⟨hwidth, h⟩
  · exact Or.inl ⟨Or.inr (Or.inl (Nat.not_lt.mp (of_decide_eq_false hwidth))), rfl⟩
  have hwidth := of_decide_eq_true hwidth
  obtain ⟨hless, hlow, hhigh⟩ := of_decide_eq_true hrange
  have haccepted : NetFits pool.records lower liquidity.toNat →
      ¬ Rejected pool lower upper liquidity := fun hfits =>
    not_rejected_iff.mpr ⟨⟨hless, hlow, hhigh⟩, hwidth, hfits⟩
  rcases leaves_andThen_iff.mp h with h | ⟨raised, hlower, h⟩
  · rcases leaves_changeEnd ⟨hlow, by omega⟩ (by omega) h with
      ⟨hfull, rfl⟩ | ⟨hfits, hfloor, hnet⟩
    · exact Or.inl ⟨Or.inr (Or.inr hfull), rfl⟩
    · exact Or.inr ⟨haccepted hfits, .recorded hfloor hnet⟩
  obtain ⟨hfits, hfloor⟩ := (passes_changeEnd_iff ⟨hlow, by omega⟩).mp ⟨raised, hlower⟩
  refine Or.inr ⟨haccepted hfits, ?_⟩
  rcases leaves_andThen_iff.mp h with h | ⟨ended, hupper, h⟩
  · rcases leaves_changeEnd ⟨by omega, hhigh⟩ (by omega) h with
      ⟨hfull, rfl⟩ | ⟨-, hlost, -⟩
    · rw [netFits_of_changeEnd (Int.ne_of_lt hless) hlower] at hfull
      exact .lowerEnd hlower hfull
    · exact absurd ((hasFloor_of_changeEnd hlower upper).mpr (Or.inr (Int.le_of_lt hless))) hlost
  have hends := bothEnds_of_changeEnds hless hlower hupper
  rcases leaves_andThen_iff.mp h with h | ⟨active, hactive, h⟩
  · obtain rfl := left_of_ofExcept h
    exact .bothEnds hfloor hlower hupper rfl fun _ => hends.baseLiquidity
  · obtain rfl := left_of_ofExcept h
    obtain ⟨base, rfl, hbase⟩ := activate_eq_ok hactive
    refine .bothEnds hfloor hlower hupper rfl fun hzero => ?_
    subst hzero
    rw [← hends.baseLiquidity, ← BitVec.toNat_inj, hbase]
    split <;> rfl

/-- What is left has the liquidity of the position at the lower end. -/
theorem Remains.net (hless : lower < upper) (h : Remains pool left lower upper liquidity) :
    netOf left.records lower = netOf pool.records lower + liquidity.toNat := by
  cases h with
  | recorded _ hnet =>
    obtain ⟨net, hsum, rfl⟩ := changeNet_eq_ok hnet
    change netOf (pool.records.insert lower (recordWith pool lower net)) lower = _
    rw [netOf_insert, if_pos rfl, recordWith_liquidityNet, hsum]
  | lowerEnd hlower _ => rw [(endAdded_of_changeEnd hlower).nets, if_pos rfl]
  | @bothEnds raised ended base _ hlower hupper hleft _ =>
    have hrecords : left.records = ended.records := by rw [hleft]
    rw [hrecords, (endAdded_of_changeEnd hupper).nets, (endAdded_of_changeEnd hlower).nets,
      if_pos rfl, if_neg (Int.ne_of_gt hless), Int.add_zero]

/-- What is left of a position without liquidity is nothing new where nothing was missing. -/
theorem Remains.eq_iff (hless : lower < upper) (h : Remains pool left lower upper 0) :
    left = pool ↔ AddsNothing pool lower upper 0 := by
  unfold AddsNothing
  rw [eq_self, true_and]
  cases h with
  | recorded hfloor hnet =>
    rw [changeNet_zero_eq_iff hnet]
    exact (and_iff_left fun h => absurd h hfloor).symm
  | lowerEnd hlower hupper =>
    exact absurd (netFits_zero pool upper) hupper
  | @bothEnds raised ended base hfloor hlower hupper hleft hbase =>
    have hends := bothEnds_of_changeEnds hless hlower hupper
    obtain rfl : left = ended := by rw [hleft, hbase rfl, ← hends.baseLiquidity]
    rw [changeEnds_zero_eq_iff hlower hupper]
    exact ⟨fun h => ⟨h.1.1, fun _ => ⟨h.1.2, h.2⟩⟩,
      fun h => ⟨⟨h.1, (h.2 hfloor).1⟩, (h.2 hfloor).2⟩⟩

/-- When a position is refused, and what is left then. Of a rejected one nothing is left. Of any
other one the lower end keeps the liquidity, and the pool is as it was only where the position had
none and both its ends were there already. -/
theorem refused_positions (pool : Pool) (lower upper : Int) (liquidity : HalfWord) :
    ((∃ left failure, addPosition lower upper liquidity pool = (left, .error failure)) ↔
        Rejected pool lower upper liquidity ∨ Interrupted pool lower upper liquidity) ∧
      ∀ left failure, addPosition lower upper liquidity pool = (left, .error failure) →
        (left = pool ↔
          Rejected pool lower upper liquidity ∨ AddsNothing pool lower upper liquidity) ∧
        (¬ Rejected pool lower upper liquidity →
          netOf left.records lower = netOf pool.records lower + liquidity.toNat) := by
  refine ⟨?_, fun left failure h => ?_⟩
  · have hrefused : (∃ left, Leaves (addPosition lower upper liquidity) pool left) ↔ _ :=
      exists_leaves_iff.trans passes_addPosition_iff.not
    rw [not_and_or, not_not, not_not] at hrefused
    exact hrefused
  · rcases leaves_addPosition ⟨failure, h⟩ with ⟨hrejected, rfl⟩ | ⟨haccepted, hremains⟩
    · exact ⟨iff_of_true rfl (Or.inl hrejected), fun h => absurd hrejected h⟩
    · have hless := (not_rejected_iff.mp haccepted).1.1
      have hnet := hremains.net hless
      refine ⟨?_, fun _ => hnet⟩
      rw [or_iff_right haccepted]
      by_cases hzero : liquidity = 0
      · subst hzero
        exact hremains.eq_iff hless
      · refine iff_of_false (fun hsame => hzero ?_) fun hnothing => hzero hnothing.1
        rw [hsame] at hnet
        rw [← BitVec.toNat_inj]
        change liquidity.toNat = 0
        omega

/-- A position that its lower end has no room for leaves the pool as it was. -/
theorem refused_positions_full_tick :
    ∃ start held failure, Pool.create 1000 0x1000000000000000000000000 = .ok start ∧
      addPosition (-10) 20 (2 ^ 127 - 1) start = (held, .ok ()) ∧
      Rejected held (-10) 30 1 ∧ addPosition (-10) 30 1 held = (held, .error failure) := by
  have hrun : (do
      let start ← Pool.create 1000 0x1000000000000000000000000
      let held := addPosition (-10) 20 (2 ^ 127 - 1) start
      let left := addPosition (-10) 30 1 held.1
      return decide (held.2 = .ok () ∧ left.2 = .error (.arithmetic .overflow) ∧
        ¬ NetFits held.1.records (-10) 1)) = Except.ok true := by
    decide +kernel
  obtain ⟨start, hcreate, hrun⟩ := bind_eq_ok.mp hrun
  generalize hheld : addPosition (-10) 20 (2 ^ 127 - 1) start = first at hrun
  obtain ⟨held, outcome⟩ := first
  dsimp only at hrun
  generalize hleft : addPosition (-10) 30 1 held = second at hrun
  obtain ⟨left, refusal⟩ := second
  obtain ⟨rfl, rfl, hfull⟩ := of_decide_eq_true (Except.ok.inj hrun)
  have hrejected : Rejected held (-10) 30 1 := Or.inr (Or.inr hfull)
  obtain rfl := ((refused_positions held (-10) 30 1).2 left _ hleft).1.mpr (Or.inl hrejected)
  exact ⟨start, left, _, hcreate, hheld, hrejected, hleft⟩

/-- A position that its upper end has no room for leaves its lower end in a pool that is still
valid. -/
theorem refused_position_leaves_end :
    ∃ start held left failure, Pool.create 1000 0x1000000000000000000000000 = .ok start ∧
      addPosition (-10) 20 (2 ^ 127 - 1) start = (held, .ok ()) ∧
      addPosition (-20) 20 5 held = (left, .error failure) ∧ left.validate = .ok () ∧
      held.records.get? (-20) = none ∧ netOf left.records (-20) = 5 ∧
      held.index.contains (-20) = false ∧ left.index.contains (-20) = true ∧ left ≠ held := by
  have hrun : (do
      let start ← Pool.create 1000 0x1000000000000000000000000
      let held := addPosition (-10) 20 (2 ^ 127 - 1) start
      let left := addPosition (-20) 20 5 held.1
      return decide (held.2 = .ok () ∧ left.2 = .error (.arithmetic .underflow) ∧
        left.1.validate = .ok () ∧ held.1.records.get? (-20) = none ∧
        netOf left.1.records (-20) = 5 ∧ held.1.index.contains (-20) = false ∧
        left.1.index.contains (-20) = true)) = Except.ok true := by
    decide +kernel
  obtain ⟨start, hcreate, hrun⟩ := bind_eq_ok.mp hrun
  generalize hheld : addPosition (-10) 20 (2 ^ 127 - 1) start = first at hrun
  obtain ⟨held, outcome⟩ := first
  dsimp only at hrun
  generalize hleft : addPosition (-20) 20 5 held = second at hrun
  obtain ⟨left, refusal⟩ := second
  obtain ⟨rfl, rfl, hvalid, hnew, hnet, hbefore, hafter⟩ :=
    of_decide_eq_true (Except.ok.inj hrun)
  refine ⟨start, held, left, _, hcreate, hheld, hleft, hvalid, hnew, hnet, hbefore, hafter, ?_⟩
  intro hsame
  rw [hsame, hbefore] at hafter
  cases hafter

end Positions

end ReinvestingPool.Proofs.RefusedDeposits
