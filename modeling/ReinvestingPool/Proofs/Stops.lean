import ReinvestingPool.Proofs.Cursors
import ReinvestingPool.Proofs.PriceTicks
import ReinvestingPool.Proofs.RunEnds

/-!
Where a run stops inside a range. The price has gone on from where the step began, so its tick has
not gone back. It has passed an entry ahead exactly where the rest price overruns the price of
that entry; a step that ends at the limit passes none.
-/

namespace ReinvestingPool.Proofs.Stops

open Words Directions TickMaps TickPrices TickIndexes Runs Simulations RestPrices StepEnds Paths
open StepFrames RunEnds Cursors TickLadder PriceTicks

/-- Whether a tick is not behind another one in the direction of travel. -/
def Onward (direction : Direction) (a b : Int) : Prop :=
  match direction with
  | .rising => a ≤ b
  | .falling => b ≤ a

/-- Whether a current tick has passed a tick that was ahead. -/
def PastTick (direction : Direction) (current tick : Int) : Prop :=
  match direction with
  | .rising => tick ≤ current
  | .falling => current < tick

/-- Whether a price has passed that of a tick. -/
def PastPrice (direction : Direction) (price : Nat) (tick : Int) : Prop :=
  match direction with
  | .rising => ratio tick ≤ price
  | .falling => price < ratio tick

/-- The rest price of a step overruns the price of a tick. -/
def Passes (u : Usage) (tick : Int) : Prop :=
  u.Overruns (match u.direction with
    | .rising => ratio tick
    | .falling => ratio tick - 1)

theorem ratio_pos {tick : Int} (hlow : minTick ≤ tick) (hhigh : tick ≤ maxTick) :
    0 < ratio tick := by
  have hbound := ratio_mono (Int.le_refl minTick) hlow hhigh
  rw [ratio_minTick] at hbound
  exact Nat.lt_of_lt_of_le (by decide) hbound

theorem passes_iff (u : Usage) (hscale : 0 < u.scale.2) {tick : Int} (hlow : minTick ≤ tick)
    (hhigh : tick ≤ maxTick) : PastPrice u.direction u.restPrice tick ↔ Passes u tick := by
  have hpos := ratio_pos hlow hhigh
  have hshort := fun target => u.before_restPrice_iff target hscale
  unfold PastPrice Passes
  unfold Before at hshort
  cases hdirection : u.direction with
  | rising =>
    simp only [hdirection] at hshort ⊢
    rw [← not_iff_not, ← hshort]
    exact Nat.not_le
  | falling =>
    simp only [hdirection] at hshort ⊢
    rw [← not_iff_not, ← hshort]
    omega

variable {trade : Trade} {index : TickIndex} {direction : Direction} {s moved last : RunState}
variable {tick : Int}

theorem onward_self (direction : Direction) (tick : Int) : Onward direction tick tick := by
  cases direction with
  | rising => exact Int.le_refl tick
  | falling => exact Int.le_refl tick

/-- A step that does not go to the edge goes to a limit that comes before it. -/
theorem aim_eq_limit (h : aim trade s ≠ edgePrice trade.direction s) :
    aim trade s = trade.limit ∧
      Before trade.direction trade.limit.toNat (edgePrice trade.direction s).toNat := by
  unfold aim at h ⊢
  generalize edgePrice trade.direction s = edge at h ⊢
  revert h
  unfold targetPrice Before
  cases trade.direction with
  | rising =>
    simp only
    intro h
    by_cases hless : trade.limit < edge
    · rw [if_pos hless]
      exact ⟨rfl, hless⟩
    · rw [if_neg hless] at h
      exact absurd rfl h
  | falling =>
    simp only
    intro h
    by_cases hle : edge ≤ trade.limit
    · rw [if_pos hle] at h ⊢
      refine ⟨rfl, ?_⟩
      have hdiffers : trade.limit.toNat ≠ edge.toNat := fun hsame => h (BitVec.eq_of_toNat_eq hsame)
      rw [BitVec.le_def] at hle
      omega
    · rw [if_neg hle] at h
      exact absurd rfl h

/-- The state in which a run stops short of the edge. -/
structure Stop (trade : Trade) (s moved last : RunState) : Prop where
  steps : Steps trade s moved
  off : moved.sqrtPrice ≠ edgePrice trade.direction s
  located : moved.locate s.sqrtPrice = .ok last

/-- A run whose checkpoint is not over stops in the range ahead. -/
theorem exists_stop {p : Point} {final : RunState} (h : Ends trade index p final)
    (hopen : ¬ p.1.Over trade.limit) :
    ∃ moved last, Stop trade p.1 moved last ∧ final = last.finish := by
  cases h with
  | finished hover => exact absurd hover hopen
  | stop _ hstop =>
    obtain ⟨moved, hsteps, hoff, hlocate⟩ := advance_stopped_iff.mp hstop
    exact ⟨moved, _, ⟨hsteps, hoff, hlocate⟩, rfl⟩

/-- The price of a stop is not behind the price at which the step began. -/
theorem not_behind (h : Stop trade s moved last) (hfee : trade.swapFee.toNat ≤ 200000)
    (hlimit : Before trade.direction s.sqrtPrice.toNat trade.limit.toNat) :
    ¬ Before trade.direction moved.sqrtPrice.toNat s.sqrtPrice.toNat := by
  rcases steps_ends h.steps with ⟨-, haim⟩ | ⟨-, -, hscale, hrest⟩
  · have hoff := h.off
    rw [haim] at hoff
    rw [haim, (aim_eq_limit hoff).1]
    exact not_before_of_before hlimit
  · rw [hrest]
    exact restPrice_not_before (restUsage trade s) hscale hfee

/-- The tick of a stop belongs to its price, and it has not gone back. -/
theorem located_within (h : Stop trade s moved last) (hwithin : Within s.currentTick s.sqrtPrice)
    (hforward : ¬ Before trade.direction moved.sqrtPrice.toNat s.sqrtPrice.toNat) :
    Within last.currentTick moved.sqrtPrice ∧
      Onward trade.direction s.currentTick last.currentTick := by
  obtain ⟨hlow, hhigh, hreached, hshort⟩ := hwithin
  obtain ⟨-, ⟨hstay, hsame⟩ | ⟨hmove, htick⟩⟩ := locate_eq_ok h.located
  · have hkept : last.currentTick = s.currentTick := hsame.trans (steps_frame h.steps).1
    rw [hkept, hstay]
    exact ⟨⟨hlow, hhigh, hreached, hshort⟩, onward_self _ _⟩
  · obtain ⟨⟨hfrom, hto⟩, hat, hnext⟩ := tickAt_eq_ok htick
    refine ⟨⟨hfrom, hto, hat, Nat.le_of_lt hnext⟩, ?_⟩
    have hdiffers : moved.sqrtPrice.toNat ≠ s.sqrtPrice.toNat :=
      fun hequal => hmove (BitVec.eq_of_toNat_eq hequal)
    unfold Before at hforward
    unfold Onward
    cases hdirection : trade.direction with
    | rising =>
      simp only [hdirection] at hforward ⊢
      exact (le_tickAt_iff htick hlow (Int.le_of_lt hhigh)).mpr (by omega)
    | falling =>
      simp only [hdirection] at hforward ⊢
      by_contra hback
      have hreached : ratio (s.currentTick + 1) ≤ moved.sqrtPrice.toNat :=
        (le_tickAt_iff htick (by omega) (by omega)).mp (by omega)
      omega

theorem toNat_edgePrice (h : Steps trade s moved) :
    (edgePrice trade.direction s).toNat = ratio (edgeTick trade.direction s) :=
  toNat_ratio h.1.1 h.1.2

/-- A price that belongs to the current tick, and is not on the edge ahead, is past nothing that
lies ahead. -/
theorem not_past_of_still {current next edge : Int} {price : Word} (hwithin : Within current price)
    (hbetween : Between direction current edge next) (hoff : price.toNat ≠ ratio edge)
    (hlow : minTick ≤ tick) (hhigh : tick ≤ maxTick) (honward : Onward direction next tick) :
    ¬ PastTick direction current tick ∧ ¬ PastPrice direction price.toNat tick := by
  obtain ⟨hfrom, hto, hreached, hshort⟩ := hwithin
  cases direction with
  | rising =>
    simp only [Between, Onward, PastTick, PastPrice] at hbetween honward ⊢
    have hfirst := ratio_mono (a := current + 1) (b := edge) (by omega) (by omega) (by omega)
    have hsecond := ratio_mono (a := edge) (b := tick) (by omega) (by omega) hhigh
    omega
  | falling =>
    simp only [Between, Onward, PastTick, PastPrice] at hbetween honward ⊢
    have hfirst := ratio_mono hlow (b := current) (by omega) (by omega)
    omega

/-- A stop is past a tick ahead exactly where its price is past the price of that tick. -/
theorem pastTick_iff (h : Stop trade s moved last) (hwithin : Within s.currentTick s.sqrtPrice)
    (hahead : Ahead index trade.direction s.currentTick s.nextTick) (hlow : minTick ≤ tick)
    (hhigh : tick ≤ maxTick) (honward : Onward trade.direction s.nextTick tick) :
    PastTick trade.direction last.currentTick tick ↔
      PastPrice trade.direction moved.sqrtPrice.toNat tick := by
  obtain ⟨-, ⟨hstay, hsame⟩ | ⟨-, htick⟩⟩ := locate_eq_ok h.located
  · have hoff : moved.sqrtPrice.toNat ≠ (edgePrice trade.direction s).toNat :=
      fun hedge => h.off (BitVec.eq_of_toNat_eq hedge)
    rw [toNat_edgePrice h.steps, hstay] at hoff
    obtain ⟨hbehind, hshort⟩ := not_past_of_still hwithin (between_edgeTick hahead) hoff hlow hhigh
      honward
    rw [hsame, (steps_frame h.steps).1, hstay]
    exact iff_of_false hbehind hshort
  · have hreached := le_tickAt_iff htick hlow hhigh
    cases trade.direction with
    | rising => exact hreached
    | falling =>
      change last.currentTick < tick ↔ moved.sqrtPrice.toNat < ratio tick
      rw [← Int.not_le, ← Nat.not_le, not_iff_not]
      exact hreached

/-- A step that the amount covers stops at the limit, short of the entry ahead. -/
theorem not_past_of_covered (h : Stop trade s moved last) (hcovered : ¬ UsesUp trade s)
    (hahead : Ahead index trade.direction s.currentTick s.nextTick) (hlow : minTick ≤ s.nextTick)
    (hhigh : s.nextTick ≤ maxTick) :
    ¬ PastPrice trade.direction moved.sqrtPrice.toNat s.nextTick := by
  have hbetween := between_edgeTick hahead
  have hedge := toNat_edgePrice h.steps
  obtain ⟨hinside, -⟩ := h.steps
  rcases steps_ends h.steps with ⟨-, haim⟩ | ⟨huses, -⟩
  · have hoff := h.off
    rw [haim] at hoff
    obtain ⟨hlimit, hshort⟩ := aim_eq_limit hoff
    rw [haim, hlimit]
    rw [hedge] at hshort
    cases hdirection : trade.direction with
    | rising =>
      simp only [hdirection, Between, Before, PastPrice] at hbetween hshort hinside ⊢
      have hupTo := ratio_mono hinside.1 hbetween.2 hhigh
      omega
    | falling =>
      simp only [hdirection, Between, Before, PastPrice] at hbetween hshort hinside ⊢
      have hdownTo := ratio_mono hlow hbetween.1 hinside.2
      omega
  · exact absurd huses hcovered

theorem usesUp_of_past (h : Stop trade s moved last) (hwithin : Within s.currentTick s.sqrtPrice)
    (hahead : Ahead index trade.direction s.currentTick s.nextTick) (hlow : minTick ≤ s.nextTick)
    (hhigh : s.nextTick ≤ maxTick)
    (hpast : PastTick trade.direction last.currentTick s.nextTick) : UsesUp trade s := by
  by_contra hcovered
  have hself := onward_self trade.direction s.nextTick
  have hprice := (pastTick_iff h hwithin hahead hlow hhigh hself).mp hpast
  exact not_past_of_covered h hcovered hahead hlow hhigh hprice

/-- A stop that uses up the amount is past a tick ahead exactly where its rest price passes it. -/
theorem pastTick_iff_passes (h : Stop trade s moved last)
    (hwithin : Within s.currentTick s.sqrtPrice)
    (hahead : Ahead index trade.direction s.currentTick s.nextTick) (huses : UsesUp trade s)
    (hlow : minTick ≤ tick) (hhigh : tick ≤ maxTick)
    (honward : Onward trade.direction s.nextTick tick) :
    PastTick trade.direction last.currentTick tick ↔ Passes (restUsage trade s) tick := by
  rcases steps_ends h.steps with ⟨hnot, -⟩ | ⟨-, -, hscale, hrest⟩
  · exact absurd huses hnot
  · rw [pastTick_iff h hwithin hahead hlow hhigh honward, hrest]
    exact passes_iff (restUsage trade s) hscale hlow hhigh

end ReinvestingPool.Proofs.Stops
