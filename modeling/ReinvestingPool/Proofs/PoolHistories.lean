import ReinvestingPool.Proofs.Deposits
import ReinvestingPool.Proofs.Histories
import ReinvestingPool.Proofs.PriceTicks

/-!
Consistency over the history of a pool. It holds from the creation on and is kept by every event but
a trade that skips an entry, so a history is consistent throughout exactly where none of its trades
does that.
-/

namespace ReinvestingPool.Proofs.PoolHistories

open Failures Words TickMaps TickPrices TickIndexes Pools Histories IndexChains TickLadder
open PriceTicks ActiveLiquidity Deposits

variable {pool start next last : Pool} {event : Event} {events rest : List Event}

/-- Whether an event is a trade that skips an entry. -/
def EventSkips (pool : Pool) : Event → Prop
  | .trade order => Skips pool order
  | .deposit _ _ _ => False
  | .clock _ => False
  | .share _ => False

/-- Some trade of a history skips an entry on the pool that it is made on. -/
def SkipsWithin (start : Pool) (events : List Event) : Prop :=
  ∃ before event after pool, events = before ++ event :: after ∧
    replay start before = .ok pool ∧ EventSkips pool event

/-- Every pool of a history is consistent. -/
def ConsistentThroughout (start : Pool) (events : List Event) : Prop :=
  ∀ before after pool, events = before ++ after → replay start before = .ok pool →
    Consistent pool

theorem aligned_of_create {swapFeeUnits : ShortWord} {sqrtPrice : Word}
    (h : Pool.create swapFeeUnits sqrtPrice = .ok pool) : Aligned pool := by
  obtain ⟨⟨⟩, -, h⟩ := bind_eq_ok.mp h
  obtain ⟨tick, htick, h⟩ := bind_eq_ok.mp h
  cases h
  obtain ⟨⟨hlow, hhigh⟩, hreached, hshort⟩ := tickAt_eq_ok htick
  refine ⟨⟨rfl, rfl, hlow, fun other hother hle => ?_⟩, fun other hother => ?_,
    ⟨hlow, hhigh, hreached, Nat.le_of_lt hshort⟩⟩
  · rcases contains_empty.mp hother with rfl | rfl
    · exact Int.le_refl _
    · change maxTick ≤ tick at hle
      omega
  · cases hother

theorem event_consistent_iff (hpool : Aligned pool) (h : event.apply pool = .ok last) :
    Consistent last ↔ ¬ EventSkips pool event := by
  cases event with
  | deposit lower upper liquidity =>
    have hlast := aligned_of_deposit hpool (apply_deposit_eq_ok.mp h)
    exact iff_of_true hlast.toConsistent not_false
  | trade order =>
    obtain ⟨fill, hfill, rfl⟩ := apply_trade_eq_ok.mp h
    exact swap_consistent_iff hpool hfill
  | clock blockTime =>
    cases h
    exact iff_of_true ⟨hpool.base, hpool.nearest⟩ not_false
  | share governmentFeeUnits =>
    obtain ⟨⟨⟩, -, h⟩ := bind_eq_ok.mp h
    cases h
    exact iff_of_true ⟨hpool.base, hpool.nearest⟩ not_false

/-- A pool that an event leaves consistent is aligned again. -/
theorem aligned_of_event (hpool : Aligned pool) (h : event.apply pool = .ok last)
    (hconsistent : Consistent last) : Aligned last := by
  cases event with
  | deposit lower upper liquidity => exact aligned_of_deposit hpool (apply_deposit_eq_ok.mp h)
  | trade order =>
    obtain ⟨fill, hfill, rfl⟩ := apply_trade_eq_ok.mp h
    exact aligned_of_swap hpool hfill hconsistent
  | clock blockTime =>
    cases h
    exact ⟨hconsistent, hpool.indexed, hpool.within⟩
  | share governmentFeeUnits =>
    obtain ⟨⟨⟩, -, h⟩ := bind_eq_ok.mp h
    cases h
    exact ⟨hconsistent, hpool.indexed, hpool.within⟩

theorem throughout_nil_iff : ConsistentThroughout start [] ↔ Consistent start := by
  constructor
  · intro hall
    exact hall [] [] start rfl rfl
  · intro hstart before after pool hsplit hbefore
    obtain ⟨rfl, -⟩ := List.append_eq_nil_iff.mp hsplit.symm
    exact Except.ok.inj hbefore ▸ hstart

theorem throughout_cons_iff (h : event.apply start = .ok next) :
    ConsistentThroughout start (event :: rest) ↔
      Consistent start ∧ ConsistentThroughout next rest := by
  constructor
  · intro hall
    refine ⟨hall [] (event :: rest) start rfl rfl, fun before after pool hsplit hbefore => ?_⟩
    exact hall (event :: before) after pool (congrArg (event :: ·) hsplit)
      (replay_cons_eq_ok.mpr ⟨next, h, hbefore⟩)
  · rintro ⟨hstart, hrest⟩ before after pool hsplit hbefore
    cases before with
    | nil => exact Except.ok.inj hbefore ▸ hstart
    | cons first before =>
      obtain ⟨rfl, htail⟩ := List.cons.inj hsplit
      obtain ⟨other, hother, hbefore⟩ := replay_cons_eq_ok.mp hbefore
      rw [h] at hother
      obtain rfl := Except.ok.inj hother
      exact hrest before after pool htail hbefore

theorem skipsWithin_cons_iff (h : event.apply start = .ok next) :
    SkipsWithin start (event :: rest) ↔ EventSkips start event ∨ SkipsWithin next rest := by
  constructor
  · intro hgiven
    rcases hgiven with ⟨before, skipping, after, pool, hsplit, hbefore, hskips⟩
    cases before with
    | nil =>
      obtain ⟨rfl, -⟩ := List.cons.inj hsplit
      exact Or.inl (Except.ok.inj hbefore ▸ hskips)
    | cons first before =>
      obtain ⟨rfl, htail⟩ := List.cons.inj hsplit
      obtain ⟨other, hother, hbefore⟩ := replay_cons_eq_ok.mp hbefore
      rw [h] at hother
      obtain rfl := Except.ok.inj hother
      exact Or.inr ⟨before, skipping, after, pool, htail, hbefore, hskips⟩
  · intro hgiven
    rcases hgiven with hskips | ⟨before, skipping, after, pool, rfl, hbefore, hskips⟩
    · exact ⟨[], event, rest, start, rfl, rfl, hskips⟩
    · exact ⟨event :: before, skipping, after, pool, rfl,
        replay_cons_eq_ok.mpr ⟨next, h, hbefore⟩, hskips⟩

/-- From an aligned pool on, consistency is lost where a trade skips an entry, and only there. -/
theorem throughout_iff_of_aligned (hstart : Aligned start) (h : replay start events = .ok last) :
    ConsistentThroughout start events ↔ ¬ SkipsWithin start events := by
  induction events generalizing start with
  | nil =>
    refine iff_of_true (throughout_nil_iff.mpr hstart.toConsistent) ?_
    intro hgiven
    rcases hgiven with ⟨before, event, after, pool, hsplit, -⟩
    cases before with
    | nil => cases hsplit
    | cons first before => cases hsplit
  | cons event rest ih =>
    obtain ⟨next, happly, hrest⟩ := replay_cons_eq_ok.mp h
    have hevent := event_consistent_iff hstart happly
    rw [throughout_cons_iff happly, skipsWithin_cons_iff happly, not_or, ← hevent]
    constructor
    · intro hgiven
      rcases hgiven with ⟨-, hall⟩
      have hnext : Consistent next := hall [] rest next rfl rfl
      have haligned := aligned_of_event hstart happly hnext
      exact ⟨hnext, (ih haligned hrest).mp hall⟩
    · intro hgiven
      rcases hgiven with ⟨hnext, hnone⟩
      have haligned := aligned_of_event hstart happly hnext
      exact ⟨hstart.toConsistent, (ih haligned hrest).mpr hnone⟩

/-- A pool has been consistent ever since its creation exactly where none of its trades has skipped
an entry. -/
theorem consistent_throughout_iff {swapFeeUnits : ShortWord} {sqrtPrice : Word}
    (hcreate : Pool.create swapFeeUnits sqrtPrice = .ok start)
    (h : replay start events = .ok last) :
    ConsistentThroughout start events ↔ ¬ SkipsWithin start events :=
  throughout_iff_of_aligned (aligned_of_create hcreate) h

/-- A purchase that stops short of the upper end of the only position. -/
theorem consistent_after_purchase :
    ∃ start last, Pool.create 1000 215741891466632630180687188482 = .ok start ∧
      replay start [.deposit 20000 20040 900000,
        .trade ⟨.one, ⟨500, by decide, by decide⟩, maxSqrtPrice - 1⟩] = .ok last ∧
      ¬ SkipsWithin start [.deposit 20000 20040 900000,
        .trade ⟨.one, ⟨500, by decide, by decide⟩, maxSqrtPrice - 1⟩] := by
  have hrun : (do
      let start ← liftPool (Pool.create 1000 215741891466632630180687188482)
      let held ← Event.apply start (.deposit 20000 20040 900000)
      let last ← Event.apply held
        (.trade ⟨.one, ⟨500, by decide, by decide⟩, maxSqrtPrice - 1⟩)
      return decide (Consistent start ∧ Consistent held ∧ Consistent last)) =
        Except.ok true := by
    decide +kernel
  obtain ⟨start, hstart, hrun⟩ := bind_eq_ok.mp hrun
  obtain ⟨held, hheld, hrun⟩ := bind_eq_ok.mp hrun
  obtain ⟨last, hlast, hrun⟩ := bind_eq_ok.mp hrun
  obtain ⟨hfirst, hsecond, hthird⟩ := of_decide_eq_true (Except.ok.inj hrun)
  have hcreate := liftPool_eq_ok.mp hstart
  have htrade : replay held [.trade ⟨.one, ⟨500, by decide, by decide⟩, maxSqrtPrice - 1⟩] =
      .ok last := replay_cons_eq_ok.mpr ⟨last, hlast, rfl⟩
  have hreplay := replay_cons_eq_ok.mpr ⟨held, hheld, htrade⟩
  refine ⟨start, last, hcreate, hreplay, (consistent_throughout_iff hcreate hreplay).mp ?_⟩
  rw [throughout_cons_iff hheld, throughout_cons_iff hlast, throughout_nil_iff]
  exact ⟨hfirst, hsecond, hthird⟩

/-- A purchase of a few units more ends above that end, which it has not crossed. -/
theorem inconsistent_after_purchase : ¬ ∀ pool, Reachable pool → Consistent pool := by
  intro hclaim
  have hrun : (do
      let start ← liftPool (Pool.create 1000 215741891466632630180687188482)
      let last ← replay start [.deposit 20000 20040 900000,
        .trade ⟨.one, ⟨542, by decide, by decide⟩, maxSqrtPrice - 1⟩]
      return decide (Consistent last)) = Except.ok false := by
    decide +kernel
  obtain ⟨start, hstart, hrun⟩ := bind_eq_ok.mp hrun
  obtain ⟨last, hlast, hrun⟩ := bind_eq_ok.mp hrun
  have hnot := of_decide_eq_false (Except.ok.inj hrun)
  exact hnot (hclaim last ⟨_, _, start, _, liftPool_eq_ok.mp hstart, hlast⟩)

end ReinvestingPool.Proofs.PoolHistories
