import ReinvestingPool.Proofs.Resumptions
import ReinvestingPool.Proofs.RunCrossings

/-!
The seconds that a run accumulates. They are brought up to the time of the block at the first tick
that is crossed, before the active liquidity changes there, so that they are divided by the
liquidity with which the run set out. At the later crossings the block is no longer a later one.
-/

namespace ReinvestingPool.Proofs.BlockSeconds

open Failures Words TickMaps TickIndexes Pools Runs Simulations Paths StepFrames RunCrossings
open Resumptions Histories

variable {trade : Trade} {index : TickIndex} {s t u final : RunState} {p q c : Point}
variable {records flipped : TickMap TickRecord} {outcome : Outcome} {blockTime : ShortWord}

/-- Two states with the same seconds, updated at the same time. -/
structure SameSeconds (s t : RunState) : Prop where
  seconds : t.secondsPerLiquidity = s.secondsPerLiquidity
  updated : t.secondsUpdatedAt = s.secondsUpdatedAt

theorem SameSeconds.trans (hst : SameSeconds s t) (htu : SameSeconds t u) : SameSeconds s u :=
  ⟨htu.seconds.trans hst.seconds, htu.updated.trans hst.updated⟩

theorem SameSeconds.symm (h : SameSeconds s t) : SameSeconds t s :=
  ⟨h.seconds.symm, h.updated.symm⟩

theorem sameSeconds_of_sameRange (h : SameRange s t) : SameSeconds s t :=
  ⟨h.secondsPerLiquidity, h.secondsUpdatedAt⟩

section Update

theorem syncSeconds_of_le (h : blockTime ≤ s.secondsUpdatedAt) : s.syncSeconds blockTime = s :=
  if_pos h

/-- The time of the update is that of the block, unless it was a later one already. -/
theorem updatedAt_syncSeconds (s : RunState) (blockTime : ShortWord) :
    (s.syncSeconds blockTime).secondsUpdatedAt =
      if blockTime ≤ s.secondsUpdatedAt then s.secondsUpdatedAt else blockTime := by
  unfold RunState.syncSeconds
  split
  · rfl
  · rfl

/-- After an update no further one in the same block changes anything. -/
theorem blockTime_le_syncSeconds (s : RunState) (blockTime : ShortWord) :
    blockTime ≤ (s.syncSeconds blockTime).secondsUpdatedAt := by
  rw [updatedAt_syncSeconds]
  split
  · assumption
  · exact BitVec.le_refl _

/-- In a later block an update adds the seconds since the last one, for each unit of liquidity. -/
theorem syncSeconds_of_later (hlater : s.secondsUpdatedAt.toNat < trade.blockTime.toNat) :
    (s.syncSeconds trade.blockTime).secondsUpdatedAt = trade.blockTime ∧
      (s.syncSeconds trade.blockTime).secondsPerLiquidity.toNat =
        (s.secondsPerLiquidity.toNat +
          if s.baseLiquidity = 0 then 0
          else (trade.blockTime.toNat - s.secondsUpdatedAt.toNat) * 2 ^ 96 /
            s.baseLiquidity.toNat) % 2 ^ 128 := by
  constructor
  · rw [updatedAt_syncSeconds, if_neg]
    rw [BitVec.le_def]
    exact Nat.not_le.mpr hlater
  · rw [syncSeconds_growth, BitVec.toNat_add]
    unfold secondsEarned
    rw [BitVec.toNat_ofNat, Nat.add_mod_mod]
    split
    · rename_i hempty
      rw [hempty, show (0 : HalfWord).toNat = 0 from rfl, Nat.div_zero]
    · rfl

/-- An update depends on nothing but the active liquidity and the seconds so far. -/
theorem SameSeconds.sync (trade : Trade) (h : SameSeconds s t)
    (hbase : t.baseLiquidity = s.baseLiquidity) :
    SameSeconds (s.syncSeconds trade.blockTime) (t.syncSeconds trade.blockTime) := by
  constructor
  · rw [syncSeconds_growth, syncSeconds_growth, h.seconds]
    unfold secondsEarned
    rw [h.updated, hbase]
  · rw [updatedAt_syncSeconds, updatedAt_syncSeconds, h.updated]

theorem sameSeconds_of_leaveRange (h : leaveRange trade index s records = .ok (t, flipped)) :
    SameSeconds (s.syncSeconds trade.blockTime) t := by
  obtain ⟨minted, hminted, h⟩ := bind_eq_ok.mp h
  obtain ⟨beyond, next, -, rfl⟩ := RunState.cross_eq_ok.mp h
  have hframe := mintFees_frame hminted
  have hseconds := congrArg RunState.secondsPerLiquidity hframe
  have hupdated := congrArg RunState.secondsUpdatedAt hframe
  exact ⟨hseconds, hupdated⟩

/-- At a crossing the seconds are updated with the active liquidity of the range that is left. -/
theorem sameSeconds_of_cross (h : advance trade index s records = .ok (.crossed t flipped)) :
    SameSeconds (s.syncSeconds trade.blockTime) t := by
  obtain ⟨moved, hsteps, -, -, hleave⟩ := advance_crossed_iff.mp h
  have hlanded : SameRange s (landed trade.direction s moved) :=
    { sameRange_of_steps hsteps with }
  have hsame := (sameSeconds_of_sameRange hlanded).sync trade hlanded.baseLiquidity
  exact hsame.trans (sameSeconds_of_leaveRange hleave)

end Update

/-- What a run that has come from `s` to `t` has done to the seconds: nothing as long as it crossed
no tick, and from then on what a single update in `s` does. -/
inductive Synced (trade : Trade) (s t : RunState) : Prop
  | before (hcount : t.ticksCrossed = s.ticksCrossed) (hbase : t.baseLiquidity = s.baseLiquidity)
      (hsame : SameSeconds s t)
  | after (hcount : s.ticksCrossed < t.ticksCrossed)
      (hsame : SameSeconds (s.syncSeconds trade.blockTime) t)

theorem synced_self : Synced trade s s :=
  .before rfl rfl ⟨rfl, rfl⟩

theorem Synced.count_le (h : Synced trade s t) : s.ticksCrossed ≤ t.ticksCrossed := by
  cases h with
  | before hcount _ _ => exact Nat.le_of_eq hcount.symm
  | after hcount _ => exact Nat.le_of_lt hcount

theorem Synced.sameRange (h : Synced trade s t) (htu : SameRange t u) : Synced trade s u := by
  cases h with
  | before hcount hbase hsame =>
    exact .before (htu.ticksCrossed.trans hcount) (htu.baseLiquidity.trans hbase)
      (hsame.trans (sameSeconds_of_sameRange htu))
  | after hcount hsame =>
    exact .after (htu.ticksCrossed ▸ hcount) (hsame.trans (sameSeconds_of_sameRange htu))

/-- A further crossing finds the seconds up to date. -/
theorem Synced.cross (h : Synced trade s t)
    (hcrosses : advance trade index t records = .ok (.crossed u flipped)) : Synced trade s u := by
  obtain ⟨record, hcrossing⟩ := exists_crosses hcrosses
  have hcross := sameSeconds_of_cross hcrosses
  have hgrows := hcrossing.count
  cases h with
  | before hcount hbase hsame => exact .after (by omega) ((hsame.sync trade hbase).trans hcross)
  | after hcount hsame =>
    refine .after (by omega) (hsame.trans ?_)
    have hcurrent := blockTime_le_syncSeconds s trade.blockTime
    rw [← hsame.updated] at hcurrent
    rw [syncSeconds_of_le hcurrent] at hcross
    exact hcross

theorem synced_of_moves (h : Synced trade s p.1) (hmoves : Moves trade index p q) :
    Synced trade s q.1 := by
  cases hmoves with
  | glide _ hglides => exact h.sameRange (sameRange_of_glide hglides)
  | cross _ hcrosses => exact h.cross hcrosses

theorem synced_of_reaches (hreaches : Reaches trade index p q) : Synced trade p.1 q.1 := by
  induction hreaches with
  | refl => exact synced_self
  | tail _ hmoves ih => exact synced_of_moves ih hmoves

theorem synced_of_run (hreaches : Reaches trade index p c) (hends : Ends trade index c final) :
    Synced trade p.1 final :=
  (synced_of_reaches hreaches).sameRange (sameRange_of_ends hends)

/-- A run that succeeds leaves the seconds alone if it crosses no tick or the block is not a later
one than that of the last update. Otherwise it updates them to the time of the block once, with the
active liquidity with which it set out: before its first crossing a run has the seconds of its first
state, and from there on those of its end. -/
theorem block_seconds (h : simulate trade index s records = .ok outcome) :
    ((outcome.final.ticksCrossed = s.ticksCrossed ∨
        trade.blockTime.toNat ≤ s.secondsUpdatedAt.toNat) →
      outcome.final.secondsPerLiquidity = s.secondsPerLiquidity ∧
        outcome.final.secondsUpdatedAt = s.secondsUpdatedAt) ∧
    (outcome.final.ticksCrossed ≠ s.ticksCrossed →
      s.secondsUpdatedAt.toNat < trade.blockTime.toNat →
      outcome.final.secondsUpdatedAt = trade.blockTime ∧
        outcome.final.secondsPerLiquidity.toNat = (s.secondsPerLiquidity.toNat +
          if s.baseLiquidity = 0 then 0
          else (trade.blockTime.toNat - s.secondsUpdatedAt.toNat) * 2 ^ 96 /
            s.baseLiquidity.toNat) % 2 ^ 128) ∧
    ∀ q, Reaches trade index (underWay s, records) q →
      SameSeconds (if q.1.ticksCrossed = s.ticksCrossed then s else outcome.final) q.1 := by
  obtain ⟨hreaches, hends⟩ := path_of_simulate h
  have hrun := synced_of_run hreaches hends
  change Synced trade (underWay s) outcome.final at hrun
  refine ⟨fun hquiet => ?_, fun hcrossed hlater => ?_, fun q hq => ?_⟩
  · cases hrun with
    | before _ _ hsame => exact ⟨hsame.seconds, hsame.updated⟩
    | after hcount hsame =>
      rcases hquiet with hnone | hstale
      · exact absurd hnone (Nat.ne_of_gt hcount)
      · have hcurrent : trade.blockTime ≤ (underWay s).secondsUpdatedAt :=
          BitVec.le_def.mpr hstale
        rw [syncSeconds_of_le hcurrent] at hsame
        exact ⟨hsame.seconds, hsame.updated⟩
  · cases hrun with
    | before hcount _ _ => exact absurd hcount hcrossed
    | after _ hsame =>
      rw [hsame.seconds, hsame.updated]
      exact syncSeconds_of_later hlater
  · have hfirst := synced_of_reaches hq
    change Synced trade (underWay s) q.1 at hfirst
    cases hfirst with
    | before hcount _ hsame =>
      change q.1.ticksCrossed = s.ticksCrossed at hcount
      rw [if_pos hcount]
      exact ⟨hsame.seconds, hsame.updated⟩
    | after hcount hsame =>
      change s.ticksCrossed < q.1.ticksCrossed at hcount
      rw [if_neg (Nat.ne_of_gt hcount)]
      have hrest := synced_of_run (reaches_of_ends hq hreaches hends) hends
      have hgrows := hrest.count_le
      cases hrun with
      | before hnone _ _ =>
        change outcome.final.ticksCrossed = s.ticksCrossed at hnone
        omega
      | after _ hfinal => exact hfinal.symm.trans hsame

/-- A sale in a later block that crosses the upper ends of two positions, and the run from its
checkpoint. -/
theorem block_seconds_two_crossings :
    ∃ start pool trade entry outcome,
      Pool.create 1000 0x1000000000000000000000000 = .ok start ∧
      replay start [.deposit (-60) 60 1000000, .deposit (-120) 120 500000, .clock 12] = .ok pool ∧
      Trade.on pool .one .sell none = .ok trade ∧
      RunState.enter pool trade.direction ⟨7000, by decide, by decide⟩ = .ok entry ∧
      simulate trade pool.index entry pool.records = .ok outcome ∧
      outcome.final.ticksCrossed = 2 ∧ outcome.final.baseLiquidity ≠ entry.baseLiquidity ∧
      outcome.final.secondsUpdatedAt = 12 ∧
      outcome.final.secondsPerLiquidity.toNat = 12 * 2 ^ 96 / 1500000 ∧
      SameSeconds outcome.final (underWay outcome.checkpoint) ∧
      simulate trade pool.index outcome.checkpoint outcome.records =
        .ok ⟨outcome.final, outcome.checkpoint, outcome.records⟩ ∧
      outcome.final.secondsPerLiquidity = outcome.checkpoint.secondsPerLiquidity := by
  have hrun : (do
      let start ← liftPool (Pool.create 1000 0x1000000000000000000000000)
      let pool ← replay start [.deposit (-60) 60 1000000, .deposit (-120) 120 500000, .clock 12]
      let trade ← (Trade.on pool .one .sell none).mapError .trade
      let entry ← liftPool (RunState.enter pool trade.direction ⟨7000, by decide, by decide⟩)
      let outcome ← simulate trade pool.index entry pool.records
      return decide (outcome.final.ticksCrossed = 2 ∧
        outcome.final.baseLiquidity ≠ entry.baseLiquidity ∧ entry.ticksCrossed = 0 ∧
        entry.secondsUpdatedAt = 0 ∧ entry.secondsPerLiquidity = 0 ∧
        entry.baseLiquidity = 1500000 ∧ trade.blockTime = 12 ∧
        outcome.checkpoint.ticksCrossed = 2)) = Except.ok true := by
    decide +kernel
  obtain ⟨start, hstart, hrun⟩ := bind_eq_ok.mp hrun
  obtain ⟨pool, hpool, hrun⟩ := bind_eq_ok.mp hrun
  obtain ⟨trade, htrade, hrun⟩ := bind_eq_ok.mp hrun
  obtain ⟨entry, hentry, hrun⟩ := bind_eq_ok.mp hrun
  obtain ⟨outcome, houtcome, hrun⟩ := bind_eq_ok.mp hrun
  obtain ⟨hcount, hmoved, hzero, hupdated, hseconds, hbase, htime, hcheckpoint⟩ :=
    of_decide_eq_true (Except.ok.inj hrun)
  rw [liftPool_eq_ok] at hstart hentry
  rw [mapError_eq_ok] at htrade
  obtain ⟨hresumed, -⟩ := simulate_checkpoint houtcome
  obtain ⟨-, hlater, hpath⟩ := block_seconds houtcome
  obtain ⟨hquiet, -⟩ := block_seconds hresumed
  obtain ⟨htimed, hgrown⟩ := hlater (by rw [hcount, hzero]; decide)
    (by rw [hupdated, htime]; decide)
  have hlast := hpath _ (path_of_simulate houtcome).1
  have hpassed : ¬ (underWay outcome.checkpoint).ticksCrossed = entry.ticksCrossed := by
    change ¬ outcome.checkpoint.ticksCrossed = entry.ticksCrossed
    rw [hcheckpoint, hzero]
    decide
  rw [if_neg hpassed] at hlast
  refine ⟨start, pool, trade, entry, outcome, hstart, hpool, htrade, hentry, houtcome, hcount,
    hmoved, htimed.trans htime, ?_, hlast, hresumed, ?_⟩
  · rw [hgrown, hupdated, hseconds, hbase, htime]
    decide
  · exact (hquiet (Or.inl (hcount.trans hcheckpoint.symm))).1

end ReinvestingPool.Proofs.BlockSeconds
