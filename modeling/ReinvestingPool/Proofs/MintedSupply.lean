import ReinvestingPool.Proofs.Deposits
import ReinvestingPool.Proofs.Resumptions
import ReinvestingPool.Proofs.RunFailures

/-!
The supply of reinvestment tokens against the liquidity behind them. Minting rounds down twice, so
the supply never grows by a larger factor than the reinvested liquidity does. In a pool that has
gone through a history there are never more tokens than there is liquidity, nor ever none.
-/

namespace ReinvestingPool.Proofs.MintedSupply

open Failures Words Directions SignedAmounts TickMaps TickIndexes Pools FeeMinting Runs
open Simulations Swaps PriceLimits Positions ExactQuotients Paths StepFrames Histories Deposits
open Resumptions SwapRuns RunFailures

/-- No token of the later state stands for less liquidity than one of the earlier state did. -/
structure Backed (s t : RunState) : Prop where
  ratio : t.reinvestmentSupply.toNat * s.reinvestedAtMint.toNat ≤
    s.reinvestmentSupply.toNat * t.reinvestedAtMint.toNat
  supply : s.reinvestmentSupply.toNat ≤ t.reinvestmentSupply.toNat
  atMint : s.reinvestedAtMint.toNat ≤ t.reinvestedAtMint.toNat

variable {trade : Trade} {index : TickIndex} {s t u final : RunState} {p q c : Point}
variable {records flipped : TickMap TickRecord} {pool last : Pool} {order : Order} {fill : Fill}
variable {outcome : Outcome} {minted governmentFee : Word}

theorem Backed.trans (hst : Backed s t) (htu : Backed t u) : Backed s u := by
  refine ⟨?_, Nat.le_trans hst.supply htu.supply, Nat.le_trans hst.atMint htu.atMint⟩
  have hfirst := hst.ratio
  have hsecond := htu.ratio
  have hgrows := hst.atMint
  generalize s.reinvestmentSupply.toNat = a at *
  generalize t.reinvestmentSupply.toNat = b at *
  generalize u.reinvestmentSupply.toNat = c at *
  generalize s.reinvestedAtMint.toNat = x at *
  generalize t.reinvestedAtMint.toNat = y at *
  generalize u.reinvestedAtMint.toNat = z at *
  rcases Nat.eq_zero_or_pos y with hzero | hpos
  · have hnone : x = 0 := by omega
    rw [hnone, Nat.mul_zero]
    exact Nat.zero_le _
  · refine Nat.le_of_mul_le_mul_right ?_ hpos
    calc
      c * x * y = c * y * x := Nat.mul_right_comm c x y
      _ ≤ b * z * x := Nat.mul_le_mul_right x hsecond
      _ = b * x * z := Nat.mul_right_comm b z x
      _ ≤ a * y * z := Nat.mul_le_mul_right z hfirst
      _ = a * z * y := Nat.mul_right_comm a y z

theorem backed_of_sameRange (h : SameRange s t) : Backed s t := by
  have hsupply := congrArg BitVec.toNat h.reinvestmentSupply
  have hatMint := congrArg BitVec.toNat h.reinvestedAtMint
  refine ⟨?_, Nat.le_of_eq hsupply.symm, Nat.le_of_eq hatMint.symm⟩
  rw [hsupply, hatMint]

/-- The share that is minted is no more than the growth since the last minting. -/
theorem baseShare_eq_ok {now last base share : Word} (h : baseShare now last base = .ok share) :
    last.toNat ≤ now.toNat ∧ share.toNat ≤ now.toNat - last.toNat := by
  obtain ⟨growth, hgrowth, h⟩ := bind_eq_ok.mp h
  obtain ⟨whole, hwhole, h⟩ := bind_eq_ok.mp h
  rw [subChecked_eq_ok] at hgrowth
  rw [addChecked_eq_ok] at hwhole
  obtain ⟨hpos, hshare⟩ := mulDivFloor_eq_ok.mp h
  refine ⟨by omega, ?_⟩
  calc
    share.toNat = base.toNat * growth.toNat / whole.toNat := hshare
    _ ≤ whole.toNat * growth.toNat / whole.toNat :=
      Nat.div_le_div_right (Nat.mul_le_mul_right _ (by omega))
    _ = growth.toNat := Nat.mul_div_cancel_left _ hpos
    _ = now.toNat - last.toNat := by omega

/-- The tokens that are minted raise the supply by no larger factor than the liquidity has grown. -/
theorem mintedTokens_eq_ok {now last base supply : Word}
    (h : mintedTokens now last base supply = .ok minted) :
    last.toNat ≤ now.toNat ∧
      (supply.toNat + minted.toNat) * last.toNat ≤ supply.toNat * now.toNat := by
  obtain ⟨share, hshare, h⟩ := bind_eq_ok.mp h
  obtain ⟨hgrows, hless⟩ := baseShare_eq_ok hshare
  obtain ⟨-, hminted⟩ := mulDivFloor_eq_ok.mp h
  refine ⟨hgrows, ?_⟩
  have hfloor : minted.toNat * last.toNat ≤ supply.toNat * share.toNat := by
    rw [hminted]
    exact Nat.div_mul_le_self _ _
  calc
    (supply.toNat + minted.toNat) * last.toNat
        = supply.toNat * last.toNat + minted.toNat * last.toNat := Nat.add_mul ..
    _ ≤ supply.toNat * last.toNat + supply.toNat * share.toNat := Nat.add_le_add_left hfloor _
    _ = supply.toNat * (last.toNat + share.toNat) := (Nat.mul_add ..).symm
    _ ≤ supply.toNat * now.toNat := Nat.mul_le_mul_left _ (by omega)

/-- Nothing is minted where no base liquidity has a share in the growth. -/
theorem base_pos_of_minted {now last base supply : Word}
    (h : mintedTokens now last base supply = .ok minted) (hminted : minted ≠ 0) : 0 < base.toNat := by
  refine Nat.pos_of_ne_zero fun hzero => hminted (BitVec.eq_of_toNat_eq ?_)
  obtain ⟨share, hshare, h⟩ := bind_eq_ok.mp h
  obtain ⟨growth, -, hshare⟩ := bind_eq_ok.mp hshare
  obtain ⟨whole, -, hshare⟩ := bind_eq_ok.mp hshare
  have hnone : share.toNat = 0 := by
    rw [(mulDivFloor_eq_ok.mp hshare).2, hzero, Nat.zero_mul, Nat.zero_div]
  rw [(mulDivFloor_eq_ok.mp h).2, hnone, Nat.mul_zero, Nat.zero_div]
  rfl

/-- All that is minted goes into the supply, whoever is given it. -/
theorem payOut_supply (h : s.payOut minted governmentFee = .ok t) :
    t.reinvestmentSupply.toNat = s.reinvestmentSupply.toNat + minted.toNat := by
  unfold RunState.payOut at h
  split at h
  · rename_i hnothing
    cases h
    rw [hnothing]
    rfl
  · obtain ⟨supply, hsupply, h⟩ := bind_eq_ok.mp h
    obtain ⟨growth, -, h⟩ := bind_eq_ok.mp h
    cases h
    exact addChecked_eq_ok.mp hsupply

theorem backed_of_mintFees (h : s.mintFees governmentFee = .ok t) : Backed s t := by
  have hframe := mintFees_frame h
  unfold RunState.mintFees at h
  split at h
  · cases h
  · obtain ⟨minted, hminted, h⟩ := bind_eq_ok.mp h
    obtain ⟨paid, hpaid, h⟩ := bind_eq_ok.mp h
    obtain ⟨hgrows, hratio⟩ := mintedTokens_eq_ok (liftArithmetic_eq_ok.mp hminted)
    have hsupply := payOut_supply (liftArithmetic_eq_ok.mp hpaid)
    cases h
    rw [toNat_widen _ (by decide), toNat_widen _ (by decide)] at hgrows hratio
    rw [← hsupply] at hratio
    exact ⟨hratio, by rw [hsupply]; exact Nat.le_add_right _ _, hgrows⟩

theorem backed_of_leaveRange (h : leaveRange trade index s records = .ok (t, flipped)) :
    Backed s t := by
  obtain ⟨minted, hminted, h⟩ := bind_eq_ok.mp h
  obtain ⟨beyond, next, -, rfl⟩ := RunState.cross_eq_ok.mp h
  have hbacked := backed_of_mintFees hminted
  rw [syncSeconds_frame] at hbacked
  exact ⟨hbacked.ratio, hbacked.supply, hbacked.atMint⟩

theorem backed_of_cross (h : advance trade index s records = .ok (.crossed t flipped)) :
    Backed s t := by
  obtain ⟨moved, hsteps, -, -, hleave⟩ := advance_crossed_iff.mp h
  have hlanded : SameRange s (landed trade.direction s moved) :=
    { sameRange_of_steps hsteps with }
  exact (backed_of_sameRange hlanded).trans (backed_of_leaveRange hleave)

theorem backed_of_moves (h : Moves trade index p q) : Backed p.1 q.1 := by
  cases h with
  | glide _ hglides => exact backed_of_sameRange (sameRange_of_glide hglides)
  | cross _ hcrosses => exact backed_of_cross hcrosses

theorem backed_of_reaches (h : Reaches trade index p q) : Backed p.1 q.1 := by
  induction h with
  | refl => exact ⟨Nat.le_refl _, Nat.le_refl _, Nat.le_refl _⟩
  | tail _ hmoves ih => exact ih.trans (backed_of_moves hmoves)

theorem backed_of_run (hreaches : Reaches trade index p c) (hends : Ends trade index c final) :
    Backed p.1 final :=
  (backed_of_reaches hreaches).trans (backed_of_sameRange (sameRange_of_ends hends))

theorem backed_of_simulate (h : simulate trade index s records = .ok outcome) :
    Backed s outcome.final := by
  obtain ⟨hreaches, hends⟩ := path_of_simulate h
  have hbacked := backed_of_run hreaches hends
  exact ⟨hbacked.ratio, hbacked.supply, hbacked.atMint⟩

/-- Where there are tokens with liquidity behind each of them, minting keeps it so. -/
theorem Backed.covered (h : Backed s t) (hleast : minLiquidity.toNat ≤ s.reinvestmentSupply.toNat)
    (hcovered : s.reinvestmentSupply.toNat ≤ s.reinvestedAtMint.toNat) :
    t.reinvestmentSupply.toNat ≤ t.reinvestedAtMint.toNat := by
  have hpos : 0 < s.reinvestedAtMint.toNat :=
    Nat.lt_of_lt_of_le (by decide) (Nat.le_trans hleast hcovered)
  refine Nat.le_of_mul_le_mul_right ?_ hpos
  calc
    t.reinvestmentSupply.toNat * s.reinvestedAtMint.toNat
        ≤ s.reinvestmentSupply.toNat * t.reinvestedAtMint.toNat := h.ratio
    _ ≤ s.reinvestedAtMint.toNat * t.reinvestedAtMint.toNat := Nat.mul_le_mul_right _ hcovered
    _ = t.reinvestedAtMint.toNat * s.reinvestedAtMint.toNat := Nat.mul_comm ..

/-- At least the tokens of a new pool, and no more of them than there is liquidity. -/
structure Covered (pool : Pool) : Prop where
  least : minLiquidity.toNat ≤ pool.reinvestmentSupply.toNat
  covered : pool.reinvestmentSupply.toNat ≤ pool.reinvestedAtMint.toNat

/-- A trade sets out with the tokens of the pool. -/
theorem Covered.entry {direction : Direction} {quantity : Amount} {entry : RunState}
    (hpool : Covered pool) (h : RunState.enter pool direction quantity = .ok entry) :
    minLiquidity.toNat ≤ entry.reinvestmentSupply.toNat ∧
      entry.reinvestmentSupply.toNat ≤ entry.reinvestedAtMint.toNat := by
  rw [(enter_eq_ok.mp h).2]
  exact ⟨hpool.least, hpool.covered⟩

theorem covered_of_create {swapFeeUnits : ShortWord} {sqrtPrice : Word}
    (h : Pool.create swapFeeUnits sqrtPrice = .ok pool) : Covered pool := by
  obtain ⟨⟨⟩, -, h⟩ := bind_eq_ok.mp h
  obtain ⟨tick, -, h⟩ := bind_eq_ok.mp h
  cases h
  exact ⟨Nat.le_refl _, Nat.le_refl _⟩

theorem covered_of_deposit {lower upper : Int} {liquidity : HalfWord} (hpool : Covered pool)
    (h : addPosition lower upper liquidity pool = (last, .ok ())) : Covered last := by
  rw [addPosition_frame h]
  exact ⟨hpool.least, hpool.covered⟩

theorem covered_of_swap (hpool : Covered pool) (h : swap pool order = .ok fill) :
    Covered fill.pool := by
  obtain ⟨entry, outcome, nearest, hrun, hlast⟩ := swap_eq_ok h
  have hbacked := backed_of_run hrun.reaches hrun.ends
  have hfirst := hpool.entry hrun.enter
  rw [hlast]
  exact ⟨Nat.le_trans hfirst.1 hbacked.supply, hbacked.covered hfirst.1 hfirst.2⟩

theorem covered_of_event {event : Event} (hpool : Covered pool) (h : event.apply pool = .ok last) :
    Covered last := by
  cases event with
  | deposit lower upper liquidity => exact covered_of_deposit hpool (apply_deposit_eq_ok.mp h)
  | trade order =>
    obtain ⟨fill, hfill, rfl⟩ := apply_trade_eq_ok.mp h
    exact covered_of_swap hpool hfill
  | clock blockTime =>
    cases h
    exact ⟨hpool.least, hpool.covered⟩
  | share governmentFeeUnits =>
    obtain ⟨⟨⟩, -, h⟩ := bind_eq_ok.mp h
    cases h
    exact ⟨hpool.least, hpool.covered⟩

theorem covered_of_reachable (h : Reachable pool) : Covered pool :=
  h.induction (fun hcreate => covered_of_create hcreate) (fun hpool happly =>
    covered_of_event hpool happly)

/-- On a pool with reinvestment tokens a swap never fails for want of them. -/
theorem swap_finds_supply (hpool : Covered pool) :
    swap pool order ≠ .error (.pool .noReinvestmentSupply) := by
  intro h
  rcases swap_eq_error h with hzero | hlimit | ⟨cause, hcause, hsame⟩ | ⟨q, hvisits, -, hfails⟩
  · cases hzero
  · cases hlimit
  · cases hsame
    rcases validate_eq_error hcause with hprice | ⟨units, hfee⟩ | hindex
    · cases hprice
    · cases hfee
    · cases hindex
  · rcases hvisits with ⟨entry, hentry, hreaches⟩
    have hbacked := backed_of_reaches hreaches
    rw [(enter_eq_ok.mp hentry).2] at hbacked
    have hsupply : pool.reinvestmentSupply.toNat ≤ q.1.reinvestmentSupply.toNat := hbacked.supply
    have hleast : minLiquidity.toNat ≤ q.1.reinvestmentSupply.toNat :=
      Nat.le_trans hpool.least hsupply
    rw [supply_of_advance hfails] at hleast
    exact absurd hleast (by decide)

/-- Minting never dilutes: over a run the supply grows by no larger factor than the liquidity of the
last minting. Every pool with a history has at least the tokens of a new one and no more than it has
liquidity, and no swap on it fails for want of tokens. -/
theorem minting_never_dilutes :
    (∀ (trade : Trade) (index : TickIndex) (s : RunState) (records : TickMap TickRecord)
      (outcome : Outcome), simulate trade index s records = .ok outcome →
        outcome.final.reinvestmentSupply.toNat * s.reinvestedAtMint.toNat ≤
          s.reinvestmentSupply.toNat * outcome.final.reinvestedAtMint.toNat) ∧
      ∀ pool, Reachable pool →
        (minLiquidity.toNat ≤ pool.reinvestmentSupply.toNat ∧
          pool.reinvestmentSupply.toNat ≤ pool.reinvestedAtMint.toNat) ∧
        ∀ order, swap pool order ≠ .error (.pool .noReinvestmentSupply) := by
  constructor
  · intro trade index s records outcome h
    exact (backed_of_simulate h).ratio
  · intro pool h
    have hpool := covered_of_reachable h
    exact ⟨⟨hpool.least, hpool.covered⟩, fun order => swap_finds_supply hpool⟩

/-- A sale that mints tokens for its fees where it crosses the end of a position. -/
theorem minting_never_dilutes_sale :
    ∃ start pool trade entry outcome,
      Pool.create 1000 0x1000000000000000000000000 = .ok start ∧
      replay start [.deposit (-60) 60 1000000000, .clock 12, .share 20000] = .ok pool ∧
      Trade.on pool .one .sell none = .ok trade ∧
      RunState.enter pool trade.direction ⟨3500000, by decide, by decide⟩ = .ok entry ∧
      simulate trade pool.index entry pool.records = .ok outcome ∧
      entry.reinvestmentSupply.toNat < outcome.final.reinvestmentSupply.toNat ∧
      outcome.final.reinvestmentSupply.toNat * entry.reinvestedAtMint.toNat ≤
        entry.reinvestmentSupply.toNat * outcome.final.reinvestedAtMint.toNat ∧
      (minLiquidity.toNat ≤ pool.reinvestmentSupply.toNat ∧
        pool.reinvestmentSupply.toNat ≤ pool.reinvestedAtMint.toNat) ∧
      ∀ order, swap pool order ≠ .error (.pool .noReinvestmentSupply) := by
  have hrun : (do
      let start ← liftPool (Pool.create 1000 0x1000000000000000000000000)
      let pool ← replay start [.deposit (-60) 60 1000000000, .clock 12, .share 20000]
      let trade ← (Trade.on pool .one .sell none).mapError .trade
      let entry ← liftPool (RunState.enter pool trade.direction ⟨3500000, by decide, by decide⟩)
      let outcome ← simulate trade pool.index entry pool.records
      return decide (entry.reinvestmentSupply.toNat < outcome.final.reinvestmentSupply.toNat)) =
        Except.ok true := by
    decide +kernel
  obtain ⟨start, hstart, hrun⟩ := bind_eq_ok.mp hrun
  obtain ⟨pool, hpool, hrun⟩ := bind_eq_ok.mp hrun
  obtain ⟨trade, htrade, hrun⟩ := bind_eq_ok.mp hrun
  obtain ⟨entry, hentry, hrun⟩ := bind_eq_ok.mp hrun
  obtain ⟨outcome, houtcome, hrun⟩ := bind_eq_ok.mp hrun
  have hminted := of_decide_eq_true (Except.ok.inj hrun)
  rw [liftPool_eq_ok] at hstart hentry
  rw [mapError_eq_ok] at htrade
  obtain ⟨hruns, hpools⟩ := minting_never_dilutes
  exact ⟨start, pool, trade, entry, outcome, hstart, hpool, htrade, hentry, houtcome, hminted,
    hruns _ _ _ _ _ houtcome, hpools pool ⟨_, _, start, _, hstart, hpool⟩⟩

end ReinvestingPool.Proofs.MintedSupply
