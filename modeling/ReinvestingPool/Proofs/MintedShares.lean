import ReinvestingPool.Proofs.StepSpans

/-!
For whom a run mints reinvestment tokens. What a crossing mints is divided between the government
and the providers of liquidity, and the part of the providers is added to the growth of fees. The
sums are taken in words that wrap around, but there are never more tokens than there is liquidity,
so that they are exact.
-/

namespace ReinvestingPool.Proofs.MintedShares

open Failures Words Directions Scales SignedAmounts TickMaps TickIndexes Pools FeeMinting Runs
open Simulations ExactQuotients Paths StepFrames Histories Resumptions SwapRuns MintedSupply
open StepSpans

variable {trade : Trade} {index : TickIndex} {s t landing final : RunState} {p q c : Point}
variable {records flipped : TickMap TickRecord} {pool : Pool} {minted governmentFee : Word}
variable {units amount : Nat}

/-- The part of newly minted tokens that is the government's. -/
def governmentShare (units minted : Nat) : Nat := minted * units / 100000

/-- Between two states so many tokens are minted, and divided without a remainder. -/
structure Mints (units : Nat) (s t : RunState) (minted : Nat) : Prop where
  supply : t.reinvestmentSupply.toNat = s.reinvestmentSupply.toNat + minted
  government : t.governmentTokens.toNat = s.governmentTokens.toNat + governmentShare units minted
  providers : t.providerTokens.toNat =
    s.providerTokens.toNat + (minted - governmentShare units minted)
  growth : t.feeGrowth.toNat = (s.feeGrowth.toNat +
    (minted - governmentShare units minted) * 2 ^ 96 / s.baseLiquidity.toNat) % 2 ^ 256
  atMint : t.reinvestedAtMint = t.reinvestedLiquidity
  idle : s.baseLiquidity = 0 → minted = 0

/-- The tokens which the formula has for the liquidity that fees left are minted and divided. -/
def MintsFees (units : Nat) (s t : RunState) : Prop :=
  ∃ minted, mintedTokens (widen t.reinvestedLiquidity) (widen s.reinvestedAtMint)
    (widen s.baseLiquidity) s.reinvestmentSupply = .ok minted ∧ Mints units s t minted.toNat

/-- All tokens that have been added to the supply since `first` were given to someone. -/
def Divided (first s : RunState) : Prop :=
  s.reinvestmentSupply.toNat =
    first.reinvestmentSupply.toNat + s.governmentTokens.toNat + s.providerTokens.toNat

theorem governmentShare_le (amount : Nat) (h : units ≤ 100000) :
    governmentShare units amount ≤ amount :=
  Nat.div_le_of_le_mul (by rw [Nat.mul_comm 100000]; exact Nat.mul_le_mul_left amount h)

theorem Divided.mints {first : RunState} (h : Divided first s) (hunits : units ≤ 100000)
    (hmints : Mints units s t amount) : Divided first t := by
  have hshare := governmentShare_le amount hunits
  unfold Divided at h ⊢
  rw [hmints.supply, hmints.government, hmints.providers]
  omega

theorem Divided.held {first : RunState} (h : Divided first s) :
    s.governmentTokens.toNat + s.providerTokens.toNat ≤ s.reinvestmentSupply.toNat := by
  unfold Divided at h
  omega

section Minting

/-- Tokens that fit in half a word are divided exactly. -/
theorem toNat_share (hfee : governmentFee.toNat ≤ 100000) (hfits : minted.toNat < 2 ^ 128) :
    (minted * governmentFee / feeUnit).toNat = governmentShare governmentFee.toNat minted.toNat ∧
      (minted - minted * governmentFee / feeUnit).toNat =
        minted.toNat - governmentShare governmentFee.toNat minted.toNat := by
  have hproduct : minted.toNat * governmentFee.toNat < 2 ^ 256 :=
    calc
      minted.toNat * governmentFee.toNat ≤ 2 ^ 128 * 100000 :=
        Nat.mul_le_mul (Nat.le_of_lt hfits) hfee
      _ < 2 ^ 256 := by decide
  have hshare : (minted * governmentFee / feeUnit).toNat =
      governmentShare governmentFee.toNat minted.toNat := by
    rw [BitVec.toNat_udiv, BitVec.toNat_mul, Nat.mod_eq_of_lt hproduct, toNat_feeUnit]
    rfl
  have hle := governmentShare_le minted.toNat hfee
  refine ⟨hshare, ?_⟩
  rw [BitVec.toNat_sub_of_le (BitVec.le_def.mpr (by omega)), hshare]

theorem payOut_divides (h : s.payOut minted governmentFee = .ok t)
    (hfee : governmentFee.toNat ≤ 100000)
    (hheld : s.governmentTokens.toNat + s.providerTokens.toNat ≤ s.reinvestmentSupply.toNat)
    (hsupply : t.reinvestmentSupply.toNat < 2 ^ 128) :
    t.governmentTokens.toNat =
        s.governmentTokens.toNat + governmentShare governmentFee.toNat minted.toNat ∧
      t.providerTokens.toNat = s.providerTokens.toNat +
        (minted.toNat - governmentShare governmentFee.toNat minted.toNat) ∧
      t.feeGrowth.toNat = (s.feeGrowth.toNat +
        (minted.toNat - governmentShare governmentFee.toNat minted.toNat) * 2 ^ 96 /
          s.baseLiquidity.toNat) % 2 ^ 256 := by
  have hgrown := payOut_supply h
  obtain ⟨hshare, hrest⟩ := toNat_share hfee (by omega : minted.toNat < 2 ^ 128)
  have hle := governmentShare_le minted.toNat hfee
  unfold RunState.payOut at h
  split at h
  · cases h
    have hzero : minted.toNat = 0 := by omega
    rw [hzero] at hle ⊢
    rw [Nat.le_zero.mp hle, Nat.sub_zero, Nat.zero_mul, Nat.zero_div]
    exact ⟨rfl, rfl, (Nat.mod_eq_of_lt s.feeGrowth.isLt).symm⟩
  · obtain ⟨supply, -, h⟩ := bind_eq_ok.mp h
    obtain ⟨growth, hgrowth, h⟩ := bind_eq_ok.mp h
    obtain ⟨-, hvalue⟩ := mulDivFloor_eq_ok.mp hgrowth
    cases h
    rw [hrest, toNat_priceUnit, toNat_widen _ (by decide)] at hvalue
    refine ⟨?_, ?_, ?_⟩
    · rw [BitVec.toNat_add, hshare, Nat.mod_eq_of_lt (by omega)]
    · rw [BitVec.toNat_add, hrest, Nat.mod_eq_of_lt (by omega)]
    · rw [BitVec.toNat_add, hvalue]

theorem mints_of_mintFees (h : s.mintFees governmentFee = .ok t)
    (hfee : governmentFee.toNat ≤ 100000)
    (hheld : s.governmentTokens.toNat + s.providerTokens.toNat ≤ s.reinvestmentSupply.toNat)
    (hsupply : t.reinvestmentSupply.toNat < 2 ^ 128) :
    MintsFees governmentFee.toNat s t := by
  unfold RunState.mintFees at h
  split at h
  · cases h
  · obtain ⟨minted, hminted, h⟩ := bind_eq_ok.mp h
    obtain ⟨paid, hpaid, h⟩ := bind_eq_ok.mp h
    rw [liftArithmetic_eq_ok] at hminted hpaid
    have hframe := payOut_frame hpaid
    have hkept := congrArg RunState.reinvestedLiquidity hframe
    have hgrown := payOut_supply hpaid
    cases h
    obtain ⟨hgovernment, hproviders, hgrowth⟩ := payOut_divides hpaid hfee hheld hsupply
    refine ⟨minted, ?_, hgrown, hgovernment, hproviders, hgrowth, hkept.symm, ?_⟩
    · change mintedTokens (widen paid.reinvestedLiquidity) _ _ _ = _
      rw [hkept]
      exact hminted
    · intro hempty
      by_contra hsome
      have hpos := base_pos_of_minted hminted fun hnone => hsome (by rw [hnone]; rfl)
      rw [hempty] at hpos
      exact absurd hpos (by decide)

theorem mints_of_leaveRange (h : leaveRange trade index s records = .ok (t, flipped))
    (hfee : trade.governmentFee.toNat ≤ 100000)
    (hheld : s.governmentTokens.toNat + s.providerTokens.toNat ≤ s.reinvestmentSupply.toNat)
    (hsupply : t.reinvestmentSupply.toNat < 2 ^ 128) :
    MintsFees trade.governmentFee.toNat s t := by
  obtain ⟨paid, hpaid, hcross⟩ := bind_eq_ok.mp h
  obtain ⟨beyond, next, -, rfl⟩ := RunState.cross_eq_ok.mp hcross
  rw [syncSeconds_frame] at hpaid
  obtain ⟨minted, hminted, hmints⟩ := mints_of_mintFees hpaid hfee hheld hsupply
  exact ⟨minted, hminted, hmints.supply, hmints.government, hmints.providers, hmints.growth,
    hmints.atMint, hmints.idle⟩

/-- What is minted since a state does not depend on the steps taken within its range. -/
theorem Mints.of_sameRange (h : Mints units landing t amount) (hsame : SameRange s landing) :
    Mints units s t amount := by
  obtain ⟨hsupply, hgovernment, hproviders, hgrowth, hatMint, hidle⟩ := h
  rw [hsame.reinvestmentSupply] at hsupply
  rw [hsame.governmentTokens] at hgovernment
  rw [hsame.providerTokens] at hproviders
  rw [hsame.feeGrowth, hsame.baseLiquidity] at hgrowth
  rw [hsame.baseLiquidity] at hidle
  exact ⟨hsupply, hgovernment, hproviders, hgrowth, hatMint, hidle⟩

/-- A crossing mints for the liquidity of the range that it leaves. -/
theorem mints_of_cross (h : advance trade index s records = .ok (.crossed t flipped))
    (hfee : trade.governmentFee.toNat ≤ 100000)
    (hheld : s.governmentTokens.toNat + s.providerTokens.toNat ≤ s.reinvestmentSupply.toNat)
    (hsupply : t.reinvestmentSupply.toNat < 2 ^ 128) :
    MintsFees trade.governmentFee.toNat s t := by
  obtain ⟨moved, hsteps, -, -, hleave⟩ := advance_crossed_iff.mp h
  have hsame : SameRange s (landed trade.direction s moved) :=
    { sameRange_of_steps hsteps with }
  rw [← hsame.governmentTokens, ← hsame.providerTokens, ← hsame.reinvestmentSupply] at hheld
  obtain ⟨minted, hminted, hmints⟩ := mints_of_leaveRange hleave hfee hheld hsupply
  rw [hsame.reinvestedAtMint, hsame.baseLiquidity, hsame.reinvestmentSupply] at hminted
  exact ⟨minted, hminted, hmints.of_sameRange hsame⟩

end Minting

section Runs

variable {first : RunState}

/-- A trade sets out with tokens, behind each of which there is some liquidity. -/
structure Endowed (trade : Trade) (first : RunState) : Prop where
  fee : trade.governmentFee.toNat ≤ 100000
  least : minLiquidity.toNat ≤ first.reinvestmentSupply.toNat
  covered : first.reinvestmentSupply.toNat ≤ first.reinvestedAtMint.toNat

theorem supply_lt (h : Endowed trade first) (hbacked : Backed first s) :
    s.reinvestmentSupply.toNat < 2 ^ 128 :=
  Nat.lt_of_le_of_lt (hbacked.covered h.least h.covered) s.reinvestedAtMint.isLt

theorem divided_of_sameRange (h : Divided first s) (hsame : SameRange s t) : Divided first t := by
  unfold Divided at h ⊢
  rw [hsame.reinvestmentSupply, hsame.governmentTokens, hsame.providerTokens]
  exact h

theorem divided_of_moves (h : Endowed trade first) (hbacked : Backed first p.1)
    (hdivided : Divided first p.1) (hmoves : Moves trade index p q) : Divided first q.1 := by
  have hsupply := supply_lt h (hbacked.trans (backed_of_moves hmoves))
  cases hmoves with
  | glide _ hglides => exact divided_of_sameRange hdivided (sameRange_of_glide hglides)
  | cross _ hcrosses =>
    obtain ⟨minted, -, hmints⟩ := mints_of_cross hcrosses h.fee hdivided.held hsupply
    exact hdivided.mints h.fee hmints

theorem divided_of_reaches (h : Endowed trade p.1) (hfirst : Divided p.1 p.1)
    (hreaches : Reaches trade index p q) : Divided p.1 q.1 := by
  induction hreaches with
  | refl => exact hfirst
  | tail hreached hmoves ih => exact divided_of_moves h (backed_of_reaches hreached) ih hmoves

theorem mints_of_run (h : Endowed trade p.1) (hfirst : Divided p.1 p.1)
    (hreaches : Reaches trade index p (s, records))
    (hcrosses : advance trade index s records = .ok (.crossed t flipped)) :
    MintsFees trade.governmentFee.toNat s t := by
  have hdivided := divided_of_reaches h hfirst hreaches
  have hbacked := (backed_of_reaches hreaches).trans (backed_of_cross hcrosses)
  exact mints_of_cross hcrosses h.fee hdivided.held (supply_lt h hbacked)

end Runs

section Trades

variable {token : Token} {side : Side} {limit : Option Word} {entry : RunState}
variable {quantity : Amount} {outcome : Outcome}

theorem governmentFee_of_tradeOn (h : Trade.on pool token side limit = .ok trade) :
    trade.governmentFee = widen pool.governmentFeeUnits := by
  unfold Trade.on at h
  simp only at h
  split at h
  · cases h
    rfl
  · cases h

theorem endowed_of_reachable (hpool : Reachable pool)
    (htrade : Trade.on pool token side limit = .ok trade)
    (hentry : RunState.enter pool trade.direction quantity = .ok entry) :
    Endowed trade entry := by
  obtain ⟨hleast, hcovered⟩ := (covered_of_reachable hpool).entry hentry
  obtain ⟨-, -, hfee, -⟩ := validate_iff.mp (sound_of_reachable hpool).valid
  refine ⟨?_, hleast, hcovered⟩
  rw [governmentFee_of_tradeOn htrade, toNat_widen _ (by decide)]
  unfold checkGovernmentFee at hfee
  split at hfee
  · rename_i hle
    rw [toNat_feeUnit] at hle
    exact hle
  · cases hfee

theorem divided_of_enter {direction : Direction}
    (h : RunState.enter pool direction quantity = .ok entry) : Divided entry entry := by
  unfold Divided
  rw [(enter_eq_ok.mp h).2]
  rfl

/-- On a pool with a history every run gives all that it mints to the government and the providers.
Each crossing mints what the formula says, gives the government its part of it, rounded down, and
adds the rest to the growth of fees for each unit of the liquidity that was active before; the
liquidity of the last minting is then that of the state, and without active liquidity nothing is
minted. -/
theorem minted_shares (hpool : Reachable pool)
    (htrade : Trade.on pool token side limit = .ok trade)
    (hentry : RunState.enter pool trade.direction quantity = .ok entry)
    (h : simulate trade pool.index entry pool.records = .ok outcome) :
    outcome.final.reinvestmentSupply.toNat = entry.reinvestmentSupply.toNat +
        outcome.final.governmentTokens.toNat + outcome.final.providerTokens.toNat ∧
      ∀ s records t flipped, Reaches trade pool.index (entry, pool.records) (s, records) →
        advance trade pool.index s records = .ok (.crossed t flipped) →
        ∃ minted, mintedTokens (widen t.reinvestedLiquidity) (widen s.reinvestedAtMint)
            (widen s.baseLiquidity) s.reinvestmentSupply = .ok minted ∧
          Mints pool.governmentFeeUnits.toNat s t minted.toNat := by
  have hendowed := endowed_of_reachable hpool htrade hentry
  have hfirst := divided_of_enter hentry
  have hfee : trade.governmentFee.toNat = pool.governmentFeeUnits.toNat := by
    rw [governmentFee_of_tradeOn htrade, toNat_widen _ (by decide)]
  constructor
  · rw [simulate_enter _ _ _ hentry] at h
    obtain ⟨hreaches, hends⟩ := runFrom_eq_ok.mp h
    have hdivided := divided_of_reaches hendowed hfirst hreaches
    exact divided_of_sameRange hdivided (sameRange_of_ends hends)
  · intro s records t flipped hreaches hcrosses
    rw [← hfee]
    exact mints_of_run hendowed hfirst hreaches hcrosses

/-- A sale that mints tokens where it crosses the end of a position, a fifth of them for the
government. -/
theorem minted_shares_sale :
    ∃ start pool trade entry outcome t flipped minted,
      Pool.create 1000 0x1000000000000000000000000 = .ok start ∧
      replay start [.deposit (-60) 60 1000000000, .clock 12, .share 20000] = .ok pool ∧
      Trade.on pool .one .sell none = .ok trade ∧
      RunState.enter pool trade.direction ⟨3500000, by decide, by decide⟩ = .ok entry ∧
      simulate trade pool.index entry pool.records = .ok outcome ∧
      advance trade pool.index entry pool.records = .ok (.crossed t flipped) ∧
      0 < governmentShare 20000 minted ∧ Mints 20000 entry t minted ∧
      outcome.final.reinvestmentSupply.toNat = entry.reinvestmentSupply.toNat +
        outcome.final.governmentTokens.toNat + outcome.final.providerTokens.toNat := by
  have hrun : (do
      let start ← liftPool (Pool.create 1000 0x1000000000000000000000000)
      let pool ← replay start [.deposit (-60) 60 1000000000, .clock 12, .share 20000]
      let trade ← (Trade.on pool .one .sell none).mapError .trade
      let entry ← liftPool (RunState.enter pool trade.direction ⟨3500000, by decide, by decide⟩)
      let outcome ← simulate trade pool.index entry pool.records
      let progress ← advance trade pool.index entry pool.records
      return match progress with
        | .crossed t _ => decide (pool.governmentFeeUnits = 20000 ∧ 0 < t.governmentTokens.toNat)
        | _ => false) = Except.ok true := by
    decide +kernel
  obtain ⟨start, hstart, hrun⟩ := bind_eq_ok.mp hrun
  obtain ⟨pool, hpool, hrun⟩ := bind_eq_ok.mp hrun
  obtain ⟨trade, htrade, hrun⟩ := bind_eq_ok.mp hrun
  obtain ⟨entry, hentry, hrun⟩ := bind_eq_ok.mp hrun
  obtain ⟨outcome, houtcome, hrun⟩ := bind_eq_ok.mp hrun
  obtain ⟨progress, hadvance, hrun⟩ := bind_eq_ok.mp hrun
  rw [liftPool_eq_ok] at hstart hentry
  rw [mapError_eq_ok] at htrade
  cases progress with
  | stopped => cases hrun
  | glided => cases hrun
  | crossed t flipped =>
    obtain ⟨hunits, hshare⟩ := of_decide_eq_true (Except.ok.inj hrun)
    have hreachable : Reachable pool := ⟨_, _, start, _, hstart, hpool⟩
    obtain ⟨hsupply, hcrossings⟩ := minted_shares hreachable htrade hentry houtcome
    obtain ⟨minted, -, hmints⟩ := hcrossings _ _ _ _ .refl hadvance
    have hnone : entry.governmentTokens.toNat = 0 := by
      rw [(enter_eq_ok.mp hentry).2]
      rfl
    have hgiven := hmints.government
    rw [hunits] at hmints hgiven
    rw [hnone, Nat.zero_add] at hgiven
    rw [hgiven] at hshare
    exact ⟨start, pool, trade, entry, outcome, t, flipped, minted.toNat, hstart, hpool, htrade,
      hentry, houtcome, hadvance, hshare, hmints, hsupply⟩

end Trades

end ReinvestingPool.Proofs.MintedShares
