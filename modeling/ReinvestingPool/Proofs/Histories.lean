import ReinvestingPool.Positions
import ReinvestingPool.Swaps

/-!
What happens to a pool after its creation. Positions are added, trades are committed, time passes
and the government changes its share of the fees; a pool that arises in this way is reachable.
-/

namespace ReinvestingPool.Proofs.Histories

open Failures Words Pools Positions PriceLimits Swaps

inductive Event
  | deposit (lower upper : Int) (liquidity : HalfWord)
  | trade (order : Order)
  | clock (blockTime : ShortWord)
  | share (governmentFeeUnits : ShortWord)
  deriving DecidableEq

/-- The pool after an event that is accepted. -/
def Event.apply (pool : Pool) : Event → Except Failure Pool
  | .deposit lower upper liquidity => do
    let (edited, accepted) := addPosition lower upper liquidity pool
    accepted
    return edited
  | .trade order => do
    return (← swap pool order).pool
  | .clock blockTime => .ok { pool with blockTime }
  | .share governmentFeeUnits => do
    liftPool (checkGovernmentFee governmentFeeUnits)
    return { pool with governmentFeeUnits }

def replay (pool : Pool) : List Event → Except Failure Pool
  | [] => .ok pool
  | event :: rest => do replay (← event.apply pool) rest

def Reachable (pool : Pool) : Prop :=
  ∃ swapFeeUnits sqrtPrice start events,
    Pool.create swapFeeUnits sqrtPrice = .ok start ∧ replay start events = .ok pool

theorem reachable_create {swapFeeUnits : ShortWord} {sqrtPrice : Word} {pool : Pool}
    (h : Pool.create swapFeeUnits sqrtPrice = .ok pool) : Reachable pool :=
  ⟨swapFeeUnits, sqrtPrice, pool, [], h, rfl⟩

variable {pool start last : Pool} {events : List Event} {event : Event}

theorem apply_deposit_eq_ok {lower upper : Int} {liquidity : HalfWord} :
    Event.apply pool (.deposit lower upper liquidity) = .ok last ↔
      addPosition lower upper liquidity pool = (last, .ok ()) := by
  change (addPosition lower upper liquidity pool).2 >>=
    (fun _ => .ok (addPosition lower upper liquidity pool).1) = .ok last ↔ _
  rw [bind_eq_ok]
  constructor
  · intro h
    rcases h with ⟨⟨⟩, haccepted, h⟩
    exact Prod.ext (Except.ok.inj h) haccepted
  · intro h
    exact ⟨(), congrArg Prod.snd h, congrArg (Except.ok ·.1) h⟩

theorem apply_trade_eq_ok {order : Order} :
    Event.apply pool (.trade order) = .ok last ↔ ∃ fill, swap pool order = .ok fill ∧
      fill.pool = last := by
  constructor
  · intro h
    obtain ⟨fill, hfill, h⟩ := bind_eq_ok.mp h
    cases h
    exact ⟨fill, hfill, rfl⟩
  · intro h
    rcases h with ⟨fill, hfill, rfl⟩
    exact bind_eq_ok.mpr ⟨fill, hfill, rfl⟩

theorem replay_cons_eq_ok :
    replay start (event :: events) = .ok last ↔
      ∃ next, event.apply start = .ok next ∧ replay next events = .ok last :=
  bind_eq_ok

/-- What new pools have and every event keeps, all reachable pools have. -/
theorem Reachable.induction {P : Pool → Prop} (h : Reachable pool)
    (hcreate : ∀ {swapFeeUnits sqrtPrice pool}, Pool.create swapFeeUnits sqrtPrice = .ok pool →
      P pool)
    (hevent : ∀ {pool event next}, P pool → Event.apply pool event = .ok next → P next) :
    P pool := by
  rcases h with ⟨swapFeeUnits, sqrtPrice, start, events, hstart, hreplay⟩
  have hfirst := hcreate hstart
  clear hstart
  induction events generalizing start with
  | nil => exact Except.ok.inj hreplay ▸ hfirst
  | cons event rest ih =>
    obtain ⟨next, happly, hrest⟩ := replay_cons_eq_ok.mp hreplay
    exact ih next hrest (hevent hfirst happly)

end ReinvestingPool.Proofs.Histories
