import ReinvestingPool.Failures
import ReinvestingPool.TickMaps
import ReinvestingPool.TickPrices

/-!
The index of initialized ticks. Every entry names its neighbour on either side, and the lowest and
the highest tick are always entries and lead to themselves at their outer side. An index read from
a text may break these rules; `validate` walks from the lowest tick upwards and accepts exactly the
indexes whose entries form one chain.
-/

namespace ReinvestingPool.TickIndexes

open Failures Directions TickMaps TickPrices

structure TickLink where
  previous : Int
  next : Int
  deriving DecidableEq

structure TickIndex where
  links : TickMap TickLink
  deriving DecidableEq

def TickLink.toward (link : TickLink) : Direction → Int
  | .rising => link.next
  | .falling => link.previous

/-- Whether `b` lies strictly beyond `a`. -/
def Beyond : Direction → Int → Int → Prop
  | .rising, a, b => a < b
  | .falling, a, b => b < a

instance (direction : Direction) (a b : Int) : Decidable (Beyond direction a b) := by
  cases direction <;> unfold Beyond <;> infer_instance

/-- Links the ticks of an ascending list to their neighbours, `previous` being the one before the
first. The last tick leads to itself. -/
def linkAll (previous : Int) : List Int → List (Int × TickLink)
  | [] => []
  | [last] => [(last, ⟨previous, last⟩)]
  | tick :: next :: rest => (tick, ⟨previous, next⟩) :: linkAll tick (next :: rest)

namespace TickIndex

/-- The index of a pool without positions. -/
def empty : TickIndex where
  links := TickMap.ofList [(minTick, ⟨minTick, maxTick⟩), (maxTick, ⟨minTick, maxTick⟩)]

/-- The index of the given ticks, in any order and with repetitions. -/
def ofTicks (ticks : List Int) : Except PoolFailure TickIndex :=
  if ticks.all fun tick => minTick ≤ tick ∧ tick ≤ maxTick then
    let present := TickMap.ofList ((minTick :: maxTick :: ticks).map (·, ()))
    .ok ⟨TickMap.ofList (linkAll minTick present.ticks)⟩
  else
    .error .tickOutOfBounds

def get? (index : TickIndex) (tick : Int) : Option TickLink := index.links.get? tick

def contains (index : TickIndex) (tick : Int) : Bool := index.links.contains tick

def size (index : TickIndex) : Nat := index.links.size

def linkAt (index : TickIndex) (tick : Int) : Except PoolFailure TickLink :=
  match index.get? tick with
  | some link => .ok link
  | none => .error (.tickNotInitialized tick)

def next (index : TickIndex) (tick : Int) : Except PoolFailure Int := do
  return (← index.linkAt tick).next

def previous (index : TickIndex) (tick : Int) : Except PoolFailure Int := do
  return (← index.linkAt tick).previous

/-- The neighbour of a tick, which has to lie beyond it. -/
def advance (index : TickIndex) (tick : Int) (direction : Direction) : Except PoolFailure Int := do
  let neighbour := (← index.linkAt tick).toward direction
  if Beyond direction tick neighbour then return neighbour
  else throw (.indexExhausted tick direction)

/-- The greatest entry at or below a tick. -/
def nearest (index : TickIndex) (tick : Int) : Except PoolFailure Int :=
  if minTick ≤ tick ∧ tick ≤ maxTick then
    match index.links.floor? tick with
    | some entry => .ok entry
    | none => .error (.tickNotInitialized minTick)
  else
    .error .tickOutOfBounds

/-- Puts a tick between two neighbours. -/
def splice (index : TickIndex) (previous tick next : Int) : TickIndex where
  links := ((index.links.insert tick ⟨previous, next⟩).modify previous
    fun link => { link with next := tick }).modify next fun link => { link with previous := tick }

/-- Adds a tick, and says whether it was absent. -/
def insert (index : TickIndex) (tick : Int) : Except PoolFailure (TickIndex × Bool) :=
  if tick ≤ minTick ∨ maxTick ≤ tick then
    .error .tickOutOfBounds
  else if index.contains tick then
    .ok (index, false)
  else do
    let previous ← index.nearest tick
    let next ← index.next previous
    return (index.splice previous tick next, true)

/-- The ticks met on the way up from `tick`, as long as the links rise. -/
def ticksFrom (index : TickIndex) (tick : Int) : List Int :=
  tick :: match _ : index.links.get? tick with
    | some link => if tick < link.next then index.ticksFrom link.next else []
    | none => []
termination_by index.links.countFrom tick
decreasing_by
  rename_i found rises
  exact TickMap.countFrom_lt found rises

/-- The ticks met on the way up from the lowest one. -/
def ticks (index : TickIndex) : List Int :=
  if index.contains minTick then index.ticksFrom minTick else []

/-- The outer sides of the two ends have to lead to the ends themselves. -/
def checkEnds (index : TickIndex) : Except PoolFailure Unit := do
  let lowest ← index.linkAt minTick
  let highest ← index.linkAt maxTick
  if lowest.previous ≠ minTick then throw (.brokenLink minTick)
  if highest.next ≠ maxTick then throw (.brokenLink maxTick)

/-- Walks from `tick` up to the highest tick, where every link has to rise and to be returned, and
counts the entries on the way. -/
def walk (index : TickIndex) (tick : Int) (visited : Nat) : Except PoolFailure Nat :=
  if tick = maxTick then
    .ok visited
  else
    match _ : index.links.get? tick with
    | none => .error (.tickNotInitialized tick)
    | some link =>
      if link.next ≤ tick then
        .error (.unsortedIndex tick)
      else
        match index.links.get? link.next with
        | none => .error (.tickNotInitialized link.next)
        | some successor =>
          if successor.previous = tick then index.walk link.next (visited + 1)
          else .error (.brokenLink link.next)
termination_by index.links.countFrom tick
decreasing_by
  rename_i _ found rises _
  exact TickMap.countFrom_lt found (Int.not_le.mp rises)

/-- The lowest entry to which its neighbour below does not lead. -/
def stray? (index : TickIndex) : Option Int :=
  (index.links.entries.find? fun (tick, link) =>
    tick ≠ minTick ∧ (index.get? link.previous).map (·.next) ≠ some tick).map (·.1)

/-- Accepts an index whose entries form one chain from the lowest tick to the highest. -/
def validate (index : TickIndex) : Except PoolFailure Unit := do
  index.checkEnds
  let visited ← index.walk minTick 1
  if visited ≠ index.size then throw (.brokenLink (index.stray?.getD maxTick))

theorem beyond_of_advance {index : TickIndex} {tick neighbour : Int} {direction : Direction}
    (h : index.advance tick direction = .ok neighbour) : Beyond direction tick neighbour := by
  obtain ⟨link, -, h⟩ := bind_eq_ok.mp h
  simp only at h
  split at h
  · cases h
    assumption
  · cases h

end TickIndex

end ReinvestingPool.TickIndexes
