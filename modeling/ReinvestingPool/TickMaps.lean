/-!
Finite maps from ticks. The entries are kept in ascending order of their ticks, so two maps are
equal as soon as they hold the same value at every tick, and a walk over the entries is a walk
upwards through the prices.
-/

namespace ReinvestingPool.TickMaps

variable {α : Type}

/-- The ticks of a list of entries rise strictly. -/
def Rising (entries : List (Int × α)) : Prop := entries.Pairwise (fun a b => a.1 < b.1)

def find? (tick : Int) : List (Int × α) → Option α
  | [] => none
  | (t, a) :: rest => if t = tick then some a else find? tick rest

/-- Puts an entry at its place, over an entry of the same tick. -/
def put (tick : Int) (a : α) : List (Int × α) → List (Int × α)
  | [] => [(tick, a)]
  | (t, b) :: rest =>
      if tick < t then (tick, a) :: (t, b) :: rest
      else if t < tick then (t, b) :: put tick a rest
      else (tick, a) :: rest

theorem mem_put {tick : Int} {a : α} {entries : List (Int × α)} {e : Int × α}
    (h : e ∈ put tick a entries) : e = (tick, a) ∨ e ∈ entries := by
  induction entries with
  | nil => exact .inl (List.mem_singleton.mp h)
  | cons head rest ih =>
    obtain ⟨t, b⟩ := head
    simp only [put] at h
    split at h
    · exact (List.mem_cons.mp h).imp_right id
    · split at h
      · rcases List.mem_cons.mp h with h | h
        · exact .inr (h ▸ List.mem_cons_self)
        · exact (ih h).imp_right (List.mem_cons_of_mem _)
      · exact (List.mem_cons.mp h).imp_right (List.mem_cons_of_mem _)

theorem Rising.put {tick : Int} {a : α} {entries : List (Int × α)} (h : Rising entries) :
    Rising (put tick a entries) := by
  induction entries with
  | nil => exact List.pairwise_singleton _ _
  | cons head rest ih =>
    obtain ⟨t, b⟩ := head
    have above := (List.pairwise_cons.mp h).1
    have tail := (List.pairwise_cons.mp h).2
    simp only [TickMaps.put]
    split
    · rename_i lower
      refine List.pairwise_cons.mpr ⟨fun e he => ?_, h⟩
      rcases List.mem_cons.mp he with rfl | he
      · exact lower
      · exact Int.lt_trans lower (above e he)
    · rename_i notLower
      split
      · rename_i higher
        refine List.pairwise_cons.mpr ⟨fun e he => ?_, ih tail⟩
        rcases mem_put he with rfl | he
        · exact higher
        · exact above e he
      · rename_i notHigher
        have same : tick = t := by omega
        exact List.pairwise_cons.mpr ⟨fun e he => same ▸ above e he, tail⟩

theorem find?_eq_none_of_lt {tick : Int} {entries : List (Int × α)}
    (h : ∀ e ∈ entries, tick < e.1) : find? tick entries = none := by
  induction entries with
  | nil => rfl
  | cons head rest ih =>
    obtain ⟨t, b⟩ := head
    have lower : tick < t := h _ List.mem_cons_self
    simp only [find?]
    rw [if_neg (by omega), ih fun e he => h e (List.mem_cons_of_mem _ he)]

theorem above_of_rising {tick : Int} {a : α} {rest : List (Int × α)}
    (h : Rising ((tick, a) :: rest)) : ∀ e ∈ rest, tick < e.1 :=
  (List.pairwise_cons.mp h).1

/-- The first tick of a list is not missing from a list of the same values, so it is no lower. -/
theorem not_lt_of_find?_eq {t u : Int} {a b : α} {rest others : List (Int × α)}
    (hm : Rising ((u, b) :: others))
    (same : find? t ((t, a) :: rest) = find? t ((u, b) :: others)) : ¬ t < u := by
  intro lower
  have absent : find? t ((u, b) :: others) = none := by
    refine find?_eq_none_of_lt fun e he => ?_
    rcases List.mem_cons.mp he with rfl | he
    · exact lower
    · exact Int.lt_trans lower (above_of_rising hm e he)
  rw [absent] at same
  simp [find?] at same

/-- Two ascending lists in which every tick has the same value are equal. -/
theorem Rising.ext {l m : List (Int × α)} (hl : Rising l) (hm : Rising m)
    (same : ∀ tick, find? tick l = find? tick m) : l = m := by
  induction l generalizing m with
  | nil =>
    cases m with
    | nil => rfl
    | cons head rest =>
      have found := same head.1
      simp [find?] at found
  | cons head rest ih =>
    obtain ⟨t, a⟩ := head
    cases m with
    | nil =>
      have found := same t
      simp [find?] at found
    | cons other others =>
      obtain ⟨u, b⟩ := other
      have notLower := not_lt_of_find?_eq hm (same t)
      have notHigher := not_lt_of_find?_eq hl (same u).symm
      obtain rfl : t = u := by omega
      have value := same t
      simp only [find?, if_true, Option.some.injEq] at value
      have tails : rest = others := by
        refine ih (List.pairwise_cons.mp hl).2 (List.pairwise_cons.mp hm).2 fun key => ?_
        by_cases h : t = key
        · subst h
          rw [find?_eq_none_of_lt (above_of_rising hl), find?_eq_none_of_lt (above_of_rising hm)]
        · have found := same key
          simpa only [find?, if_neg h] using found
      rw [value, tails]

theorem find?_put {tick key : Int} {a : α} {entries : List (Int × α)} (h : Rising entries) :
    find? key (put tick a entries) = if tick = key then some a else find? key entries := by
  induction entries with
  | nil => simp only [put, find?]
  | cons head rest ih =>
    have tail := ih (List.pairwise_cons.mp h).2
    grind [put, find?]

theorem find?_map (tick key : Int) (f : α → α) (entries : List (Int × α)) :
    find? key (entries.map fun e => if e.1 = tick then (e.1, f e.2) else e) =
      if tick = key then (find? key entries).map f else find? key entries := by
  induction entries with
  | nil => simp [find?]
  | cons head rest ih => grind [find?]

theorem mem_of_find? {tick : Int} {a : α} {entries : List (Int × α)}
    (h : find? tick entries = some a) : (tick, a) ∈ entries := by
  induction entries with
  | nil => cases h
  | cons head rest ih =>
    simp only [find?] at h
    split at h
    · cases h
      rename_i same
      exact same ▸ List.mem_cons_self
    · exact List.mem_cons_of_mem _ (ih h)

theorem find?_of_mem {tick : Int} {a : α} {entries : List (Int × α)} (h : Rising entries)
    (hmem : (tick, a) ∈ entries) : find? tick entries = some a := by
  induction entries with
  | nil => cases hmem
  | cons head rest ih =>
    rcases List.mem_cons.mp hmem with rfl | hmem
    · simp only [find?, if_true]
    · have lower := above_of_rising h (tick, a) hmem
      simp only at lower
      simp only [find?]
      rw [if_neg (by omega)]
      exact ih (List.pairwise_cons.mp h).2 hmem

structure TickMap (α : Type) where
  entries : List (Int × α)
  rising : Rising entries

namespace TickMap

def empty : TickMap α := ⟨[], List.Pairwise.nil⟩

def get? (m : TickMap α) (tick : Int) : Option α := find? tick m.entries

def contains (m : TickMap α) (tick : Int) : Bool := (m.get? tick).isSome

def size (m : TickMap α) : Nat := m.entries.length

def ticks (m : TickMap α) : List Int := m.entries.map (·.1)

def insert (m : TickMap α) (tick : Int) (a : α) : TickMap α :=
  ⟨put tick a m.entries, m.rising.put⟩

/-- Changes the value at a tick, where there is one. -/
def modify (m : TickMap α) (tick : Int) (f : α → α) : TickMap α where
  entries := m.entries.map fun e => if e.1 = tick then (e.1, f e.2) else e
  rising := by
    refine List.pairwise_map.mpr (m.rising.imp ?_)
    intro a b h
    split <;> split <;> exact h

/-- The last entry of a tick counts. -/
def ofList (entries : List (Int × α)) : TickMap α :=
  entries.foldl (fun m e => m.insert e.1 e.2) empty

/-- The greatest tick of the map that is not above `tick`. -/
def floor? (m : TickMap α) (tick : Int) : Option Int :=
  (m.ticks.takeWhile (· ≤ tick)).getLast?

/-- How many entries are at `tick` or above it. -/
def countFrom (m : TickMap α) (tick : Int) : Nat := m.entries.countP (tick ≤ ·.1)

instance [DecidableEq α] : DecidableEq (TickMap α) := fun a b =>
  decidable_of_iff (a.entries = b.entries) (by
    constructor
    · intro h
      cases a
      cases b
      cases h
      rfl
    · exact fun h => h ▸ rfl)

@[ext] theorem ext {a b : TickMap α} (same : ∀ tick, a.get? tick = b.get? tick) : a = b := by
  obtain ⟨l, hl⟩ := a
  obtain ⟨m, hm⟩ := b
  obtain rfl : l = m := hl.ext hm same
  rfl

@[simp] theorem get?_empty (tick : Int) : (empty : TickMap α).get? tick = none := rfl

theorem get?_insert (m : TickMap α) (tick key : Int) (a : α) :
    (m.insert tick a).get? key = if tick = key then some a else m.get? key :=
  find?_put m.rising

theorem insert_insert (m : TickMap α) (tick : Int) (a b : α) :
    (m.insert tick b).insert tick a = m.insert tick a := by
  refine ext fun key => ?_
  rw [get?_insert, get?_insert, get?_insert]
  by_cases same : tick = key
  · rw [if_pos same, if_pos same]
  · rw [if_neg same, if_neg same, if_neg same]

theorem insert_comm (m : TickMap α) {tick key : Int} (a b : α) (h : tick ≠ key) :
    (m.insert tick a).insert key b = (m.insert key b).insert tick a := by
  refine ext fun other => ?_
  rw [get?_insert, get?_insert, get?_insert, get?_insert]
  by_cases same : tick = other
  · rw [if_pos same, if_neg fun other => h (same.trans other.symm), if_pos same]
  · rw [if_neg same, if_neg same]

theorem insert_of_get? {m : TickMap α} {tick : Int} {a : α} (h : m.get? tick = some a) :
    m.insert tick a = m := by
  refine ext fun key => ?_
  rw [get?_insert]
  by_cases same : tick = key
  · rw [if_pos same, ← same, h]
  · rw [if_neg same]

theorem get?_modify (m : TickMap α) (tick key : Int) (f : α → α) :
    (m.modify tick f).get? key = if tick = key then (m.get? key).map f else m.get? key :=
  find?_map tick key f m.entries

/-- Above an entry there are fewer entries than from it on. -/
theorem countFrom_lt {m : TickMap α} {tick next : Int} {a : α} (h : m.get? tick = some a)
    (lower : tick < next) : m.countFrom next < m.countFrom tick := by
  obtain ⟨before, after, split⟩ := List.append_of_mem (mem_of_find? h)
  have fewer : ∀ l : List (Int × α),
      l.countP (next ≤ ·.1) ≤ l.countP (tick ≤ ·.1) := fun l =>
    List.countP_mono_left fun e _ he => by
      simp only [decide_eq_true_eq] at he ⊢
      omega
  have one := fewer before
  have two := fewer after
  have notNext : ¬ next ≤ tick := by omega
  simp only [countFrom, split, List.countP_append, List.countP_cons, notNext, decide_false,
    Int.le_refl, decide_true]
  simp only [Bool.false_eq_true, if_false, if_true]
  omega

end TickMap

end ReinvestingPool.TickMaps
