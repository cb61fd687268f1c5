import Mathlib.Data.List.Forall2
import Mathlib.Data.List.Nodup
import Mathlib.Data.List.Perm.Basic
import ReinvestingPool.PoolText
import ReinvestingPool.Proofs.BuiltIndexes

/-!
The order of the members of an object. A reader of fields looks each one up by its name, and a
reader of a map from ticks puts each entry at its tick, so that neither depends on it. Only where a
tick is given twice does it matter which of the two comes last.
-/

namespace ReinvestingPool.Proofs.MemberOrders

open TickMaps Pools JsonTrees PoolText

section Lists

variable {α β γ : Type} {f : α → Option β} {g : List β → Option γ} {l m : List α}
variable {results : List β}

theorem mapM_eq_some_iff :
    l.mapM f = some results ↔ List.Forall₂ (fun a b => f a = some b) l results := by
  induction l generalizing results with
  | nil =>
    rw [List.mapM_nil, List.forall₂_nil_left_iff]
    exact Option.some_inj.trans eq_comm
  | cons a l ih =>
    rw [List.mapM_cons, List.forall₂_cons_left_iff]
    constructor
    · intro h
      obtain ⟨b, hb, h⟩ := Option.bind_eq_some_iff.mp h
      obtain ⟨rest, hrest, h⟩ := Option.bind_eq_some_iff.mp h
      exact ⟨b, rest, hb, ih.mp hrest, (Option.some.inj h).symm⟩
    · rintro ⟨b, rest, hb, hrest, rfl⟩
      refine Option.bind_eq_some_iff.mpr ⟨b, hb, ?_⟩
      exact Option.bind_eq_some_iff.mpr ⟨rest, ih.mpr hrest, rfl⟩

/-- In another order there are the same results in another order. -/
theorem exists_mapM_of_perm (h : m.Perm l) (hl : l.mapM f = some results) :
    ∃ others, m.mapM f = some others ∧ others.Perm results := by
  obtain ⟨others, hothers, hperm⟩ := List.perm_comp_forall₂ h (mapM_eq_some_iff.mp hl)
  exact ⟨others, mapM_eq_some_iff.mpr hothers, hperm⟩

theorem mapM_eq_none_of_perm (h : m.Perm l) (hl : l.mapM f = none) : m.mapM f = none := by
  cases hm : m.mapM f with
  | none => rfl
  | some results =>
    obtain ⟨others, hothers, -⟩ := exists_mapM_of_perm h.symm hm
    rw [hl] at hothers
    cases hothers

/-- What is made of the results is the same in any order, if it does not depend on theirs. -/
theorem bind_mapM_of_perm (h : m.Perm l)
    (hsame : ∀ results others, l.mapM f = some results → others.Perm results →
      g others = g results) :
    (m.mapM f >>= g) = (l.mapM f >>= g) := by
  cases hl : l.mapM f with
  | none => rw [mapM_eq_none_of_perm h hl]
  | some results =>
    obtain ⟨others, hothers, hperm⟩ := exists_mapM_of_perm h hl
    rw [hothers]
    exact hsame results others hl hperm

end Lists

section Fields

variable {members shuffled : List (List Char × Json)}

/-- Whether there is a single member, and its value, does not depend on the order. -/
theorem single_of_perm (shuffled members : List (List Char × Json)) :
    shuffled.Perm members →
      (match shuffled with
        | [(_, value)] => some value
        | _ => none) =
      (match members with
        | [(_, value)] => some value
        | _ => none) := by
  intro h
  cases shuffled with
  | nil =>
    obtain rfl := h.nil_eq
    rfl
  | cons first rest =>
    cases rest with
    | nil =>
      obtain rfl := List.singleton_perm.mp h
      rfl
    | cons second rest =>
      have hlength := h.length_eq
      match members with
      | [] => cases hlength
      | [_] => cases hlength
      | _ :: _ :: _ => rfl

/-- The fields of an object are the same in any order of its members. -/
theorem fields?_of_perm (names : List (List Char)) (h : shuffled.Perm members) :
    (Json.object shuffled).fields? names = (Json.object members).fields? names := by
  refine bind_mapM_of_perm h fun named others _ hperm => ?_
  have hsame : ∀ name, (others.filter (·.1 = name)).Perm (named.filter (·.1 = name)) :=
    fun name => hperm.filter _
  exact congrArg (names.mapM ·) (funext fun name => single_of_perm _ _ (hsame name))

theorem toRecord?_of_perm (h : shuffled.Perm members) :
    toRecord? (.object shuffled) = toRecord? (.object members) := by
  rw [toRecord?, toRecord?, fields?_of_perm recordFields h]

theorem toLink?_of_perm (h : shuffled.Perm members) :
    toLink? (.object shuffled) = toLink? (.object members) := by
  rw [toLink?, toLink?, fields?_of_perm linkFields h]

theorem toPool?_of_perm (h : shuffled.Perm members) :
    toPool? (.object shuffled) = toPool? (.object members) := by
  rw [toPool?, toPool?, fields?_of_perm poolFields h]

end Fields

section Maps

variable {α : Type} {members shuffled : List (List Char × Json)} {entries : List (Int × α)}
variable {toValue? : Json → Option α} {member : List Char × Json} {entry : Int × α}

/-- A member is read as an entry of a map from ticks. -/
def ReadAs (toValue? : Json → Option α) (member : List Char × Json) (entry : Int × α) : Prop :=
  tick? member.1 = some entry.1 ∧ toValue? member.2 = some entry.2

theorem readAs_iff :
    (do return (← tick? member.1, ← toValue? member.2)) = some entry ↔
      ReadAs toValue? member entry := by
  constructor
  · intro h
    obtain ⟨tick, htick, h⟩ := Option.bind_eq_some_iff.mp h
    obtain ⟨value, hvalue, h⟩ := Option.bind_eq_some_iff.mp h
    obtain rfl := Option.some.inj h
    exact ⟨htick, hvalue⟩
  · intro h
    refine Option.bind_eq_some_iff.mpr ⟨entry.1, h.1, ?_⟩
    exact Option.bind_eq_some_iff.mpr ⟨entry.2, h.2, rfl⟩

theorem toTickMap?_of_readAs (h : List.Forall₂ (ReadAs toValue?) members entries) :
    toTickMap? toValue? (.object members) = some (TickMap.ofList entries) := by
  have hread := mapM_eq_some_iff.mpr (h.imp fun _ _ => readAs_iff.mpr)
  exact Option.bind_eq_some_iff.mpr ⟨entries, hread, rfl⟩

theorem ticks_of_readAs (h : List.Forall₂ (ReadAs toValue?) members entries) :
    members.map (tick? ·.1) = (entries.map Prod.fst).map some := by
  induction h with
  | nil => rfl
  | cons hentry _ ih => rw [List.map_cons, List.map_cons, List.map_cons, hentry.1, ih]

/-- A map is the same in any order of its entries, as long as their ticks differ. -/
theorem ofList_of_perm {others : List (Int × α)} (h : others.Perm entries)
    (hticks : (entries.map Prod.fst).Nodup) : TickMap.ofList others = TickMap.ofList entries := by
  refine h.foldl_eq' (fun a ha b hb m => ?_) TickMap.empty
  by_cases hsame : a.1 = b.1
  · have hinjective := List.inj_on_of_nodup_map hticks
    rw [hinjective (h.subset ha) (h.subset hb) hsame]
  · exact TickMap.insert_comm m a.2 b.2 hsame

/-- A map is read alike in any order of its members, as long as their ticks differ. -/
theorem toTickMap?_of_perm (h : shuffled.Perm members)
    (hticks : (members.map (tick? ·.1)).Nodup) :
    toTickMap? toValue? (.object shuffled) = toTickMap? toValue? (.object members) := by
  refine bind_mapM_of_perm h fun entries others hentries hperm => ?_
  have hread : List.Forall₂ (ReadAs toValue?) members entries :=
    (mapM_eq_some_iff.mp hentries).imp fun _ _ => readAs_iff.mp
  have hdiffer : (entries.map Prod.fst).Nodup := by
    rw [ticks_of_readAs hread] at hticks
    exact hticks.of_map
  exact congrArg some (ofList_of_perm hperm hdiffer)

end Maps

end ReinvestingPool.Proofs.MemberOrders
