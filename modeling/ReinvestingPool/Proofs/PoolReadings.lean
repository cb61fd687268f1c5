import ReinvestingPool.PoolText
import ReinvestingPool.Proofs.BuiltIndexes
import ReinvestingPool.Proofs.MemberOrders
import ReinvestingPool.Proofs.RenderedValues
import ReinvestingPool.Proofs.WrittenNumerals

/-!
A pool is read back from its own text. Every field of every width is written so that its reader
understands it, a map from ticks is read entry by entry into the same map, and it does not matter
whether the pool agrees with itself, nor in which order the fields and the entries stand. Only ticks
are wider here than in a text.
-/

namespace ReinvestingPool.Proofs.PoolReadings

open Words SignedAmounts TickMaps TickIndexes Pools Numerals JsonTrees JsonReading PoolText
open BuiltIndexes MemberOrders RenderedValues WrittenNumerals

variable {w : Nat} {α : Type} {pool : Pool} {json : Json} {members : List (List Char × Json)}

/-- A tick of 32 bits. -/
def FitsTick (tick : Int) : Prop := -2 ^ 31 ≤ tick ∧ tick < 2 ^ 31

instance (tick : Int) : Decidable (FitsTick tick) := by
  unfold FitsTick
  infer_instance

structure TicksFit (pool : Pool) : Prop where
  current : FitsTick pool.currentTick
  nearest : FitsTick pool.nearestTick
  records : ∀ entry ∈ pool.records.entries, FitsTick entry.1
  links : ∀ entry ∈ pool.index.links.entries,
    FitsTick entry.1 ∧ FitsTick entry.2.previous ∧ FitsTick entry.2.next

section Orders

/-- An object of the given members, in any order. -/
def InAnyOrder (members : List (List Char × Json)) (json : Json) : Prop :=
  ∃ shuffled, shuffled.Perm members ∧ json = .object shuffled

/-- A map from ticks as an object, with its entries in any order. -/
def WritesMap (writes : α → Json → Prop) (m : TickMap α) (json : Json) : Prop :=
  ∃ members, List.Forall₂ (fun entry member => member.1 = signedDecimal entry.1 ∧
    writes entry.2 member.2) m.entries members ∧ InAnyOrder members json

def WritesRecord (record : TickRecord) : Json → Prop := InAnyOrder (recordMembers record)

def WritesLink (link : TickLink) : Json → Prop := InAnyOrder (linkMembers link)

/-- A pool as an object. The members of all objects, and the entries of both maps, may stand in any
order. -/
def WritesPool (pool : Pool) (json : Json) : Prop :=
  ∃ records links, WritesMap WritesRecord pool.records records ∧
    WritesMap WritesLink pool.index.links links ∧
    InAnyOrder (poolMembers pool records links) json

theorem inAnyOrder_object (members : List (List Char × Json)) :
    InAnyOrder members (.object members) := ⟨members, .refl members, rfl⟩

theorem writesMap_ofTickMap {writes : α → Json → Prop} {ofValue : α → Json}
    (h : ∀ a, writes a (ofValue a)) (m : TickMap α) : WritesMap writes m (ofTickMap ofValue m) := by
  refine ⟨_, ?_, inAnyOrder_object _⟩
  rw [List.forall₂_map_right_iff, List.forall₂_same]
  exact fun entry _ => ⟨rfl, h entry.2⟩

theorem writesPool_ofPool (pool : Pool) : WritesPool pool (ofPool pool) :=
  ⟨_, _, writesMap_ofTickMap (fun _ => inAnyOrder_object _) pool.records,
    writesMap_ofTickMap (fun _ => inAnyOrder_object _) pool.index.links, inAnyOrder_object _⟩

end Orders

section Scalars

theorem toNatural?_ofNatural (n : BitVec w) : toNatural? (ofNatural n) = some n := by
  simp only [toNatural?, ofNatural, natural?_decimal, Option.bind_eq_bind, Option.bind_some,
    if_pos n.isLt, BitVec.ofNat_toNat, BitVec.setWidth_eq]
  rfl

theorem tick?_signedDecimal {tick : Int} (h : FitsTick tick) :
    tick? (signedDecimal tick) = some tick := by
  simp only [tick?, integer?_signedDecimal, Option.bind_eq_bind, Option.bind_some]
  exact if_pos ⟨h.1, h.2, signedDecimal_ne_minus_zero tick⟩

theorem toTick?_ofInteger {tick : Int} (h : FitsTick tick) :
    toTick? (ofInteger tick) = some tick := tick?_signedDecimal h

theorem toLiquidityChange?_ofInteger (change : LiquidityChange) :
    toLiquidityChange? (ofInteger change.toInt) = some change := by
  simp only [toLiquidityChange?, ofInteger, integer?_signedDecimal, Option.bind_eq_bind,
    Option.bind_some]
  exact Signed.ofInt?_eq_some.mpr rfl

theorem plain_toDigits {base : Nat} (hbase : 1 < base) (hletters : base ≤ 16) (n : Nat) :
    Plain (Nat.toDigits base n) := by
  have hdigits : ∀ d < 16, Nat.digitChar d ≠ '"' ∧ Nat.digitChar d ≠ '\\' ∧
      32 ≤ (Nat.digitChar d).toNat := by decide
  intro c hc
  obtain ⟨d, hd, rfl⟩ := exists_digit_of_mem hbase hc
  exact hdigits d (Nat.lt_of_lt_of_le hd hletters)

theorem plain_cons {c : Char} {written : List Char} (hc : c ≠ '"' ∧ c ≠ '\\' ∧ 32 ≤ c.toNat)
    (h : Plain written) : Plain (c :: written) :=
  List.forall_mem_cons.mpr ⟨hc, h⟩

theorem plain_hexadecimal (n : Nat) : Plain (hexadecimal n) :=
  plain_cons (by decide) (plain_cons (by decide) (plain_toDigits (by omega) (by omega) n))

theorem plain_signedDecimal (n : Int) : Plain (signedDecimal n) := by
  have hdigits : Plain (decimal n.natAbs) := plain_toDigits (by omega) (by omega) n.natAbs
  unfold signedDecimal
  split
  · exact plain_cons (by decide) hdigits
  · exact hdigits

theorem unescape_plain {written : List Char} (h : Plain written) :
    unescape written = some written := by
  induction written with
  | nil => rfl
  | cons c written ih =>
    obtain ⟨-, hescape, -⟩ := h c List.mem_cons_self
    rw [unescape.eq_4 c _ (fun _ _ _ _ _ hc => absurd hc hescape)
      (fun _ _ hc => absurd hc hescape), if_neg hescape,
      ih fun d hd => h d (List.mem_cons_of_mem _ hd), Option.map_some]

theorem toWord?_ofWord (n : Word) : toWord? (ofWord n) = some n := by
  simp only [toWord?, ofWord, unescape_plain (plain_hexadecimal n.toNat), numeral?_hexadecimal,
    Option.bind_eq_bind, Option.bind_some, if_pos n.isLt, BitVec.ofNat_toNat, BitVec.setWidth_eq]
  rfl

end Scalars

section Maps

variable {writes : α → Json → Prop} {toValue? : Json → Option α}

/-- A map whose entries rise is built anew from them. -/
theorem ofList_entries (m : TickMap α) : TickMap.ofList m.entries = m := by
  ext tick
  rw [get?_ofList m.rising]
  rfl

theorem nodup_ticks (m : TickMap α) : (m.entries.map Prod.fst).Nodup :=
  List.pairwise_map.mpr (m.rising.imp fun hless => Int.ne_of_lt hless)

/-- Each member is read as the entry that it has been written for. -/
theorem entries_of_members {entries : List (Int × α)} (hticks : ∀ entry ∈ entries, FitsTick entry.1)
    (hvalues : ∀ entry ∈ entries, ∀ json, writes entry.2 json → toValue? json = some entry.2)
    (h : List.Forall₂ (fun entry member => member.1 = signedDecimal entry.1 ∧
      writes entry.2 member.2) entries members) :
    List.Forall₂ (ReadAs toValue?) members entries := by
  induction h with
  | nil => exact .nil
  | @cons entry member _ _ hmember _ ih =>
    obtain ⟨hfits, hticks⟩ := List.forall_mem_cons.mp hticks
    obtain ⟨hread, hvalues⟩ := List.forall_mem_cons.mp hvalues
    refine .cons ⟨?_, hread member.2 hmember.2⟩ (ih hticks hvalues)
    rw [hmember.1]
    exact tick?_signedDecimal hfits

theorem toTickMap?_of_writes {m : TickMap α} (hticks : ∀ entry ∈ m.entries, FitsTick entry.1)
    (hvalues : ∀ entry ∈ m.entries, ∀ json, writes entry.2 json → toValue? json = some entry.2)
    (h : WritesMap writes m json) : toTickMap? toValue? json = some m := by
  obtain ⟨members, hmembers, shuffled, hperm, rfl⟩ := h
  have hentries := entries_of_members hticks hvalues hmembers
  have hdiffer : (members.map (tick? ·.1)).Nodup := by
    rw [ticks_of_readAs hentries]
    exact (nodup_ticks m).map fun _ _ => Option.some.inj
  rw [toTickMap?_of_perm hperm hdiffer, toTickMap?_of_readAs hentries, ofList_entries]

end Maps

theorem toRecord?_ofRecord (record : TickRecord) : toRecord? (ofRecord record) = some record := by
  have hfields : (ofRecord record).fields? recordFields = some [ofInteger record.liquidityNet.toInt,
    ofWord record.feeGrowthOutside, ofNatural record.secondsPerLiquidityOutside] := rfl
  simp only [toRecord?, hfields, toLiquidityChange?_ofInteger, toWord?_ofWord, toNatural?_ofNatural,
    Option.bind_eq_bind, Option.bind_some]
  rfl

theorem toLink?_ofLink {link : TickLink} (hprevious : FitsTick link.previous)
    (hnext : FitsTick link.next) : toLink? (ofLink link) = some link := by
  have hfields : (ofLink link).fields? linkFields =
    some [ofInteger link.previous, ofInteger link.next] := rfl
  simp only [toLink?, hfields, toTick?_ofInteger hprevious, toTick?_ofInteger hnext,
    Option.bind_eq_bind, Option.bind_some]
  rfl

theorem toRecord?_of_writes {record : TickRecord} (h : WritesRecord record json) :
    toRecord? json = some record := by
  obtain ⟨shuffled, hperm, rfl⟩ := h
  exact (toRecord?_of_perm hperm).trans (toRecord?_ofRecord record)

theorem toLink?_of_writes {link : TickLink} (hprevious : FitsTick link.previous)
    (hnext : FitsTick link.next) (h : WritesLink link json) : toLink? json = some link := by
  obtain ⟨shuffled, hperm, rfl⟩ := h
  exact (toLink?_of_perm hperm).trans (toLink?_ofLink hprevious hnext)

theorem fields?_poolMembers (pool : Pool) (records links : Json) :
    (Json.object (poolMembers pool records links)).fields? poolFields =
      some [ofNatural pool.swapFeeUnits, ofWord pool.sqrtPrice, ofInteger pool.currentTick,
        ofInteger pool.nearestTick, ofNatural pool.baseLiquidity,
        ofNatural pool.reinvestedLiquidity, ofNatural pool.reinvestedAtMint, ofWord pool.feeGrowth,
        ofNatural pool.secondsPerLiquidity, ofNatural pool.secondsUpdatedAt,
        ofNatural pool.blockTime, ofWord pool.reinvestmentSupply,
        ofNatural pool.governmentFeeUnits, records, links] := rfl

/-- The readers of the fields undo their writers. -/
theorem toPool?_poolMembers {records links : Json} (h : TicksFit pool)
    (hrecords : toTickMap? toRecord? records = some pool.records)
    (hlinks : toTickMap? toLink? links = some pool.index.links) :
    toPool? (.object (poolMembers pool records links)) = some pool := by
  rw [toPool?, fields?_poolMembers]
  refine Option.bind_eq_some_iff.mpr ⟨_, rfl, ?_⟩
  refine Option.bind_eq_some_iff.mpr ⟨_, toNatural?_ofNatural _, ?_⟩
  refine Option.bind_eq_some_iff.mpr ⟨_, toWord?_ofWord _, ?_⟩
  refine Option.bind_eq_some_iff.mpr ⟨_, toTick?_ofInteger h.current, ?_⟩
  refine Option.bind_eq_some_iff.mpr ⟨_, toTick?_ofInteger h.nearest, ?_⟩
  refine Option.bind_eq_some_iff.mpr ⟨_, toNatural?_ofNatural _, ?_⟩
  refine Option.bind_eq_some_iff.mpr ⟨_, toNatural?_ofNatural _, ?_⟩
  refine Option.bind_eq_some_iff.mpr ⟨_, toNatural?_ofNatural _, ?_⟩
  refine Option.bind_eq_some_iff.mpr ⟨_, toWord?_ofWord _, ?_⟩
  refine Option.bind_eq_some_iff.mpr ⟨_, toNatural?_ofNatural _, ?_⟩
  refine Option.bind_eq_some_iff.mpr ⟨_, toNatural?_ofNatural _, ?_⟩
  refine Option.bind_eq_some_iff.mpr ⟨_, toNatural?_ofNatural _, ?_⟩
  refine Option.bind_eq_some_iff.mpr ⟨_, toWord?_ofWord _, ?_⟩
  refine Option.bind_eq_some_iff.mpr ⟨_, toNatural?_ofNatural _, ?_⟩
  refine Option.bind_eq_some_iff.mpr ⟨_, hrecords, ?_⟩
  refine Option.bind_eq_some_iff.mpr ⟨_, hlinks, ?_⟩
  rfl

theorem toPool?_of_writes (h : TicksFit pool) (hwrites : WritesPool pool json) :
    toPool? json = some pool := by
  obtain ⟨records, links, hrecords, hlinks, shuffled, hperm, rfl⟩ := hwrites
  rw [toPool?_of_perm hperm]
  refine toPool?_poolMembers h ?_ ?_
  · exact toTickMap?_of_writes h.records (fun _ _ _ => toRecord?_of_writes) hrecords
  · refine toTickMap?_of_writes (fun entry hentry => (h.links entry hentry).1) ?_ hlinks
    intro entry hentry value hwrites
    obtain ⟨-, hprevious, hnext⟩ := h.links entry hentry
    exact toLink?_of_writes hprevious hnext hwrites

section Legibility

theorem isNumber_signedDecimal (n : Int) : IsNumber (signedDecimal n) :=
  ⟨validNumber_signedDecimal n, fun _ hc => inNumber_of_mem_signedDecimal hc⟩

theorem legible_ofNatural (n : BitVec w) : Legible (ofNatural n) :=
  ⟨validNumber_decimal n.toNat, fun _ hc => inNumber_of_isDigit (isDigit_of_mem_decimal hc)⟩

theorem legible_ofInteger (n : Int) : Legible (ofInteger n) := isNumber_signedDecimal n

theorem legible_ofWord (n : Word) : Legible (ofWord n) := plain_hexadecimal n.toNat

theorem legibleMembers_iff :
    LegibleMembers members ↔ ∀ member ∈ members, LegibleMember member := by
  induction members with
  | nil => exact iff_of_true trivial (List.forall_mem_nil _)
  | cons member rest ih => exact (and_congr_right fun _ => ih).trans List.forall_mem_cons.symm

theorem legible_of_inAnyOrder (h : LegibleMembers members) (hjson : InAnyOrder members json) :
    Legible json := by
  obtain ⟨shuffled, hperm, rfl⟩ := hjson
  exact legibleMembers_iff.mpr fun member hmember =>
    legibleMembers_iff.mp h member (hperm.subset hmember)

theorem legibleMembers_of_entries {writes : α → Json → Prop} {entries : List (Int × α)}
    (hvalues : ∀ a value, writes a value → Legible value)
    (h : List.Forall₂ (fun entry member => member.1 = signedDecimal entry.1 ∧
      writes entry.2 member.2) entries members) : LegibleMembers members := by
  induction h with
  | nil => exact trivial
  | @cons entry member _ _ hmember _ ih =>
    obtain ⟨name, value⟩ := member
    obtain ⟨hname, hwrites⟩ := hmember
    have hplain : Plain name := by
      rw [show name = signedDecimal entry.1 from hname]
      exact plain_signedDecimal entry.1
    exact ⟨⟨hplain, hvalues entry.2 value hwrites⟩, ih⟩

theorem legible_of_writesMap {writes : α → Json → Prop} {m : TickMap α}
    (hvalues : ∀ a value, writes a value → Legible value) (h : WritesMap writes m json) :
    Legible json := by
  obtain ⟨members, hmembers, hjson⟩ := h
  exact legible_of_inAnyOrder (legibleMembers_of_entries hvalues hmembers) hjson

theorem legible_recordMembers (record : TickRecord) : LegibleMembers (recordMembers record) :=
  ⟨⟨by decide, legible_ofInteger _⟩, ⟨by decide, legible_ofWord _⟩,
    ⟨by decide, legible_ofNatural _⟩, trivial⟩

theorem legible_linkMembers (link : TickLink) : LegibleMembers (linkMembers link) :=
  ⟨⟨by decide, legible_ofInteger _⟩, ⟨by decide, legible_ofInteger _⟩, trivial⟩

theorem legible_poolMembers {records links : Json} (hrecords : Legible records)
    (hlinks : Legible links) : LegibleMembers (poolMembers pool records links) :=
  ⟨⟨by decide, legible_ofNatural _⟩, ⟨by decide, legible_ofWord _⟩,
    ⟨by decide, legible_ofInteger _⟩, ⟨by decide, legible_ofInteger _⟩,
    ⟨by decide, legible_ofNatural _⟩, ⟨by decide, legible_ofNatural _⟩,
    ⟨by decide, legible_ofNatural _⟩, ⟨by decide, legible_ofWord _⟩,
    ⟨by decide, legible_ofNatural _⟩, ⟨by decide, legible_ofNatural _⟩,
    ⟨by decide, legible_ofNatural _⟩, ⟨by decide, legible_ofWord _⟩,
    ⟨by decide, legible_ofNatural _⟩, ⟨by decide, hrecords⟩, ⟨by decide, hlinks⟩, trivial⟩

theorem legible_of_writesPool (h : WritesPool pool json) : Legible json := by
  obtain ⟨records, links, hrecords, hlinks, hjson⟩ := h
  refine legible_of_inAnyOrder (legible_poolMembers ?_ ?_) hjson
  · exact legible_of_writesMap
      (fun record _ => legible_of_inAnyOrder (legible_recordMembers record)) hrecords
  · exact legible_of_writesMap
      (fun link _ => legible_of_inAnyOrder (legible_linkMembers link)) hlinks

end Legibility

/-- A pool is read from every text that writes it, whatever the order of its members. -/
theorem readPool?_of_writes (h : TicksFit pool) (hwrites : WritesPool pool json) :
    readPool? (String.ofList json.render) = some pool := by
  have hread := readJson?_render json (legible_of_writesPool hwrites)
  simp only [readPool?, String.toList_ofList, hread, Option.bind_eq_bind, Option.bind_some]
  exact toPool?_of_writes h hwrites

/-- Every pool comes back from its text, whether or not it could be run. -/
theorem readPool?_writePool (pool : Pool) (h : TicksFit pool) :
    readPool? (writePool pool) = some pool :=
  readPool?_of_writes h (writesPool_ofPool pool)

/-- A pool at the ends of its widths, with a link to a tick that is not there. -/
theorem readPool?_writePool_extremes :
    let pool : Pool := {
      swapFeeUnits := BitVec.allOnes 32
      sqrtPrice := BitVec.allOnes 256
      currentTick := -2147483648
      nearestTick := 2147483647
      baseLiquidity := BitVec.allOnes 128
      reinvestedLiquidity := 0
      reinvestedAtMint := 1
      feeGrowth := 0
      secondsPerLiquidity := 77
      secondsUpdatedAt := 900
      blockTime := 1000
      reinvestmentSupply := 751376333
      governmentFeeUnits := 10000
      records := TickMap.ofList [(-600, ⟨⟨-2 ^ 127, by decide, by decide⟩, 0x1f, 0⟩),
        (60, ⟨⟨2 ^ 127 - 1, by decide, by decide⟩, 0, BitVec.allOnes 128⟩)]
      index := ⟨TickMap.ofList [(0, ⟨-887272, 2147483647⟩), (-600, ⟨60, -2147483648⟩)]⟩
    }
    TicksFit pool ∧ readPool? (writePool pool) = some pool := by
  intro pool
  have hfit : TicksFit pool := ⟨by decide, by decide, by decide, by decide⟩
  exact ⟨hfit, readPool?_writePool pool hfit⟩

end ReinvestingPool.Proofs.PoolReadings
