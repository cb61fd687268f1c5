import ReinvestingPool.Quotes
import ReinvestingPool.Proofs.LargerAmounts

/-!
The quantities that a quote is asked for and the outputs that it answers. An amount of a sale counts
up and one of a purchase counts down, and amounts that are accepted are quoted in ascending order.
-/

namespace ReinvestingPool.Proofs.QuotedAmounts

open Failures Words Directions SignedAmounts PriceLimits Quotes LargerAmounts

/-- A value of the named token as the pool counts it. -/
def received (side : Side) (value : Int) : Int :=
  match side with
  | .sell => value
  | .buy => -value

variable {side : Side} {amounts : List Word} {amount other largest : Word}
variable {quantities : List Amount} {quantity smaller : Amount} {quoted : Quote} {i : Nat}

theorem part_sideOf (a : Amount) : PartOf (sideOf a) a a := by
  unfold sideOf
  split
  · rename_i hpos
    exact ⟨Int.le_of_lt hpos, Int.le_refl _⟩
  · rename_i hneg
    exact ⟨Int.not_lt.mp hneg, Int.le_refl _⟩

theorem toInt_of_signed (h : signed side amount = .ok quantity) :
    quantity.toInt = received side amount.toNat := by
  cases side with
  | sell =>
    have h : inflow amount = .ok quantity := h
    exact inflow_eq_ok.mp h
  | buy =>
    have h : outflow amount = .ok quantity := h
    obtain ⟨paid, hpaid, hquantity⟩ := outflow_eq_ok.mp h
    rw [hquantity, inflow_eq_ok.mp hpaid]
    rfl

theorem part_of_signed (hsmaller : signed side other = .ok smaller)
    (hlarger : signed side amount = .ok quantity) (hle : other ≤ amount) :
    PartOf side smaller quantity := by
  have hsmaller := toInt_of_signed hsmaller
  have hlarger := toInt_of_signed hlarger
  rw [BitVec.le_def] at hle
  unfold PartOf
  cases side with
  | sell =>
    simp only [received] at hsmaller hlarger ⊢
    omega
  | buy =>
    simp only [received] at hsmaller hlarger ⊢
    omega

theorem sideOf_signed (h : signed side amount = .ok quantity) (hnonzero : amount ≠ 0) :
    quantity ≠ 0 ∧ sideOf quantity = side := by
  have hvalue := toInt_of_signed h
  have hpos : amount.toNat ≠ 0 := fun hzero => hnonzero (BitVec.eq_of_toNat_eq hzero)
  have hdiffers : quantity.toInt ≠ 0 := by
    cases side with
    | sell =>
      simp only [received] at hvalue
      omega
    | buy =>
      simp only [received] at hvalue
      omega
  refine ⟨fun hzero => hdiffers (congrArg Signed.toInt hzero), ?_⟩
  unfold sideOf
  cases side with
  | sell =>
    simp only [received] at hvalue
    rw [if_pos (by omega)]
  | buy =>
    simp only [received] at hvalue
    rw [if_neg (by omega)]

/-- Quantities in the order in which they are quoted. -/
def Ascending (side : Side) (quantities : List Amount) : Prop :=
  quantities.Pairwise fun a b => a ≠ 0 → b ≠ 0 → PartOf side a b

/-- A quantity and the amount that it stands for. -/
def StandsFor (side : Side) (largest amount : Word) (quantity : Amount) : Prop :=
  amount = 0 ∧ quantity = 0 ∨
    amount ≠ 0 ∧ largest ≤ amount ∧ signed side amount = .ok quantity

theorem StandsFor.weaken (hle : other ≤ largest) (h : StandsFor side largest amount quantity) :
    StandsFor side other amount quantity := by
  rcases h with hzero | ⟨hnonzero, hlarger, hsigned⟩
  · exact Or.inl hzero
  · exact Or.inr ⟨hnonzero, BitVec.le_trans hle hlarger, hsigned⟩

theorem forall₂_getElem? {α β : Type} {R : α → β → Prop} {as : List α} {bs : List β} {i : Nat}
    {a : α} (h : List.Forall₂ R as bs) (ha : as[i]? = some a) :
    ∃ b, bs[i]? = some b ∧ R a b := by
  induction h generalizing i with
  | nil => cases ha
  | cons hfirst _ ih =>
    cases i with
    | zero =>
      obtain rfl := Option.some.inj ha
      exact ⟨_, rfl, hfirst⟩
    | succ i => exact ih ha

theorem quantitiesFrom_eq_ok {position : Nat}
    (h : quantitiesFrom side position largest amounts = .ok quantities) :
    List.Forall₂ (StandsFor side largest) amounts quantities ∧ Ascending side quantities := by
  induction amounts generalizing position largest quantities with
  | nil =>
    cases h
    exact ⟨.nil, .nil⟩
  | cons amount rest ih =>
    unfold quantitiesFrom at h
    split at h
    · rename_i hzero
      obtain ⟨later, hlater, h⟩ := bind_eq_ok.mp h
      cases h
      obtain ⟨hnamed, hascending⟩ := ih hlater
      refine ⟨.cons (Or.inl ⟨hzero, rfl⟩) hnamed, .cons ?_ hascending⟩
      exact fun a _ hnonzero => absurd rfl hnonzero
    · rename_i hnonzero
      split at h
      · cases h
      · rename_i hlarger
        split at h
        · cases h
        · rename_i quantity hsigned
          obtain ⟨later, hlater, h⟩ := bind_eq_ok.mp h
          cases h
          obtain ⟨hnamed, hascending⟩ := ih hlater
          have hle : largest ≤ amount := BitVec.not_lt.mp hlarger
          refine ⟨.cons (Or.inr ⟨hnonzero, hle, hsigned⟩)
            (hnamed.imp fun _ _ => StandsFor.weaken hle), .cons ?_ hascending⟩
          intro a ha _ hsecond
          obtain ⟨i, hi⟩ := List.mem_iff_getElem?.mp ha
          obtain ⟨other, -, hother⟩ := forall₂_getElem? hnamed.flip hi
          rcases hother with ⟨-, hzero⟩ | ⟨-, hmore, hother⟩
          · exact absurd hzero hsecond
          · exact part_of_signed hsigned hother hmore

theorem exists_quantity (hnamed : List.Forall₂ (StandsFor side largest) amounts quantities)
    (hamount : amounts[i]? = some amount) (hnonzero : amount ≠ 0) :
    ∃ quantity, quantities[i]? = some quantity ∧ signed side amount = .ok quantity := by
  obtain ⟨quantity, hquantity, hstands⟩ := forall₂_getElem? hnamed hamount
  rcases hstands with ⟨hzero, -⟩ | ⟨-, -, hsigned⟩
  · exact absurd hzero hnonzero
  · exact ⟨quantity, hquantity, hsigned⟩

theorem toInt_of_outputOf {side : Side} {exchanged : Amount} {output : Word}
    (h : outputOf side exchanged = .ok output) :
    exchanged.toInt = -received side output.toNat := by
  unfold outputOf at h
  cases side with
  | sell =>
    simp only at h
    split at h
    · rename_i hinside
      obtain rfl := Except.ok.inj h
      rw [BitVec.toNat_ofInt]
      simp only [received]
      omega
    · cases h
  | buy =>
    simp only at h
    split at h
    · rename_i hinside
      obtain rfl := Except.ok.inj h
      rw [BitVec.toNat_ofInt]
      simp only [received]
      omega
    · cases h

theorem output_of_none {α : Type} {as : List α} {i : Nat}
    (h : (as.map fun _ => Quote.none)[i]? = some quoted) : quoted.output = 0 := by
  obtain ⟨other, -, hsame⟩ := List.mem_map.mp (List.mem_of_getElem? h)
  rw [← hsame]
  rfl

end ReinvestingPool.Proofs.QuotedAmounts
