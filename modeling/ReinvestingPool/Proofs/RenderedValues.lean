import Mathlib.Data.List.TakeWhile
import ReinvestingPool.JsonReading

/-!
A rendered value is read back. Its text is cut into the lexemes of the value, since no lexeme runs
on into what follows it, and these lead the reader from waiting for a value to having that value,
whatever arrays and objects are open around it.
-/

namespace ReinvestingPool.Proofs.RenderedValues

open JsonTrees JsonReading

/-- A text without quotes, escapes and control characters, which is written as it is. -/
def Plain (written : List Char) : Prop := ∀ c ∈ written, c ≠ '"' ∧ c ≠ '\\' ∧ 32 ≤ c.toNat

instance (written : List Char) : Decidable (Plain written) := List.decidableBAll _ written

/-- The text of a number and nothing else. -/
def IsNumber (written : List Char) : Prop :=
  validNumber written = true ∧ ∀ c ∈ written, inNumber c = true

mutual

/-- The numbers of a value are valid and its texts are plain. -/
def Legible : Json → Prop
  | .null => True
  | .bool _ => True
  | .number written => IsNumber written
  | .text written => Plain written
  | .array items => LegibleItems items
  | .object members => LegibleMembers members

def LegibleItems : List Json → Prop
  | [] => True
  | item :: rest => Legible item ∧ LegibleItems rest

def LegibleMembers : List (List Char × Json) → Prop
  | [] => True
  | member :: rest => LegibleMember member ∧ LegibleMembers rest

def LegibleMember : List Char × Json → Prop
  | (name, value) => Plain name ∧ Legible value

end

mutual

/-- The lexemes of a value, in the order of its text. -/
def lexemes : Json → List Lexeme
  | .null => [.null]
  | .bool value => [.bool value]
  | .number written => [.number written]
  | .text written => [.text written]
  | .array items => .openArray :: itemLexemes items
  | .object members => .openObject :: memberLexemes members

def itemLexemes : List Json → List Lexeme
  | [] => [.closeArray]
  | [item] => lexemes item ++ [.closeArray]
  | item :: next :: rest => lexemes item ++ .comma :: itemLexemes (next :: rest)

def memberLexemes : List (List Char × Json) → List Lexeme
  | [] => [.closeObject]
  | [member] => memberLexeme member ++ [.closeObject]
  | member :: next :: rest => memberLexeme member ++ .comma :: memberLexemes (next :: rest)

def memberLexeme : List Char × Json → List Lexeme
  | (name, value) => .text name :: .colon :: lexemes value

end

section Lexing

variable {c : Char} {written rest : List Char} {lexeme : Lexeme}

/-- No number and no word runs on into what follows. -/
def Apart (rest : List Char) : Prop := ∀ c ∈ rest.head?, inNumber c = false ∧ isLetter c = false

theorem lexemes?_cons (hblank : isBlank c = false) {after : List Char}
    (h : firstLexeme c rest = some (lexeme, after)) :
    lexemes? (c :: rest) = (lexemes? after).map (lexeme :: ·) := by
  rw [lexemes?]
  simp only [hblank, Bool.false_eq_true, if_false]
  split
  · rename_i hnone
    rw [h] at hnone
    cases hnone
  · rename_i found hsome
    rw [h] at hsome
    cases hsome
    rfl

theorem lexemes?_mark (hblank : isBlank c = false) (hmark : mark? c = some lexeme) :
    lexemes? (c :: rest) = (lexemes? rest).map (lexeme :: ·) := by
  refine lexemes?_cons hblank ?_
  rw [firstLexeme, hmark]

theorem splitText_plain (h : Plain written) :
    splitText (written ++ '"' :: rest) = some (written, rest) := by
  induction written with
  | nil => rfl
  | cons c written ih =>
    obtain ⟨hquote, hescape, hcontrol⟩ := h c List.mem_cons_self
    have ih := ih fun d hd => h d (List.mem_cons_of_mem _ hd)
    rw [List.cons_append, splitText.eq_5 c _ hquote (fun _ _ _ _ _ hc => absurd hc hescape)
      (fun _ _ hc => absurd hc hescape), if_neg (not_or.mpr ⟨hescape, Nat.not_lt.mpr hcontrol⟩), ih]
    rfl

theorem lexemes?_text (h : Plain written) :
    lexemes? (quoted written ++ rest) = (lexemes? rest).map (.text written :: ·) := by
  have hquoted : quoted written ++ rest = '"' :: (written ++ '"' :: rest) := by
    simp only [quoted, List.cons_append, List.append_assoc, List.nil_append]
  rw [hquoted]
  refine lexemes?_cons (by decide) ?_
  rw [firstLexeme, splitText_plain h]
  rfl

theorem takeWhile_apart {p : Char → Bool} (hwritten : ∀ d ∈ written, p d = true)
    (hrest : ∀ d ∈ rest.head?, p d = false) :
    (written ++ rest).takeWhile p = written ∧ (written ++ rest).dropWhile p = rest := by
  rw [List.takeWhile_append_of_pos hwritten, List.dropWhile_append_of_pos hwritten]
  cases rest with
  | nil => simp
  | cons d rest =>
    have hstop : ¬ p d = true := by rw [hrest d rfl]; exact Bool.false_ne_true
    rw [List.takeWhile_cons_of_neg hstop, List.dropWhile_cons_of_neg hstop, List.append_nil]
    exact ⟨rfl, rfl⟩

theorem lexemes?_word {letters : List Char} (hblank : isBlank c = false) (hmark : mark? c = none)
    (hquote : c ≠ '"') (hc : isLetter c = true) (hletters : letters.all isLetter = true)
    (hword : word? (c :: letters) = some lexeme) (hrest : Apart rest) :
    lexemes? (c :: letters ++ rest) = (lexemes? rest).map (lexeme :: ·) := by
  obtain ⟨htake, hdrop⟩ := takeWhile_apart (List.all_eq_true.mp hletters) fun d hd => (hrest d hd).2
  rw [List.cons_append]
  refine lexemes?_cons hblank ?_
  simp only [firstLexeme, hmark, if_neg hquote, hc, if_true, htake, hdrop, hword, Option.map_some]

theorem validNumber_start (h : validNumber (c :: written) = true) : c = '-' ∨ isDigit c = true := by
  by_contra hstart
  rw [not_or] at hstart
  unfold validNumber at h
  split at h
  · rename_i hsign
    exact hstart.1 (List.cons.inj hsign).1
  · unfold validMagnitude at h
    rw [List.takeWhile_cons_of_neg hstart.2] at h
    cases h

theorem isDigit_bounds (h : isDigit c = true) : 48 ≤ c.toNat ∧ c.toNat ≤ 57 :=
  of_decide_eq_true h

/-- A number begins like no other lexeme. -/
theorem number_start (h : c = '-' ∨ isDigit c = true) :
    isBlank c = false ∧ mark? c = none ∧ c ≠ '"' ∧ isLetter c = false := by
  have hdigits : ∀ n < 58, 48 ≤ n → isBlank (Char.ofNat n) = false ∧
      mark? (Char.ofNat n) = none ∧ Char.ofNat n ≠ '"' ∧ isLetter (Char.ofNat n) = false := by
    decide
  rcases h with rfl | h
  · decide
  · obtain ⟨hlow, hhigh⟩ := isDigit_bounds h
    have hc := hdigits c.toNat (Nat.lt_succ_of_le hhigh) hlow
    rwa [Char.ofNat_toNat] at hc

theorem lexemes?_number (h : IsNumber written) (hrest : Apart rest) :
    lexemes? (written ++ rest) = (lexemes? rest).map (.number written :: ·) := by
  obtain ⟨hvalid, hchars⟩ := h
  cases written with
  | nil => cases hvalid
  | cons c written =>
    obtain ⟨hblank, hmark, hquote, hletter⟩ := number_start (validNumber_start hvalid)
    obtain ⟨htake, hdrop⟩ := takeWhile_apart (fun d hd => hchars d (List.mem_cons_of_mem _ hd))
      fun d hd => (hrest d hd).1
    rw [List.cons_append]
    refine lexemes?_cons hblank ?_
    simp only [firstLexeme, hmark, if_neg hquote, hletter, Bool.false_eq_true, if_false, htake,
      hdrop, hvalid, if_true]

theorem apart_cons (c : Char) (rest : List Char) (h : inNumber c = false ∧ isLetter c = false) :
    Apart (c :: rest) := by
  intro d hd
  cases hd
  exact h

end Lexing

mutual

theorem lexemes?_render (json : Json) (rest : List Char) (h : Legible json) (hrest : Apart rest) :
    lexemes? (json.render ++ rest) = (lexemes? rest).map (lexemes json ++ ·) := by
  match json with
  | .null =>
    exact lexemes?_word (by decide) (by decide) (by decide) (by decide) (by decide) (by decide)
      hrest
  | .bool true =>
    exact lexemes?_word (by decide) (by decide) (by decide) (by decide) (by decide) (by decide)
      hrest
  | .bool false =>
    exact lexemes?_word (by decide) (by decide) (by decide) (by decide) (by decide) (by decide)
      hrest
  | .number written => exact lexemes?_number h hrest
  | .text written => exact lexemes?_text h
  | .array items =>
    change lexemes? ('[' :: (renderItems items ++ rest)) = _
    rw [lexemes?_mark (by decide) (by rfl), lexemes?_items items rest h, Option.map_map]
    rfl
  | .object members =>
    change lexemes? ('\x7b' :: (renderMembers members ++ rest)) = _
    rw [lexemes?_mark (by decide) (by rfl), lexemes?_members members rest h, Option.map_map]
    rfl

theorem lexemes?_items (items : List Json) (rest : List Char) (h : LegibleItems items) :
    lexemes? (renderItems items ++ rest) = (lexemes? rest).map (itemLexemes items ++ ·) := by
  match items with
  | [] => exact lexemes?_mark (by decide) (by rfl)
  | [item] =>
    rw [renderItems, List.append_assoc, List.singleton_append,
      lexemes?_render item _ h.1 (apart_cons ']' rest (by decide)),
      lexemes?_mark (by decide) (by rfl), Option.map_map]
    simp only [itemLexemes, List.append_assoc]
    rfl
  | item :: next :: others =>
    rw [renderItems, List.append_assoc, List.cons_append,
      lexemes?_render item _ h.1 (apart_cons ',' _ (by decide)),
      lexemes?_mark (by decide) (by rfl), lexemes?_items (next :: others) rest h.2, Option.map_map,
      Option.map_map]
    simp only [itemLexemes, List.append_assoc]
    rfl

theorem lexemes?_members (members : List (List Char × Json)) (rest : List Char)
    (h : LegibleMembers members) :
    lexemes? (renderMembers members ++ rest) =
      (lexemes? rest).map (memberLexemes members ++ ·) := by
  match members with
  | [] => exact lexemes?_mark (by decide) (by rfl)
  | [member] =>
    rw [renderMembers, List.append_assoc, List.singleton_append,
      lexemes?_member member _ h.1 (apart_cons '\x7d' rest (by decide)),
      lexemes?_mark (by decide) (by rfl), Option.map_map]
    simp only [memberLexemes, List.append_assoc]
    rfl
  | member :: next :: others =>
    rw [renderMembers, List.append_assoc, List.cons_append,
      lexemes?_member member _ h.1 (apart_cons ',' _ (by decide)),
      lexemes?_mark (by decide) (by rfl), lexemes?_members (next :: others) rest h.2,
      Option.map_map, Option.map_map]
    simp only [memberLexemes, List.append_assoc]
    rfl

theorem lexemes?_member (member : List Char × Json) (rest : List Char) (h : LegibleMember member)
    (hrest : Apart rest) :
    lexemes? (renderMember member ++ rest) = (lexemes? rest).map (memberLexeme member ++ ·) := by
  match member with
  | (name, value) =>
    rw [renderMember, List.append_assoc, lexemes?_text h.1, List.cons_append,
      lexemes?_mark (by decide) (by rfl), lexemes?_render value rest h.2 hrest, Option.map_map,
      Option.map_map]
    rfl

end

section Reading

theorem takeAll_cons {state next : Expecting} {lexeme : Lexeme} (rest : List Lexeme)
    (h : take state lexeme = some next) :
    takeAll state (lexeme :: rest) = takeAll next rest := by
  rw [takeAll, h, Option.bind_some]

/-- A value begins an array as it begins anywhere else. -/
theorem takeAll_first (json : Json) (stack : List Frame) (rest : List Lexeme) :
    takeAll (.itemOrEnd stack) (lexemes json ++ rest) =
      takeAll (.value (.array [] :: stack)) (lexemes json ++ rest) := by
  cases json <;> rfl

theorem takeAll_firstItem {items : List Json} (hitems : items ≠ []) (stack : List Frame)
    (rest : List Lexeme) :
    takeAll (.itemOrEnd stack) (itemLexemes items ++ rest) =
      takeAll (.value (.array [] :: stack)) (itemLexemes items ++ rest) := by
  match items with
  | [] => exact absurd rfl hitems
  | [item] =>
    rw [itemLexemes, List.append_assoc]
    exact takeAll_first item stack _
  | item :: next :: others =>
    rw [itemLexemes, List.append_assoc]
    exact takeAll_first item stack _

theorem takeAll_firstMember {members : List (List Char × Json)} (hmembers : members ≠ [])
    (stack : List Frame) (rest : List Lexeme) :
    takeAll (.memberOrEnd stack) (memberLexemes members ++ rest) =
      takeAll (.name [] stack) (memberLexemes members ++ rest) := by
  match members with
  | [] => exact absurd rfl hmembers
  | [(name, value)] => rfl
  | (name, value) :: next :: others => rfl

end Reading

mutual

/-- The lexemes of a value lead from waiting for a value to having it. -/
theorem takeAll_lexemes (json : Json) (stack : List Frame) (rest : List Lexeme) :
    takeAll (.value stack) (lexemes json ++ rest) = takeAll (.more json stack) rest := by
  match json with
  | .null => rfl
  | .bool _ => rfl
  | .number _ => rfl
  | .text _ => rfl
  | .array items =>
    by_cases hitems : items = []
    · rw [hitems]
      rfl
    · rw [lexemes, List.cons_append, takeAll_cons _ (by rfl), takeAll_firstItem hitems]
      exact takeAll_itemLexemes items [] stack rest hitems
  | .object members =>
    by_cases hmembers : members = []
    · rw [hmembers]
      rfl
    · rw [lexemes, List.cons_append, takeAll_cons _ (by rfl), takeAll_firstMember hmembers]
      exact takeAll_memberLexemes members [] stack rest hmembers

theorem takeAll_itemLexemes (items done : List Json) (stack : List Frame) (rest : List Lexeme)
    (hitems : items ≠ []) :
    takeAll (.value (.array done :: stack)) (itemLexemes items ++ rest) =
      takeAll (.more (.array (done.reverse ++ items)) stack) rest := by
  match items with
  | [] => exact absurd rfl hitems
  | [item] =>
    rw [itemLexemes, List.append_assoc, takeAll_lexemes item, List.singleton_append,
      takeAll_cons _ (by rfl), List.reverse_cons]
  | item :: next :: others =>
    rw [itemLexemes, List.append_assoc, takeAll_lexemes item, List.cons_append,
      takeAll_cons _ (by rfl), takeAll_itemLexemes (next :: others) _ _ _ (by simp),
      List.reverse_cons, List.append_assoc, List.singleton_append]

theorem takeAll_memberLexemes (members done : List (List Char × Json)) (stack : List Frame)
    (rest : List Lexeme) (hmembers : members ≠ []) :
    takeAll (.name done stack) (memberLexemes members ++ rest) =
      takeAll (.more (.object (done.reverse ++ members)) stack) rest := by
  match members with
  | [] => exact absurd rfl hmembers
  | [member] =>
    rw [memberLexemes, List.append_assoc, takeAll_memberLexeme member, List.singleton_append,
      takeAll_cons _ (by rfl), List.reverse_cons]
  | member :: next :: others =>
    rw [memberLexemes, List.append_assoc, takeAll_memberLexeme member, List.cons_append,
      takeAll_cons _ (by rfl), takeAll_memberLexemes (next :: others) _ _ _ (by simp),
      List.reverse_cons, List.append_assoc, List.singleton_append]

theorem takeAll_memberLexeme (member : List Char × Json) (done : List (List Char × Json))
    (stack : List Frame) (rest : List Lexeme) :
    takeAll (.name done stack) (memberLexeme member ++ rest) =
      takeAll (.more member.2 (.object done member.1 :: stack)) rest := by
  match member with
  | (name, value) =>
    rw [memberLexeme, List.cons_append, takeAll_cons _ (by rfl), List.cons_append,
      takeAll_cons _ (by rfl)]
    exact takeAll_lexemes value _ rest

end

/-- The text of a value is read as that value. -/
theorem readJson?_render (json : Json) (h : Legible json) : readJson? json.render = some json := by
  have hcut := lexemes?_render json [] h (by simp [Apart])
  have hread := takeAll_lexemes json [] []
  rw [List.append_nil] at hcut hread
  simp only [lexemes?, Option.map_some, List.append_nil] at hcut
  simp only [takeAll] at hread
  simp only [readJson?, hcut, Option.bind_eq_bind, Option.bind_some, hread]

end ReinvestingPool.Proofs.RenderedValues
