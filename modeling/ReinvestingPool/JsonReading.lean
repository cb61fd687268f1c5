import ReinvestingPool.JsonTrees

/-!
Reading a JSON text. The text is cut into lexemes, and the lexemes are taken one by one into the
arrays and objects that are still open, so that values may nest to any depth.
-/

namespace ReinvestingPool.JsonReading

open JsonTrees

inductive Lexeme
  | openArray
  | closeArray
  | openObject
  | closeObject
  | comma
  | colon
  | null
  | bool (value : Bool)
  | number (written : List Char)
  | text (written : List Char)
  deriving DecidableEq

def isBlank (c : Char) : Bool := c = ' ' ∨ c = '\t' ∨ c = '\n' ∨ c = '\r'

def isDigit (c : Char) : Bool := '0' ≤ c ∧ c ≤ '9'

/-- Whether a character can be part of a number. -/
def inNumber (c : Char) : Bool := isDigit c ∨ c = '-' ∨ c = '+' ∨ c = '.' ∨ c = 'e' ∨ c = 'E'

def isLetter (c : Char) : Bool := 'a' ≤ c ∧ c ≤ 'z'

def isHexDigit (c : Char) : Bool :=
  isDigit c ∨ ('a' ≤ c ∧ c ≤ 'f') ∨ ('A' ≤ c ∧ c ≤ 'F')

def validDigits (digits : List Char) : Bool := digits ≠ [] ∧ digits.all isDigit

def validPower : List Char → Bool
  | '+' :: digits => validDigits digits
  | '-' :: digits => validDigits digits
  | digits => validDigits digits

/-- An exponent with its mark, or nothing. -/
def validExponent : List Char → Bool
  | [] => true
  | mark :: power => (mark = 'e' ∨ mark = 'E') ∧ validPower power

/-- A fraction with its point, or nothing, and an exponent. -/
def validFraction : List Char → Bool
  | '.' :: rest => validDigits (rest.takeWhile isDigit) ∧ validExponent (rest.dropWhile isDigit)
  | rest => validExponent rest

/-- A whole number without leading zeros, a fraction and an exponent. -/
def validMagnitude (written : List Char) : Bool :=
  match written.takeWhile isDigit with
  | [] => false
  | '0' :: _ :: _ => false
  | _ => validFraction (written.dropWhile isDigit)

def validNumber : List Char → Bool
  | '-' :: written => validMagnitude written
  | written => validMagnitude written

/-- Splits off a written text up to its closing quote. Control characters have to be escaped. -/
def splitText : List Char → Option (List Char × List Char)
  | [] => none
  | '"' :: rest => some ([], rest)
  | '\\' :: 'u' :: a :: b :: c :: d :: rest =>
      if [a, b, c, d].all isHexDigit then
        (splitText rest).map fun (text, rest) => ('\\' :: 'u' :: a :: b :: c :: d :: text, rest)
      else
        none
  | '\\' :: c :: rest =>
      if (escaped c).isSome then
        (splitText rest).map fun (text, rest) => ('\\' :: c :: text, rest)
      else
        none
  | c :: rest =>
      if c = '\\' ∨ c.toNat < 32 then none
      else (splitText rest).map fun (text, rest) => (c :: text, rest)

theorem length_lt_of_splitText {text written rest : List Char}
    (h : splitText text = some (written, rest)) : rest.length < text.length := by
  fun_induction splitText text generalizing written rest with
  | case1 => cases h
  | case2 => cases h; simp
  | case3 a b c d r _ ih =>
    obtain ⟨⟨w, s⟩, hs, he⟩ := Option.map_eq_some_iff.mp h
    have := ih hs
    cases he
    simp only [List.length_cons]
    omega
  | case4 => cases h
  | case5 c r _ _ ih =>
    obtain ⟨⟨w, s⟩, hs, he⟩ := Option.map_eq_some_iff.mp h
    have := ih hs
    cases he
    simp only [List.length_cons]
    omega
  | case6 => cases h
  | case7 => cases h
  | case8 c r _ _ _ _ ih =>
    obtain ⟨⟨w, s⟩, hs, he⟩ := Option.map_eq_some_iff.mp h
    have := ih hs
    cases he
    simp only [List.length_cons]
    omega

def mark? : Char → Option Lexeme
  | '[' => some .openArray
  | ']' => some .closeArray
  | '\x7b' => some .openObject
  | '\x7d' => some .closeObject
  | ',' => some .comma
  | ':' => some .colon
  | _ => none

def word? (letters : List Char) : Option Lexeme :=
  if letters = ['n', 'u', 'l', 'l'] then some .null
  else if letters = ['t', 'r', 'u', 'e'] then some (.bool true)
  else if letters = ['f', 'a', 'l', 's', 'e'] then some (.bool false)
  else none

/-- The first lexeme of a text that does not begin with a blank, and what follows it. -/
def firstLexeme (c : Char) (rest : List Char) : Option (Lexeme × List Char) :=
  match mark? c with
  | some lexeme => some (lexeme, rest)
  | none =>
    if c = '"' then
      (splitText rest).map fun (written, rest) => (.text written, rest)
    else if isLetter c then
      (word? (c :: rest.takeWhile isLetter)).map (·, rest.dropWhile isLetter)
    else
      let written := c :: rest.takeWhile inNumber
      if validNumber written then some (.number written, rest.dropWhile inNumber) else none

theorem length_le_of_firstLexeme {c : Char} {rest after : List Char} {lexeme : Lexeme}
    (h : firstLexeme c rest = some (lexeme, after)) : after.length ≤ rest.length := by
  unfold firstLexeme at h
  split at h
  · cases h
    exact Nat.le_refl _
  · split at h
    · obtain ⟨⟨w, s⟩, hs, he⟩ := Option.map_eq_some_iff.mp h
      cases he
      exact Nat.le_of_lt (length_lt_of_splitText hs)
    · split at h
      · obtain ⟨word, _, he⟩ := Option.map_eq_some_iff.mp h
        cases he
        exact (List.dropWhile_sublist _).length_le
      · simp only at h
        split at h
        · cases h
          exact (List.dropWhile_sublist _).length_le
        · cases h

def lexemes? : List Char → Option (List Lexeme)
  | [] => some []
  | c :: rest =>
      if isBlank c then
        lexemes? rest
      else
        match _ : firstLexeme c rest with
        | none => none
        | some (lexeme, after) => (lexemes? after).map (lexeme :: ·)
termination_by text => text.length
decreasing_by
  · simp
  · rename_i found
    exact Nat.lt_succ_of_le (length_le_of_firstLexeme found)

/-- An array or object that is still open, with what has been read of it, the newest first. -/
inductive Frame
  | array (done : List Json)
  | object (done : List (List Char × Json)) (name : List Char)

/-- What may come next, inside the open arrays and objects. -/
inductive Expecting
  | value (stack : List Frame)
  | itemOrEnd (stack : List Frame)
  | memberOrEnd (stack : List Frame)
  | name (done : List (List Char × Json)) (stack : List Frame)
  | colon (done : List (List Char × Json)) (name : List Char) (stack : List Frame)
  /-- A value is complete, and a comma or an end may follow. -/
  | more (value : Json) (stack : List Frame)

/-- Begins a value. -/
def begin (stack : List Frame) : Lexeme → Option Expecting
  | .openArray => some (.itemOrEnd stack)
  | .openObject => some (.memberOrEnd stack)
  | .null => some (.more .null stack)
  | .bool value => some (.more (.bool value) stack)
  | .number written => some (.more (.number written) stack)
  | .text written => some (.more (.text written) stack)
  | _ => none

def take : Expecting → Lexeme → Option Expecting
  | .value stack, lexeme => begin stack lexeme
  | .itemOrEnd stack, .closeArray => some (.more (.array []) stack)
  | .itemOrEnd stack, lexeme => begin (.array [] :: stack) lexeme
  | .memberOrEnd stack, .closeObject => some (.more (.object []) stack)
  | .memberOrEnd stack, .text name => some (.colon [] name stack)
  | .name done stack, .text name => some (.colon done name stack)
  | .colon done name stack, .colon => some (.value (.object done name :: stack))
  | .more value (.array done :: stack), .comma => some (.value (.array (value :: done) :: stack))
  | .more value (.array done :: stack), .closeArray =>
      some (.more (.array (value :: done).reverse) stack)
  | .more value (.object done name :: stack), .comma => some (.name ((name, value) :: done) stack)
  | .more value (.object done name :: stack), .closeObject =>
      some (.more (.object ((name, value) :: done).reverse) stack)
  | _, _ => none

def takeAll (state : Expecting) : List Lexeme → Option Expecting
  | [] => some state
  | lexeme :: rest => (take state lexeme).bind (takeAll · rest)

/-- The one value of a text. -/
def readJson? (text : List Char) : Option Json := do
  match ← takeAll (.value []) (← lexemes? text) with
  | .more value [] => some value
  | _ => none

end ReinvestingPool.JsonReading
