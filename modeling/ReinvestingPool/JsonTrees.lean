import ReinvestingPool.Numerals

/-!
Values of a JSON text. Numbers and texts are kept as they are written, because how they are to be
understood depends on what they stand for.
-/

namespace ReinvestingPool.JsonTrees

open Numerals

inductive Json
  | null
  | bool (value : Bool)
  | number (written : List Char)
  /-- The characters between the quotes, escapes included. -/
  | text (written : List Char)
  | array (items : List Json)
  | object (members : List (List Char × Json))

def quoted (written : List Char) : List Char := '"' :: written ++ ['"']

mutual

/-- The text of a value, without blanks. -/
def Json.render : Json → List Char
  | .null => ['n', 'u', 'l', 'l']
  | .bool true => ['t', 'r', 'u', 'e']
  | .bool false => ['f', 'a', 'l', 's', 'e']
  | .number written => written
  | .text written => quoted written
  | .array items => '[' :: renderItems items
  | .object members => '\x7b' :: renderMembers members

def renderItems : List Json → List Char
  | [] => [']']
  | [item] => item.render ++ [']']
  | item :: next :: rest => item.render ++ ',' :: renderItems (next :: rest)

def renderMembers : List (List Char × Json) → List Char
  | [] => ['\x7d']
  | [member] => renderMember member ++ ['\x7d']
  | member :: next :: rest => renderMember member ++ ',' :: renderMembers (next :: rest)

def renderMember : List Char × Json → List Char
  | (name, value) => quoted name ++ ':' :: value.render

end

def hexValue? (digits : List Char) : Option Nat := readDigits 16 0 digits

/-- The character that a letter after a backslash stands for. -/
def escaped : Char → Option Char
  | '"' => some '"'
  | '\\' => some '\\'
  | '/' => some '/'
  | 'b' => some '\x08'
  | 'f' => some '\x0c'
  | 'n' => some '\n'
  | 'r' => some '\r'
  | 't' => some '\t'
  | _ => none

/-- The character that two surrogates stand for. -/
def joinSurrogates (high low : Nat) : Option Char :=
  if 0xDC00 ≤ low ∧ low < 0xE000 then
    some (Char.ofNat (0x10000 + (high - 0xD800) * 0x400 + (low - 0xDC00)))
  else
    none

/-- The characters that a written text stands for. Surrogates have to come in pairs. -/
def unescape : List Char → Option (List Char)
  | [] => some []
  | '\\' :: 'u' :: a :: b :: c :: d :: rest =>
      match hexValue? [a, b, c, d] with
      | none => none
      | some unit =>
        if unit < 0xD800 ∨ 0xE000 ≤ unit then
          (unescape rest).map (Char.ofNat unit :: ·)
        else if unit < 0xDC00 then
          match rest with
          | '\\' :: 'u' :: e :: f :: g :: h :: rest => do
            let c ← joinSurrogates unit (← hexValue? [e, f, g, h])
            return c :: (← unescape rest)
          | _ => none
        else
          none
  | '\\' :: c :: rest => do return (← escaped c) :: (← unescape rest)
  | c :: rest => if c = '\\' then none else (unescape rest).map (c :: ·)

/-- The value of each named field, once. An array gives the fields in the order of their names. -/
def Json.fields? (names : List (List Char)) : Json → Option (List Json)
  | .array items => if items.length = names.length then some items else none
  | .object members => do
    let named ← members.mapM fun (written, value) => (unescape written).map (·, value)
    names.mapM fun name =>
      match named.filter (·.1 = name) with
      | [(_, value)] => some value
      | _ => none
  | _ => none

end ReinvestingPool.JsonTrees
