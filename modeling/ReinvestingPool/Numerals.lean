/-!
Numbers as lists of digits. A decimal numeral has no leading zeros, so each number has one. The
letters of a hexadecimal numeral are written small and read in either case.
-/

namespace ReinvestingPool.Numerals

/-- The value of a digit, where letters go on from ten. -/
def digitValue (c : Char) : Option Nat :=
  if '0' ≤ c ∧ c ≤ '9' then some (c.toNat - '0'.toNat)
  else if 'a' ≤ c ∧ c ≤ 'z' then some (c.toNat - 'a'.toNat + 10)
  else if 'A' ≤ c ∧ c ≤ 'Z' then some (c.toNat - 'A'.toNat + 10)
  else none

/-- Reads digits, the highest first, that follow those of `value`. -/
def readDigits (base value : Nat) : List Char → Option Nat
  | [] => some value
  | c :: rest =>
      match digitValue c with
      | some digit => if digit < base then readDigits base (base * value + digit) rest else none
      | none => none

def decimal (n : Nat) : List Char := Nat.toDigits 10 n

def natural? : List Char → Option Nat
  | [] => none
  | ['0'] => some 0
  | '0' :: _ => none
  | digits => readDigits 10 0 digits

def signedDecimal (n : Int) : List Char :=
  if n < 0 then '-' :: decimal n.natAbs else decimal n.natAbs

/-- A natural number, with or without a sign before it. -/
def integer? : List Char → Option Int
  | '-' :: digits => (natural? digits).map fun n => -(n : Int)
  | digits => (natural? digits).map fun n => (n : Int)

def hexadecimal (n : Nat) : List Char := '0' :: 'x' :: Nat.toDigits 16 n

/-- Reads a numeral of the base that its first two characters name, and a decimal one otherwise.
Leading zeros are allowed, and underscores may group the digits. -/
def numeral? (text : List Char) : Option Nat :=
  let read := fun base digits => readDigits base 0 (digits.filter (· ≠ '_'))
  match text with
  | '0' :: 'x' :: digits => read 16 digits
  | '0' :: 'X' :: digits => read 16 digits
  | '0' :: 'o' :: digits => read 8 digits
  | '0' :: 'O' :: digits => read 8 digits
  | '0' :: 'b' :: digits => read 2 digits
  | '0' :: 'B' :: digits => read 2 digits
  | digits => read 10 digits

end ReinvestingPool.Numerals
