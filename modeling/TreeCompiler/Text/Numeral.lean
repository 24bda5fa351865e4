/-!
# Unsigned numerals

A numeral is an optional plus sign and at least one decimal digit. Its value has to fit a machine
word.
-/

namespace TreeCompiler.Text

/-- The first number that does not fit a 64-bit word. -/
def wordBound : Nat := UInt64.size

/-- The value of a decimal digit. -/
def digit? (c : Char) : Option Nat :=
  if '0' ≤ c ∧ c ≤ '9' then some (c.toNat - '0'.toNat) else none

/-- Reads digits from the left onto the value read so far. -/
def digitsOnto : Nat → List Char → Option Nat
  | value, [] => some value
  | value, c :: rest => (digit? c).bind fun d => digitsOnto (value * 10 + d) rest

def dropPlus : List Char → List Char
  | '+' :: rest => rest
  | cs => cs

/-- The value of a numeral, if the characters are one and its value fits a word. -/
def numeral? (cs : List Char) : Option Nat :=
  match dropPlus cs with
  | [] => none
  | digits => (digitsOnto 0 digits).filter (· < wordBound)

end TreeCompiler.Text
