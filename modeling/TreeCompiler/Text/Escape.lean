/-!
# Escaped text

How characters and strings are written inside quotes. A quote, a backslash and the three common
layout characters have a two-character form; every other control character is written by its code
point. Characters and strings differ only in which quote they escape.
-/

namespace TreeCompiler.Text

/-- The control characters: the two blocks of general category `Cc`. -/
def isControl (c : Char) : Bool :=
  c.toNat < 0x20 || (0x7f ≤ c.toNat && c.toNat < 0xa0)

/-- A code point between braces, in lower-case hexadecimal digits. -/
def codePointForm (c : Char) : List Char :=
  ['\\', 'u', '\x7b'] ++ Nat.toDigits 16 c.toNat ++ ['\x7d']

def charForm (c : Char) : List Char :=
  if c = '\'' then ['\\', '\'']
  else if c = '\\' then ['\\', '\\']
  else if c = '\n' then ['\\', 'n']
  else if c = '\r' then ['\\', 'r']
  else if c = '\t' then ['\\', 't']
  else if isControl c then codePointForm c
  else [c]

def stringCharForm (c : Char) : List Char :=
  if c = '"' then ['\\', '"']
  else if c = '\'' then ['\'']
  else charForm c

/-- A character as it is written between single quotes. -/
def escapeChar (c : Char) : String :=
  String.ofList (charForm c)

/-- A text as it is written between double quotes. -/
def escape (text : String) : String :=
  String.ofList (text.toList.flatMap stringCharForm)

def quoteChar (c : Char) : String :=
  "'" ++ escapeChar c ++ "'"

def quote (text : String) : String :=
  "\"" ++ escape text ++ "\""

end TreeCompiler.Text
