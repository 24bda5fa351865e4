/-!
# JSON documents

A JSON value with its members in written order, and its indented rendering: two spaces a level, one
member a line, empty lists and objects closed at once.
-/

namespace TreeCompiler.Text

/-- A JSON value. Members keep their order. -/
inductive Json where
  | null
  | bool (value : Bool)
  | text (value : String)
  | number (value : Int)
  | list (items : List Json)
  | object (members : List (String × Json))
  deriving Repr, Inhabited

namespace Json

def nat (value : Nat) : Json := .number value

/-- An object with a single member. -/
def tagged (tag : String) (value : Json) : Json := .object [(tag, value)]

def ofList {α : Type} (write : α → Json) (values : List α) : Json := .list (values.map write)

/-- A value that may be missing. -/
def ofOption {α : Type} (write : α → Json) : Option α → Json
  | some value => write value
  | none => .null

def text? : Json → Option String
  | .text value => some value
  | _ => none

def nat? : Json → Option Nat
  | .number (.ofNat value) => some value
  | _ => none

def items? : Json → Option (List Json)
  | .list items => some items
  | _ => none

def member? (name : String) : Json → Option Json
  | .object members => members.lookup name
  | _ => none

/-- A tag with its value: a string alone, or an object with a single member. -/
def variant? : Json → Option (String × Json)
  | .text tag => some (tag, .null)
  | .object [(tag, value)] => some (tag, value)
  | _ => none

/-- The last two hexadecimal digits of a code point, with a leading zero. -/
def twoHexDigits (n : Nat) : List Char :=
  [Nat.digitChar (n / 16 % 16), Nat.digitChar (n % 16)]

/-- The form of a character inside a JSON string: only quotes, backslashes and the characters below
the space are escaped. -/
def charForm (c : Char) : List Char :=
  if c = '"' then ['\\', '"']
  else if c = '\\' then ['\\', '\\']
  else if c = '\n' then ['\\', 'n']
  else if c = '\r' then ['\\', 'r']
  else if c = '\t' then ['\\', 't']
  else if c.toNat = 0x08 then ['\\', 'b']
  else if c.toNat = 0x0c then ['\\', 'f']
  else if c.toNat < 0x20 then ['\\', 'u', '0', '0'] ++ twoHexDigits c.toNat
  else [c]

def quote (value : String) : String :=
  "\"" ++ String.ofList (value.toList.flatMap charForm) ++ "\""

/-- The spaces in front of a line. -/
def margin (level : Nat) : String := String.ofList (List.replicate (2 * level) ' ')

/-- Encloses rendered members, one a line, or closes at once if there are none. -/
def enclose (left right : String) (level : Nat) : List String → String
  | [] => left ++ right
  | lines =>
    left ++ "\n" ++ String.intercalate ",\n" (lines.map fun line => margin (level + 1) ++ line)
      ++ "\n" ++ margin level ++ right

mutual

/-- Renders a value whose first line already stands in place at the given level. -/
def renderAt (level : Nat) : Json → String
  | .null => "null"
  | .bool true => "true"
  | .bool false => "false"
  | .text value => quote value
  | .number value => toString value
  | .list items => enclose "[" "]" level (renderItems (level + 1) items)
  | .object members => enclose "\x7b" "\x7d" level (renderMembers (level + 1) members)

def renderItems (level : Nat) : List Json → List String
  | [] => []
  | item :: rest => renderAt level item :: renderItems level rest

/-- Renders the members of an object, each behind its name. -/
def renderMembers (level : Nat) : List (String × Json) → List String
  | [] => []
  | (name, value) :: rest =>
    (quote name ++ ": " ++ renderAt level value) :: renderMembers level rest

end

def render (value : Json) : String := renderAt 0 value

end Json

end TreeCompiler.Text
