import TreeCompiler.Pool.Canonical
import TreeCompiler.Text.Escape

/-!
# Descriptions of constants

How constants are shown in diagnostics and listings. A part that cannot be looked up is shown by its
id, and an open placeholder by its name.
-/

namespace TreeCompiler

namespace Pool

/-- The descriptions of several constants, separated by commas. -/
def describeList (describe : ConstId → String) (ids : List ConstId) : String :=
  String.intercalate ", " (ids.map describe)

/-- Describes a type, given the descriptions of its parts. -/
def describeType (describe : ConstId → String) : TypeConstant → String
  | .named name => name
  | .parameterized base params => describe base ++ "<" ++ describeList describe params ++ ">"
  | .tuple elements => "Tuple<" ++ describeList describe elements ++ ">"
  | .nullable base => describe base ++ "?"
  | .immutable base => "immutable " ++ describe base
  | .category category => category.name

/-- Describes a constant, given the descriptions of its parts. -/
def describeConstant (describe : ConstId → String) : Constant → String
  | .int value => toString value.toInt
  | .string value => Text.quote value
  | .char value => Text.quoteChar value
  | .bool true => "true"
  | .bool false => "false"
  | .null => "null"
  | .tuple elements => "(" ++ describeList describe elements ++ ")"
  | .type type => describeType describe type

def describeWithin (pool : Pool) : Nat → ConstId → String
  | 0, id => id.text
  | depth + 1, id =>
    match pool.follow id with
    | .error _ => id.text
    | .ok followed =>
      match pool.entry? followed with
      | some (.value constant) => describeConstant (pool.describeWithin depth) constant
      | some (.placeholder name _) => name
      | none => id.text

/-- A readable rendering of an id. -/
def describe (pool : Pool) (id : ConstId) : String :=
  pool.describeWithin (pool.size + 1) id

def summary (pool : Pool) : String :=
  "ConstantPool \x7b entries: " ++ toString pool.size ++ ", interned: " ++ toString pool.index.length
    ++ " \x7d"

end Pool

end TreeCompiler
