import TreeCompiler.Pool.Basic
import TreeCompiler.Text.Json

/-!
# Pool documents

Constants and the entries of a pool as JSON values.
-/

namespace TreeCompiler

open Text (Json)

def ConstId.toJson (id : ConstId) : Json := .nat id.index

def TypeConstant.toJson : TypeConstant → Json
  | .named name => .tagged "Class" (.text name)
  | .parameterized base params =>
    .tagged "Parameterized"
      (.object [("base", base.toJson), ("params", .ofList ConstId.toJson params)])
  | .tuple elements => .tagged "Tuple" (.ofList ConstId.toJson elements)
  | .nullable base => .tagged "Nullable" base.toJson
  | .immutable base => .tagged "Immutable" base.toJson
  | .category which => .tagged "Keyword" (.text which.tag)

def Constant.toJson : Constant → Json
  | .int value => .tagged "Int" (.number value.toInt)
  | .string value => .tagged "String" (.text value)
  | .char value => .tagged "Char" (.text value.toString)
  | .bool value => .tagged "Bool" (.bool value)
  | .null => .text "Null"
  | .tuple elements => .tagged "Tuple" (.ofList ConstId.toJson elements)
  | .type ty => .tagged "Type" ty.toJson

def Entry.toJson : Entry → Json
  | .value constant => constant.toJson
  | .placeholder name target =>
    .tagged "Unresolved"
      (.object [("name", .text name), ("target", .ofOption ConstId.toJson target)])

def Pool.toJson (pool : Pool) : Json := .ofList Entry.toJson pool.entries.toList

end TreeCompiler
