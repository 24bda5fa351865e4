/-!
# Keywords and type categories

Some keywords stand for a type where a type is expected; each of those denotes a fixed category.
-/

namespace TreeCompiler

/-- The keywords a tree can hold in the place of a type. -/
inductive Keyword where
  | immutable
  | service
  | const
  | enum
  | moduleWord
  | package
  | classWord
  | interface
  | mixin
  | static
  | typedef
  | importWord
  | var
  | val
  deriving DecidableEq, Repr, Inhabited

/-- The categories that keyword types denote. -/
inductive TypeCategory where
  | immutable
  | service
  | const
  | enum
  | moduleType
  | package
  | classType
  deriving DecidableEq, Repr, Inhabited

namespace TypeCategory

def name : TypeCategory → String
  | .immutable => "immutable"
  | .service => "service"
  | .const => "const"
  | .enum => "enum"
  | .moduleType => "module"
  | .package => "package"
  | .classType => "class"

def tag : TypeCategory → String
  | .immutable => "Immutable"
  | .service => "Service"
  | .const => "Const"
  | .enum => "Enum"
  | .moduleType => "Module"
  | .package => "Package"
  | .classType => "Class"

end TypeCategory

namespace Keyword

def all : List Keyword :=
  [.immutable, .service, .const, .enum, .moduleWord, .package, .classWord, .interface, .mixin,
    .static, .typedef, .importWord, .var, .val]

def text : Keyword → String
  | .immutable => "immutable"
  | .service => "service"
  | .const => "const"
  | .enum => "enum"
  | .moduleWord => "module"
  | .package => "package"
  | .classWord => "class"
  | .interface => "interface"
  | .mixin => "mixin"
  | .static => "static"
  | .typedef => "typedef"
  | .importWord => "import"
  | .var => "var"
  | .val => "val"

def tag : Keyword → String
  | .immutable => "Immutable"
  | .service => "Service"
  | .const => "Const"
  | .enum => "Enum"
  | .moduleWord => "Module"
  | .package => "Package"
  | .classWord => "Class"
  | .interface => "Interface"
  | .mixin => "Mixin"
  | .static => "Static"
  | .typedef => "Typedef"
  | .importWord => "Import"
  | .var => "Var"
  | .val => "Val"

def ofText? (text : String) : Option Keyword := all.find? (·.text == text)

/-- The category a keyword denotes as a type, if it denotes one. -/
def category? : Keyword → Option TypeCategory
  | .immutable => some .immutable
  | .service => some .service
  | .const => some .const
  | .enum => some .enum
  | .moduleWord => some .moduleType
  | .package => some .package
  | .classWord => some .classType
  | .interface | .mixin | .static | .typedef | .importWord | .var | .val => none

end Keyword

end TreeCompiler
