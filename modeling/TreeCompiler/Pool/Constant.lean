import TreeCompiler.Keyword

/-!
# Constants

The compile-time values and types of a program. A composite constant refers to its parts by their
ids in the pool that holds it.
-/

namespace TreeCompiler

/-- The position of a constant in its pool. -/
structure ConstId where
  index : Nat
  deriving DecidableEq, Repr, Inhabited

namespace ConstId

def text (id : ConstId) : String := "#" ++ toString id.index

end ConstId

/-- A type. -/
inductive TypeConstant where
  /-- A named class. -/
  | named (name : String)
  /-- A class applied to type parameters. -/
  | parameterized (base : ConstId) (params : List ConstId)
  | tuple (elements : List ConstId)
  | nullable (base : ConstId)
  | immutable (base : ConstId)
  | category (category : TypeCategory)
  deriving DecidableEq, Repr, Inhabited

/-- A compile-time value or a type. -/
inductive Constant where
  | int (value : Int64)
  | string (value : String)
  | char (value : Char)
  | bool (value : Bool)
  | null
  /-- A tuple of constants. -/
  | tuple (elements : List ConstId)
  | type (type : TypeConstant)
  deriving DecidableEq, Repr, Inhabited

namespace TypeConstant

/-- The parts a type is built from, in order. -/
def children : TypeConstant → List ConstId
  | .parameterized base params => base :: params
  | .tuple elements => elements
  | .nullable base => [base]
  | .immutable base => [base]
  | .named _ | .category _ => []

/-- The same type with every part passed through `f`, in order. -/
def mapChildrenM {m : Type → Type} [Monad m] (f : ConstId → m ConstId) :
    TypeConstant → m TypeConstant
  | .parameterized base params => do
    let base ← f base
    let params ← params.mapM f
    pure (.parameterized base params)
  | .tuple elements => do pure (.tuple (← elements.mapM f))
  | .nullable base => do pure (.nullable (← f base))
  | .immutable base => do pure (.immutable (← f base))
  | .named name => pure (.named name)
  | .category which => pure (.category which)

end TypeConstant

namespace Constant

/-- The parts a constant is built from, in order. -/
def children : Constant → List ConstId
  | .tuple elements => elements
  | .type ty => ty.children
  | .int _ | .string _ | .char _ | .bool _ | .null => []

/-- The same constant with every part passed through `f`, in order. -/
def mapChildrenM {m : Type → Type} [Monad m] (f : ConstId → m ConstId) : Constant → m Constant
  | .tuple elements => do pure (.tuple (← elements.mapM f))
  | .type ty => do pure (.type (← ty.mapChildrenM f))
  | .int value => pure (.int value)
  | .string value => pure (.string value)
  | .char value => pure (.char value)
  | .bool value => pure (.bool value)
  | .null => pure .null

def type? : Constant → Option TypeConstant
  | .type ty => some ty
  | _ => none

end Constant

end TreeCompiler
