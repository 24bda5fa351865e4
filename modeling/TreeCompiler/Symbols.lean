import TreeCompiler.Pool.Canonical
import TreeCompiler.Tree.Facts

/-!
# Symbol tables

What qualified names denote outside a unit. A name is looked up inside the scope it is used in
before it is looked up as it stands. A component may be held back: its first lookups answer that it
is not there yet.
-/

namespace TreeCompiler

/-- What a defined name denotes. -/
inductive Component where
  | type (type : ConstId)
  | constant (type value : ConstId)
  /-- A package or a container of other names. -/
  | space (name : String)
  deriving DecidableEq, Repr, Inhabited

namespace Component

def binding : Component → Binding
  | .type ty => .type ty
  | .constant ty value => .constant ty value
  | .space name => .space name

end Component

/-- The answer to a lookup. -/
inductive Lookup where
  | found (component : Component)
  | notFound
  /-- The component is still being put together. -/
  | notYet
  deriving DecidableEq, Repr, Inhabited

/-- Why a name cannot be defined. -/
inductive SymbolError where
  | duplicate (name : String)
  | notAValue (name : String)
  deriving DecidableEq, Repr, Inhabited

namespace SymbolError

def message : SymbolError → String
  | .duplicate name => "symbol " ++ name ++ " is already defined"
  | .notAValue name => "symbol " ++ name ++ " must be bound to a value constant"

end SymbolError

/-- A defined name. -/
structure Symbol where
  name : String
  component : Component
  /-- The number of lookups that still answer `notYet`. -/
  heldBack : Nat := 0
  deriving DecidableEq, Repr, Inhabited

/-- The defined names. No name is defined twice. -/
structure SymbolTable where
  symbols : List Symbol := []
  deriving DecidableEq, Repr, Inhabited

namespace SymbolTable

/-- The number of names. -/
def size (table : SymbolTable) : Nat := table.symbols.length

def find? (table : SymbolTable) (name : String) : Option Symbol :=
  table.symbols.find? (·.name == name)

/-- Defines a name, unless it is defined already. The component is held back for that many
lookups. -/
def define (table : SymbolTable) (name : String) (component : Component) (heldBack : Nat) :
    Except SymbolError SymbolTable :=
  match table.find? name with
  | some _ => .error (.duplicate name)
  | none => .ok ⟨table.symbols ++ [{ name, component, heldBack }]⟩

/-- Defines a name as the class of that name. The class is interned in any case. -/
def defineClass (table : SymbolTable) (name : String) (pool : Pool) :
    Except SymbolError (ConstId × SymbolTable) × Pool :=
  let (type, pool) := pool.intern (.type (.named name))
  ((table.define name (.type type) 0).map fun table => (type, table), pool)

/-- Defines a name as a constant, whose type is worked out from its value. -/
def defineConstant (table : SymbolTable) (name : String) (value : ConstId) (pool : Pool) :
    Except SymbolError SymbolTable × Pool :=
  match (PoolM.typeOf value).run pool with
  | .ok type pool => (table.define name (.constant type value) 0, pool)
  | .error _ pool => (.error (.notAValue name), pool)

/-- The name that a lookup from a scope is about: the scoped name if it is defined. -/
def target (table : SymbolTable) (scope name : String) : String :=
  let qualified := scope ++ "." ++ name
  if (table.find? qualified).isSome then qualified else name

/-- Counts down the lookups for which a name is held back. -/
def release (table : SymbolTable) (name : String) : SymbolTable :=
  ⟨table.symbols.map fun entry =>
    if entry.name = name then { entry with heldBack := entry.heldBack - 1 } else entry⟩

def lookup (table : SymbolTable) (scope name : String) : Lookup × SymbolTable :=
  let key := table.target scope name
  match table.find? key with
  | none => (.notFound, table)
  | some entry =>
    if entry.heldBack = 0 then (.found entry.component, table)
    else (.notYet, table.release key)

def summary (table : SymbolTable) : String :=
  "StaticSymbolTable \x7b entries: ConcurrentMap \x7b len: " ++ toString table.size ++ " \x7d \x7d"

end SymbolTable

end TreeCompiler
