import TreeCompiler.Pool.Constant

/-!
# The constant pool

An append-only table of constants. Equal constants get the same id, which is handed out in the order
of first use and found again through an index. A placeholder stands for a type that is not known
yet: every placeholder is an entry of its own, and its target is set once.
-/

namespace TreeCompiler

/-- An entry of the pool. -/
inductive Entry where
  | value (constant : Constant)
  /-- A type named before it was known. -/
  | placeholder (name : String) (target : Option ConstId)
  deriving DecidableEq, Repr, Inhabited

namespace Entry

def isPlaceholder : Entry → Bool
  | .placeholder .. => true
  | .value _ => false

end Entry

/-- What can go wrong with the ids of a pool. -/
inductive PoolError where
  /-- There is no such entry. -/
  | absent (id : ConstId)
  /-- Only a placeholder can be filled. -/
  | notPlaceholder (id : ConstId)
  /-- A placeholder cannot stand for itself. -/
  | selfReference (id : ConstId) (name : String)
  /-- A placeholder is already filled with another type. -/
  | conflict (id : ConstId) (name : String) (previous refused : ConstId)
  /-- A type has no type of its own. -/
  | notValue (id : ConstId)
  /-- A constant contains itself. -/
  | endless (id : ConstId)
  deriving DecidableEq, Repr, Inhabited

namespace PoolError

def message : PoolError → String
  | .absent id => "constant " ++ id.text ++ " is not in the pool"
  | .notPlaceholder id => "constant " ++ id.text ++ " is not an unresolved placeholder"
  | .selfReference id name =>
    "placeholder " ++ id.text ++ " for `" ++ name ++ "` cannot resolve to itself"
  | .conflict id name previous refused =>
    "placeholder " ++ id.text ++ " for `" ++ name ++ "` already resolved to " ++ previous.text
      ++ "; refusing " ++ refused.text
  | .notValue id => "constant " ++ id.text ++ " is a type, not a value"
  | .endless id => "constant " ++ id.text ++ " contains itself"

end PoolError

/-- What a pool holds: its entries in the order of their ids, and beside them an index that has the
ids of the constants among them. -/
structure Store where
  entries : Array Entry := #[]
  index : List (Constant × ConstId) := []
  deriving DecidableEq, Repr, Inhabited

namespace Store

/-- Appends an entry, of which the index knows nothing. Ids are natural numbers and never run
out. -/
def push (store : Store) (entry : Entry) : ConstId × Store :=
  (⟨store.entries.size⟩, { store with entries := store.entries.push entry })

/-- The id that the index has for a constant. A constant without one is appended and then
indexed. -/
def intern (store : Store) (constant : Constant) : ConstId × Store :=
  match store.index.lookup constant with
  | some id => (id, store)
  | none =>
    let (id, grown) := store.push (.value constant)
    (id, { grown with index := (constant, id) :: grown.index })

def setTarget (store : Store) (id target : ConstId) : Store :=
  { store with entries := store.entries.modify id.index fun
      | .placeholder name _ => .placeholder name (some target)
      | .value constant => .value constant }

/-- A store that was empty at first and has been changed in these ways only. -/
inductive Built : Store → Prop
  | empty : Built {}
  | intern {store : Store} (before : Built store) (constant : Constant) :
    Built (store.intern constant).2
  | placeholder {store : Store} (before : Built store) (name : String) :
    Built (store.push (.placeholder name none)).2
  | target {store : Store} (before : Built store) (id target : ConstId) :
    Built (store.setTarget id target)

end Store

/-- The table of constants and placeholders. Nothing else changes what it holds. -/
structure Pool extends Store where
  built : toStore.Built
  deriving DecidableEq, Repr

/-- A computation that interns constants. What it interned before it failed stays. -/
abbrev PoolM := EStateM PoolError Pool

namespace Pool

/-- The pool without entries. -/
def empty : Pool := ⟨{}, .empty⟩

instance : EmptyCollection Pool := ⟨empty⟩

instance : Inhabited Pool := ⟨empty⟩

def size (pool : Pool) : Nat := pool.entries.size

def entry? (pool : Pool) (id : ConstId) : Option Entry := pool.entries[id.index]?

def entry (pool : Pool) (id : ConstId) : Except PoolError Entry :=
  match pool.entry? id with
  | some entry => .ok entry
  | none => .error (.absent id)

def intern (pool : Pool) (constant : Constant) : ConstId × Pool :=
  let grown := pool.toStore.intern constant
  (grown.1, ⟨grown.2, pool.built.intern constant⟩)

def addPlaceholder (pool : Pool) (name : String) : ConstId × Pool :=
  let grown := pool.toStore.push (.placeholder name none)
  (grown.1, ⟨grown.2, pool.built.placeholder name⟩)

def setTarget (pool : Pool) (id target : ConstId) : Pool :=
  ⟨pool.toStore.setTarget id target, pool.built.target id target⟩

end Pool

namespace PoolM

def read {α : Type} (look : Pool → Except PoolError α) : PoolM α := do
  match look (← get) with
  | .ok value => pure value
  | .error error => throw error

def intern (constant : Constant) : PoolM ConstId := modifyGet (·.intern constant)

def internType (type : TypeConstant) : PoolM ConstId := intern (.type type)

def int (value : Int64) : PoolM ConstId := intern (.int value)

def string (value : String) : PoolM ConstId := intern (.string value)

def char (value : Char) : PoolM ConstId := intern (.char value)

def bool (value : Bool) : PoolM ConstId := intern (.bool value)

def null : PoolM ConstId := intern .null

def tuple (elements : List ConstId) : PoolM ConstId := intern (.tuple elements)

def namedType (name : String) : PoolM ConstId := internType (.named name)

def categoryType (category : TypeCategory) : PoolM ConstId := internType (.category category)

def tupleType (elements : List ConstId) : PoolM ConstId := internType (.tuple elements)

def nullableType (base : ConstId) : PoolM ConstId := internType (.nullable base)

def immutableType (base : ConstId) : PoolM ConstId := internType (.immutable base)

/-- Interns a class applied to parameters. Without parameters it is the class itself. -/
def parameterizedType (base : ConstId) : List ConstId → PoolM ConstId
  | [] => pure base
  | params => internType (.parameterized base params)

/-- Appends a placeholder without a target. -/
def newPlaceholder (name : String) : PoolM ConstId :=
  modifyGet (·.addPlaceholder name)

def intType : PoolM ConstId := namedType "Int"

def stringType : PoolM ConstId := namedType "String"

/-- The type of truth values. -/
def booleanType : PoolM ConstId := namedType "Boolean"

def charType : PoolM ConstId := namedType "Char"

/-- The type every value converts to. -/
def objectType : PoolM ConstId := namedType "Object"

def nullType : PoolM ConstId := namedType "Nullable"

end PoolM

/-- The names that denote a class without being defined. -/
def builtinTypes : List String := ["Int", "String", "Boolean", "Char", "Nullable", "Object"]

end TreeCompiler
