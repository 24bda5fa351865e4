import TreeCompiler.Pool.Basic

/-!
# Placeholders and canonical constants

A filled placeholder stands for its target. Following it leads to a value or to a placeholder that
is still open. A constant is resolved once nothing it is built from is an open placeholder, and its
canonical twin is the constant built from what its parts stand for. A constant that contains itself
has no twin; the walks stop with an error on one, as a path through the pool that meets no entry
twice is no longer than the pool.
-/

namespace TreeCompiler

namespace Pool

/-- Follows at most `steps` placeholders. -/
def followWithin (pool : Pool) : Nat → ConstId → Except PoolError ConstId
  | 0, id => .error (.endless id)
  | steps + 1, id =>
    match pool.entry? id with
    | none => .error (.absent id)
    | some (.value _) => .ok id
    | some (.placeholder _ none) => .ok id
    | some (.placeholder _ (some next)) => pool.followWithin steps next

/-- What an id stands for: a value or an open placeholder. -/
def follow (pool : Pool) (id : ConstId) : Except PoolError ConstId :=
  pool.followWithin (pool.size + 1) id

/-- The constant an id stands for; nothing for an open placeholder. -/
def get (pool : Pool) (id : ConstId) : Except PoolError (Option Constant) := do
  match ← pool.entry (← pool.follow id) with
  | .value constant => pure (some constant)
  | .placeholder .. => pure none

/-- Whether an id stands for a type. An open placeholder does. -/
def isType (pool : Pool) (id : ConstId) : Except PoolError Bool := do
  match ← pool.get id with
  | some constant => pure constant.type?.isSome
  | none => pure true

/-- The truth value an id stands for, if it is one. -/
def bool? (pool : Pool) (id : ConstId) : Except PoolError (Option Bool) := do
  match ← pool.get id with
  | some (.bool value) => pure (some value)
  | _ => pure none

/-- The integer an id stands for, if it is one. -/
def int? (pool : Pool) (id : ConstId) : Except PoolError (Option Int64) := do
  match ← pool.get id with
  | some (.int value) => pure (some value)
  | _ => pure none

/-- Whether no open placeholder is met within the given depth. -/
def isResolvedWithin (pool : Pool) : Nat → ConstId → Except PoolError Bool
  | 0, id => .error (.endless id)
  | depth + 1, id => do
    match ← pool.get id with
    | none => pure false
    | some constant => constant.children.allM (pool.isResolvedWithin depth)

/-- Whether an id depends on no open placeholder. The parts are looked at in order, up to the first
that depends on one. -/
def isResolved (pool : Pool) (id : ConstId) : Except PoolError Bool :=
  pool.isResolvedWithin (pool.size + 1) id

end Pool

namespace PoolM

/-- The canonical twin of an id, down to the given depth. -/
def canonicalWithin : Nat → ConstId → PoolM ConstId
  | 0, id => throw (.endless id)
  | depth + 1, id => do
    let id ← read (·.follow id)
    match ← read (·.entry id) with
    | .placeholder .. => pure id
    | .value constant =>
      let rebuilt ← constant.mapChildrenM (canonicalWithin depth)
      if rebuilt = constant then pure id else intern rebuilt

/-- The id of the constant built from what the parts of `id` stand for. -/
def canonical (id : ConstId) : PoolM ConstId := do
  canonicalWithin ((← get).size + 1) id

/-- Fills a placeholder. Filling it again with an equal type changes nothing; a different type is an
error. -/
def fill (placeholder target : ConstId) : PoolM Unit := do
  match ← read (·.entry placeholder) with
  | .value _ => throw (.notPlaceholder placeholder)
  | .placeholder name existing =>
    let target ← canonical target
    if target = placeholder then
      throw (.selfReference placeholder name)
    match existing with
    | none => modify (·.setTarget placeholder target)
    | some existing =>
      if existing ≠ target then
        let previous ← canonical existing
        if previous ≠ target then
          throw (.conflict placeholder name previous target)

/-- The type of a value, down to the given depth. The types of a tuple's elements are interned in
order, up to the first element that is no value. -/
def typeOfWithin : Nat → ConstId → PoolM ConstId
  | 0, id => throw (.endless id)
  | depth + 1, id => do
    match ← read (·.get id) with
    | some (.int _) => intType
    | some (.string _) => stringType
    | some (.char _) => charType
    | some (.bool _) => booleanType
    | some .null => nullType
    | some (.tuple elements) => tupleType (← elements.mapM (typeOfWithin depth))
    | some (.type _) | none => throw (.notValue id)

def typeOf (id : ConstId) : PoolM ConstId := do
  typeOfWithin ((← get).size + 1) id

end PoolM

end TreeCompiler
