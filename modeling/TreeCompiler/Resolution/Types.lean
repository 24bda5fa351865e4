import TreeCompiler.Scope
import TreeCompiler.Work

/-!
# Resolving type expressions

What a type expression denotes, as far as it is known. A named type that is not known yet gets a
placeholder on the first attempt, and the placeholder is filled once the name is resolved, so
whatever was built on it stays valid.
-/

namespace TreeCompiler

/-- What an attempt to resolve a node came to. -/
inductive Progress where
  | done
  /-- The name is not known yet. -/
  | deferred
  /-- The symbol table is still putting the component together. -/
  | waiting
  deriving DecidableEq, Repr, Inhabited

def Progress.name : Progress → String
  | .done => "Done"
  | .deferred => "Deferred"
  | .waiting => "Waiting"

/-- What a name denotes where a type is expected. -/
inductive TypeLookup where
  | type (type : ConstId)
  | notAType
  | unknown
  | waiting
  deriving DecidableEq, Repr, Inhabited

namespace Resolution

open WorkM

/-- Looks at nodes in order up to the first whose type is not known. -/
def allKnown (look : NodeId → WorkM (Option ConstId)) : List NodeId → WorkM (Option (List ConstId))
  | [] => pure (some [])
  | id :: rest => do
    match ← look id with
    | none => pure none
    | some type => pure ((← allKnown look rest).map (type :: ·))

/-- The type that a type expression denotes so far, looked for down to a depth. -/
def currentTypeWithin : Nat → NodeId → WorkM (Option ConstId)
  | 0, id => throw (.endlessTree id)
  | depth + 1, id => do
    let tree ← tree
    if tree.stage id = .failed then
      pure none
    else match tree.type? id with
      | none => throw (.notAType id)
      | some (.named _ params) =>
        match (tree.facts id).type, ← allKnown (currentTypeWithin depth) params with
        | some base, some params => some <$> onPool (.parameterizedType base params)
        | _, _ => pure none
      | some (.keyword _) => pure (tree.facts id).type
      | some (.tuple elements) =>
        match ← allKnown (currentTypeWithin depth) elements with
        | some types => some <$> onPool (.tupleType types)
        | none => pure none
      | some (.nullable inner) =>
        match ← currentTypeWithin depth inner with
        | some base => some <$> onPool (.nullableType base)
        | none => pure none
      | some (.bad _) => pure none

/-- The type that a type expression denotes so far. It may still depend on placeholders. -/
def currentType (id : NodeId) : WorkM (Option ConstId) := do
  currentTypeWithin (← tree).fuel id

/-- The type that a type name stands for, if it is fully known. -/
def typedefType (typedef : NodeId) : WorkM (Option ConstId) := do
  match (← tree).stmt? typedef with
  | some (.typedef _ type) =>
    match ← attempt (currentType type) with
    | .ok (some current) =>
      match (← get).pool.isResolved current with
      | .ok true => pure (← attempt (onPool (.canonical current))).toOption
      | _ => pure none
    | _ => pure none
  | _ => pure none

/-- What a name denotes outside the unit, where a type is expected. -/
def lookupTypeSymbol (scope name : String) : WorkM TypeLookup := do
  match ← lookup scope name with
  | .found (.type type) => pure (.type type)
  | .found _ => pure .notAType
  | .notFound => pure .unknown
  | .notYet => pure .waiting

/-- What a type name denotes at a node: a type named in the unit, then a built-in class, then a
symbol. Only a name without dots can be one of the first two. -/
def lookupType (scope : String) (id : NodeId) (names : List String) : WorkM TypeLookup := do
  match names with
  | [name] =>
    match (← tree).findTypedef id name with
    | some typedef =>
      match ← typedefType typedef with
      | some type => pure (.type type)
      | none => pure .unknown
    | none =>
      if builtinTypes.contains name then .type <$> onPool (.namedType name)
      else lookupTypeSymbol scope name
  | _ => lookupTypeSymbol scope (Text.joinDots names)

/-- Notes the type of a named type expression, filling its placeholder if it has one. -/
def settleType (id : NodeId) (type : ConstId) : WorkM Unit := do
  let note := modifyFacts id fun facts => { facts with type := some type }
  match (← facts id).type with
  | none => note
  | some earlier =>
    let entry ← readPool (·.entry earlier)
    if entry.isPlaceholder then onPool (.fill earlier type) else note

/-- Gives a named type expression a placeholder, unless it has a type. -/
def deferType (id : NodeId) (name : String) : WorkM Unit := do
  if (← facts id).type.isNone then
    let placeholder ← onPool (.newPlaceholder name)
    modifyFacts id fun facts => { facts with type := some placeholder }

def resolveTypeName (scope : String) (id : NodeId) : WorkM Progress := do
  match (← tree).type? id with
  | none => throw (.notAType id)
  | some (.keyword keyword) =>
    match keyword.category? with
    | none => throw (.notACategory keyword)
    | some category =>
      let type ← onPool (.categoryType category)
      modifyFacts id fun facts => { facts with type := some type }
      pure .done
  | some (.named names _) =>
    match ← lookupType scope id names with
    | .type type =>
      settleType id type
      pure .done
    | .notAType =>
      reportAt .notAType id [Text.joinDots names]
      setStage id .failed
      pure .done
    | .unknown =>
      deferType id (Text.joinDots names)
      pure .deferred
    | .waiting =>
      deferType id (Text.joinDots names)
      pure .waiting
  | some _ => pure .done

/-- The canonical type of a type expression, which is noted at the node. A type that depends on an
open placeholder has none; its name was reported when resolution gave up on it. -/
def resolveType (id : NodeId) : WorkM (Option ConstId) := do
  match (← tree).type? id with
  | some (.bad text) =>
    reportAt .nameUnresolvable id [text]
    pure none
  | _ =>
    match ← currentType id with
    | none => pure none
    | some current =>
      if ← readPool (·.isResolved current) then
        let type ← onPool (.canonical current)
        modifyFacts id fun facts => { facts with type := some type }
        pure (some type)
      else
        pure none

end Resolution

end TreeCompiler
