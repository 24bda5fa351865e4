import TreeCompiler.Resolution.Types

/-!
# Resolving names

What a name in an expression means: a local or parameter, a type named in the unit, a built-in
class, or a symbol. The first that applies counts.
-/

namespace TreeCompiler

/-- What a name in an expression was found to mean. -/
inductive NameLookup where
  | bound (binding : Binding)
  | unknown
  | waiting
  deriving DecidableEq, Repr, Inhabited

namespace Tree

/-- Whether resolving a node may have to be put off: it is a name or a named type. -/
def isDeferrable (tree : Tree) (id : NodeId) : Bool :=
  match tree.form? id with
  | some (.type (.named ..)) | some (.expr (.name _)) => true
  | _ => false

/-- The name to report for a node that could not be resolved. -/
def unresolvedName (tree : Tree) (id : NodeId) : String :=
  match tree.form? id with
  | some (.type type) => type.qualifiedName?.getD ""
  | some (.expr (.name name)) => name
  | _ => id.text

end Tree

namespace Resolution

open WorkM

/-- What a name denotes outside the unit. -/
def lookupSymbol (scope name : String) : WorkM NameLookup := do
  match ← lookup scope name with
  | .found component => pure (.bound component.binding)
  | .notFound => pure .unknown
  | .notYet => pure .waiting

/-- What a name without dots means at a node, if the unit itself or the language says so. -/
def lookupInUnit (id : NodeId) (name : String) : WorkM (Option NameLookup) := do
  let tree ← tree
  match tree.findLocal id name with
  | some decl => pure (some (.bound (.localDecl decl)))
  | none =>
    match tree.findTypedef id name with
    | some typedef =>
      match ← typedefType typedef with
      | some type => pure (some (.bound (.type type)))
      | none => pure (some .unknown)
    | none =>
      if builtinTypes.contains name then
        pure (some (.bound (.type (← onPool (.namedType name)))))
      else
        pure none

def lookupName (scope : String) (id : NodeId) (name : String) : WorkM NameLookup := do
  if Text.hasDot name then
    lookupSymbol scope name
  else
    match ← lookupInUnit id name with
    | some answer => pure answer
    | none => lookupSymbol scope name

/-- Attempts to resolve a node. Nodes without a name are resolved as they stand. -/
def resolveNode (scope : String) (id : NodeId) : WorkM Progress := do
  match (← tree).form? id with
  | some (.type _) => resolveTypeName scope id
  | some (.expr (.name name)) =>
    match ← lookupName scope id name with
    | .bound binding =>
      modifyFacts id fun facts => { facts with binding := some binding }
      pure .done
    | .unknown => pure .deferred
    | .waiting => pure .waiting
  | _ => pure .done

end Resolution

end TreeCompiler
