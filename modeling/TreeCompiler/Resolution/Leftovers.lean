import TreeCompiler.Resolution.Names

/-!
# Names that stay unresolved

When resolution gives up, every node that is left fails. A use of an alias that fails only because
the alias itself does is not reported, unless it lies on a cycle of aliases.
-/

namespace TreeCompiler

namespace Tree

/-- The type expression behind the alias that a node names, if it names one. -/
def aliasedType? (tree : Tree) (id : NodeId) : Option NodeId :=
  match tree.type? id with
  | some (.named [name] _) =>
    match (tree.findTypedef id name).bind tree.stmt? with
    | some (.typedef _ type) => some type
    | _ => none
  | _ => none

/-- The nodes of an alias's type on whose account the alias fails. -/
def failingParts (tree : Tree) (leftovers : List NodeId) (type : NodeId) : List NodeId :=
  (tree.preorder type).filter fun id =>
    leftovers.contains id || !tree.completable id || tree.stage id == .failed

/-- The uses of aliases among the leftovers, each with the nodes on whose account it fails. -/
def aliasCauses (tree : Tree) (leftovers : List NodeId) : List (NodeId × List NodeId) :=
  leftovers.filterMap fun id =>
    (tree.aliasedType? id).map fun type => (id, tree.failingParts leftovers type)

end Tree

/-- The nodes reached from a frontier in a number of steps, with those seen before. -/
def reachWithin (next : NodeId → List NodeId) :
    Nat → List NodeId → List NodeId → List NodeId
  | 0, seen, _ => seen
  | steps + 1, seen, frontier =>
    match ((frontier.flatMap next).eraseDups).filter (!seen.contains ·) with
    | [] => seen
    | fresh => reachWithin next steps (seen ++ fresh) fresh

/-- The nodes on whose account a node fails according to a list of causes. -/
def causesOf (causes : List (NodeId × List NodeId)) (id : NodeId) : List NodeId :=
  (causes.lookup id).getD []

/-- Whether a node is among its own causes, directly or through others. -/
def isOwnCause (causes : List (NodeId × List NodeId)) (id : NodeId) : Bool :=
  let direct := (causesOf causes id).eraseDups
  (reachWithin (causesOf causes) causes.length direct direct).contains id

/-- The leftovers that fail with the alias they name and need no report of their own. -/
def Tree.cascaded (tree : Tree) (leftovers : List NodeId) : List NodeId :=
  let causes := tree.aliasCauses leftovers
  (causes.filter fun (id, parts) => !parts.isEmpty && !isOwnCause causes id).map (·.1)

namespace Resolution

open WorkM

/-- Fails nodes; those that are not excused are reported. -/
def failAll (excused : List NodeId) : List NodeId → WorkM Unit
  | [] => pure ()
  | id :: rest => do
    unless excused.contains id do
      reportAt .nameUnresolvable id [(← tree).unresolvedName id]
    setStage id .failed
    failAll excused rest

def giveUp (leftovers : List NodeId) : WorkM Unit := do
  failAll ((← tree).cascaded leftovers) leftovers

end Resolution

end TreeCompiler
