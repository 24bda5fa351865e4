import TreeCompiler.Tree.Walk

/-!
# Lexical scope

Which declaration a name refers to at a node. Locals are visible after their declaration in the
enclosing blocks; a declaring condition is visible to later conditions and to the body, but not to
the other branch. Parameters are visible in the whole method, and a name for a type in its whole
block. Nothing outside the method is visible.
-/

namespace TreeCompiler.Tree

def declaresLocal (tree : Tree) (name : String) (id : NodeId) : Bool :=
  (tree.stmt? id).bind Stmt.declaredName? == some name

/-- The latest declaration of a local among the nodes before `child`, or among all if `child` is
none of them. -/
def declaredBefore (tree : Tree) (name : String) (child : NodeId) (ids : List NodeId) :
    Option NodeId :=
  (ids.takeWhile (· ≠ child)).reverse.find? (tree.declaresLocal name)

/-- The declaration that a statement makes visible to its child. -/
def declaredIn (tree : Tree) (name : String) (child : NodeId) : Stmt → Option NodeId
  | .block stmts => tree.declaredBefore name child stmts
  | .ifElse conds _ elseBranch =>
    if elseBranch = some child then none else tree.declaredBefore name child conds
  | .whileLoop conds _ _ => tree.declaredBefore name child conds
  | .forLoop init conds _ _ =>
    (tree.declaredBefore name child conds).or (tree.declaredBefore name child init)
  | _ => none

/-- The declaration visible at `child` from the given ancestors, nearest first. The search ends at
the method, whose parameters stand for themselves by their types. -/
def findLocalAlong (tree : Tree) (name : String) : NodeId → List NodeId → Option NodeId
  | _, [] => none
  | child, parent :: rest =>
    match tree.stmt? parent with
    | some (.method _ params _ _) => (params.reverse.find? (·.name == name)).map Param.type
    | some stmt =>
      match tree.declaredIn name child stmt with
      | some decl => some decl
      | none => tree.findLocalAlong name parent rest
    | none => tree.findLocalAlong name parent rest

/-- The declaration that a name refers to at a node: a variable, a declaring condition, or the type
of a parameter. -/
def findLocal (tree : Tree) (id : NodeId) (name : String) : Option NodeId :=
  tree.findLocalAlong name id (tree.ancestors id)

def definesType (tree : Tree) (name : String) (id : NodeId) : Bool :=
  match tree.stmt? id with
  | some (.typedef defined _) => defined == name
  | _ => false

def typedefIn (tree : Tree) (name : String) (block : NodeId) : Option NodeId :=
  match tree.stmt? block with
  | some (.block stmts) => stmts.find? (tree.definesType name)
  | _ => none

/-- The definition of a type name that is visible at a node. -/
def findTypedef (tree : Tree) (id : NodeId) (name : String) : Option NodeId :=
  (tree.ancestorsInMethod id).findSome? (tree.typedefIn name)

end TreeCompiler.Tree
