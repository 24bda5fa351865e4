import TreeCompiler.Span
import TreeCompiler.Tree.Facts

/-!
# Trees

A tree keeps its nodes in one table and names them by their position. A node lists its children; the
link to its parent is kept beside it. An id without a node has no form and blank facts, and changing
it changes nothing.
-/

namespace TreeCompiler

/-- A node of a tree. -/
structure Node where
  form : Form
  span : Span := .null
  parent : Option NodeId := none
  /-- False for a node whose source was understood only in part. -/
  completable : Bool := true
  facts : Facts := {}
  deriving DecidableEq, Repr, Inhabited

/-- A table of nodes, and the node the unit starts at. -/
structure Tree where
  nodes : Array Node := #[]
  root : Option NodeId := none
  deriving DecidableEq, Repr, Inhabited

namespace Tree

/-- The tree without nodes. -/
def empty : Tree := {}

def size (tree : Tree) : Nat := tree.nodes.size

/-- A bound on the depth of recursion over a tree: a path that meets no node twice is no longer. -/
def fuel (tree : Tree) : Nat := tree.size + 1

def node? (tree : Tree) (id : NodeId) : Option Node := tree.nodes[id.index]?

def form? (tree : Tree) (id : NodeId) : Option Form := (tree.node? id).map Node.form

def stmt? (tree : Tree) (id : NodeId) : Option Stmt := (tree.form? id).bind Form.stmt?

def expr? (tree : Tree) (id : NodeId) : Option Expr := (tree.form? id).bind Form.expr?

def type? (tree : Tree) (id : NodeId) : Option TypeExpr := (tree.form? id).bind Form.type?

/-- What is known about a node. -/
def facts (tree : Tree) (id : NodeId) : Facts := ((tree.node? id).map Node.facts).getD {}

/-- How far a node has come. -/
def stage (tree : Tree) (id : NodeId) : Stage := (tree.facts id).stage

def parent? (tree : Tree) (id : NodeId) : Option NodeId := (tree.node? id).bind Node.parent

def children (tree : Tree) (id : NodeId) : List NodeId := ((tree.form? id).map Form.children).getD []

/-- Whether the source of a node was understood in full. -/
def completable (tree : Tree) (id : NodeId) : Bool :=
  ((tree.node? id).map Node.completable).getD true

def isMethod (tree : Tree) (id : NodeId) : Bool := (tree.stmt? id).any Stmt.isMethod

def modify (tree : Tree) (id : NodeId) (change : Node → Node) : Tree :=
  { tree with nodes := tree.nodes.modify id.index change }

def modifyFacts (tree : Tree) (id : NodeId) (change : Facts → Facts) : Tree :=
  tree.modify id fun node => { node with facts := change node.facts }

def setStage (tree : Tree) (id : NodeId) (stage : Stage) : Tree :=
  tree.modifyFacts id fun facts => { facts with stage }

def setParent (tree : Tree) (id : NodeId) (parent : Option NodeId) : Tree :=
  tree.modify id fun node => { node with parent }

/-- Appends a node and links its children to it. Ids are natural numbers and never run out. -/
def addNode (tree : Tree) (node : Node) : NodeId × Tree :=
  let id : NodeId := ⟨tree.size⟩
  let linked := node.form.children.foldl (fun tree child => tree.setParent child (some id)) tree
  (id, { linked with nodes := linked.nodes.push node })

/-- Appends a node that nothing is known about. Only text that is no type cannot be completed. -/
def add (tree : Tree) (form : Form) (span : Span) : NodeId × Tree :=
  let completable := match form with
    | .type (.bad _) => false
    | _ => true
  tree.addNode { form, span, completable }

/-- Puts `new` in the place of `old` among the children of `parent`, wherever it stands there. The
answer says whether it stood there at all; putting a node in its own place always succeeds. -/
def replaceChild (tree : Tree) (parent old new : NodeId) : Bool × Tree :=
  if old = new then (true, tree)
  else if (tree.children parent).contains old then
    let swap (child : NodeId) := if child = old then new else child
    let tree := tree.modify parent fun node => { node with form := node.form.mapChildren swap }
    (true, (tree.setParent new (some parent)).setParent old none)
  else (false, tree)

/-- The label scope of a node, which takes the next number of the counter on first use. The counter
wraps around. -/
def labelScope (tree : Tree) (id : NodeId) (counter : UInt32) : UInt32 × Tree × UInt32 :=
  match (tree.facts id).labelScope with
  | some scope => (scope, tree, counter)
  | none =>
    (counter, tree.modifyFacts id fun facts => { facts with labelScope := some counter },
      counter + 1)

/-- Whether a node is one of the conditions of a statement, and so may skip what follows it. -/
def allowsShortCircuit (tree : Tree) (parent child : NodeId) : Bool :=
  (tree.stmt? parent).any (·.conds.contains child)

/-- Whether some node of a list is a variable declaration. -/
def declaresVariable (tree : Tree) (ids : List NodeId) : Bool :=
  ids.any fun id => match tree.stmt? id with
    | some (.varDecl ..) => true
    | _ => false

/-- Whether some node of a list is a declaring condition. -/
def declaresCondition (tree : Tree) (ids : List NodeId) : Bool :=
  ids.any fun id => match tree.stmt? id with
    | some (.condDecl ..) => true
    | _ => false

/-- Whether the code of a statement enters a scope: blocks with variables other than a method's
body, every `for`, and conditionals whose conditions declare. -/
def entersScope (tree : Tree) (id : NodeId) : Bool :=
  match tree.stmt? id with
  | some (.block stmts) =>
    !(tree.parent? id).any tree.isMethod && tree.declaresVariable stmts
  | some (.forLoop ..) => true
  | some (.ifElse conds ..) => tree.declaresCondition conds
  | some (.whileLoop conds ..) => tree.declaresCondition conds
  | _ => false

end Tree

end TreeCompiler
