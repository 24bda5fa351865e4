import TreeCompiler.Tree.Basic

/-!
# Walks over trees

The ancestors of a node, the nodes below it in pre-order, its depth, the span it covers, and the
links from children to parents.
-/

namespace TreeCompiler.Tree

/-- At most `steps` ancestors of a node, nearest first. -/
def ancestorsWithin (tree : Tree) : Nat → NodeId → List NodeId
  | 0, _ => []
  | steps + 1, id =>
    match tree.parent? id with
    | none => []
    | some parent => parent :: tree.ancestorsWithin steps parent

def ancestors (tree : Tree) (id : NodeId) : List NodeId := tree.ancestorsWithin tree.fuel id

/-- The nodes from `id` down to a depth, each before its children. -/
def preorderWithin (tree : Tree) : Nat → NodeId → List NodeId
  | 0, _ => []
  | depth + 1, id => id :: (tree.children id).flatMap (tree.preorderWithin depth)

/-- The node and everything below it, each node before its children. -/
def preorder (tree : Tree) (id : NodeId) : List NodeId := tree.preorderWithin tree.fuel id

/-- The number of nodes on the longest path down, up to a bound. -/
def depthWithin (tree : Tree) : Nat → NodeId → Nat
  | 0, _ => 0
  | depth + 1, id => 1 + ((tree.children id).map (tree.depthWithin depth)).foldl max 0

/-- The number of nodes on the longest path from a node to a leaf. -/
def depth (tree : Tree) (id : NodeId) : Nat := tree.depthWithin tree.fuel id

def spanWithin (tree : Tree) : Nat → NodeId → Span
  | 0, _ => .null
  | depth + 1, id =>
    match tree.node? id with
    | none => .null
    | some node =>
      if node.span.isNull then .union (node.form.children.map (tree.spanWithin depth))
      else node.span

/-- The span of a node: its own, or what its children cover. -/
def span (tree : Tree) (id : NodeId) : Span := tree.spanWithin tree.fuel id

/-- The links from children to parents below a node, in the order the parents are met. -/
def links (tree : Tree) (id : NodeId) : List (NodeId × NodeId) :=
  (tree.preorder id).flatMap fun parent => (tree.children parent).map fun child => (child, parent)

/-- Links every node below `root` to its parent; `root` itself gets none. Where a node is the child
of several, the last link made counts. -/
def linkParents (tree : Tree) (root : NodeId) : Tree :=
  (tree.links root).foldl (fun tree link => tree.setParent link.1 (some link.2))
    (tree.setParent root none)

def setRoot (tree : Tree) (root : NodeId) : Tree := { tree.linkParents root with root := some root }

def enclosingMethod? (tree : Tree) (id : NodeId) : Option NodeId :=
  (tree.ancestors id).find? tree.isMethod

def ancestorsInMethod (tree : Tree) (id : NodeId) : List NodeId :=
  (tree.ancestors id).takeWhile (!tree.isMethod ·)

/-- The name of the container a node stands in, or of the node itself if it is one. -/
def containerName (tree : Tree) (id : NodeId) : String :=
  ((id :: tree.ancestors id).findSome? fun node =>
    match tree.stmt? node with
    | some (.container name _) => some name
    | _ => none).getD ""

end TreeCompiler.Tree
