import TreeCompiler.Tree.Basic

/-!
# Copies of subtrees

A copy repeats forms, spans and facts under new ids. It can be dropped from the end of the table
again. Two subtrees have the same shape if they say the same, whatever their spans and facts.
-/

namespace TreeCompiler.Tree

/-- Copies a subtree down to a depth, children first. -/
def copyWithin : Nat → NodeId → StateM Tree NodeId
  | 0, id => pure id
  | depth + 1, id => do
    match (← get).node? id with
    | none => pure id
    | some node =>
      let copies ← node.form.children.mapM (copyWithin depth)
      modifyGet (·.addNode { node with form := node.form.withChildren copies, parent := none })

/-- Copies a subtree. The copy has no parent. -/
def copy (tree : Tree) (id : NodeId) : NodeId × Tree := (copyWithin tree.fuel id).run tree

/-- Drops the nodes from position `size` on, and the root if it is one of them. -/
def truncate (tree : Tree) (size : Nat) : Tree where
  nodes := tree.nodes.take size
  root := tree.root.filter (·.index < size)

/-- Whether two subtrees say the same, down to a depth. -/
def sameShapeWithin (tree : Tree) : Nat → NodeId → NodeId → Bool
  | 0, _, _ => false
  | depth + 1, first, second =>
    match tree.node? first, tree.node? second with
    | some left, some right =>
      left.completable == right.completable && left.form.shell == right.form.shell
        && left.form.children.length == right.form.children.length
        && (left.form.children.zip right.form.children).all fun pair =>
          tree.sameShapeWithin depth pair.1 pair.2
    | _, _ => false

/-- Whether two subtrees say the same. -/
def sameShape (tree : Tree) (first second : NodeId) : Bool :=
  tree.sameShapeWithin tree.fuel first second

end TreeCompiler.Tree
