import TreeCompiler.Tree.Walk

/-!
# Building trees

Trees are built from the leaves up. Every leaf gets a span of its own behind the one before it, as
wide as its source text; a composite node has none and covers what its children cover.
-/

namespace TreeCompiler

/-- A tree being built, and the place where its text so far ends. -/
structure Builder where
  tree : Tree := {}
  file : Nat := 0
  cursor : Nat := 0
  deriving DecidableEq, Repr, Inhabited

/-- A step in building a tree. -/
abbrev BuilderM := StateM Builder

namespace BuilderM

def add (form : Form) (span : Span) : BuilderM NodeId :=
  modifyGet fun builder =>
    let (id, tree) := builder.tree.add form span
    (id, { builder with tree })

/-- The span of the next leaf, which is at least one byte wide and one byte behind the last. -/
def leafSpan (width : Nat) : BuilderM Span :=
  modifyGet fun builder =>
    let lo := builder.cursor + 1
    let hi := lo + max width 1
    ({ file := builder.file, lo, hi }, { builder with cursor := hi })

def leaf (form : Form) (width : Nat) : BuilderM NodeId := do
  add form (← leafSpan width)

/-- Appends a composite node. -/
def node (form : Form) : BuilderM NodeId := add form .null

/-- Appends a composite statement. -/
def stmt (s : Stmt) : BuilderM NodeId := node (.stmt s)

/-- Appends a composite expression. -/
def expr (e : Expr) : BuilderM NodeId := node (.expr e)

def int (value : Int64) : BuilderM NodeId :=
  leaf (.expr (.literal (.int value))) (toString value.toInt).utf8ByteSize

def string (value : String) : BuilderM NodeId :=
  leaf (.expr (.literal (.string value))) (value.utf8ByteSize + 2)

def char (value : Char) : BuilderM NodeId := leaf (.expr (.literal (.char value))) 3

def bool (value : Bool) : BuilderM NodeId := leaf (.expr (.literal (.bool value))) 5

def null : BuilderM NodeId := leaf (.expr (.literal .null)) 4

def name (text : String) : BuilderM NodeId := leaf (.expr (.name text)) text.utf8ByteSize

def namedType (text : String) (params : List NodeId) : BuilderM NodeId :=
  leaf (.type (.named (Text.splitDots text) params)) text.utf8ByteSize

def keywordType (keyword : Keyword) : BuilderM NodeId :=
  leaf (.type (.keyword keyword)) keyword.text.utf8ByteSize

def tupleType (elements : List NodeId) : BuilderM NodeId := node (.type (.tuple elements))

def nullableType (inner : NodeId) : BuilderM NodeId := node (.type (.nullable inner))

def badType (text : String) : BuilderM NodeId := leaf (.type (.bad text)) text.utf8ByteSize

/-- An assignment to a name. The name's leaf follows the value. -/
def assign (target : String) (value : NodeId) : BuilderM NodeId := do
  stmt (.assign (← name target) value)

def jumpWidth (word : String) (label : Option String) : Nat :=
  word.utf8ByteSize + (label.map (·.utf8ByteSize + 1)).getD 0

def breakOut (label : Option String) : BuilderM NodeId :=
  leaf (.stmt (.breakOut label)) (jumpWidth "break" label)

def continueLoop (label : Option String) : BuilderM NodeId :=
  leaf (.stmt (.continueLoop label)) (jumpWidth "continue" label)

def returnValues : List NodeId → BuilderM NodeId
  | [] => leaf (.stmt (.returnValues [])) 6
  | values => stmt (.returnValues values)

def finish (root : NodeId) : BuilderM Tree := do
  pure ((← get).tree.setRoot root)

end BuilderM

end TreeCompiler
