import TreeCompiler.Pool.Constant
import TreeCompiler.Tree.Form

/-!
# Facts about nodes

What the compiler finds out about a node: how far it has come, its type and value, what its name is
bound to, where its jump goes, and whether control reaches it.
-/

namespace TreeCompiler

/-- How far a node has come. A failed node goes no further. -/
inductive Stage where
  | initial
  | resolving
  | resolved
  | validating
  | validated
  | emitted
  | failed
  deriving DecidableEq, Repr, Inhabited

namespace Stage

/-- Every stage, in order. -/
def all : List Stage :=
  [.initial, .resolving, .resolved, .validating, .validated, .emitted, .failed]

def rank : Stage → Nat
  | .initial => 0
  | .resolving => 1
  | .resolved => 2
  | .validating => 3
  | .validated => 4
  | .emitted => 5
  | .failed => 6

def name : Stage → String
  | .initial => "Initial"
  | .resolving => "Resolving"
  | .resolved => "Resolved"
  | .validating => "Validating"
  | .validated => "Validated"
  | .emitted => "Emitted"
  | .failed => "Failed"

/-- Whether one stage comes no later than another. -/
def isUpTo (stage target : Stage) : Bool := stage.rank ≤ target.rank

def ofName? (name : String) : Option Stage := all.find? (·.name == name)

/-- Whether the stage has been reached. A failed node has reached nothing. -/
def hasReached (stage target : Stage) : Bool := stage ≠ .failed && target.isUpTo stage

end Stage

/-- How well a type matches the type its place asks for. -/
inductive Fit where
  | exact
  /-- It matches after an implicit conversion. -/
  | convertible
  /-- A value is packed into a tuple. -/
  | pack
  | fail
  deriving DecidableEq, Repr, Inhabited

namespace Fit

def all : List Fit := [.exact, .convertible, .pack, .fail]

def name : Fit → String
  | .exact => "Exact"
  | .convertible => "Convertible"
  | .pack => "Pack"
  | .fail => "Fail"

/-- Whether the value can be used. -/
def isFit (fit : Fit) : Bool := fit ≠ .fail

end Fit

/-- What a name means. -/
inductive Binding where
  /-- A variable or parameter. -/
  | localDecl (decl : NodeId)
  | type (type : ConstId)
  /-- A named constant from the symbol table. -/
  | constant (type value : ConstId)
  /-- A name that is neither a type nor a value. -/
  | space (name : String)
  deriving DecidableEq, Repr, Inhabited

/-- The two jumps of the language. -/
inductive JumpKind where
  | breakOut
  | continueLoop
  deriving DecidableEq, Repr, Inhabited

def JumpKind.name : JumpKind → String
  | .breakOut => "Break"
  | .continueLoop => "Continue"

/-- Where a break or continue goes. -/
structure Jump where
  target : NodeId
  /-- The number of entered scopes it leaves. -/
  depth : Nat
  kind : JumpKind
  deriving DecidableEq, Repr, Inhabited

/-- What is known about a node. -/
structure Facts where
  stage : Stage := .initial
  /-- The type of an expression, or the type that a type expression denotes. -/
  type : Option ConstId := none
  constant : Option ConstId := none
  fit : Option Fit := none
  binding : Option Binding := none
  jump : Option Jump := none
  /-- The label scope of a statement that owns labels. -/
  labelScope : Option UInt32 := none
  breakUsed : Bool := false
  continueUsed : Bool := false
  /-- Whether control reaches the statement, known after emission. -/
  reachable : Option Bool := none
  deriving DecidableEq, Repr, Inhabited

end TreeCompiler
