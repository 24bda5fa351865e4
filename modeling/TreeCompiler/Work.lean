import TreeCompiler.Defect
import TreeCompiler.Diagnostic.Log
import TreeCompiler.Pool.Describe
import TreeCompiler.Symbols
import TreeCompiler.Tree.Walk

/-!
# Work on a unit

Everything the phases of a unit share and change: the pool, the symbol table, the counter for label
scopes, the sink for diagnostics and the tree. A phase that stops on a defect leaves what it changed
before.
-/

namespace TreeCompiler

/-- What the phases of a unit work on. -/
structure Work where
  pool : Pool := .empty
  symbols : SymbolTable := {}
  /-- The next label scope. -/
  labels : UInt32 := 0
  sink : Sink := .keeping {}
  tree : Tree := {}
  deriving Repr, Inhabited

/-- A step of work on a unit, which may stop on a defect. -/
abbrev WorkM := EStateM Defect Work

namespace WorkM

variable {α : Type}

/-- Runs a step to its end and gives its defect, if any, as a value. -/
def attempt (step : WorkM α) : WorkM (Except Defect α) := fun work =>
  match step work with
  | .ok value work => .ok (.ok value) work
  | .error defect work => .ok (.error defect) work

def onPool (step : PoolM α) : WorkM α := fun work =>
  match step work.pool with
  | .ok value pool => .ok value { work with pool }
  | .error error pool => .error (.pool error) { work with pool }

def readPool (look : Pool → Except PoolError α) : WorkM α := onPool (.read look)

def onTree (step : Tree → α × Tree) : WorkM α :=
  modifyGet fun work =>
    let (value, tree) := step work.tree
    (value, { work with tree })

def changeTree (change : Tree → Tree) : WorkM Unit :=
  modify fun work => { work with tree := change work.tree }

def tree : WorkM Tree := do pure (← get).tree

/-- What is known about a node. -/
def facts (id : NodeId) : WorkM Facts := do pure ((← tree).facts id)

/-- How far a node has come. -/
def stage (id : NodeId) : WorkM Stage := do pure ((← tree).stage id)

def setStage (id : NodeId) (stage : Stage) : WorkM Unit := changeTree (·.setStage id stage)

def modifyFacts (id : NodeId) (change : Facts → Facts) : WorkM Unit :=
  changeTree (·.modifyFacts id change)

def report (diagnostic : Diagnostic) : WorkM Unit :=
  modify fun work => { work with sink := work.sink.report diagnostic }

def reportAt (code : Code) (id : NodeId) (args : List String) : WorkM Unit := do
  report (.errorAt code args ((← tree).span id))

def describe (id : ConstId) : WorkM String := do pure ((← get).pool.describe id)

def lookup (scope name : String) : WorkM Lookup :=
  modifyGet fun work =>
    let (answer, symbols) := work.symbols.lookup scope name
    (answer, { work with symbols })

def labelScope (id : NodeId) : WorkM UInt32 :=
  modifyGet fun work =>
    let (scope, tree, labels) := work.tree.labelScope id work.labels
    (scope, { work with tree, labels })

end WorkM

end TreeCompiler
