import TreeCompiler.Course

/-!
# Sessions

Units compiled together share the pool, the counter for label scopes and the options. A unit that
fails takes nothing from the others.
-/

namespace TreeCompiler

/-- What became of a unit. -/
inductive Status where
  | emitted
  /-- Errors were reported and nothing was emitted. -/
  | failed
  /-- A defect, a fatal diagnostic or too many errors ended the work on it. -/
  | abandoned
  deriving DecidableEq, Repr, Inhabited

def Status.name : Status → String
  | .emitted => "emitted"
  | .failed => "failed"
  | .abandoned => "abandoned"

/-- What compiling a unit gave. -/
structure UnitReport where
  status : Status
  methods : List Method
  diagnostics : List Diagnostic
  /-- How resolution ended, if it did. -/
  resolution : Option Outcome
  deriving Repr, Inhabited

namespace UnitReport

/-- Whether code was emitted. -/
def isEmitted (report : UnitReport) : Bool := report.status == .emitted

def count (report : UnitReport) (code : Code) : Nat := report.diagnostics.countP (·.code == code)

def method? (report : UnitReport) (name : String) : Option Method :=
  report.methods.find? (·.name == name)

end UnitReport

/-- What units compiled together share. -/
structure Session where
  pool : Pool := .empty
  /-- The next label scope. -/
  labels : UInt32 := 0
  options : Options := {}
  deriving Repr, Inhabited

/-- A compiled unit with everything that compiling it changed. -/
structure Compiled where
  report : UnitReport
  session : Session
  symbols : SymbolTable
  tree : Tree
  deriving Repr, Inhabited

namespace Course

open CourseM

/-- Takes a unit through all stages. Gives its methods unless serious diagnostics stand against
it. -/
def run : CourseM (Option (List Method)) := do
  let _ ← resolve none
  if (← get).work.sink.abortDesired then
    pure none
  else
    let root? ← validate
    if root?.isNone || (← get).work.sink.hasSerious then
      pure none
    else
      let methods ← emit
      pure (if (← get).work.sink.hasSerious then none else some methods)

end Course

def Defect.diagnostic (defect : Defect) : Diagnostic :=
  { severity := .fatal, code := .internalError, args := [defect.message] }

namespace Session

def workOn (session : Session) (symbols : SymbolTable) (tree : Tree) : Work :=
  { pool := session.pool
    symbols
    labels := session.labels
    sink := .keeping { limit := session.options.maxErrors }
    tree }

def close (session : Session) (work : Work) (status : Status) (methods : List Method)
    (resolution : Option Outcome) : Compiled :=
  { report := { status, methods, diagnostics := work.sink.entries, resolution }
    session := { session with pool := work.pool, labels := work.labels }
    symbols := work.symbols
    tree := work.tree }

def abandon (session : Session) (work : Work) (defect : Defect) (resolution : Option Outcome) :
    Compiled :=
  session.close { work with sink := work.sink.report defect.diagnostic } .abandoned [] resolution

def compile (session : Session) (symbols : SymbolTable) (tree : Tree) : Compiled :=
  let work := session.workOn symbols tree
  match tree.root with
  | none => session.abandon work .noRoot none
  | some root =>
    let course : Course :=
      { work, root, options := session.options, scope := tree.containerName root }
    match Course.run course with
    | .ok (some methods) course => session.close course.work .emitted methods course.outcome
    | .ok none course =>
      let status := if course.work.sink.abortDesired then .abandoned else .failed
      session.close course.work status [] course.outcome
    | .error defect course => session.abandon course.work defect course.outcome

end Session

end TreeCompiler
