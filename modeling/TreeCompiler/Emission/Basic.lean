import TreeCompiler.Code.Buffer
import TreeCompiler.Work

/-!
# Emission of a method

The state of emitting one method: the unit's work, the code so far and all it was before, and the
registers of its locals.
-/

namespace TreeCompiler

/-- What emitting a method works on. -/
structure Emission where
  work : Work
  code : Buffer := {}
  /-- The registers of declarations, latest first. -/
  locals : List (NodeId × Register) := []
  /-- The code before every step on it, latest first. -/
  passed : List Buffer := []
  deriving Repr, Inhabited

abbrev EmitM := EStateM Defect Emission

namespace EmitM

variable {α : Type}

def onWork (step : WorkM α) : EmitM α := fun emission =>
  match step emission.work with
  | .ok value work => .ok value { emission with work }
  | .error defect work => .error defect { emission with work }

def onCode (step : Buffer → α × Buffer) : EmitM α :=
  modifyGet fun emission =>
    let (value, code) := step emission.code
    (value, { emission with code, passed := emission.code :: emission.passed })

def tryCode (step : Buffer → Except CodeError α × Buffer) : EmitM α := do
  match ← onCode step with
  | .ok value => pure value
  | .error error => throw (.code error)

def tree : EmitM Tree := do pure (← get).work.tree

/-- What is known about a node. -/
def facts (id : NodeId) : EmitM Facts := do pure ((← tree).facts id)

def setStage (id : NodeId) (stage : Stage) : EmitM Unit := onWork (.setStage id stage)

/-- Notes whether control reaches a statement. -/
def setReachable (id : NodeId) (reachable : Bool) : EmitM Unit :=
  onWork (.modifyFacts id fun facts => { facts with reachable := some reachable })

/-- Whether control reaches the end of the code so far. -/
def reachable : EmitM Bool := do pure (← get).code.reachable

/-- Appends an instruction. -/
def add (op : Op) : EmitM Unit := onCode fun code => ((), code.add op)

/-- Appends an instruction if a condition holds. -/
def addIf (cond : Bool) (op : Op) : EmitM Unit := if cond then add op else pure ()

/-- Appends a jump where control can arrive. -/
def jumpIfReachable (target : Label) : EmitM Unit := do
  if ← reachable then add (.jump target)

/-- Places a label that later instructions may jump to. -/
def place (label : Label) : EmitM Unit := tryCode (·.place label)

/-- Places a label that only earlier instructions jump to. -/
def placeJoin (label : Label) : EmitM Unit := tryCode (·.placeJoin label)

def newRegister : EmitM Register := onCode (·.newRegister)

def newHelper : EmitM Label := onCode (·.newHelper)

/-- The label of a statement in a role. -/
def label (owner : NodeId) (kind : LabelKind) : EmitM Label := do
  pure ⟨← onWork (.labelScope owner), kind⟩

def register? (decl : NodeId) : EmitM (Option Register) := do
  pure ((← get).locals.lookup decl)

def bindRegister (decl : NodeId) : EmitM Register := do
  let register ← newRegister
  modify fun emission => { emission with locals := (decl, register) :: emission.locals }
  pure register

/-- The register of a declaration, which gets one on first use. -/
def declare (decl : NodeId) : EmitM Register := do
  match ← register? decl with
  | some register => pure register
  | none => bindRegister decl

/-- The truth value that a node is known to have. -/
def constantBool (id : NodeId) : EmitM (Option Bool) := do
  match (← facts id).constant with
  | some value => onWork (.readPool (·.bool? value))
  | none => pure none

end EmitM

end TreeCompiler
