import TreeCompiler.Jumps
import TreeCompiler.Validation.Expr

/-!
# Validating statements

Statements are checked for what they may hold: names declared once, conditions that are truth
values, arms of a switch that are distinct constants, returns that match the method, jumps that go
somewhere. Every part of a statement is checked even after another part has failed, unless it
depends on it.
-/

namespace TreeCompiler.Validation

open WorkM

/-- How the parts of a statement are validated. -/
structure Validator where
  type : NodeId → WorkM (Option ConstId)
  expr : ExprValidator
  /-- A statement, inside a method with the given return types. -/
  stmt : List ConstId → NodeId → WorkM (Option NodeId)

namespace Validator

variable (validator : Validator) (returns : List ConstId)

/-- Validates a node of any kind. -/
def node (id : NodeId) : WorkM (Option NodeId) := do
  match (← tree).form? id with
  | some (.expr _) => validator.expr id none
  | some (.type _) => pure ((← validator.type id).map fun _ => id)
  | some (.stmt _) | none => validator.stmt returns id

def nodeOk (id : NodeId) : WorkM Bool := do pure (← validator.node returns id).isSome

def exprOk (id : NodeId) (required : Option ConstId) : WorkM Bool := do
  pure (← validator.expr id required).isSome

def typeOk (id : NodeId) : WorkM Bool := do pure (← validator.type id).isSome

def nodesOk (ids : List NodeId) : WorkM Bool := checkAll (validator.nodeOk returns) ids

/-- The types of the parameters, which have names of their own. -/
def paramsOk (seen : List String) : List Param → WorkM Bool
  | [] => pure true
  | param :: rest => do
    let typeOk ← validator.typeOk param.type
    let fresh := !seen.contains param.name
    if !fresh then
      reportAt .nameCollision param.type [param.name]
    let restOk ← paramsOk (param.name :: seen) rest
    pure (typeOk && fresh && restOk)

def returnTypes (ids : List NodeId) : WorkM (Option (List ConstId)) := do
  pure (allThere (← ids.mapM validator.type))

/-- A method: its parameters and return types, and then its body. -/
def methodOk (params : List Param) (results : List NodeId) (body : NodeId) : WorkM Bool := do
  let paramsOk ← validator.paramsOk [] params
  match paramsOk, ← validator.returnTypes results with
  | true, some types => validator.nodeOk types body
  | _, _ => pure false

/-- The name that a statement of a block brings into the block. -/
def blockName? : Stmt → Option String
  | .varDecl _ name _ | .condDecl _ name _ | .typedef name _ => some name
  | _ => none

/-- A block. A statement that declares a name again fails without being looked into. -/
def blockOk (declared : List String) : List NodeId → WorkM Bool
  | [] => pure true
  | id :: rest => do
    match ((← tree).stmt? id).bind blockName? with
    | some name =>
      if declared.contains name then
        reportAt .nameCollision id [name]
        setStage id .failed
        let _ ← blockOk declared rest
        pure false
      else
        let ok ← validator.nodeOk returns id
        let restOk ← blockOk (name :: declared) rest
        pure (ok && restOk)
    | none =>
      let ok ← validator.nodeOk returns id
      let restOk ← blockOk declared rest
      pure (ok && restOk)

/-- A variable and its initial value. -/
def varDeclOk (type : NodeId) (init : Option NodeId) : WorkM Bool := do
  match ← validator.type type, init with
  | some type, some init => validator.exprOk init (some type)
  | some _, none => pure true
  | none, _ => pure false

/-- An assignment, whose target has to be a variable or parameter. A target that has failed is not
reported again. -/
def assignOk (target value : NodeId) : WorkM Bool := do
  let tree ← tree
  match tree.expr? target, (tree.facts target).binding with
  | some (.name _), some (.localDecl _) =>
    match ← validator.expr target none with
    | none => pure false
    | some target => validator.exprOk value (← facts target).type
  | expr, _ =>
    if tree.stage target ≠ .failed then
      let name := match expr with
        | some (.name name) => name
        | _ => target.text
      reportAt .notAssignable target [name]
    pure false

def condOk (cond : NodeId) : WorkM Bool := do
  match (← tree).stmt? cond with
  | some _ => pure (← validator.stmt returns cond).isSome
  | none =>
    let boolean ← onPool .booleanType
    validator.exprOk cond (some boolean)

def condsOk (conds : List NodeId) : WorkM Bool := checkAll (validator.condOk returns) conds

def condDeclOk (type value : NodeId) : WorkM Bool := do
  match ← validator.type type with
  | none => pure false
  | some type =>
    let nullable ← onPool (.nullableType type)
    validator.exprOk value (some nullable)

/-- Whether every condition of a statement is known to be true. -/
def alwaysTrue (id : NodeId) : WorkM Bool := do
  match (← tree).stmt? id with
  | none => pure false
  | some stmt => stmt.conds.allM fun cond => do pure ((← constantBool cond) == some true)

def isEmptyBlock (tree : Tree) (id : NodeId) : Bool :=
  match tree.stmt? id with
  | some (.block []) => true
  | _ => false

/-- A loop. One that tests first, always goes on and does nothing is refused. -/
def whileOk (id : NodeId) (conds : List NodeId) (body : NodeId) (testLast : Bool) : WorkM Bool := do
  let condsOk ← validator.condsOk returns conds
  let bodyOk ← validator.nodeOk returns body
  if condsOk && bodyOk && !testLast then
    if ← alwaysTrue id then
      if isEmptyBlock (← tree) body then
        reportAt .infiniteLoop id []
        pure false
      else
        pure true
    else
      pure true
  else
    pure (condsOk && bodyOk)

/-- What the arms of a switch checked so far hold. -/
structure Arms where
  /-- The canonical values of earlier arms. -/
  seen : List ConstId := []
  hasDefault : Bool := false

/-- The values of an arm, each of which has to be a constant of its own. -/
def armValuesOk (type : Option ConstId) (seen : List ConstId) :
    List NodeId → WorkM (Bool × List ConstId)
  | [] => pure (true, seen)
  | value :: rest => do
    match ← validator.expr value type with
    | none =>
      let (_, seen) ← armValuesOk type seen rest
      pure (false, seen)
    | some value =>
      match (← facts value).constant with
      | none =>
        reportAt .notConstant value []
        let (_, seen) ← armValuesOk type seen rest
        pure (false, seen)
      | some constant =>
        let canonical ← onPool (.canonical constant)
        if seen.contains canonical then
          reportAt .switchCaseDuplicate value [← describe constant]
          let (_, seen) ← armValuesOk type seen rest
          pure (false, seen)
        else
          armValuesOk type (canonical :: seen) rest

def armOk (type : Option ConstId) (arms : Arms) (id : NodeId) : WorkM (Bool × Arms) := do
  match (← tree).stmt? id with
  | some (.arm values body) =>
    let isDefault := values.isEmpty
    let repeated := isDefault && arms.hasDefault
    if repeated then
      reportAt .switchDefaultDuplicate id []
    let (valuesOk, seen) ← validator.armValuesOk type arms.seen values
    let bodyOk ← validator.nodeOk returns body
    pure (!repeated && valuesOk && bodyOk, { seen, hasDefault := arms.hasDefault || isDefault })
  | _ => throw (.notAnArm id)

/-- The arms of a switch. An arm that was validated before is passed over. -/
def armsOk (type : Option ConstId) (arms : Arms) : List NodeId → WorkM Bool
  | [] => pure true
  | id :: rest => do
    match ← start id with
    | some done =>
      let restOk ← armsOk type arms rest
      pure (done.isSome && restOk)
    | none =>
      let (ok, arms) ← validator.armOk returns type arms id
      let _ ← conclude id (if ok then some id else none)
      let restOk ← armsOk type arms rest
      pure (ok && restOk)

def switchOk (value : NodeId) (cases : List NodeId) : WorkM Bool := do
  match ← validator.expr value none with
  | none => pure false
  | some value => validator.armsOk returns (← facts value).type {} cases

/-- A return, with a value for every return type of the method. -/
def returnOk (id : NodeId) (values : List NodeId) : WorkM Bool := do
  if values.length = returns.length then
    checkAll (fun entry => validator.exprOk entry.1 (some entry.2)) (values.zip returns)
  else
    reportAt .returnExpected id [toString returns.length, toString values.length]
    pure false

/-- Whether a statement is valid, given how its parts are validated. -/
def stmtOk (id : NodeId) : Stmt → WorkM Bool
  | .container _ members => validator.nodesOk returns members
  | .method _ params results body => validator.methodOk params results body
  | .block stmts => validator.blockOk returns [] stmts
  | .evaluate expr => validator.exprOk expr none
  | .varDecl type _ init => validator.varDeclOk type init
  | .assign target value => validator.assignOk target value
  | .typedef _ type => validator.typeOk type
  | .ifElse conds thenBranch elseBranch => do
    let condsOk ← validator.condsOk returns conds
    let branchesOk ← validator.nodesOk returns (thenBranch :: elseBranch.toList)
    pure (condsOk && branchesOk)
  | .whileLoop conds body testLast => validator.whileOk returns id conds body testLast
  | .forLoop init conds updates body => do
    let initOk ← validator.nodesOk returns init
    let condsOk ← validator.condsOk returns conds
    let updatesOk ← validator.nodesOk returns updates
    let bodyOk ← validator.nodeOk returns body
    pure (initOk && condsOk && updatesOk && bodyOk)
  | .switch value cases => validator.switchOk returns value cases
  | .arm .. => throw (.armOutsideSwitch id)
  | .labeled _ body => do
    let labelOk ← Jump.checkLabel id
    let bodyOk ← validator.nodeOk returns body
    pure (labelOk && bodyOk)
  | .breakOut _ | .continueLoop _ => do pure (← Jump.resolve id).isSome
  | .returnValues values => validator.returnOk returns id values
  | .condDecl type _ value => validator.condDeclOk type value

/-- Validates a statement, given how its parts are validated. -/
def validateStmt (id : NodeId) : WorkM (Option NodeId) :=
  once id do
    match (← tree).stmt? id with
    | none => throw (.notAStatement id)
    | some stmt => pure (if ← validator.stmtOk returns id stmt then some id else none)

end Validator

/-- How nodes are validated down to a depth. -/
def validatorWithin : Nat → Validator
  | 0 =>
    { type := validateTypeWithin 0
      expr := validateExprWithin 0
      stmt := fun _ id => throw (.endlessTree id) }
  | depth + 1 =>
    { type := validateTypeWithin (depth + 1)
      expr := validateExprWithin (depth + 1)
      stmt := (validatorWithin depth).validateStmt }

/-- Validates a statement outside of any method. -/
def validateStmt (id : NodeId) : WorkM (Option NodeId) := do
  (validatorWithin (← tree).fuel).stmt [] id

def validate (id : NodeId) : WorkM (Option NodeId) := do
  (validatorWithin (← tree).fuel).node [] id

end TreeCompiler.Validation
