import TreeCompiler.Emission.Expr

/-!
# Emitting statements

Code is emitted only where control can arrive. A statement that owns labels takes its label scope
when it is emitted, unless a jump took it before.
-/

namespace TreeCompiler.Emission

open EmitM

/-- How the parts of a statement are emitted. -/
structure Emitter where
  expr : NodeId → EmitM Operand
  /-- The jump taken when an expression has a truth value. -/
  branch : NodeId → Bool → Label → EmitM Unit
  stmt : NodeId → EmitM Unit

/-- Declares the register of a variable of the type that was found for a type expression. -/
def addDeclaration (register : Register) (type : NodeId) : EmitM Unit := do
  match (← facts type).type with
  | some type => add (.declare register type)
  | none => throw (.undeclaredType type)

/-- What is known about conditions that all have to hold: that one never does, or that all always
do. -/
def constantConds : List NodeId → EmitM (Option Bool)
  | [] => pure (some true)
  | cond :: rest => do
    match ← constantBool cond with
    | some false => pure (some false)
    | some true => constantConds rest
    | none =>
      match ← constantConds rest with
      | some false => pure (some false)
      | _ => pure none

def jumpRole : JumpKind → LabelKind
  | .breakOut => .breakOut
  | .continueLoop => .continueLoop

def addTimes : Nat → Op → EmitM Unit
  | 0, _ => pure ()
  | times + 1, op => do
    add op
    addTimes times op

/-- Whether a node is a type definition, which is no code anyway. -/
def isTypedef (tree : Tree) (id : NodeId) : Bool :=
  match tree.stmt? id with
  | some (.typedef ..) => true
  | _ => false

namespace Emitter

variable (emitter : Emitter)

/-- Emits statements in order. Those that control does not reach are skipped; the first of them is
reported if that is asked for and has not been done in this sequence. -/
def sequence (warn : Bool) : List NodeId → EmitM Unit
  | [] => pure ()
  | id :: rest => do
    if ← reachable then
      emitter.stmt id
      sequence warn rest
    else
      setReachable id false
      let tree ← tree
      let warnNow := warn && !isTypedef tree id
      if warnNow then
        onWork (.report (.warningAt .notReachable [] (tree.span id)))
      sequence (warn && !warnNow) rest

/-- Emits statements one by one, whether control reaches them or not. -/
def each : List NodeId → EmitM Unit
  | [] => pure ()
  | id :: rest => do
    emitter.stmt id
    each rest

/-- Emits a declaring condition: the jump depends on whether the value is null. -/
def condDecl (cond type value : NodeId) (outcome : Bool) (target : Label) : EmitM Unit := do
  let register ← declare cond
  addDeclaration register type
  let source ← emitter.expr value
  add (.move source register)
  if outcome then
    let skip ← newHelper
    add (.jumpNull (.register register) skip)
    add (.jump target)
    placeJoin skip
  else
    add (.jumpNull (.register register) target)
  setStage cond .emitted

/-- Emits a condition of a statement, with a jump when it comes out as given. -/
def cond (owner cond : NodeId) (outcome : Bool) (target : Label) : EmitM Unit := do
  let tree ← tree
  if tree.allowsShortCircuit owner cond then
    match tree.stmt? cond with
    | some (.condDecl type _ value) => emitter.condDecl cond type value outcome target
    | _ => emitter.branch cond outcome target
  else
    throw (.notACondition cond owner)

def condsOrJump (owner : NodeId) (target : Label) : List NodeId → EmitM Unit
  | [] => pure ()
  | id :: rest => do
    if ← reachable then
      emitter.cond owner id false target
      condsOrJump owner target rest

/-- Emits all conditions but the last, with a jump when one fails. -/
def leadingConds (owner : NodeId) (skip : Label) : List NodeId → EmitM Unit
  | [] => pure ()
  | id :: rest => do
    emitter.cond owner id false skip
    leadingConds owner skip rest

def condsThenJump (owner : NodeId) (conds : List NodeId) (target : Label) : EmitM Unit := do
  match conds.getLast? with
  | none => add (.jump target)
  | some last =>
    match conds.dropLast with
    | [] => emitter.cond owner last true target
    | leading =>
      let skip ← newHelper
      emitter.leadingConds owner skip leading
      emitter.cond owner last true target
      placeJoin skip

def ifElse (id : NodeId) (conds : List NodeId) (thenBranch : NodeId) (elseBranch : Option NodeId) :
    EmitM Unit := do
  let elseLabel ← label id .elseBranch
  let endLabel ← label id .endBranch
  let entersScope := (← tree).entersScope id
  addIf entersScope .enter
  emitter.condsOrJump id elseLabel conds
  emitter.stmt thenBranch
  match elseBranch with
  | some elseBranch =>
    jumpIfReachable endLabel
    placeJoin elseLabel
    emitter.stmt elseBranch
    placeJoin endLabel
  | none => placeJoin elseLabel
  addIf entersScope .exit

/-- Gives the declaring conditions of a loop their registers. -/
def declareConds : List NodeId → EmitM Unit
  | [] => pure ()
  | id :: rest => do
    match (← tree).stmt? id with
    | some (.condDecl ..) =>
      let _ ← declare id
    | _ => pure ()
    declareConds rest

/-- Enters the scope of a loop, if it has one. Its declaring conditions get their registers
there. -/
def enterLoop (entersScope : Bool) (conds : List NodeId) : EmitM Unit := do
  if entersScope then
    add .enter
    declareConds conds

/-- Emits the test behind the body of a loop, if control arrives there. -/
def testAgain (id : NodeId) (conds : List NodeId) (repeatLabel : Label) : EmitM Unit := do
  if ← reachable then
    emitter.condsThenJump id conds repeatLabel

/-- Emits a loop whose body runs once at most: its conditions never hold, and it may test last. -/
def whileNever (id body : NodeId) (testLast : Bool) (continueLabel breakLabel : Label) :
    EmitM Unit := do
  if testLast then
    let entersScope := (← tree).entersScope id
    addIf entersScope .enter
    emitter.stmt body
    placeJoin continueLabel
    placeJoin breakLabel
    addIf entersScope .exit
  else
    setReachable body false

/-- Emits a loop that goes on until it is left by a jump. -/
def whileAlways (body : NodeId) (repeatLabel continueLabel breakLabel : Label) : EmitM Unit := do
  place repeatLabel
  place continueLabel
  emitter.stmt body
  jumpIfReachable repeatLabel
  placeJoin breakLabel

/-- Emits a loop with its test behind the body. If the test comes first, the loop starts there. -/
def whileTested (id : NodeId) (conds : List NodeId) (body : NodeId) (testLast : Bool)
    (repeatLabel continueLabel breakLabel : Label) : EmitM Unit := do
  let entersScope := (← tree).entersScope id
  enterLoop entersScope conds
  addIf (!testLast) (.jump continueLabel)
  place repeatLabel
  emitter.stmt body
  placeJoin continueLabel
  emitter.testAgain id conds repeatLabel
  placeJoin breakLabel
  addIf entersScope .exit

def whileLoop (id : NodeId) (conds : List NodeId) (body : NodeId) (testLast : Bool) :
    EmitM Unit := do
  let repeatLabel ← label id .repeatLoop
  let continueLabel ← label id .continueLoop
  let breakLabel ← label id .breakOut
  match ← constantConds conds with
  | some false => emitter.whileNever id body testLast continueLabel breakLabel
  | some true => emitter.whileAlways body repeatLabel continueLabel breakLabel
  | none => emitter.whileTested id conds body testLast repeatLabel continueLabel breakLabel

def forLoop (id : NodeId) (init conds updates : List NodeId) (body : NodeId) : EmitM Unit := do
  let testLabel ← label id .test
  let continueLabel ← label id .continueLoop
  let breakLabel ← label id .breakOut
  add .enter
  emitter.each init
  place testLabel
  emitter.condsOrJump id breakLabel conds
  emitter.stmt body
  placeJoin continueLabel
  emitter.each updates
  jumpIfReachable testLabel
  placeJoin breakLabel
  add .exit

/-- An arm of a switch with the label of its body. -/
structure Arm where
  id : NodeId
  label : Label
  body : NodeId

def armTests (value : Operand) (target : Label) : List NodeId → EmitM Unit
  | [] => pure ()
  | id :: rest => do
    match (← facts id).constant with
    | none => throw (.variableCase id)
    | some constant =>
      add (.jumpEq value (.constant constant) target)
      armTests value target rest

/-- Emits the comparisons of the arms from `index` on. Gives the arms and the label of the last
default. -/
def switchTests (id : NodeId) (value : Operand) (default : Option Label) :
    Nat → List NodeId → EmitM (Option Label × List Arm)
  | _, [] => pure (default, [])
  | index, armId :: rest => do
    match (← tree).stmt? armId with
    | some (.arm values body) =>
      let target ← label id (.switchCase index)
      armTests value target values
      let default := if values.isEmpty then some target else default
      let (default, arms) ← switchTests id value default (index + 1) rest
      pure (default, { id := armId, label := target, body } :: arms)
    | _ => throw (.notAnArm armId)

/-- Emits the bodies of arms; each ends behind the switch. -/
def armBodies (breakLabel : Label) : List Arm → EmitM Unit
  | [] => pure ()
  | arm :: rest => do
    placeJoin arm.label
    setReachable arm.id (← reachable)
    emitter.stmt arm.body
    jumpIfReachable breakLabel
    setStage arm.id .emitted
    armBodies breakLabel rest

def switch (id value : NodeId) (cases : List NodeId) : EmitM Unit := do
  let breakLabel ← label id .breakOut
  let value ← emitter.expr value
  let (default, arms) ← switchTests id value none 0 cases
  add (.jump (default.getD breakLabel))
  emitter.armBodies breakLabel arms
  placeJoin breakLabel

def varDecl (id type : NodeId) (init : Option NodeId) : EmitM Unit := do
  let register ← declare id
  addDeclaration register type
  match init with
  | none => pure ()
  | some init =>
    let source ← emitter.expr init
    add (.move source register)

def assign (target value : NodeId) : EmitM Unit := do
  match ← emitter.expr target with
  | .constant _ => throw (.constantTarget target)
  | .register register =>
    let source ← emitter.expr value
    add (.move source register)

/-- Emits a break or continue: the scopes it leaves are left before it jumps. -/
def jump (id : NodeId) : EmitM Unit := do
  match (← facts id).jump with
  | none => throw (.unboundJump id)
  | some jump =>
    let target ← label jump.target (jumpRole jump.kind)
    addTimes jump.depth .exit
    add (.jump target)

/-- Emits a statement that control reaches, given how its parts are emitted. -/
def stmtBody (warn : Bool) (id : NodeId) : Stmt → EmitM Unit
  | .block stmts => do
    let entersScope := (← tree).entersScope id
    addIf entersScope .enter
    emitter.sequence warn stmts
    addIf entersScope .exit
  | .evaluate expr => do
    let _ ← emitter.expr expr
  | .varDecl type _ init => emitter.varDecl id type init
  | .assign target value => emitter.assign target value
  | .typedef .. => pure ()
  | .ifElse conds thenBranch elseBranch => emitter.ifElse id conds thenBranch elseBranch
  | .whileLoop conds body testLast => emitter.whileLoop id conds body testLast
  | .forLoop init conds updates body => emitter.forLoop id init conds updates body
  | .switch value cases => emitter.switch id value cases
  | .labeled _ body => do
    emitter.stmt body
    if (← facts id).breakUsed then
      placeJoin (← label id .breakOut)
  | .breakOut _ | .continueLoop _ => jump id
  | .returnValues [] => add .returnNothing
  | .returnValues values => do add (.returnValues (← emitAll emitter.expr values))
  | .container .. | .method .. | .arm .. | .condDecl .. => throw (.notEmittable id)

/-- Emits a statement, given how its parts are emitted. Where control does not arrive, that is only
noted. -/
def stmtOnce (warn : Bool) (id : NodeId) : EmitM Unit := do
  if ← reachable then
    let tree ← tree
    if tree.stage id ≠ .validated then
      throw (.notValidated id (tree.stage id))
    setReachable id true
    match tree.stmt? id with
    | none => throw (.notAStatement id)
    | some stmt =>
      emitter.stmtBody warn id stmt
      setStage id .emitted
  else
    setReachable id false

end Emitter

/-- How nodes are emitted down to a depth. -/
def emitterWithin (warn : Bool) : Nat → Emitter
  | 0 =>
    { expr := emitExprWithin 0
      branch := emitBranchWithin 0
      stmt := fun id => throw (.endlessTree id) }
  | depth + 1 =>
    { expr := emitExprWithin (depth + 1)
      branch := emitBranchWithin (depth + 1)
      stmt := (emitterWithin warn depth).stmtOnce warn }

/-- Gives every parameter a register. -/
def bindParams : List Param → EmitM Unit
  | [] => pure ()
  | param :: rest => do
    let _ ← bindRegister param.type
    bindParams rest

/-- Emits the body of a method. A block that is the body is no scope of its own. -/
def emitBody (warn : Bool) (body : NodeId) : EmitM Unit := do
  let tree ← tree
  let emitter := emitterWithin warn tree.fuel
  match tree.stmt? body with
  | some (.block stmts) =>
    setReachable body true
    emitter.sequence warn stmts
    setStage body .emitted
  | _ => emitter.stmt body

/-- Ends a method whose body may be run through. Without return types it returns; otherwise the
missing return is reported. -/
def emitEnd (id : NodeId) (name : String) (returns : List NodeId) : EmitM Unit := do
  if ← reachable then
    if returns.isEmpty then
      add .returnNothing
    else
      onWork (.reportAt .returnRequired id [name])

def emitMethod (warn : Bool) (id : NodeId) : EmitM Method := do
  match (← tree).stmt? id with
  | some (.method name params returns body) =>
    bindParams params
    emitBody warn body
    emitEnd id name returns
    setStage id .emitted
    tryCode fun code => (code.finish name, code)
  | _ => throw (.notAMethod id)

/-- Emits the method at a node of a unit, with warnings about unreachable statements if asked
for. -/
def method (warn : Bool) (id : NodeId) : WorkM Method := fun work =>
  match emitMethod warn id { work } with
  | .ok method emission => .ok method emission.work
  | .error defect emission => .error defect emission.work

end TreeCompiler.Emission
