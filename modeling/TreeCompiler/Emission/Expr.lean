import TreeCompiler.Emission.Basic

/-!
# Emitting expressions

A constant expression is its constant and needs no code. Any other expression leaves its value in a
register. A truth value that is only tested becomes jumps, and what does not decide it is skipped.
-/

namespace TreeCompiler.Emission

open EmitM

def emitAll (emit : NodeId → EmitM Operand) : List NodeId → EmitM (List Operand)
  | [] => pure []
  | id :: rest => do
    let operand ← emit id
    pure (operand :: (← emitAll emit rest))

/-- The register of a name, which has to be a variable or parameter declared before. -/
def emitName (id : NodeId) (name : String) : EmitM Operand := do
  match (← facts id).binding with
  | some (.localDecl decl) =>
    match ← register? decl with
    | some register => pure (.register register)
    | none => throw (.usedTooEarly name)
  | _ => throw (.noRuntimeValue name id)

/-- The jump that skips the right operand of a logical operator whose left value is in a
register. -/
def skipRight (op : BinaryOp) (left : Register) (skip : Label) : Op :=
  match op with
  | .and => .jumpFalse (.register left) skip
  | _ => .jumpTrue (.register left) skip

/-- A logical operator as a value: the right operand overwrites the left one unless it is
skipped. -/
def emitLogical (emit : NodeId → EmitM Operand) (op : BinaryOp) (lhs rhs : NodeId) :
    EmitM Operand := do
  let dest ← newRegister
  let left ← emit lhs
  add (.move left dest)
  let skip ← newHelper
  add (skipRight op dest skip)
  let right ← emit rhs
  add (.move right dest)
  placeJoin skip
  pure (.register dest)

/-- Any other operator as a value. -/
def emitBinary (emit : NodeId → EmitM Operand) (op : BinaryOp) (lhs rhs : NodeId) :
    EmitM Operand := do
  let left ← emit lhs
  let right ← emit rhs
  let dest ← newRegister
  add (.binary op left right dest)
  pure (.register dest)

/-- The value of an expression that is not constant, given how its operands are emitted. -/
def emitVariable (emit : NodeId → EmitM Operand) (id : NodeId) : Expr → EmitM Operand
  | .literal _ => throw (.literalNotFolded id)
  | .name name => emitName id name
  | .paren inner => emit inner
  | .unary op operand => do
    let operand ← emit operand
    let dest ← newRegister
    add (.unary op operand dest)
    pure (.register dest)
  | .binary op lhs rhs =>
    if op.isLogical then emitLogical emit op lhs rhs else emitBinary emit op lhs rhs
  | .tuple _ elements => do
    let elements ← emitAll emit elements
    let dest ← newRegister
    add (.makeTuple elements dest)
    pure (.register dest)

def emitExprWithin : Nat → NodeId → EmitM Operand
  | 0, id => throw (.endlessTree id)
  | depth + 1, id => do
    match (← facts id).constant with
    | some value => pure (.constant value)
    | none =>
      match (← tree).expr? id with
      | none => throw (.notAnExpression id)
      | some expr =>
        let operand ← emitVariable (emitExprWithin depth) id expr
        setStage id .emitted
        pure operand

/-- The jump on a truth value. -/
def jumpOn (outcome : Bool) (cond : Operand) (target : Label) : Op :=
  if outcome then .jumpTrue cond target else .jumpFalse cond target

/-- The jumps for a logical operator, given how the jumps for its operands are emitted. An operand
that decides jumps at once if the whole jumps on that; otherwise it skips the right operand. -/
def branchLogical (branch : NodeId → Bool → Label → EmitM Unit) (op : BinaryOp) (lhs rhs : NodeId)
    (outcome : Bool) (target : Label) : EmitM Unit := do
  let deciding := op == .or
  if outcome = deciding then
    branch lhs outcome target
    branch rhs outcome target
  else
    let skip ← newHelper
    branch lhs deciding skip
    branch rhs outcome target
    placeJoin skip

/-- Emits the jump to a label that is taken when an expression has the given truth value, down to a
depth. -/
def emitBranchWithin : Nat → NodeId → Bool → Label → EmitM Unit
  | 0, id, _, _ => throw (.endlessTree id)
  | depth + 1, id, outcome, target => do
    match (← facts id).constant with
    | some value =>
      let known ← onWork (.readPool (·.bool? value))
      addIf (known == some outcome) (.jump target)
    | none =>
      match (← tree).expr? id with
      | some (.unary .not operand) => emitBranchWithin depth operand (!outcome) target
      | some (.binary .and lhs rhs) =>
        branchLogical (emitBranchWithin depth) .and lhs rhs outcome target
      | some (.binary .or lhs rhs) =>
        branchLogical (emitBranchWithin depth) .or lhs rhs outcome target
      | _ =>
        let cond ← emitExprWithin (depth + 1) id
        add (jumpOn outcome cond target)
      setStage id .emitted

end TreeCompiler.Emission
