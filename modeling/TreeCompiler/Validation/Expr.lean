import TreeCompiler.Resolution.Types
import TreeCompiler.Validation.Fit
import TreeCompiler.Validation.Fold

/-!
# Validating types and expressions

Every node is validated once, its children first. Validation answers with the node that stands in
the tree from now on, which for a parenthesised expression is the inner one, or with nothing if the
node failed. A failure passes to the parent without another diagnostic.
-/

namespace TreeCompiler.Validation

open WorkM

/-- The type of an expression and its value if it is constant. -/
abbrev Typed := ConstId × Option ConstId

/-- Starts to validate a node, or says how its validation ended earlier. -/
def start (id : NodeId) : WorkM (Option (Option NodeId)) := do
  let stage ← stage id
  if stage = .failed then
    pure (some none)
  else if stage.hasReached .validated then
    pure (some (some id))
  else
    setStage id .validating
    pure none

/-- Ends the validation of a node, which another node may stand in for. -/
def conclude (id : NodeId) (result : Option NodeId) : WorkM (Option NodeId) := do
  match result with
  | some node =>
    setStage node .validated
    if node ≠ id then
      setStage id .validated
  | none => setStage id .failed
  pure result

/-- Validates a node unless that was done before. -/
def once (id : NodeId) (validate : WorkM (Option NodeId)) : WorkM (Option NodeId) := do
  match ← start id with
  | some done => pure done
  | none => conclude id (← validate)

/-- Whether a check holds for every entry. Every entry is checked. -/
def checkAll {α : Type} (check : α → WorkM Bool) : List α → WorkM Bool
  | [] => pure true
  | entry :: rest => do
    let ok ← check entry
    let restOk ← checkAll check rest
    pure (ok && restOk)

def allThere {α : Type} : List (Option α) → Option (List α)
  | [] => some []
  | none :: _ => none
  | some entry :: rest => (allThere rest).map (entry :: ·)

def validateTypeWithin : Nat → NodeId → WorkM (Option ConstId)
  | 0, id => throw (.endlessTree id)
  | depth + 1, id => do
    let result ← once id do
      let ok ← checkAll (fun child => do pure (← validateTypeWithin depth child).isSome)
        ((← tree).children id)
      if ok then
        pure ((← Resolution.resolveType id).map fun _ => id)
      else
        pure none
    match result with
    | some id => pure (← facts id).type
    | none => pure none

/-- The declared type of a variable or parameter, once its type expression is validated. -/
def localType (tree : Tree) (decl : NodeId) : Option ConstId :=
  let type := match tree.stmt? decl with
    | some (.varDecl type ..) | some (.condDecl type ..) => type
    | _ => decl
  if (tree.stage type).hasReached .validated then (tree.facts type).type else none

def validateLiteral (literal : Literal) : WorkM (Option Typed) := do
  let value ← onPool <| match literal with
    | .int value => .int value
    | .string value => .string value
    | .char value => .char value
    | .bool value => .bool value
    | .null => .null
  pure (some (← onPool (.typeOf value), some value))

/-- A name has the type of what it is bound to, which has to be a value. -/
def validateName (id : NodeId) (name : String) : WorkM (Option Typed) := do
  let tree ← tree
  match (tree.facts id).binding with
  | some (.localDecl decl) => pure ((localType tree decl).map fun type => (type, none))
  | some (.constant type value) => pure (some (type, some value))
  | some (.type _) | some (.space _) =>
    reportAt .notAValue id [name]
    pure none
  | none => throw (.unboundName name id)

/-- How subexpressions are validated: against the type asked for, if there is one. -/
abbrev ExprValidator := NodeId → Option ConstId → WorkM (Option NodeId)

/-- An operator with one operand takes and gives one type. -/
def validateUnary (validate : ExprValidator) (op : UnaryOp) (operand : NodeId) :
    WorkM (Option Typed) := do
  let type ← onPool <| match op with
    | .not => .booleanType
    | .neg => .intType
  match ← validate operand (some type) with
  | none => pure none
  | some operand =>
    match (← facts operand).constant with
    | some value => pure (some (type, ← onPool (foldUnary op value)))
    | none => pure (some (type, none))

/-- The truth value that a node is known to have. -/
def constantBool (id : NodeId) : WorkM (Option Bool) := do
  match (← facts id).constant with
  | some value => readPool (·.bool? value)
  | none => pure none

/-- A logical operator takes and gives truth values. -/
def validateLogical (validate : ExprValidator) (boolean : ConstId) (op : BinaryOp)
    (lhs rhs : NodeId) : WorkM (Option Typed) := do
  let left ← validate lhs (some boolean)
  let right ← validate rhs (some boolean)
  match left, right with
  | some left, some right =>
    let leftValue ← constantBool left
    let rightValue ← constantBool right
    match foldLogical op leftValue rightValue with
    | some value => pure (some (boolean, some (← onPool (.bool value))))
    | none => pure (some (boolean, none))
  | _, _ => pure none

/-- Checks that both operands share one of the allowed types, and reports the first that does not
have one against the first allowed type. -/
def checkOperands (id : NodeId) (first : ConstId) (others : List ConstId) (left right : ConstId) :
    WorkM Bool := do
  let allowed := first :: others
  if left = right ∧ left ∈ allowed then
    pure true
  else
    let culprit := if left ∈ allowed then right else left
    reportAt .wrongType id [← describe first, ← describe culprit]
    pure false

def checkComparable (id : NodeId) (left right : ConstId) : WorkM Bool := do
  if (← onPool (fit right left)).isFit then
    pure true
  else if (← onPool (fit left right)).isFit then
    pure true
  else
    reportAt .wrongType id [← describe left, ← describe right]
    pure false

/-- The result type of an operator that is not logical, given the types of its operands. -/
def binaryType (id : NodeId) (int boolean string : ConstId) (op : BinaryOp) (left right : ConstId) :
    WorkM (Option ConstId) := do
  match op with
  | .lt | .le | .gt | .ge =>
    let char ← onPool .charType
    pure (if ← checkOperands id int [char] left right then some boolean else none)
  | .eq | .ne => pure (if ← checkComparable id left right then some boolean else none)
  | .add =>
    if left = string ∨ right = string then
      pure (some string)
    else
      pure (if ← checkOperands id int [] left right then some int else none)
  | .sub | .mul | .div | .mod | .and | .or =>
    pure (if ← checkOperands id int [] left right then some int else none)

def operandTypes (id lhs rhs : NodeId) : WorkM (ConstId × ConstId) := do
  match (← facts lhs).type, (← facts rhs).type with
  | some left, some right => pure (left, right)
  | _, _ => throw (.untypedOperands id)

/-- The value of an operator on two validated operands, if both are constant and it has one. -/
def binaryConstant (op : BinaryOp) (lhs rhs : NodeId) : WorkM (Option ConstId) := do
  match (← facts lhs).constant, (← facts rhs).constant with
  | some left, some right => onPool (foldBinary op left right)
  | _, _ => pure none

/-- An operator with two operands. -/
def validateBinary (validate : ExprValidator) (id : NodeId) (op : BinaryOp) (lhs rhs : NodeId) :
    WorkM (Option Typed) := do
  let int ← onPool .intType
  let boolean ← onPool .booleanType
  let string ← onPool .stringType
  if op.isLogical then
    validateLogical validate boolean op lhs rhs
  else
    let left ← validate lhs none
    let right ← validate rhs none
    match left, right with
    | some left, some right =>
      let (leftType, rightType) ← operandTypes id left right
      match ← binaryType id int boolean string op leftType rightType with
      | some type => pure (some (type, ← binaryConstant op left right))
      | none => pure none
    | _, _ => pure none

def tupleFields (type : Option ConstId) : WorkM (Option (List ConstId)) := do
  match type with
  | none => pure none
  | some type =>
    match ← readPool (·.get type) with
    | some (.type (.tuple fields)) => pure (some fields)
    | _ => pure none

/-- Validates elements in order, each against the type in its place. -/
def validateElements (validate : ExprValidator) :
    List NodeId → List (Option ConstId) → WorkM (List (Option NodeId))
  | [], _ => pure []
  | element :: rest, [] => do
    let result ← validate element none
    pure (result :: (← validateElements validate rest []))
  | element :: rest, required :: others => do
    let result ← validate element required
    pure (result :: (← validateElements validate rest others))

/-- The types and values of validated elements. -/
def elementFacts : List NodeId → WorkM (List (ConstId × Option ConstId))
  | [] => pure []
  | element :: rest => do
    let facts ← facts element
    match facts.type with
    | some type => pure ((type, facts.constant) :: (← elementFacts rest))
    | none => throw (.untypedElement element)

/-- The elements of a tuple against the fields of the type it is declared or required to have. -/
def validateTupleElements (validate : ExprValidator) (declared : Option ConstId)
    (fields : Option (List ConstId)) (elements : List NodeId) : WorkM (Option Typed) := do
  let required := match fields.filter (·.length = elements.length) with
    | some fields => fields.map some
    | none => []
  match allThere (← validateElements validate elements required) with
  | none => pure none
  | some elements =>
    let parts ← elementFacts elements
    let type ← match declared with
      | some type => pure type
      | none => onPool (.tupleType (parts.map Prod.fst))
    match allThere (parts.map Prod.snd) with
    | some values => pure (some (type, some (← onPool (.tuple values))))
    | none => pure (some (type, none))

/-- A tuple. A type of its own has to have as many fields as there are elements; a type that is only
asked for guides the elements if it has. -/
def validateTuple (validate : ExprValidator) (validateType : NodeId → WorkM (Option ConstId))
    (id : NodeId) (type : Option NodeId) (elements : List NodeId) (required : Option ConstId) :
    WorkM (Option Typed) := do
  match type with
  | none => validateTupleElements validate none (← tupleFields required) elements
  | some typeNode =>
    match ← validateType typeNode with
    | none => pure none
    | some declared =>
      let fields ← tupleFields (some declared)
      if fields.all (·.length = elements.length) then
        validateTupleElements validate (some declared) fields elements
      else
        let count := (fields.map List.length).getD 0
        reportAt .tupleTypeWrongArity id [toString elements.length, toString count]
        pure none

/-- Notes the type and value of an expression and checks that it fits what is asked for. -/
def settleExpr (id : NodeId) (required : Option ConstId) (type : ConstId)
    (constant : Option ConstId) : WorkM (Option NodeId) := do
  modifyFacts id fun facts => { facts with type := some type, constant }
  match required with
  | none => pure (some id)
  | some required =>
    let fit ← onPool (fit type required)
    modifyFacts id fun facts => { facts with fit := some fit }
    if fit.isFit then
      pure (some id)
    else
      reportAt .wrongType id [← describe required, ← describe type]
      pure none

/-- A parenthesised expression gives its place to the inner one. -/
def validateParen (validate : ExprValidator) (id inner : NodeId) (required : Option ConstId) :
    WorkM (Option NodeId) := do
  let result ← validate inner required
  match result, (← tree).parent? id with
  | some inner, some parent =>
    let _ ← onTree (·.replaceChild parent id inner)
  | _, _ => pure ()
  pure result

/-- Validates an expression down to a depth, against the type asked for. -/
def validateExprWithin : Nat → ExprValidator
  | 0, id, _ => throw (.endlessTree id)
  | depth + 1, id, required =>
    once id do
      let settle (typed : Option Typed) : WorkM (Option NodeId) := do
        match typed with
        | some (type, constant) => settleExpr id required type constant
        | none => pure none
      match (← tree).expr? id with
      | none => throw (.notAnExpression id)
      | some (.literal literal) => settle (← validateLiteral literal)
      | some (.name name) => settle (← validateName id name)
      | some (.paren inner) => validateParen (validateExprWithin depth) id inner required
      | some (.unary op operand) => settle (← validateUnary (validateExprWithin depth) op operand)
      | some (.binary op lhs rhs) =>
        settle (← validateBinary (validateExprWithin depth) id op lhs rhs)
      | some (.tuple type elements) =>
        settle (← validateTuple (validateExprWithin depth) (validateTypeWithin depth) id type elements
          required)

/-- Validates a type expression and gives its canonical type. -/
def validateType (id : NodeId) : WorkM (Option ConstId) := do
  validateTypeWithin (← tree).fuel id

def validateExpr (id : NodeId) (required : Option ConstId) : WorkM (Option NodeId) := do
  validateExprWithin (← tree).fuel id required

end TreeCompiler.Validation
