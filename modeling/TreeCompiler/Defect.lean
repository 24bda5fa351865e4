import TreeCompiler.Code.Method
import TreeCompiler.Failure
import TreeCompiler.Pool.Basic
import TreeCompiler.Tree.Facts

/-!
# Defects

The ways in which a unit can break the compiler's own rules. A defect is nobody's mistake in the
program being compiled; it abandons the unit.
-/

namespace TreeCompiler

/-- A broken rule of the compiler. -/
inductive Defect where
  | pool (error : PoolError)
  | code (error : CodeError)
  | notACategory (keyword : Keyword)
  | notAType (id : NodeId)
  | notAStatement (id : NodeId)
  | notAnExpression (id : NodeId)
  | notAMethod (id : NodeId)
  | notAnArm (id : NodeId)
  | armOutsideSwitch (id : NodeId)
  | unboundName (name : String) (id : NodeId)
  | untypedOperands (id : NodeId)
  | untypedElement (id : NodeId)
  | notValidated (id : NodeId) (stage : Stage)
  | methodNotValidated (id : NodeId) (stage : Stage)
  | constantTarget (id : NodeId)
  | unboundJump (id : NodeId)
  | notEmittable (id : NodeId)
  | undeclaredType (id : NodeId)
  | variableCase (id : NodeId)
  | notACondition (cond owner : NodeId)
  | literalNotFolded (id : NodeId)
  | usedTooEarly (name : String)
  | noRuntimeValue (name : String) (id : NodeId)
  | noRoot
  | rootNotEmittable (id : NodeId)
  | tooFar (stage : Stage)
  /-- A node contains itself. -/
  | endlessTree (id : NodeId)
  deriving DecidableEq, Repr, Inhabited

namespace Defect

def message : Defect → String
  | .pool error => error.message
  | .code error => error.message
  | .notACategory keyword =>
    "keyword `" ++ keyword.text ++ "` does not denote a type category"
  | .notAType id => id.text ++ " is not a type expression"
  | .notAStatement id => id.text ++ " is not a statement"
  | .notAnExpression id => id.text ++ " is not an expression"
  | .notAMethod id => id.text ++ " is not a method"
  | .notAnArm id => "switch member " ++ id.text ++ " is not a case"
  | .armOutsideSwitch id => "case " ++ id.text ++ " outside of a switch"
  | .unboundName name id => "name `" ++ name ++ "` at " ++ id.text ++ " reached validation unbound"
  | .untypedOperands id => "operands of " ++ id.text ++ " validated without a type"
  | .untypedElement id => "tuple element " ++ id.text ++ " validated without a type"
  | .notValidated id stage => id.text ++ " reached emission at stage " ++ stage.name
  | .methodNotValidated id stage =>
    "method " ++ id.text ++ " reached emission at stage " ++ stage.name
  | .constantTarget id => "assignment target " ++ id.text ++ " is constant"
  | .unboundJump id => id.text ++ " reached emission unbound"
  | .notEmittable id => id.text ++ " cannot be emitted as a statement"
  | .undeclaredType id => "declared type " ++ id.text ++ " has no type"
  | .variableCase id => "case value " ++ id.text ++ " is not constant"
  | .notACondition cond owner => cond.text ++ " is not a condition of " ++ owner.text
  | .literalNotFolded id => "literal " ++ id.text ++ " was not folded"
  | .usedTooEarly name => "local `" ++ name ++ "` used before its declaration"
  | .noRuntimeValue name id => "name `" ++ name ++ "` at " ++ id.text ++ " has no runtime value"
  | .noRoot => "unit has no root"
  | .rootNotEmittable id => "unit root " ++ id.text ++ " is not a module or method"
  | .tooFar stage => "cannot fast-forward to " ++ stage.name
  | .endlessTree id => id.text ++ " contains itself"

def failure (defect : Defect) : Failure := .invariant defect.message

end Defect

end TreeCompiler
