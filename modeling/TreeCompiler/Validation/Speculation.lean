import TreeCompiler.Tree.Copy
import TreeCompiler.Validation.Expr

/-!
# Speculation

How an expression would fit a type, found out on a copy. The expression itself, the number of nodes
and the diagnostics stay as they are, whether the attempt succeeds or not.
-/

namespace TreeCompiler.Validation

open WorkM

/-- Runs a step whose diagnostics are thrown away. -/
def withSpeculativeSink {α : Type} (step : WorkM α) : WorkM (Except Defect α) := do
  let sink := (← get).sink
  modify fun work => { work with sink := sink.speculative }
  let result ← attempt step
  modify fun work => { work with sink }
  pure result

/-- The fit of a node once it is validated, or failure if it cannot be. -/
def fitOfValidated (id : NodeId) (required : ConstId) : WorkM Fit := do
  match ← validateExpr id none with
  | none => pure .fail
  | some id =>
    match (← facts id).type with
    | some type => onPool (fit type required)
    | none => pure .fail

/-- How an expression would fit a type. -/
def speculate (id : NodeId) (required : ConstId) : WorkM Fit := do
  let size := (← tree).size
  let copy ← onTree (·.copy id)
  let result ← withSpeculativeSink (fitOfValidated copy required)
  changeTree (·.truncate size)
  match result with
  | .ok fit => pure fit
  | .error defect => throw defect

end TreeCompiler.Validation
