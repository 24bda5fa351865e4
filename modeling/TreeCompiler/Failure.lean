import TreeCompiler.Diagnostic.Basic

/-!
# Failures

What stops a piece of work altogether: a broken invariant of the compiler, a diagnostic that was
raised as an error, or an error from outside.
-/

namespace TreeCompiler

/-- Why a piece of work stopped. -/
inductive Failure where
  /-- The compiler broke one of its own rules. -/
  | invariant (text : String)
  /-- A diagnostic raised as an error. -/
  | diagnostic (reported : Diagnostic)
  /-- An error from outside. -/
  | generic (text : String)
  deriving DecidableEq, Repr, Inhabited

namespace Failure

def message : Failure → String
  | .invariant text => "internal compiler error: " ++ text
  | .diagnostic reported => reported.text
  | .generic text => "Generic error: " ++ text

/-- Whether the compiler itself is at fault. -/
def isInvariant : Failure → Bool
  | .invariant _ => true
  | .diagnostic _ | .generic _ => false

end Failure

end TreeCompiler
