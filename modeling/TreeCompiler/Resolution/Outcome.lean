import TreeCompiler.Text.Json

/-!
# How resolution ended
-/

namespace TreeCompiler

/-- How resolving the names of a unit ended. -/
inductive Outcome where
  /-- Nothing was left to resolve. -/
  | complete (sweeps : Nat)
  /-- A sweep resolved nothing new. -/
  | noProgress (sweeps unresolved : Nat)
  /-- The last sweep allowed left something. -/
  | sweepLimit (sweeps unresolved : Nat)
  deriving DecidableEq, Repr, Inhabited

namespace Outcome

/-- The number of sweeps made. -/
def sweeps : Outcome → Nat
  | .complete sweeps | .noProgress sweeps _ | .sweepLimit sweeps _ => sweeps

/-- Whether nothing was left. -/
def isComplete : Outcome → Bool
  | .complete _ => true
  | _ => false

def toJson : Outcome → Text.Json
  | .complete sweeps => .tagged "Complete" (.object [("sweeps", .nat sweeps)])
  | .noProgress sweeps unresolved =>
    .tagged "NoProgress" (.object [("sweeps", .nat sweeps), ("unresolved", .nat unresolved)])
  | .sweepLimit sweeps unresolved =>
    .tagged "SweepLimit" (.object [("sweeps", .nat sweeps), ("unresolved", .nat unresolved)])

end Outcome

end TreeCompiler
