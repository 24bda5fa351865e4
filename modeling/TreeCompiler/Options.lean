import TreeCompiler.Text.Blank
import TreeCompiler.Text.Json
import TreeCompiler.Text.Numeral

/-!
# Compile options

The switches of a session and how they are read from the environment. A variable whose value is
blank counts as unset, and a number that cannot be read is ignored.
-/

namespace TreeCompiler

/-- The switches of a session. -/
structure Options where
  /-- Bound on name-resolution sweeps; without one it is derived from the tree. -/
  maxSweeps : Option Nat := none
  /-- Serious diagnostics tolerated before a unit is abandoned; 0 means no limit. -/
  maxErrors : Nat := 0
  /-- Warn on the first unreachable statement of a sequence. -/
  warnUnreachable : Bool := true
  /-- Ask for detailed logging. -/
  verbose : Bool := false
  deriving DecidableEq, Repr, Inhabited

namespace Options

/-- The values that switch a flag off. -/
def falseWords : List String := ["0", "false", "FALSE", "False"]

/-- A variable's value without surrounding blanks, if anything is left of it. -/
def value? (environment : String → Option String) (key : String) : Option String :=
  ((environment key).map Text.trimBlank).filter (· ≠ "")

/-- A flag: set by any value that is not one of `falseWords`. -/
def flag? (environment : String → Option String) (key : String) : Option Bool :=
  (value? environment key).map fun value => !falseWords.contains value

/-- A number, if the variable holds one. -/
def number? (environment : String → Option String) (key : String) : Option Nat :=
  (value? environment key).bind fun value => Text.numeral? value.toList

def ofEnvironment (environment : String → Option String) : Options where
  maxSweeps := number? environment "XC_MAX_SWEEPS"
  maxErrors := (number? environment "XC_MAX_ERRORS").getD 0
  warnUnreachable := (flag? environment "XC_WARN_UNREACHABLE").getD true
  verbose := (flag? environment "XC_VERBOSE").getD false

def toJson (options : Options) : Text.Json :=
  .object
    [("max_resolve_sweeps", .ofOption Text.Json.nat options.maxSweeps),
      ("max_errors", .nat options.maxErrors),
      ("warn_unreachable", .bool options.warnUnreachable),
      ("verbose", .bool options.verbose)]

end Options

end TreeCompiler
