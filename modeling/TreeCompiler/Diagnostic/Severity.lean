/-!
# Severities

How bad a diagnostic is. An error or worse fails the unit it was reported for.
-/

namespace TreeCompiler

/-- How bad a diagnostic is, from nothing at all to fatal. -/
inductive Severity where
  | none
  | info
  | warning
  | error
  | fatal
  deriving DecidableEq, Repr, Inhabited

namespace Severity

/-- Every severity, mildest first. -/
def all : List Severity := [.none, .info, .warning, .error, .fatal]

def rank : Severity → Nat
  | .none => 0
  | .info => 1
  | .warning => 2
  | .error => 3
  | .fatal => 4

/-- Whether the severity fails the unit. -/
def isSerious (severity : Severity) : Bool := Severity.error.rank ≤ severity.rank

def worse (first second : Severity) : Severity :=
  if first.rank ≤ second.rank then second else first

/-- The word shown in front of a rendered diagnostic. -/
def label : Severity → String
  | .none => "NONE"
  | .info => "INFO"
  | .warning => "WARNING"
  | .error => "ERROR"
  | .fatal => "FATAL"

def name : Severity → String
  | .none => "None"
  | .info => "Info"
  | .warning => "Warning"
  | .error => "Error"
  | .fatal => "Fatal"

def ofName? (name : String) : Option Severity := all.find? (·.name == name)

end Severity

end TreeCompiler
