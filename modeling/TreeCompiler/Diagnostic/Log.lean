import TreeCompiler.Diagnostic.Basic

/-!
# Logs and sinks

A log keeps the diagnostics of a unit in the order they came. It asks to stop once something fatal
was logged or the limit on serious diagnostics is reached. A sink is where a phase reports to: a log
or silence.
-/

namespace TreeCompiler

/-- The diagnostics of a unit, oldest first. A limit of 0 means no limit. -/
structure Log where
  limit : Nat := 0
  entries : List Diagnostic := []
  deriving DecidableEq, Repr, Inhabited

namespace Log

def worst (log : Log) : Severity :=
  log.entries.foldl (fun worst entry => worst.worse entry.severity) .none

/-- The number of serious diagnostics logged. -/
def serious (log : Log) : Nat := log.entries.countP (·.severity.isSerious)

def limitReached (log : Log) : Bool := 0 < log.limit && log.limit ≤ log.serious

/-- Whether the unit should be given up. -/
def abortDesired (log : Log) : Bool := log.worst == .fatal || log.limitReached

/-- Whether something serious was logged. -/
def hasSerious (log : Log) : Bool := log.worst.isSerious

def add (log : Log) (diagnostic : Diagnostic) : Log :=
  { log with entries := log.entries ++ [diagnostic] }

/-- Whether the caller should give up after having logged the diagnostic into the log. -/
def stopsAfter (log : Log) (diagnostic : Diagnostic) : Bool :=
  diagnostic.severity == .fatal || (log.add diagnostic).limitReached

def extend (log : Log) (diagnostics : List Diagnostic) : Log := diagnostics.foldl add log

/-- The number of diagnostics of a code. -/
def count (log : Log) (code : Code) : Nat := log.entries.countP (·.code == code)

/-- Whether a diagnostic of the code was logged. -/
def has (log : Log) (code : Code) : Bool := log.entries.any (·.code == code)

/-- Forgets everything but the limit. -/
def clear (log : Log) : Log := { limit := log.limit }

/-- A log of its own for work that may be thrown away, with the same limit. -/
def fresh (log : Log) : Log := { limit := log.limit }

end Log

/-- Where a phase reports to. -/
inductive Sink where
  /-- Diagnostics are kept. -/
  | keeping (log : Log)
  /-- Diagnostics are dropped, and nothing ever asks to stop. -/
  | silent
  deriving DecidableEq, Repr, Inhabited

namespace Sink

def report (diagnostic : Diagnostic) : Sink → Sink
  | .keeping log => .keeping (log.add diagnostic)
  | .silent => .silent

/-- Whether the unit should be given up. -/
def abortDesired : Sink → Bool
  | .keeping log => log.abortDesired
  | .silent => false

/-- Whether something serious was reported. -/
def hasSerious : Sink → Bool
  | .keeping log => log.hasSerious
  | .silent => false

/-- The diagnostics kept so far. -/
def entries : Sink → List Diagnostic
  | .keeping log => log.entries
  | .silent => []

/-- A sink for speculative work: nothing reported to it reaches this one. -/
def speculative : Sink → Sink
  | .keeping log => .keeping log.fresh
  | .silent => .silent

end Sink

end TreeCompiler
