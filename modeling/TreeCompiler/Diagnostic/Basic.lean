import TreeCompiler.Diagnostic.Code
import TreeCompiler.Diagnostic.Severity
import TreeCompiler.Span

/-!
# Diagnostics

A diagnostic is a code with its arguments and, usually, a place. It can be written on one line, on
several lines, or handed to a front end as a report.
-/

namespace TreeCompiler

/-- Something to tell the user about a unit. -/
structure Diagnostic where
  severity : Severity
  code : Code
  args : List String := []
  span : Option Span := none
  suggestions : List String := []
  context : Option String := none
  deriving DecidableEq, Repr, Inhabited

/-- How prominently a front end shows a report. -/
inductive Report.Level where
  | advice
  | warning
  | error
  deriving DecidableEq, Repr, Inhabited

/-- A marked place of a report. -/
structure Report.Mark where
  text : String
  offset : Nat
  length : Nat
  deriving DecidableEq, Repr, Inhabited

/-- A diagnostic prepared for a front end that shows it beside the source. -/
structure Report where
  message : String
  code : String
  level : Report.Level
  help : Option String
  marks : List Report.Mark
  deriving DecidableEq, Repr, Inhabited

namespace Report

def Level.name : Level → String
  | .advice => "Advice"
  | .warning => "Warning"
  | .error => "Error"

def Mark.toJson (mark : Mark) : Text.Json :=
  .list [.text mark.text, .nat mark.offset, .nat mark.length]

def toJson (report : Report) : Text.Json :=
  .object
    [("message", .text report.message), ("code", .text report.code),
      ("severity", .text report.level.name), ("help", .ofOption .text report.help),
      ("labels", .ofList Mark.toJson report.marks)]

end Report

namespace Diagnostic

def errorAt (code : Code) (args : List String) (span : Span) : Diagnostic :=
  { severity := .error, code, args, span := some span }

def warningAt (code : Code) (args : List String) (span : Span) : Diagnostic :=
  { severity := .warning, code, args, span := some span }

def message (diagnostic : Diagnostic) : String := diagnostic.code.message diagnostic.args

/-- The suggestions on one line, if there are any. -/
def hints (diagnostic : Diagnostic) : Option String :=
  match diagnostic.suggestions with
  | [] => none
  | suggestions => some (String.intercalate "; " suggestions)

def text (diagnostic : Diagnostic) : String :=
  let line := diagnostic.message ++ " [" ++ diagnostic.code.text ++ "]"
  match diagnostic.hints with
  | none => line
  | some hints => line ++ " (hints: " ++ hints ++ ")"

/-- The diagnostic as a headline followed by its place and its suggestions. -/
def lines (diagnostic : Diagnostic) : List String :=
  let headline := "[" ++ diagnostic.context.getD "compiler" ++ "] " ++ diagnostic.severity.label
    ++ ": " ++ diagnostic.message ++ " (" ++ diagnostic.code.text ++ ")"
  headline :: diagnostic.span.toList.map (fun span => "   at " ++ span.text)
    ++ diagnostic.suggestions.map (fun suggestion => "   suggestion: " ++ suggestion)

def toJson (diagnostic : Diagnostic) : Text.Json :=
  .object
    [("severity", .text diagnostic.severity.name), ("name", .text diagnostic.code.name),
      ("args", .ofList .text diagnostic.args), ("span", .ofOption Span.toJson diagnostic.span),
      ("text", .text diagnostic.text)]

/-- How prominently a severity is shown. -/
def level : Severity → Report.Level
  | .none | .info => .advice
  | .warning => .warning
  | .error | .fatal => .error

/-- The diagnostic prepared for a front end. Its place is marked with the code. -/
def report (diagnostic : Diagnostic) : Report where
  message := diagnostic.message
  code := diagnostic.code.text
  level := level diagnostic.severity
  help := diagnostic.hints
  marks := diagnostic.span.toList.map fun span =>
    { text := diagnostic.code.text, offset := span.lo, length := span.length }

end Diagnostic

end TreeCompiler
