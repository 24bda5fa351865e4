import TreeCompiler.Text.Replace

/-!
# Diagnostic codes

Every kind of diagnostic has a code and a message template. A slot of the template is a number in
braces; arguments are put in one after another, so text that an earlier argument brought in is
searched again for the slots of later ones.
-/

namespace TreeCompiler

/-- The kinds of diagnostics. -/
inductive Code where
  | internalError
  | nameCollision
  | nameUnresolvable
  | returnExpected
  | wrongType
  | wrongTypeArity
  | notReachable
  | returnRequired
  | notAType
  | notAValue
  | notConstant
  | notAssignable
  | tupleTypeWrongArity
  | switchDefaultDuplicate
  | switchCaseDuplicate
  | missingGotoLabel
  | missingGotoTarget
  | illegalContinueTarget
  | duplicateLabel
  | infiniteLoop
  deriving DecidableEq, Repr, Inhabited

namespace Code

/-- Every code, in the order of their numbers. -/
def all : List Code :=
  [.internalError, .nameCollision, .nameUnresolvable, .returnExpected, .wrongType, .wrongTypeArity,
    .notReachable, .returnRequired, .notAType, .notAValue, .notConstant, .notAssignable,
    .tupleTypeWrongArity, .switchDefaultDuplicate, .switchCaseDuplicate, .missingGotoLabel,
    .missingGotoTarget, .illegalContinueTarget, .duplicateLabel, .infiniteLoop]

def name : Code → String
  | .internalError => "InternalError"
  | .nameCollision => "NameCollision"
  | .nameUnresolvable => "NameUnresolvable"
  | .returnExpected => "ReturnExpected"
  | .wrongType => "WrongType"
  | .wrongTypeArity => "WrongTypeArity"
  | .notReachable => "NotReachable"
  | .returnRequired => "ReturnRequired"
  | .notAType => "NotAType"
  | .notAValue => "NotAValue"
  | .notConstant => "NotConstant"
  | .notAssignable => "NotAssignable"
  | .tupleTypeWrongArity => "TupleTypeWrongArity"
  | .switchDefaultDuplicate => "SwitchDefaultDuplicate"
  | .switchCaseDuplicate => "SwitchCaseDuplicate"
  | .missingGotoLabel => "MissingGotoLabel"
  | .missingGotoTarget => "MissingGotoTarget"
  | .illegalContinueTarget => "IllegalContinueTarget"
  | .duplicateLabel => "DuplicateLabel"
  | .infiniteLoop => "InfiniteLoop"

def ofName? (name : String) : Option Code := all.find? (·.name == name)

def text : Code → String
  | .internalError => "COMPILER-00"
  | .nameCollision => "COMPILER-31"
  | .nameUnresolvable => "COMPILER-38"
  | .returnExpected => "COMPILER-41"
  | .wrongType => "COMPILER-43"
  | .wrongTypeArity => "COMPILER-44"
  | .notReachable => "COMPILER-46"
  | .returnRequired => "COMPILER-49"
  | .notAType => "COMPILER-57"
  | .notAValue => "COMPILER-58"
  | .notConstant => "COMPILER-59"
  | .notAssignable => "COMPILER-60"
  | .tupleTypeWrongArity => "COMPILER-66"
  | .switchDefaultDuplicate => "COMPILER-75"
  | .switchCaseDuplicate => "COMPILER-77"
  | .missingGotoLabel => "COMPILER-88"
  | .missingGotoTarget => "COMPILER-89"
  | .illegalContinueTarget => "COMPILER-90"
  | .duplicateLabel => "COMPILER-93"
  | .infiniteLoop => "COMPILER-155"

def slot (position : Nat) : String := "\x7b" ++ toString position ++ "\x7d"

/-- The message with slots for its arguments. -/
def template : Code → String
  | .internalError => "Internal compiler error: " ++ slot 0
  | .nameCollision => "The name \"" ++ slot 0 ++ "\" is already declared in this scope."
  | .nameUnresolvable => "Unable to resolve name: \"" ++ slot 0 ++ "\"."
  | .returnExpected => "Expected " ++ slot 0 ++ " return value(s); found " ++ slot 1 ++ "."
  | .wrongType => "Type mismatch: " ++ slot 0 ++ " expected, " ++ slot 1 ++ " found."
  | .wrongTypeArity => "Expected " ++ slot 0 ++ " value(s); found " ++ slot 1 ++ "."
  | .notReachable => "Statement is not reachable."
  | .returnRequired => "Method \"" ++ slot 0 ++ "\" must return a value."
  | .notAType => "\"" ++ slot 0 ++ "\" does not name a type."
  | .notAValue => "\"" ++ slot 0 ++ "\" names a type, not a value."
  | .notConstant => "A constant value is required."
  | .notAssignable => "\"" ++ slot 0 ++ "\" is not an assignable variable."
  | .tupleTypeWrongArity =>
    "The tuple type specifies " ++ slot 1 ++ " field(s); " ++ slot 0 ++ " field(s) found."
  | .switchDefaultDuplicate => "The switch already has a default case."
  | .switchCaseDuplicate => "The case value " ++ slot 0 ++ " is already used in this switch."
  | .missingGotoLabel => "The label \"" ++ slot 0 ++ "\" could not be found."
  | .missingGotoTarget =>
    "The \"" ++ slot 0 ++ "\" statement does not have an enclosing statement to jump to."
  | .illegalContinueTarget =>
    "The \"continue\" statement cannot target \"" ++ slot 0 ++ "\", which is not a loop."
  | .duplicateLabel => "The label \"" ++ slot 0 ++ "\" is already in use."
  | .infiniteLoop => "Infinite loop with an empty body."

/-- Puts the arguments into the slots from `position` on, one after another. -/
def fillFrom (position : Nat) (message : List Char) : List String → List Char
  | [] => message
  | argument :: rest =>
    fillFrom (position + 1) (Text.replaceAll (slot position).toList argument.toList message) rest

def message (code : Code) (args : List String) : String :=
  String.ofList (fillFrom 0 code.template.toList args)

end Code

end TreeCompiler
