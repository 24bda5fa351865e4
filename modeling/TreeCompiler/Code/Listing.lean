import TreeCompiler.Code.Method
import TreeCompiler.Pool.Describe

/-!
# Listings

The code of a method as text, with constants described through the pool.
-/

namespace TreeCompiler

namespace Operand

def text (describe : ConstId → String) : Operand → String
  | .register reg => reg.text
  | .constant id => describe id

def listText (describe : ConstId → String) (operands : List Operand) : String :=
  String.intercalate ", " (operands.map (text describe))

end Operand

namespace Op

/-- What is listed behind the mnemonic. -/
def details (describe : ConstId → String) : Op → String
  | .enter | .exit | .returnNothing => ""
  | .declare reg ty => " " ++ reg.text ++ " " ++ describe ty
  | .move source dest => " " ++ source.text describe ++ " -> " ++ dest.text
  | .jump label => " " ++ label.text
  | .jumpTrue cond label | .jumpFalse cond label => " " ++ cond.text describe ++ " " ++ label.text
  | .jumpNull value label => " " ++ value.text describe ++ " " ++ label.text
  | .jumpEq lhs rhs label =>
    " " ++ lhs.text describe ++ ", " ++ rhs.text describe ++ " " ++ label.text
  | .binary op lhs rhs dest =>
    " " ++ lhs.text describe ++ " " ++ op.sign ++ " " ++ rhs.text describe ++ " -> " ++ dest.text
  | .unary op operand dest => " " ++ op.sign ++ operand.text describe ++ " -> " ++ dest.text
  | .makeTuple elements dest =>
    " (" ++ Operand.listText describe elements ++ ") -> " ++ dest.text
  | .returnValues values => " " ++ Operand.listText describe values

/-- An instruction as it is listed. -/
def text (describe : ConstId → String) (op : Op) : String := op.mnemonic ++ op.details describe

end Op

namespace Method

def labelLines (method : Method) (offset : Nat) : List String :=
  (method.labels.filter (·.2 == offset)).map fun placement => "    " ++ placement.1.text ++ ":"

/-- The lines for the instructions from an offset on, each behind the labels in front of it. -/
def opLines (method : Method) (describe : ConstId → String) (offset : Nat) : List Op → List String
  | [] => method.labelLines offset
  | op :: rest =>
    method.labelLines offset
      ++ ("        " ++ toString offset ++ ": " ++ op.text describe)
      :: method.opLines describe (offset + 1) rest

def listing (method : Method) (pool : Pool) : String :=
  let headline := "method " ++ method.name ++ " (registers: " ++ toString method.registers ++ ")"
  String.join ((headline :: method.opLines pool.describe 0 method.ops).map (· ++ "\n"))

end Method

end TreeCompiler
