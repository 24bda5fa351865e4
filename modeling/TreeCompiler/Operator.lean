/-!
# Operators

The unary and binary operators of expressions, shared by trees and code.
-/

namespace TreeCompiler

/-- The operators with one operand. -/
inductive UnaryOp where
  | not
  | neg
  deriving DecidableEq, Repr, Inhabited

namespace UnaryOp

/-- Every unary operator. -/
def all : List UnaryOp := [.not, .neg]

def sign : UnaryOp → String
  | .not => "!"
  | .neg => "-"

def name : UnaryOp → String
  | .not => "Not"
  | .neg => "Neg"

def ofName? (name : String) : Option UnaryOp := all.find? (·.name == name)

end UnaryOp

/-- The operators with two operands. -/
inductive BinaryOp where
  | add
  | sub
  | mul
  | div
  | mod
  | lt
  | le
  | gt
  | ge
  | eq
  | ne
  | and
  | or
  deriving DecidableEq, Repr, Inhabited

namespace BinaryOp

/-- Every binary operator. -/
def all : List BinaryOp :=
  [.add, .sub, .mul, .div, .mod, .lt, .le, .gt, .ge, .eq, .ne, .and, .or]

def sign : BinaryOp → String
  | .add => "+"
  | .sub => "-"
  | .mul => "*"
  | .div => "/"
  | .mod => "%"
  | .lt => "<"
  | .le => "<="
  | .gt => ">"
  | .ge => ">="
  | .eq => "=="
  | .ne => "!="
  | .and => "&&"
  | .or => "||"

def name : BinaryOp → String
  | .add => "Add"
  | .sub => "Sub"
  | .mul => "Mul"
  | .div => "Div"
  | .mod => "Mod"
  | .lt => "Lt"
  | .le => "Le"
  | .gt => "Gt"
  | .ge => "Ge"
  | .eq => "Eq"
  | .ne => "Ne"
  | .and => "And"
  | .or => "Or"

def ofName? (name : String) : Option BinaryOp := all.find? (·.name == name)

def ofSign? (sign : String) : Option BinaryOp := all.find? (·.sign == sign)

/-- Whether the right operand may be skipped. -/
def isLogical : BinaryOp → Bool
  | .and | .or => true
  | _ => false

/-- Whether the operator compares its operands. -/
def isComparison : BinaryOp → Bool
  | .lt | .le | .gt | .ge | .eq | .ne => true
  | _ => false

/-- Whether the operator computes with its operands. -/
def isArithmetic (op : BinaryOp) : Bool := !op.isLogical && !op.isComparison

end BinaryOp

end TreeCompiler
