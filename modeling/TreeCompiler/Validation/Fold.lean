import TreeCompiler.Arithmetic
import TreeCompiler.Operator
import TreeCompiler.Pool.Canonical

/-!
# Folding constants

The constant that an operator gives for constant operands, where there is one. Arithmetic that
overflows or divides by zero is left to run time.
-/

namespace TreeCompiler.Validation

/-- An operator on integers. -/
def foldInts (op : BinaryOp) (left right : Int64) : Option Constant :=
  match op with
  | .add => (Arithmetic.add? left right).map .int
  | .sub => (Arithmetic.sub? left right).map .int
  | .mul => (Arithmetic.mul? left right).map .int
  | .div => (Arithmetic.div? left right).map .int
  | .mod => (Arithmetic.mod? left right).map .int
  | .lt => some (.bool (left.toInt < right.toInt))
  | .le => some (.bool (left.toInt ≤ right.toInt))
  | .gt => some (.bool (right.toInt < left.toInt))
  | .ge => some (.bool (right.toInt ≤ left.toInt))
  | .eq | .ne | .and | .or => none

def foldChars (op : BinaryOp) (left right : Char) : Option Constant :=
  match op with
  | .lt => some (.bool (left.toNat < right.toNat))
  | .le => some (.bool (left.toNat ≤ right.toNat))
  | .gt => some (.bool (right.toNat < left.toNat))
  | .ge => some (.bool (right.toNat ≤ left.toNat))
  | .add | .sub | .mul | .div | .mod | .eq | .ne | .and | .or => none

/-- An operator other than a test for equality on two constants. -/
def foldConstants (op : BinaryOp) : Constant → Constant → Option Constant
  | .int left, .int right => foldInts op left right
  | .char left, .char right => foldChars op left right
  | .string left, .string right => if op = .add then some (.string (left ++ right)) else none
  | _, _ => none

/-- Whether an operator tests for equality, and for which answer. -/
def equalityTest? : BinaryOp → Option Bool
  | .eq => some true
  | .ne => some false
  | _ => none

/-- The constant of an operator on two constants. Equality is that of canonical constants. -/
def foldBinary (op : BinaryOp) (left right : ConstId) : PoolM (Option ConstId) := do
  match ← PoolM.read (·.get left), ← PoolM.read (·.get right) with
  | some leftValue, some rightValue =>
    match equalityTest? op with
    | some answer =>
      let equal := decide ((← PoolM.canonical left) = (← PoolM.canonical right))
      some <$> PoolM.bool (equal == answer)
    | none =>
      match foldConstants op leftValue rightValue with
      | some constant => some <$> PoolM.intern constant
      | none => pure none
  | _, _ => pure none

/-- The truth value of a logical operator, where it is known. The left operand decides alone if it
can; the right one is not enough by itself. -/
def foldLogical (op : BinaryOp) (left right : Option Bool) : Option Bool :=
  match op, left with
  | .and, some false => some false
  | .or, some true => some true
  | .and, some true | .or, some false => right
  | _, _ => none

def foldUnary (op : UnaryOp) (operand : ConstId) : PoolM (Option ConstId) := do
  match op with
  | .not =>
    match ← PoolM.read (·.bool? operand) with
    | some value => some <$> PoolM.bool !value
    | none => pure none
  | .neg =>
    match (← PoolM.read (·.int? operand)).bind Arithmetic.neg? with
    | some value => some <$> PoolM.int value
    | none => pure none

end TreeCompiler.Validation
