import TreeCompiler.Operator
import TreeCompiler.Pool.Constant

/-!
# Register code

The instructions of a method. They work on registers and on constants of the pool and jump to
labels. A label belongs to the statement whose label scope it names and plays one role in it.
-/

namespace TreeCompiler

/-- A register of a method. -/
structure Register where
  index : Nat
  deriving DecidableEq, Repr, Inhabited

namespace Register

def text (register : Register) : String := "r" ++ toString register.index

end Register

/-- The role of a label in its scope. -/
inductive LabelKind where
  /-- The entry of a loop. -/
  | repeatLoop
  | continueLoop
  | breakOut
  | elseBranch
  | endBranch
  /-- The test of a `for` loop. -/
  | test
  | switchCase (index : Nat)
  /-- A helper label of one buffer. -/
  | helper (index : Nat)
  deriving DecidableEq, Repr, Inhabited

namespace LabelKind

/-- The role's place in the order of roles, and its index if it has one. -/
def rank : LabelKind → Nat × Nat
  | .repeatLoop => (0, 0)
  | .continueLoop => (1, 0)
  | .breakOut => (2, 0)
  | .elseBranch => (3, 0)
  | .endBranch => (4, 0)
  | .test => (5, 0)
  | .switchCase index => (6, index)
  | .helper index => (7, index)

def name : LabelKind → String
  | .repeatLoop => "Repeat"
  | .continueLoop => "Continue"
  | .breakOut => "Break"
  | .elseBranch => "Else"
  | .endBranch => "End"
  | .test => "Test"
  | .switchCase _ => "Case"
  | .helper _ => "Local"

end LabelKind

/-- A jump target: a label scope and a role in it. -/
structure Label where
  scope : UInt32
  kind : LabelKind
  deriving DecidableEq, Repr, Inhabited

namespace Label

def text (label : Label) : String :=
  match label.kind with
  | .switchCase index => "Case" ++ toString index ++ "_" ++ toString label.scope.toNat
  | .helper index => "L" ++ toString index
  | kind => kind.name ++ "_" ++ toString label.scope.toNat

/-- What labels are ordered by: the scope, then the role. -/
def rank (label : Label) : List Nat :=
  [label.scope.toNat, label.kind.rank.1, label.kind.rank.2]

end Label

/-- What an instruction reads. -/
inductive Operand where
  | register (register : Register)
  | constant (id : ConstId)
  deriving DecidableEq, Repr, Inhabited

namespace Operand

def register? : Operand → Option Register
  | .register reg => some reg
  | .constant _ => none

end Operand

/-- An instruction. -/
inductive Op where
  | enter
  | exit
  | declare (register : Register) (type : ConstId)
  | move (source : Operand) (dest : Register)
  | jump (target : Label)
  | jumpTrue (cond : Operand) (target : Label)
  | jumpFalse (cond : Operand) (target : Label)
  | jumpNull (value : Operand) (target : Label)
  | jumpEq (lhs rhs : Operand) (target : Label)
  | binary (op : BinaryOp) (lhs rhs : Operand) (dest : Register)
  | unary (op : UnaryOp) (operand : Operand) (dest : Register)
  | makeTuple (elements : List Operand) (dest : Register)
  | returnValues (values : List Operand)
  | returnNothing
  deriving DecidableEq, Repr, Inhabited

namespace Op

def target? : Op → Option Label
  | .jump label | .jumpTrue _ label | .jumpFalse _ label | .jumpNull _ label
  | .jumpEq _ _ label => some label
  | .enter | .exit | .declare .. | .move .. | .binary .. | .unary .. | .makeTuple ..
  | .returnValues _ | .returnNothing => none

/-- Whether control never reaches the next instruction. -/
def isTerminal : Op → Bool
  | .jump _ | .returnValues _ | .returnNothing => true
  | _ => false

/-- The word an instruction is listed under. -/
def mnemonic : Op → String
  | .enter => "ENTER"
  | .exit => "EXIT"
  | .declare .. => "VAR"
  | .move .. => "MOV"
  | .jump _ => "JMP"
  | .jumpTrue .. => "JMP_TRUE"
  | .jumpFalse .. => "JMP_FALSE"
  | .jumpNull .. => "JMP_NULL"
  | .jumpEq .. => "JMP_EQ"
  | .binary .. => "BINOP"
  | .unary .. => "UNOP"
  | .makeTuple .. => "TUPLE"
  | .returnValues _ => "RETURN"
  | .returnNothing => "RETURN_0"

/-- The operands an instruction reads, in order. -/
def operands : Op → List Operand
  | .move source _ => [source]
  | .jumpTrue cond _ | .jumpFalse cond _ => [cond]
  | .jumpNull value _ => [value]
  | .jumpEq lhs rhs _ => [lhs, rhs]
  | .binary _ lhs rhs _ => [lhs, rhs]
  | .unary _ operand _ => [operand]
  | .makeTuple elements _ => elements
  | .returnValues values => values
  | .enter | .exit | .declare .. | .jump _ | .returnNothing => []

def written? : Op → Option Register
  | .declare reg _ | .move _ reg | .binary _ _ _ reg | .unary _ _ reg | .makeTuple _ reg => some reg
  | .enter | .exit | .jump _ | .jumpTrue .. | .jumpFalse .. | .jumpNull .. | .jumpEq ..
  | .returnValues _ | .returnNothing => none

/-- Every register an instruction mentions: those it reads, then the one it writes. -/
def registers (op : Op) : List Register :=
  op.operands.filterMap Operand.register? ++ op.written?.toList

end Op

end TreeCompiler
